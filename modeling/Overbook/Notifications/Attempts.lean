import Overbook.Notifications.HandedOnce
import Overbook.Pipeline
import Overbook.Retrying

/-! One notification that is retried. Its records, its row in `processed_messages`, its deliveries
and its dead letters are those of work that is tried again after each failure. -/
namespace Overbook.Notifications

open Async Prog Kafka Retrying Floating

def Relayed (toISOString : Time → String) (m : BookingMessage) (x : Ext) : Prop :=
  ∃ partition, x = .produce m.topic partition (some m.key)
    (some (.json (m.value.json toISOString))) m.headers

/-- Records are handed out once, and the message of `row` is published once, by the relay. Anything
else may be published, under other ids. -/
def once (config : AppConfiguration) (toISOString : Time → String) (row : OutboxRow)
    (p : ConsumerPool) (a : Act Job Choice Ext) : Prop :=
  handedOnce config p a ∧ match a with
    | .env (.produce topic partition key value headers) =>
      (p.shared.produced topic partition key value headers).messageId = row.id →
        Relayed toISOString (relayMessage row) (.produce topic partition key value headers) ∧
          ∀ r ∈ p.shared.log, r.messageId ≠ row.id
    | _ => True

/-- Settings whose counters, waits and stamps are whole numbers that doubles add up exactly. -/
structure Moderate (config : AppConfiguration) : Prop where
  base : 0 < config.notifications.retryBaseMs
  most : 0 < config.notifications.retryMaxMs
  short : config.notifications.retryMaxMs + lastTime ≤ 2 ^ 53
  few : config.notifications.maxAttempts ≤ 2 ^ 53

def attemptLimit (config : AppConfiguration) : Nat := (max 1 config.notifications.maxAttempts).toNat

theorem default_moderate : Moderate {} := ⟨by decide, by decide, by decide, by decide⟩

theorem Moderate.below {config : AppConfiguration} (h : Moderate config) {n : Nat}
    (lt : n < attemptLimit config) : n < 2 ^ 53 := by
  have few := h.few
  unfold attemptLimit at lt
  omega

/-! The accounts of one message. -/

def tried (id : String) : Prog.Event Effect.Answer Err → Option Bool
  | ⟨.deliver message, .ok _⟩ => if message.messageId = id then some true else none
  | ⟨.deliver message, .error _⟩ => if message.messageId = id then some false else none
  | _ => none

def tries (id : String) (entries : List (Entry Inbox Effect.Answer Err)) : List Bool :=
  entries.filterMap fun x => tried id x.event

def copies (id : String) (s : Inbox) : List Record := s.log.filter fun r => r.messageId == id

structure Account where
  claimed : Bool
  sent : Nat
  letters : List (Num × Option Num)

def Dead.attempts (d : Dead) : Num × Option Num :=
  (d.message.value.attempts, d.message.headers.attempts)

def account (group id : String) (s : Inbox) : Account where
  claimed := (s.processed (id, group)).isSome
  sent := (s.delivered.filter fun d => d.message.messageId == id).length
  letters := (s.dlq.filter fun d => d.origin == .named id).map Dead.attempts

def accountOf (w : Work) : Account :=
  match w.stage with
  | .waiting | .released => ⟨false, 0, []⟩
  | .trying | .failed => ⟨true, 0, []⟩
  | .succeeded => ⟨true, 1, []⟩
  | .abandoned => ⟨false, 0, [(.ofInt (w.failures + 1), some (.ofInt (w.failures + 1)))]⟩

variable {config : AppConfiguration} {approx : Rat → Rat} {toISOString : Time → String}
  {row : OutboxRow} {j : Job} {record : Record} {point : Point} {t : Tid} {s s' : Inbox}
  {group id : String} {y : Prog.Event Effect.Answer Err}

theorem tries_snoc (id : String) (entries : List (Entry Inbox Effect.Answer Err))
    (x : Entry Inbox Effect.Answer Err) :
    tries id (entries ++ [x]) = tries id entries ++ (tried id x.event).toList := by
  cases h : tried id x.event <;> simp [tries, h]

theorem tried_at (effect : point.effect config approx j record = some y.1)
    (other : point ≠ .delivering ∨ record.messageId ≠ id) : tried id y = none := by
  obtain ⟨e, r⟩ := y
  cases point with
  | delivering =>
    cases effect
    have differs := other.resolve_left fun h => h rfl
    cases r <;> exact if_neg differs
  | through => cases effect
  | _ =>
    cases effect
    rfl

theorem account_setClaim (s : Inbox) (row : Option Claimed) :
    account group id (s.setClaim (id, group) row) = { account group id s with claimed := row.isSome } := by
  simp [account, Inbox.setClaim]

theorem account_setClaim_of_ne {key : String} (ne : key ≠ id) (s : Inbox) (row : Option Claimed) :
    account group id (s.setClaim (key, group) row) = account group id s := by
  have other : (id, group) ≠ (key, group) := fun h => ne (congrArg Prod.fst h).symm
  rw [account, s.setClaim_of_ne other]
  rfl

theorem account_delivered (s : Inbox) (d : Delivery) :
    account group id { s with delivered := s.delivered ++ [d] } =
      if d.message.messageId = id then
        { account group id s with sent := (account group id s).sent + 1 }
      else account group id s := by
  split <;> rename_i same <;> simp [account, same]

theorem account_copied {m : OutgoingMessage Value} {value : Json} (json : m.value = .json value)
    (partition : Nat) (s : Inbox) :
    account group id (s.accept t partition m) = account group id s := by
  unfold Inbox.accept
  rw [json]
  rfl

theorem accept_letter {m : OutgoingMessage Value} {letter : DeadLetter}
    (dead : m.value = .deadLetter letter) (partition : Nat) (s : Inbox) :
    s.accept t partition m =
      { s with dlq := s.dlq ++ [⟨s.origin t, ⟨m.topic, m.key, letter, m.headers⟩⟩] } := by
  unfold Inbox.accept
  rw [dead]

theorem account_buried {m : OutgoingMessage Value} {letter : DeadLetter}
    (dead : m.value = .deadLetter letter) (partition : Nat) (s : Inbox) :
    account group id (s.accept t partition m) =
      if s.origin t = .named id then
        { account group id s with
          letters := (account group id s).letters ++ [(letter.attempts, m.headers.attempts)] }
      else account group id s := by
  rw [accept_letter dead]
  split <;> rename_i same <;> simp [account, same, Dead.attempts]

theorem log_copied {m : OutgoingMessage Value} {value : Json} (json : m.value = .json value)
    (partition : Nat) (s : Inbox) :
    (s.accept t partition m).log = s.log ++ [s.copied t partition m value] := by
  unfold Inbox.accept
  rw [json]

theorem copies_snoc {r : Record} (log : s'.log = s.log ++ [r]) :
    copies id s' = copies id s ++ if r.messageId = id then [r] else [] := by
  rw [copies, log, List.filter_append]
  split <;> rename_i same <;> simp [copies, same]

/-- The handler of another message leaves the account of this one alone. -/
theorem goes_other (goes : Goes config approx j record t s point y s')
    (differs : record.messageId ≠ id)
    (origin : point ≠ .fetching → s.origin t ≠ .named id) :
    account config.kafka.consumerGroup id s' = account config.kafka.consumerGroup id s ∧
      copies id s' = copies id s := by
  cases goes with
  | idled => exact ⟨rfl, rfl⟩
  | fetched => exact ⟨rfl, rfl⟩
  | claimed => exact ⟨account_setClaim_of_ne differs s _, rfl⟩
  | skipped => exact ⟨rfl, rfl⟩
  | delivered =>
    have other : record.incoming.messageId ≠ id := differs
    exact ⟨(account_delivered s _).trans (if_neg other), rfl⟩
  | refused => exact ⟨rfl, rfl⟩
  | released => exact ⟨account_setClaim_of_ne differs s _, rfl⟩
  | retried error random now partition =>
    have other : (s.copied t partition (retryOf config approx record error random now)
        record.body.parsed).messageId ≠ id := differs
    refine ⟨account_copied rfl partition s, ?_⟩
    rw [copies_snoc (log_copied rfl partition s), if_neg other, List.append_nil]
  | buried attempts reason now partition =>
    refine ⟨(account_buried rfl partition s).trans (if_neg (origin nofun)), ?_⟩
    rw [accept_letter rfl, copies, copies]

/-! The records of the message and their handlers. -/

/-- The record that follows `n` failures: the message of the row, its counter, and a stamp that
comes. -/
structure Carries (config : AppConfiguration) (toISOString : Time → String) (row : OutboxRow)
    (n : Nat) (r : Record) : Prop where
  topic : r.topic = if n = 0 then row.topic else config.kafka.topics.retry
  key : r.key = some row.messageKey
  messageId : r.headers.messageId = some row.id
  eventType : r.headers.eventType = some row.eventType
  traceId : r.headers.traceId = some (row.payload.traceId.getD "")
  attempts : r.headers.attempts = some (.ofInt n)
  value : r.value = some (.json (row.payload.json toISOString))
  due : ∃ stamp : Time, r.message.retryAt = .ofInt stamp

/-- A retry is stamped by the handler of the record before it, from a reading of the clock. -/
def Stamped (config : AppConfiguration) (entries : List (Entry Inbox Effect.Answer Err))
    (p : ConsumerPool) (n : Nat) (previous copy : Record) : Prop :=
  ∃ t, About t previous p ∧ ∃ now stamp : Time,
    ⟨.dateNow, .ok now⟩ ∈ eventsOf t entries ∧ copy.headers.retryAt = some (.ofInt stamp) ∧
      copy.message.retryAt = .ofInt stamp ∧ now ≤ stamp ∧
      (stamp : Int) ≤ now + min config.notifications.retryMaxMs
        (config.notifications.retryBaseMs * 2 ^ n)

def Point.stage : Point → Stage
  | .delivering => .trying
  | .releasing _ => .failed
  | .drawing _ | .stamping .. | .retrying .. | .dating .. | .burying .. => .released
  | _ => .waiting

/-- How far the record at index `i` has come with its handler. -/
inductive InHand (config : AppConfiguration) (entries : List (Entry Inbox Effect.Answer Err))
    (p : ConsumerPool) (i : Nat) (record : Record) : Stage → Prop where
  | unread (nobody : ∀ t j, (p.slot t).job = some j → j.index ≠ i) :
      InHand config entries p i record .waiting
  | live {t : Tid} {j : Job} {e : Effect} {k : Except Err e.Answer → Consumer Unit}
      (live : p.slot t = .live j e k) (own : j.index = i) :
      InHand config entries p i record (pointOf config j record (eventsOf t entries)).stage
  | ended {t : Tid} {j : Job} {stage : Stage} (ended : p.slot t = .ended j (.ok ()))
      (own : j.index = i) (final : stage = .succeeded ∨ stage = .abandoned) :
      InHand config entries p i record stage

/-- The pool after `entries` tells the story of the work `w`; its current record is at `i`. -/
structure Tells (config : AppConfiguration) (toISOString : Time → String) (row : OutboxRow)
    (entries : List (Entry Inbox Effect.Answer Err)) (p : ConsumerPool) (i : Nat) (w : Work) :
    Prop where
  tried : tries row.id entries = w.outcomes
  accounted : account config.kafka.consumerGroup row.id p.shared = accountOf w
  count : (copies row.id p.shared).length = w.failures + 1
  carries : ∀ n r, (copies row.id p.shared)[n]? = some r → Carries config toISOString row n r
  stamped : ∀ n previous copy, (copies row.id p.shared)[n]? = some previous →
    (copies row.id p.shared)[n + 1]? = some copy → Stamped config entries p n previous copy
  current : ∃ record, p.shared.log[i]? = some record ∧
    (copies row.id p.shared)[w.failures]? = some record ∧ InHand config entries p i record w.stage
  earlier : ∀ i' r, p.shared.log[i']? = some r → r.messageId = row.id → i' ≠ i →
    ∃ t j, p.slot t = .ended j (.ok ()) ∧ j.index = i'

variable {entries more : List (Entry Inbox Effect.Answer Err)} {p q : ConsumerPool}
  {a : Act Job Choice Ext} {i n : Nat} {w w' : Work}

theorem Stamped.step {previous copy : Record} (h : Stamped config entries p n previous copy)
    (steps : (consumers config approx).Steps p a q) (log : p.shared.log <+: q.shared.log) :
    Stamped config (entries ++ more) q n previous copy := by
  obtain ⟨t, about, now, stamp, read, rest⟩ := h
  refine ⟨t, about.step steps log, now, stamp, ?_, rest⟩
  rw [eventsOf_append]
  exact List.mem_append_left _ read

theorem InHand.aside {stage : Stage} (h : InHand config entries p i record stage)
    (steps : (consumers config approx).Steps p a q)
    (others : ∀ t j, (p.slot t).job = some j → j.index = i → a.task ≠ some t)
    (fresh : ∀ t j, a = .start t j → j.index ≠ i) :
    InHand config (entries ++ (consumers config approx).logged p a) q i record stage := by
  cases h with
  | unread nobody =>
    refine .unread fun t j job => ?_
    rcases Machine.steps_job steps job with before | started
    · exact nobody t j before
    · exact fresh t j started
  | @live t j e k live own =>
    have other := others t j (by rw [live]; rfl) own
    rw [← Machine.eventsOf_logged (m := consumers config approx) (q := p) other entries]
    exact .live ((Machine.steps_slot steps other).trans live) own
  | @ended t j stage ended own final =>
    have other := others t j (by rw [ended]; rfl) own
    exact .ended ((Machine.steps_slot steps other).trans ended) own final

/-- A step that adds no record of the message. -/
theorem Tells.keep (h : Tells config toISOString row entries p i w)
    (steps : (consumers config approx).Steps p a q) (log : p.shared.log <+: q.shared.log)
    (same : copies row.id q.shared = copies row.id p.shared) (failures : w'.failures = w.failures)
    (tried : tries row.id (entries ++ more) = w'.outcomes)
    (accounted : account config.kafka.consumerGroup row.id q.shared = accountOf w')
    (inHand : ∀ record, p.shared.log[i]? = some record → InHand config entries p i record w.stage →
      InHand config (entries ++ more) q i record w'.stage) :
    Tells config toISOString row (entries ++ more) q i w' := by
  constructor
  · exact tried
  · exact accounted
  · rw [same, failures]
    exact h.count
  · rw [same]
    exact h.carries
  · intro n previous copy before after
    rw [same] at before after
    exact (h.stamped n previous copy before after).step steps log
  · obtain ⟨record, there, last, hand⟩ := h.current
    refine ⟨record, prefix_getElem? log there, ?_, inHand record there hand⟩
    rw [same, failures]
    exact last
  · intro i' r there own other
    have old : p.shared.log[i']? = some r := by
      obtain ⟨rest, grown⟩ := log
      have none : copies row.id { p.shared with log := rest } = [] := by
        have split : copies row.id q.shared =
            copies row.id p.shared ++ copies row.id { p.shared with log := rest } := by
          simp only [copies, ← grown, List.filter_append]
        rw [same] at split
        simpa using split
      rw [← grown] at there
      by_cases lt : i' < p.shared.log.length
      · rwa [List.getElem?_append_left lt] at there
      · rw [List.getElem?_append_right (Nat.le_of_not_lt lt)] at there
        have new : r ∈ copies row.id { p.shared with log := rest } :=
          List.mem_filter.mpr ⟨List.mem_of_getElem? there, beq_iff_eq.mpr own⟩
        rw [none] at new
        cases new
    obtain ⟨t, j, ended, index⟩ := h.earlier i' r old own other
    have settled : (p.slot t).isSettled = true := by rw [ended]; rfl
    exact ⟨t, j, ((Machine.steps_keep steps t).2 settled).trans ended, index⟩

theorem Tells.quiet (h : Tells config toISOString row entries p i w)
    (steps : (consumers config approx).Steps p a q) (log : p.shared.log <+: q.shared.log)
    (same : copies row.id q.shared = copies row.id p.shared)
    (accounted : account config.kafka.consumerGroup row.id q.shared =
      account config.kafka.consumerGroup row.id p.shared)
    (inHand : ∀ record, InHand config entries p i record w.stage →
      InHand config entries q i record w.stage) :
    Tells config toISOString row entries q i w := by
  have kept : Tells config toISOString row (entries ++ []) q i w := by
    apply h.keep steps log same rfl
    · rw [List.append_nil]
      exact h.tried
    · exact accounted.trans h.accounted
    · intro record _ hand
      rw [List.append_nil]
      exact inHand record hand
  rwa [List.append_nil] at kept

theorem idles_stage (idles : point.Idles) (effect : point.effect config approx j record = some y.1)
    (smooth : Smooth y) {parsed : Json} (body : record.body = .json parsed) :
    (point.next config j record y).stage = point.stage ∧ point.next config j record y ≠ .through := by
  have ready : Point.ready record = .acquiring := by simp [Point.ready, body]
  obtain ⟨e, r⟩ := y
  cases point with
  | checking =>
    change (if j.isRetryTopic then Point.waiting else .ready record).stage = .waiting ∧
      (if j.isRetryTopic then Point.waiting else .ready record) ≠ .through
    rw [ready]
    split <;> exact ⟨rfl, nofun⟩
  | waiting => exact ⟨rfl, nofun⟩
  | rechecking =>
    change (Point.ready record).stage = .waiting ∧ Point.ready record ≠ .through
    rw [ready]
    exact ⟨rfl, nofun⟩
  | acquiring => exact ⟨rfl, nofun⟩
  | drawing error =>
    cases effect
    obtain ⟨q, -, -, rfl⟩ := smooth
    exact ⟨rfl, nofun⟩
  | stamping error random =>
    cases effect
    obtain ⟨now, -, rfl⟩ := smooth
    exact ⟨rfl, nofun⟩
  | dating attempts reason =>
    cases effect
    obtain ⟨now, -, rfl⟩ := smooth
    exact ⟨rfl, nofun⟩
  | _ => exact idles.elim

/-! The step of the current handler. -/

theorem Carries.named (h : Carries config toISOString row n record) : record.messageId = row.id := by
  simp [Record.messageId, h.messageId]

theorem Carries.body (h : Carries config toISOString row n record) :
    record.body = .json (row.payload.json toISOString) := by
  simp [Record.body, h.value]

theorem Carries.counted (h : Carries config toISOString row n record) (few : n < 2 ^ 53) :
    record.counted = .ofInt (n + 1) := by
  have read : record.message.attempts = .ofInt n := by
    have bits : |(n : Int)| ≤ 2 ^ 53 := by rw [Nat.abs_cast]; omega
    simp [Record.message, h.attempts, Num.double_ofInt bits]
  have bits : |(n : Int) + 1| ≤ 2 ^ 53 := by rw [abs_of_nonneg (by omega)]; omega
  rw [Record.counted, read, Num.plus_one bits]

theorem spent_iff : shouldDeadLetter (.ofInt (n + 1)) config.notifications.maxAttempts = true ↔
    attemptLimit config ≤ n + 1 := by
  have whole : shouldDeadLetter (.ofInt (n + 1)) config.notifications.maxAttempts = true ↔
      config.notifications.maxAttempts ≤ n + 1 := by
    simp only [shouldDeadLetter, Num.ofInt, Num.le, decide_eq_true_eq]
    exact_mod_cast Iff.rfl
  rw [whole, attemptLimit]
  omega

/-- One answer to the current handler that adds no record. -/
structure Advance (config : AppConfiguration) (id : String) (n : Nat) (s s' : Inbox)
    (y : Prog.Event Effect.Answer Err) (stage stage' : Stage) (next : Point) : Prop where
  step : stage' = stage ∨ Step (attemptLimit config) ⟨n, stage⟩ ⟨n, stage'⟩
  outcomes : (Work.mk n stage).outcomes ++ (tried id y).toList = (Work.mk n stage').outcomes
  accounted : account config.kafka.consumerGroup id s' = accountOf ⟨n, stage'⟩
  same : copies id s' = copies id s
  place : next ≠ .through ∧ next.stage = stage' ∨
    next = .through ∧ (stage' = .succeeded ∨ stage' = .abandoned)

/-- The step of the current handler: it advances, or it publishes a retry. -/
theorem own_step (goes : Goes config approx j record t s point y s')
    (effect : point.effect config approx j record = some y.1) (smooth : Smooth y)
    (brought : ∀ attempts reason now, point = .burying attempts reason now →
      attempts = record.counted ∧
        shouldDeadLetter record.counted config.notifications.maxAttempts = true)
    (carries : Carries config toISOString row n record) (few : n < 2 ^ 53)
    (origin : point ≠ .fetching → s.origin t = .named row.id)
    (accounted : account config.kafka.consumerGroup row.id s = accountOf ⟨n, point.stage⟩) :
    (∃ stage', Advance config row.id n s s' y point.stage stage' (point.next config j record y)) ∨
      ∃ error random now partition, point = .retrying error random now ∧
        s' = s.accept t partition (retryOf config approx record error random now) := by
  have named := carries.named
  cases goes with
  | idled idles =>
    obtain ⟨same, more⟩ := idles_stage idles effect smooth carries.body
    have quiet : tried row.id y = none :=
      tried_at effect (.inl fun eq => by rw [eq] at idles; exact idles)
    exact .inl ⟨_, .inl rfl, by simp [quiet], accounted, rfl, .inl ⟨more, same⟩⟩
  | fetched =>
    have quiet : tried row.id y = none := tried_at effect (.inl nofun)
    exact .inl ⟨.waiting, .inl rfl, by simp [quiet, Point.stage], accounted, rfl, .inl ⟨nofun, rfl⟩⟩
  | claimed free =>
    refine .inl ⟨.trying, .inr (.take n), List.append_nil _, ?_, rfl, .inl ⟨nofun, rfl⟩⟩
    rw [named, account_setClaim, accounted]
    rfl
  | skipped there =>
    have claimed := congrArg Account.claimed accounted
    rw [named] at there
    simp [account, there, accountOf, Point.stage] at claimed
  | delivered =>
    have tells : tried row.id ⟨.deliver record.incoming, .ok ()⟩ = some true := if_pos named
    refine .inl ⟨.succeeded, .inr (.succeed n), by rw [tells]; rfl, ?_, rfl, .inr ⟨rfl, .inl rfl⟩⟩
    have sent : account config.kafka.consumerGroup row.id
        { s with delivered := s.delivered ++ [⟨t, s.origin t, record.incoming⟩] } =
          { account config.kafka.consumerGroup row.id s with
            sent := (account config.kafka.consumerGroup row.id s).sent + 1 } :=
      (account_delivered s _).trans (if_pos named)
    rw [sent, accounted]
    rfl
  | refused error =>
    have tells : tried row.id ⟨.deliver record.incoming, .error error⟩ = some false := if_pos named
    refine .inl ⟨.failed, .inr (.fail n), ?_, accounted, rfl, .inl ⟨nofun, rfl⟩⟩
    rw [tells]
    exact List.replicate_succ'.symm
  | released error =>
    have quiet : tried row.id y = none := tried_at effect (.inl nofun)
    refine .inl ⟨.released, .inr (.release n), by rw [quiet]; exact List.append_nil _, ?_, rfl, ?_⟩
    · rw [named, account_setClaim, accounted]
      rfl
    · left
      change Point.rescheduled config record error ≠ .through ∧
        (Point.rescheduled config record error).stage = .released
      unfold Point.rescheduled
      split <;> exact ⟨nofun, rfl⟩
  | retried error random now partition => exact .inr ⟨error, random, now, partition, rfl, rfl⟩
  | buried attempts reason now partition =>
    obtain ⟨rfl, spent⟩ := brought attempts reason now rfl
    rw [carries.counted few] at spent
    have quiet : tried row.id y = none := tried_at effect (.inl nofun)
    refine .inl ⟨.abandoned, .inr (.giveUp (spent_iff.mp spent)),
      by rw [quiet]; exact List.append_nil _, ?_, ?_, .inr ⟨rfl, .inr rfl⟩⟩
    · rw [account_buried rfl, if_pos (origin nofun), accounted]
      simp only [accountOf, Point.stage, deadLetterMessage, carries.counted few, List.nil_append]
    · rw [accept_letter rfl, copies, copies]

/-! The wait after `n + 1` failed attempts. -/

theorem growth_whole (approx : Rat → Rat) {n : Nat} (few : n < 2 ^ 53) (baseMs : Int) :
    growth approx (.ofInt (n + 1)) baseMs =
      (Num.ofInt baseMs).times (if 1024 ≤ n then .inf else .fin (2 ^ n)) := by
  have difference : (Num.ofInt (n + 1)).minus (.ofInt 1) = .ofInt n := by
    have bits : |(n : Int)| ≤ 2 ^ 53 := by rw [Nat.abs_cast]; omega
    have exact : (Num.ofInt (n + 1)).sub (.ofInt 1) = .ofInt n := by
      simp [Num.sub, Num.neg, Num.add, Num.ofInt]
    rw [Num.minus, exact, Num.double_ofInt bits]
  have exponent : Num.max (.ofInt 0) (.ofInt n) = .fin n := by simp [Num.ofInt]
  rw [growth, difference, exponent, Num.pow2_natCast]

/- The exponential is exact up to the cap. -/
theorem exponential (approx : Rat → Rat) {n : Nat} (few : n < 2 ^ 53) {baseMs maxMs : Int}
    (base : 0 < baseMs) (short : maxMs ≤ 2 ^ 53) :
    Num.min (.ofInt maxMs) (growth approx (.ofInt (n + 1)) baseMs) =
      .ofInt (min maxMs (baseMs * 2 ^ n)) := by
  have positive : (0 : Int) < 2 ^ n := by positivity
  have product : (Num.ofInt baseMs).times (.fin (2 ^ n)) = (Num.ofInt (baseMs * 2 ^ n)).double := by
    simp [Num.times, Num.mul, Num.ofInt]
  rw [growth_whole approx few]
  by_cases fits : baseMs * 2 ^ n ≤ 2 ^ 53
  · have small : n < 1024 := by
      have power : (2 : Int) ^ n ≤ 2 ^ 53 := by nlinarith
      have exponent := (pow_le_pow_iff_right₀ (one_lt_two (α := Int))).mp power
      omega
    have bits : |baseMs * 2 ^ n| ≤ 2 ^ 53 := by rwa [abs_of_pos (mul_pos base positive)]
    rw [if_neg small.not_ge, product, Num.double_ofInt bits, Num.min_ofInt]
  · have cap : (Num.ofInt maxMs).le
        ((Num.ofInt baseMs).times (if 1024 ≤ n then .inf else .fin (2 ^ n))) = true := by
      split
      · have infinite : (Num.ofInt baseMs).times .inf = .inf := by
          have ne : (baseMs : Rat) ≠ 0 := by exact_mod_cast base.ne'
          have pos : (0 : Rat) < baseMs := by exact_mod_cast base
          simp [Num.times, Num.mul, Num.ofInt, ne, pos, Num.double]
        rw [infinite]
        exact Num.le_inf (by simp [Num.ofInt])
      · have beyond : (Num.ofInt (2 ^ 53)).le (.ofInt (baseMs * 2 ^ n)) = true := by
          rw [Num.ofInt_le]
          omega
        have rounded := Num.double_mono beyond
        rw [Num.double_ofInt (by decide)] at rounded
        rw [product]
        exact Num.le_trans (Num.ofInt_le.mpr short) rounded
    rw [Num.min_of_le cap, min_eq_left (by omega)]

/- The wait is drawn from zero up to the exponential. -/
theorem backoff_between (approx : Rat → Rat) {n : Nat} (few : n < 2 ^ 53) {baseMs maxMs : Int}
    (base : 0 < baseMs) (most : 0 < maxMs) (short : maxMs ≤ 2 ^ 53) {q : Rat} (nonneg : 0 ≤ q)
    (below : q < 1) :
    ∃ b : Nat, backoffMs approx (.ofInt (n + 1)) baseMs maxMs q = .ofInt b ∧
      (b : Int) ≤ min maxMs (baseMs * 2 ^ n) := by
  have positive : 0 < min maxMs (baseMs * 2 ^ n) := lt_min most (by positivity)
  have small : min maxMs (baseMs * 2 ^ n) ≤ 2 ^ 53 := (min_le_left ..).trans short
  rw [backoffMs, exponential approx few base short]
  generalize min maxMs (baseMs * 2 ^ n) = w at positive small ⊢
  have zero : (0 : Rat) ≤ w := by exact_mod_cast positive.le
  have product : q * w ≤ w := mul_le_of_le_one_left zero below.le
  have whole : binary64.Value (w : Rat) := binary64_int (by rwa [abs_of_pos positive])
  have low : 0 ≤ binary64.round (q * w) := by
    have rounded := Format.round_mono (F := binary64) (mul_nonneg nonneg zero)
    rwa [Format.round_zero] at rounded
  have high : binary64.round (q * w) ≤ w := Format.round_le_of_value whole product
  have finite : |q * w| < binary64.overflow := by
    have room : (2 ^ 53 : Rat) < binary64.overflow := by decide +kernel
    have small' : (w : Rat) ≤ 2 ^ 53 := by exact_mod_cast small
    rw [abs_of_nonneg (mul_nonneg nonneg zero)]
    linarith
  have floor : (0 : Int) ≤ (binary64.round (q * w)).floor := Rat.le_floor_iff.mpr (by simpa using low)
  have capped : (binary64.round (q * w)).floor ≤ w := by
    have drawn := (Rat.floor_le (binary64.round (q * w))).trans high
    exact_mod_cast drawn
  refine ⟨(binary64.round (q * w)).floor.toNat, ?_, ?_⟩
  · rw [Num.times, Num.ofInt, Num.mul, Num.double_fin finite, Num.floor, Num.ofInt,
      Int.toNat_of_nonneg floor]
  · rwa [Int.toNat_of_nonneg floor]

end Overbook.Notifications
