import Overbook.Async.Progress
import Overbook.Notifications.Attempts

/-! How a notification ends that is handed out once at a time: every run tells the story of work
that is retried, from the relay's record on. -/
namespace Overbook.Notifications

open Async Prog Kafka Retrying

variable {config : AppConfiguration} {approx : Rat → Rat} {toISOString : Time → String}
  {row : OutboxRow} {entries : List (Entry Inbox Effect.Answer Err)} {p q : ConsumerPool}
  {i : Nat} {w : Work} {t : Tid} {j : Job} {s : Inbox} {c : Choice}

/-- Nothing of the message is there yet. -/
structure Unpublished (config : AppConfiguration) (row : OutboxRow)
    (entries : List (Entry Inbox Effect.Answer Err)) (p : ConsumerPool) : Prop where
  tried : tries row.id entries = []
  accounted : account config.kafka.consumerGroup row.id p.shared = accountOf ⟨0, .waiting⟩
  nowhere : copies row.id p.shared = []

/-- Records with the id of the row are copies of its message, and of no other. -/
theorem named_origin (identified : row.id ≠ "")
    (run : (consumers config approx).Reach (once config toISOString row) deployed p) {r : Record}
    (hr : r ∈ p.shared.log) : r.messageId = row.id ↔ r.origin = .named row.id := by
  have weaker : ∀ (q : ConsumerPool) a, once config toISOString row q a → Regime.Ok
      { messages := fun origin messageId _ => messageId = row.id ↔ origin = .named row.id } q a := by
    intro q a ok
    cases a with
    | start t j => trivial
    | step t c => exact fun _ _ _ _ => trivial
    | kill t => exact fun _ _ _ _ => trivial
    | env x =>
      cases x with
      | tick d => trivial
      | onApplicationShutdown replica => trivial
      | produce topic partition key value headers =>
        constructor
        · intro same
          obtain ⟨⟨place, relayed⟩, -⟩ := ok.2 same
          cases relayed
          simp [Inbox.produced, relayMessage, Option.filter, identified]
        · intro named
          rcases produced_origin q.shared topic partition key value headers with
            ⟨id, -, given, origin⟩ | ⟨-, offset, origin⟩
          · rw [origin] at named
            cases named
            exact Record.messageId_given given
          · rw [origin] at named
            cases named
  exact (consumers_sound (run.mono weaker)).inv.messages r hr

theorem copies_nil (nowhere : copies row.id s = []) {r : Record} (hr : r ∈ s.log) :
    r.messageId ≠ row.id := by
  have other := List.filter_eq_nil_iff.mp nowhere r hr
  simpa using other

theorem once_handed (h : (consumers config approx).History (once config toISOString row) deployed
    entries p) : (consumers config approx).History (handedOnce config) deployed entries p :=
  h.mono fun _ _ ok => ok.1

/-- A handler of another message steps, and so what is known of this one stays. -/
theorem other_step {e : Effect} {k : Except Err e.Answer → Consumer Unit} {r : Except Err e.Answer}
    {record : Record} (identified : row.id ≠ "")
    (past : (consumers config approx).History (once config toISOString row) deployed entries p)
    (live : p.slot t = .live j e k) (good : c.succeeds e = true)
    (answered : exec config.kafka.topics t p.shared e c = some (s, r))
    (there : p.shared.log[j.index]? = some record) (differs : record.messageId ≠ row.id) :
    tried row.id ⟨e, r⟩ = none ∧
      account config.kafka.consumerGroup row.id s =
        account config.kafka.consumerGroup row.id p.shared ∧
      copies row.id s = copies row.id p.shared ∧ p.shared.log <+: s.log := by
  have handed := once_handed past
  have job : (p.slot t).job = some j := by rw [live]; rfl
  obtain ⟨record', mine⟩ := holds handed t j job
  cases Option.some.inj (mine.there.symm.trans there)
  obtain ⟨point, stands, course⟩ := on_course handed job mine.fetched
  rw [live] at course
  cases course with
  | live effect =>
    have goes := goes_of_exec effect (handedOnce_calm handed.reach) good answered
    have origin : point ≠ .fetching → p.shared.origin t ≠ .named row.id := by
      intro begun
      have handling := mine.handling fun none => begun (by rw [← stands.place, none]; rfl)
      have same : p.shared.origin t = record.origin := by simp [Inbox.origin, handling, there]
      rw [same]
      exact fun named => differs
        ((named_origin identified past.reach (List.mem_of_getElem? there)).mpr named)
    obtain ⟨accounted, same⟩ := goes_other goes differs origin
    exact ⟨tried_at (y := ⟨e, r⟩) effect (.inr differs), accounted, same, goes.frame.1⟩

theorem in_hand_stage {e : Effect} {k : Except Err e.Answer → Consumer Unit} {record : Record}
    {stage : Stage}
    (run : (consumers config approx).Reach (handedOnce config) deployed p)
    (live : p.slot t = .live j e k) (own : j.index = i)
    (hand : InHand config entries p i record stage) :
    stage = (pointOf config j record (eventsOf t entries)).stage := by
  have job : (p.slot t).job = some j := by rw [live]; rfl
  cases hand with
  | unread nobody => exact absurd own (nobody t j job)
  | @live t' j' e' k' live' own' =>
    have job' : (p.slot t').job = some j' := by rw [live']; rfl
    cases one_handler run t t' j j' job job' (own.trans own'.symm)
    rw [live] at live'
    cases live'
    rfl
  | @ended t' j' stage ended own' =>
    have job' : (p.slot t').job = some j' := by rw [ended]; rfl
    cases one_handler run t t' j j' job job' (own.trans own'.symm)
    rw [live] at ended
    cases ended

theorem OnCourse.ended_through {record : Record} {point : Point}
    {slot : Slot Job Effect Effect.Answer Err Unit}
    (h : OnCourse config approx j record point slot) (last : point = .through) :
    slot = .ended j (.ok ()) := by
  subst last
  cases h with
  | live effect => cases effect
  | ended => rfl

theorem in_hand_after {record : Record} {next : Point} {stage : Stage}
    (course : OnCourse config approx j record next (q.slot t)) (own : j.index = i)
    (stands : pointOf config j record (eventsOf t entries) = next)
    (place : next ≠ .through ∧ next.stage = stage ∨
      next = .through ∧ (stage = .succeeded ∨ stage = .abandoned)) :
    InHand config entries q i record stage := by
  cases slot : q.slot t with
  | live j' e k =>
    rw [slot] at course
    cases course with
    | live effect =>
      rcases place with ⟨-, rfl⟩ | ⟨rfl, -⟩
      · rw [← stands]
        exact .live slot own
      · cases effect
  | ended j' r =>
    rw [slot] at course
    cases course with
    | ended last =>
      rcases place with ⟨more, -⟩ | ⟨-, final⟩
      · exact absurd last more
      · exact .ended slot own final
  | idle =>
    rw [slot] at course
    cases course
  | gone j' =>
    rw [slot] at course
    cases course

theorem retry_stamp {n : Nat} {record : Record} (error : Err) {random : Rat} {now : Time}
    (moderate : Moderate config) (carries : Carries config toISOString row n record)
    (few : n < 2 ^ 53) (nonneg : 0 ≤ random) (below : random < 1) (time : now ≤ lastTime) :
    ∃ stamp : Time,
      (retryOf config approx record error random now).headers.retryAt = some (.ofInt stamp) ∧
        (Num.ofInt stamp).double = .ofInt stamp ∧ now ≤ stamp ∧
        (stamp : Int) ≤ now + min config.notifications.retryMaxMs
          (config.notifications.retryBaseMs * 2 ^ n) := by
  have short := moderate.short
  obtain ⟨wait, drawn, most⟩ := backoff_between approx few moderate.base moderate.most
    (by omega) nonneg below
  have least := most.trans (min_le_left ..)
  have bits : |((now + wait : Nat) : Int)| ≤ 2 ^ 53 := by
    rw [Nat.abs_cast]
    push_cast
    have time' : (now : Int) ≤ lastTime := by exact_mod_cast time
    omega
  have exact := Num.double_ofInt bits
  have stamp : (Num.ofInt now).plus (backoffMs approx record.counted
      config.notifications.retryBaseMs config.notifications.retryMaxMs random) =
        .ofInt (now + wait : Nat) := by
    rw [carries.counted few, drawn, ← exact]
    simp [Num.plus, Num.ofInt, Num.add]
  refine ⟨now + wait, congrArg some stamp, exact, Nat.le_add_right .., ?_⟩
  push_cast
  omega

theorem carries_retry {n partition : Nat} {record : Record} {error : Err} {random : Rat}
    {now stamp : Time} (carries : Carries config toISOString row n record) (few : n < 2 ^ 53)
    (stamped : (retryOf config approx record error random now).headers.retryAt =
      some (.ofInt stamp)) (exact : (Num.ofInt stamp).double = .ofInt stamp) :
    Carries config toISOString row (n + 1) (s.copied t partition
      (retryOf config approx record error random now) record.body.parsed) := by
  constructor
  · rfl
  · simp [Inbox.copied, retryOf, retryMessage, Record.message, carries.key]
  · exact congrArg some carries.named
  · simp [Inbox.copied, retryOf, retryMessage, Record.message, carries.eventType]
  · have traceId : (row.payload.traceId.getD "") =
        ((some (row.payload.traceId.getD "")).filter (· ≠ "")).getD "" := by
      by_cases empty : row.payload.traceId.getD "" = "" <;> simp [Option.filter, empty]
    simpa [Inbox.copied, retryOf, retryMessage, Record.message, carries.traceId] using traceId.symm
  · simp [Inbox.copied, retryOf, retryMessage, carries.counted few]
  · simp [Inbox.copied, carries.body, Body.parsed]
  · exact ⟨stamp, (congrArg (fun header => (header.getD (.ofInt 0)).double) stamped).trans exact⟩

theorem Tells.retry {n : Nat} {a : Act Job Choice Ext} {record copy : Record}
    {more : List (Entry Inbox Effect.Answer Err)}
    (h : Tells config toISOString row entries p i ⟨n, .released⟩)
    (steps : (consumers config approx).Steps p a q) (there : p.shared.log[i]? = some record)
    (log : q.shared.log = p.shared.log ++ [copy])
    (accounted : account config.kafka.consumerGroup row.id q.shared =
      account config.kafka.consumerGroup row.id p.shared)
    (quiet : tries row.id (entries ++ more) = tries row.id entries)
    (carries : Carries config toISOString row (n + 1) copy)
    (stamped : Stamped config (entries ++ more) q n record copy)
    (older : ∀ t j, (q.slot t).job = some j → j.index < p.shared.log.length)
    (ended : ∃ t j, q.slot t = .ended j (.ok ()) ∧ j.index = i) :
    Tells config toISOString row (entries ++ more) q p.shared.log.length ⟨n + 1, .waiting⟩ := by
  have grown : p.shared.log <+: q.shared.log := ⟨[copy], log.symm⟩
  have all : copies row.id q.shared = copies row.id p.shared ++ [copy] := by
    rw [copies_snoc log, if_pos carries.named]
  have count : (copies row.id p.shared).length = n + 1 := h.count
  have last : (copies row.id q.shared)[n + 1]? = some copy := by
    rw [all, ← count, List.getElem?_concat_length]
  have old : ∀ m, m < n + 1 → (copies row.id q.shared)[m]? = (copies row.id p.shared)[m]? := by
    intro m lt
    rw [all, List.getElem?_append_left (by rw [count]; exact lt)]
  have none : ∀ m r, (copies row.id q.shared)[m]? = some r → m < n + 1 ∨ m = n + 1 := by
    intro m r some
    have lt : m < (copies row.id q.shared).length := (List.getElem?_eq_some_iff.mp some).1
    rw [all, List.length_append, count, List.length_singleton] at lt
    omega
  constructor
  · rw [quiet, h.tried]
    rfl
  · rw [accounted, h.accounted]
    rfl
  · rw [all, List.length_append, count]
    rfl
  · intro m r some
    rcases none m r some with lt | rfl
    · rw [old m lt] at some
      exact h.carries m r some
    · cases Option.some.inj (some.symm.trans last)
      exact carries
  · intro m previous next before after
    rcases none (m + 1) next after with lt | eq
    · rw [old m (by omega)] at before
      rw [old (m + 1) lt] at after
      exact (h.stamped m previous next before after).step steps grown
    · obtain rfl : m = n := by omega
      cases Option.some.inj (after.symm.trans last)
      obtain ⟨record', there', here, -⟩ := h.current
      cases Option.some.inj (there'.symm.trans there)
      rw [old m (by omega), show (copies row.id p.shared)[m]? = some record from here] at before
      cases before
      exact stamped
  · refine ⟨copy, ?_, last, .unread fun t j job same => ?_⟩
    · rw [log, List.getElem?_concat_length]
    · exact absurd same (Nat.ne_of_lt (older t j job))
  · intro i' r there' own other
    have lt : i' < p.shared.log.length := by
      have lt : i' < q.shared.log.length := (List.getElem?_eq_some_iff.mp there').1
      rw [log, List.length_append, List.length_singleton] at lt
      omega
    by_cases same : i' = i
    · rw [same]
      exact ended
    · rw [log, List.getElem?_append_left lt] at there'
      obtain ⟨t, j, ended, index⟩ := h.earlier i' r there' own same
      have settled : (p.slot t).isSettled = true := by rw [ended]; rfl
      exact ⟨t, j, ((Machine.steps_keep steps t).2 settled).trans ended, index⟩

/-- How the story goes on: the current record stays, or a retry takes its place. -/
inductive Onward (limit i : Nat) : Work → Nat → Work → Prop where
  | here {n : Nat} {stage stage' : Stage}
      (step : stage' = stage ∨ Step limit ⟨n, stage⟩ ⟨n, stage'⟩) :
      Onward limit i ⟨n, stage⟩ i ⟨n, stage'⟩
  | again {n : Nat} (i' : Nat) (more : n + 1 < limit) :
      Onward limit i ⟨n, .released⟩ i' ⟨n + 1, .waiting⟩

theorem Onward.limited {limit i' : Nat} {w' : Work} (h : Onward limit i w i' w')
    (limited : w.Limited limit) : w'.Limited limit := by
  cases h with
  | here step =>
    rcases step with rfl | step
    · exact limited
    · exact step.limited limited
  | again i' more => exact ⟨more, nofun⟩

/-- The handler `t` of the record that the work is at. -/
structure Current (config : AppConfiguration) (approx : Rat → Rat) (toISOString : Time → String)
    (row : OutboxRow) (entries : List (Entry Inbox Effect.Answer Err)) (p : ConsumerPool) (t : Tid)
    (j : Job) (n : Nat) (record : Record) (point : Point) (e : Effect) : Prop where
  there : p.shared.log[j.index]? = some record
  last : (copies row.id p.shared)[n]? = some record
  carries : Carries config toISOString row n record
  stands : Stands config j record (eventsOf t entries) point
  effect : point.effect config approx j record = some e
  origin : point ≠ .fetching → p.shared.origin t = .named row.id

theorem Tells.handler {e : Effect} {k : Except Err e.Answer → Consumer Unit}
    (identified : row.id ≠ "") (h : Tells config toISOString row entries p i w)
    (past : (consumers config approx).History (once config toISOString row) deployed entries p)
    (live : p.slot t = .live j e k) (own : j.index = i) :
    ∃ record point, w.stage = point.stage ∧
      Current config approx toISOString row entries p t j w.failures record point e := by
  have handed := once_handed past
  have job : (p.slot t).job = some j := by rw [live]; rfl
  obtain ⟨record, there, last, hand⟩ := h.current
  obtain ⟨record', mine⟩ := holds handed t j job
  have stage := in_hand_stage handed.reach live own hand
  subst own
  cases Option.some.inj (mine.there.symm.trans there)
  obtain ⟨point, stands, course⟩ := on_course handed job mine.fetched
  rw [stands.place] at stage
  have carries := h.carries w.failures record last
  rw [live] at course
  cases course with
  | live effect =>
    refine ⟨record, point, stage, there, last, carries, stands, effect, fun begun => ?_⟩
    have handling := mine.handling fun none => begun (by rw [← stands.place, none]; rfl)
    have origin : p.shared.origin t = record.origin := by simp [Inbox.origin, handling, there]
    rw [origin]
    exact (named_origin identified past.reach (List.mem_of_getElem? there)).mp carries.named

theorem course_after {e : Effect} {k : Except Err e.Answer → Consumer Unit}
    {r : Except Err e.Answer} {record : Record} {point : Point}
    (handed : (consumers config approx).History (handedOnce config) deployed entries p)
    (live : p.slot t = .live j e k) (good : c.succeeds e = true)
    (answered : exec config.kafka.topics t p.shared e c = some (s, r))
    (there : p.shared.log[j.index]? = some record) (grown : p.shared.log <+: s.log)
    (stands : Stands config j record (eventsOf t entries) point) :
    let q := Machine.put p t ((consumers config approx).settle t j s (k r))
    pointOf config j record (eventsOf t (entries ++ [⟨t, e, r, p.shared, s⟩])) =
        point.next config j record ⟨e, r⟩ ∧
      OnCourse config approx j record (point.next config j record ⟨e, r⟩) (q.slot t) := by
  intro q
  have job : (p.slot t).job = some j := by rw [live]; rfl
  have st : (consumers config approx).step p (.step t c) = some q := Machine.step_answer live answered
  have now : (consumers config approx).History (handedOnce config) deployed
      (entries ++ [⟨t, e, r, p.shared, s⟩]) q := by
    have step := handed.step (step_ok live good) st
    rwa [Machine.logged_step live answered] at step
  have place : pointOf config j record
      (eventsOf t (entries ++ [⟨t, e, r, p.shared, s⟩])) = point.next config j record ⟨e, r⟩ := by
    have own := eventsOf_own entries (⟨t, e, r, p.shared, s⟩ : Entry Inbox Effect.Answer Err)
    rw [own, pointOf_snoc, stands.place]
  have job' : (q.slot t).job = some j :=
    (Machine.steps_keep (Machine.steps_of_step st) t).1 j job
  have log : p.shared.log <+: q.shared.log := by
    obtain ⟨consumed, same⟩ := put_shared config approx p t j s (k r)
    rw [same]
    exact grown
  obtain ⟨record', mine⟩ := holds now t j job'
  cases Option.some.inj (mine.there.symm.trans (prefix_getElem? log there))
  obtain ⟨point', stands', course⟩ := on_course now job' mine.fetched
  rw [← place, stands'.place]
  exact ⟨rfl, course⟩

/-- The handler of the current record steps. -/
theorem Tells.own {e : Effect} {k : Except Err e.Answer → Consumer Unit} {r : Except Err e.Answer}
    (moderate : Moderate config) (limited : w.Limited (attemptLimit config))
    (identified : row.id ≠ "") (h : Tells config toISOString row entries p i w)
    (past : (consumers config approx).History (once config toISOString row) deployed entries p)
    (live : p.slot t = .live j e k) (own : j.index = i) (good : c.succeeds e = true)
    (answered : exec config.kafka.topics t p.shared e c = some (s, r)) :
    ∃ i' w', Onward (attemptLimit config) i w i' w' ∧
      Tells config toISOString row (entries ++ [⟨t, e, r, p.shared, s⟩])
        (Machine.put p t ((consumers config approx).settle t j s (k r))) i' w' := by
  have handed := once_handed past
  have calm := handedOnce_calm handed.reach
  have steps : (consumers config approx).Steps p (.step t c)
      (Machine.put p t ((consumers config approx).settle t j s (k r))) := .step live answered
  obtain ⟨record, point, stage, current⟩ := h.handler identified past live own
  have carries := current.carries
  have few : w.failures < 2 ^ 53 := moderate.below limited.below
  have smooth : Smooth ⟨e, r⟩ := exec_smooth calm good answered
  have goes := goes_of_exec current.effect calm good answered
  obtain ⟨place, course⟩ :=
    course_after handed live good answered current.there goes.frame.1 current.stands
  obtain ⟨consumed, same⟩ := put_shared config approx p t j s (k r)
  have brought : ∀ attempts reason now, point = .burying attempts reason now →
      attempts = record.counted ∧
        shouldDeadLetter record.counted config.notifications.maxAttempts = true := by
    rintro attempts reason now rfl
    rcases current.stands.brought with ⟨text, invalid⟩ | spent
    · exact nomatch invalid.symm.trans carries.body
    · exact spent
  subst own
  obtain ⟨n, stage'⟩ := w
  obtain rfl : stage' = point.stage := stage
  rcases own_step goes current.effect smooth brought carries few current.origin h.accounted with
    ⟨stage', advance⟩ | ⟨error, random, now, partition, rfl, rfl⟩
  · refine ⟨j.index, ⟨n, stage'⟩, .here advance.step, h.keep steps ?_ ?_ rfl ?_ ?_ ?_⟩
    · rw [same]
      exact goes.frame.1
    · rw [same]
      exact advance.same
    · rw [tries_snoc, h.tried]
      exact advance.outcomes
    · rw [same]
      exact advance.accounted
    · intro record' there' _
      cases Option.some.inj (there'.symm.trans current.there)
      exact in_hand_after course rfl place advance.place
  · obtain ⟨more, nonneg, below, time, read⟩ := current.stands.brought
    rw [carries.counted few] at more
    have left : n + 1 < attemptLimit config := by
      have unspent : ¬ attemptLimit config ≤ n + 1 :=
        fun spent => Bool.eq_false_iff.mp more (spent_iff.mpr spent)
      omega
    obtain ⟨stamp, retryAt, exact, later, soon⟩ :=
      retry_stamp error moderate carries few nonneg below time
    have job : (p.slot t).job = some j := by rw [live]; rfl
    have log := log_copied (m := retryOf config approx record error random now) (t := t) rfl
      partition p.shared
    refine ⟨p.shared.log.length, ⟨n + 1, .waiting⟩, .again _ left, h.retry steps current.there
      (by rw [same]; exact log) ?_ ?_ (carries_retry carries few retryAt exact)
      ⟨t, ?_, now, stamp, ?_, retryAt, ?_, later, soon⟩ ?_ ?_⟩
    · rw [same]
      exact account_copied (t := t) (m := retryOf config approx record error random now) rfl
        partition p.shared
    · have quiet : Notifications.tried row.id ⟨e, r⟩ = none :=
        tried_at (y := ⟨e, r⟩) current.effect (.inl nofun)
      rw [tries_snoc, quiet]
      exact List.append_nil _
    · exact About.step ⟨j, job, current.there⟩ steps ⟨_, by rw [same]; exact log.symm⟩
    · rw [eventsOf_append]
      exact List.mem_append_left _ read
    · exact (congrArg (fun header => (header.getD (.ofInt 0)).double) retryAt).trans exact
    · intro t' j' job'
      rcases Machine.steps_job steps job' with before | started
      · obtain ⟨record', theirs⟩ := holds handed t' j' before
        exact (List.getElem?_eq_some_iff.mp theirs.there).1
      · cases started
    · exact ⟨t, j, course.ended_through rfl, rfl⟩

/-- An action that is no step of a handler. -/
theorem Tells.start {j : Job} (h : Tells config toISOString row entries p i w)
    (ok : handedOnce config p (.start t j)) (idle : p.slot t = .idle)
    (none : eventsOf t entries = [])
    (steps : (consumers config approx).Steps p (.start t j) q)
    (after : q = Machine.put p t ((consumers config approx).settle t j p.shared
      ((consumers config approx).code j))) :
    Tells config toISOString row entries q i w := by
  obtain ⟨consumed, same⟩ := put_shared config approx p t j p.shared (j.code config approx)
  have shared : q.shared = { p.shared with consumed := consumed } := by rw [after]; exact same
  have log : p.shared.log = q.shared.log := by rw [shared]
  obtain ⟨n, stage⟩ := w
  refine h.quiet steps (log ▸ List.prefix_rfl) (by rw [shared]; rfl) (by rw [shared]; rfl) ?_
  intro record hand
  by_cases own : j.index = i
  · subst own
    cases hand with
    | unread nobody =>
      have slot : ∃ e k, q.slot t = .live j e k := by
        rw [after, Machine.put_self]
        exact ⟨_, _, rfl⟩
      obtain ⟨e, k, live⟩ := slot
      have waiting : (pointOf config j record (eventsOf t entries)).stage = .waiting := by
        rw [none]
        rfl
      rw [← waiting]
      exact .live live rfl
    | @live t' j' e k live own =>
      exact absurd own (ok.2 t' j' (by rw [live]; rfl))
    | @ended t' j' stage ended own =>
      exact absurd own (ok.2 t' j' (by rw [ended]; rfl))
  · have aside := hand.aside steps ?_ ?_
    · rwa [show (consumers config approx).logged p (.start t j) = [] from rfl,
        List.append_nil] at aside
    · intro t' j' job _ same
      cases same
      rw [idle] at job
      cases job
    · intro t' j' same
      cases same
      exact own

theorem copies_produced {topic : String} {partition : Nat} {key : Option String}
    {value : Option Body} {headers : Headers}
    (other : (s.produced topic partition key value headers).messageId ≠ row.id) :
    copies row.id (ext s (.produce topic partition key value headers)) = copies row.id s := by
  have log : (ext s (.produce topic partition key value headers)).log =
      s.log ++ [s.produced topic partition key value headers] := rfl
  rw [copies_snoc log, if_neg other, List.append_nil]

/-- Something happens outside that is not about the message. -/
theorem Tells.outside (approx : Rat → Rat) {x : Ext} (h : Tells config toISOString row entries p i w)
    (log : p.shared.log <+: (ext p.shared x).log)
    (same : copies row.id (ext p.shared x) = copies row.id p.shared)
    (accounted : account config.kafka.consumerGroup row.id (ext p.shared x) =
      account config.kafka.consumerGroup row.id p.shared) :
    Tells config toISOString row entries ⟨ext p.shared x, p.slot⟩ i w := by
  have steps : (consumers config approx).Steps p (.env x) ⟨ext p.shared x, p.slot⟩ := .env rfl
  refine h.quiet steps log same accounted fun record hand => ?_
  have aside := hand.aside steps (fun _ _ _ _ => nofun) (fun _ _ => nofun)
  rwa [show (consumers config approx).logged p (.env x) = [] from rfl, List.append_nil] at aside

theorem carries_relayed {topic : String} {partition : Nat} {key : Option String}
    {value : Option Body} {headers : Headers}
    (relayed : Relayed toISOString (relayMessage row) (.produce topic partition key value headers)) :
    Carries config toISOString row 0 (s.produced topic partition key value headers) := by
  obtain ⟨place, same⟩ := relayed
  cases same
  exact ⟨rfl, rfl, rfl, rfl, rfl, rfl, rfl, 0, Num.double_ofInt (by decide)⟩

theorem Unpublished.published {record : Record} (h : Unpublished config row entries p)
    (older : ∀ t j, (p.slot t).job = some j → j.index < p.shared.log.length)
    (log : s.log = p.shared.log ++ [record])
    (accounted : account config.kafka.consumerGroup row.id s =
      account config.kafka.consumerGroup row.id p.shared)
    (carries : Carries config toISOString row 0 record) :
    Tells config toISOString row entries ⟨s, p.slot⟩ p.shared.log.length ⟨0, .waiting⟩ := by
  have all : copies row.id s = copies row.id p.shared ++
      if record.messageId = row.id then [record] else [] := copies_snoc log
  rw [h.nowhere, if_pos carries.named, List.nil_append] at all
  constructor
  · exact h.tried
  · exact accounted.trans h.accounted
  · rw [all]
    rfl
  · intro n r there
    rw [all] at there
    cases n with
    | zero =>
      cases there
      exact carries
    | succ n => cases there
  · intro n previous copy _ after
    rw [all] at after
    cases after
  · refine ⟨record, ?_, by rw [all]; rfl, .unread fun t j job same => ?_⟩
    · rw [log, List.getElem?_concat_length]
    · exact absurd same (Nat.ne_of_lt (older t j job))
  · intro i' r there own other
    have lt := (List.getElem?_eq_some_iff.mp there).1
    rw [log, List.length_append, List.length_singleton] at lt
    rw [log, List.getElem?_append_left (by omega)] at there
    exact absurd own (copies_nil h.nowhere (List.mem_of_getElem? there))

/-- A step of a handler whose record is not the current one. -/
theorem Tells.other {e : Effect} {k : Except Err e.Answer → Consumer Unit} {r : Except Err e.Answer}
    (identified : row.id ≠ "") (h : Tells config toISOString row entries p i w)
    (past : (consumers config approx).History (once config toISOString row) deployed entries p)
    (live : p.slot t = .live j e k) (other : j.index ≠ i) (good : c.succeeds e = true)
    (answered : exec config.kafka.topics t p.shared e c = some (s, r)) :
    Tells config toISOString row (entries ++ [⟨t, e, r, p.shared, s⟩])
      (Machine.put p t ((consumers config approx).settle t j s (k r))) i w := by
  have handed := once_handed past
  have steps : (consumers config approx).Steps p (.step t c)
      (Machine.put p t ((consumers config approx).settle t j s (k r))) := .step live answered
  have job : (p.slot t).job = some j := by rw [live]; rfl
  obtain ⟨consumed, same⟩ := put_shared config approx p t j s (k r)
  obtain ⟨record, mine⟩ := holds handed t j job
  have differs : record.messageId ≠ row.id := by
    intro named
    obtain ⟨t', j', ended, index⟩ := h.earlier j.index record mine.there named other
    have job' : (p.slot t').job = some j' := by rw [ended]; rfl
    obtain rfl := one_handler handed.reach t' t j' j job' job index
    rw [live] at ended
    cases ended
  obtain ⟨quiet, accounted, copies, log⟩ :=
    other_step identified past live good answered mine.there differs
  refine h.keep steps ?_ ?_ rfl ?_ ?_ ?_
  · rw [same]
    exact log
  · rw [same]
    exact copies
  · rw [tries_snoc, quiet]
    exact (List.append_nil _).trans h.tried
  · rw [same]
    exact accounted.trans h.accounted
  · intro record' there hand
    have aside := hand.aside steps ?_ ?_
    · rwa [Machine.logged_step live answered] at aside
    · intro t' j' job' index eq
      cases eq
      cases job.symm.trans job'
      exact other index
    · intro t' j' started
      cases started

/-- Until the message is published, no step of a handler is about it. -/
theorem Unpublished.other {e : Effect} {k : Except Err e.Answer → Consumer Unit}
    {r : Except Err e.Answer} (identified : row.id ≠ "") (h : Unpublished config row entries p)
    (past : (consumers config approx).History (once config toISOString row) deployed entries p)
    (live : p.slot t = .live j e k) (good : c.succeeds e = true)
    (answered : exec config.kafka.topics t p.shared e c = some (s, r)) :
    Unpublished config row (entries ++ [⟨t, e, r, p.shared, s⟩])
      (Machine.put p t ((consumers config approx).settle t j s (k r))) := by
  have job : (p.slot t).job = some j := by rw [live]; rfl
  obtain ⟨consumed, same⟩ := put_shared config approx p t j s (k r)
  obtain ⟨record, mine⟩ := holds (once_handed past) t j job
  have differs := copies_nil h.nowhere (List.mem_of_getElem? mine.there)
  obtain ⟨quiet, accounted, copies, -⟩ :=
    other_step identified past live good answered mine.there differs
  constructor
  · rw [tries_snoc, quiet, h.tried]
    rfl
  · rw [same]
    exact accounted.trans h.accounted
  · rw [same]
    exact copies.trans h.nowhere

/-- Every run tells the story of work that is retried. -/
theorem told (moderate : Moderate config) (identified : row.id ≠ "")
    (h : (consumers config approx).History (once config toISOString row) deployed entries p) :
    Unpublished config row entries p ∨
      ∃ i w, w.Limited (attemptLimit config) ∧ Tells config toISOString row entries p i w := by
  induction h with
  | refl => exact .inl ⟨rfl, rfl, rfl⟩
  | @step entries q q' a past ok st ih =>
    have steps := Machine.steps_of_step st
    have handed := once_handed past
    cases a with
    | kill t => exact ok.1.elim
    | start t j =>
      rw [show (consumers config approx).logged q (.start t j) = [] from rfl, List.append_nil]
      cases steps with
      | start idle ready =>
        rcases ih with unpublished | ⟨i, w, limited, tells⟩
        · obtain ⟨consumed, same⟩ := put_shared config approx q t j q.shared (j.code config approx)
          have shared : (Machine.put q t ((consumers config approx).settle t j q.shared
              ((consumers config approx).code j))).shared = { q.shared with consumed := consumed } :=
            same
          refine .inl ⟨unpublished.tried, ?_, ?_⟩
          · rw [shared]
            exact unpublished.accounted
          · rw [shared]
            exact unpublished.nowhere
        · have none : eventsOf t entries = [] := by
            have tracks := past.tracks t
            rwa [idle] at tracks
          exact .inr ⟨i, w, limited, tells.start ok.1 idle none (.start idle ready) rfl⟩
    | step t c =>
      cases steps with
      | @step _ _ j e k s r live answered =>
        rw [Machine.logged_step live answered]
        rcases ih with unpublished | ⟨i, w, limited, tells⟩
        · exact .inl (unpublished.other identified past live (ok.1 _ _ _ live) answered)
        · by_cases own : j.index = i
          · obtain ⟨i', w', onward, tells'⟩ :=
              tells.own moderate limited identified past live own (ok.1 _ _ _ live) answered
            exact .inr ⟨i', w', onward.limited limited, tells'⟩
          · exact .inr ⟨i, w, limited,
              tells.other identified past live own (ok.1 _ _ _ live) answered⟩
    | env x =>
      rw [show (consumers config approx).logged q (.env x) = [] from rfl, List.append_nil]
      cases steps with
      | @env _ s happened =>
        cases Option.some.inj happened
        cases x with
        | onApplicationShutdown replica => exact ok.1.elim
        | tick d =>
          rcases ih with unpublished | ⟨i, w, limited, tells⟩
          · exact .inl ⟨unpublished.tried, unpublished.accounted, unpublished.nowhere⟩
          · exact .inr ⟨i, w, limited, tells.outside approx List.prefix_rfl rfl rfl⟩
        | produce topic partition key value headers =>
          by_cases own : (q.shared.produced topic partition key value headers).messageId = row.id
          · obtain ⟨relayed, first⟩ := ok.2 own
            rcases ih with unpublished | ⟨i, w, limited, tells⟩
            · have limited : (Work.mk 0 .waiting).Limited (attemptLimit config) :=
                ⟨by simp [attemptLimit], nofun⟩
              refine .inr ⟨_, _, limited,
                unpublished.published (fun t j job => ?_) rfl rfl (carries_relayed relayed)⟩
              obtain ⟨record, mine⟩ := holds handed t j job
              exact (List.getElem?_eq_some_iff.mp mine.there).1
            · obtain ⟨record, there, last, -⟩ := tells.current
              exact absurd (tells.carries _ _ last).named (first record (List.mem_of_getElem? there))
          · have same := copies_produced own
            rcases ih with unpublished | ⟨i, w, limited, tells⟩
            · exact .inl ⟨unpublished.tried, unpublished.accounted, same.trans unpublished.nowhere⟩
            · exact .inr ⟨i, w, limited,
                tells.outside approx (List.prefix_append ..) same rfl⟩

end Overbook.Notifications
