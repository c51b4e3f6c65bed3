import Overbook.Notifications.Ending

/-! A notification ends once, after as many attempts as its outcomes and the configuration settle,
and no retry is handled before its stamp. Whatever has happened, the run can go on to its end. -/
namespace Overbook.Notifications

open Async Prog Kafka Retrying

def Consumed (id : String) (s : Inbox) : Prop :=
  copies id s ≠ [] ∧ ∀ i r, s.log[i]? = some r → r.messageId = id → i ∈ s.consumed

/-- As many attempts as the outcomes settle, each for a record of its own, and then one delivery or
one dead letter that counts them. -/
structure EndsOnce (config : AppConfiguration) (row : OutboxRow) (outcomes : Nat → Bool)
    (entries : List (Entry Inbox Effect.Answer Err)) (p : ConsumerPool) : Prop where
  attempts : (tries row.id entries).length = (ending (attemptLimit config) outcomes).1
  records : (copies row.id p.shared).length = (ending (attemptLimit config) outcomes).1
  sent : (ending (attemptLimit config) outcomes).2 = true →
    account config.kafka.consumerGroup row.id p.shared = ⟨true, 1, []⟩
  buried : (ending (attemptLimit config) outcomes).2 = false →
    account config.kafka.consumerGroup row.id p.shared =
      ⟨false, 0, [(.ofInt (attemptLimit config), some (.ofInt (attemptLimit config)))]⟩

def Effect.handles : Effect → Bool
  | .fetch .. | .stopping _ | .waitUntilDue .. => false
  | _ => true

/-- A handler of the record goes on only after `waitUntilDue` has returned, and that cannot return
before the stamp. -/
def NotBefore (topics : Topics) (entries : List (Entry Inbox Effect.Answer Err)) (p : ConsumerPool)
    (record : Record) (stamp : Time) : Prop :=
  ∀ first x last, entries = first ++ x :: last → About x.task record p → x.effect.handles = true →
    ∃ y ∈ first, y.task = x.task ∧ (∃ replica, y.effect = .waitUntilDue replica (.ofInt stamp)) ∧
      ∀ c, exec topics y.task y.before y.effect c = some (y.after, y.answer) →
        ∃ now : Time, c = .time now ∧ stamp ≤ now

variable {config : AppConfiguration} {approx : Rat → Rat} {toISOString : Time → String}
  {row : OutboxRow} {entries : List (Entry Inbox Effect.Answer Err)} {p q : ConsumerPool}
  {i : Nat} {w : Work} {t : Tid} {j : Job} {s : Inbox} {outcomes : Nat → Bool}

theorem Point.handles_late {record : Record} {point : Point} {e : Effect}
    (effect : point.effect config approx j record = some e) (handles : e.handles = true) :
    point.late = true := by
  cases point <;> first
    | rfl
    | (cases effect; cases handles)

def Final (w : Work) : Prop := w.stage = .succeeded ∨ w.stage = .abandoned

theorem Tells.final_of_ended {r : Except Err Unit}
    (run : (consumers config approx).Reach (handedOnce config) deployed p)
    (h : Tells config toISOString row entries p i w) (ended : p.slot t = .ended j r)
    (own : j.index = i) : Final w := by
  have job : (p.slot t).job = some j := by rw [ended]; rfl
  obtain ⟨record, -, -, hand⟩ := h.current
  obtain ⟨n, stage⟩ := w
  cases hand with
  | unread nobody => exact absurd own (nobody t j job)
  | @live t' j' e k live own' =>
    have job' : (p.slot t').job = some j' := by rw [live]; rfl
    obtain rfl := one_handler run t t' j j' job job' (own.trans own'.symm)
    rw [live] at ended
    cases ended
  | ended _ _ final => exact final

theorem ends_of_final (limited : w.Limited (attemptLimit config))
    (h : Tells config toISOString row entries p i w)
    (follows : Follows outcomes (tries row.id entries))
    (final : Final w) :
    EndsOnce config row outcomes entries p := by
  rw [h.tried] at follows
  obtain ⟨succeeded, abandoned⟩ := ended_as_settled limited follows
  have accounted := h.accounted
  have count := h.count
  have tried := h.tried
  obtain ⟨n, stage⟩ := w
  rcases final with final | final
  · obtain rfl : stage = .succeeded := final
    have settled := succeeded rfl
    constructor
    · rw [settled, tried]
      simp [Work.outcomes]
    · rw [settled]
      exact count
    · exact fun _ => accounted
    · intro failed
      rw [settled] at failed
      cases failed
  · obtain rfl : stage = .abandoned := final
    have settled := abandoned rfl
    have spent : n + 1 = attemptLimit config := limited.spent rfl
    constructor
    · rw [settled, tried]
      simpa [Work.outcomes] using spent
    · rw [settled]
      exact count.trans spent
    · intro sent
      rw [settled] at sent
      cases sent
    · intro _
      rw [← spent]
      exact accounted

/- A handler of a record from the retry topic has waited for its stamp before it goes on. -/
theorem waits_for_stamp {record : Record} {stamp : Time}
    (apart : config.kafka.topics.booking ≠ config.kafka.topics.retry)
    (h : (consumers config approx).History (handedOnce config) deployed entries p)
    (topic : record.topic = config.kafka.topics.retry)
    (due : record.message.retryAt = .ofInt stamp) :
    NotBefore config.kafka.topics entries p record stamp := by
  rintro first x last rfl ⟨j, job', there'⟩ handles
  obtain ⟨r, j', k, c, past, -, live, -, -, rest⟩ := h.split
  have job : (r.slot x.task).job = some j' := by rw [live]; rfl
  cases Option.some.inj (job'.symm.trans ((Machine.reach_keep rest x.task).1 j' job))
  obtain ⟨record', mine⟩ := holds past x.task j job
  cases Option.some.inj (there'.symm.trans (prefix_getElem? (log_kept rest) mine.there))
  obtain ⟨point, stands, course⟩ := on_course past job mine.fetched
  rw [live] at course
  cases course with
  | live effect =>
    have retry : j.isRetryTopic = true := by
      cases booking : j.isRetryTopic with
      | true => rfl
      | false =>
        have read := mine.topic
        rw [topic, booking] at read
        exact absurd read.symm apart
    have waited := stands.waited retry (Point.handles_late effect handles)
    obtain ⟨y, hy, event⟩ := List.mem_map.mp waited
    obtain ⟨there, own⟩ := List.mem_filter.mp hy
    rw [due] at event
    refine ⟨y, there, beq_iff_eq.mp own, ⟨j.replica, congrArg Sigma.fst event⟩, fun c answered => ?_⟩
    obtain ⟨r', j', k', c', run, same, -⟩ := past.answered there
    have calm := handedOnce_calm run
    rw [same] at calm
    obtain ⟨task, effect, answer, before, after⟩ := y
    cases event
    have running : before.stopping j.replica = false := calm j.replica
    cases c with
    | time now =>
      simp only [exec, running, Bool.false_or, Option.ite_none_right_eq_some] at answered
      exact ⟨now, rfl, due_ofInt.mp answered.1⟩
    | _ => cases answered

/-! Going on to the end. -/

/- Whatever the current handler asks for can be answered, and a delivery can end either way. -/
theorem can_answer {n : Nat} {record : Record} {point : Point} {e : Effect} (ends : Bool)
    (current : Current config approx toISOString row entries p t j n record point e)
    (topic : record.topic = subscribed config.kafka.topics j.isRetryTopic) :
    ∃ c s r, Choice.succeeds e c = true ∧ exec config.kafka.topics t p.shared e c = some (s, r) ∧
      (tried row.id ⟨e, r⟩).toList <+: [ends] := by
  have effect := current.effect
  cases point with
  | fetching =>
    cases effect
    refine ⟨.ok, { p.shared with handling := Function.update p.shared.handling t (some j.index) },
      .ok record, rfl, ?_, List.nil_prefix⟩
    simp only [exec, current.there, topic, if_true]
  | waiting =>
    cases effect
    obtain ⟨stamp, due⟩ := current.carries.due
    refine ⟨.time stamp, p.shared, .ok (), rfl, ?_, List.nil_prefix⟩
    rw [due]
    simp only [exec, due_ofInt.mpr le_rfl, Bool.or_true, if_true]
  | delivering =>
    cases effect
    have named : record.incoming.messageId = row.id := current.carries.named
    cases ends with
    | true =>
      have readable : record.incoming.payload.readable = true := by
        simp only [Record.incoming, current.carries.body]
        rfl
      refine ⟨.ok, { p.shared with delivered := p.shared.delivered ++
        [⟨t, p.shared.origin t, record.incoming⟩] }, .ok (), rfl, ?_, ?_⟩
      · simp only [exec, readable, if_true]
      · simp [tried, named]
    | false =>
      refine ⟨.threw lost, p.shared, .error lost, rfl, rfl, ?_⟩
      simp [tried, named]
  | drawing error =>
    cases effect
    exact ⟨.random 0, p.shared, .ok 0, rfl, by simp [exec], List.nil_prefix⟩
  | stamping | dating =>
    cases effect
    exact ⟨.time 0, _, _, rfl, rfl, List.nil_prefix⟩
  | retrying | burying =>
    cases effect
    exact ⟨.stored 0, _, _, rfl, rfl, List.nil_prefix⟩
  | through => cases effect
  | _ =>
    cases effect
    exact ⟨.ok, _, _, rfl, rfl, List.nil_prefix⟩

theorem carries_read {n : Nat} {record : Record} (booked : row.topic = config.kafka.topics.booking)
    (carries : Carries config toISOString row n record) :
    ∃ isRetryTopic, record.topic = subscribed config.kafka.topics isRetryTopic := by
  rw [carries.topic]
  split
  · exact ⟨false, booked⟩
  · exact ⟨true, rfl⟩

def attends (config : AppConfiguration) (toISOString : Time → String) (row : OutboxRow)
    (p : ConsumerPool) (a : Act Job Choice Ext) : Prop :=
  once config toISOString row p a ∧ ∀ x, a = .env x → Relayed toISOString (relayMessage row) x

theorem attends_once (h : (consumers config approx).History (attends config toISOString row) p
    entries q) : (consumers config approx).History (once config toISOString row) p entries q :=
  h.mono fun _ _ ok => ok.1

structure Continues (config : AppConfiguration) (approx : Rat → Rat) (toISOString : Time → String)
    (row : OutboxRow) (outcomes : Nat → Bool) (entries : List (Entry Inbox Effect.Answer Err))
    (p : ConsumerPool) (later : List (Entry Inbox Effect.Answer Err)) (q : ConsumerPool) : Prop where
  history : (consumers config approx).History (attends config toISOString row) p later q
  follows : Follows outcomes (tries row.id (entries ++ later))

theorem Continues.once {later : List (Entry Inbox Effect.Answer Err)}
    (h : Continues config approx toISOString row outcomes entries p later q) :
    (consumers config approx).History (Notifications.once config toISOString row) p later q :=
  attends_once h.history

theorem Continues.trans {r : ConsumerPool} {later last : List (Entry Inbox Effect.Answer Err)}
    (h : Continues config approx toISOString row outcomes entries p later q)
    (h' : Continues config approx toISOString row outcomes (entries ++ later) q last r) :
    Continues config approx toISOString row outcomes entries p (later ++ last) r := by
  constructor
  · exact h.history.trans h'.history
  · rw [← List.append_assoc]
    exact h'.follows

theorem follows_answer {x : Entry Inbox Effect.Answer Err}
    (follows : Follows outcomes (tries row.id entries))
    (next : (tried row.id x.event).toList <+: [outcomes (tries row.id entries).length]) :
    Follows outcomes (tries row.id (entries ++ [x])) := by
  obtain ⟨rest, whole⟩ := next
  have all := follows.snoc
  rw [← whole, ← List.append_assoc, ← tries_snoc] at all
  exact all.of_append

/-- The run can go on to where the work satisfies `P`. -/
def CanReach (config : AppConfiguration) (approx : Rat → Rat) (toISOString : Time → String)
    (row : OutboxRow) (outcomes : Nat → Bool) (entries : List (Entry Inbox Effect.Answer Err))
    (p : ConsumerPool) (P : Work → Prop) : Prop :=
  ∃ later q i w, Continues config approx toISOString row outcomes entries p later q ∧
    Tells config toISOString row (entries ++ later) q i w ∧ w.Limited (attemptLimit config) ∧ P w

theorem CanReach.here {P : Work → Prop} (follows : Follows outcomes (tries row.id entries))
    (tells : Tells config toISOString row entries p i w)
    (limited : w.Limited (attemptLimit config)) (holds : P w) :
    CanReach config approx toISOString row outcomes entries p P := by
  refine ⟨[], p, i, w, ⟨.refl, ?_⟩, ?_, limited, holds⟩
  · rwa [List.append_nil]
  · rwa [List.append_nil]

theorem CanReach.after {P : Work → Prop} {later : List (Entry Inbox Effect.Answer Err)}
    (first : Continues config approx toISOString row outcomes entries p later q)
    (h : CanReach config approx toISOString row outcomes (entries ++ later) q P) :
    CanReach config approx toISOString row outcomes entries p P := by
  obtain ⟨last, r, i, w, continues, tells, rest⟩ := h
  refine ⟨later ++ last, r, i, w, first.trans continues, ?_, rest⟩
  rwa [← List.append_assoc]

/- The work `w` has ended without another failure, or has failed once more. -/
def TriedOnce (w w' : Work) : Prop :=
  (Final w' ∧ w'.failures = w.failures) ∨ w'.failures = w.failures + 1

/-- The current handler can be run until the work has ended or has failed once more. -/
theorem handler_finishes {b : Consumer Unit} (moderate : Moderate config) (identified : row.id ≠ "")
    (slot : p.slot t = ((consumers config approx).settle t j s b).2)
    (past : (consumers config approx).History (once config toISOString row) deployed entries p)
    (follows : Follows outcomes (tries row.id entries))
    (tells : Tells config toISOString row entries p j.index w)
    (limited : w.Limited (attemptLimit config)) :
    CanReach config approx toISOString row outcomes entries p (TriedOnce w) := by
  induction b generalizing p s entries w with
  | done a =>
    have final := tells.final_of_ended (once_handed past).reach slot rfl
    exact .here follows tells limited (.inl ⟨final, rfl⟩)
  | fail x =>
    have final := tells.final_of_ended (once_handed past).reach slot rfl
    exact .here follows tells limited (.inl ⟨final, rfl⟩)
  | call e k ih =>
    have live : p.slot t = .live j e k := slot
    have job : (p.slot t).job = some j := by rw [live]; rfl
    obtain ⟨record, point, -, current⟩ := tells.handler identified past live rfl
    obtain ⟨record', mine⟩ := holds (once_handed past) t j job
    cases Option.some.inj (mine.there.symm.trans current.there)
    obtain ⟨c, s', r, good, answered, next⟩ :=
      can_answer (outcomes (tries row.id entries).length) current mine.topic
    obtain ⟨i', w', onward, tells'⟩ :=
      tells.own moderate limited identified past live rfl good answered
    have ok : attends config toISOString row p (.step t c) :=
      ⟨⟨step_ok live good, trivial⟩, fun _ same => nomatch same⟩
    have st : (consumers config approx).step p (.step t c) =
        some (Machine.put p t ((consumers config approx).settle t j s' (k r))) :=
      Machine.step_answer live answered
    have one : Continues config approx toISOString row outcomes entries p
        [⟨t, e, r, p.shared, s'⟩]
        (Machine.put p t ((consumers config approx).settle t j s' (k r))) := by
      constructor
      · have step := Machine.History.step .refl ok st
        rwa [Machine.logged_step live answered] at step
      · exact follows_answer follows next
    have limited' := onward.limited limited
    refine .after one ?_
    cases onward with
    | again i' more => exact .here one.follows tells' limited' (.inr rfl)
    | here moved =>
      have rest := ih r (Machine.put_self ..) (past.trans one.once) one.follows tells' limited'
      exact rest

/- A handler can take up the record that nobody has. -/
theorem record_finishes {record : Record} (moderate : Moderate config) (identified : row.id ≠ "")
    (booked : row.topic = config.kafka.topics.booking)
    (past : (consumers config approx).History (once config toISOString row) deployed entries p)
    (follows : Follows outcomes (tries row.id entries))
    (tells : Tells config toISOString row entries p i w)
    (limited : w.Limited (attemptLimit config)) (there : p.shared.log[i]? = some record)
    (carries : Carries config toISOString row w.failures record)
    (nobody : ∀ t j, (p.slot t).job = some j → j.index ≠ i) :
    CanReach config approx toISOString row outcomes entries p (TriedOnce w) := by
  obtain ⟨isRetryTopic, topic⟩ := carries_read booked carries
  obtain ⟨t, idle⟩ := past.reach.idle_after
  have idle := idle t (Nat.le_refl t)
  let j : Job := ⟨0, isRetryTopic, i⟩
  have ok : handedOnce config p (.start t j) := ⟨⟨record, there, topic⟩, nobody⟩
  have none : eventsOf t entries = [] := by
    have tracks := past.tracks t
    rwa [idle] at tracks
  have st := Machine.step_start (m := consumers config approx) (j := j) idle rfl
  have inside : attends config toISOString row p (.start t j) :=
    ⟨⟨ok, trivial⟩, fun _ same => nomatch same⟩
  have one : Continues config approx toISOString row outcomes entries p [] _ :=
    ⟨.step .refl inside st, by rwa [List.append_nil]⟩
  have tells' := tells.start ok idle none (Machine.steps_of_step st) rfl
  refine .after one ?_
  rw [List.append_nil]
  exact handler_finishes moderate identified (Machine.put_self ..)
    (by have all := past.trans one.once; rwa [List.append_nil] at all) follows tells' limited

/-- Whoever has the current record, it can be tried. -/
theorem work_tried (moderate : Moderate config) (identified : row.id ≠ "")
    (booked : row.topic = config.kafka.topics.booking)
    (past : (consumers config approx).History (once config toISOString row) deployed entries p)
    (follows : Follows outcomes (tries row.id entries))
    (tells : Tells config toISOString row entries p i w)
    (limited : w.Limited (attemptLimit config)) :
    CanReach config approx toISOString row outcomes entries p (TriedOnce w) := by
  obtain ⟨record, there, last, hand⟩ := tells.current
  obtain ⟨n, stage⟩ := w
  cases hand with
  | unread nobody =>
    exact record_finishes moderate identified booked past follows tells limited there
      (tells.carries n record last) nobody
  | @live t j e k live own =>
    subst own
    exact handler_finishes (b := .call e k) (s := p.shared) moderate identified live past follows
      tells limited
  | ended _ _ final => exact .here follows tells limited (.inl ⟨final, rfl⟩)

/-- The run can go on to where the work has ended. -/
theorem work_finishes (moderate : Moderate config) (identified : row.id ≠ "")
    (booked : row.topic = config.kafka.topics.booking)
    (past : (consumers config approx).History (once config toISOString row) deployed entries p)
    (follows : Follows outcomes (tries row.id entries))
    (tells : Tells config toISOString row entries p i w)
    (limited : w.Limited (attemptLimit config)) :
    CanReach config approx toISOString row outcomes entries p Final := by
  induction left : attemptLimit config - w.failures using Nat.strong_induction_on
    generalizing p entries i w with
  | _ left ih =>
    obtain ⟨later, q, i', w', continues, tells', limited', ⟨final, -⟩ | more⟩ :=
      work_tried moderate identified booked past follows tells limited
    · exact ⟨later, q, i', w', continues, tells', limited', final⟩
    · have below := limited'.below
      exact .after continues (ih _ (by omega) (past.trans continues.once) continues.follows
        tells' limited' rfl)

theorem Point.not_final (point : Point) (n : Nat) : ¬ Final ⟨n, point.stage⟩ := by
  rintro (succeeded | abandoned)
  · cases point <;> cases succeeded
  · cases point <;> cases abandoned

theorem Tells.consumed (run : (consumers config approx).Reach (handedOnce config) deployed p)
    (h : Tells config toISOString row entries p i w) (final : Final w) :
    Consumed row.id p.shared := by
  obtain ⟨record, there, last, hand⟩ := h.current
  constructor
  · intro none
    rw [none] at last
    cases last
  · intro i' r there' own
    rw [consumed_iff run]
    by_cases same : i' = i
    · subst same
      obtain ⟨n, stage⟩ := w
      cases hand with
      | unread nobody => rcases final with final | final <;> cases final
      | live live own => exact absurd final (Point.not_final _ n)
      | @ended t j _ ended own _ => exact ⟨t, j, ended, own⟩
    · exact h.earlier i' r there' own same

theorem Unpublished.relays (partition : Nat)
    (h : Unpublished config row entries p)
    (past : (consumers config approx).History (once config toISOString row) deployed entries p)
    (follows : Follows outcomes (tries row.id entries)) :
    ∃ q, Continues config approx toISOString row outcomes entries p [] q ∧
      Tells config toISOString row entries q p.shared.log.length ⟨0, .waiting⟩ := by
  let m := relayMessage row
  let x : Ext := .produce m.topic partition (some m.key)
    (some (.json (m.value.json toISOString))) m.headers
  have relayed : Relayed toISOString (relayMessage row) x := ⟨partition, rfl⟩
  have ok : attends config toISOString row p (.env x) := by
    refine ⟨⟨trivial, fun _ => ⟨relayed, fun r hr => copies_nil h.nowhere hr⟩⟩, fun y same => ?_⟩
    cases same
    exact relayed
  have older : ∀ t j, (p.slot t).job = some j → j.index < p.shared.log.length := by
    intro t j job
    obtain ⟨record, mine⟩ := holds (once_handed past) t j job
    exact (List.getElem?_eq_some_iff.mp mine.there).1
  refine ⟨⟨ext p.shared x, p.slot⟩, ⟨.step .refl ok rfl, ?_⟩,
    h.published older rfl rfl (carries_relayed relayed)⟩
  rwa [List.append_nil]

theorem can_reach_end (moderate : Moderate config) (identified : row.id ≠ "")
    (booked : row.topic = config.kafka.topics.booking)
    (h : (consumers config approx).History (once config toISOString row) deployed entries p)
    (follows : Follows outcomes (tries row.id entries)) :
    CanReach config approx toISOString row outcomes entries p Final := by
  rcases told moderate identified h with unpublished | ⟨i, w, limited, tells⟩
  · obtain ⟨q, first, tells⟩ := unpublished.relays 0 h follows
    have limited : (Work.mk 0 .waiting).Limited (attemptLimit config) :=
      ⟨by simp [attemptLimit], nofun⟩
    refine .after first ?_
    have past := h.trans first.once
    rw [List.append_nil] at past ⊢
    exact work_finishes moderate identified booked past follows tells limited
  · exact work_finishes moderate identified booked h follows tells limited

/-- From every state the run can go on, whatever the outcomes of deliveries to come, until the
notification has ended as they settle. -/
theorem notification_can_end (config : AppConfiguration) (approx : Rat → Rat)
    (toISOString : Time → String) (row : OutboxRow) (outcomes : Nat → Bool)
    (entries : List (Entry Inbox Effect.Answer Err)) (p : ConsumerPool)
    (moderate : Moderate config)
    (identified : row.id ≠ "") (booked : row.topic = config.kafka.topics.booking)
    (h : (consumers config approx).History (once config toISOString row) deployed entries p)
    (follows : Follows outcomes (tries row.id entries)) :
    ∃ later q, (consumers config approx).History (once config toISOString row) p later q ∧
      Follows outcomes (tries row.id (entries ++ later)) ∧ Consumed row.id q.shared ∧
        EndsOnce config row outcomes (entries ++ later) q := by
  obtain ⟨later, q, i, w, continues, tells, limited, final⟩ :=
    can_reach_end moderate identified booked h follows
  have handed := (once_handed (h.trans continues.once)).reach
  exact ⟨later, q, continues.once, continues.follows, tells.consumed handed final,
    ends_of_final limited tells continues.follows final⟩

theorem first_fails : ∃ entries p,
    (consumers {} id).History (once {} (fun _ => "") oneRow) deployed entries p ∧
      Follows (· == 1) (tries "m" entries) ∧ (copies "m" p.shared).length = 2 := by
  have unpublished : Unpublished {} oneRow [] deployed := ⟨rfl, rfl, rfl⟩
  obtain ⟨q, first, tells⟩ : ∃ q,
      Continues {} id (fun _ => "") oneRow (· == 1) [] deployed [] q ∧
        Tells {} (fun _ => "") oneRow [] q 0 ⟨0, .waiting⟩ := unpublished.relays 0 .refl nofun
  have limited : (Work.mk 0 .waiting).Limited (attemptLimit {}) := ⟨by decide, nofun⟩
  obtain ⟨later, p, i, w, continues, tells', limited', tried⟩ := work_tried default_moderate
    (by decide) rfl first.once first.follows tells limited
  have run := first.trans continues
  refine ⟨later, p, run.once, continues.follows, ?_⟩
  rcases tried with ⟨final, failures⟩ | failures
  · obtain ⟨n, stage⟩ := w
    obtain rfl : n = 0 := failures
    have follows := continues.follows
    rw [tells'.tried] at follows
    rcases final with rfl | rfl
    · cases (ended_as_settled limited' follows).1 rfl
    · cases limited'.spent rfl
  · have count := tells'.count
    rwa [failures] at count

theorem notification_can_end_failed : ∃ entries p later q,
    (consumers {} id).History (once {} (fun _ => "") oneRow) deployed entries p ∧
      (copies "m" p.shared).length = 2 ∧
      (consumers {} id).History (once {} (fun _ => "") oneRow) p later q ∧
      Consumed "m" q.shared ∧ EndsOnce {} oneRow (· == 1) (entries ++ later) q := by
  obtain ⟨entries, p, history, follows, records⟩ := first_fails
  obtain ⟨later, q, continues, -, consumed, ends⟩ := notification_can_end {} id (fun _ => "") oneRow
    (· == 1) entries p default_moderate (by decide) rfl history follows
  exact ⟨entries, p, later, q, history, records, continues, consumed, ends⟩

/-! The runs that have ended, and their retries. -/

/-- A retrying notification ends exactly once, after exactly the configured attempts. -/
theorem notification_ends_once (config : AppConfiguration) (approx : Rat → Rat)
    (toISOString : Time → String) (row : OutboxRow) (outcomes : Nat → Bool)
    (entries : List (Entry Inbox Effect.Answer Err)) (p : ConsumerPool)
    (moderate : Moderate config)
    (identified : row.id ≠ "")
    (h : (consumers config approx).History (once config toISOString row) deployed entries p)
    (follows : Follows outcomes (tries row.id entries)) (consumed : Consumed row.id p.shared) :
    EndsOnce config row outcomes entries p := by
  rcases told moderate identified h with unpublished | ⟨i, w, limited, tells⟩
  · exact absurd unpublished.nowhere consumed.1
  · obtain ⟨record, there, last, -⟩ := tells.current
    have own := consumed.2 i record there (tells.carries _ _ last).named
    have handed := (once_handed h).reach
    obtain ⟨t, j, ended, index⟩ := (consumed_iff handed i).mp own
    exact ends_of_final limited tells follows (tells.final_of_ended handed ended index)

theorem second_succeeds : ∃ entries p,
    (consumers {} id).History (once {} (fun _ => "") oneRow) deployed entries p ∧
      Follows (· == 1) (tries "m" entries) ∧ Consumed "m" p.shared ∧
      (copies "m" p.shared).length = 2 := by
  have reach : CanReach {} id (fun _ => "") oneRow (· == 1) [] deployed Final :=
    can_reach_end default_moderate (by decide) rfl .refl nofun
  obtain ⟨later, q, i, w, continues, tells, limited, final⟩ := reach
  exact ⟨later, q, continues.once, continues.follows,
    tells.consumed (once_handed continues.once).reach final,
    (ends_of_final limited tells continues.follows final).records⟩

theorem notification_ends_once_second : ∃ entries p, (tries "m" entries).length = 2 ∧
    account "overbook-notifications" "m" p.shared = ⟨true, 1, []⟩ ∧
    EndsOnce {} oneRow (· == 1) entries p := by
  obtain ⟨entries, p, history, follows, consumed, -⟩ := second_succeeds
  have ends := notification_ends_once {} id (fun _ => "") oneRow (· == 1) entries p
    default_moderate (by decide) history follows consumed
  exact ⟨entries, p, ends.attempts, ends.sent (by decide), ends⟩

/-- Each record of the message carries the message on and counts the failures before it; each retry
is stamped the backoff ahead at most, and is not handled before. -/
theorem retries_carry_and_wait (config : AppConfiguration) (approx : Rat → Rat)
    (toISOString : Time → String) (row : OutboxRow)
    (entries : List (Entry Inbox Effect.Answer Err)) (p : ConsumerPool)
    (moderate : Moderate config)
    (apart : config.kafka.topics.booking ≠ config.kafka.topics.retry) (identified : row.id ≠ "")
    (h : (consumers config approx).History (once config toISOString row) deployed entries p) :
    (∀ n r, (copies row.id p.shared)[n]? = some r → Carries config toISOString row n r) ∧
      ∀ n previous copy, (copies row.id p.shared)[n]? = some previous →
        (copies row.id p.shared)[n + 1]? = some copy →
          ∃ stamp : Time, copy.headers.retryAt = some (.ofInt stamp) ∧
            NotBefore config.kafka.topics entries p copy stamp ∧
            ∃ t, About t previous p ∧ ∃ now : Time, ⟨.dateNow, .ok now⟩ ∈ eventsOf t entries ∧
              now ≤ stamp ∧ (stamp : Int) ≤ now + min config.notifications.retryMaxMs
                (config.notifications.retryBaseMs * 2 ^ n) := by
  rcases told moderate identified h with unpublished | ⟨i, w, -, tells⟩
  · rw [unpublished.nowhere]
    exact ⟨fun n r there => (nomatch there), fun n previous copy there => (nomatch there)⟩
  · refine ⟨tells.carries, fun n previous copy before after => ?_⟩
    obtain ⟨t, about, now, stamp, read, retryAt, due, ahead⟩ := tells.stamped n previous copy before after
    have topic := (tells.carries (n + 1) copy after).topic
    exact ⟨stamp, retryAt, waits_for_stamp apart (once_handed h) topic due, t, about, now, read,
      ahead⟩

theorem retries_carry_and_wait_second : ∃ entries p copy, ∃ stamp : Time,
    (copies "m" p.shared)[1]? = some copy ∧ copy.headers.attempts = some (.ofInt 1) ∧
      copy.headers.retryAt = some (.ofInt stamp) ∧ NotBefore {} entries p copy stamp := by
  obtain ⟨entries, p, history, -, -, records⟩ := second_succeeds
  obtain ⟨carries, waits⟩ := retries_carry_and_wait {} id (fun _ => "") oneRow entries p
    default_moderate (by decide) (by decide) history
  obtain ⟨previous, copy, pair⟩ := List.length_eq_two.mp records
  have first : (copies "m" p.shared)[0]? = some previous := by rw [pair]; rfl
  have second : (copies "m" p.shared)[1]? = some copy := by rw [pair]; rfl
  obtain ⟨stamp, retryAt, notBefore, -⟩ := waits 0 previous copy first second
  exact ⟨entries, p, copy, stamp, second, (carries 1 copy second).attempts, retryAt, notBefore⟩

end Overbook.Notifications
