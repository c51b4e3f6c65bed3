import Overbook.Notifications.Course

/-! Runs in which every record is handed to one handler. No process stops in them, and nothing fails
but deliveries, so every handler takes its course. -/
namespace Overbook.Notifications

open Async Prog Kafka

/- Only `deliver` may throw, and `Date.now()` gives the time of a date. -/
def Choice.succeeds (e : Effect) : Choice → Bool
  | .fail => false
  | .lostReply => false
  | .storedUnanswered _ => false
  | .time now =>
    match e with
    | .dateNow => now ≤ lastTime
    | _ => true
  | _ => true

/-- A record that is there is handed to one handler, of a consumer that reads its topic. -/
def handedOnce (config : AppConfiguration) (p : ConsumerPool) : Act Job Choice Ext → Prop
  | .start _ j =>
    (∃ record, p.shared.log[j.index]? = some record ∧
      record.topic = subscribed config.kafka.topics j.isRetryTopic) ∧
    ∀ t j', (p.slot t).job = some j' → j'.index ≠ j.index
  | .step t c => ∀ j e k, p.slot t = .live j e k → c.succeeds e = true
  | .kill _ => False
  | .env (.onApplicationShutdown _) => False
  | .env _ => True

variable (config : AppConfiguration) (approx : Rat → Rat) (j : Job) (record : Record)

def Point.Idles : Point → Prop
  | .checking | .waiting | .rechecking | .acquiring => True
  | .drawing _ | .stamping .. | .dating .. => True
  | _ => False

/-- What the answer to a handler of `record` does, wherever it stands. -/
inductive Goes (t : Tid) (s : Inbox) : Point → Prog.Event Effect.Answer Err → Inbox → Prop where
  | idled {point : Point} {y : Prog.Event Effect.Answer Err} (idles : point.Idles) :
      Goes t s point y s
  | fetched {y : Prog.Event Effect.Answer Err} : Goes t s .fetching y
      { s with handling := Function.update s.handling t (some j.index) }
  | claimed {row : ProcessedMessage}
      (free : s.processed (record.messageId, config.kafka.consumerGroup) = none) :
      Goes t s .claiming ⟨.insertClaim row, .ok true⟩
        (s.setClaim (record.messageId, config.kafka.consumerGroup)
          (some { record.claim config.kafka.consumerGroup with owner := t }))
  | skipped {row : ProcessedMessage} {claimed : Claimed}
      (there : s.processed (record.messageId, config.kafka.consumerGroup) = some claimed) :
      Goes t s .claiming ⟨.insertClaim row, .ok false⟩
        { s with skipped := s.skipped ++ [(t, claimed)] }
  | delivered : Goes t s .delivering ⟨.deliver record.incoming, .ok ()⟩
      { s with delivered := s.delivered ++ [⟨t, s.origin t, record.incoming⟩] }
  | refused (error : Err) : Goes t s .delivering ⟨.deliver record.incoming, .error error⟩ s
  | released {y : Prog.Event Effect.Answer Err} (error : Err) : Goes t s (.releasing error) y
      (s.setClaim (record.messageId, config.kafka.consumerGroup) none)
  | retried {y : Prog.Event Effect.Answer Err} (error : Err) (random : Rat) (now : Time)
      (partition : Nat) : Goes t s (.retrying error random now) y
      (s.accept t partition (retryOf config approx record error random now))
  | buried {y : Prog.Event Effect.Answer Err} (attempts : Num) (reason : String) (now : Time)
      (partition : Nat) : Goes t s (.burying attempts reason now) y
      (s.accept t partition (deadLetterMessage config record.message attempts reason now))

variable {config approx j record} {topics : Topics} {t t' : Tid} {s s' : Inbox} {c : Choice}
  {point : Point}

theorem step_ok {p : ConsumerPool} {e : Effect} {k : Except Err e.Answer → Consumer Unit}
    (live : p.slot t = .live j e k) (good : c.succeeds e = true) :
    handedOnce config p (.step t c) := by
  intro j' e' k' live'
  rw [live] at live'
  cases live'
  exact good

theorem exec_smooth {e : Effect} {r : Except Err e.Answer}
    (calm : ∀ replica, s.stopping replica = false) (good : c.succeeds e = true)
    (h : exec topics t s e c = some (s', r)) : Smooth ⟨e, r⟩ := by
  cases e with
  | deliver message => trivial
  | stopping replica =>
    cases c <;> simp only [exec, reduceCtorEq, Option.some.injEq, Prod.mk.injEq] at h
    rw [← h.2, calm]
    rfl
  | random =>
    cases c <;> simp only [exec, reduceCtorEq, Option.ite_none_right_eq_some, Option.some.injEq,
      Prod.mk.injEq] at h
    obtain ⟨⟨nonneg, below⟩, -, rfl⟩ := h
    exact ⟨_, nonneg, below, rfl⟩
  | fetch isRetryTopic index =>
    cases c <;> simp only [exec, reduceCtorEq] at h
    split at h
    · split at h
      · cases Option.some.inj h
        exact ⟨_, rfl⟩
      · cases h
    · cases h
  | waitUntilDue replica retryAtMs =>
    cases c <;> simp only [exec, reduceCtorEq, Option.ite_none_right_eq_some, Option.some.injEq,
      Prod.mk.injEq] at h
    exact ⟨(), h.2.2.symm⟩
  | dateNow =>
    cases c <;> simp only [exec, reduceCtorEq, Option.some.injEq, Prod.mk.injEq] at h
    exact ⟨_, of_decide_eq_true good, h.2.symm⟩
  | _ =>
    cases c <;> first
      | exact ⟨_, (congrArg Prod.snd (Option.some.inj h)).symm⟩
      | (cases good; done)
      | cases h

theorem idles_same {e : Effect} {r : Except Err e.Answer} (idles : point.Idles)
    (effect : point.effect config approx j record = some e)
    (calm : ∀ replica, s.stopping replica = false)
    (h : exec topics t s e c = some (s', r)) : s' = s := by
  have moves := exec_moves h
  cases point <;> first
    | exact idles.elim
    | (cases effect
       cases moves with
       | same => rfl
       | stopped stopping => exact nomatch (calm _).symm.trans stopping)
    | (cases effect
       cases moves
       rfl)

theorem goes_of_exec {e : Effect} {r : Except Err e.Answer}
    (effect : point.effect config approx j record = some e)
    (calm : ∀ replica, s.stopping replica = false) (good : c.succeeds e = true)
    (h : exec config.kafka.topics t s e c = some (s', r)) :
    Goes config approx j record t s point ⟨e, r⟩ s' := by
  have smooth := exec_smooth calm good h
  cases point with
  | through => cases effect
  | fetching =>
    cases effect
    obtain ⟨first, rfl⟩ := smooth
    rw [(fetched_ok h).2.2]
    exact .fetched
  | claiming =>
    cases effect
    obtain ⟨won, rfl⟩ := smooth
    obtain ⟨free, rfl⟩ := inserted_ok h
    cases there : s.processed (record.messageId, config.kafka.consumerGroup) with
    | none =>
      have won : won = true := by rw [free]; simp [Record.claim, there]
      subst won
      have same : s.insertClaim t (record.claim config.kafka.consumerGroup) =
          s.setClaim (record.messageId, config.kafka.consumerGroup)
            (some { record.claim config.kafka.consumerGroup with owner := t }) := by
        simp [Inbox.insertClaim, Record.claim, there]
      rw [same]
      exact .claimed there
    | some claimed =>
      have lost : won = false := by rw [free]; simp [Record.claim, there]
      subst lost
      have same : s.insertClaim t (record.claim config.kafka.consumerGroup) =
          { s with skipped := s.skipped ++ [(t, claimed)] } := by
        simp [Inbox.insertClaim, Record.claim, there]
      rw [same]
      exact .skipped there
  | delivering =>
    cases effect
    cases r with
    | ok u =>
      rw [delivered_ok h]
      exact .delivered
    | error error =>
      rw [delivered_error h]
      exact .refused error
  | releasing error =>
    cases effect
    rcases deleted_cases h with rfl | ⟨rfl, -⟩
    · exact .released error
    · cases good
  | retrying error random now =>
    cases effect
    rcases sent_cases h with ⟨partition, rfl⟩ | ⟨rfl, -, -⟩
    · exact .retried error random now partition
    · cases good
  | burying attempts reason now =>
    cases effect
    rcases sent_cases h with ⟨partition, rfl⟩ | ⟨rfl, -, -⟩
    · exact .buried attempts reason now partition
    · cases good
  | _ =>
    have same := idles_same (by trivial) effect calm h
    rw [same]
    exact .idled (by trivial)

theorem Goes.frame {y : Prog.Event Effect.Answer Err}
    (goes : Goes config approx j record t s point y s') :
    s.log <+: s'.log ∧ (∀ t', t' ≠ t → s'.handling t' = s.handling t') ∧
      (s'.handling t = s.handling t ∨ s'.handling t = some j.index) := by
  have accepted : ∀ partition m, s.log <+: (s.accept t partition m).log ∧
      (s.accept t partition m).handling = s.handling := by
    intro partition m
    have frame : Undisturbed "" t s (s.accept t partition m) := accept_undisturbed t t partition s m
    refine ⟨frame.log, ?_⟩
    unfold Inbox.accept
    split <;> rfl
  cases goes with
  | fetched =>
    exact ⟨List.prefix_rfl, fun t' other => Function.update_of_ne other .., .inr (Function.update_self ..)⟩
  | retried error random now partition =>
    obtain ⟨log, handling⟩ := accepted partition (retryOf config approx record error random now)
    exact ⟨log, fun t' _ => by rw [handling], .inl (by rw [handling])⟩
  | buried attempts reason now partition =>
    obtain ⟨log, handling⟩ :=
      accepted partition (deadLetterMessage config record.message attempts reason now)
    exact ⟨log, fun t' _ => by rw [handling], .inl (by rw [handling])⟩
  | _ => exact ⟨List.prefix_rfl, fun _ _ => rfl, .inl rfl⟩

/-! Histories of such runs. -/

variable {p q : ConsumerPool} {entries : List (Entry Inbox Effect.Answer Err)}

theorem handedOnce_calm (run : (consumers config approx).Reach (handedOnce config) deployed p) :
    ∀ replica, p.shared.stopping replica = false := by
  have weaker : ∀ (q : ConsumerPool) a, handedOnce config q a → Regime.Ok { shutdowns := False } q a := by
    intro q a ok
    cases a with
    | start t j => trivial
    | step t c => exact fun _ _ _ _ => trivial
    | kill t => exact ok.elim
    | env x =>
      cases x with
      | onApplicationShutdown replica => exact ok
      | _ => trivial
  exact (never_stopped id (run.mono weaker)).1

theorem handedOnce_smooth
    (h : (consumers config approx).History (handedOnce config) deployed entries p) :
    ∀ x ∈ entries, Smooth x.event := by
  intro x hx
  obtain ⟨r, j, k, c, run, same, live, good, answered⟩ := h.answered hx
  have calm := handedOnce_calm run
  rw [same] at calm
  exact exec_smooth calm (good _ _ _ live) answered

/-- What is known of handler `t` of `record`. -/
structure Holds (config : AppConfiguration) (entries : List (Entry Inbox Effect.Answer Err))
    (s : Inbox) (t : Tid) (j : Job) (record : Record) : Prop where
  there : s.log[j.index]? = some record
  topic : record.topic = subscribed config.kafka.topics j.isRetryTopic
  fetched : Fetched j record (eventsOf t entries)
  handling : eventsOf t entries ≠ [] → s.handling t = some j.index

inductive OnCourse (config : AppConfiguration) (approx : Rat → Rat) (j : Job) (record : Record)
    (point : Point) : Slot Job Effect Effect.Answer Err Unit → Prop where
  | live {e : Effect} {k : Except Err e.Answer → Consumer Unit}
      (effect : point.effect config approx j record = some e) :
      OnCourse config approx j record point (.live j e k)
  | ended (last : point = .through) : OnCourse config approx j record point (.ended j (.ok ()))

theorem on_course
    (h : (consumers config approx).History (handedOnce config) deployed entries p)
    (job : (p.slot t).job = some j) (fetched : Fetched j record (eventsOf t entries)) :
    ∃ point, Stands config j record (eventsOf t entries) point ∧
      OnCourse config approx j record point (p.slot t) := by
  have smooth : ∀ y ∈ eventsOf t entries, Smooth y := by
    intro y hy
    obtain ⟨x, hx, rfl⟩ := List.mem_map.mp hy
    exact handedOnce_smooth h x (List.mem_filter.mp hx).1
  obtain ⟨asks, ends⟩ := h.heeds smooth (code_course config approx j)
  cases slot : p.slot t with
  | idle =>
    rw [slot] at job
    cases job
  | live j' e k =>
    rw [slot] at job
    cases job
    obtain ⟨point, stands, effect⟩ := asks e k slot record fetched
    exact ⟨point, stands, .live effect⟩
  | ended j' r =>
    rw [slot] at job
    cases job
    obtain ⟨rfl, closed⟩ := ends r slot
    exact ⟨.through, closed record fetched, .ended rfl⟩
  | gone j' => exact absurd slot (h.reach.not_gone (fun _ _ => id) t j')

theorem Holds.other {x : Entry Inbox Effect.Answer Err} (h : Holds config entries s t j record)
    (other : x.task ≠ t) (log : s.log <+: s'.log) (handling : s'.handling t = s.handling t) :
    Holds config (entries ++ [x]) s' t j record := by
  have same := eventsOf_other other entries
  constructor
  · exact prefix_getElem? log h.there
  · exact h.topic
  · rw [same]
    exact h.fetched
  · rw [same, handling]
    exact h.handling

theorem Holds.quiet (h : Holds config entries s t j record) (log : s.log <+: s'.log)
    (handling : s'.handling t = s.handling t) : Holds config entries s' t j record :=
  ⟨prefix_getElem? log h.there, h.topic, h.fetched, fun some => handling.trans (h.handling some)⟩

theorem Holds.own {x : Entry Inbox Effect.Answer Err} (h : Holds config entries s t j record)
    (own : x.task = t) (stands : Stands config j record (eventsOf t entries) point)
    (first : eventsOf t entries = [] → x.event = ⟨.fetch j.isRetryTopic j.index, .ok record⟩)
    (goes : Goes config approx j record t s point x.event s') :
    Holds config (entries ++ [x]) s' t j record := by
  subst own
  have grown := eventsOf_own entries x
  obtain ⟨log, -, handling⟩ := goes.frame
  constructor
  · exact prefix_getElem? log h.there
  · exact h.topic
  · rw [grown]
    intro y hy
    cases past : eventsOf x.task entries with
    | nil =>
      rw [past] at hy
      cases hy
      exact first past
    | cons z rest =>
      rw [past] at hy
      exact h.fetched y (by rw [past]; exact hy)
  · intro _
    rcases handling with same | handed
    · by_cases none : eventsOf x.task entries = []
      · have fetching : point = .fetching := by rw [← stands.place, none]; rfl
        subst fetching
        cases goes with
        | idled idles => exact idles.elim
        | fetched => exact Function.update_self ..
      · rw [same]
        exact h.handling none
    · exact handed

theorem holds_answered {e : Effect} {k : Except Err e.Answer → Consumer Unit}
    {r : Except Err e.Answer}
    (past : (consumers config approx).History (handedOnce config) deployed entries p)
    (known : ∀ t j, (p.slot t).job = some j → ∃ record, Holds config entries p.shared t j record)
    (live : p.slot t = .live j e k) (good : c.succeeds e = true)
    (answered : exec config.kafka.topics t p.shared e c = some (s', r)) :
    ∀ t' j', (p.slot t').job = some j' →
      ∃ record, Holds config (entries ++ [⟨t, e, r, p.shared, s'⟩]) s' t' j' record := by
  have job : (p.slot t).job = some j := by rw [live]; rfl
  obtain ⟨record, mine⟩ := known t j job
  obtain ⟨point, stands, course⟩ := on_course past job mine.fetched
  rw [live] at course
  cases course with
  | live effect =>
    have calm := handedOnce_calm past.reach
    have goes := goes_of_exec (r := r) effect calm good answered
    intro t' j' job'
    by_cases own : t' = t
    · subst own
      cases Option.some.inj (job'.symm.trans job)
      refine ⟨record, mine.own (x := ⟨t', e, r, p.shared, s'⟩) rfl stands ?_ goes⟩
      intro none
      have fetching : point = .fetching := by rw [← stands.place, none]; rfl
      subst fetching
      cases effect
      obtain ⟨first, rfl⟩ := exec_smooth calm good answered
      have there := (fetched_ok answered).1
      rw [mine.there] at there
      cases Option.some.inj there
      rfl
    · obtain ⟨other, theirs⟩ := known t' j' job'
      obtain ⟨log, handling, -⟩ := goes.frame
      exact ⟨other, theirs.other (x := ⟨t, e, r, p.shared, s'⟩) (Ne.symm own) log (handling t' own)⟩

theorem holds (h : (consumers config approx).History (handedOnce config) deployed entries p) :
    ∀ t j, (p.slot t).job = some j → ∃ record, Holds config entries p.shared t j record := by
  induction h with
  | refl =>
    intro t j job
    have idle : (none : Option Job) = some j := job
    cases idle
  | @step entries q q' a past ok st ih =>
    cases Machine.steps_of_step st with
    | @start t' j' idle ready =>
      intro t j job
      obtain ⟨consumed, same⟩ := put_shared config approx q t' j' q.shared (j'.code config approx)
      have shared : (Machine.put q t' ((consumers config approx).settle t' j' q.shared
          ((consumers config approx).code j'))).shared = { q.shared with consumed := consumed } := same
      rw [show (consumers config approx).logged q (.start t' j') = [] from rfl, List.append_nil, shared]
      by_cases own : t = t'
      · subst own
        rw [Machine.put_self, Machine.settle_job] at job
        cases job
        have none : eventsOf t entries = [] := by
          have tracks := past.tracks t
          rwa [idle] at tracks
        obtain ⟨record, there, topic⟩ := ok.1
        refine ⟨record, there, topic, ?_, fun some => absurd none some⟩
        intro y hy
        rw [none] at hy
        cases hy
      · rw [Machine.put_of_ne own] at job
        obtain ⟨record, known⟩ := ih t j job
        exact ⟨record, known.quiet List.prefix_rfl rfl⟩
    | @step t' c j' e k s r live answered =>
      have known := holds_answered past ih live (ok _ _ _ live) answered
      obtain ⟨consumed, same⟩ := put_shared config approx q t' j' s (k r)
      rw [Machine.logged_step live answered, same]
      intro t j job
      have before : (q.slot t).job = some j := by
        by_cases own : t = t'
        · subst own
          rw [Machine.put_self, Machine.settle_job] at job
          rw [live]
          exact job
        · rwa [Machine.put_of_ne own] at job
      obtain ⟨record, holds⟩ := known t j before
      exact ⟨record, holds.quiet List.prefix_rfl rfl⟩
    | kill live => exact ok.elim
    | @env x s happened =>
      intro t j job
      rw [show (consumers config approx).logged q (.env x) = [] from rfl, List.append_nil]
      obtain ⟨record, known⟩ := ih t j job
      cases Option.some.inj happened
      cases x with
      | produce topic partition key value headers =>
        exact ⟨record, known.quiet (List.prefix_append ..) rfl⟩
      | _ => exact ⟨record, known.quiet List.prefix_rfl rfl⟩

theorem one_handler (run : (consumers config approx).Reach (handedOnce config) deployed p) :
    ∀ t t' j j', (p.slot t).job = some j → (p.slot t').job = some j' → j.index = j'.index →
      t = t' := by
  induction run with
  | refl =>
    intro t t' j j' job
    have idle : (none : Option Job) = some j := job
    cases idle
  | @step q q' a _ ok st ih =>
    intro t t' j j' job job' same
    have steps := Machine.steps_of_step st
    rcases Machine.steps_job steps job with before | rfl
    · rcases Machine.steps_job steps job' with before' | rfl
      · exact ih t t' j j' before before' same
      · exact absurd same (ok.2 t j before)
    · rcases Machine.steps_job steps job' with before' | started
      · exact absurd same.symm (ok.2 t' j' before')
      · cases started
        rfl

theorem moves_consumed {e : Effect} (moves : Moves t s e s') : s'.consumed = s.consumed := by
  cases moves with
  | inserted row =>
    unfold Inbox.insertClaim
    split <;> rfl
  | accepted partition batch =>
    unfold Inbox.acceptAll
    induction sent batch generalizing s with
    | nil => rfl
    | cons m rest ih =>
      rw [List.foldl_cons, ih]
      unfold Inbox.accept
      split <;> rfl
  | _ => rfl

theorem moves_log {e : Effect} (moves : Moves t s e s') : s.log <+: s'.log := by
  cases moves with
  | inserted row =>
    unfold Inbox.insertClaim
    split <;> exact List.prefix_rfl
  | accepted partition batch => exact (acceptAll_rest t partition batch s).2.2.2
  | _ => exact List.prefix_rfl

theorem log_kept {Ok : ConsumerPool → Act Job Choice Ext → Prop}
    (run : (consumers config approx).Reach Ok p q) : p.shared.log <+: q.shared.log := by
  induction run with
  | refl => exact List.prefix_rfl
  | @step q q' a _ _ st ih =>
    refine ih.trans ?_
    cases Machine.steps_of_step st with
    | @start t j idle ready =>
      obtain ⟨consumed, same⟩ := put_shared config approx q t j q.shared (j.code config approx)
      have log := congrArg Inbox.log same
      exact ⟨[], (List.append_nil _).trans log.symm⟩
    | @step t c j e k s r live answered =>
      obtain ⟨consumed, same⟩ := put_shared config approx q t j s (k r)
      have grown : q.shared.log <+: s.log := moves_log (exec_moves answered)
      rw [same]
      exact grown
    | kill live => exact List.prefix_rfl
    | @env x s happened =>
      cases Option.some.inj happened
      cases x with
      | produce topic partition key value headers => exact List.prefix_append ..
      | _ => exact List.prefix_rfl

theorem put_consumed (i : Nat) {b : Consumer Unit} (open' : ∀ j r, p.slot t ≠ .ended j r)
    (same : s.consumed = p.shared.consumed)
    (before : i ∈ p.shared.consumed ↔ ∃ t j, p.slot t = .ended j (.ok ()) ∧ j.index = i) :
    i ∈ (Machine.put p t ((consumers config approx).settle t j s b)).shared.consumed ↔
      ∃ t' j', (Machine.put p t ((consumers config approx).settle t j s b)).slot t' =
        .ended j' (.ok ()) ∧ j'.index = i := by
  have own := Machine.put_self p t ((consumers config approx).settle t j s b)
  have new : i ∈ ((consumers config approx).settle t j s b).1.consumed ↔ i ∈ s.consumed ∨
      ((consumers config approx).settle t j s b).2 = .ended j (.ok ()) ∧ i = j.index := by
    cases b <;> simp [Machine.settle, consumers]
  have others : ∀ t' j', t' ≠ t →
      ((Machine.put p t ((consumers config approx).settle t j s b)).slot t' = .ended j' (.ok ()) ↔
        p.slot t' = .ended j' (.ok ())) := fun t' j' ne => by rw [Machine.put_of_ne ne]
  refine new.trans ?_
  rw [same, before]
  constructor
  · rintro (⟨t', j', ended, index⟩ | ⟨ended, rfl⟩)
    · have ne : t' ≠ t := fun eq => open' j' (.ok ()) (eq ▸ ended)
      exact ⟨t', j', (others t' j' ne).mpr ended, index⟩
    · exact ⟨t, j, own.trans ended, rfl⟩
  · rintro ⟨t', j', ended, rfl⟩
    by_cases ne : t' = t
    · subst ne
      have mine := own.symm.trans ended
      have job := Machine.settle_job (m := consumers config approx) t' j s b
      rw [mine] at job
      cases job
      exact .inr ⟨mine, rfl⟩
    · exact .inl ⟨t', j', (others t' j' ne).mp ended, rfl⟩

/-- A record is consumed once its handler has ended. -/
theorem consumed_iff (run : (consumers config approx).Reach (handedOnce config) deployed p) (i : Nat) :
    i ∈ p.shared.consumed ↔ ∃ t j, p.slot t = .ended j (.ok ()) ∧ j.index = i := by
  induction run with
  | refl =>
    constructor
    · exact fun none => nomatch none
    · rintro ⟨t, j, ended, -⟩
      have idle : (Slot.idle : Slot Job Effect Effect.Answer Err Unit) = .ended j (.ok ()) := ended
      cases idle
  | @step q q' a run ok st ih =>
    cases Machine.steps_of_step st with
    | start idle ready =>
      exact put_consumed i (fun j r ended => by rw [idle] at ended; cases ended) rfl ih
    | step live answered =>
      exact put_consumed i (fun j r ended => by rw [live] at ended; cases ended)
        (moves_consumed (exec_moves answered)) ih
    | kill live => exact ok.elim
    | @env x s happened =>
      cases Option.some.inj happened
      cases x <;> exact ih

end Overbook.Notifications
