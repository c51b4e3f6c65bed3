import Overbook.Async.History
import Overbook.Notifications.Dedup

/-! Which records are taken for duplicates of which. The id that a record is claimed under is the one
that its producer has given it, or else its topic and offset, without the partition. -/
namespace Overbook.Notifications

open Async Prog Kafka

def About (t : Tid) (record : Record) (p : ConsumerPool) : Prop :=
  ∃ j, (p.slot t).job = some j ∧ p.shared.log[j.index]? = some record

def Record.Named (record : Record) : Prop := ∃ id, id ≠ "" ∧ record.headers.messageId = some id

/-- Two records that may be taken for one another: the same place of the same partition, one id that
both producers have given, or copies of one record that was produced without an id. -/
inductive SameMessage (a b : Record) : Prop
  | redelivered : a.topic = b.topic → a.partition = b.partition → a.offset = b.offset →
      SameMessage a b
  | named (id : String) : id ≠ "" → a.headers.messageId = some id → b.headers.messageId = some id →
      SameMessage a b
  | copies (topic : String) (partition offset : Nat) : a.origin = .record topic partition offset →
      b.origin = .record topic partition offset → SameMessage a b

/-- Whoever has ended as a duplicate has lost to a claim for the same message. -/
def OnlyCopiesSkipped (p : ConsumerPool) : Prop :=
  ∀ x ∈ p.shared.skipped, ∃ a b, About x.1 a p ∧ About x.2.owner b p ∧ SameMessage a b

/-- The id of a produced record is that of another record only where both have been given it. -/
def unshared (p : ConsumerPool) : Act Job Choice Ext → Prop
  | .env (.produce topic partition key value headers) =>
    let record := p.shared.produced topic partition key value headers
    ∀ other ∈ p.shared.log, other.messageId = record.messageId → other.Named ∧ record.Named
  | _ => True

variable {config : AppConfiguration} {approx : Rat → Rat} {p q : ConsumerPool} {t : Tid}
  {record : Record}

def fetches (j : Job) : Effect → Prop
  | .fetch _ index => index = j.index
  | _ => True

theorem code_fetches (j : Job) : (j.code config approx).Only (fetches j) := by
  refine code_only j rfl (fun e he => ?_) (fun _ _ _ _ => trivial) fun _ _ _ _ _ => trivial
  cases e <;> trivial

variable {Ok : ConsumerPool → Act Job Choice Ext → Prop}

variable (config approx) in
theorem put_shared (p : ConsumerPool) (t : Tid) (j : Job) (s : Inbox) (b : Consumer Unit) :
    ∃ consumed, (Machine.put p t ((consumers config approx).settle t j s b)).shared =
      { s with consumed := consumed } := settle_shared config approx t j s b

theorem acceptAll_rest (t : Tid) (partition : Nat) (batch : List (TopicMessages Value)) (s : Inbox) :
    (s.acceptAll t partition batch).handling = s.handling ∧
      (s.acceptAll t partition batch).processed = s.processed ∧
      (s.acceptAll t partition batch).skipped = s.skipped ∧
      s.log <+: (s.acceptAll t partition batch).log := by
  unfold Inbox.acceptAll
  induction sent batch generalizing s with
  | nil => exact ⟨rfl, rfl, rfl, List.prefix_rfl⟩
  | cons m rest ih =>
    have one : (s.accept t partition m).handling = s.handling ∧
        (s.accept t partition m).processed = s.processed ∧
        (s.accept t partition m).skipped = s.skipped ∧ s.log <+: (s.accept t partition m).log := by
      unfold Inbox.accept
      split
      · exact ⟨rfl, rfl, rfl, List.prefix_append ..⟩
      · exact ⟨rfl, rfl, rfl, List.prefix_rfl⟩
    obtain ⟨handling, processed, skipped, log⟩ := ih (s.accept t partition m)
    exact ⟨handling.trans one.1, processed.trans one.2.1, skipped.trans one.2.2.1, one.2.2.2.trans log⟩

theorem moves_handling {s s' : Inbox} {e : Effect} (moves : Moves t s e s')
    (t' : Tid) (i : Nat) (h : s'.handling t' = some i) :
    s.handling t' = some i ∨ t' = t ∧ ∃ isRetryTopic, e = .fetch isRetryTopic i := by
  cases moves with
  | @fetched isRetryTopic index record there =>
    by_cases same : t' = t
    · subst same
      change Function.update s.handling t' (some index) t' = some i at h
      rw [Function.update_self] at h
      cases Option.some.inj h
      exact .inr ⟨rfl, isRetryTopic, rfl⟩
    · exact .inl ((Function.update_of_ne same (some index) s.handling).symm.trans h)
  | inserted row =>
    unfold Inbox.insertClaim at h
    split at h <;> exact .inl h
  | accepted partition batch => exact .inl ((acceptAll_rest t partition batch s).1 ▸ h)
  | _ => exact .inl h

theorem handles_own (run : (consumers config approx).Reach Ok deployed p) :
    ∀ t i, p.shared.handling t = some i → ∃ j, (p.slot t).job = some j ∧ j.index = i := by
  induction run with
  | refl => exact fun t i none => nomatch none
  | @step q r a before ok st ih =>
    intro t i handling
    have steps := Machine.steps_of_step st
    have old : q.shared.handling t = some i → ∃ j, (r.slot t).job = some j ∧ j.index = i := by
      intro handling
      obtain ⟨j, job, index⟩ := ih t i handling
      exact ⟨j, (Machine.steps_keep steps t).1 j job, index⟩
    cases steps with
    | start idle ready =>
      obtain ⟨consumed, same⟩ := put_shared config approx q _ _ q.shared _
      rw [same] at handling
      exact old handling
    | @step t' c j e k s o live answered =>
      obtain ⟨consumed, same⟩ := put_shared config approx q t' j s (k o)
      rw [same] at handling
      rcases moves_handling (exec_moves answered) t i handling with before | ⟨rfl, topic, rfl⟩
      · exact old before
      · have index := before.only code_fetches live
        exact ⟨j, by rw [Machine.put_self, Machine.settle_job], index.symm⟩
    | kill live => exact old handling
    | @env x s happened =>
      cases Option.some.inj happened
      cases x <;> exact old handling

theorem about_of_handles (run : (consumers config approx).Reach Ok deployed p)
    (h : Handles t record p.shared) : About t record p := by
  obtain ⟨i, handling, there⟩ := h
  obtain ⟨j, job, rfl⟩ := handles_own run t i handling
  exact ⟨j, job, there⟩

/-- Ids of records and what they are copies of. A record whose origin is no given id has the id of
a record that was produced without one. -/
structure Distinct (s : Inbox) : Prop where
  origins : ∀ a ∈ s.log, ∀ b ∈ s.log, a.messageId = b.messageId → a.origin = b.origin
  named : ∀ a ∈ s.log, ∀ id, a.origin = .named id → id ≠ "" ∧ a.headers.messageId = some id
  roots : ∀ a ∈ s.log, ∀ topic partition offset, a.origin = .record topic partition offset →
    ∃ root ∈ s.log, ¬ root.Named ∧ root.messageId = a.messageId

theorem Distinct.of_log {s s' : Inbox} (h : Distinct s) (log : s'.log = s.log) : Distinct s' := by
  constructor
  · rw [log]
    exact h.origins
  · rw [log]
    exact h.named
  · rw [log]
    exact h.roots

theorem SameMessage.of_distinct {s : Inbox} (h : Distinct s) {a b : Record} (ha : a ∈ s.log)
    (hb : b ∈ s.log) (same : a.messageId = b.messageId) : SameMessage a b := by
  have origin := h.origins a ha b hb same
  cases own : a.origin with
  | named id =>
    have first := h.named a ha id own
    have second := h.named b hb id (origin ▸ own)
    exact .named id first.1 first.2 second.2
  | record topic partition offset => exact .copies topic partition offset own (origin ▸ own)

theorem distinct_copied {s : Inbox} (h : Distinct s) {a copy : Record} (ha : a ∈ s.log)
    (messageId : copy.headers.messageId = some a.messageId) (origin : copy.origin = a.origin) :
    Distinct { s with log := s.log ++ [copy] } := by
  have id : copy.messageId = a.messageId := by simp [Record.messageId, messageId]
  have members : ∀ b ∈ s.log ++ [copy], ∃ b' ∈ s.log, b.messageId = b'.messageId ∧
      b.origin = b'.origin := by
    intro b hb
    rcases List.mem_append.mp hb with old | new
    · exact ⟨b, old, rfl, rfl⟩
    · cases List.mem_singleton.mp new
      exact ⟨a, ha, id, origin⟩
  constructor
  · intro b hb c hc same
    obtain ⟨b', hb', idb, ob⟩ := members b hb
    obtain ⟨c', hc', idc, oc⟩ := members c hc
    rw [ob, oc]
    exact h.origins b' hb' c' hc' (idb.symm.trans (same.trans idc))
  · intro b hb x own
    rcases List.mem_append.mp hb with old | new
    · exact h.named b old x own
    · cases List.mem_singleton.mp new
      obtain ⟨nonempty, header⟩ := h.named a ha x (origin ▸ own)
      refine ⟨nonempty, messageId.trans ?_⟩
      rw [Record.messageId, header]
      rfl
  · intro b hb topic partition offset own
    obtain ⟨b', hb', idb, ob⟩ := members b hb
    obtain ⟨root, there, unnamed, same⟩ := h.roots b' hb' topic partition offset (ob ▸ own)
    exact ⟨root, List.mem_append_left _ there, unnamed, same.trans idb.symm⟩

theorem Record.messageId_given {a : Record} {id : String} (h : a.headers.messageId = some id) :
    a.messageId = id := by
  rw [Record.messageId, h]
  rfl

theorem produced_origin (s : Inbox) (topic : String) (partition : Nat) (key : Option String)
    (value : Option Body) (headers : Headers) :
    let record := s.produced topic partition key value headers
    (∃ id, id ≠ "" ∧ record.headers.messageId = some id ∧ record.origin = .named id) ∨
      (¬ record.Named ∧ ∃ offset, record.origin = .record topic partition offset) := by
  intro record
  cases given : headers.messageId with
  | none =>
    refine .inr ⟨?_, s.nextOffset topic partition, by simp [record, Inbox.produced, given]⟩
    rintro ⟨id, -, header⟩
    cases given.symm.trans header
  | some id =>
    by_cases empty : id = ""
    · refine .inr ⟨?_, s.nextOffset topic partition, by simp [record, Inbox.produced, given, Option.filter, empty]⟩
      rintro ⟨id', nonempty, header⟩
      cases given.symm.trans header
      exact nonempty empty
    · exact .inl ⟨id, empty, given, by simp [record, Inbox.produced, given, Option.filter, empty]⟩

theorem distinct_produced {s : Inbox} (h : Distinct s) {record : Record} {topic : String}
    {partition : Nat}
    (own : (∃ id, id ≠ "" ∧ record.headers.messageId = some id ∧ record.origin = .named id) ∨
      (¬ record.Named ∧ ∃ offset, record.origin = .record topic partition offset))
    (clear : ∀ other ∈ s.log, other.messageId = record.messageId → other.Named ∧ record.Named) :
    Distinct { s with log := s.log ++ [record] } := by
  have alike : ∀ b ∈ s.log, b.messageId = record.messageId → b.origin = record.origin := by
    intro b hb same
    obtain ⟨⟨idb, -, header⟩, given⟩ := clear b hb same
    rcases own with ⟨id, nonempty, mine, origin⟩ | ⟨unnamed, -⟩
    · rw [Record.messageId_given header, Record.messageId_given mine] at same
      subst same
      rw [origin]
      cases theirs : b.origin with
      | named x =>
        obtain ⟨-, given⟩ := h.named b hb x theirs
        cases header.symm.trans given
        rfl
      | record topic partition offset =>
        -- the record that `b` is a copy of has this id without having been given it
        obtain ⟨root, there, unnamed, same⟩ := h.roots b hb topic partition offset theirs
        rw [Record.messageId_given header] at same
        exact absurd (clear root there (by rw [same, Record.messageId_given mine])).1 unnamed
    · exact absurd given unnamed
  constructor
  · intro a ha b hb same
    rcases List.mem_append.mp ha with olda | newa <;> rcases List.mem_append.mp hb with oldb | newb
    · exact h.origins a olda b oldb same
    · cases List.mem_singleton.mp newb
      exact alike a olda same
    · cases List.mem_singleton.mp newa
      exact (alike b oldb same.symm).symm
    · rw [List.mem_singleton.mp newa, List.mem_singleton.mp newb]
  · intro a ha id origin
    rcases List.mem_append.mp ha with old | new
    · exact h.named a old id origin
    · cases List.mem_singleton.mp new
      rcases own with ⟨id', nonempty, mine, named⟩ | ⟨-, offset, other⟩
      · cases named.symm.trans origin
        exact ⟨nonempty, mine⟩
      · cases other.symm.trans origin
  · intro a ha topic' partition' offset origin
    rcases List.mem_append.mp ha with old | new
    · obtain ⟨root, there, rest⟩ := h.roots a old topic' partition' offset origin
      exact ⟨root, List.mem_append_left _ there, rest⟩
    · cases List.mem_singleton.mp new
      rcases own with ⟨id', -, -, named⟩ | ⟨unnamed, -⟩
      · cases named.symm.trans origin
      · exact ⟨record, ha, unnamed, rfl⟩

/-- Whose claims there are, and to whose claims others have lost. -/
structure Attributed (config : AppConfiguration) (p : ConsumerPool) : Prop where
  distinct : Distinct p.shared
  claims : ∀ id row, p.shared.processed (id, config.kafka.consumerGroup) = some row →
    ∃ b, About row.owner b p ∧ b.messageId = id
  skips : ∀ x ∈ p.shared.skipped, ∃ a b, About x.1 a p ∧ About x.2.owner b p ∧
    a.messageId = b.messageId

theorem About.step {a : Act Job Choice Ext} (h : About t record p)
    (steps : (consumers config approx).Steps p a q) (log : p.shared.log <+: q.shared.log) :
    About t record q := by
  obtain ⟨j, job, there⟩ := h
  exact ⟨j, (Machine.steps_keep steps t).1 j job, prefix_getElem? log there⟩

theorem About.mem (h : About t record p) : record ∈ p.shared.log := by
  obtain ⟨j, -, there⟩ := h
  exact List.mem_of_getElem? there

theorem Attributed.step {a : Act Job Choice Ext} (h : Attributed config p)
    (steps : (consumers config approx).Steps p a q) (log : p.shared.log <+: q.shared.log)
    (distinct : Distinct q.shared)
    (claims : ∀ id row, q.shared.processed (id, config.kafka.consumerGroup) = some row →
      p.shared.processed (id, config.kafka.consumerGroup) = some row ∨
        ∃ b, About row.owner b q ∧ b.messageId = id)
    (skips : ∀ x ∈ q.shared.skipped, x ∈ p.shared.skipped ∨
      ∃ a b, About x.1 a q ∧ About x.2.owner b q ∧ a.messageId = b.messageId) :
    Attributed config q := by
  constructor
  · exact distinct
  · intro id row there
    rcases claims id row there with old | new
    · obtain ⟨b, about, same⟩ := h.claims id row old
      exact ⟨b, about.step steps log, same⟩
    · exact new
  · intro x hx
    rcases skips x hx with old | new
    · obtain ⟨a, b, first, second, same⟩ := h.skips x old
      exact ⟨a, b, first.step steps log, second.step steps log, same⟩
    · exact new

/-- One answer: who claims has the id of its record, and so has who is told 'duplicate'. -/
theorem attributed_answer {c : Choice} {j : Job} {e : Effect}
    {k : Except Err e.Answer → Consumer Unit} {s : Inbox} {r : Except Err e.Answer}
    (run : (consumers config approx).Reach Ok deployed p) (h : Attributed config p)
    (live : p.slot t = .live j e k) (answered : exec config.kafka.topics t p.shared e c = some (s, r))
    (here : Asserts config.kafka.consumerGroup t p.shared e)
    (put : q = Machine.put p t ((consumers config approx).settle t j s (k r))) :
    Attributed config q := by
  have steps : (consumers config approx).Steps p (.step t c) q := put ▸ .step live answered
  obtain ⟨consumed, same⟩ : ∃ consumed, q.shared = { s with consumed := consumed } :=
    put ▸ put_shared config approx _ _ j s (k r)
  have quiet : p.shared.log <+: s.log → Distinct s →
      (∀ id row, s.processed (id, config.kafka.consumerGroup) = some row →
        p.shared.processed (id, config.kafka.consumerGroup) = some row) →
      s.skipped = p.shared.skipped → Attributed config q := by
    intro log distinct processed skipped
    refine h.step steps (by rw [same]; exact log) (by rw [same]; exact distinct.of_log rfl) ?_ ?_
    · intro id row there
      rw [same] at there
      exact .inl (processed id row there)
    · intro x hx
      rw [same] at hx
      exact .inl (skipped ▸ hx)
  cases exec_moves answered with
  | deleted messageId consumerGroup =>
    refine quiet List.prefix_rfl (h.distinct.of_log rfl) (fun id row there => ?_) rfl
    by_cases gone : (id, config.kafka.consumerGroup) = (messageId, consumerGroup)
    · rw [gone, Inbox.setClaim_self] at there
      cases there
    · rwa [Inbox.setClaim_of_ne gone] at there
  | inserted row =>
    obtain ⟨own, record, handles, messageId⟩ := here
    have before := about_of_handles run handles
    have unchanged : q.shared.log = p.shared.log := by
      rw [same]
      unfold Inbox.insertClaim
      split <;> rfl
    have log : p.shared.log <+: q.shared.log := unchanged ▸ List.prefix_rfl
    have mine : About t record q := before.step steps log
    refine h.step steps log (h.distinct.of_log unchanged) (fun id row' there => ?_) fun x hx => ?_
    · rw [same] at there
      unfold Inbox.insertClaim at there
      split at there
      · exact .inl there
      · by_cases claimed : id = row.messageId
        · subst claimed
          rw [← own, Inbox.setClaim_self] at there
          cases Option.some.inj there
          exact .inr ⟨record, mine, messageId⟩
        · have other : (id, config.kafka.consumerGroup) ≠ (row.messageId, row.consumerGroup) :=
            fun eq => claimed (congrArg Prod.fst eq)
          rw [Inbox.setClaim_of_ne other] at there
          exact .inl there
    · rw [same] at hx
      unfold Inbox.insertClaim at hx
      split at hx
      · rename_i claimed held
        rcases List.mem_append.mp hx with old | new
        · exact .inl old
        · cases List.mem_singleton.mp new
          rw [own] at held
          obtain ⟨b, owner, id⟩ := h.claims row.messageId claimed held
          exact .inr ⟨record, b, mine, owner.step steps log, messageId.trans id.symm⟩
      · exact .inl hx
  | accepted partition batch =>
    obtain ⟨m, one, copies⟩ := here
    obtain ⟨handling, processed, skipped, grown⟩ := acceptAll_rest t partition batch p.shared
    refine quiet grown ?_ (fun id row there => by rwa [processed] at there) skipped
    rw [acceptAll_one one]
    unfold Inbox.accept
    split
    · rename_i value json
      obtain ⟨record, handles, messageId, -⟩ := copies value json
      have origin := handles.origin
      obtain ⟨i, -, there⟩ := handles
      exact distinct_copied h.distinct (List.mem_of_getElem? there) messageId origin
    · exact h.distinct.of_log rfl
  | _ => exact quiet List.prefix_rfl (h.distinct.of_log rfl) (fun _ _ there => there) rfl

theorem attributed (run : (consumers config approx).Reach unshared deployed p) :
    Attributed config p := by
  induction run with
  | refl =>
    refine ⟨⟨fun a ha => ?_, fun a ha => ?_, fun a ha => ?_⟩, nofun, fun x hx => ?_⟩
    · cases ha
    · cases ha
    · cases ha
    · cases hx
  | @step p q a run ok st ih =>
    have steps := Machine.steps_of_step st
    have quiet : p.shared.log <+: q.shared.log → Distinct q.shared →
        q.shared.processed = p.shared.processed → q.shared.skipped = p.shared.skipped →
        Attributed config q := by
      intro log distinct processed skipped
      refine ih.step steps log distinct (fun id row there => ?_) fun x hx => .inl (skipped ▸ hx)
      exact .inl (processed ▸ there)
    cases steps with
    | start idle ready =>
      obtain ⟨consumed, same⟩ := put_shared config approx p _ _ p.shared _
      exact quiet (same ▸ List.prefix_rfl) (by rw [same]; exact ih.distinct.of_log rfl) (by rw [same])
        (by rw [same])
    | step live answered =>
      have here := (consumers_sound (run.mono fun q a _ => anything_ok q a)).here live
      exact attributed_answer run ih live answered here.1 rfl
    | kill live => exact quiet List.prefix_rfl ih.distinct rfl rfl
    | @env x s happened =>
      cases Option.some.inj happened
      cases x with
      | produce topic partition key value headers =>
        refine quiet (List.prefix_append ..) ?_ rfl rfl
        exact distinct_produced ih.distinct (produced_origin ..) ok
      | _ => exact quiet List.prefix_rfl (ih.distinct.of_log rfl) rfl rfl

/-- As long as no produced record has the id of another one without both having been given it, only
copies of one message are taken for duplicates, in every run. -/
theorem duplicates_are_copies (config : AppConfiguration) (approx : Rat → Rat) (p : ConsumerPool)
    (run : (consumers config approx).Reach unshared deployed p) : OnlyCopiesSkipped p := by
  have h := attributed run
  intro x hx
  obtain ⟨a, b, first, second, same⟩ := h.skips x hx
  exact ⟨a, b, first, second, .of_distinct h.distinct first.mem second.mem same⟩

/- A record without an id is produced, and two handlers get the records at these places. -/
def handedTwice (records : List Nat) (first second : Nat) : List (Act Job Choice Ext) :=
  records.map (fun partition => .env (.produce "booking.events" partition none
    (some (.json (.object []))) {})) ++
  [.start 1 ⟨0, false, first⟩, .step 1 .ok, .step 1 .ok, .step 1 .ok, .step 1 .ok,
    .start 2 ⟨0, false, second⟩, .step 2 .ok, .step 2 .ok, .step 2 .ok, .step 2 .ok]

def onEmptyLog (p : ConsumerPool) : Act Job Choice Ext → Bool
  | .env (.produce ..) => p.shared.log.isEmpty
  | _ => true

theorem duplicates_are_copies_redelivered : ∃ p : ConsumerPool, p.shared.skipped.length = 1 ∧
    (consumers {} id).Reach unshared deployed p ∧ OnlyCopiesSkipped p := by
  have replay : ((consumers {} id).runChecked onEmptyLog deployed (handedTwice [0] 0 0)).map
      (fun p => p.shared.skipped.length) = some 1 := by decide +kernel
  obtain ⟨p, hp, skipped⟩ := Option.map_eq_some_iff.mp replay
  have run : (consumers {} id).Reach unshared deployed p := by
    refine .of_checked hp fun a _ q passed => ?_
    cases a with
    | env x =>
      cases x with
      | produce =>
        intro other there _
        rw [List.isEmpty_iff.mp passed] at there
        exact nomatch there
      | _ => trivial
    | _ => trivial
  exact ⟨p, skipped, run, duplicates_are_copies {} id p run⟩

/-- The first records of two partitions: one of them is skipped because of the other. -/
theorem partitions_collide : ¬ ∀ (config : AppConfiguration) (approx : Rat → Rat)
    (p : ConsumerPool), (consumers config approx).Reach anything.Ok deployed p →
    OnlyCopiesSkipped p := by
  intro claim
  have replay : ((consumers {} id).run deployed (handedTwice [0, 1] 0 1)).map (fun p =>
      (p.shared.skipped.map fun x => (x.1, x.2.owner), (p.slot 1).job, (p.slot 2).job,
        p.shared.log.map fun r => (r.partition, r.headers.messageId, r.origin))) =
      some ([(2, 1)], some ⟨0, false, 0⟩, some ⟨0, false, 1⟩,
        [(0, none, .record "booking.events" 0 0), (1, none, .record "booking.events" 1 0)]) := by
    rfl
  obtain ⟨p, hp, seen⟩ := Option.map_eq_some_iff.mp replay
  simp only [Prod.mk.injEq] at seen
  obtain ⟨skipped, first, second, log⟩ := seen
  have run := Machine.Reach.of_run hp fun a _ q => anything_ok q a
  obtain ⟨x, one⟩ : ∃ x, p.shared.skipped = [x] := List.length_eq_one_iff.mp (by
    rw [← List.length_map (f := fun x : Tid × Claimed => (x.1, x.2.owner)), skipped]
    rfl)
  rw [one] at skipped
  simp only [List.map_cons, List.map_nil, List.cons.injEq, Prod.mk.injEq, and_true] at skipped
  obtain ⟨loser, owner⟩ := skipped
  obtain ⟨a, b, ⟨j, own, there⟩, ⟨j', own', there'⟩, same⟩ := claim {} id p run x (by simp [one])
  rw [loser, second] at own
  rw [owner, first] at own'
  cases Option.some.inj own
  cases Option.some.inj own'
  have at₁ := congrArg (fun l => l[1]?) log
  have at₀ := congrArg (fun l => l[0]?) log
  rw [List.getElem?_map, there] at at₁
  rw [List.getElem?_map, there'] at at₀
  simp only [Option.map_some, List.getElem?_cons_succ, List.getElem?_cons_zero, Option.some.injEq,
    Prod.mk.injEq] at at₀ at₁
  obtain ⟨partition, unnamed, origin⟩ := at₁
  obtain ⟨partition', -, origin'⟩ := at₀
  cases same with
  | redelivered _ same => exact nomatch partition'.symm.trans (same.symm.trans partition)
  | named id _ given => exact nomatch unnamed.symm.trans given
  | copies topic _ offset mine theirs =>
    cases origin.symm.trans mine
    cases origin'.symm.trans theirs

end Overbook.Notifications
