import Overbook.Bookings.Events
import Overbook.Outbox.Published
import Overbook.Precedence

/-! The order of the events of one key. The relay publishes in the order of `created_at`, the
start of a transaction; bookings of one event commit in the order of their row locks. -/
namespace Overbook

open Async Prog ReadCommitted Kafka Store Precedence

/-- A query returns no row ahead of its turn: every row of its key that was committed before
it, and that the broker does not have, is pending, due, unlocked and created before it. -/
def InTurn (t : Tid) (s : Store) (rows : List OutboxRow) : Prop :=
  s.outbox.committed.Pairwise fun r₀ r => r ∈ rows → r₀.messageKey = r.messageKey →
    relayMessage r₀ ∉ s.kafka →
    r₀.createdAt < r.createdAt ∧ ∃ c ∈ s.outbox, c.committed = r₀ ∧ s.eligible t c = true

instance (t : Tid) (s : Store) (rows : List OutboxRow) : Decidable (InTurn t s rows) :=
  inferInstanceAs (Decidable (List.Pairwise _ _))

def Job.OnTopic (topic : String) : Job → Prop
  | .book config .. => config.kafka.topics.booking = topic
  | _ => True

/-- Outbox mode on one topic, with any crashes and failures, and every row taken in its turn. -/
def inTurn (topic : String) : Regime where
  allowed j := j.OutboxOnly ∧ j.OnTopic topic
  answers t s e c := ∀ limit rows, e = .selectPending limit → c = .rows rows → InTurn t s rows
  crashes := True

/-- Rows that entered the table earlier reach the broker earlier, key by key. -/
structure Ordered (topic : String) (s : Store) : Prop where
  topic : ∀ e ∈ s.outbox.committed.map (·.envelope), e.topic = topic
  source : ∀ m ∈ s.kafka, ∃ e ∈ s.outbox.committed.map (·.envelope), m = relayMessage e
  order : ∀ e e', [e, e'].Sublist (s.outbox.committed.map (·.envelope)) →
    e.messageKey = e'.messageKey → Precedes (relayMessage e) (relayMessage e') s.kafka

theorem Ordered.same {topic : String} {s s' : Store} (h : Ordered topic s)
    (outbox : s'.outbox.committed = s.outbox.committed) (kafka : s'.kafka = s.kafka) :
    Ordered topic s' := by
  refine ⟨?_, ?_, ?_⟩
  · rw [outbox]; exact h.topic
  · rw [outbox, kafka]; exact h.source
  · rw [outbox, kafka]; exact h.order

theorem relayMessage_id {r r' : OutboxRow} (h : relayMessage r = relayMessage r') : r.id = r'.id :=
  Option.some.inj (congrArg (·.headers.messageId) h)

theorem envelope_ids (rows : List OutboxRow) :
    (rows.map (·.envelope)).map (·.id) = rows.map (·.id) := by
  rw [List.map_map]
  rfl

theorem envelopes_nodup {s : Store} (wf : WF s) :
    ((s.outbox.committed.map (·.envelope)).map (·.id)).Nodup := by
  rw [envelope_ids]
  exact wf.outbox.nodup

/-- The COMMIT of a book call adds a row whose message the broker cannot have yet. -/
theorem Ordered.commit {topic : String} {s : Store} {t : Tid} (wf : WF s) (h : Ordered topic s)
    (added : ∀ r ∈ (s.tx t).outbox, r.topic = topic) : Ordered topic (s.commitTx t) := by
  have rows := commit_envelopes wf (t := t)
  have new : ∀ e ∈ (s.tx t).outbox.map (·.envelope), relayMessage e ∉ s.kafka := by
    intro e he sent
    obtain ⟨r, hr, rfl⟩ := List.mem_map.mp he
    obtain ⟨e', he', same⟩ := h.source _ sent
    refine wf.outbox.apart t r.id (List.mem_map_of_mem hr) ?_
    rw [← envelope_ids, show r.id = e'.id from relayMessage_id same]
    exact List.mem_map_of_mem he'
  refine ⟨?_, ?_, fun e e' pair key => ?_⟩
  · rw [rows]
    intro e he
    rcases List.mem_append.mp he with he | he
    · exact h.topic e he
    · obtain ⟨r, hr, rfl⟩ := List.mem_map.mp he
      exact added r hr
  · rw [rows]
    intro m hm
    obtain ⟨e, he, same⟩ := h.source m hm
    exact ⟨e, List.mem_append_left _ he, same⟩
  · rw [rows] at pair
    by_cases last : e' ∈ (s.tx t).outbox.map (·.envelope)
    · exact precedes_of_not_mem (new e' last)
    · exact h.order e e' (pair_init pair last) key

/-- In the answer to a query that takes rows in turn, an earlier row that the broker does not
have comes before any later row of its key. -/
theorem selected_in_turn {t : Tid} {s₀ : Store} {limit : Int} {rows : List OutboxRow}
    {r₀ r : OutboxRow} (turn : InTurn t s₀ rows)
    (sel : Selects limit ((s₀.outbox.filter (s₀.eligible t)).map (·.committed)) rows)
    (before : [r₀, r].Sublist s₀.outbox.committed) (hr : r ∈ rows)
    (key : r₀.messageKey = r.messageKey) (missing : relayMessage r₀ ∉ s₀.kafka) :
    Precedes r₀ r rows := by
  obtain ⟨older, c, hc, rfl, elig⟩ :=
    List.pairwise_iff_forall_sublist.mp turn before hr key missing
  obtain ⟨-, -, sorted, -, complete⟩ := sel
  have eligible : c.committed ∈ (s₀.outbox.filter (s₀.eligible t)).map (·.committed) :=
    List.mem_map_of_mem (List.mem_filter.mpr ⟨hc, elig⟩)
  have mem : c.committed ∈ rows := by
    rcases complete _ eligible with mem | ⟨-, later⟩
    · exact mem
    · exact absurd older (Nat.not_lt.mpr (later r hr))
  refine precedes_of_sorted sorted mem (fun same => ?_) (Nat.not_le.mpr older)
  rw [same] at older
  exact Nat.lt_irrefl _ older

/-- What a batch of one drain hands to the broker respects the order of the table. -/
theorem asked_in_turn {topic : String} {s : Store} {t : Tid} {rows : List OutboxRow}
    (wf : WF s) (asked : Asked (inTurn topic) t rows s) {e e' : OutboxRow}
    (pair : [e, e'].Sublist (s.outbox.committed.map (·.envelope)))
    (key : e.messageKey = e'.messageKey) :
    relayMessage e ∈ s.kafka ∨
      Precedes (relayMessage e) (relayMessage e') (rows.map relayMessage) := by
  obtain ⟨s₀, limit, wf₀, grows, answers, sel⟩ := asked
  have turn := answers limit rows rfl rfl
  by_cases sent : relayMessage e ∈ s.kafka
  · exact .inl sent
  refine .inr (precedes_map fun r hr same => ?_)
  -- `r` is the row of `e'`, so `e'` was in the table when the query ran, and so was `e`
  obtain ⟨c, hc, rfl, -⟩ := selects_eligible sel r hr
  obtain ⟨later, hlater⟩ := grows.outbox
  have memr : c.committed.envelope ∈ s₀.outbox.committed.map (·.envelope) :=
    List.mem_map_of_mem (List.mem_map_of_mem hc)
  have nodup := envelopes_nodup wf
  have eq : e' = c.committed.envelope := by
    refine List.inj_on_of_nodup_map nodup (pair.subset (by simp)) ?_ ?_
    · rw [← hlater]; exact List.mem_append_left _ memr
    · exact (relayMessage_id same).symm
  have last : e' ∉ later := by
    rw [← hlater, List.map_append, List.nodup_append] at nodup
    intro mem
    rw [eq] at mem
    exact nodup.2.2 _ (List.mem_map_of_mem memr) _ (List.mem_map_of_mem mem) rfl
  rw [← hlater] at pair
  obtain ⟨pair₀, sub, maps⟩ := List.sublist_map_iff.mp (pair_init pair last)
  obtain ⟨r₀, r', rfl⟩ : ∃ r₀ r', pair₀ = [r₀, r'] := by
    match pair₀, maps with
    | [r₀, r'], _ => exact ⟨r₀, r', rfl⟩
  simp only [List.map_cons, List.map_nil, List.cons.injEq, and_true] at maps
  obtain ⟨he, he'⟩ := maps
  have same' : r' = c.committed := by
    refine List.inj_on_of_nodup_map wf₀.outbox.nodup (sub.subset (by simp))
      (List.mem_map_of_mem hc) ?_
    exact envelope_id (he'.symm.trans eq)
  rw [same'] at sub
  have message : relayMessage r₀ = relayMessage e := by rw [he]; rfl
  refine ⟨r₀, message, selected_in_turn turn sel sub hr ?_ ?_⟩
  · have k₀ : r₀.messageKey = e.messageKey := by rw [he]; rfl
    have k : e'.messageKey = c.committed.messageKey := by rw [eq]; rfl
    exact k₀.trans (key.trans k)
  · rw [message]
    exact fun early => sent (grows.kafka.subset early)

theorem Ordered.send {partition : String → String → Nat} {topic : String} {s s' : Store}
    {t : Tid} {batch : List (TopicMessages BookingConfirmedPayload)} {c : Choice}
    {r : Except Err Unit} (wf : WF s) (h : Ordered topic s)
    (sending : Sending (inTurn topic) t batch s)
    (he : exec partition t s (.sendBatch batch) c = some (s', r)) : Ordered topic s' := by
  cases sending with
  | direct config eventId dto context b eventName allowed on =>
    rw [allowed.1.2] at on
    cases on
  | relay rows hbatch asked owns unsent =>
    obtain ⟨s₀, limit, wf₀, grows, -, sel⟩ := id asked
    have mine : ∀ r ∈ rows, r.envelope ∈ s.outbox.committed.map (·.envelope) := by
      intro r hr
      obtain ⟨d, hd, rfl, -⟩ := selects_eligible sel r hr
      exact grows.outbox.subset (List.mem_map_of_mem (List.mem_map_of_mem hd))
    have oneTopic : ∀ m ∈ rows.map relayMessage, m.topic = topic := by
      intro m hm
      obtain ⟨r, hr, rfl⟩ := List.mem_map.mp hm
      exact h.topic r.envelope (mine r hr)
    have list : sent batch = rows.map relayMessage := by
      rw [hbatch]; exact sent_byTopic_single oneTopic
    -- the accepted part keeps or drops the messages of one key together
    have accepts : ∀ accepted : List BookingMessage, accepted.Sublist (rows.map relayMessage) →
        (∀ e e', e.messageKey = e'.messageKey → e.topic = topic → e'.topic = topic →
          Precedes (relayMessage e) (relayMessage e') (rows.map relayMessage) →
          Precedes (relayMessage e) (relayMessage e') accepted) →
        ∀ batches, Ordered topic { s with kafka := s.kafka ++ accepted, batches := batches } := by
      intro accepted sub keeps batches
      refine ⟨h.topic, fun m hm => ?_, fun e e' pair key => ?_⟩
      · rcases List.mem_append.mp hm with hm | hm
        · exact h.source m hm
        · obtain ⟨r, hr, rfl⟩ := List.mem_map.mp (sub.subset hm)
          exact ⟨r.envelope, mine r hr, rfl⟩
      · refine (h.order e e' pair key).append ((asked_in_turn wf asked pair key).imp_right fun rel => ?_)
        have he := h.topic e (pair.subset (by simp))
        have he' := h.topic e' (pair.subset (by simp))
        exact keeps e e' key he he' rel
    obtain ⟨-, -, rfl⟩ | ⟨parts, -, -, rfl⟩ := sendBatch_cases he
    · rw [list]
      exact accepts _ (List.Sublist.refl _) (fun _ _ _ _ _ rel => rel) _
    · rw [list]
      refine accepts _ List.filter_sublist (fun e e' key te te' rel => ?_) _
      by_cases keep : parts.contains
          ((relayMessage e).topic, partition (relayMessage e).topic (relayMessage e).key) = true
      · exact rel.filter keep
      · refine precedes_of_not_mem fun mem => keep ?_
        have same := (List.mem_filter.mp mem).2
        simp only [relayMessage, te, te', key] at same ⊢
        exact same

theorem ready_topic {topic : String} {s : Store} {t : Tid} (h : Ready (inTurn topic) t s) :
    ∀ r ∈ (s.tx t).outbox, r.topic = topic := by
  cases h with
  | book config eventId dto context b outbox allowed booking owns seats on off =>
    rw [owns.outbox]
    cases enqueues : config.outbox.enqueues with
    | true =>
      obtain ⟨m, rfl, row⟩ := on enqueues
      intro r hr
      exact (List.mem_singleton.mp hr) ▸ row.topic.trans allowed.2
    | false => rw [off enqueues]; exact fun _ hr => nomatch hr
  | drain rows owns => rw [owns.outbox]; exact fun _ hr => nomatch hr

theorem ordered {partition : String → String → Nat} {topic : String} {p : ApiPool}
    (run : (api partition).Reach (inTurn topic).Ok migrated p) : Ordered topic p.shared := by
  refine api_invariant .refl run ?_ ?_ (fun _ _ h => h.same rfl rfl) ?_
  · exact ⟨fun _ h => (nomatch h), fun _ h => (nomatch h),
      fun _ _ h => nomatch List.sublist_nil.mp h⟩
  · intro t s e c s' r inv here _ h he
    cases exec_touch he with
    | rest s' _ _ outbox _ _ kafka => exact h.same (by rw [outbox]) kafka
    | committed act => exact h.commit inv.wf (ready_topic (here act))
    | aborted => exact h.same (abort_tables t s).2 (abort_kafka t s)
    | rolledBack => exact h.same (abort_tables t s).2 (abort_kafka t s)
    | selected => exact h.same (Rows.committed_write t _ _ _) rfl
    | updated => exact h.same (Rows.committed_write t _ _ _) rfl
    | sent batch accepted sub => exact h.send inv.wf here he
    | _ => exact h.same rfl rfl
  · exact fun _ t s _ h => h.same (abort_tables t s).2 (abort_kafka t s)

theorem forall₂_pair {α β : Type} {P : α → β → Prop} {as : List α} {bs : List β}
    (h : as.Forall₂ P bs) {a a' : α} (sub : [a, a'].Sublist as) :
    ∃ b b', [b, b'].Sublist bs ∧ P a b ∧ P a' b' := by
  induction h with
  | nil => cases sub
  | cons hab rest ih =>
    cases sub with
    | cons _ sub =>
      obtain ⟨b, b', sub', hb⟩ := ih sub
      exact ⟨b, b', sub'.cons _, hb⟩
    | cons_cons _ sub =>
      obtain ⟨b', hb', hp⟩ := forall₂_mem_left rest (List.singleton_sublist.mp sub)
      exact ⟨_, b', (List.singleton_sublist.mpr hb').cons_cons _, hab, hp⟩

/- Two calls for one event. The first begins first; which of them takes the row lock first, and
so commits first, is up to `race`. A drain follows, with the rows in the order of `created_at`. -/
def twoBookings (race : List (Act Job Choice Ext)) : List (Act Job Choice Ext) :=
  [.start 0 (.create (.checked "show" "hall" 2 0 "2026-12-01T12:00:00Z" passed)),
    .step 0 (.uuid "e"),
    .start 1 (.book {} "e" (.checked "user-1" 1 passed) {}),
    .start 2 (.book {} "e" (.checked "user-2" 1 passed) {}),
    .step 1 .ok, .env (.tick 5), .step 2 .ok] ++ race ++
  [.start 3 (.drainOnce {} 0), .step 3 .ok, .step 3 .ok, .step 3 (.rows [row₁, row₂]), .step 3 .ok]
where
  row₁ : OutboxRow := ⟨"m1", "booking", "b1", "booking.confirmed", "booking.events", "e",
    ⟨"b1", "e", "user-1", 1, "show", 0, none⟩, .pending, 0, 5, none, none, 0⟩
  row₂ : OutboxRow := ⟨"m2", "booking", "b2", "booking.confirmed", "booking.events", "e",
    ⟨"b2", "e", "user-2", 1, "show", 5, none⟩, .pending, 0, 5, none, none, 5⟩

def commitFirst : List (Act Job Choice Ext) :=
  [.step 1 .ok, .step 1 .ok, .step 1 (.uuid "b1"), .step 1 (.time 5), .step 1 (.uuid "m1"),
    .step 1 .ok]

def commitSecond : List (Act Job Choice Ext) :=
  [.step 2 .ok, .step 2 .ok, .step 2 (.uuid "b2"), .step 2 (.time 5), .step 2 (.uuid "m2"),
    .step 2 .ok]

def booking₁ : BookingRow := ⟨"b1", "e", "user-1", 1, .confirmed, none, 0⟩
def booking₂ : BookingRow := ⟨"b2", "e", "user-2", 1, .confirmed, none, 5⟩

theorem twoBookings_allowed {race : List (Act Job Choice Ext)}
    (steps : ∀ t j, .start t j ∉ race) (t : Tid) (j : Job)
    (start : .start t j ∈ twoBookings race) :
    j.OutboxOnly ∧ j.OnTopic "booking.events" := by
  simp only [twoBookings, List.mem_append, List.mem_cons, List.not_mem_nil, or_false,
    reduceCtorEq, false_or, Act.start.injEq, steps] at start
  rcases start with (⟨-, rfl⟩ | ⟨-, rfl⟩ | ⟨-, rfl⟩) | ⟨-, rfl⟩
  · exact ⟨trivial, trivial⟩
  · exact ⟨⟨rfl, rfl⟩, rfl⟩
  · exact ⟨⟨rfl, rfl⟩, rfl⟩
  · exact ⟨trivial, trivial⟩

def turnAct (p : ApiPool) : Act Job Choice Ext → Bool
  | .step t (.rows rows) => decide (InTurn t p.shared rows)
  | _ => true

theorem turn_run {partition : String → String → Nat} {topic : String}
    {as : List (Act Job Choice Ext)} {p : ApiPool}
    (h : (api partition).runChecked turnAct migrated as = some p)
    (ok : ∀ t j, .start t j ∈ as → j.OutboxOnly ∧ j.OnTopic topic) :
    (api partition).Reach (inTurn topic).Ok migrated p := by
  refine .of_checked h fun a ha q passed => ?_
  cases a with
  | start t j => exact ok t j ha
  | step t c =>
    rintro j e k _ limit rows - rfl
    exact of_decide_eq_true passed
  | kill t => trivial
  | env x => cases x <;> trivial

end Overbook
