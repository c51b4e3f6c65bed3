import Overbook.Outbox.Published

/-! What a message about a booking is called. Relays name a message after its outbox row, the
direct publish names it after the booking; a booking has its event in one of the two ways only. -/
namespace Overbook

open Async Prog ReadCommitted Kafka Store

/-- Where a message comes from: an outbox row, or a booking that has none. -/
inductive Source (s : Store) (m : BookingMessage) : Prop
  | relayed (r : OutboxRow) : r ∈ s.outbox.committed.map (·.envelope) → m = relayMessage r →
      Source s m
  | direct (b : BookingRow) : b ∈ s.bookings → b.id ∉ announced s → m.value.bookingId = b.id →
      m.headers.messageId = some b.id → Source s m

variable {s s' : Store} {m m' : BookingMessage}

theorem Source.extends (h : Source s m) (extended : Extends s s') : Source s' m := by
  cases h with
  | relayed r hr same => exact .relayed r (extended.grows.outbox.subset hr) same
  | direct b hb none about id =>
    exact .direct b (extended.grows.bookings.subset hb) (extended.unannounced b hb none) about id

theorem announced_envelopes (s : Store) :
    announced s = (s.outbox.committed.map (·.envelope)).map (·.payload.bookingId) := by
  rw [announced, List.map_map]
  rfl

theorem mem_announced {r : OutboxRow} (hr : r ∈ s.outbox.committed.map (·.envelope)) :
    r.payload.bookingId ∈ announced s := by
  rw [announced_envelopes]
  exact List.mem_map_of_mem hr

/-- Messages about one booking have one id. -/
theorem source_id (inv : Consistent s) (h : Source s m) (h' : Source s m')
    (same : m.value.bookingId = m'.value.bookingId) :
    m.headers.messageId = m'.headers.messageId := by
  have nodup : (announced s).Nodup := inv.announced.nodup inv.wf.bookings.nodup
  cases h with
  | relayed r hr eq =>
    subst eq
    cases h' with
    | relayed r' hr' eq =>
      subst eq
      have one : r = r' :=
        List.inj_on_of_nodup_map (announced_envelopes s ▸ nodup) hr hr' same
      rw [one]
    | direct b hb none about id =>
      have known := mem_announced hr
      exact absurd (same.trans about ▸ known) none
  | direct b hb none about id =>
    cases h' with
    | relayed r hr eq =>
      subst eq
      have known := mem_announced hr
      exact absurd (same.symm.trans about ▸ known) none
    | direct b' hb' none' about' id' =>
      have one : b.id = b'.id := about.symm.trans (same.trans about')
      rw [id, id', one]

theorem source_named (h : Source s m) : ∃ id, m.headers.messageId = some id := by
  cases h with
  | relayed r hr eq => exact ⟨r.id, by rw [eq]; rfl⟩
  | direct b hb none about id => exact ⟨b.id, id⟩

/-- A message is about a committed booking. -/
theorem source_booking (inv : Consistent s) (h : Source s m) :
    m.value.bookingId ∈ s.bookings.map (·.id) := by
  cases h with
  | relayed r hr eq =>
    rw [eq]
    exact inv.announced.subset (mem_announced hr)
  | direct b hb none about id =>
    rw [about]
    exact List.mem_map_of_mem hb

def Traced (s : Store) : Prop := ∀ m ∈ s.kafka, Source s m

variable {R : Regime} {partition : String → String → Nat} {t : Tid} {e : Effect} {c : Choice}

/-- Only a batch that is handed to the producer adds to the log of the broker. -/
theorem touch_kafka (h : Touch t s e c s') : s'.kafka = s.kafka ∨
    ∃ batch accepted, e = .sendBatch batch ∧ accepted.Sublist (sent batch) ∧
      s'.kafka = s.kafka ++ accepted := by
  cases h with
  | rest s' _ _ _ _ _ kafka => exact .inl kafka
  | aborted => exact .inl (abort_kafka t s)
  | rolledBack => exact .inl (abort_kafka t s)
  | sent batch accepted sub => exact .inr ⟨batch, accepted, rfl, sub, rfl⟩
  | _ => exact .inl rfl

/-- The rows that a drain was given are committed; relays rewrite the rest of a row only. -/
theorem asked_committed {rows : List OutboxRow} (asked : Asked R t rows s) :
    ∀ r ∈ rows, r.envelope ∈ s.outbox.committed.map (·.envelope) := by
  obtain ⟨s₀, limit, wf, grows, answers, sel⟩ := asked
  intro r hr
  obtain ⟨c, hc, rfl, _⟩ := selects_eligible sel r hr
  exact grows.outbox.subset (List.mem_map_of_mem (List.mem_map_of_mem hc))

theorem sending_source {batch : List (TopicMessages BookingConfirmedPayload)}
    (h : Sending R t batch s) (hm : m ∈ sent batch) : Source s m := by
  cases h with
  | relay rows hbatch asked =>
    rw [hbatch, mem_sent_byTopic] at hm
    obtain ⟨r, hr, rfl⟩ := List.mem_map.mp hm
    exact .relayed _ (asked_committed asked r hr) rfl
  | direct config eventId dto context b eventName allowed on known none hbatch =>
    rw [hbatch, mem_sent_byTopic, List.mem_singleton] at hm
    subst hm
    exact .direct b known none rfl rfl

theorem traced {p : ApiPool} (run : (api partition).Reach R.Ok migrated p) : Traced p.shared := by
  refine api_invariant .refl run (fun _ h => nomatch h) ?_ ?_ ?_
  · intro t s e c s' r inv here _ h he m hm
    have extended := (exec_consistent inv here he).2
    rcases touch_kafka (exec_touch he) with same | ⟨batch, accepted, rfl, sub, more⟩
    · exact (h m (same ▸ hm)).extends extended
    · rcases List.mem_append.mp (more ▸ hm) with old | new
      · exact (h m old).extends extended
      · exact (sending_source here (sub.subset new)).extends extended
  · intro s d h m hm
    exact (h m hm).extends ⟨{ Grows.refl s with }, fun _ _ none => none⟩
  · intro _ t s _ h m hm
    exact (h m (abort_kafka t s ▸ hm)).extends (extends_of_eq (grows_abort t s) (abort_tables t s).2)

end Overbook
