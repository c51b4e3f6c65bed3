import Overbook.Bookings.Seats

/-! A booking and its event are committed together, so neither is ever there without the other.
What relays do to outbox rows meanwhile stays within their own columns. -/
namespace Overbook

open Async Prog ReadCommitted Store

def Job.OutboxOnly : Job → Prop
  | .book config .. => config.outbox.enabled = true ∧ config.outbox.directPublishMode = false
  | _ => True

def outboxOnly : Regime := .any Job.OutboxOnly

/-- The outbox row `r` is the event of the booking `b`. -/
structure EventOf (r : OutboxRow) (b : BookingRow) : Prop where
  aggregateId : r.aggregateId = b.id
  bookingId : r.payload.bookingId = b.id
  messageKey : r.messageKey = b.eventId
  eventId : r.payload.eventId = b.eventId
  userId : r.payload.userId = b.userId
  quantity : r.payload.quantity = b.quantity

theorem eventOf_envelope {r r' : OutboxRow} {b : BookingRow} (h : EventOf r b)
    (same : r.envelope = r'.envelope) : EventOf r' b := by
  have eq : ∀ {α : Type} (f : OutboxRow → α) (_ : ∀ r, f r.envelope = f r), f r = f r' := by
    intro α f hf
    rw [← hf r, same, hf r']
  exact ⟨eq (·.aggregateId) (fun _ => rfl) ▸ h.aggregateId,
    eq (·.payload) (fun _ => rfl) ▸ h.bookingId, eq (·.messageKey) (fun _ => rfl) ▸ h.messageKey,
    eq (·.payload) (fun _ => rfl) ▸ h.eventId, eq (·.payload) (fun _ => rfl) ▸ h.userId,
    eq (·.payload) (fun _ => rfl) ▸ h.quantity⟩

theorem announces_eventOf {topic : String} {m : OutboxRow} {b : BookingRow}
    (h : Announces topic m b) : EventOf m.envelope b := by
  obtain ⟨eventName, traceId, payload⟩ := h.payload
  have fields : ∀ {α : Type} (f : BookingConfirmedPayload → α),
      f m.envelope.payload = f (payloadOf b eventName traceId) := fun f => congrArg f payload
  exact ⟨h.aggregateId, fields (·.bookingId), h.messageKey, fields (·.eventId), fields (·.userId),
    fields (·.quantity)⟩

/-- The two tables list the same bookings in the same order. -/
def Paired (s : Store) : Prop :=
  s.bookings.Forall₂ (fun b r => EventOf r b ∧ r.aggregateType = "booking")
    (s.outbox.committed.map (·.envelope))

variable {R : Regime} {partition : String → String → Nat}

theorem paired_step {s s' : Store} {t : Tid} {e : Effect} {c : Choice}
    (mode : ∀ j, R.allowed j → j.OutboxOnly) (wf : WF s) (here : At R t e s) (h : Paired s)
    (touch : Touch t s e c s') : Paired s' := by
  obtain ⟨rfl, act, rfl⟩ | ⟨bookings, outbox⟩ := touch_commits touch
  · unfold Paired at h ⊢
    rw [commit_envelopes wf]
    refine List.rel_append h ?_
    cases here act with
    | book config eventId dto context b outbox allowed booking owns seats announced =>
      obtain ⟨enabled, notDirect⟩ := mode _ allowed
      have on : config.outbox.enqueues = true := by
        simp [OutboxConfig.enqueues, enabled, notDirect]
      obtain ⟨m, rfl, row⟩ := announced on
      rw [owns.bookings, owns.outbox]
      exact .cons ⟨announces_eventOf row, row.aggregateType⟩ .nil
    | drain rows owns =>
      rw [owns.bookings, owns.outbox]
      exact .nil
  · unfold Paired at h ⊢
    rwa [bookings, outbox]

theorem paired {p : ApiPool} (mode : ∀ j, R.allowed j → j.OutboxOnly)
    (run : (api partition).Reach R.Ok migrated p) : Paired p.shared := by
  refine api_invariant .refl run .nil ?_ (fun _ _ h => h) ?_
  · exact fun t s e c s' r inv here _ h he => paired_step mode inv.wf here h (exec_touch he)
  · intro _ t s _ h
    obtain ⟨bookings, outbox⟩ := abort_tables t s
    unfold Paired at h ⊢
    rwa [bookings, outbox]

theorem forall₂_mem_left {α β : Type} {P : α → β → Prop} {as : List α} {bs : List β}
    (h : as.Forall₂ P bs) {a : α} (ha : a ∈ as) : ∃ b ∈ bs, P a b := by
  induction h with
  | nil => cases ha
  | cons hab _ ih =>
    rcases List.mem_cons.mp ha with rfl | ha
    · exact ⟨_, List.mem_cons_self .., hab⟩
    · obtain ⟨b, hb, hp⟩ := ih ha
      exact ⟨b, List.mem_cons_of_mem _ hb, hp⟩

theorem forall₂_mem_right {α β : Type} {P : α → β → Prop} {as : List α} {bs : List β}
    (h : as.Forall₂ P bs) {b : β} (hb : b ∈ bs) : ∃ a ∈ as, P a b :=
  forall₂_mem_left h.flip hb

def bookingEvents (s : Store) : List OutboxRow :=
  s.outbox.committed.filter fun r => r.aggregateType == "booking"

theorem Paired.all {s : Store} (h : Paired s) : bookingEvents s = s.outbox.committed := by
  rw [bookingEvents, List.filter_eq_self]
  intro r hr
  obtain ⟨b, _, _, type⟩ := forall₂_mem_right h (List.mem_map_of_mem hr)
  exact beq_iff_eq.mpr type

theorem Paired.ids {s : Store} (h : Paired s) :
    s.outbox.committed.map (·.aggregateId) = s.bookings.map (·.id) := by
  have all : ∀ {bs : List BookingRow} {rs : List OutboxRow},
      bs.Forall₂ (fun b r => EventOf r b ∧ r.aggregateType = "booking") rs →
      rs.map (·.aggregateId) = bs.map (·.id) := by
    intro bs rs pairs
    induction pairs with
    | nil => rfl
    | cons row _ ih => rw [List.map_cons, List.map_cons, ih, row.1.aggregateId]
  have eq := all h
  rwa [List.map_map] at eq

end Overbook
