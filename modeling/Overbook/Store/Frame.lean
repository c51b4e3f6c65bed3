import Overbook.GeneratedKeys
import Overbook.Store.Statements

/-! What every statement leaves alone, whoever issues it: the rows and the transaction of the
other tasks. These facts hold of the answers themselves and need no program. -/
namespace Overbook

open Async ReadCommitted Kafka GeneratedKeys

/- A row without the columns that relays rewrite. -/
def OutboxRow.envelope (r : OutboxRow) : OutboxRow :=
  { r with
    status := .pending, attempts := 0, availableAt := 0, publishedAt := none, lastError := none }

@[simp] theorem envelope_apply (p : OutboxPatch) (now : Time) (r : OutboxRow) :
    (p.apply now r).envelope = r.envelope := rfl

namespace Store

@[simp] theorem setTx_self (t : Tid) (x : Tx) (s : Store) : (s.setTx t x).tx t = x :=
  Function.update_self ..
@[simp] theorem setTx_other {t t' : Tid} (ne : t' ≠ t) (x : Tx) (s : Store) :
    (s.setTx t x).tx t' = s.tx t' := Function.update_of_ne ne _ _

theorem active_iff {t : Tid} {s : Store} : s.active t = true ↔ (s.tx t).status = .active :=
  beq_iff_eq

theorem active_congr {t : Tid} {s s' : Store} (h : s'.tx t = s.tx t) : s'.active t = s.active t := by
  simp only [active, h]

def newEvent (row : CreateEvent) (now : Time) : EventRow :=
  ⟨row.name, row.venue, row.totalSeats, row.availableSeats, row.priceCents, row.startsAt, 0, now⟩

/-- A failure of Postgres or the broker. The cache is neither. -/
def Failing : Effect → Choice → Prop
  | .delCache _, _ => False
  | _, .fail => True
  | _, .lostReply => True
  | _, .refused _ => True
  | _, _ => False

/-- How the answer `c` to one effect of task `t` can change the store. -/
inductive Touch (t : Tid) (s : Store) : Effect → Choice → Store → Prop where
  /- reads, metrics and flags -/
  | rest {e : Effect} {c : Choice} (s' : Store) : s'.events = s.events → s'.bookings = s.bookings →
      s'.outbox = s.outbox → s'.tx = s.tx → s'.issued = s.issued → s'.kafka = s.kafka →
      s'.batches = s.batches → Touch t s e c s'
  | begun {c : Choice} : s.active t = false → Touch t s .beginTx c (s.beginTx t)
  | committed {c : Choice} : s.active t = true → Touch t s .commitTx c (s.commitTx t)
  | aborted {e : Effect} {c : Choice} : Failing e c → Touch t s e c (s.abort t)
  | rolledBack {c : Choice} : Touch t s .rollbackTx c (s.rollbackTx t)
  | created {c : Choice} (id : Uuid) (row : CreateEvent) : s.fresh id = true →
      Touch t s (.insertEvent row) c ((s.issue id t).putEvent id ⟨newEvent row (s.now t), none⟩)
  | event {e : Effect} {c : Choice} (id : Uuid) (cell : Cell EventRow) (v : EventRow) :
      s.active t = true → s.events id = some cell → cell.free t = true →
      Touch t s e c (s.putEvent id (cell.write t v))
  | booking {c : Choice} (row : CreateBooking) (b : BookingRow) : s.active t = true →
      s.fresh b.id = true → Touch t s (.insertBooking row) c ((s.issue b.id t).setTx t
        { s.tx t with bookings := (s.tx t).bookings ++ [b] })
  | message {c : Choice} (row : CreateOutboxMessage) (m : OutboxRow) : s.active t = true →
      s.fresh m.id = true → Touch t s (.insertOutbox row) c ((s.issue m.id t).setTx t
        { s.tx t with outbox := (s.tx t).outbox ++ [m] })
  | selected {c : Choice} (limit : Int) (rows : List OutboxRow) : s.active t = true →
      Selects limit ((s.outbox.filter (s.eligible t)).map (·.committed)) rows →
      Touch t s (.selectPending limit) c
        ((s.putOutbox (s.outbox.write t (s.picks t rows) id)).setTx t { s.tx t with selected := rows.map (·.id) })
  | updated {c : Choice} (ids : List Uuid) (patch : OutboxPatch) : s.active t = true →
      s.outbox.freeFor t (among ids) = true → Touch t s (.updateOutbox ids patch) c
        (s.putOutbox (s.outbox.write t (among ids) (patch.apply (s.now t))))
  | sent {c : Choice} (batch : List (TopicMessages BookingConfirmedPayload))
      (accepted : List BookingMessage) : accepted.Sublist (sent batch) →
      Touch t s (.sendBatch batch) c { s with
        kafka := s.kafka ++ accepted, batches := s.batches ++ [(t, Kafka.sent batch)] }

theorem setTx_eq {t : Tid} {x : Tx} {s : Store} (h : s.tx t = x) : s.setTx t x = s := by
  simp [setTx, ← h, Function.update_eq_self]

end Store

open Store

theorem selects_eligible {t : Tid} {s : Store} {limit : Int} {rows : List OutboxRow}
    (h : Selects limit ((s.outbox.filter (s.eligible t)).map (·.committed)) rows) :
    ∀ r ∈ rows, ∃ c ∈ s.outbox, c.committed = r ∧ s.eligible t c = true := by
  intro r hr
  obtain ⟨c, hc, rfl⟩ := List.mem_map.mp (h.2.1 r hr)
  obtain ⟨mem, elig⟩ := List.mem_filter.mp hc
  exact ⟨c, mem, rfl, elig⟩

theorem picks_free (t : Tid) (s : Store) (rows : List OutboxRow) :
    s.outbox.freeFor t (s.picks t rows) = true := by
  apply List.all_eq_true.mpr
  intro c _
  cases hp : s.picks t rows c with
  | false => rfl
  | true =>
    simp only [picks, eligible, Bool.and_eq_true] at hp
    simpa using hp.2.2

theorem touch_same {t : Tid} {e : Effect} {c : Choice} (s : Store) : Touch t s e c s :=
  .rest s rfl rfl rfl rfl rfl rfl rfl

/-- Every answer touches the store in one of these ways. -/
theorem exec_touch {partition : String → String → Nat} {t : Tid} {s s' : Store} {e : Effect}
    {c : Choice} {r : Except Err e.Answer} (h : exec partition t s e c = some (s', r)) :
    Touch t s e c s' := by
  have failing : ∀ {e : Effect} {c : Choice} {r : Except Err e.Answer}, Failing e c →
      failed t s = some (s', r) → Touch t s e c s' := by
    intro e c r fails h
    cases Option.some.inj h
    exact .aborted fails
  -- the answers that fail or do not exist go first; the named cases are the statements
  cases e <;> cases c <;> first | exact failing trivial h | cases h; done | skip
  all_goals simp only [exec] at h
  case beginTx.ok =>
    split at h
    · cases h
    · rename_i idle
      cases Option.some.inj h
      exact .begun (by simpa using idle)
  case commitTx.ok =>
    split at h
    · rename_i active
      cases Option.some.inj h
      exact .committed active
    · cases h
  case commitTx.lostReply =>
    split at h
    · rename_i active
      cases Option.some.inj h
      exact .committed active
    · cases h
  case rollbackTx.ok => cases Option.some.inj h; exact .rolledBack
  case rollbackTx.fail => cases Option.some.inj h; exact touch_same s
  case insertEvent.uuid row id =>
    split at h
    · rename_i ok
      cases Option.some.inj h
      exact .created id row (Bool.and_eq_true_iff.mp ok).1
    · cases h
  case findEvent.ok => cases Option.some.inj h; exact touch_same s
  case findEventForUpdate.ok id =>
    split at h
    · rename_i active
      split at h
      · cases Option.some.inj h; exact touch_same s
      · rename_i c row
        split at h
        · rename_i free
          cases Option.some.inj h
          exact .event id c _ active row free
        · cases h
    · cases h
  case updateEvent.ok id cond patch =>
    split at h
    · rename_i active
      split at h
      · cases Option.some.inj h; exact touch_same s
      · rename_i c row
        split at h
        · rename_i free
          split at h
          · cases Option.some.inj h; exact .event id c _ active row free
          · cases Option.some.inj h; exact touch_same s
        · split at h
          · cases h
          · cases Option.some.inj h; exact touch_same s
    · cases h
  case insertBooking.uuid row id =>
    split at h
    · rename_i ok
      simp only [Bool.and_eq_true] at ok
      cases Option.some.inj h
      exact .booking row _ ok.1.1 ok.1.2
    · cases h
  case sumConfirmed.ok => cases Option.some.inj h; exact touch_same s
  case insertOutbox.uuid row id =>
    split at h
    · rename_i ok
      simp only [Bool.and_eq_true] at ok
      cases Option.some.inj h
      exact .message row _ ok.1 ok.2
    · cases h
  case selectPending.rows limit rows =>
    split at h
    · rename_i ok
      simp only [Bool.and_eq_true, decide_eq_true_eq] at ok
      cases Option.some.inj h
      exact .selected limit rows ok.1.1 ok.2
    · cases h
  case updateOutbox.ok ids patch =>
    split at h
    · rename_i ok
      simp only [Bool.and_eq_true] at ok
      cases Option.some.inj h
      exact .updated ids patch ok.1 ok.2
    · cases h
  case countPending.ok =>
    split at h
    · cases Option.some.inj h; exact touch_same s
    · cases h
  case sendBatch.ok batch => cases Option.some.inj h; exact .sent batch _ (List.Sublist.refl _)
  case sendBatch.refused batch _ =>
    cases Option.some.inj h
    exact .sent batch _ List.filter_sublist
  all_goals
    cases Option.some.inj h
    exact .rest _ rfl rfl rfl rfl rfl rfl rfl

namespace Store

/-- What no step ever takes back. -/
structure Grows (s s' : Store) : Prop where
  bookings : s.bookings <+: s'.bookings
  outbox : s.outbox.committed.map (·.envelope) <+: s'.outbox.committed.map (·.envelope)
  kafka : s.kafka <+: s'.kafka
  batches : s.batches <+: s'.batches
  issued : s.issued <:+ s'.issued

/-- What task `t` may rely on while others run: its own transaction and the rows it holds,
unless Postgres has meanwhile ended the transaction. -/
structure Frame (t : Tid) (s s' : Store) : Prop where
  grows : Grows s s'
  idle : s.active t = false → s'.tx t = s.tx t
  tx : s'.active t = true → s'.tx t = s.tx t
  events : s'.active t = true → ∀ id, s.heldEvent t id = true ∨ s'.heldEvent t id = true →
    s'.events id = s.events id
  outbox : s'.active t = true → s'.outbox.held t = s.outbox.held t
  mine : ∀ x, (x, t) ∈ s'.issued → (x, t) ∈ s.issued
  sends : ∀ b ∈ s'.batches, b.1 = t → b ∈ s.batches

theorem Grows.refl (s : Store) : Grows s s :=
  ⟨List.prefix_refl _, List.prefix_refl _, List.prefix_refl _, List.prefix_refl _,
    List.suffix_refl _⟩

theorem Grows.trans {s s' s'' : Store} (h : Grows s s') (h' : Grows s' s'') : Grows s s'' :=
  ⟨h.bookings.trans h'.bookings, h.outbox.trans h'.outbox, h.kafka.trans h'.kafka,
    h.batches.trans h'.batches, h.issued.trans h'.issued⟩

theorem Frame.refl (t : Tid) (s : Store) : Frame t s s :=
  ⟨.refl s, fun _ => rfl, fun _ => rfl, fun _ _ _ => rfl, fun _ => rfl, fun _ h => h,
    fun _ h _ => h⟩

theorem Frame.trans {t : Tid} {s s' s'' : Store} (h : Frame t s s') (h' : Frame t s' s'') :
    Frame t s s'' := by
  have still : s''.active t = true → s'.active t = true := by
    intro ha
    rw [← ha]
    exact (active_congr (h'.tx ha)).symm
  refine ⟨h.grows.trans h'.grows, fun hi => ?_, fun ha => ?_, fun ha id held => ?_,
    fun ha => ?_, fun x hx => h.mine x (h'.mine x hx),
    fun b hb ht => h.sends b (h'.sends b hb ht) ht⟩
  · have hi' : s'.active t = false := by rw [← hi]; exact active_congr (h.idle hi)
    exact (h'.idle hi').trans (h.idle hi)
  · exact (h'.tx ha).trans (h.tx (still ha))
  · have first := h.events (still ha) id
    have second := h'.events ha id
    have middle : s'.heldEvent t id = true := by
      rcases held with held | held
      · rw [← held]; simp only [heldEvent, first (.inl held)]
      · rw [← held]
        by_contra ne
        have same : s''.events id = s'.events id := second (.inr held)
        exact ne (by simp only [heldEvent, same])
    exact (second (.inl middle)).trans (first (.inr middle))
  · exact (h'.outbox ha).trans (h.outbox (still ha))

/-- The invariant of the tables themselves, whatever programs run: transactions that are not
active hold nothing, keys are unique, working copies differ from the committed version in the
relay's columns only. -/
structure WF (s : Store) : Prop where
  quiet : ∀ t, s.active t = false → (s.tx t).bookings = [] ∧ (s.tx t).outbox = [] ∧
    (s.tx t).selected = []
  quietEvents : ∀ t, s.active t = false → ∀ id, s.heldEvent t id = false
  quietOutbox : ∀ t, s.active t = false → s.outbox.held t = []
  once : (s.issued.map (·.1)).Nodup
  eventKeys : ∀ id c, s.events id = some c → id ∈ s.issued.map (·.1)
  bookings : Placed s.issued (s.bookings.map (·.id)) fun t => (s.tx t).bookings.map (·.id)
  outbox : Placed s.issued (s.outbox.committed.map (·.id)) fun t => (s.tx t).outbox.map (·.id)
  envelope : ∀ c ∈ s.outbox, ∀ t, (c.view t).envelope = c.committed.envelope
  selected : ∀ t, ∀ x ∈ (s.tx t).selected, ∃ c ∈ s.outbox, c.committed.id = x ∧
    c.heldBy t = true

theorem envelope_id {r r' : OutboxRow} (h : r.envelope = r'.envelope) : r.id = r'.id := by
  change r.envelope.id = r'.envelope.id
  rw [h]

theorem view_id {s : Store} (wf : WF s) {c : Cell OutboxRow} (hc : c ∈ s.outbox) (t : Tid) :
    (c.view t).id = c.committed.id := envelope_id (wf.envelope c hc t)

theorem heldEvent_map {t : Tid} {s s' : Store} {f : Cell EventRow → Cell EventRow}
    (events : s'.events = fun id => (s.events id).map f)
    (keep : ∀ c : Cell EventRow, c.heldBy t = true → f c = c)
    (away : ∀ c : Cell EventRow, c.heldBy t = false → (f c).heldBy t = false) (id : Uuid)
    (held : s.heldEvent t id = true ∨ s'.heldEvent t id = true) : s'.events id = s.events id := by
  simp only [heldEvent, events] at held ⊢
  cases row : s.events id with
  | none => rfl
  | some c =>
    simp only [row, Option.map_some] at held ⊢
    cases h : c.heldBy t with
    | true => rw [keep c h]
    | false =>
      rw [h, away c h] at held
      simp at held

theorem not_mem_of_fresh {id : Uuid} {s : Store} (h : s.fresh id = true) :
    id ∉ s.issued.map (·.1) := by
  simpa [fresh] using h

theorem prefix_of_eq {α : Type} {l l' : List α} (h : l' = l) : l <+: l' := h ▸ List.prefix_refl _

theorem grows_abort (t : Tid) (s : Store) : Grows s (s.abort t) := by
  unfold abort
  split
  · refine ⟨List.prefix_refl _, ?_, List.prefix_refl _, List.prefix_refl _, List.suffix_refl _⟩
    exact prefix_of_eq (by simp)
  · exact .refl s

/-- A COMMIT adds the rows of its transaction; of the others it changes the relay's columns. -/
theorem commit_envelopes {t : Tid} {s : Store} (wf : WF s) :
    (s.commitTx t).outbox.committed.map (·.envelope) =
      s.outbox.committed.map (·.envelope) ++ (s.tx t).outbox.map (·.envelope) := by
  have same : (s.outbox.commit t).committed.map (·.envelope) =
      s.outbox.committed.map (·.envelope) := by
    rw [Rows.committed_commit, Rows.committed, List.map_map, List.map_map]
    exact List.map_congr_left fun c hc => wf.envelope c hc t
  simp only [commitTx, Rows.committed_insert, List.map_append, same]

theorem abort_tables (t : Tid) (s : Store) : (s.abort t).bookings = s.bookings ∧
    (s.abort t).outbox.committed = s.outbox.committed := by
  unfold abort
  split
  · exact ⟨rfl, Rows.committed_rollback t _⟩
  · exact ⟨rfl, rfl⟩

theorem abort_kafka (t : Tid) (s : Store) : (s.abort t).kafka = s.kafka := by
  unfold abort
  split <;> rfl

/-- Nothing but a COMMIT changes the committed rows of the two tables. -/
theorem touch_commits {t : Tid} {s s' : Store} {e : Effect} {c : Choice} (h : Touch t s e c s') :
    (e = .commitTx ∧ s.active t = true ∧ s' = s.commitTx t) ∨
      (s'.bookings = s.bookings ∧ s'.outbox.committed = s.outbox.committed) := by
  cases h with
  | rest s' _ bookings outbox => exact .inr ⟨bookings, by rw [outbox]⟩
  | committed act => exact .inl ⟨rfl, act, rfl⟩
  | aborted => exact .inr (abort_tables t s)
  | rolledBack => exact .inr (abort_tables t s)
  | selected => exact .inr ⟨rfl, Rows.committed_write t _ _ _⟩
  | updated => exact .inr ⟨rfl, Rows.committed_write t _ _ _⟩
  | _ => exact .inr ⟨rfl, rfl⟩

theorem touch_grows {t : Tid} {s s' : Store} {e : Effect} {c : Choice} (wf : WF s) (h : Touch t s e c s') :
    Grows s s' := by
  cases h with
  | rest s' _ hb ho _ hi hk hba =>
    exact ⟨prefix_of_eq hb, prefix_of_eq (by rw [ho]), prefix_of_eq hk, prefix_of_eq hba,
      hi ▸ List.suffix_refl _⟩
  | begun => exact { Grows.refl s with }
  | committed =>
    refine ⟨List.prefix_append .., ?_, List.prefix_refl _, List.prefix_refl _,
      List.suffix_refl _⟩
    rw [commit_envelopes wf]
    exact List.prefix_append ..
  | aborted => exact grows_abort t s
  | rolledBack =>
    have h := grows_abort t s
    exact ⟨h.bookings, h.outbox, h.kafka, h.batches, h.issued⟩
  | created id row => exact { Grows.refl s with issued := List.suffix_cons .. }
  | event => exact { Grows.refl s with }
  | booking => exact { Grows.refl s with issued := List.suffix_cons .. }
  | message => exact { Grows.refl s with issued := List.suffix_cons .. }
  | selected =>
    exact { Grows.refl s with outbox := prefix_of_eq (by simp [putOutbox, setTx]) }
  | updated => exact { Grows.refl s with outbox := prefix_of_eq (by simp [putOutbox]) }
  | sent batch accepted =>
    exact { Grows.refl s with kafka := List.prefix_append .., batches := List.prefix_append .. }

theorem frame_abort {t : Tid} {s : Store} (t' : Tid) : Frame t s (s.abort t') := by
  cases act : s.active t' with
  | false =>
    have same : s.abort t' = s := by simp [abort, act]
    rw [same]
    exact .refl t s
  | true =>
    have eq : s.abort t' = { s with
        events := fun id => (s.events id).map (·.rollback t')
        outbox := s.outbox.rollback t'
        tx := Function.update s.tx t' { status := .aborted } } := by simp [abort, act]
    by_cases ht : t = t'
    · subst ht
      have gone : (s.abort t).active t = false := by simp [eq, active]
      have never : ¬ (s.abort t).active t = true := by rw [gone]; exact Bool.false_ne_true
      have busy : ¬ s.active t = false := by rw [act]; exact fun h => nomatch h
      exact ⟨grows_abort t s, fun hi => absurd hi busy, fun ha => absurd ha never,
        fun ha => absurd ha never, fun ha => absurd ha never, fun x hx => by rwa [eq] at hx,
        fun b hb _ => by rwa [eq] at hb⟩
    · have tx : (s.abort t').tx t = s.tx t := by rw [eq]; exact Function.update_of_ne ht _ _
      refine ⟨grows_abort t' s, fun _ => tx, fun _ => tx, fun _ id held => ?_, fun _ => ?_,
        fun x hx => by rwa [eq] at hx, fun b hb _ => by rwa [eq] at hb⟩
      · exact heldEvent_map (f := (·.rollback t')) (by rw [eq])
          (fun _ h => Cell.rollback_other ht h)
          (fun _ h => (Cell.rollback_heldBy_other ht).trans h) id held
      · rw [eq]; exact Rows.held_rollback ht _

theorem touch_tx {t t' : Tid} {s s' : Store} {e : Effect} {c : Choice} (ne : t' ≠ t)
    (h : Touch t s e c s') :
    s'.tx t' = s.tx t' := by
  have aborted : (s.abort t).tx t' = s.tx t' := by
    unfold abort
    split
    · exact Function.update_of_ne ne _ _
    · rfl
  cases h with
  | rest s' _ _ _ ht => rw [ht]
  | begun => exact setTx_other ne _ _
  | committed => exact Function.update_of_ne ne _ _
  | aborted => exact aborted
  | rolledBack => exact (setTx_other ne _ _).trans aborted
  | created => rfl
  | event => rfl
  | booking => exact setTx_other ne _ _
  | message => exact setTx_other ne _ _
  | selected => exact setTx_other ne _ _
  | updated => rfl
  | sent => rfl

theorem touch_sends {t : Tid} {s s' : Store} {e : Effect} {c : Choice} (h : Touch t s e c s') :
    ∀ b ∈ s'.batches, b ∈ s.batches ∨ b.1 = t := by
  cases h with
  | rest s' _ _ _ _ _ _ hb => rw [hb]; exact fun _ h => .inl h
  | aborted => intro b hb; unfold abort at hb; split at hb <;> exact .inl hb
  | rolledBack => intro b hb; unfold rollbackTx abort at hb; split at hb <;> exact .inl hb
  | sent batch accepted =>
    intro b hb
    rcases List.mem_append.mp hb with hb | hb
    · exact .inl hb
    · exact .inr (by rw [List.mem_singleton.mp hb])
  | _ => exact fun _ hb => .inl hb

/-- The other tasks keep all they rely on, whatever task `t` is answered. -/
theorem touch_frame {t t' : Tid} {s s' : Store} {e : Effect} {c : Choice} (wf : WF s)
    (ne : t' ≠ t) (h : Touch t s e c s') : Frame t' s s' := by
  have grows := touch_grows wf h
  have sends : ∀ b ∈ s'.batches, b.1 = t' → b ∈ s.batches := fun b hb ht =>
    (touch_sends h b hb).resolve_right fun ht' => ne (ht.symm.trans ht')
  have same : ∀ {s' : Store} (_ : Grows s s') (_ : ∀ b ∈ s'.batches, b.1 = t' → b ∈ s.batches)
      (_ : s'.tx t' = s.tx t')
      (_ : ∀ id, s.heldEvent t' id = true ∨ s'.heldEvent t' id = true → s'.events id = s.events id)
      (_ : s'.outbox.held t' = s.outbox.held t') (_ : ∀ x, (x, t') ∈ s'.issued → (x, t') ∈ s.issued),
      Frame t' s s' :=
    fun grows sends tx events outbox mine =>
      ⟨grows, fun _ => tx, fun _ => tx, fun _ => events, fun _ => outbox, mine, sends⟩
  have fresh : ∀ x k, (x, t') ∈ (k, t) :: s.issued → (x, t') ∈ s.issued := by
    intro x k hx
    rcases List.mem_cons.mp hx with hx | hx
    · exact absurd (congrArg Prod.snd hx) ne
    · exact hx
  cases h with
  | rest s' he _ ho ht hi =>
    exact same grows sends (by rw [ht]) (fun id _ => by rw [he]) (by rw [ho]) fun x hx => by rwa [hi] at hx
  | begun => exact same grows sends (setTx_other ne _ s) (fun _ _ => rfl) rfl fun _ hx => hx
  | committed =>
    refine same grows sends (Function.update_of_ne ne _ _) (fun id held => ?_) ?_ fun _ hx => hx
    · exact heldEvent_map rfl (fun _ h => Cell.commit_other ne h)
        (fun _ h => (Cell.commit_heldBy_other ne).trans h) id held
    · exact (Rows.held_insert ..).trans (Rows.held_commit ne _)
  | aborted => exact frame_abort t
  | rolledBack =>
    have f := frame_abort (t := t') (s := s) t
    have tx : (s.rollbackTx t).tx t' = (s.abort t).tx t' := setTx_other ne _ _
    have act : (s.rollbackTx t).active t' = (s.abort t).active t' := active_congr tx
    exact ⟨grows, fun hi => tx.trans (f.idle hi), fun ha => tx.trans (f.tx (act ▸ ha)),
      fun ha id held => f.events (act ▸ ha) id held, fun ha => f.outbox (act ▸ ha), f.mine, sends⟩
  | created id row hf =>
    have new : s.events id = none := by
      cases old : s.events id with
      | none => rfl
      | some c => exact absurd (wf.eventKeys id c old) (not_mem_of_fresh hf)
    refine same grows sends rfl (fun id' held => ?_) rfl fun x => fresh x id
    by_cases hid : id' = id
    · subst hid
      simp [heldEvent, putEvent, issue, new, Cell.heldBy] at held
    · exact Function.update_of_ne hid _ _
  | event id c v _ row free =>
    refine same grows sends rfl (fun id' held => ?_) rfl fun _ hx => hx
    by_cases hid : id' = id
    · subst hid
      have away := Cell.not_heldBy_of_free ne free
      simp [heldEvent, putEvent, row, away, ne.symm] at held
    · exact Function.update_of_ne hid _ _
  | booking row b => exact same grows sends (setTx_other ne _ _) (fun _ _ => rfl) rfl fun x => fresh x b.id
  | message row m => exact same grows sends (setTx_other ne _ _) (fun _ _ => rfl) rfl fun x => fresh x m.id
  | selected limit rows _ sel =>
    exact same grows sends (setTx_other ne _ _) (fun _ _ => rfl)
      (Rows.held_write ne (picks_free t s rows)) fun _ hx => hx
  | updated ids patch _ free =>
    exact same grows sends rfl (fun _ _ => rfl) (Rows.held_write ne free) fun _ hx => hx
  | sent batch accepted => exact same grows sends rfl (fun _ _ => rfl) rfl fun _ hx => hx

structure Release {V : Type} (t : Tid) (f : Cell V → Cell V) : Prop where
  self : ∀ c, (f c).heldBy t = false
  other : ∀ t' c, t' ≠ t → (f c).heldBy t' = c.heldBy t'
  keep : ∀ t' c, t' ≠ t → c.heldBy t' = true → f c = c

theorem release_commit {V : Type} (t : Tid) : Release t (fun c : Cell V => c.commit t) :=
  ⟨fun _ => Cell.commit_heldBy_self t _, fun _ _ ne => Cell.commit_heldBy_other ne,
    fun _ _ ne h => Cell.commit_other ne h⟩

theorem release_rollback {V : Type} (t : Tid) : Release t (fun c : Cell V => c.rollback t) :=
  ⟨fun _ => Cell.rollback_heldBy_self t _, fun _ _ ne => Cell.rollback_heldBy_other ne,
    fun _ _ ne h => Cell.rollback_other ne h⟩

theorem view_commit_envelope {c : Cell OutboxRow} {t : Tid}
    (h : ∀ t', (c.view t').envelope = c.committed.envelope) (t' : Tid) :
    ((c.commit t).view t').envelope = (c.commit t).committed.envelope := by
  unfold Cell.commit
  split
  · rfl
  · exact h t'

theorem view_rollback_envelope {c : Cell OutboxRow} {t : Tid}
    (h : ∀ t', (c.view t').envelope = c.committed.envelope) (t' : Tid) :
    ((c.rollback t).view t').envelope = (c.rollback t).committed.envelope := by
  unfold Cell.rollback
  split
  · rfl
  · exact h t'

/-- The end of a transaction, with the rows `done` and `sent` of its own that it commits. -/
theorem wf_release {t : Tid} {s s' : Store} {x : Tx} {f : Cell EventRow → Cell EventRow}
    {g : Cell OutboxRow → Cell OutboxRow} {rows : List OutboxRow} (wf : WF s)
    (hf : Release t f) (hg : Release t g)
    (own : x.bookings = [] ∧ x.outbox = [] ∧ x.selected = [])
    (tx : s'.tx = Function.update s.tx t x) (issued : s'.issued = s.issued)
    (events : s'.events = fun id => (s.events id).map f)
    (outbox : s'.outbox = Rows.insert rows (s.outbox.map g))
    (view : ∀ c ∈ s.outbox, ∀ t', ((g c).view t').envelope = (g c).committed.envelope)
    (bookingKeys : Placed s'.issued (s'.bookings.map (·.id)) fun t => (s'.tx t).bookings.map (·.id))
    (outboxKeys : Placed s'.issued (s'.outbox.committed.map (·.id))
      fun t => (s'.tx t).outbox.map (·.id)) : WF s' := by
  have self : s'.tx t = x := by rw [tx]; exact Function.update_self ..
  have other : ∀ t', t' ≠ t → s'.tx t' = s.tx t' := by
    intro t' ne; rw [tx]; exact Function.update_of_ne ne _ _
  have quiet : ∀ t', t' ≠ t → s'.active t' = false → s.active t' = false :=
    fun t' ne h => by rw [← h]; exact (active_congr (other t' ne)).symm
  refine ⟨fun t' h => ?_, fun t' h id => ?_, fun t' h => ?_, issued ▸ wf.once, fun id c h => ?_,
    bookingKeys, outboxKeys, fun c hc t' => ?_, fun t' y hy => ?_⟩
  · by_cases ht : t' = t
    · subst ht; rw [self]; exact own
    · rw [other t' ht]; exact wf.quiet t' (quiet t' ht h)
  · simp only [heldEvent, events]
    cases row : s.events id with
    | none => rfl
    | some c =>
      by_cases ht : t' = t
      · subst ht; exact hf.self c
      · have old := wf.quietEvents t' (quiet t' ht h) id
        simp only [heldEvent, row] at old
        exact (hf.other t' c ht).trans old
  · rw [outbox, Rows.held_insert, Rows.held, List.filter_eq_nil_iff]
    intro d hd
    obtain ⟨c, hc, rfl⟩ := List.mem_map.mp hd
    by_cases ht : t' = t
    · subst ht; rw [hg.self c]; exact Bool.false_ne_true
    · have old := List.filter_eq_nil_iff.mp (wf.quietOutbox t' (quiet t' ht h)) c hc
      rwa [hg.other t' c ht]
  · rw [issued]
    rw [events] at h
    obtain ⟨c', row, _⟩ := Option.map_eq_some_iff.mp h
    exact wf.eventKeys id c' row
  · rw [outbox] at hc
    rcases List.mem_append.mp hc with hc | hc
    · obtain ⟨c', hc', rfl⟩ := List.mem_map.mp hc
      exact view c' hc' t'
    · obtain ⟨v, _, rfl⟩ := List.mem_map.mp hc
      rfl
  · by_cases ht : t' = t
    · subst ht; rw [self, own.2.2] at hy; cases hy
    · rw [other t' ht] at hy
      obtain ⟨c, hc, id, held⟩ := wf.selected t' y hy
      refine ⟨c, ?_, id, held⟩
      rw [outbox]
      exact List.mem_append_left _ (List.mem_map.mpr ⟨c, hc, hg.keep t' c ht held⟩)

theorem commit_wf {t : Tid} {s : Store} (wf : WF s) : WF (s.commitTx t) := by
  have self : ((s.commitTx t).tx t) = {} := Function.update_self ..
  have other : ∀ t', t' ≠ t → (s.commitTx t).tx t' = s.tx t' :=
    fun t' ne => Function.update_of_ne ne _ _
  have ids : (s.commitTx t).outbox.committed.map (·.id) =
      s.outbox.committed.map (·.id) ++ (s.tx t).outbox.map (·.id) := by
    have same : (s.outbox.commit t).committed.map (·.id) = s.outbox.committed.map (·.id) := by
      rw [Rows.committed_commit, Rows.committed, List.map_map, List.map_map]
      exact List.map_congr_left fun c hc => view_id wf hc t
    simp only [commitTx, Rows.committed_insert, List.map_append, same]
  refine wf_release (x := {}) wf (release_commit t) (release_commit t) ⟨rfl, rfl, rfl⟩ rfl rfl rfl
    rfl (fun c hc => view_commit_envelope (wf.envelope c hc)) ?_ ?_
  · have keys : Placed s.issued (s.bookings.map (·.id) ++ (s.tx t).bookings.map (·.id))
        fun t' => ((s.commitTx t).tx t').bookings.map (·.id) :=
      wf.bookings.commit wf.once (by simp only [self]; rfl) fun t' ne => by simp only [other t' ne]
    simpa only [commitTx, List.map_append] using keys
  · rw [ids]
    exact wf.outbox.commit wf.once (by simp only [self]; rfl) fun t' ne => by simp only [other t' ne]

theorem abort_wf {t : Tid} {s : Store} (wf : WF s) : WF (s.abort t) := by
  unfold abort
  split
  · have other : ∀ t', t' ≠ t →
        Function.update s.tx t { status := .aborted } t' = s.tx t' :=
      fun t' ne => Function.update_of_ne ne _ _
    have rows : s.outbox.rollback t = Rows.insert [] (s.outbox.map (·.rollback t)) :=
      (List.append_nil _).symm
    refine wf_release (x := { status := .aborted }) wf (release_rollback t)
      (release_rollback t) ⟨rfl, rfl, rfl⟩ rfl rfl rfl rows
      (fun c hc => view_rollback_envelope (wf.envelope c hc)) ?_ ?_
    · exact wf.bookings.drop (t := t) (by simp) fun t' ne => by simp only [other t' ne]
    · rw [Rows.committed_rollback]
      exact wf.outbox.drop (t := t) (by simp) fun t' ne => by simp only [other t' ne]
  · exact wf

theorem setTx_wf {t : Tid} {s : Store} {x : Tx} (wf : WF s) (idle : s.active t = false)
    (empty : x.bookings = [] ∧ x.outbox = [] ∧ x.selected = []) : WF (s.setTx t x) := by
  have self : (s.setTx t x).tx t = x := setTx_self t x s
  have other : ∀ t', t' ≠ t → (s.setTx t x).tx t' = s.tx t' := fun t' ne => setTx_other ne x s
  have quiet : ∀ t', (s.setTx t x).active t' = false → s.active t' = false := by
    intro t' h
    by_cases ht : t' = t
    · subst ht; exact idle
    · rw [← h]; exact (active_congr (other t' ht)).symm
  refine ⟨fun t' h => ?_, fun t' h => wf.quietEvents t' (quiet t' h),
    fun t' h => wf.quietOutbox t' (quiet t' h), wf.once, wf.eventKeys, ?_, ?_, wf.envelope,
    fun t' y hy => ?_⟩
  · by_cases ht : t' = t
    · subst ht; rw [self]; exact empty
    · rw [other t' ht]; exact wf.quiet t' (quiet t' h)
  · exact wf.bookings.drop (t := t) (by simp only [self, empty.1, List.map_nil])
      fun t' ne => by simp only [other t' ne]
  · exact wf.outbox.drop (t := t) (by simp only [self, empty.2.1, List.map_nil])
      fun t' ne => by simp only [other t' ne]
  · by_cases ht : t' = t
    · subst ht; rw [self, empty.2.2] at hy; cases hy
    · rw [other t' ht] at hy; exact wf.selected t' y hy

theorem abort_inactive (t : Tid) (s : Store) : (s.abort t).active t = false := by
  unfold abort
  split
  · simp [active]
  · rename_i h; simpa using h

theorem rollback_wf {t : Tid} {s : Store} (wf : WF s) : WF (s.rollbackTx t) :=
  setTx_wf (abort_wf wf) (abort_inactive t s) ⟨rfl, rfl, rfl⟩

theorem create_wf {t : Tid} {s : Store} {id : Uuid} {row : EventRow} (wf : WF s)
    (fresh : s.fresh id = true) : WF ((s.issue id t).putEvent id ⟨row, none⟩) := by
  have notin := not_mem_of_fresh fresh
  refine ⟨wf.quiet, fun t' h id' => ?_, wf.quietOutbox, List.nodup_cons.mpr ⟨notin, wf.once⟩,
    fun id' c h => ?_, wf.bookings.issue (id, t), wf.outbox.issue (id, t), wf.envelope, wf.selected⟩
  · by_cases hid : id' = id
    · subst hid; simp [heldEvent, putEvent, Cell.heldBy]
    · have old := wf.quietEvents t' h id'
      simpa [heldEvent, putEvent, issue, Function.update_of_ne hid] using old
  · by_cases hid : id' = id
    · subst hid; exact List.mem_cons_self ..
    · have old : s.events id' = some c := by
        simpa [putEvent, issue, Function.update_of_ne hid] using h
      exact List.mem_cons_of_mem _ (wf.eventKeys id' c old)

theorem writeEvent_wf {t : Tid} {s : Store} {id : Uuid} {c : Cell EventRow} {v : EventRow}
    (wf : WF s) (act : s.active t = true) (row : s.events id = some c) :
    WF (s.putEvent id (c.write t v)) := by
  refine ⟨wf.quiet, fun t' h id' => ?_, wf.quietOutbox, wf.once, fun id' c' h => ?_, wf.bookings,
    wf.outbox, wf.envelope, wf.selected⟩
  · by_cases hid : id' = id
    · subst hid
      have ne : t ≠ t' := by
        rintro rfl
        have idle : s.active t = false := h
        rw [act] at idle
        cases idle
      simp [heldEvent, putEvent, ne]
    · have old := wf.quietEvents t' h id'
      simpa [heldEvent, putEvent, Function.update_of_ne hid] using old
  · by_cases hid : id' = id
    · subst hid; exact wf.eventKeys id' c row
    · refine wf.eventKeys id' c' ?_
      simpa [putEvent, Function.update_of_ne hid] using h

/-- An insert of `t`, into either table, under the fresh key `id`. -/
theorem insert_wf {t : Tid} {s : Store} {id : Uuid} {x : Tx} (wf : WF s)
    (act : s.active t = true) (fresh : s.fresh id = true) (status : x.status = .active)
    (selected : x.selected = (s.tx t).selected)
    (keys : (x.bookings.map (·.id) = (s.tx t).bookings.map (·.id) ++ [id] ∧
        x.outbox = (s.tx t).outbox) ∨
      (x.bookings = (s.tx t).bookings ∧
        x.outbox.map (·.id) = (s.tx t).outbox.map (·.id) ++ [id])) :
    WF ((s.issue id t).setTx t x) := by
  have notin := not_mem_of_fresh fresh
  have self : ((s.issue id t).setTx t x).tx t = x := setTx_self ..
  have other : ∀ t', t' ≠ t → ((s.issue id t).setTx t x).tx t' = s.tx t' :=
    fun t' ne => setTx_other ne ..
  have quiet : ∀ t', ((s.issue id t).setTx t x).active t' = false → t' ≠ t ∧ s.active t' = false := by
    intro t' h
    have ne : t' ≠ t := by
      rintro rfl
      rw [← Bool.not_eq_true, active_iff, self] at h
      exact h status
    exact ⟨ne, by rw [← h]; exact (active_congr (other t' ne)).symm⟩
  refine ⟨fun t' h => ?_, fun t' h => wf.quietEvents t' (quiet t' h).2,
    fun t' h => wf.quietOutbox t' (quiet t' h).2, List.nodup_cons.mpr ⟨notin, wf.once⟩,
    fun id' c h => List.mem_cons_of_mem _ (wf.eventKeys id' c h), ?_, ?_, wf.envelope,
    fun t' y hy => ?_⟩
  · obtain ⟨ne, idle⟩ := quiet t' h
    rw [other t' ne]
    exact wf.quiet t' idle
  · rcases keys with ⟨hb, _⟩ | ⟨hb, _⟩
    · exact wf.bookings.insert notin (by simp only [self, hb]) fun t' ne => by simp only [other t' ne]
    · have same : (fun t' => (((s.issue id t).setTx t x).tx t').bookings.map (·.id)) =
          fun t' => (s.tx t').bookings.map (·.id) := by
        funext t'
        by_cases ht : t' = t
        · subst ht; rw [self, hb]
        · rw [other t' ht]
      rw [same]
      exact wf.bookings.issue (id, t)
  · rcases keys with ⟨_, ho⟩ | ⟨_, ho⟩
    · have same : (fun t' => (((s.issue id t).setTx t x).tx t').outbox.map (·.id)) =
          fun t' => (s.tx t').outbox.map (·.id) := by
        funext t'
        by_cases ht : t' = t
        · subst ht; rw [self, ho]
        · rw [other t' ht]
      rw [same]
      exact wf.outbox.issue (id, t)
    · exact wf.outbox.insert notin (by simp only [self, ho]) fun t' ne => by simp only [other t' ne]
  · refine wf.selected t' y ?_
    by_cases ht : t' = t
    · subst ht; rwa [self, selected] at hy
    · rwa [other t' ht] at hy

theorem writeOutbox_wf {t : Tid} {s : Store} {p : Cell OutboxRow → Bool}
    {f : OutboxRow → OutboxRow} {ids : List Uuid} (wf : WF s) (act : s.active t = true)
    (free : s.outbox.freeFor t p = true) (keep : ∀ r, (f r).envelope = r.envelope)
    (locked : ∀ x ∈ ids, x ∈ (s.tx t).selected ∨ ∃ c ∈ s.outbox, c.committed.id = x ∧ p c = true) :
    WF ((s.putOutbox (s.outbox.write t p f)).setTx t { s.tx t with selected := ids }) := by
  have self : ((s.putOutbox (s.outbox.write t p f)).setTx t { s.tx t with selected := ids }).tx t =
      { s.tx t with selected := ids } := setTx_self ..
  have other : ∀ t', t' ≠ t →
      ((s.putOutbox (s.outbox.write t p f)).setTx t { s.tx t with selected := ids }).tx t' = s.tx t' :=
    fun t' ne => setTx_other ne ..
  have quiet : ∀ t', ((s.putOutbox (s.outbox.write t p f)).setTx t
      { s.tx t with selected := ids }).active t' = false → t' ≠ t ∧ s.active t' = false := by
    intro t' h
    have ne : t' ≠ t := by
      rintro rfl
      rw [← Bool.not_eq_true, active_iff, self] at h
      exact h (active_iff.mp act)
    exact ⟨ne, by rw [← h]; exact (active_congr (other t' ne)).symm⟩
  have written : ∀ c ∈ s.outbox, (if p c then c.write t (f (c.view t)) else c) ∈
      s.outbox.write t p f := fun c hc => List.mem_map_of_mem hc
  refine ⟨fun t' h => ?_, fun t' h => wf.quietEvents t' (quiet t' h).2, fun t' h => ?_, wf.once,
    wf.eventKeys, ?_, ?_, fun d hd t' => ?_, fun t' y hy => ?_⟩
  · obtain ⟨ne, idle⟩ := quiet t' h
    rw [other t' ne]
    exact wf.quiet t' idle
  · obtain ⟨ne, idle⟩ := quiet t' h
    exact (Rows.held_write ne free).trans (wf.quietOutbox t' idle)
  · have same : (fun t' => (((s.putOutbox (s.outbox.write t p f)).setTx t
        { s.tx t with selected := ids }).tx t').bookings.map (·.id)) =
        fun t' => (s.tx t').bookings.map (·.id) := by
      funext t'
      by_cases ht : t' = t
      · subst ht; rw [self]
      · rw [other t' ht]
    rw [same]
    exact wf.bookings
  · have same : (fun t' => (((s.putOutbox (s.outbox.write t p f)).setTx t
        { s.tx t with selected := ids }).tx t').outbox.map (·.id)) =
        fun t' => (s.tx t').outbox.map (·.id) := by
      funext t'
      by_cases ht : t' = t
      · subst ht; rw [self]
      · rw [other t' ht]
    rw [same]
    simpa [putOutbox, setTx] using wf.outbox
  · obtain ⟨c, hc, rfl⟩ := List.mem_map.mp hd
    have old := wf.envelope c hc
    split
    · by_cases ht : t' = t
      · subst ht; rw [Cell.write_view, keep]; exact old t'
      · have away : (c.write t (f (c.view t))).heldBy t' = false := by simp [Ne.symm ht]
        rw [Cell.view_of_not_heldBy away]
    · exact old t'
  · by_cases ht : t' = t
    · subst ht
      rw [self] at hy
      rcases locked y hy with old | ⟨c, hc, id, hp⟩
      · obtain ⟨c, hc, id, held⟩ := wf.selected t' y old
        refine ⟨_, written c hc, ?_, ?_⟩
        · split
          · exact id
          · exact id
        · split
          · simp
          · exact held
      · refine ⟨_, written c hc, ?_, ?_⟩ <;> rw [hp]
        · exact id
        · simp
    · rw [other t' ht] at hy
      obtain ⟨c, hc, id, held⟩ := wf.selected t' y hy
      have unpicked : p c = false := by
        by_contra hp
        have hf := Rows.free_of_freeFor free hc (by simpa using hp)
        rw [Cell.not_heldBy_of_free ht hf] at held
        cases held
      have same := written c hc
      rw [unpicked] at same
      exact ⟨c, same, id, held⟩

theorem touch_wf {t : Tid} {s s' : Store} {e : Effect} {c : Choice} (wf : WF s) (h : Touch t s e c s') :
    WF s' := by
  cases h with
  | rest s' he hb ho ht hi =>
    have act : ∀ t', s'.active t' = s.active t' := fun t' => active_congr (by rw [ht])
    refine ⟨fun t' h => ?_, fun t' h id => ?_, fun t' h => ?_, ?_, ?_, ?_, ?_, ?_, ?_⟩
    · rw [ht]; exact wf.quiet t' (act t' ▸ h)
    · simp only [heldEvent, he]; exact wf.quietEvents t' (act t' ▸ h) id
    · rw [ho]; exact wf.quietOutbox t' (act t' ▸ h)
    · rw [hi]; exact wf.once
    · rw [he, hi]; exact wf.eventKeys
    · rw [hi, hb, ht]; exact wf.bookings
    · rw [hi, ho, ht]; exact wf.outbox
    · rw [ho]; exact wf.envelope
    · rw [ho, ht]; exact wf.selected
  | begun idle => exact setTx_wf wf idle ⟨rfl, rfl, rfl⟩
  | committed => exact commit_wf wf
  | aborted => exact abort_wf wf
  | rolledBack => exact rollback_wf wf
  | created id row fresh => exact create_wf wf fresh
  | event id c v act row => exact writeEvent_wf wf act row
  | booking row b act fresh =>
    exact insert_wf wf act fresh (active_iff.mp act) rfl (.inl ⟨by simp, rfl⟩)
  | message row m act fresh =>
    exact insert_wf wf act fresh (active_iff.mp act) rfl (.inr ⟨rfl, by simp⟩)
  | selected limit rows act sel =>
    refine writeOutbox_wf wf act (picks_free t s rows) (fun _ => rfl) fun x hx => ?_
    obtain ⟨r, hr, rfl⟩ := List.mem_map.mp hx
    obtain ⟨c, hc, rfl, elig⟩ := selects_eligible sel r hr
    exact .inr ⟨c, hc, rfl, by simp [picks, elig, hr]⟩
  | updated ids patch act free =>
    have keep : WF ((s.putOutbox (s.outbox.write t (among ids) (patch.apply (s.now t)))).setTx t
        { s.tx t with selected := (s.tx t).selected }) :=
      writeOutbox_wf wf act free (fun _ => rfl) fun x hx => .inl hx
    rwa [setTx_eq (by rfl)] at keep
  | sent batch accepted =>
    exact ⟨wf.quiet, wf.quietEvents, wf.quietOutbox, wf.once, wf.eventKeys, wf.bookings, wf.outbox,
      wf.envelope, wf.selected⟩

theorem ext_wf {s s' : Store} {x : Ext} (wf : WF s) (h : ext s x = some s') : WF s' := by
  cases x with
  | tick d => cases Option.some.inj h; exact ⟨wf.quiet, wf.quietEvents, wf.quietOutbox, wf.once,
      wf.eventKeys, wf.bookings, wf.outbox, wf.envelope, wf.selected⟩
  | abortTx t => cases Option.some.inj h; exact abort_wf wf

theorem ext_tables {s s' : Store} {x : Ext} (h : ext s x = some s') :
    s'.bookings = s.bookings ∧ s'.outbox.committed = s.outbox.committed := by
  cases x with
  | tick d => cases Option.some.inj h; exact ⟨rfl, rfl⟩
  | abortTx t => cases Option.some.inj h; exact abort_tables t s

theorem ext_frame {s s' : Store} {x : Ext} (h : ext s x = some s') (t : Tid) : Frame t s s' := by
  cases x with
  | tick d =>
    cases Option.some.inj h
    exact ⟨{ Grows.refl s with }, fun _ => rfl, fun _ => rfl, fun _ _ _ => rfl, fun _ => rfl,
      fun _ h => h, fun _ h _ => h⟩
  | abortTx t' => cases Option.some.inj h; exact frame_abort t'

structure Fresh (t : Tid) (s : Store) : Prop where
  tx : s.tx t = {}
  unsent : ∀ b ∈ s.batches, b.1 ≠ t

theorem Fresh.idle {t : Tid} {s : Store} (h : Fresh t s) : s.active t = false := by
  simp [active, h.tx]

theorem fresh_frame {t : Tid} {s s' : Store} (h : Fresh t s) (f : Frame t s s') : Fresh t s' :=
  ⟨(f.idle h.idle).trans h.tx, fun b hb ht => h.unsent b (f.sends b hb ht) ht⟩

theorem empty_placed {α : Type} (f : α → Uuid) (g : Tid → List Uuid) (none : ∀ t, g t = []) :
    Placed [] (([] : List α).map f) g where
  nodup := List.nodup_nil
  known _ h := nomatch h
  pending_nodup t := by rw [none t]; exact List.nodup_nil
  pending_issued t x h := by rw [none t] at h; cases h
  apart t x h := by rw [none t] at h; cases h

theorem empty_wf : WF {} where
  quiet _ _ := ⟨rfl, rfl, rfl⟩
  quietEvents _ _ _ := rfl
  quietOutbox _ _ := rfl
  once := List.nodup_nil
  eventKeys _ _ h := nomatch h
  bookings := empty_placed BookingRow.id _ fun _ => rfl
  outbox := empty_placed OutboxRow.id _ fun _ => rfl
  envelope _ h := nomatch h
  selected _ _ h := nomatch h

end Store

end Overbook
