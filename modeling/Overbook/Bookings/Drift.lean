import Overbook.Bookings.Integrity
import Overbook.Bookings.Linear

/-! The seat counter where nothing protects it. A naive call writes what it has computed from a row
that it read earlier, so the counter can show seats that are sold; it never hides one that is free,
and it is never negative, whatever strategies are mixed. -/
namespace Overbook

open Async Prog ReadCommitted Kafka Store

/-- What a seat row can show when `sold` seats are confirmed. -/
structure Shows (sold : Nat) (row : EventRow) : Prop where
  nonneg : 0 ≤ row.availableSeats
  capacity : row.availableSeats ≤ row.totalSeats
  free : row.totalSeats - sold ≤ row.availableSeats

def Shown (s : Store) : Prop :=
  ∀ id c, s.events id = some c → Shows (confirmedQuantity id s.bookings) c.committed

def Sizes (s s' : Store) : Prop := ∀ id c, s.events id = some c →
  ∃ c', s'.events id = some c' ∧ c'.committed.totalSeats = c.committed.totalSeats

/-- The working copy of `t` shows what is right once `quantity` more seats are confirmed. -/
def Offered (id : Uuid) (quantity : Nat) (t : Tid) (s : Store) : Prop :=
  ∃ c, s.events id = some c ∧ c.heldBy t = true ∧
    (c.view t).totalSeats = c.committed.totalSeats ∧
    Shows (confirmedQuantity id s.bookings + quantity) (c.view t)

def Offers (t : Tid) (e : Effect) (s : Store) : Prop :=
  match e with
  | .commitTx => s.active t = true → ∀ b ∈ (s.tx t).bookings, Offered b.eventId b.quantity t s
  | _ => True

variable {partition : String → String → Nat} {R : Regime} {t : Tid} {s s' : Store}
  {eventId : Uuid} {quantity : Nat}

theorem Shows.more {sold sold' : Nat} {row : EventRow} (h : Shows sold row) (le : sold ≤ sold') :
    Shows sold' row := by
  constructor
  · exact h.nonneg
  · exact h.capacity
  · have free := h.free
    omega

theorem Shows.take {sold : Nat} {row row' : EventRow} (h : Shows sold row)
    (enough : (quantity : Int) ≤ row.availableSeats) (size : row'.totalSeats = row.totalSeats)
    (left : row'.availableSeats = row.availableSeats - quantity) : Shows (sold + quantity) row' := by
  have capacity := h.capacity
  have free := h.free
  constructor
  · omega
  · omega
  · omega

theorem sold_grows (grows : Grows s s') :
    confirmedQuantity eventId s.bookings ≤ confirmedQuantity eventId s'.bookings :=
  confirmedQuantity_prefix grows.bookings

theorem Sizes.refl (s : Store) : Sizes s s := fun _ c h => ⟨c, h, rfl⟩

theorem Sizes.trans {s'' : Store} (h : Sizes s s') (h' : Sizes s' s'') : Sizes s s'' := by
  intro id c hc
  obtain ⟨c', hc', same⟩ := h id c hc
  obtain ⟨c'', hc'', same'⟩ := h' id c' hc'
  exact ⟨c'', hc'', same'.trans same⟩

theorem sizes_of_same
    (same : ∀ id, (s'.events id).map (·.committed) = (s.events id).map (·.committed)) :
    Sizes s s' := by
  intro id c row
  have eq := same id
  rw [row] at eq
  obtain ⟨c', row', committed⟩ := Option.map_eq_some_iff.mp eq
  exact ⟨c', row', congrArg _ committed⟩

theorem Shown.same (h : Shown s) (bookings : s'.bookings = s.bookings)
    (same : ∀ id, (s'.events id).map (·.committed) = (s.events id).map (·.committed)) :
    Shown s' := by
  intro id c row
  have eq := same id
  rw [row] at eq
  obtain ⟨c', row', committed⟩ := Option.map_eq_some_iff.mp eq.symm
  have shows := h id c' row'
  rwa [bookings, ← show c'.committed = c.committed from committed]

/-- A statement commits, creates an event, or leaves the committed seat rows as they are. -/
theorem touch_rows {e : Effect} {c : Choice} (touch : Touch t s e c s') :
    (e = .commitTx ∧ s.active t = true ∧ s' = s.commitTx t) ∨
      (∃ id row, e = .insertEvent row ∧ s.fresh id = true ∧
        s' = (s.issue id t).putEvent id ⟨newEvent row (s.now t), none⟩) ∨
      ∀ id, (s'.events id).map (·.committed) = (s.events id).map (·.committed) := by
  cases touch with
  | rest s' events => exact .inr (.inr fun id => by rw [events])
  | committed act => exact .inl ⟨rfl, act, rfl⟩
  | aborted => exact .inr (.inr (abort_events t s))
  | rolledBack => exact .inr (.inr (abort_events t s))
  | created id row fresh => exact .inr (.inl ⟨id, row, rfl, fresh, rfl⟩)
  | event id cell v _ row =>
    refine .inr (.inr fun id' => ?_)
    by_cases same : id' = id
    · subst same
      simp [putEvent, row]
    · simp [putEvent, Function.update_of_ne same]
  | _ => exact .inr (.inr fun _ => rfl)

/-- A COMMIT whose bookings are offered. -/
theorem commit_shown (shown : Shown s) (ready : Ready R t s) (offers : Offers t .commitTx s)
    (act : s.active t = true) : Shown (s.commitTx t) ∧ Sizes s (s.commitTx t) := by
  have committed : ∀ id c, s.events id = some c → (s.commitTx t).events id = some (c.commit t) :=
    fun id c row => by simp [commitTx, row]
  have bookings : (s.commitTx t).bookings = s.bookings ++ (s.tx t).bookings := rfl
  cases ready with
  | drain rows owns =>
    have view : ∀ id c, s.events id = some c → (c.commit t).committed = c.committed :=
      fun id c row => (Cell.commit_committed ..).trans (owns.view row)
    constructor
    · intro id c' row'
      obtain ⟨c, row, rfl⟩ := Option.map_eq_some_iff.mp row'
      rw [view id c row, bookings, owns.bookings, List.append_nil]
      exact shown id c row
    · exact fun id c row => ⟨_, committed id c row, congrArg _ (view id c row)⟩
  | book config eventId dto context b outbox allowed booking owns seats announced =>
    obtain ⟨cell, row, held, size, shows⟩ := offers act b (by simp [owns.bookings])
    have away : ∀ id c, s.events id = some c → id ≠ b.eventId → c.view t = c.committed := by
      intro id c here ne
      apply Cell.view_of_not_heldBy
      by_contra mine
      have mine : s.heldEvent t id = true := by simpa [heldEvent, here] using mine
      exact ne ((Option.some.inj (owns.events id mine)).symm.trans booking.eventId.symm)
    constructor
    · intro id c' row'
      obtain ⟨c, here, rfl⟩ := Option.map_eq_some_iff.mp row'
      rw [Cell.commit_committed, bookings, owns.bookings, confirmedQuantity_snoc]
      by_cases own : id = b.eventId
      · subst own
        cases Option.some.inj (row.symm.trans here)
        rw [if_pos ⟨rfl, booking.status⟩]
        exact shows
      · rw [if_neg fun h => own h.1.symm, away id c here own]
        exact shown id c here
    · intro id c here
      refine ⟨_, committed id c here, ?_⟩
      rw [Cell.commit_committed]
      by_cases own : id = b.eventId
      · subst own
        cases Option.some.inj (row.symm.trans here)
        exact size
      · rw [away id c here own]

theorem exec_shown {e : Effect} {c : Choice} {r : Except Err e.Answer} (wf : WF s)
    (shown : Shown s) (here : At R t e s) (offers : Offers t e s)
    (he : exec partition t s e c = some (s', r)) : Shown s' ∧ Sizes s s' := by
  have touch := exec_touch he
  rcases touch_rows touch with ⟨rfl, act, rfl⟩ | ⟨id, row, rfl, fresh, rfl⟩ | same
  · exact commit_shown shown (here act) offers act
  · have elsewhere : ∀ id' c, s.events id' = some c → id' ≠ id := by
      rintro id' c old rfl
      exact not_mem_of_fresh fresh (wf.eventKeys _ c old)
    constructor
    · intro id' c' row'
      by_cases new : id' = id
      · subst new
        have eq : c' = ⟨newEvent row (s.now t), none⟩ := by simpa [putEvent, eq_comm] using row'
        obtain ⟨full, positive⟩ := here
        rw [eq]
        constructor <;> simp only [newEvent] <;> omega
      · exact shown id' c' (by simpa [putEvent, issue, Function.update_of_ne new] using row')
    · intro id' c' old
      have ne := elsewhere id' c' old
      exact ⟨c', by simpa [putEvent, issue, Function.update_of_ne ne] using old, rfl⟩
  · rcases touch_commits touch with ⟨rfl, act, rfl⟩ | ⟨bookings, -⟩
    · exact commit_shown shown (here act) offers act
    · exact ⟨shown.same bookings same, sizes_of_same same⟩

/-- The discipline, and what the counters show. -/
def counters (R : Regime) (partition : String → String → Nat) : Layer (discipline R partition) where
  Inv := Shown
  Frame _ := Sizes
  Fresh _ _ := True
  Here := Offers
  refl _ := .refl
  trans _ _ _ _ h h' := h.trans h'
  fresh _ _ _ _ _ _ := trivial
  keeps _ _ _ _ _ _ inv shown here offers _ he :=
    ⟨exec_keeps inv here he, (exec_shown inv.wf shown here offers he).1,
      fun _ _ => (exec_shown inv.wf shown here offers he).2⟩

/-- What a part of a transaction leads to, unless it throws or Postgres ends the transaction. -/
def Leads {α : Type} (t : Tid) (P : α → Store → Prop) (r : Except Err α) (s : Store) : Prop :=
  ∀ a, r = .ok a → s.active t = true → P a s

theorem leads_error {α : Type} {P : α → Store → Prop} {x : Err} :
    Leads t P (.error x) s := fun _ other => nomatch other

/-- The rule for a statement of a transaction. -/
theorem counters_bind {β : Type} {e : Effect} {f : e.Answer → Service β} {J : Store → Prop}
    {P : β → Store → Prop} (hj : s.active t = true → J s)
    (stable : ∀ s s', J s → Frame t s s' → Sizes s s' → s'.active t = true → J s')
    (ne : e ≠ .commitTx)
    (next : ∀ s c s' a, (counters R partition).logic.Inv s → (s.active t = true → J s) →
      exec partition t s e c = some (s', .ok a) →
      (counters R partition).rest.Safe t (f a) (Leads t P) s') :
    (counters R partition).rest.Safe t (ask e >>= f) (Leads t P) s := by
  apply Logic.Safe.bind
  refine Layer.await_safe fun s₁ f₁ inv => ⟨?_, fun c s₂ r _ _ he _ => ?_⟩
  · cases e <;> trivial
  · have still : s₁.active t = true → J s₁ := by
      intro act
      have was : s.active t = true := (active_congr (f₁.1.frame.tx act)).symm.trans act
      exact stable s s₁ (hj was) f₁.1.frame f₁.2 act
    cases r with
    | ok a => exact next s₁ c s₂ a inv still he
    | error x => exact leads_error

/-- What a decrement leaves in the open transaction. -/
def Taking (eventId : Uuid) (quantity : Nat) (t : Tid) (s : Store) : Prop :=
  Owns t [] [] (some eventId) [] s ∧ Offered eventId quantity t s

theorem offered_stable : Stable t (Offered eventId quantity t) := by
  rintro s s' ⟨c, row, held, size, shows⟩ f act
  have mine : s.heldEvent t eventId = true := by simp [heldEvent, row, held]
  exact ⟨c, (f.events act eventId (.inl mine)).trans row, held, size,
    shows.more (Nat.add_le_add_right (sold_grows f.grows) quantity)⟩

/-- A row that was read earlier still shows at least the seats that are free. -/
def Read (eventId : Uuid) (event : EventRow) (s : Store) : Prop := ∃ c, s.events eventId = some c ∧
  event.totalSeats = c.committed.totalSeats ∧ Shows (confirmedQuantity eventId s.bookings) event

theorem read_stable {event : EventRow} (h : Read eventId event s) (f : Frame t s s')
    (sizes : Sizes s s') : Read eventId event s' := by
  obtain ⟨c, row, size, shows⟩ := h
  obtain ⟨c', row', same⟩ := sizes eventId c row
  exact ⟨c', row', size.trans same.symm, shows.more (sold_grows f.grows)⟩

theorem read_now {c : Cell EventRow} (shown : Shown s) (row : s.events eventId = some c) :
    Read eventId c.committed s := ⟨c, row, rfl, shown eventId c row⟩

theorem naive_takes (clean : s.active t = true → Clean t s) :
    (counters R partition).rest.Safe t (decrementNaive eventId quantity)
      (Leads t fun _ => Taking eventId quantity t) s := by
  unfold decrementNaive
  refine counters_bind clean (fun s s' h f _ => owns_stable s s' h f) (by simp) ?_
  intro s₁ c s₂ row inv clean he
  obtain ⟨rfl, rfl⟩ := findEvent_ok he
  refine Logic.Safe.check (fun event passed => ?_) fun _ _ => leads_error
  obtain ⟨found, enough⟩ := seatsFor_ok passed
  obtain ⟨cell, row, rfl⟩ := Option.map_eq_some_iff.mp found
  have read : Read eventId (cell.view t) s₂ := by
    rw [clean_view inv.1.wf clean row]
    exact read_now inv.2 row
  refine counters_bind (J := fun s => Clean t s ∧ Read eventId (cell.view t) s)
    (fun act => ⟨clean act, read⟩)
    (fun s s' h f sizes act => ⟨owns_stable s s' h.1 f act, read_stable h.2 f sizes⟩) (by simp) ?_
  intro s₃ c s₄ affected inv kept he
  obtain ⟨act, change⟩ := updateEvent_ok he
  obtain ⟨owns, c₃, row₃, size, shows⟩ := kept act
  obtain ⟨-, -, missed⟩ | ⟨c₄, row₄, -, -, rfl, -⟩ := change
  · cases missed c₃ row₃
  · cases Option.some.inj (row₃.symm.trans row₄)
    have view := owns.view row₃
    refine fun _ _ _ => ⟨(owns.weaken _).putEvent _, _, by simp [putEvent]; rfl, by simp, ?_, ?_⟩
    · simp [EventPatch.apply, view]
    · exact shows.take enough (by simp [EventPatch.apply, view, size]) (by simp [EventPatch.apply])

theorem pessimistic_takes (clean : s.active t = true → Clean t s) :
    (counters R partition).rest.Safe t (decrementPessimistic eventId quantity)
      (Leads t fun _ => Taking eventId quantity t) s := by
  unfold decrementPessimistic
  refine counters_bind clean (fun s s' h f _ => owns_stable s s' h f) (by simp) ?_
  intro s₁ c s₂ row inv clean he
  obtain ⟨act, found⟩ := findEventForUpdate_ok he
  refine Logic.Safe.check (fun event passed => ?_) fun _ _ => leads_error
  obtain ⟨rfl, enough⟩ := seatsFor_ok passed
  obtain ⟨-, -, none⟩ | ⟨cell, row, free, rfl, same⟩ := found
  · cases none
  cases Option.some.inj same
  have owns := clean act
  have seen : cell.view t = cell.committed := owns.view row
  have read := read_now inv.2 row
  -- from here on the lock keeps the row as it was read
  refine counters_bind (J := fun s => (Owns t [] [] (some eventId) [] s ∧
      ∃ c, s.events eventId = some c ∧ c.heldBy t = true ∧
        (c.view t = cell.committed ∧ c.committed = cell.committed)) ∧
      Shows (confirmedQuantity eventId s.bookings) cell.committed)
    (fun _ => ⟨⟨(owns.weaken _).putEvent _, cell.lock t, by simp [putEvent], by simp,
      by simp [seen], by simp⟩, inv.2 eventId cell row⟩)
    (fun s s' h f _ act => ⟨owns_stable.and cell_stable s s' h.1 f act,
      h.2.more (sold_grows f.grows)⟩) (by simp) ?_
  intro s₃ c s₄ affected inv kept he
  obtain ⟨act, change⟩ := updateEvent_ok he
  obtain ⟨⟨owns, c₃, row₃, held, view, size⟩, shows⟩ := kept act
  obtain ⟨-, -, missed⟩ | ⟨c₄, row₄, -, -, rfl, -⟩ := change
  · cases missed c₃ row₃
  · cases Option.some.inj (row₃.symm.trans row₄)
    rw [seen] at enough
    refine fun _ _ _ => ⟨owns.putEvent _, _, by simp [putEvent]; rfl, by simp, ?_, ?_⟩
    · simp [EventPatch.apply, view, size]
    · exact shows.take enough (by simp [EventPatch.apply, view]) (by simp [EventPatch.apply, seen])

theorem optimistic_takes {rounds : Nat} (clean : s.active t = true → Clean t s) :
    (counters R partition).rest.Safe t (optimisticRounds eventId quantity rounds)
      (Leads t fun _ => Taking eventId quantity t) s := by
  induction rounds generalizing s with
  | zero => exact leads_error
  | succ rounds ih =>
    unfold optimisticRounds
    refine counters_bind clean (fun s s' h f _ => owns_stable s s' h f) (by simp) ?_
    intro s₁ c s₂ row inv clean he
    obtain ⟨rfl, -⟩ := findEvent_ok he
    refine Logic.Safe.check (fun event _ => ?_) fun _ _ => leads_error
    refine counters_bind clean (fun s s' h f _ => owns_stable s s' h f) (by simp) ?_
    intro s₃ c s₄ affected inv clean he
    obtain ⟨act, ⟨rfl, rfl, -⟩ | ⟨cell, row, -, matched, rfl, rfl⟩⟩ := updateEvent_ok he
    · exact ih clean
    · have owns := clean act
      have view := owns.view row
      simp only [unchanged, Bool.and_eq_true, decide_eq_true_eq, view] at matched
      refine fun _ _ _ => ⟨(owns.weaken _).putEvent _, _, by simp [putEvent]; rfl, by simp, ?_, ?_⟩
      · simp [EventPatch.apply, view]
      · refine (inv.2 eventId cell row).take matched.2 ?_ ?_ <;> simp [EventPatch.apply, view]

theorem decrement_takes {config : BookingConfig} (clean : s.active t = true → Clean t s) :
    (counters R partition).rest.Safe t (decrement config eventId quantity)
      (Leads t fun _ => Taking eventId quantity t) s := by
  unfold decrement
  cases config.lockStrategy with
  | none => exact naive_takes clean
  | pessimistic => exact pessimistic_takes clean
  | optimistic => exact optimistic_takes clean

/-- The bookings that `t` is about to commit. -/
def Selling (t : Tid) (s : Store) : Prop :=
  ∀ b ∈ (s.tx t).bookings, Offered b.eventId b.quantity t s

theorem selling_stable : Stable t (Selling t) := by
  intro s s' h f act b hb
  rw [f.tx act] at hb
  exact offered_stable s s' (h b hb) f act

variable {config : AppConfiguration} {dto : CreateBookingDto} {context : BookingContext}

theorem bookInTransaction_sells (clean : s.active t = true → Clean t s) :
    (counters R partition).rest.Safe t (bookInTransaction config eventId dto context)
      (Leads t fun _ => Selling t) s := by
  unfold bookInTransaction
  apply Logic.Safe.bind
  refine (decrement_takes clean).mono fun r s₁ taking => ?_
  cases r with
  | error x => exact leads_error
  | ok result =>
    refine counters_bind (J := Taking eventId dto.quantity t) (taking result rfl)
      (fun s s' h f _ => owns_stable.and offered_stable s s' h f) nofun ?_
    intro s₂ c s₃ b _ taking he
    obtain ⟨act, -, row, rfl⟩ := insertBooking_ok he
    have selling : Selling t ((s₂.issue b.id t).setTx t
        { s₂.tx t with bookings := (s₂.tx t).bookings ++ [b] }) := by
      intro b' mine
      obtain ⟨owns, offered⟩ := taking act
      rw [setTx_self, owns.bookings] at mine
      cases List.mem_singleton.mp mine
      rw [row]
      exact offered
    apply Logic.Safe.bind
    unfold runIf
    split
    · apply Logic.Safe.bind
      refine Logic.Safe.mono (?_ : (counters R partition).rest.Safe t (enqueue _)
        (Leads t fun _ => Selling t) _) fun r s₄ h => ?_
      · unfold enqueue
        refine counters_bind (fun _ => selling) (fun s s' h f _ => selling_stable s s' h f) nofun ?_
        intro s₄ c s₅ now _ selling he
        cases dateNow_ok he
        refine Layer.await_safe fun s₅ f₅ inv => ⟨trivial, fun c s₆ r _ _ he _ => ?_⟩
        cases r with
        | error x => exact leads_error
        | ok m =>
          obtain ⟨act, -, -, rfl⟩ := insertOutbox_ok he
          have was : s₄.active t = true := (active_congr (f₅.1.frame.tx act)).symm.trans act
          have before := selling_stable s₄ s₅ (selling was) f₅.1.frame act
          intro _ _ _ b' mine
          rw [setTx_self] at mine
          exact before b' mine
      · cases r with
        | error x => exact leads_error
        | ok m => exact fun _ _ act => h m rfl act
    · exact fun _ _ _ => selling

theorem counters_plain {α : Type} {p : Service α} (only : p.Only (· ≠ .commitTx)) :
    (counters R partition).rest.Safe t p (fun _ _ => True) s := by
  refine Layer.only_safe (J := fun _ => True) only (fun _ _ _ _ _ => trivial) (fun e he s _ => ?_)
    (fun _ _ _ _ _ _ _ _ _ _ _ => trivial) trivial
  cases e <;> trivial

/-- The rule for a transaction. -/
theorem transaction_sells {α : Type} {run : Service α}
    (body : ∀ s, (s.active t = true → Clean t s) →
      (counters R partition).rest.Safe t run (Leads t fun _ => Selling t) s) :
    (counters R partition).rest.Safe t (transaction run) (fun _ _ => True) s := by
  unfold transaction
  apply Logic.Safe.handle
  suffices whole : (counters R partition).rest.Safe t
      (do ask .beginTx; let result ← run; ask .commitTx; pure result : Service α)
      (fun _ _ => True) s by
    refine whole.mono fun r s' _ => ?_
    cases r with
    | ok a => trivial
    | error x =>
      exact counters_plain (only_bind (only_handle (by simp) fun _ => trivial) fun _ => trivial)
  apply Logic.Safe.bind
  refine Layer.await_safe fun s₁ f₁ inv => ⟨trivial, fun c s₂ r _ _ he _ => ?_⟩
  cases r with
  | error x => trivial
  | ok u =>
    apply Logic.Safe.bind
    refine (body s₂ fun _ => (begin_clean inv.1.wf he).2).mono fun r s₃ selling => ?_
    cases r with
    | error x => trivial
    | ok a =>
      apply Logic.Safe.bind
      refine Layer.await_safe fun s₄ f₄ inv => ⟨fun act => ?_, fun c s₅ r _ _ _ _ => ?_⟩
      · have was : s₃.active t = true := (active_congr (f₄.1.frame.tx act)).symm.trans act
        exact selling_stable s₃ s₄ (selling a rfl was) f₄.1.frame act
      · cases r <;> trivial

theorem integrity_uncommitted : (integrity eventId).Only (· ≠ Effect.commitTx) :=
  only_mono (fun e neutral same => by subst same; exact neutral) integrity_neutral

theorem afterCommit_uncommitted {b : BookingRow} {result : Decremented} :
    (afterCommit config eventId context b result).Only (· ≠ Effect.commitTx) := by
  unfold afterCommit
  refine only_bind (by simp) fun _ => ?_
  refine only_bind (only_handle (by simp) fun _ => trivial) fun _ => ?_
  refine only_bind (only_runIf (only_bind integrity_uncommitted fun _ => only_runIf (by simp)))
    fun _ => ?_
  refine only_bind (only_runIf (by simp)) fun _ => ?_
  refine only_bind (only_runIf (only_handle ?_ fun _ => trivial)) fun _ => trivial
  simp [publish, publishBatch, send]

theorem book_sells : (counters R partition).rest.Safe t (book config eventId dto context)
    (fun _ _ => True) s := by
  have last : ∀ (x : Err) s, (counters R partition).rest.Safe t
      (do ask (.bookingsTotal x.bookingResult config.booking.lockStrategy); throw x :
        Service BookingResponse) (fun _ _ => True) s :=
    fun x s => counters_plain (only_bind (by simp) fun _ => trivial)
  unfold book
  apply Logic.Safe.handle
  apply Logic.Safe.bind
  refine (transaction_sells fun s => bookInTransaction_sells).mono fun r s₁ _ => ?_
  cases r with
  | error x => exact last x s₁
  | ok a =>
    refine (counters_plain afterCommit_uncommitted).mono fun r s₂ _ => ?_
    cases r with
    | ok response => trivial
    | error x => exact last x s₂

theorem drain_sells {config : OutboxConfig} {replica : Replica} :
    (counters R partition).rest.Safe t (drainOnce config replica) (fun _ _ => True) s := by
  have body : ∀ s, (s.active t = true → Clean t s) → (counters R partition).rest.Safe t
      (drainBatch config) (Leads t fun _ => Selling t) s := by
    intro s clean
    refine (Layer.only_safe (J := Blank t) drainBatch_drains ?_ ?_ ?_
      fun act => (clean act).bookings).mono fun r s' blank => ?_
    · intro s s' h f _ act
      rw [f.1.frame.tx act]
      exact h ((active_congr (f.1.frame.tx act)).symm.trans act)
    · intro e he s _
      cases e with
      | commitTx => exact he.elim
      | _ => trivial
    · exact fun e he s _ h c s' r _ _ hx => blank_step h he hx
    · intro _ _ act b hb
      rw [blank act] at hb
      cases hb
  unfold drainOnce
  apply Logic.Safe.bind
  refine Layer.await_safe fun s₁ f₁ inv => ⟨trivial, fun c s₂ r _ _ he _ => ?_⟩
  cases r with
  | error x => trivial
  | ok running =>
    cases running with
    | true => trivial
    | false =>
      apply Logic.Safe.ensure
      refine (transaction_sells body).mono fun r s₃ _ => ?_
      refine (counters_plain (by simp)).mono fun u s₄ _ => ?_
      cases u <;> trivial

/-- All four operations keep the counters, whatever strategies are mixed. -/
theorem counters_verified (R : Regime) (partition : String → String → Nat) :
    Logic.Verified (counters R partition).logic R.Ok (fun _ _ _ _ => True ∧ True) := by
  refine Layer.verified (Q := fun _ _ _ _ => True) (api_verified R partition) ?_ ?_ ?_
  · intro p t j ok inv fresh
    cases j with
    | create dto => exact counters_plain (only_bind (by simp [create]) fun _ => trivial)
    | book config eventId dto context =>
      apply Logic.Safe.bind
      exact book_sells.mono fun r s _ => by cases r <;> trivial
    | integrity eventId => exact counters_plain (only_bind integrity_uncommitted fun _ => trivial)
    | drainOnce config replica =>
      apply Logic.Safe.bind
      exact drain_sells.mono fun r s _ => by cases r <;> trivial
  · exact fun t j r s inv _ _ => ⟨inv.2, fun _ _ => .refl s⟩
  · intro p x s' _ inv h
    cases x with
    | tick d =>
      cases Option.some.inj h
      exact ⟨inv.2.same rfl fun _ => rfl, fun _ => sizes_of_same fun _ => rfl⟩
    | abortTx t' =>
      cases Option.some.inj h
      have same := abort_events t' p.shared
      exact ⟨inv.2.same (abort_tables t' p.shared).1 same, fun _ => sizes_of_same same⟩

theorem counters_sound {p : ApiPool} (run : (api partition).Reach R.Ok migrated p) :
    Logic.Sound (counters R partition).logic (fun _ _ _ _ => True ∧ True) p := by
  refine Logic.reach_sound (counters_verified R partition) (Logic.initial_sound ?_ fun t => ?_) run
  · exact ⟨empty_consistent, fun _ _ h => nomatch h⟩
  · exact ⟨⟨rfl, fun _ h => nomatch h⟩, trivial⟩

theorem shown {p : ApiPool} (run : (api partition).Reach R.Ok migrated p) : Shown p.shared :=
  (counters_sound run).inv.2

theorem sizes_kept {p q : ApiPool} (run : (api partition).Reach R.Ok migrated p)
    (later : (api partition).Reach R.Ok p q) : Sizes p.shared q.shared := by
  induction later with
  | refl => exact .refl p.shared
  | @step q q' a before ok st ih =>
    refine ih.trans ?_
    have verified := counters_verified R partition
    rcases Logic.sound_advance verified (counters_sound (run.trans before)) ok
      (Machine.steps_of_step st) with ⟨t, j, s, b, rfl, keeps, safe⟩ | ⟨t, j, rfl, -⟩ | ⟨s, rfl, -, frame⟩
    · exact ((Logic.settle_keeps verified keeps safe).2 (t + 1) (Nat.succ_ne_self t)).2
    · exact .refl q.shared
    · exact (frame 0).2

/-- The counter lies in one direction only: it is never negative, and never below the seats that are
free, whatever strategies the calls use. -/
theorem counter_one_sided (partition : String → String → Nat) (R : Regime) (p : ApiPool)
    (run : (api partition).Reach R.Ok migrated p) (eventId : Uuid) (c : Cell EventRow)
    (row : p.shared.events eventId = some c) :
    0 ≤ c.committed.availableSeats ∧ c.committed.availableSeats ≤ c.committed.totalSeats ∧
      c.committed.totalSeats - confirmedQuantity eventId p.shared.bookings ≤
        c.committed.availableSeats := by
  have shows := shown run eventId c row
  exact ⟨shows.nonneg, shows.capacity, shows.free⟩

/- Two calls read that one seat is left, and both sell it. -/
def soldTwice : List (Act Job Choice Ext) :=
  [.start 0 (.create (.checked "show" "hall" 1 0 "2026-12-01T12:00:00Z" passed)),
    .step 0 (.uuid "e"), .start 1 (.book unlocked "e" oneSeat {}),
    .start 2 (.book unlocked "e" oneSeat {}), .step 1 .ok, .step 1 .ok, .step 2 .ok, .step 2 .ok,
    .step 1 .ok, .step 1 (.uuid "b"), .step 1 (.time 0), .step 1 (.uuid "m"), .step 1 .ok,
    .step 2 .ok, .step 2 (.uuid "c"), .step 2 (.time 0), .step 2 (.uuid "n"), .step 2 .ok]

theorem counter_one_sided_twice : ∃ (p : ApiPool) (c : Cell EventRow),
    p.shared.events "e" = some c ∧ c.committed.totalSeats = 1 ∧
      confirmedQuantity "e" p.shared.bookings = 2 ∧
      0 ≤ c.committed.availableSeats ∧ c.committed.availableSeats ≤ c.committed.totalSeats ∧
      c.committed.totalSeats - confirmedQuantity "e" p.shared.bookings ≤
        c.committed.availableSeats := by
  have replay : (((api fun _ _ => 0).run migrated soldTwice).map fun p =>
      ((p.shared.events "e").map (·.committed.totalSeats),
        confirmedQuantity "e" p.shared.bookings)) = some (some 1, 2) := by decide +kernel
  obtain ⟨p, hp, seen⟩ := Option.map_eq_some_iff.mp replay
  obtain ⟨event, sold⟩ := Prod.mk.inj seen
  obtain ⟨c, row, size⟩ := Option.map_eq_some_iff.mp event
  have run : (api fun _ _ => 0).Reach (Regime.any fun _ => True).Ok migrated p :=
    any_run hp fun _ _ _ => trivial
  exact ⟨p, c, row, size, sold, counter_one_sided (fun _ _ => 0) _ p run "e" c row⟩

/-! What a report tells. -/

/- Outside a transaction, the row that is committed is read. -/
theorem read_idle {first last : List ApiEntry} {event : EventRow} {p : ApiPool}
    (run : (api partition).History R.Ok migrated
      (first ++ ⟨t, .findEvent eventId, .ok (some event), s, s'⟩ :: last) p)
    (idle : s.active t = false) :
    s' = s ∧ ∃ cell, s.events eventId = some cell ∧ cell.committed = event := by
  obtain ⟨inv, -, c, read⟩ := entry_step run
  dsimp only at read
  obtain ⟨same, row⟩ := findEvent_ok read
  obtain ⟨cell, here, view⟩ := Option.map_eq_some_iff.mp row.symm
  have free : s.heldEvent t eventId = false := inv.wf.quietEvents t idle eventId
  rw [Cell.view_of_not_heldBy (by simpa [heldEvent, here] using free)] at view
  exact ⟨same, cell, here, view⟩

/-- What two reads have to do with the bookings: those of the state in which the row was read, those
of the state in which the sum was, and those of a later state. -/
structure Heard (eventId : Uuid) (event : EventRow) (n : Nat) (read sum now : Store) : Prop where
  shows : Shows n event
  least : confirmedQuantity eventId read.bookings ≤ n
  exact : n = confirmedQuantity eventId sum.bookings
  most : n ≤ confirmedQuantity eventId now.bookings
  size : ∃ c, now.events eventId = some c ∧ c.committed.totalSeats = event.totalSeats

theorem heard {p : ApiPool} {entries : List ApiEntry} {before after : List Exchange}
    {event : EventRow} {n : Nat} (run : (api partition).History R.Ok migrated entries p)
    (split : eventsOf t entries = before ++ ⟨.findEvent eventId, .ok (some event)⟩ ::
      ⟨.sumConfirmed eventId, .ok n⟩ :: after)
    (idle : ∀ first r, (api partition).History R.Ok migrated first r → eventsOf t first = before →
      r.shared.active t = false) :
    ∃ first x between y last, entries = first ++ x :: (between ++ y :: last) ∧
      eventsOf t first = before ∧ x.task = t ∧ x.effect = .findEvent eventId ∧ y.task = t ∧
      y.effect = .sumConfirmed eventId ∧ Heard eventId event n x.before y.before p.shared := by
  obtain ⟨first, ⟨_, _, _, s₁, s₁'⟩, tail, rfl, rfl, found, earlier, one⟩ := eventsOf_split split
  obtain ⟨between, ⟨_, _, _, s₂, s₂'⟩, last, rfl, rfl, summed, -, -⟩ :=
    eventsOf_split (show eventsOf _ tail = [] ++ _ :: _ from one)
  cases found
  cases summed
  refine ⟨first, _, between, _, last, rfl, earlier, rfl, rfl, rfl, rfl, ?_⟩
  dsimp only at run earlier ⊢
  obtain ⟨r, start, was, later⟩ := run.since
  dsimp only at was
  subst was
  obtain ⟨rfl, cell, row, rfl⟩ := read_idle run (idle first r start earlier)
  obtain ⟨c, row', size⟩ := sizes_kept start.reach later eventId cell row
  rw [← List.cons_append, ← List.append_assoc] at run
  obtain ⟨-, -, c', sum⟩ := entry_step run
  obtain ⟨r', middle, was, rest⟩ := run.since
  dsimp only at sum was
  subst was
  have total := sumConfirmed_ok sum
  obtain ⟨r'', before, was, onward⟩ := middle.since
  dsimp only at was
  have least : confirmedQuantity eventId r.shared.bookings ≤ n := by
    rw [total, ← was]
    exact sold_grows (api_grows before.reach onward)
  constructor
  · exact (shown start.reach eventId cell row).more least
  · exact least
  · exact total
  · rw [total]
    exact sold_grows (api_grows middle.reach rest)
  · exact ⟨c, row', size⟩

def oversoldOf : Slot Job Effect Effect.Answer Err Response → Option (Uuid × Int)
  | .ended (.integrity eventId) (.ok (.integrity report)) => some (eventId, report.oversoldBy)
  | _ => none

theorem oversoldOf_some {slot : Slot Job Effect Effect.Answer Err Response} {n : Int}
    (h : oversoldOf slot = some (eventId, n)) : ∃ report,
      slot = .ended (.integrity eventId) (.ok (.integrity report)) ∧ report.oversoldBy = n := by
  unfold oversoldOf at h
  split at h
  · cases h
    exact ⟨_, rfl, rfl⟩
  · cases h

/-- What a report says of the state in which it reads the row, of the one in which it reads the sum,
and of a later one. -/
structure Audited (eventId : Uuid) (report : SeatIntegrity) (read sum now : Store) : Prop where
  counter : 0 ≤ report.availableSeats ∧ report.availableSeats ≤ report.totalSeats ∧
    report.totalSeats - report.confirmedSeats ≤ report.availableSeats
  least : confirmedQuantity eventId read.bookings ≤ report.confirmedSeats
  oversold : ∃ c, now.events eventId = some c ∧ report.oversoldBy =
    max 0 ((confirmedQuantity eventId sum.bookings : Int) - c.committed.totalSeats)
  most : report.confirmedSeats ≤ confirmedQuantity eventId now.bookings
  drift : 0 < report.oversoldBy → report.counterDrift = true

/-- Whatever strategies are mixed: no report misses an oversell that was there when it began, invents
one, or shows one without the drift. -/
theorem oversell_never_missed (partition : String → String → Nat) (R : Regime)
    (entries : List ApiEntry) (p : ApiPool)
    (run : (api partition).History R.Ok migrated entries p) (t : Tid) (eventId : Uuid)
    (report : SeatIntegrity)
    (ended : p.slot t = .ended (.integrity eventId) (.ok (.integrity report))) :
    ∃ first x between y last, entries = first ++ x :: (between ++ y :: last) ∧
      x.task = t ∧ x.effect = .findEvent eventId ∧ y.task = t ∧ y.effect = .sumConfirmed eventId ∧
      Audited eventId report x.before y.before p.shared := by
  obtain ⟨event, n, events, rfl⟩ := runs_report (run.runs ended)
  have split : eventsOf t entries = [] ++ ⟨.findEvent eventId, .ok (some event)⟩ ::
      ⟨.sumConfirmed eventId, .ok n⟩ :: [] := events
  obtain ⟨first, x, between, y, last, whole, -, reader, read, adder, sum, heard⟩ :=
    heard run split fun first r start none => unanswered_idle start none
  obtain ⟨c, row, size⟩ := heard.size
  refine ⟨first, x, between, y, last, whole, reader, read, adder, sum, ?_⟩
  have counter := heard.shows
  constructor
  · exact ⟨counter.nonneg, counter.capacity, counter.free⟩
  · exact heard.least
  · exact ⟨c, row, by rw [size, ← heard.exact]⟩
  · exact heard.most
  · intro oversold
    have nonneg := counter.nonneg
    rw [bne_iff_ne]
    dsimp only at oversold ⊢
    omega

/- After the two sales, a report. -/
theorem oversell_never_missed_twice : ∃ (entries : List ApiEntry) (p : ApiPool)
    (report : SeatIntegrity), (api fun _ _ => 0).History (Regime.any fun _ => True).Ok migrated entries p ∧
    report.oversoldBy = 1 ∧
    ∃ first x between y last, entries = first ++ x :: (between ++ y :: last) ∧
      x.task = 3 ∧ x.effect = .findEvent "e" ∧ y.task = 3 ∧ y.effect = .sumConfirmed "e" ∧
      Audited "e" report x.before y.before p.shared := by
  have replay : (((api fun _ _ => 0).run migrated
      (soldTwice ++ [.start 3 (.integrity "e"), .step 3 .ok, .step 3 .ok])).map fun p =>
        oversoldOf (p.slot 3)) = some (some ("e", 1)) := by decide +kernel
  obtain ⟨p, hp, seen⟩ := Option.map_eq_some_iff.mp replay
  obtain ⟨report, ended, oversold⟩ := oversoldOf_some seen
  have run : (api fun _ _ => 0).Reach (Regime.any fun _ => True).Ok migrated p :=
    any_run hp fun _ _ _ => trivial
  obtain ⟨entries, history⟩ := Machine.History.of_reach run
  exact ⟨entries, p, report, history, oversold,
    oversell_never_missed (fun _ _ => 0) _ entries p history 3 "e" report ended⟩

end Overbook
