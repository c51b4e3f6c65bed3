import Overbook.Async.Layer
import Overbook.Bookings.Seats

/-! What book calls answer under the two safe strategies. A sale reports the seats that are left
after its own booking, and a refusal saw too few seats, which no later booking can add. -/
namespace Overbook

open Async Prog ReadCommitted Kafka Store GeneratedKeys

def bookCall (eventId : Uuid) : Job → Option Nat
  | .book _ e dto _ => if e = eventId then some dto.quantity else none
  | _ => none

def soldOut : Err := .conflict "Sold out"

def Unbooked (t : Tid) (s : Store) : Prop := ∀ b ∈ s.bookings, (b.id, t) ∉ s.issued

/-- The tables grow, and events keep their size. -/
structure Lasts (s s' : Store) : Prop where
  grows : Grows s s'
  totals : ∀ id c, s.events id = some c → ∃ c', s'.events id = some c' ∧
    c'.committed.totalSeats = c.committed.totalSeats

/-- A booking of `t` is committed, and `remaining` seats were left right after it. -/
def Sold (eventId : Uuid) (quantity : Nat) (t : Tid) (remaining : Int) (s : Store) : Prop :=
  ∃ c before b, s.events eventId = some c ∧ before ++ [b] <+: s.bookings ∧ (b.id, t) ∈ s.issued ∧
    b.eventId = eventId ∧ b.quantity = quantity ∧
    remaining = c.committed.totalSeats - confirmedQuantity eventId (before ++ [b])

/-- Fewer than `quantity` seats are left. -/
def Short (eventId : Uuid) (quantity : Nat) (s : Store) : Prop := ∃ c, s.events eventId = some c ∧
  c.committed.totalSeats - confirmedQuantity eventId s.bookings < (quantity : Int)

def Told (t : Tid) : Job → Except Err Response → Store → Prop
  | .book _ eventId dto _, .ok (.booked response), s =>
    Sold eventId dto.quantity t response.seatsRemaining s
  | .book _ eventId dto _, .error x, s => x = soldOut → Short eventId dto.quantity s ∧ Unbooked t s
  | _, _, _ => True

/- At a COMMIT, the first one of `t`, its booking is the one that its call asked for; the cache is
told of a booking that is committed. -/
def Posts (jobs : Tid → Option Job) (t : Tid) (e : Effect) (s : Store) : Prop :=
  match e with
  | .commitTx => Unbooked t s ∧ (s.active t = true → ∀ b ∈ (s.tx t).bookings,
      ∃ j, jobs t = some j ∧ bookCall b.eventId j = some b.quantity)
  | .delCache id => ∃ quantity remaining, Sold id quantity t remaining s
  | _ => True

def Effect.plain : Effect → Prop
  | .commitTx => False
  | .delCache _ => False
  | _ => True

variable {partition : String → String → Nat} {t : Tid} {s s' : Store}

theorem Lasts.refl (s : Store) : Lasts s s := ⟨.refl s, fun _ c h => ⟨c, h, rfl⟩⟩

theorem Lasts.trans {s s' s'' : Store} (h : Lasts s s') (h' : Lasts s' s'') : Lasts s s'' := by
  refine ⟨h.grows.trans h'.grows, fun id c hc => ?_⟩
  obtain ⟨c', hc', same⟩ := h.totals id c hc
  obtain ⟨c'', hc'', same'⟩ := h'.totals id c' hc'
  exact ⟨c'', hc'', same'.trans same⟩

theorem confirmedQuantity_prefix {eventId : Uuid} {before bookings : List BookingRow}
    (h : before <+: bookings) :
    confirmedQuantity eventId before ≤ confirmedQuantity eventId bookings := by
  obtain ⟨rest, rfl⟩ := h
  simp [confirmedQuantity, List.filter_append]

theorem Sold.lasts {eventId : Uuid} {quantity : Nat} {remaining : Int}
    (h : Sold eventId quantity t remaining s) (l : Lasts s s') :
    Sold eventId quantity t remaining s' := by
  obtain ⟨c, before, b, row, sold, issued, event, size, left⟩ := h
  obtain ⟨c', row', same⟩ := l.totals eventId c row
  exact ⟨c', before, b, row', sold.trans l.grows.bookings, l.grows.issued.subset issued, event,
    size, by rw [same]; exact left⟩

theorem Short.lasts {eventId : Uuid} {quantity : Nat} (h : Short eventId quantity s)
    (l : Lasts s s') : Short eventId quantity s' := by
  obtain ⟨c, row, less⟩ := h
  obtain ⟨c', row', same⟩ := l.totals eventId c row
  refine ⟨c', row', ?_⟩
  have more : confirmedQuantity eventId s.bookings ≤ confirmedQuantity eventId s'.bookings :=
    confirmedQuantity_prefix l.grows.bookings
  rw [same]
  omega

theorem commit_totals (here : Ready locking t s) (id : Uuid) (c : Cell EventRow)
    (row : s.events id = some c) : (c.view t).totalSeats = c.committed.totalSeats := by
  cases held : c.heldBy t with
  | false => rw [Cell.view_of_not_heldBy held]
  | true =>
    have mine : s.heldEvent t id = true := by simp [heldEvent, row, held]
    cases here with
    | book config eventId dto context b outbox allowed booking owns seats =>
      cases Option.some.inj (owns.events id mine)
      obtain ⟨cell, row', -, view, -⟩ := seats allowed
      cases Option.some.inj (row.symm.trans row')
      rw [view]
      rfl
    | drain rows owns => cases owns.events id mine

theorem exec_lasts {e : Effect} {c : Choice} {r : Except Err e.Answer} (wf : WF s)
    (here : At locking t e s) (h : exec partition t s e c = some (s', r)) : Lasts s s' := by
  have touch := exec_touch h
  refine ⟨touch_grows wf touch, ?_⟩
  have abort : ∀ id c, s.events id = some c → ∃ c', (s.abort t).events id = some c' ∧
      c'.committed.totalSeats = c.committed.totalSeats := by
    intro id c row
    have same := abort_events t s id
    rw [row] at same
    obtain ⟨c', row', eq⟩ := Option.map_eq_some_iff.mp same
    exact ⟨c', row', congrArg _ eq⟩
  cases touch with
  | rest s' events => intro id c row; exact ⟨c, by rw [events]; exact row, rfl⟩
  | committed act =>
    intro id c row
    refine ⟨c.commit t, by simp [commitTx, row], ?_⟩
    rw [Cell.commit_committed]
    exact commit_totals (here act) id c row
  | aborted => exact abort
  | rolledBack => exact abort
  | created id row fresh =>
    intro id' c old
    have ne : id' ≠ id := by
      rintro rfl
      exact not_mem_of_fresh fresh (wf.eventKeys _ c old)
    exact ⟨c, by simpa [putEvent, issue, Function.update_of_ne ne] using old, rfl⟩
  | event id cell v _ row =>
    intro id' c old
    by_cases same : id' = id
    · subst same
      cases Option.some.inj (row.symm.trans old)
      exact ⟨cell.write t v, by simp [putEvent], rfl⟩
    · exact ⟨c, by simpa [putEvent, Function.update_of_ne same] using old, rfl⟩
  | _ => exact fun id c row => ⟨c, row, rfl⟩

theorem unbooked_step {e : Effect} {c : Choice} {r : Except Err e.Answer} (wf : WF s)
    (h : Unbooked t s) (ne : e ≠ .commitTx) (he : exec partition t s e c = some (s', r)) :
    Unbooked t s' := by
  have touch := exec_touch he
  have bookings : s'.bookings = s.bookings := by
    rcases touch_commits touch with ⟨commit, -⟩ | ⟨same, -⟩
    · exact absurd commit ne
    · exact same
  have issue : ∀ id, s.fresh id = true → ∀ b ∈ s.bookings, (b.id, t) ∉ (id, t) :: s.issued := by
    intro id fresh b hb mem
    rcases List.mem_cons.mp mem with eq | mem
    · cases (congrArg Prod.fst eq : b.id = id)
      exact not_mem_of_fresh fresh (wf.bookings.known b.id (List.mem_map_of_mem hb))
    · exact h b hb mem
  unfold Unbooked
  rw [bookings]
  have abort : ∀ b ∈ s.bookings, (b.id, t) ∉ (s.abort t).issued := by
    unfold Store.abort
    split <;> exact h
  cases touch with
  | rest s' _ _ _ _ issued => rw [issued]; exact h
  | aborted => exact abort
  | rolledBack => exact abort
  | created id row fresh => exact issue id fresh
  | booking row b act fresh => exact issue b.id fresh
  | message row m act fresh => exact issue m.id fresh
  | _ => exact h

/-- What the calls of others leave to `t`: its ids are its own, and so are its bookings. -/
structure Spared (t : Tid) (s s' : Store) : Prop where
  lasts : Lasts s s'
  mine : ∀ x, (x, t) ∈ s'.issued → (x, t) ∈ s.issued
  bookings : ∀ b ∈ s'.bookings, b ∈ s.bookings ∨ (b.id, t) ∉ s'.issued

theorem Spared.trans {s s' s'' : Store} (h : Spared t s s') (h' : Spared t s' s'') :
    Spared t s s'' := by
  refine ⟨h.lasts.trans h'.lasts, fun x hx => h.mine x (h'.mine x hx), fun b hb => ?_⟩
  rcases h'.bookings b hb with hb | new
  · exact (h.bookings b hb).imp_right fun new mem => new (h'.mine b.id mem)
  · exact .inr new

theorem exec_spared {e : Effect} {c : Choice} {r : Except Err e.Answer} {t' : Tid} (wf : WF s)
    (here : At locking t e s) (ne : t' ≠ t) (h : exec partition t s e c = some (s', r)) :
    Spared t' s s' := by
  have touch := exec_touch h
  refine ⟨exec_lasts wf here h, (touch_frame wf ne touch).mine, fun b hb => ?_⟩
  rcases touch_commits touch with ⟨-, -, rfl⟩ | ⟨same, -⟩
  · rcases List.mem_append.mp hb with hb | hb
    · exact .inl hb
    · have owned := wf.bookings.pending_issued t b.id (List.mem_map_of_mem hb)
      exact .inr fun other => ne (owner_unique wf.once other owned)
  · rw [same] at hb
    exact .inl hb

theorem Unbooked.spared (h : Unbooked t s) (spared : Spared t s s') : Unbooked t s' := by
  intro b hb mem
  rcases spared.bookings b hb with old | new
  · exact h b old (spared.mine b.id mem)
  · exact new mem

/-- The discipline, the seat counters, and at each COMMIT whose booking it is. -/
def ledger (jobs : Tid → Option Job) (partition : String → String → Nat) :
    Layer (discipline locking partition) where
  Inv := SeatsKept
  Frame := Spared
  Fresh t s := ∀ x, (x, t) ∉ s.issued
  Here := Posts jobs
  refl _ s := ⟨.refl s, fun _ h => h, fun _ hb => .inl hb⟩
  trans _ _ _ _ h h' := h.trans h'
  fresh _ _ _ h _ f x hx := h x (f.mine x hx)
  keeps _ _ _ _ _ _ inv seats here _ _ he :=
    ⟨exec_keeps inv here he, seats_step inv.wf here seats (exec_touch he),
      fun _ ne => exec_spared inv.wf here ne he⟩

variable {jobs : Tid → Option Job}

theorem error_lost {e : Effect} {c : Choice} {x : Err}
    (h : exec partition t s e c = some (s', .error x)) : x = lost := by
  cases e <;> cases c <;> simp only [exec, failed, Option.some.injEq, Prod.mk.injEq, reduceCtorEq,
    Except.error.injEq, and_false] at h <;> first
    | exact h.2.symm
    | (repeat' split at h) <;> simp_all

/-- A part of a transaction: it does not commit, and refuses only when seats are short. -/
def Works {α : Type} (t : Tid) (P : α → Store → Prop) (N : Store → Prop) :
    Except Err α → Store → Prop
  | .ok a, s => Unbooked t s ∧ (s.active t = true → P a s)
  | .error x, s => Unbooked t s ∧ (x = soldOut → N s)

/-- The rule for a statement of a transaction. -/
theorem ledger_ask {e : Effect} {J : Store → Prop} {Q : Except Err e.Answer → Store → Prop}
    (unbooked : Unbooked t s) (hj : s.active t = true → J s)
    (stable : ∀ s s', J s → Frame t s s' → Lasts s s' → s'.active t = true → J s')
    (next : ∀ s c s' a, (ledger jobs partition).logic.Inv s → (s.active t = true → J s) →
      exec partition t s e c = some (s', .ok a) → (ledger jobs partition).logic.Inv s' →
      Unbooked t s' → Q (.ok a) s')
    (stop : ∀ s, Unbooked t s → Q (.error lost) s)
    (plain : e.plain := by trivial) : (ledger jobs partition).rest.Safe t (ask e) Q s := by
  have ne : e ≠ .commitTx := by
    rintro rfl
    exact plain
  refine Layer.await_safe fun s₁ f₁ inv => ⟨?_, fun c s₂ r _ _ he inv' => ?_⟩
  · cases e <;> trivial
  · have before := unbooked_step inv.1.wf (unbooked.spared f₁.2) ne he
    have still : s₁.active t = true → J s₁ := by
      intro act
      have was : s.active t = true := (active_congr (f₁.1.frame.tx act)).symm.trans act
      exact stable s s₁ (hj was) f₁.1.frame f₁.2.lasts act
    cases r with
    | ok a => exact next s₁ c s₂ a inv still he inv' before
    | error x =>
      cases error_lost he
      exact stop s₂ before

theorem ledger_bind {β : Type} {e : Effect} {f : e.Answer → Service β} {J : Store → Prop}
    {P : β → Store → Prop} {N : Store → Prop} (unbooked : Unbooked t s)
    (hj : s.active t = true → J s)
    (stable : ∀ s s', J s → Frame t s s' → Lasts s s' → s'.active t = true → J s')
    (next : ∀ s c s' a, (ledger jobs partition).logic.Inv s → (s.active t = true → J s) →
      exec partition t s e c = some (s', .ok a) → (ledger jobs partition).logic.Inv s' →
      Unbooked t s' → (ledger jobs partition).rest.Safe t (f a) (Works t P N) s')
    (plain : e.plain := by trivial) :
    (ledger jobs partition).rest.Safe t (ask e >>= f) (Works t P N) s := by
  apply Logic.Safe.bind
  exact ledger_ask unbooked hj stable next (fun s h => ⟨h, fun other => nomatch other⟩) plain

/-- The seat row that a decrement holds shows the seats that it reports. -/
def Reports (eventId : Uuid) (t : Tid) (result : Decremented) (s : Store) : Prop :=
  Owns t [] [] (some eventId) [] s ∧ ∃ c, s.events eventId = some c ∧ c.heldBy t = true ∧
    (c.view t).availableSeats = result.seatsRemaining

theorem seatsFor_error {eventId : Uuid} {quantity : Nat} {row : Option EventRow} {x : Err}
    (h : seatsFor eventId quantity row = .error x) (refused : x = soldOut) :
    ∃ event, row = some event ∧ event.availableSeats < quantity := by
  subst refused
  cases row with
  | none => cases h
  | some event =>
    simp only [seatsFor] at h
    split at h
    · exact ⟨event, rfl, by assumption⟩
    · cases h

theorem short_of_row {eventId : Uuid} {quantity : Nat} {c : Cell EventRow} (kept : SeatsKept s)
    (row : s.events eventId = some c) (less : c.committed.availableSeats < (quantity : Int)) :
    Short eventId quantity s :=
  ⟨c, row, by rw [← (kept.seats eventId c row).counter]; exact less⟩

theorem pessimistic_reports {eventId : Uuid} {quantity : Nat} (unbooked : Unbooked t s)
    (clean : s.active t = true → Clean t s) :
    (ledger jobs partition).rest.Safe t (decrementPessimistic eventId quantity)
      (Works t (Reports eventId t) (Short eventId quantity)) s := by
  unfold decrementPessimistic
  refine ledger_bind unbooked clean (fun s s' h f _ => owns_stable s s' h f) ?_
  intro s₁ c s₂ row inv clean he inv' unbooked
  obtain ⟨act, found⟩ := findEventForUpdate_ok he
  have owns := clean act
  refine Logic.Safe.check (fun event hs => ?_) fun x hs => ⟨unbooked, fun refused => ?_⟩
  · obtain ⟨rfl, -⟩ := seatsFor_ok hs
    obtain ⟨-, -, none⟩ | ⟨cell, row, free, rfl, same⟩ := found
    · cases none
    cases Option.some.inj same
    -- from here on the lock keeps the row as it was read
    refine ledger_bind (J := fun s => Owns t [] [] (some eventId) [] s ∧
      ∃ c, s.events eventId = some c ∧ c.heldBy t = true ∧ c.view t = cell.view t) unbooked
      (fun _ => ⟨(owns.weaken _).putEvent _, cell.lock t, by simp [putEvent], by simp, by simp⟩)
      (fun s s' h f _ => owns_stable.and cell_stable s s' h f) ?_
    intro s₃ c s₄ affected inv locked he inv' unbooked
    obtain ⟨act₃, change⟩ := updateEvent_ok he
    obtain ⟨owns₃, cell₃, row₃, held₃, view₃⟩ := locked act₃
    refine ⟨unbooked, fun _ => ?_⟩
    obtain ⟨-, -, missed⟩ | ⟨cell', row', -, -, rfl, -⟩ := change
    · cases missed cell₃ row₃
    · exact ⟨owns₃.putEvent _, _, by simp [putEvent]; rfl, by simp, by simp [EventPatch.apply]⟩
  · obtain ⟨event, rfl, less⟩ := seatsFor_error hs refused
    obtain ⟨-, -, none⟩ | ⟨cell, row, free, rfl, same⟩ := found
    · cases none
    · cases Option.some.inj same
      rw [owns.view row] at less
      exact short_of_row inv'.2 (c := cell.lock t) (by simp [putEvent]) less

/-- A row that was read earlier: its seats and its version are those of a prefix of the bookings. -/
def Seen (eventId : Uuid) (event : EventRow) (s : Store) : Prop := ∃ before c,
  before <+: s.bookings ∧ s.events eventId = some c ∧
    event.version = (confirmedBookings eventId before).length ∧
    event.availableSeats = c.committed.totalSeats - confirmedQuantity eventId before

theorem seen_lasts {eventId : Uuid} {event : EventRow} (h : Seen eventId event s)
    (l : Lasts s s') : Seen eventId event s' := by
  obtain ⟨before, c, old, row, version, seats⟩ := h
  obtain ⟨c', row', same⟩ := l.totals eventId c row
  exact ⟨before, c', old.trans l.grows.bookings, row', version, by rw [same]; exact seats⟩

/-- One version, one seat count: equally many bookings of an ever growing list are the same. -/
theorem seen_current {eventId : Uuid} {event : EventRow} {c : Cell EventRow} (kept : SeatsKept s)
    (seen : Seen eventId event s) (row : s.events eventId = some c)
    (same : c.committed.version = event.version) :
    event.availableSeats = c.committed.availableSeats := by
  obtain ⟨before, c', old, row', version, seats⟩ := seen
  cases Option.some.inj (row.symm.trans row')
  have now := kept.seats eventId c row
  have sub : confirmedBookings eventId before <+: confirmedBookings eventId s.bookings :=
    old.filter _
  have all : confirmedBookings eventId before = confirmedBookings eventId s.bookings :=
    sub.eq_of_length (by rw [← version, ← same, now.version])
  have sums : confirmedQuantity eventId before = confirmedQuantity eventId s.bookings :=
    congrArg (fun l => (l.map BookingRow.quantity).sum) all
  rw [seats, now.counter, sums]

theorem clean_view {eventId : Uuid} {c : Cell EventRow} (wf : WF s)
    (clean : s.active t = true → Clean t s) (row : s.events eventId = some c) :
    c.view t = c.committed := by
  cases act : s.active t with
  | true => exact (clean act).view row
  | false =>
    have none := wf.quietEvents t act eventId
    exact Cell.view_of_not_heldBy (by simpa [heldEvent, row] using none)

theorem optimistic_reports {eventId : Uuid} {quantity rounds : Nat} (unbooked : Unbooked t s)
    (clean : s.active t = true → Clean t s) :
    (ledger jobs partition).rest.Safe t (optimisticRounds eventId quantity rounds)
      (Works t (Reports eventId t) (Short eventId quantity)) s := by
  induction rounds generalizing s with
  | zero => exact ⟨unbooked, fun other => by simp [soldOut] at other⟩
  | succ rounds ih =>
    unfold optimisticRounds
    refine ledger_bind unbooked clean (fun s s' h f _ => owns_stable s s' h f) ?_
    intro s₁ c s₂ row inv clean he inv' unbooked
    obtain ⟨rfl, rfl⟩ := findEvent_ok he
    refine Logic.Safe.check (fun event hs => ?_) fun x hs => ⟨unbooked, fun refused => ?_⟩
    · obtain ⟨read, -⟩ := seatsFor_ok hs
      obtain ⟨cell, row, rfl⟩ := Option.map_eq_some_iff.mp read
      have now := inv.2.seats eventId cell row
      have seen : Seen eventId (cell.view t) s₂ := by
        rw [clean_view inv.1.wf clean row]
        exact ⟨s₂.bookings, cell, List.prefix_refl _, row, now.version, now.counter⟩
      refine ledger_bind (J := fun s => Clean t s ∧ Seen eventId (cell.view t) s) unbooked
        (fun act => ⟨clean act, seen⟩)
        (fun s s' h f l act => ⟨owns_stable s s' h.1 f act, seen_lasts h.2 l⟩) ?_
      intro s₃ c s₄ affected inv read he inv' unbooked
      obtain ⟨act, ⟨rfl, rfl, -⟩ | ⟨cell', row', -, matched, rfl, rfl⟩⟩ := updateEvent_ok he
      · exact ih unbooked fun act => (read act).1
      · -- the version is still the one that was read, and so are the seats
        obtain ⟨owns, seen⟩ := read act
        have view := owns.view row'
        simp only [unchanged, Bool.and_eq_true, beq_iff_eq, view] at matched
        have seats := seen_current inv.2 seen row' matched.1
        refine ⟨unbooked, fun _ => ⟨(owns.weaken _).putEvent _, _, by simp [putEvent]; rfl,
          by simp, ?_⟩⟩
        simp [EventPatch.apply, view, seats]
    · obtain ⟨event, read, less⟩ := seatsFor_error hs refused
      obtain ⟨cell, row, rfl⟩ := Option.map_eq_some_iff.mp read
      rw [clean_view inv.1.wf clean row] at less
      exact short_of_row inv'.2 row less

theorem decrement_reports {config : BookingConfig} {eventId : Uuid} {quantity : Nat}
    (locked : config.lockStrategy ≠ .none) (unbooked : Unbooked t s)
    (clean : s.active t = true → Clean t s) :
    (ledger jobs partition).rest.Safe t (decrement config eventId quantity)
      (Works t (Reports eventId t) (Short eventId quantity)) s := by
  unfold decrement
  cases strategy : config.lockStrategy with
  | none => exact absurd strategy locked
  | pessimistic => exact pessimistic_reports unbooked clean
  | optimistic => exact optimistic_reports unbooked clean

/-- The booking that a call has inserted, beside the seat row that shows what is left. -/
structure Inserted (eventId : Uuid) (quantity : Nat) (t : Tid) (b : BookingRow)
    (result : Decremented) (s : Store) : Prop where
  event : b.eventId = eventId
  size : b.quantity = quantity
  issued : (b.id, t) ∈ s.issued
  bookings : (s.tx t).bookings = [b]
  row : ∃ c, s.events eventId = some c ∧ c.heldBy t = true ∧
    (c.view t).availableSeats = result.seatsRemaining

theorem inserted_stable {eventId : Uuid} {quantity : Nat} {b : BookingRow} {result : Decremented} :
    Stable t (Inserted eventId quantity t b result) := by
  intro s s' h f act
  refine ⟨h.event, h.size, f.grows.issued.subset h.issued, ?_, cell_stable s s' h.row f act⟩
  rw [f.tx act]
  exact h.bookings

variable {config : AppConfiguration} {eventId : Uuid} {dto : CreateBookingDto}
  {context : BookingContext}

theorem enqueue_inserted {quantity : Nat} {b : BookingRow} {result : Decremented} {N : Store → Prop}
    (unbooked : Unbooked t s)
    (h : s.active t = true → Inserted eventId quantity t b result s) :
    (ledger jobs partition).rest.Safe t (enqueueConfirmed config eventId context b result)
      (Works t (fun _ => Inserted eventId quantity t b result) N) s := by
  unfold enqueueConfirmed enqueue
  apply Logic.Safe.bind
  have stable : ∀ s s', Inserted eventId quantity t b result s → Frame t s s' → Lasts s s' →
      s'.active t = true → Inserted eventId quantity t b result s' :=
    fun s s' h f _ => inserted_stable s s' h f
  refine (ledger_bind (P := fun _ => Inserted eventId quantity t b result) (N := N) unbooked h stable
    ?_).mono fun r s' hr => ?_
  · intro s₁ c s₂ now _ h₁ he _ unbooked
    cases dateNow_ok he
    refine ledger_ask unbooked h₁ stable ?_ fun s h => ⟨h, fun other => nomatch other⟩
    intro s₃ c s₄ m _ h₃ he _ unbooked
    obtain ⟨act, -, -, rfl⟩ := insertOutbox_ok he
    have before := h₃ act
    refine ⟨unbooked, fun _ => ⟨before.event, before.size, List.mem_cons_of_mem _ before.issued, ?_,
      before.row⟩⟩
    rw [setTx_self]
    exact before.bookings
  · cases r with
    | ok m => exact hr
    | error x => exact hr

theorem bookInTransaction_inserts (locked : config.booking.lockStrategy ≠ .none)
    (unbooked : Unbooked t s) (clean : s.active t = true → Clean t s) :
    (ledger jobs partition).rest.Safe t (bookInTransaction config eventId dto context)
      (Works t (fun a => Inserted eventId dto.quantity t a.1 a.2) (Short eventId dto.quantity)) s := by
  unfold bookInTransaction
  apply Logic.Safe.bind
  refine (decrement_reports locked unbooked clean).mono fun r s₁ hr => ?_
  cases r with
  | error x => exact hr
  | ok result =>
    refine ledger_bind hr.1 hr.2 (fun s s' h f _ => owns_stable.and cell_stable s s' h f) ?_
    intro s₂ c s₃ b _ reports he _ unbooked
    obtain ⟨act, -, row, rfl⟩ := insertBooking_ok he
    obtain ⟨owns, seats⟩ := reports act
    have inserted : Inserted eventId dto.quantity t b result ((s₂.issue b.id t).setTx t
        { s₂.tx t with bookings := (s₂.tx t).bookings ++ [b] }) := by
      refine ⟨by rw [row], by rw [row], List.mem_cons_self .., ?_, seats⟩
      rw [setTx_self]
      exact congrArg (· ++ [b]) owns.bookings
    apply Logic.Safe.bind
    unfold runIf
    split
    · refine (enqueue_inserted (N := Short eventId dto.quantity) unbooked
        fun _ => inserted).mono fun r s₄ hr => ?_
      cases r with
      | ok u => exact hr
      | error x => exact hr
    · exact ⟨unbooked, fun _ => inserted⟩

/-- The rule for a transaction: the first COMMIT of `t`, after which its booking is for good. -/
theorem transaction_ledger {α : Type} {run : Service α} {P Q : α → Store → Prop} {N : Store → Prop}
    (unbooked : Unbooked t s)
    (body : ∀ s, Unbooked t s → (s.active t = true → Clean t s) →
      (ledger jobs partition).rest.Safe t run (Works t P N) s)
    (stable : ∀ a, Stable t (P a)) (lasts : ∀ s s', N s → Lasts s s' → N s')
    (posts : ∀ a s, P a s → ∀ b ∈ (s.tx t).bookings,
      ∃ j, jobs t = some j ∧ bookCall b.eventId j = some b.quantity)
    (commit : ∀ a s, P a s → SeatsKept (s.commitTx t) → Q a (s.commitTx t)) :
    (ledger jobs partition).rest.Safe t (transaction run) (fun r s => match r with
      | .ok a => Q a s
      | .error x => x = soldOut → N s ∧ Unbooked t s) s := by
  unfold transaction
  apply Logic.Safe.handle
  have undo : ∀ (x : Err) s, (x = soldOut → N s ∧ Unbooked t s) →
      (ledger jobs partition).rest.Safe t
        (do tryCatch (ask .rollbackTx) fun _ => pure (); throw x : Service α)
        (fun r s => match r with
          | .ok a => Q a s
          | .error x => x = soldOut → N s ∧ Unbooked t s) s := by
    intro x s h
    apply Logic.Safe.bind
    apply Logic.Safe.handle
    refine Layer.await_safe fun s₁ f₁ inv => ⟨trivial, fun c s₂ r _ here he _ => ?_⟩
    have after : x = soldOut → N s₂ ∧ Unbooked t s₂ := by
      intro same
      obtain ⟨n, free⟩ := h same
      have lasting := exec_lasts (e := .rollbackTx) inv.1.wf here he
      exact ⟨lasts s₁ s₂ (lasts s s₁ n f₁.2.lasts) lasting,
        unbooked_step inv.1.wf (free.spared f₁.2) (by intro h; cases h) he⟩
    cases r <;> exact after
  suffices whole : (ledger jobs partition).rest.Safe t
      (do ask .beginTx; let result ← run; ask .commitTx; pure result : Service α)
      (fun r s => match r with
        | .ok a => Q a s
        | .error x => x = soldOut → N s ∧ Unbooked t s) s by
    refine whole.mono fun r s' hr => ?_
    cases r with
    | ok a => exact hr
    | error x => exact undo x s' hr
  apply Logic.Safe.bind
  refine Layer.await_safe fun s₁ f₁ inv => ⟨trivial, fun c s₂ r _ _ he _ => ?_⟩
  cases r with
  | error x => exact fun same => nomatch (error_lost he).symm.trans same
  | ok u =>
    have before := unbooked_step inv.1.wf (unbooked.spared f₁.2) (by intro h; cases h) he
    apply Logic.Safe.bind
    refine (body s₂ before fun _ => (begin_clean inv.1.wf he).2).mono fun r s₃ hr => ?_
    cases r with
    | error x => exact fun same => ⟨hr.2 same, hr.1⟩
    | ok a =>
      obtain ⟨before, ready⟩ := hr
      have still : ∀ s', (ledger jobs partition).logic.Frame t s₃ s' → s'.active t = true → P a s' := by
        intro s' f act
        have was : s₃.active t = true := (active_congr (f.1.frame.tx act)).symm.trans act
        exact stable a s₃ s' (ready was) f.1.frame act
      apply Logic.Safe.bind
      refine Layer.await_safe fun s₄ f₄ inv => ⟨⟨before.spared f₄.2, fun act => ?_⟩, ?_⟩
      · exact posts a s₄ (still s₄ f₄ act)
      · intro c s₅ r _ _ he inv'
        cases r with
        | error x => exact fun same => nomatch (error_lost he).symm.trans same
        | ok u =>
          obtain ⟨act, rfl⟩ := commit_ok he
          exact commit a s₄ (still s₄ f₄ act) inv'.2

/-- Code that keeps what lasts, and does not refuse. -/
def Holds {α : Type} (J : Store → Prop) (r : Except Err α) (s : Store) : Prop :=
  J s ∧ r ≠ .error soldOut

theorem holds_ask {e : Effect} {J : Store → Prop} (hj : J s)
    (lasts : ∀ s s', J s → Lasts s s' → J s')
    (posts : ∀ s, J s → Posts jobs t e s := by intro s _; trivial) :
    (ledger jobs partition).rest.Safe t (ask e) (Holds J) s := by
  refine Layer.await_safe fun s₁ f₁ inv => ⟨?_, fun c s₂ r _ here he _ => ?_⟩
  · exact posts s₁ (lasts s s₁ hj f₁.2.lasts)
  · refine ⟨lasts s₁ s₂ (lasts s s₁ hj f₁.2.lasts) (exec_lasts inv.1.wf here he), ?_⟩
    rintro rfl
    exact nomatch error_lost he

theorem holds_bind {α β : Type} {p : Service α} {f : α → Service β} {J : Store → Prop}
    {Q : Except Err β → Store → Prop} (h : (ledger jobs partition).rest.Safe t p (Holds J) s)
    (next : ∀ a s, J s → (ledger jobs partition).rest.Safe t (f a) Q s)
    (stop : ∀ x s, x ≠ soldOut → Q (.error x) s) :
    (ledger jobs partition).rest.Safe t (p >>= f) Q s := by
  apply Logic.Safe.bind
  refine h.mono fun r s' hr => ?_
  cases r with
  | ok a => exact next a s' hr.1
  | error x => exact stop x s' fun same => hr.2 (congrArg _ same)

theorem holds_absorbed {p : Service Unit} {J : Store → Prop}
    (h : (ledger jobs partition).rest.Safe t p (Holds J) s) :
    (ledger jobs partition).rest.Safe t (tryCatch p fun _ => pure ()) (Holds J) s := by
  apply Logic.Safe.handle
  refine h.mono fun r s' hr => ?_
  cases r with
  | ok a => exact hr
  | error x => exact ⟨hr.1, fun other => nomatch other⟩

theorem holds_runIf {c : Bool} {p : Service Unit} {J : Store → Prop} (hj : J s)
    (h : c = true → (ledger jobs partition).rest.Safe t p (Holds J) s) :
    (ledger jobs partition).rest.Safe t (runIf c p) (Holds J) s := by
  cases c with
  | true => exact h rfl
  | false => exact ⟨hj, fun other => nomatch other⟩

def Tells (eventId : Uuid) (quantity : Nat) (t : Tid) :
    Except Err BookingResponse → Store → Prop
  | .ok response, s => Sold eventId quantity t response.seatsRemaining s
  | .error x, s => x = soldOut → Short eventId quantity s ∧ Unbooked t s

theorem afterCommit_tells {quantity : Nat} {b : BookingRow} {result : Decremented}
    (locked : config.booking.lockStrategy ≠ .none)
    (h : Sold eventId quantity t result.seatsRemaining s) :
    (ledger jobs partition).rest.Safe t (afterCommit config eventId context b result)
      (Tells eventId quantity t) s := by
  have lasts : ∀ s s', Sold eventId quantity t result.seatsRemaining s → Lasts s s' →
      Sold eventId quantity t result.seatsRemaining s' := fun _ _ h l => h.lasts l
  have stop : ∀ x s, x ≠ soldOut → Tells eventId quantity t (.error x) s :=
    fun x s ne same => absurd same ne
  unfold afterCommit
  refine holds_bind (holds_ask h lasts) (fun _ s₁ h₁ => ?_) stop
  refine holds_bind (holds_absorbed (holds_ask h₁ lasts fun _ h => ⟨_, _, h⟩)) (fun _ s₂ h₂ => ?_) stop
  refine holds_bind (holds_runIf h₂ fun naive => ?_) (fun _ s₃ h₃ => ?_) stop
  · exact absurd (by simpa using naive) locked
  refine holds_bind (holds_runIf h₃ fun _ => holds_ask h₃ lasts) (fun _ s₄ h₄ => ?_) stop
  refine holds_bind (holds_runIf h₄ fun _ => holds_absorbed ?_) (fun _ s₅ h₅ => h₅) stop
  exact holds_ask h₄ lasts

theorem book_tells (locked : config.booking.lockStrategy ≠ .none)
    (job : jobs t = some (.book config eventId dto context)) (unbooked : Unbooked t s) :
    (ledger jobs partition).rest.Safe t (book config eventId dto context)
      (Tells eventId dto.quantity t) s := by
  have last : ∀ x s, Tells eventId dto.quantity t (.error x) s →
      (ledger jobs partition).rest.Safe t
        (do ask (.bookingsTotal x.bookingResult config.booking.lockStrategy); throw x :
          Service BookingResponse) (Tells eventId dto.quantity t) s := by
    intro x s h
    apply Logic.Safe.bind
    refine Layer.await_safe fun s₁ f₁ inv => ⟨trivial, fun c s₂ r _ here he _ => ?_⟩
    cases r with
    | error y => exact fun same => nomatch (error_lost he).symm.trans same
    | ok u =>
      intro same
      obtain ⟨short, free⟩ := h same
      have lasting := exec_lasts (e := .bookingsTotal _ _) inv.1.wf here he
      exact ⟨(short.lasts f₁.2.lasts).lasts lasting,
        unbooked_step inv.1.wf (free.spared f₁.2) (by intro h; cases h) he⟩
  unfold book
  apply Logic.Safe.handle
  apply Logic.Safe.bind
  refine (transaction_ledger (P := fun a => Inserted eventId dto.quantity t a.1 a.2)
    (Q := fun a s => Sold eventId dto.quantity t a.2.seatsRemaining s)
    (N := Short eventId dto.quantity) unbooked (fun s => bookInTransaction_inserts locked)
    (fun _ => inserted_stable) (fun _ _ h l => h.lasts l) ?_ ?_).mono fun r s₁ hr => ?_
  · intro a s h b hb
    rw [h.bookings] at hb
    cases List.mem_singleton.mp hb
    exact ⟨_, job, by simp [bookCall, h.event, h.size]⟩
  · intro a s h kept
    obtain ⟨c, row, held, left⟩ := h.row
    have bookings : (s.commitTx t).bookings = s.bookings ++ [a.1] :=
      congrArg (s.bookings ++ ·) h.bookings
    have row' : (s.commitTx t).events eventId = some (c.commit t) := by simp [commitTx, row]
    have counter := (kept.seats eventId _ row').counter
    refine ⟨c.commit t, s.bookings, a.1, row', ?_, h.issued, h.event, h.size, ?_⟩
    · exact bookings ▸ List.prefix_refl (s.commitTx t).bookings
    · rw [← left, ← Cell.commit_committed, counter, bookings]
  · cases r with
    | error x => exact last x s₁ hr
    | ok a =>
      refine (afterCommit_tells locked hr).mono fun r s₂ hr => ?_
      cases r with
      | ok response => exact hr
      | error x => exact last x s₂ hr

def Blank (t : Tid) (s : Store) : Prop := s.active t = true → (s.tx t).bookings = []

theorem blank_step {e : Effect} {c : Choice} {r : Except Err e.Answer} (h : Blank t s)
    (drains : e.drains) (he : exec partition t s e c = some (s', r)) : Blank t s' := by
  intro act
  cases exec_touch he with
  | rest s' _ _ _ tx =>
    rw [tx]
    exact h (by rw [← active_congr (congrFun tx t)]; exact act)
  | aborted => exact absurd act (by rw [abort_inactive]; decide)
  | selected limit rows active => rw [setTx_self]; exact h active
  | updated ids patch active => exact h active
  | sent => exact h act
  | event id cell v active => exact h active
  | _ => exact drains.elim

theorem drain_tells {config : OutboxConfig} {replica : Replica} (unbooked : Unbooked t s) :
    (ledger jobs partition).rest.Safe t (drainOnce config replica) (fun _ _ => True) s := by
  have silent : ∀ {e : Effect}, e.drains → e ≠ .commitTx := by
    rintro e h rfl
    exact h
  have body : ∀ s, Unbooked t s → (s.active t = true → Clean t s) →
      (ledger jobs partition).rest.Safe t (drainBatch config)
        (Works t (fun _ s => (s.tx t).bookings = []) fun _ => True) s := by
    intro s unbooked clean
    refine (Layer.only_safe (J := fun s => Unbooked t s ∧ Blank t s) drainBatch_drains ?_ ?_ ?_
      ⟨unbooked, fun act => (clean act).bookings⟩).mono fun r s' h => ?_
    · intro s s' h f _
      refine ⟨h.1.spared f.2, fun act => ?_⟩
      rw [f.1.frame.tx act]
      exact h.2 ((active_congr (f.1.frame.tx act)).symm.trans act)
    · intro e he s _
      cases e with
      | commitTx => exact he.elim
      | delCache => exact he.elim
      | _ => trivial
    · intro e he s inv h c s' r _ _ hx
      exact ⟨unbooked_step inv.1.wf h.1 (silent he) hx, blank_step h.2 he hx⟩
    · cases r with
      | ok n => exact h
      | error x => exact ⟨h.1, fun _ => trivial⟩
  have plain : ∀ {e : Effect} {s}, e.plain →
      (ledger jobs partition).rest.Safe t (ask e) (fun _ _ => True) s := by
    intro e s plain
    refine (holds_ask (J := fun _ => True) trivial (fun _ _ _ _ => trivial) fun s _ => ?_).mono
      fun _ _ _ => trivial
    cases e <;> trivial
  unfold drainOnce
  apply Logic.Safe.bind
  refine Layer.await_safe fun s₁ f₁ inv => ⟨trivial, fun c s₂ r _ _ he _ => ?_⟩
  have before := unbooked_step inv.1.wf (unbooked.spared f₁.2) (by intro h; cases h) he
  cases r with
  | error x => trivial
  | ok running =>
    cases running with
    | true => trivial
    | false =>
      apply Logic.Safe.ensure
      refine (transaction_ledger (P := fun _ s => (s.tx t).bookings = []) (Q := fun _ _ => True)
        (N := fun _ => True) before body ?_ (fun _ _ _ _ => trivial) ?_
        fun _ _ _ _ => trivial).mono fun r s₃ _ => ?_
      · intro _ s s' h f act
        rw [f.tx act]
        exact h
      · intro _ s none b hb
        rw [none] at hb
        cases hb
      · exact (plain (by trivial)).mono fun u s₄ _ => by cases u <;> trivial

/-- All four operations keep the ledger, whoever runs under the safe strategies. -/
theorem ledger_verified (jobs : Tid → Option Job) (partition : String → String → Nat) :
    Logic.Verified (ledger jobs partition).logic
      (fun p a => locking.Ok p a ∧ ∀ t j, a = .start t j → jobs t = some j)
      (fun t j r s => True ∧ Told t j r s) := by
  have plain : ∀ {α : Type} {t : Tid} {s : Store} {p : Service α},
      p.Only Effect.plain →
      (ledger jobs partition).rest.Safe t p (fun _ _ => True) s := by
    intro α t s p only
    refine Layer.only_safe (J := fun _ => True) only (fun _ _ _ _ _ => trivial) (fun e he s _ => ?_)
      (fun _ _ _ _ _ _ _ _ _ _ _ => trivial) trivial
    cases e <;> trivial
  have first := api_verified locking partition
  refine Layer.verified (Q := Told)
    { first with
      allowed := fun p t c j e k ok => first.allowed p t c j e k ok.1
      code := fun p t j ok => first.code p t j ok.1
      ext := fun p x s' ok => first.ext p x s' ok.1
      gone := fun p t j e k ok => first.gone p t j e k ok.1 } ?_ ?_ ?_
  · intro p t j ok inv fresh
    have unbooked : Unbooked t p.shared := fun b _ => fresh.2 b.id
    cases j with
    | create dto =>
      have asks : (Job.create dto).code.Only Effect.plain :=
        only_bind (by simp [create, Effect.plain]) fun _ => only_done _
      exact (plain asks).mono fun _ _ _ => trivial
    | book config eventId dto context =>
      apply Logic.Safe.bind
      refine (book_tells ok.1 (ok.2 t _ rfl) unbooked).mono fun r s h => ?_
      cases r with
      | ok response => exact h
      | error x => exact h
    | integrity eventId =>
      have asks : (Job.integrity eventId).code.Only Effect.plain := by
        refine only_bind (only_bind (by simp [Effect.plain]) fun row => ?_) fun _ => only_done _
        cases row with
        | none => trivial
        | some event => exact only_bind (by simp [Effect.plain]) fun _ => trivial
      exact (plain asks).mono fun _ _ _ => trivial
    | drainOnce config replica =>
      apply Logic.Safe.bind
      exact (drain_tells unbooked).mono fun r s _ => by cases r <;> trivial
  · exact fun t j r s inv _ _ => ⟨inv.2, fun t' _ => (ledger jobs partition).refl t' s⟩
  · intro p x s' _ inv h
    cases x with
    | tick d =>
      cases Option.some.inj h
      refine ⟨inv.2.same rfl fun _ => rfl, fun t => ?_⟩
      exact ⟨⟨{ Grows.refl _ with }, fun _ c hc => ⟨c, hc, rfl⟩⟩, fun _ hx => hx, fun _ hb => .inl hb⟩
    | abortTx t' =>
      cases Option.some.inj h
      have tables := abort_tables t' p.shared
      have frames := fun t => frame_abort (t := t) (s := p.shared) t'
      refine ⟨inv.2.same tables.1 (abort_events t' p.shared), fun t => ⟨⟨grows_abort t' _, ?_⟩,
        (frames t).mine, fun b hb => .inl (by rw [← tables.1]; exact hb)⟩⟩
      intro id c row
      have same := abort_events t' p.shared id
      rw [row] at same
      obtain ⟨c', row', eq⟩ := Option.map_eq_some_iff.mp same
      exact ⟨c', row', congrArg _ eq⟩

end Overbook
