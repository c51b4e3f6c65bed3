import Overbook.Discipline.Drain

/-! Seats are not oversold. The counter of an event and its bookings are written by different
statements of one transaction; in every committed state they agree. -/
namespace Overbook

open Async Prog ReadCommitted Store

/- Every book call takes one of the two safe strategies, each call its own. -/
def locking : Regime := .any fun
  | .book config .. => config.booking.lockStrategy ≠ .none
  | _ => True

def confirmedBookings (eventId : Uuid) (bookings : List BookingRow) : List BookingRow :=
  bookings.filter fun b => b.eventId == eventId && b.status == .confirmed

/-- The seat row of an event tells the truth about its confirmed bookings. -/
structure SeatsMatch (bookings : List BookingRow) (eventId : Uuid) (row : EventRow) : Prop where
  counter : row.availableSeats = row.totalSeats - confirmedQuantity eventId bookings
  nonneg : 0 ≤ row.availableSeats
  version : row.version = (confirmedBookings eventId bookings).length

/-- All events of the committed state match, and every booking has its event. -/
structure SeatsKept (s : Store) : Prop where
  known : ∀ b ∈ s.bookings, (s.events b.eventId).isSome = true
  seats : ∀ id c, s.events id = some c → SeatsMatch s.bookings id c.committed

theorem seatsMatch_nil {eventId : Uuid} {bookings : List BookingRow} {row : EventRow}
    (none : ∀ b ∈ bookings, b.eventId ≠ eventId) (start : row.availableSeats = row.totalSeats)
    (pos : 1 ≤ row.totalSeats) (zero : row.version = 0) : SeatsMatch bookings eventId row := by
  have empty : bookings.filter (fun b => b.eventId == eventId && b.status == .confirmed) = [] := by
    rw [List.filter_eq_nil_iff]
    intro b hb
    simp [none b hb]
  refine ⟨?_, by omega, ?_⟩
  · simp [confirmedQuantity, empty, start]
  · simp [confirmedBookings, empty, zero]

theorem seatsMatch_other {eventId : Uuid} {bookings : List BookingRow} {row : EventRow}
    {b : BookingRow} (h : SeatsMatch bookings eventId row) (ne : b.eventId ≠ eventId) :
    SeatsMatch (bookings ++ [b]) eventId row := by
  have skip : (bookings ++ [b]).filter (fun b => b.eventId == eventId && b.status == .confirmed) =
      bookings.filter fun b => b.eventId == eventId && b.status == .confirmed := by
    simp [List.filter_append, ne]
  refine ⟨?_, h.nonneg, ?_⟩
  · rw [h.counter, confirmedQuantity, confirmedQuantity, skip]
  · rw [h.version, confirmedBookings, confirmedBookings, skip]

theorem seatsMatch_taken {eventId : Uuid} {bookings : List BookingRow} {row : EventRow}
    {b : BookingRow} {quantity : Nat} (h : SeatsMatch bookings eventId row)
    (event : b.eventId = eventId) (status : b.status = .confirmed) (size : b.quantity = quantity)
    (enough : (quantity : Int) ≤ row.availableSeats) :
    SeatsMatch (bookings ++ [b]) eventId (taken quantity row) := by
  have add : (bookings ++ [b]).filter (fun b => b.eventId == eventId && b.status == .confirmed) =
      bookings.filter (fun b => b.eventId == eventId && b.status == .confirmed) ++ [b] := by
    simp [List.filter_append, event, status]
  have counter := h.counter
  have version := h.version
  refine ⟨?_, ?_, ?_⟩
  · rw [confirmedQuantity, add, List.map_append, List.sum_append]
    simp only [confirmedQuantity] at counter
    simp only [taken, List.map_cons, List.map_nil, List.sum_cons, List.sum_nil, size]
    omega
  · simp only [taken]; omega
  · rw [confirmedBookings, add, List.length_append]
    simp only [confirmedBookings] at version
    simp only [taken, List.length_cons, List.length_nil]
    omega

/-- Statements that leave the committed bookings and seat rows as they are. -/
theorem SeatsKept.same {s s' : Store} (h : SeatsKept s) (bookings : s'.bookings = s.bookings)
    (events : ∀ id, (s'.events id).map (·.committed) = (s.events id).map (·.committed)) :
    SeatsKept s' := by
  refine ⟨fun b hb => ?_, fun id c row => ?_⟩
  · rw [bookings] at hb
    have was := h.known b hb
    have iff := congrArg Option.isSome (events b.eventId)
    simp only [Option.isSome_map] at iff
    rw [iff]
    exact was
  · have eq := events id
    rw [row] at eq
    obtain ⟨d, old, same⟩ := Option.map_eq_some_iff.mp eq.symm
    have match_ := h.seats id d old
    rwa [bookings, ← show d.committed = c.committed from same]

theorem abort_events (t : Tid) (s : Store) (id : Uuid) :
    ((s.abort t).events id).map (·.committed) = (s.events id).map (·.committed) := by
  unfold abort
  split
  · simp [Option.map_map, Function.comp_def]
  · rfl

theorem SeatsKept.created {s : Store} {t : Tid} {id : Uuid} {row : CreateEvent} (wf : WF s)
    (h : SeatsKept s) (fresh : s.fresh id = true) (full : row.availableSeats = row.totalSeats)
    (pos : 1 ≤ row.totalSeats) :
    SeatsKept ((s.issue id t).putEvent id ⟨newEvent row (s.now t), none⟩) := by
  have unknown : s.events id = none := by
    cases old : s.events id with
    | none => rfl
    | some c => exact absurd (wf.eventKeys id c old) (not_mem_of_fresh fresh)
  refine ⟨fun b hb => ?_, fun id' c hc => ?_⟩
  · by_cases same : b.eventId = id
    · simp [putEvent, same]
    · simpa [putEvent, issue, Function.update_of_ne same] using h.known b hb
  · by_cases same : id' = id
    · subst same
      have eq : c = ⟨newEvent row (s.now t), none⟩ := by
        simpa [putEvent, eq_comm] using hc
      rw [eq]
      refine seatsMatch_nil (fun b hb eq => ?_) full pos rfl
      have known := h.known b hb
      rw [eq, unknown] at known
      cases known
    · refine h.seats id' c ?_
      simpa [putEvent, issue, Function.update_of_ne same] using hc

/-- The COMMIT of a transaction that has locked no event and inserted no booking. -/
theorem SeatsKept.commit_drain {s : Store} {t : Tid} {rows : List OutboxRow} (h : SeatsKept s)
    (owns : Owns t [] [] none rows s) : SeatsKept (s.commitTx t) := by
  refine h.same (by simp [commitTx, owns.bookings]) fun id => ?_
  cases row : s.events id with
  | none => simp [commitTx, row]
  | some c => simp [commitTx, row, Cell.commit_committed, owns.view row]

/-- The COMMIT of a book call: its seats leave the counter as its booking enters the table. -/
theorem SeatsKept.commit_book {s : Store} {t : Tid} {strategy : BookingLockStrategy}
    {eventId : Uuid} {dto : CreateBookingDto} {context : BookingContext} {b : BookingRow}
    {outbox : List OutboxRow} (h : SeatsKept s) (locked : strategy ≠ .none)
    (booking : BookingFor eventId dto context b) (owns : Owns t [b] outbox (some eventId) [] s)
    (seats : Taken strategy eventId dto.quantity t s) : SeatsKept (s.commitTx t) := by
  obtain ⟨cell, row, held, view, enough⟩ := seats locked
  have known : ∀ id, ((s.commitTx t).events id).isSome = (s.events id).isSome :=
    fun id => by simp [commitTx]
  refine ⟨fun b' hb => ?_, fun id c hc => ?_⟩
  · rw [known]
    simp only [commitTx, owns.bookings] at hb
    rcases List.mem_append.mp hb with hb | hb
    · exact h.known b' hb
    · rw [List.mem_singleton.mp hb, booking.eventId, row]; rfl
  · obtain ⟨d, old, rfl⟩ := Option.map_eq_some_iff.mp hc
    have match_ := h.seats id d old
    simp only [commitTx, owns.bookings, Cell.commit_committed]
    by_cases same : id = eventId
    · subst same
      cases Option.some.inj (row.symm.trans old)
      rw [view]
      exact seatsMatch_taken match_ booking.eventId booking.status booking.quantity enough
    · have away : d.heldBy t = false := by
        by_contra mine
        have mine' : s.heldEvent t id = true := by simpa [heldEvent, old] using mine
        exact same (Option.some.inj (owns.events id mine')).symm
      rw [Cell.view_of_not_heldBy away]
      refine seatsMatch_other match_ fun eq => same ?_
      rw [← eq, booking.eventId]

theorem seats_step {s s' : Store} {t : Tid} {e : Effect} {c : Choice} (wf : WF s) (here : At locking t e s)
    (h : SeatsKept s) (touch : Touch t s e c s') : SeatsKept s' := by
  cases touch with
  | rest s' events bookings => exact h.same bookings fun id => by rw [events]
  | begun => exact h.same rfl fun _ => rfl
  | committed act =>
    cases here act with
    | book config eventId dto context b outbox allowed booking owns seats =>
      exact h.commit_book allowed booking owns seats
    | drain rows owns => exact h.commit_drain owns
  | aborted => exact h.same (abort_tables t s).1 (abort_events t s)
  | rolledBack => exact h.same (abort_tables t s).1 (abort_events t s)
  | created id row fresh => exact h.created wf fresh here.1 here.2
  | event id c v _ row =>
    refine h.same rfl fun id' => ?_
    by_cases same : id' = id
    · subst same; simp [putEvent, row]
    · simp [putEvent, Function.update_of_ne same]
  | booking => exact h.same rfl fun _ => rfl
  | message => exact h.same rfl fun _ => rfl
  | selected => exact h.same rfl fun _ => rfl
  | updated => exact h.same rfl fun _ => rfl
  | sent => exact h.same rfl fun _ => rfl

theorem seats_kept {partition : String → String → Nat} {p : ApiPool}
    (run : (api partition).Reach locking.Ok migrated p) : SeatsKept p.shared := by
  refine api_invariant .refl run ⟨fun _ h => (nomatch h), fun _ _ h => nomatch h⟩ ?_ ?_ ?_
  · exact fun t s e c s' r inv here _ h he => seats_step inv.wf here h (exec_touch he)
  · exact fun s d h => h.same rfl fun _ => rfl
  · exact fun _ t s _ h => h.same (abort_tables t s).1 (abort_events t s)

/-- In every state that book calls reach, at any interleaving and with any failures: the counter
is the total less the confirmed seats, it is not negative, and the version counts bookings. -/
theorem seats_never_oversold (partition : String → String → Nat) (p : ApiPool)
    (run : (api partition).Reach locking.Ok migrated p) (eventId : Uuid) (c : Cell EventRow)
    (row : p.shared.events eventId = some c) :
    c.committed.availableSeats =
        c.committed.totalSeats - confirmedQuantity eventId p.shared.bookings ∧
      0 ≤ c.committed.availableSeats ∧
      c.committed.version = (confirmedBookings eventId p.shared.bookings).length := by
  have kept := (seats_kept run).seats eventId c row
  exact ⟨kept.counter, kept.nonneg, kept.version⟩

/- Two seats are for sale, and one call books one of them under the row lock. -/
def oneBooking : List (Act Job Choice Ext) :=
  [.start 0 (.create (.checked "show" "hall" 2 0 "2026-12-01T12:00:00Z" passed)),
    .step 0 (.uuid "e"),
    .start 1 (.book {} "e" (.checked "user-1" 1 passed) {}),
    .step 1 .ok, .step 1 .ok, .step 1 .ok, .step 1 (.uuid "b"), .step 1 (.time 0),
    .step 1 (.uuid "m"), .step 1 .ok, .step 1 .ok, .step 1 .ok]

/- Two calls overlap. The optimistic one has read the counter before the other commits, so its first
update changes no row, and it tries again. -/
def overlappingBookings : List (Act Job Choice Ext) :=
  [.start 0 (.create (.checked "show" "hall" 2 0 "2026-12-01T12:00:00Z" passed)),
    .step 0 (.uuid "e"),
    .start 1 (.book {} "e" (.checked "user-1" 1 passed) {}),
    .start 2
      (.book { booking := { lockStrategy := .optimistic } } "e" (.checked "user-2" 1 passed) {}),
    .step 1 .ok, .step 2 .ok, .step 2 .ok, .step 1 .ok, .step 1 .ok, .step 1 (.uuid "b"),
    .step 1 (.time 0), .step 1 (.uuid "m"), .step 1 .ok, .step 2 .ok, .step 1 .ok, .step 2 .ok,
    .step 1 .ok, .step 2 .ok, .step 2 (.uuid "c"), .step 2 (.time 0), .step 2 (.uuid "n"),
    .step 2 .ok, .step 2 .ok, .step 2 .ok]

theorem seats_never_oversold_two : ∃ (p : ApiPool) (c : Cell EventRow),
    p.shared.bookings.length = 2 ∧ p.shared.events "e" = some c ∧
    (c.committed.availableSeats =
        c.committed.totalSeats - confirmedQuantity "e" p.shared.bookings ∧
      0 ≤ c.committed.availableSeats ∧
      c.committed.version = (confirmedBookings "e" p.shared.bookings).length) := by
  have replay : (((api fun _ _ => 0).run migrated overlappingBookings).map fun p =>
      (p.shared.bookings.length, (p.shared.events "e").isSome)) = some (2, true) := by decide +kernel
  obtain ⟨p, hp, seen⟩ := Option.map_eq_some_iff.mp replay
  obtain ⟨both, known⟩ := Prod.mk.inj seen
  obtain ⟨c, row⟩ := Option.isSome_iff_exists.mp known
  refine ⟨p, c, both, row, seats_never_oversold (fun _ _ => 0) p (any_run hp ?_) "e" c row⟩
  intro t j start
  simp only [overlappingBookings, List.mem_cons, List.not_mem_nil, or_false, reduceCtorEq, false_or,
    Act.start.injEq] at start
  rcases start with ⟨-, rfl⟩ | ⟨-, rfl⟩ | ⟨-, rfl⟩
  · trivial
  · exact fun h => nomatch h
  · exact fun h => nomatch h

end Overbook
