import Overbook.Bookings.AllOrNothing
import Overbook.Discipline.History

/-! The integrity report. It compares the seat row, which one statement reads, with the sum of the
bookings, which a later one reads. -/
namespace Overbook

open Async Prog ReadCommitted Store

variable {partition : String → String → Nat} {R : Regime} {eventId : Uuid} {t : Tid}
  {s s' : Store} {p : ApiPool} {entries : List ApiEntry}

def Books (eventId : Uuid) (z : ApiEntry) : Prop :=
  ∃ b ∈ z.after.bookings, b.eventId = eventId ∧ b ∉ z.before.bookings

theorem exec_books {e : Effect} {c : Choice} {r : Except Err e.Answer} (here : At R t e s)
    (he : exec partition t s e c = some (s', r)) :
    s'.bookings = s.bookings ∨
      ∃ b, s'.bookings = s.bookings ++ [b] ∧ b.status = .confirmed ∧ 1 ≤ b.quantity := by
  rcases touch_commits (exec_touch he) with ⟨rfl, act, rfl⟩ | ⟨same, -⟩
  · cases here act with
    | book config eventId dto context b outbox allowed booking owns =>
      refine .inr ⟨b, congrArg (s.bookings ++ ·) owns.bookings, booking.status, ?_⟩
      rw [booking.quantity]
      exact dto.quantity_min
    | drain rows owns => exact .inl (by simp [commitTx, owns.bookings])
  · exact .inl same

/-- The confirmed seats grow by the steps that commit a booking of the event. -/
theorem books_iff {first last : List ApiEntry} {z : ApiEntry}
    (run : (api partition).History R.Ok migrated (first ++ z :: last) p) :
    confirmedQuantity eventId z.before.bookings ≤ confirmedQuantity eventId z.after.bookings ∧
      (confirmedQuantity eventId z.after.bookings = confirmedQuantity eventId z.before.bookings ↔
        ¬ Books eventId z) := by
  obtain ⟨inv, here, c, answered⟩ := entry_step run
  have nodup := (exec_keeps inv here answered).1.wf.bookings.nodup
  rcases exec_books here answered with same | ⟨b, more, status, positive⟩
  · rw [same]
    refine ⟨le_refl _, iff_of_true rfl ?_⟩
    rintro ⟨b, mem, -, new⟩
    rw [same] at mem
    exact new mem
  · have new : b ∉ z.before.bookings := by
      intro old
      rw [more, List.map_append] at nodup
      exact List.disjoint_of_nodup_append nodup (List.mem_map_of_mem old) (by simp)
    have only : Books eventId z ↔ b.eventId = eventId := by
      refine ⟨?_, fun event => ⟨b, by simp [more], event, new⟩⟩
      rintro ⟨b', mem, event, new'⟩
      rw [more] at mem
      rcases List.mem_append.mp mem with old | last
      · exact absurd old new'
      · rwa [List.mem_singleton.mp last] at event
    rw [only, more, confirmedQuantity_snoc]
    by_cases event : b.eventId = eventId
    · rw [if_pos ⟨event, status⟩]
      refine ⟨by omega, ⟨fun same => by omega, fun other => absurd event other⟩⟩
    · rw [if_neg fun h => event h.1]
      exact ⟨by omega, iff_of_true rfl event⟩

theorem logged_bookings {q : ApiPool} {a : Act Job Choice Ext}
    (st : (api partition).step p a = some q) :
    (∃ z, (api partition).logged p a = [z] ∧ z.before = p.shared ∧ z.after = q.shared) ∨
      ((api partition).logged p a = [] ∧ q.shared.bookings = p.shared.bookings) := by
  have unfolds := step_unfolds st
  generalize (api partition).logged p a = new at unfolds
  cases unfolds with
  | answer z was is => exact .inl ⟨z, rfl, was, is⟩
  | quiet same => exact .inr ⟨rfl, by rw [same]⟩
  | env x happened => exact .inr ⟨rfl, (ext_tables happened).1⟩

/-- From one entry on, the confirmed seats stay what they are exactly while no booking of the event
commits. -/
theorem sum_kept_iff (run : (api partition).History R.Ok migrated entries p)
    {first last : List ApiEntry} {z : ApiEntry} (split : entries = first ++ z :: last) :
    confirmedQuantity eventId z.before.bookings ≤ confirmedQuantity eventId p.shared.bookings ∧
      (confirmedQuantity eventId p.shared.bookings = confirmedQuantity eventId z.before.bookings ↔
        ∀ w ∈ z :: last, ¬ Books eventId w) := by
  induction run generalizing last with
  | refl => simp at split
  | @step entries q q' a before ok st ih =>
    rcases logged_bookings st with ⟨x, logged, was, is⟩ | ⟨quiet, same⟩
    · rw [logged] at split
      have run : (api partition).History R.Ok migrated (entries ++ [x]) q' := logged ▸ before.step ok st
      obtain ⟨grows, books⟩ := @books_iff _ _ eventId _ _ _ _ run
      rw [is] at grows books
      rcases List.eq_nil_or_concat last with rfl | ⟨earlier, y, rfl⟩
      · -- the step is the entry itself
        obtain ⟨rfl, eq⟩ := List.append_inj' split rfl
        cases List.singleton_inj.mp eq
        simpa using And.intro grows books
      · rw [List.concat_eq_append, ← List.cons_append, ← List.append_assoc] at split
        obtain ⟨earlier_split, eq⟩ := List.append_inj' split rfl
        cases List.singleton_inj.mp eq
        obtain ⟨grew, kept⟩ := ih earlier_split
        rw [was] at grows books
        refine ⟨grew.trans grows, ?_⟩
        rw [List.concat_eq_append, ← List.cons_append, List.forall_mem_append,
          List.forall_mem_singleton, ← kept, ← books]
        constructor
        · intro same
          omega
        · rintro ⟨same, same'⟩
          omega
    · rw [quiet, List.append_nil] at split
      rw [same]
      exact ih split

theorem unanswered_idle (run : (api partition).History R.Ok migrated entries p)
    (none : eventsOf t entries = []) : p.shared.active t = false := by
  induction run with
  | refl => rfl
  | @step entries q q' a before ok st ih =>
    have earlier : eventsOf t entries = [] := by
      rw [eventsOf_append] at none
      exact (List.append_eq_nil_iff.mp none).1
    have idle := ih earlier
    cases Machine.steps_of_step st with
    | @start t' j => exact (congrArg (active t) (settle_shared t' j q.shared _)).trans idle
    | @step t' c j e k s r live answered =>
      rw [Machine.logged_step live answered] at none
      have other : t ≠ t' := by
        rintro rfl
        rw [eventsOf_own entries ⟨t, e, r, q.shared, s⟩] at none
        simp at none
      refine (congrArg (active t) (settle_shared t' j s _)).trans ?_
      rw [active_congr (touch_tx other (exec_touch answered))]
      exact idle
    | kill => exact idle
    | @env x s happened =>
      cases x with
      | tick d => cases Option.some.inj happened; exact idle
      | abortTx t' =>
        cases Option.some.inj happened
        exact (active_congr ((frame_abort t').idle idle)).trans idle

theorem runs_integrity {events : List Exchange} {report : SeatIntegrity}
    (run : Runs (integrity eventId) events (.ok report)) :
    ∃ event n, events = [⟨.findEvent eventId, .ok (some event)⟩, ⟨.sumConfirmed eventId, .ok n⟩] ∧
      report = ⟨eventId, event.totalSeats, event.availableSeats, n,
        max 0 ((n : Int) - event.totalSeats), event.availableSeats != event.totalSeats - n⟩ := by
  obtain ⟨r, rest, rfl, found⟩ := runs_first run
  cases r with
  | error x => cases (runs_fail found).2
  | ok row =>
    cases row with
    | none => cases (runs_fail found).2
    | some event =>
      obtain ⟨r, rest, rfl, summed⟩ := runs_first found
      cases r with
      | error x => cases (runs_fail summed).2
      | ok n =>
        obtain ⟨rfl, same⟩ := runs_done summed
        exact ⟨event, n, rfl, Except.ok.inj same⟩

theorem runs_report {events : List Exchange} {report : SeatIntegrity}
    (run : Runs (Job.integrity eventId).code events (.ok (.integrity report))) :
    ∃ event n, events = [⟨.findEvent eventId, .ok (some event)⟩, ⟨.sumConfirmed eventId, .ok n⟩] ∧
      report = ⟨eventId, event.totalSeats, event.availableSeats, n,
        max 0 ((n : Int) - event.totalSeats), event.availableSeats != event.totalSeats - n⟩ := by
  obtain ⟨first, r, inner, after⟩ := runs_bind run
  cases after with
  | threw other => cases other
  | went after =>
    obtain ⟨rfl, same⟩ := runs_done after
    cases same
    rw [List.append_nil]
    exact runs_integrity inner

theorem sumConfirmed_ok {c : Choice} {n : Nat}
    (h : exec partition t s (.sumConfirmed eventId) c = some (s', .ok n)) :
    n = confirmedQuantity eventId s.bookings := by
  cases c <;> simp only [exec, failed, Option.some.injEq, Prod.mk.injEq, reduceCtorEq,
    and_false, Except.ok.injEq] at h
  exact h.2.symm

/-- A task that holds no lock on the event reads the committed row, which tells the truth about the
seats. -/
theorem read_row {first last : List ApiEntry} {event : EventRow}
    (run : (api partition).History locking.Ok migrated
      (first ++ ⟨t, .findEvent eventId, .ok (some event), s, s'⟩ :: last) p)
    (free : s.heldEvent t eventId = false) :
    s' = s ∧ ∃ cell, s.events eventId = some cell ∧ cell.committed = event ∧
      SeatsMatch s.bookings eventId event := by
  obtain ⟨-, -, c, read⟩ := entry_step run
  obtain ⟨r, before, shared, -⟩ := run.since
  dsimp only at read shared
  obtain ⟨same, row⟩ := findEvent_ok read
  obtain ⟨cell, here, view⟩ := Option.map_eq_some_iff.mp row.symm
  rw [Cell.view_of_not_heldBy (by simpa [heldEvent, here] using free)] at view
  have kept := shared ▸ seats_kept before.reach
  exact ⟨same, cell, here, view, view ▸ kept.seats eventId cell here⟩

/-- Under the safe strategies, with any failures: a report never tells of overselling, and it tells
of drift exactly when a booking of the event commits between its two statements. -/
theorem integrity_exact (partition : String → String → Nat) (entries : List ApiEntry) (p : ApiPool)
    (run : (api partition).History locking.Ok migrated entries p) (t : Tid) (eventId : Uuid)
    (report : SeatIntegrity) (ended : p.slot t = .ended (.integrity eventId) (.ok (.integrity report))) :
    ∃ first x between y last, entries = first ++ x :: (between ++ y :: last) ∧
      x.task = t ∧ x.effect = .findEvent eventId ∧ y.task = t ∧ y.effect = .sumConfirmed eventId ∧
      report.oversoldBy = 0 ∧
      (report.counterDrift = false ↔ ∀ z ∈ between, ¬ Books eventId z) := by
  obtain ⟨event, n, events, rfl⟩ := runs_report (run.runs ended)
  obtain ⟨first, x, tail, rfl, x_task, found, none, one⟩ :=
    eventsOf_split (show eventsOf t entries = [] ++ _ :: _ from events)
  obtain ⟨between, y, last, rfl, y_task, summed, -, -⟩ :=
    eventsOf_split (show eventsOf t tail = [] ++ _ :: _ from one)
  obtain ⟨t₁, e₁, r₁, s₁, s₁'⟩ := x
  obtain ⟨t₂, e₂, r₂, s₂, s₂'⟩ := y
  cases x_task
  cases y_task
  cases found
  cases summed
  refine ⟨first, _, between, _, last, rfl, rfl, rfl, rfl, rfl, ?_⟩
  dsimp only at run none
  obtain ⟨r₀, start, was₀, -⟩ := run.since
  have idle := was₀ ▸ unanswered_idle start none
  have free := (entry_step run).1.wf.quietEvents _ idle eventId
  obtain ⟨rfl, cell, here, committed, seats⟩ := read_row run free
  rw [← List.cons_append, ← List.append_assoc] at run
  obtain ⟨-, -, c, sum⟩ := entry_step run
  obtain ⟨r, middle, shared, -⟩ := run.since
  dsimp only at sum shared
  obtain ⟨r', earlier, was, later⟩ := middle.since
  dsimp only at was
  have total : n = confirmedQuantity eventId r.shared.bookings := shared ▸ sumConfirmed_ok sum
  obtain ⟨-, kept⟩ := @sum_kept_iff _ _ eventId _ _ middle _ _ _ rfl
  have room : (n : Int) ≤ event.totalSeats := by
    obtain ⟨cell', here', size⟩ := (locking_lasts earlier.reach later).totals eventId cell (was ▸ here)
    have match_ := (seats_kept middle.reach).seats eventId cell' here'
    have counter := match_.counter
    have nonneg := match_.nonneg
    rw [size, committed, ← total] at counter
    omega
  have counter := seats.counter
  rw [List.forall_mem_cons, and_iff_right fun ⟨b, mem, _, new⟩ => new mem] at kept
  dsimp only at kept ⊢
  refine ⟨by omega, ?_⟩
  rw [← kept, ← total, bne_eq_false_iff_eq]
  constructor <;> intro same <;> omega

def driftOf : Slot Job Effect Effect.Answer Err Response → Option (Uuid × Bool)
  | .ended (.integrity eventId) (.ok (.integrity report)) => some (eventId, report.counterDrift)
  | _ => none

theorem driftOf_some {slot : Slot Job Effect Effect.Answer Err Response} {drift : Bool}
    (h : driftOf slot = some (eventId, drift)) : ∃ report,
      slot = .ended (.integrity eventId) (.ok (.integrity report)) ∧ report.counterDrift = drift := by
  unfold driftOf at h
  split at h
  · cases h
    exact ⟨_, rfl, rfl⟩
  · cases h

/- One of two seats is booked between the two statements of a report. -/
def bookedBetween : List (Act Job Choice Ext) :=
  [.start 0 (.create (.checked "show" "hall" 2 0 "2026-12-01T12:00:00Z" passed)),
    .step 0 (.uuid "e"),
    .start 2 (.integrity "e"), .step 2 .ok,
    .start 1 (.book {} "e" (.checked "user-1" 1 passed) {}),
    .step 1 .ok, .step 1 .ok, .step 1 .ok, .step 1 (.uuid "b"), .step 1 (.time 0),
    .step 1 (.uuid "m"), .step 1 .ok,
    .step 2 .ok]

theorem bookedBetween_reports : ∃ p report, (api fun _ _ => 0).Reach locking.Ok migrated p ∧
    p.slot 2 = .ended (.integrity "e") (.ok (.integrity report)) ∧ report.counterDrift = true := by
  have replay : (((api fun _ _ => 0).run migrated bookedBetween).map fun p =>
      driftOf (p.slot 2)) = some (some ("e", true)) := by decide +kernel
  obtain ⟨p, hp, seen⟩ := Option.map_eq_some_iff.mp replay
  obtain ⟨report, ended, drift⟩ := driftOf_some seen
  refine ⟨p, report, any_run hp ?_, ended, drift⟩
  intro t j start
  simp only [bookedBetween, List.mem_cons, List.not_mem_nil, or_false, reduceCtorEq, false_or,
    Act.start.injEq] at start
  rcases start with ⟨-, rfl⟩ | ⟨-, rfl⟩ | ⟨-, rfl⟩
  · trivial
  · trivial
  · intro naive
    cases naive

/-- A report between whose statements a seat is booked tells of drift. -/
theorem integrity_drifts : ¬ ∀ (p : ApiPool) (t : Tid) (eventId : Uuid) (report : SeatIntegrity),
    (api fun _ _ => 0).Reach locking.Ok migrated p →
    p.slot t = .ended (.integrity eventId) (.ok (.integrity report)) →
    report.oversoldBy = 0 ∧ report.counterDrift = false := by
  intro holds
  obtain ⟨p, report, run, ended, drift⟩ := bookedBetween_reports
  have quiet := (holds p 2 "e" report run ended).2
  rw [drift] at quiet
  cases quiet

theorem integrity_exact_between : ∃ (entries : List ApiEntry) (p : ApiPool) (report : SeatIntegrity),
    (api fun _ _ => 0).History locking.Ok migrated entries p ∧ report.counterDrift = true ∧
    ∃ first x between y last, entries = first ++ x :: (between ++ y :: last) ∧
      x.task = 2 ∧ x.effect = .findEvent "e" ∧ y.task = 2 ∧ y.effect = .sumConfirmed "e" ∧
      report.oversoldBy = 0 ∧
      (report.counterDrift = false ↔ ∀ z ∈ between, ¬ Books "e" z) := by
  obtain ⟨p, report, run, ended, drift⟩ := bookedBetween_reports
  obtain ⟨entries, history⟩ := Machine.History.of_reach run
  exact ⟨entries, p, report, history, drift,
    integrity_exact (fun _ _ => 0) entries p history 2 "e" report ended⟩

end Overbook
