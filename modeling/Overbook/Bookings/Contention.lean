import Overbook.Async.Errors
import Overbook.Bookings.Integrity

/-! Optimistic calls that are rejected for contention. Each failed compare-and-set has lost to a
booking that committed after the row was read. -/
namespace Overbook

open Async Prog ReadCommitted Store

def Unconflicted (x : Err) : Prop := ∀ message, x ≠ .conflict message

def Refusing (x : Err) : Prop := ∀ message, x = .conflict message → x = soldOut

def Losses (events : List Exchange) : Prop := ∀ y ∈ events, ∀ x, y.2 = .error x → x = lost

variable {config : AppConfiguration} {eventId : Uuid} {dto : CreateBookingDto}
  {context : BookingContext} {events : List Exchange} {quantity : Nat} {x : Err}

theorem lost_unconflicted : ∀ x, x = lost → Unconflicted x := by
  rintro x rfl message same
  cases same

theorem Losses.append {later : List Exchange} (h : Losses (events ++ later)) :
    Losses events ∧ Losses later :=
  ⟨fun y hy => h y (List.mem_append_left _ hy), fun y hy => h y (List.mem_append_right _ hy)⟩

theorem ask_unconflicted (e : Effect) : (ask e).Throws (· = lost) Unconflicted :=
  throws_await lost_unconflicted e

theorem integrity_unconflicted : (integrity eventId).Throws (· = lost) Unconflicted := by
  refine throws_bind (ask_unconflicted _) fun row => ?_
  cases row with
  | none => exact nofun
  | some event => exact throws_bind (ask_unconflicted _) fun _ => trivial

theorem afterCommit_unconflicted {b : BookingRow} {result : Decremented} :
    (afterCommit config eventId context b result).Throws (· = lost) Unconflicted := by
  unfold afterCommit
  refine throws_bind (ask_unconflicted _) fun _ => ?_
  refine throws_bind (throws_caught fun _ => trivial) fun _ => ?_
  refine throws_bind (throws_runIf (throws_bind integrity_unconflicted fun _ =>
    throws_runIf (ask_unconflicted _))) fun _ => ?_
  refine throws_bind (throws_runIf (ask_unconflicted _)) fun _ => ?_
  exact throws_bind (throws_runIf (throws_caught fun _ => trivial)) fun _ => trivial

theorem enqueueConfirmed_unconflicted {b : BookingRow} {result : Decremented} :
    (enqueueConfirmed config eventId context b result).Throws (· = lost) Unconflicted := by
  unfold enqueueConfirmed enqueue
  refine throws_bind (throws_bind (ask_unconflicted _) fun _ => ask_unconflicted _) fun _ => trivial

/-- A transaction that throws a conflict has thrown it before its COMMIT, and rolls back. -/
theorem runs_conflict {α : Type} {run : Service α} {message : String}
    (h : Runs (transaction run) events (.error (.conflict message))) (losses : Losses events) :
    ∃ inner r, events = ⟨.beginTx, .ok ()⟩ :: (inner ++ [⟨.rollbackTx, r⟩]) ∧
      Runs run inner (.error (.conflict message)) := by
  rcases runs_handle h with ⟨a, other, -⟩ | ⟨x, first, rest, whole, undo, rfl⟩
  · cases other
  · obtain ⟨early, -⟩ := losses.append
    obtain ⟨r, rfl, rfl⟩ : ∃ r, rest = [⟨.rollbackTx, r⟩] ∧ x = .conflict message := by
      obtain ⟨undone, o, rolled, after⟩ := runs_bind undo
      rcases runs_handle rolled with ⟨u, rfl, back⟩ | ⟨y, part, none, back, caught, rfl⟩
      · cases after with
        | went last =>
          obtain ⟨rfl, same⟩ := runs_fail last
          cases Except.error.inj same
          exact ⟨.ok u, by rw [runs_await back, List.append_nil], rfl⟩
      · obtain ⟨rfl, rfl⟩ := runs_done caught
        cases after with
        | went last =>
          obtain ⟨rfl, same⟩ := runs_fail last
          cases Except.error.inj same
          exact ⟨.error y, by rw [runs_await back, List.append_nil, List.append_nil], rfl⟩
    obtain ⟨begun, later, rfl, body⟩ := runs_first whole
    cases begun with
    | error y =>
      have gone := early _ (List.mem_cons_self ..) y rfl
      cases (runs_fail body).2
      cases gone
    | ok u =>
      have body : Runs (run >>= fun result => do ask .commitTx; pure result) later
        (.error (.conflict message)) := body
      obtain ⟨inner, o, ran, after⟩ := runs_bind body
      cases after with
      | threw same =>
        cases Except.error.inj same
        exact ⟨_, r, rfl, ran⟩
      | went closing =>
        obtain ⟨committed, last, rfl, ended⟩ := runs_first closing
        cases committed with
        | error y =>
          have gone := early ⟨.commitTx, .error y⟩ (by simp) y rfl
          cases (runs_fail ended).2
          cases gone
        | ok v => cases (runs_done ended).2

/-- A book call that throws a conflict has been refused its seats. -/
theorem book_conflict {message : String}
    (h : Runs (book config eventId dto context) events (.error (.conflict message)))
    (losses : Losses events) : ∃ inner r u,
      events = ⟨.beginTx, .ok ()⟩ :: (inner ++ [⟨.rollbackTx, r⟩,
        ⟨.bookingsTotal .sold_out config.booking.lockStrategy, u⟩]) ∧
      Runs (decrement config.booking eventId dto.quantity) inner (.error (.conflict message)) := by
  rcases runs_handle h with ⟨a, other, -⟩ | ⟨x, first, rest, whole, last, rfl⟩
  · cases other
  · obtain ⟨early, late⟩ := losses.append
    obtain ⟨u, rfl, rfl⟩ : ∃ u, rest = [⟨.bookingsTotal x.bookingResult
        config.booking.lockStrategy, u⟩] ∧ x = .conflict message := by
      obtain ⟨counted, tail, rfl, threw⟩ := runs_first last
      cases counted with
      | error y =>
        have gone := late _ (List.mem_cons_self ..) y rfl
        cases (runs_fail threw).2
        cases gone
      | ok u =>
        obtain ⟨rfl, same⟩ := runs_fail threw
        cases Except.error.inj same
        exact ⟨.ok u, rfl, rfl⟩
    obtain ⟨sold, o, tried, after⟩ := runs_bind whole
    cases after with
    | @went a tail after =>
      have plain : (afterCommit config eventId context a.1 a.2).Throws (· = lost) Unconflicted :=
        afterCommit_unconflicted
      have none := plain.runs after (fun y hy => early y (List.mem_append_right _ hy)) _ rfl
      exact absurd rfl (none message)
    | threw same =>
      cases Except.error.inj same
      obtain ⟨inner, r, rfl, ran⟩ := runs_conflict tried early
      have inside : Losses inner := fun y hy => early y (by simp [hy])
      refine ⟨inner, r, u, by simp [Err.bookingResult], ?_⟩
      obtain ⟨taking, o, taken, rest⟩ := runs_bind ran
      cases rest with
      | threw same =>
        cases Except.error.inj same
        exact taken
      | @went result tail rest =>
        have plain : (do
            let booking ← ask (.insertBooking (askedBooking eventId dto context))
            runIf config.outbox.enqueues (enqueueConfirmed config eventId context booking result)
            pure (booking, result) : Service (BookingRow × Decremented)).Throws (· = lost)
            Unconflicted := by
          refine throws_bind (ask_unconflicted _) fun booking => ?_
          exact throws_bind (throws_runIf enqueueConfirmed_unconflicted) fun _ => trivial
        have none := plain.runs rest (fun y hy => inside y (List.mem_append_right _ hy)) _ rfl
        exact absurd rfl (none message)

/-- The rounds of an optimistic call that is rejected: each has read the row with seats enough, and
its update has not found it any more. -/
inductive Tries (eventId : Uuid) (quantity : Nat) : Nat → List Exchange → Prop
  | none : Tries eventId quantity 0 []
  | missed {rounds : Nat} {row : EventRow} {patch : EventPatch} {affected : Nat}
      {rest : List Exchange} : (quantity : Int) ≤ row.availableSeats → affected ≠ 1 →
      Tries eventId quantity rounds rest → Tries eventId quantity (rounds + 1)
        (⟨.findEvent eventId, .ok (some row)⟩ ::
          ⟨.updateEvent eventId (unchanged row quantity) patch, .ok affected⟩ :: rest)

theorem seatsFor_conflict {row : Option EventRow} {message : String}
    (h : seatsFor eventId quantity row = .error (.conflict message)) :
    Err.conflict message = soldOut := by
  cases row with
  | none => cases h
  | some event =>
    simp only [seatsFor] at h
    split at h
    · exact (Except.error.inj h).symm
    · cases h

theorem rounds_conflict {rounds : Nat} {message : String}
    (run : Runs (optimisticRounds eventId quantity rounds) events (.error (.conflict message)))
    (losses : Losses events) : Err.conflict message = soldOut ∨
      (Err.conflict message = contended ∧ Tries eventId quantity rounds events) := by
  induction rounds generalizing events with
  | zero =>
    obtain ⟨rfl, same⟩ := runs_fail run
    exact .inr ⟨Except.error.inj same, .none⟩
  | succ rounds ih =>
    obtain ⟨read, rest, rfl, later⟩ := runs_first run
    cases read with
    | error y =>
      have gone := losses _ (List.mem_cons_self ..) y rfl
      cases (runs_fail later).2
      cases gone
    | ok row =>
      have later : Runs (Prog.ofExcept (seatsFor eventId quantity row) >>= fun event => do
          let affected ← ask (.updateEvent eventId (unchanged event quantity)
            { availableSeats := fun row => row.availableSeats - quantity
              version := fun row => row.version + 1 })
          if affected = 1 then
            pure { seatsRemaining := event.availableSeats - quantity, eventName := event.name }
          else optimisticRounds eventId quantity rounds) rest (.error (.conflict message)) := later
      obtain ⟨checked, o, seats, after⟩ := runs_bind later
      obtain ⟨rfl, rfl⟩ := runs_ofExcept seats
      generalize passed : seatsFor eventId quantity row = o at after
      cases after with
      | threw same =>
        cases Except.error.inj same
        exact .inl (seatsFor_conflict passed)
      | went after =>
        obtain ⟨rfl, enough⟩ := seatsFor_ok passed
        obtain ⟨written, rest, rfl, goes⟩ := runs_first after
        cases written with
        | error y =>
          have gone := losses _ (List.mem_cons_of_mem _ (List.mem_cons_self ..)) y rfl
          cases (runs_fail goes).2
          cases gone
        | ok affected =>
          have goes : Runs (if affected = 1 then _ else optimisticRounds eventId quantity rounds) rest
            (.error (.conflict message)) := goes
          by_cases hit : affected = 1
          · rw [if_pos hit] at goes
            cases (runs_done goes).2
          · rw [if_neg hit] at goes
            rcases ih goes fun y hy => losses y (by simp [hy]) with refused | ⟨same, tries⟩
            · exact .inl refused
            · exact .inr ⟨same, .missed enough hit tries⟩

theorem seats_refuse {α : Type} {e : Effect} {read : e.Answer → Option EventRow}
    {f : EventRow → Service α} (next : ∀ event, (f event).Throws (· = lost) Unconflicted) :
    (do let event ← Prog.ofExcept (seatsFor eventId quantity (read (← ask e))); f event).Throws
      (· = lost) Refusing := by
  refine throws_bind (throws_await (fun x gone => ?_) e) fun row => ?_
  · rintro message rfl
    cases gone
  · refine throws_bind (throws_ofExcept fun x refused => ?_) fun event => ?_
    · rintro message rfl
      exact seatsFor_conflict refused
    · exact (next event).mono fun x plain message same => absurd same (plain message)

/-- Every strategy refuses because seats are short; only the optimistic one gives up. -/
theorem decrement_conflict {config : BookingConfig} {message : String}
    (run : Runs (decrement config eventId quantity) events (.error (.conflict message)))
    (losses : Losses events) : Err.conflict message = soldOut ∨
      (Err.conflict message = contended ∧ config.lockStrategy = .optimistic ∧
        Tries eventId quantity (config.optimisticMaxRetries + 1).toNat events) := by
  cases strategy : config.lockStrategy with
  | none =>
    have plain : (decrement config eventId quantity).Throws (· = lost) Refusing := by
      rw [decrement, strategy]
      exact seats_refuse fun event => throws_bind (ask_unconflicted _) fun _ => trivial
    exact .inl (plain.runs run losses _ rfl message rfl)
  | pessimistic =>
    have plain : (decrement config eventId quantity).Throws (· = lost) Refusing := by
      rw [decrement, strategy]
      exact seats_refuse fun event => throws_bind (ask_unconflicted _) fun _ => trivial
    exact .inl (plain.runs run losses _ rfl message rfl)
  | optimistic =>
    rw [decrement, strategy] at run
    rcases rounds_conflict run losses with refused | ⟨same, tries⟩
    · exact .inl refused
    · exact .inr ⟨same, rfl, tries⟩

/- Answers that leave all seat rows as they are: a BEGIN, a read, an update that finds no row. -/
def Exchange.seeks : Exchange → Prop
  | ⟨.beginTx, .ok _⟩ => True
  | ⟨.findEvent _, .ok _⟩ => True
  | ⟨.updateEvent .., .ok affected⟩ => affected ≠ 1
  | _ => False

def confirmedCount (eventId : Uuid) (s : Store) : Nat :=
  (confirmedBookings eventId s.bookings).length

variable {partition : String → String → Nat} {R : Regime} {t : Tid} {s s' : Store} {p : ApiPool}
  {entries first last : List ApiEntry}

theorem exec_seeks {e : Effect} {c : Choice} {r : Except Err e.Answer}
    (seeks : Exchange.seeks ⟨e, r⟩) (h : exec partition t s e c = some (s', r)) :
    s'.events = s.events := by
  unfold Exchange.seeks at seeks
  split at seeks
  · rename_i same
    cases same
    rw [(begin_ok h).2]
    rfl
  · rename_i same
    cases same
    rw [(findEvent_ok h).1]
  · rename_i same
    cases same
    obtain ⟨-, ⟨rfl, -⟩ | ⟨cell, -, -, -, -, one⟩⟩ := updateEvent_ok h
    · rfl
    · exact absurd one seeks
  · exact seeks.elim

theorem frame_free (wf : WF s') (frame : Frame t s s') {id : Uuid}
    (free : s.heldEvent t id = false) : s'.heldEvent t id = false := by
  cases act : s'.active t with
  | false => exact wf.quietEvents t act id
  | true =>
    by_contra held
    have same := frame.events act id (.inr (by simpa using held))
    rw [heldEvent, same] at held
    exact held free

/-- A call that has only been seeking has no lock on a seat row. -/
theorem seeking_free (run : (api partition).History R.Ok migrated entries p)
    (seeks : ∀ y ∈ eventsOf t entries, Exchange.seeks y) (id : Uuid) :
    p.shared.heldEvent t id = false := by
  induction run with
  | refl => rfl
  | @step entries q q' a before ok st ih =>
    have inv := (api_sound (before.reach.step ok st)).inv
    have free := ih fun y hy => seeks y (by
      rw [eventsOf_append]
      exact List.mem_append_left _ hy)
    cases Machine.steps_of_step st with
    | @start t' j =>
      rw [Machine.put, settle_shared]
      exact free
    | @step t' c j e k s r live answered =>
      rw [Machine.put, settle_shared] at inv ⊢
      rw [Machine.logged_step live answered] at seeks
      by_cases same : t' = t
      · subst same
        have mine : Exchange.seeks ⟨e, r⟩ := by
          refine seeks ⟨e, r⟩ ?_
          rw [eventsOf_own entries ⟨t', e, r, q.shared, s⟩]
          exact List.mem_append_right _ (List.mem_singleton_self _)
        rw [heldEvent, exec_seeks mine answered]
        exact free
      · have was := (api_sound before.reach).inv.wf
        exact frame_free inv.wf (touch_frame was (Ne.symm same) (exec_touch answered)) free
    | kill => exact free
    | @env x s happened => exact frame_free inv.wf (ext_frame happened t) free

theorem entries_last {x y : ApiEntry}
    (run : (api partition).History locking.Ok migrated (first ++ y :: last) p) (hx : x ∈ first) : Lasts x.before y.before := by
  obtain ⟨r, before, shared, -⟩ := run.since
  obtain ⟨early, late, rfl⟩ := List.append_of_mem hx
  obtain ⟨r', start, shared', between⟩ := before.since
  rw [← shared, ← shared']
  exact locking_lasts start.reach between

/-- A round that is missed has lost to a booking of the event: one has committed since it has read
the row. -/
theorem missed_lost {x y : ApiEntry} {row : EventRow} {patch : EventPatch} {affected : Nat}
    {between : List ApiEntry} (run : (api partition).History locking.Ok migrated
      (first ++ x :: (between ++ y :: last)) p)
    (read : x.event = ⟨.findEvent eventId, .ok (some row)⟩)
    (written : y.event = ⟨.updateEvent eventId (unchanged row quantity) patch, .ok affected⟩)
    (enough : (quantity : Int) ≤ row.availableSeats) (missed : affected ≠ 1)
    (free : x.before.heldEvent x.task eventId = false)
    (free' : y.before.heldEvent y.task eventId = false) :
    confirmedCount eventId x.before < confirmedCount eventId y.before := by
  have late := run
  rw [← List.cons_append, ← List.append_assoc] at late
  have lasts : Lasts x.before y.before := entries_last late (by simp)
  obtain ⟨-, -, c, answered⟩ := entry_step late
  obtain ⟨r, reached, shared, -⟩ := late.since
  have kept : SeatsKept y.before := shared ▸ seats_kept reached.reach
  obtain ⟨t, e, o, s, s'⟩ := x
  obtain ⟨t', e', o', s₁, s₁'⟩ := y
  cases read
  cases written
  dsimp only at run late lasts answered kept free free' ⊢
  obtain ⟨-, cell, here, rfl, seats⟩ := read_row run free
  obtain ⟨cell', here', total⟩ := lasts.totals eventId cell here
  have view : cell'.view t' = cell'.committed :=
    Cell.view_of_not_heldBy (by simpa [heldEvent, here'] using free')
  obtain ⟨-, ⟨-, -, other⟩ | ⟨_, -, -, -, -, one⟩⟩ := updateEvent_ok answered
  · have changed := other cell' here'
    rw [view] at changed
    have now := kept.seats eventId cell' here'
    have sub : confirmedBookings eventId s.bookings <+: confirmedBookings eventId s₁.bookings :=
      lasts.grows.bookings.filter _
    refine Nat.lt_of_le_of_ne sub.length_le fun same => ?_
    -- with no booking in between, the row would still be as it was read
    have version : cell'.committed.version = cell.committed.version := by
      rw [now.version, seats.version]
      exact same.symm
    have seen : Seen eventId cell.committed s₁ :=
      ⟨s.bookings, cell', lasts.grows.bookings, here', seats.version, by rw [total, seats.counter]⟩
    have left := seen_current kept seen here' version
    simp [unchanged, version, ← left, enough] at changed
  · exact absurd one missed

theorem Lasts.confirmed (h : Lasts s s') : confirmedCount eventId s ≤ confirmedCount eventId s' :=
  (h.grows.bookings.filter _).length_le

/-- Each of the rounds is paid for by one more booking of the event. -/
theorem tries_paid {rounds : Nat} {tries after : List Exchange} {y : Exchange}
    (h : Tries eventId quantity rounds tries) {rest : List ApiEntry}
    (run : (api partition).History locking.Ok migrated (first ++ rest) p)
    (seeks : ∀ x ∈ eventsOf t first, Exchange.seeks x)
    (split : eventsOf t rest = tries ++ y :: after) :
    ∃ between z last, rest = between ++ z :: last ∧ z.task = t ∧ z.event = y ∧
      ∀ x ∈ first, confirmedCount eventId x.before + rounds ≤ confirmedCount eventId z.before := by
  induction h generalizing first rest with
  | none =>
    obtain ⟨between, z, last, rfl, task, event, -, -⟩ := eventsOf_split split
    refine ⟨between, z, last, rfl, task, event, fun x hx => ?_⟩
    rw [← List.append_assoc] at run
    exact (entries_last run (List.mem_append_left _ hx)).confirmed
  | @missed rounds row patch affected tries enough missed more ih =>
    obtain ⟨skipped, x, tail, rfl, rfl, read, none, one⟩ :=
      eventsOf_split (show eventsOf t rest = [] ++ _ :: _ from split)
    obtain ⟨skipped', x', tail', rfl, task, written, none', two⟩ :=
      eventsOf_split (show eventsOf x.task tail = [] ++ _ :: _ from one)
    have early : eventsOf x.task (first ++ skipped) = eventsOf x.task first := by
      rw [eventsOf_append, none, List.append_nil]
    have middle : eventsOf x.task (first ++ skipped ++ x :: skipped') =
        eventsOf x.task first ++ [x.event] := by
      rw [eventsOf_append, early, eventsOf_cons, none']
    have late : eventsOf x.task (first ++ skipped ++ x :: skipped' ++ [x']) =
        eventsOf x.task first ++ [x.event] ++ [x'.event] := by
      rw [eventsOf_append, middle, ← task, eventsOf_cons]
      rfl
    have seeks' : ∀ y ∈ eventsOf x.task first ++ [x.event], Exchange.seeks y :=
      List.forall_mem_append.mpr ⟨seeks, List.forall_mem_singleton.mpr (by rw [read]; trivial)⟩
    have seeks'' : ∀ y ∈ eventsOf x.task first ++ [x.event] ++ [x'.event], Exchange.seeks y :=
      List.forall_mem_append.mpr ⟨seeks', List.forall_mem_singleton.mpr (by rw [written]; exact missed)⟩
    have read_run : (api partition).History locking.Ok migrated
        (first ++ skipped ++ x :: (skipped' ++ x' :: tail')) p := by simpa using run
    have write_run : (api partition).History locking.Ok migrated
        (first ++ skipped ++ x :: skipped' ++ x' :: tail') p := by simpa using run
    have lost : confirmedCount eventId x.before < confirmedCount eventId x'.before := by
      obtain ⟨r, before, shared, -⟩ := read_run.since
      obtain ⟨r', before', shared', -⟩ := write_run.since
      have free := seeking_free before (by rw [early]; exact seeks) eventId
      have free' := seeking_free before' (by rw [middle]; exact seeks') eventId
      refine missed_lost read_run read written enough missed (shared ▸ free) ?_
      rw [task]
      exact shared' ▸ free'
    have more_run : (api partition).History locking.Ok migrated
        (first ++ skipped ++ x :: skipped' ++ [x'] ++ tail') p := by simpa using run
    obtain ⟨between, z, last, rfl, task', event, paid⟩ :=
      ih more_run (by rw [late]; exact seeks'') two
    refine ⟨skipped ++ x :: (skipped' ++ x' :: between), z, last, by simp, task', event, ?_⟩
    intro w hw
    have before : confirmedCount eventId w.before ≤ confirmedCount eventId x.before :=
      (entries_last read_run (List.mem_append_left _ hw)).confirmed
    have after := paid x' (by simp)
    omega

theorem exec_adds {e : Effect} {c : Choice} {r : Except Err e.Answer} (wf : WF s)
    (h : exec partition t s e c = some (s', r)) : s'.bookings = s.bookings ∨
      (e = .commitTx ∧ ∃ new, s'.bookings = s.bookings ++ new ∧ ∀ b ∈ new, (b.id, t) ∈ s'.issued) := by
  rcases touch_commits (exec_touch h) with ⟨rfl, -, rfl⟩ | ⟨same, -⟩
  · refine .inr ⟨rfl, (s.tx t).bookings, rfl, fun b hb => ?_⟩
    exact wf.bookings.pending_issued t b.id (List.mem_map_of_mem hb)
  · exact .inl same

/-- Whoever has a committed booking has asked for a COMMIT. -/
theorem booking_commits (run : (api partition).History R.Ok migrated entries p) {b : BookingRow}
    (hb : b ∈ p.shared.bookings) (issued : (b.id, t) ∈ p.shared.issued) :
    ∃ y ∈ eventsOf t entries, y.1 = .commitTx := by
  induction run with
  | refl => cases hb
  | @step entries q q' a before ok st ih =>
    have wf := (api_sound before.reach).inv.wf
    have wf' := (api_sound (before.reach.step ok st)).inv.wf
    have grows : Grows q.shared q'.shared := api_grows before.reach (.step .refl ok st)
    have old : b ∈ q.shared.bookings →
        ∃ y ∈ eventsOf t (entries ++ (api partition).logged q a), y.1 = .commitTx := by
      intro was
      obtain ⟨y, hy, commits⟩ := ih was (issuer_grows wf wf' grows was issued)
      rw [eventsOf_append]
      exact ⟨y, List.mem_append_left _ hy, commits⟩
    cases Machine.steps_of_step st with
    | @start t' j =>
      rw [Machine.put, settle_shared] at hb
      exact old hb
    | @step t' c j e k s r live answered =>
      rw [Machine.put, settle_shared] at hb issued wf'
      rcases exec_adds wf answered with same | ⟨rfl, new, added, mine⟩
      · exact old (same ▸ hb)
      · rw [added] at hb
        rcases List.mem_append.mp hb with was | is_new
        · exact old was
        · have same : t' = t := GeneratedKeys.owner_unique wf'.once (mine b is_new) issued
          subst same
          rw [Machine.logged_step live answered, eventsOf_own entries ⟨t', .commitTx, r, q.shared, s⟩]
          exact ⟨_, List.mem_append_right _ (List.mem_singleton_self _), rfl⟩
    | kill => exact old hb
    | @env x s happened =>
      have same : s.bookings = q.shared.bookings := (ext_tables happened).1
      exact old (same ▸ hb)

theorem tries_reads {rounds : Nat} {tries : List Exchange} (h : Tries eventId quantity rounds tries) :
    ∀ y ∈ tries, y.1 ≠ .commitTx := by
  induction h with
  | none => simp
  | missed enough missed more ih => simpa using ih

theorem entries_losses (run : (api partition).History R.Ok migrated entries p) :
    Losses (eventsOf t entries) := by
  intro y hy x failed
  obtain ⟨z, hz, rfl⟩ := List.mem_map.mp hy
  obtain ⟨first, last, rfl⟩ := List.append_of_mem (List.mem_filter.mp hz).1
  obtain ⟨-, -, c, answered⟩ := entry_step run
  rw [show z.answer = .error x from failed] at answered
  exact error_lost answered

/-- A call that is answered with a 409 has asked for no COMMIT. -/
inductive Refuses (eventId : Uuid) (quantity : Nat) (config : BookingConfig) (x : Err)
    (events : List Exchange) : Prop
  | soldOut : x = soldOut → (∀ y ∈ events, y.1 ≠ .commitTx) → Refuses eventId quantity config x events
  | contended (tries : List Exchange) (r : Except Err Unit) (u : Except Err Unit) : x = contended →
      config.lockStrategy = .optimistic →
      Tries eventId quantity (config.optimisticMaxRetries + 1).toNat tries →
      events = ⟨.beginTx, .ok ()⟩ :: (tries ++ [⟨.rollbackTx, r⟩,
        ⟨.bookingsTotal .sold_out config.lockStrategy, u⟩]) → Refuses eventId quantity config x events

theorem call_refuses {message : String} (run : (api partition).History R.Ok migrated entries p)
    (ended : p.slot t = .ended (.book config eventId dto context) (.error (.conflict message))) :
    Refuses eventId dto.quantity config.booking (.conflict message) (eventsOf t entries) := by
  obtain ⟨o, booked, responds⟩ := runs_code (run.runs ended)
  cases responds
  obtain ⟨inner, r, u, split, refused⟩ := book_conflict booked (entries_losses run)
  have losses : Losses inner := fun y hy => entries_losses run (t := t) y (by simp [split, hy])
  rcases decrement_conflict refused losses with same | ⟨same, strategy, tries⟩
  · refine .soldOut same fun y hy => ?_
    have seats := runs_only refused decrement_seats
    rw [split] at hy
    simp only [List.mem_cons, List.mem_append, List.not_mem_nil, or_false] at hy
    rcases hy with rfl | inside | rfl | rfl
    · exact nofun
    · intro commits
      have seat := seats y inside
      rw [commits] at seat
      exact seat
    · exact nofun
    · exact nofun
  · exact .contended inner r u same strategy tries split

theorem Refuses.answers {x : Err} {config : BookingConfig}
    (h : Refuses eventId quantity config x events) :
    x = Overbook.soldOut ∨ (x = Overbook.contended ∧ config.lockStrategy = .optimistic) := by
  cases h with
  | soldOut same => exact .inl same
  | contended tries r u same strategy => exact .inr ⟨same, strategy⟩

theorem Refuses.uncommitted {x : Err} {config : BookingConfig}
    (h : Refuses eventId quantity config x events) : ∀ y ∈ events, y.1 ≠ .commitTx := by
  cases h with
  | soldOut same none => exact none
  | contended tries r u same strategy lost split =>
    rw [split]
    simp only [List.forall_mem_cons, List.forall_mem_append]
    exact ⟨nofun, tries_reads lost, nofun, nofun, by simp⟩

/-- What a call has lost to between two of its entries: bookings that others have committed. -/
structure LostTo (eventId : Uuid) (t : Tid) (needed : Int) (s s' : Store) (others : List BookingRow) :
    Prop where
  committed : s'.bookings = s.bookings ++ others
  distinct : others.Nodup
  many : needed ≤ (confirmedBookings eventId others).length
  foreign : ∀ b ∈ others, (b.id, t) ∉ s'.issued

/-- A call that gives up after its retries has lost to one more booking than these. -/
theorem gave_up (run : (api partition).History locking.Ok migrated entries p)
    (ended : p.slot t = .ended (.book config eventId dto context) (.error contended)) :
    ∃ first x between y last, entries = first ++ x :: (between ++ y :: last) ∧
      x.task = t ∧ x.effect = .beginTx ∧ y.task = t ∧ y.effect = .rollbackTx ∧
      ∃ others, LostTo eventId t (config.booking.optimisticMaxRetries + 1) x.before y.before others := by
  have refused := call_refuses run ended
  have uncommitted := refused.uncommitted
  cases refused with
  | soldOut same => simp [soldOut] at same
  | contended tries r u same strategy lost split =>
    obtain ⟨first, x, tail, rfl, task, begun, none, later⟩ :=
      eventsOf_split (show eventsOf t entries = [] ++ _ :: _ from split)
    subst task
    have start : eventsOf x.task (first ++ [x]) = [x.event] := by
      rw [eventsOf_append, none, eventsOf_cons]
      rfl
    have begin_run : (api partition).History locking.Ok migrated (first ++ [x] ++ tail) p := by
      simpa using run
    obtain ⟨between, y, last, rfl, task, rolled, paid⟩ := tries_paid lost begin_run (by
      rw [start, List.forall_mem_singleton, begun]
      trivial) later
    have undo_run : (api partition).History locking.Ok migrated
        (first ++ x :: between ++ y :: last) p := by simpa using run
    have lasts : Lasts x.before y.before := entries_last undo_run (by simp)
    obtain ⟨others, added⟩ := lasts.grows.bookings
    obtain ⟨s, reached, shared, -⟩ := undo_run.since
    have nodup := (entry_step undo_run).1.wf.bookings.nodup
    refine ⟨first, x, between, y, last, rfl, rfl, congrArg Sigma.fst begun, task,
      congrArg Sigma.fst rolled, others, added.symm, ?_, ?_, ?_⟩
    · rw [← added, List.map_append] at nodup
      exact (List.nodup_append.mp nodup).2.1.of_map
    · have more := paid x (by simp)
      rw [confirmedCount, confirmedCount, ← added, confirmedBookings, confirmedBookings,
        List.filter_append, List.length_append] at more
      rw [confirmedBookings]
      omega
    · intro b hb issued
      rw [← shared] at issued added
      have mine : b ∈ s.shared.bookings := added ▸ List.mem_append_right _ hb
      obtain ⟨event, mem, commits⟩ := booking_commits reached mine issued
      refine uncommitted event ?_ commits
      have whole : first ++ x :: (between ++ y :: last) = first ++ x :: between ++ y :: last := by simp
      rw [whole, eventsOf_append]
      exact List.mem_append_left _ mem

/-- Every booking of the event belongs to a call of its own that has been confirmed. -/
theorem confirmed_granted (run : (api partition).Reach locking.Ok migrated p) {calls : List Tid}
    (all : ∀ t j, (p.slot t).job = some j → bookCall eventId j ≠ none → t ∈ calls)
    (answered : ∀ t ∈ calls, ∀ b ∈ p.shared.bookings, (b.id, t) ∈ p.shared.issued →
      granted p t = true) : confirmedCount eventId p.shared ≤ calls.countP (granted p) := by
  have assigned := run.assigned .refl
  have sold : ∀ b ∈ confirmedBookings eventId p.shared.bookings, ∃ t,
      (b.id, t) ∈ p.shared.issued ∧ t ∈ calls.filter (granted p) := by
    intro b hb
    obtain ⟨mem, mine⟩ := List.mem_filter.mp hb
    obtain ⟨t, j, issued, job, call⟩ := booker_called assigned b mem
    have event : b.eventId = eventId := by simp at mine; exact mine.1
    have here : t ∈ calls := all t j job (by rw [← event, call]; exact Option.some_ne_none _)
    exact ⟨t, issued, List.mem_filter.mpr ⟨here, answered t here b mem issued⟩⟩
  choose! owner issued granted_ using sold
  have nodup : (confirmedBookings eventId p.shared.bookings).Nodup :=
    (api_sound run).inv.wf.bookings.nodup.of_map.filter _
  have apart : ((confirmedBookings eventId p.shared.bookings).map owner).Nodup := by
    refine nodup.map_on fun b hb b' hb' same => ?_
    have mine := issued b hb
    have mine' := issued b' hb'
    rw [← same] at mine'
    exact booked_once assigned (List.mem_filter.mp hb).1 (List.mem_filter.mp hb').1 mine mine'
  rw [List.countP_eq_length_filter, confirmedCount, ← List.length_map owner]
  refine (List.subperm_of_subset apart fun t ht => ?_).length_le
  obtain ⟨b, hb, rfl⟩ := List.mem_map.mp ht
  exact granted_ b hb

/-- Under the safe strategies, with any failures: a call that is rejected for contention has lost, while
its transaction was open, to one booking of others more than it may retry; and of N calls for one
seat each that are all confirmed or answered with a 409, at least min(N, seats, R + 1) are
confirmed. -/
theorem contention_paid (partition : String → String → Nat) (entries : List ApiEntry) (p : ApiPool)
    (run : (api partition).History locking.Ok migrated entries p) (eventId : Uuid) :
    (∀ t config dto context,
      p.slot t = .ended (.book config eventId dto context) (.error contended) →
      ∃ first x between y last, entries = first ++ x :: (between ++ y :: last) ∧
        x.task = t ∧ x.effect = .beginTx ∧ y.task = t ∧ y.effect = .rollbackTx ∧
        ∃ others, LostTo eventId t (config.booking.optimisticMaxRetries + 1) x.before y.before
          others) ∧
    ∀ (R : Int) (c : Cell EventRow), p.shared.events eventId = some c →
      ∀ calls : List Tid, calls.Nodup →
      (∀ t, t ∈ calls ↔ ∃ j, (p.slot t).job = some j ∧ bookCall eventId j ≠ none) →
      (∀ t ∈ calls, ∃ config dto context r,
        p.slot t = .ended (.book config eventId dto context) r ∧ dto.quantity = 1 ∧
        (config.booking.lockStrategy = .optimistic → R ≤ config.booking.optimisticMaxRetries) ∧
        ((∃ response, r = .ok (.booked response)) ∨ ∃ message, r = .error (.conflict message))) →
      min (min (calls.length : Int) c.committed.totalSeats) (R + 1) ≤
        (calls.countP (granted p) : Nat) := by
  refine ⟨fun t config dto context ended => gave_up run ended, ?_⟩
  intro R c row calls once all answered
  by_cases contention : ∃ t ∈ calls, ∃ j, p.slot t = .ended j (.error contended)
  · obtain ⟨t, ht, j, gave⟩ := contention
    obtain ⟨config, dto, context, r, ended, -, retries, -⟩ := answered t ht
    cases gave.symm.trans ended
    obtain ⟨first, x, between, y, last, rfl, -, -, -, -, others, lost⟩ := gave_up run ended
    have strategy := (call_refuses run ended).answers.resolve_left (by simp [soldOut])
    have enough := retries strategy.2
    have sold : confirmedCount eventId p.shared ≤ calls.countP (granted p) := by
      refine confirmed_granted run.reach (fun t j job call => (all t).mpr ⟨j, job, call⟩) ?_
      intro t ht b hb issued
      obtain ⟨config, dto, context, r, ended, -, -, ⟨response, rfl⟩ | ⟨message, rfl⟩⟩ := answered t ht
      · simp [granted, ended, verdict]
      · obtain ⟨event, mem, commits⟩ := booking_commits run hb issued
        exact absurd commits ((call_refuses run ended).uncommitted event mem)
    have before : (confirmedBookings eventId others).length ≤ confirmedCount eventId y.before := by
      rw [confirmedCount, lost.committed, confirmedBookings, confirmedBookings, List.filter_append,
        List.length_append]
      exact Nat.le_add_left ..
    have later : confirmedCount eventId y.before ≤ confirmedCount eventId p.shared := by
      have late : (api partition).History locking.Ok migrated (first ++ x :: between ++ y :: last) p := by
        simpa using run
      obtain ⟨r, reached, shared, rest⟩ := late.since
      exact shared ▸ (locking_lasts reached.reach rest).confirmed
    have many := lost.many
    omega
  · obtain ⟨past, path⟩ := Machine.Path.of_reach run.reach
    obtain ⟨order, linear, -⟩ := linear_order path row
    have seats := (seats_kept run.reach).seats eventId c row
    have counter := seats.counter
    have nonneg := seats.nonneg
    have confirmed := single_granted (by omega) linear once all fun t ht => by
      obtain ⟨config, dto, context, r, ended, one, -, gave⟩ := answered t ht
      have call : bookCall eventId (.book config eventId dto context) = some 1 := by
        simp [bookCall, one]
      rcases gave with ⟨response, rfl⟩ | ⟨message, rfl⟩
      · exact ⟨_, _, _, ended, call, rfl⟩
      · rcases (call_refuses run ended).answers with same | ⟨same, -⟩
        · exact ⟨_, _, .soldOut, ended, call, by simp [verdict, same]⟩
        · exact absurd ⟨t, ht, _, same ▸ ended⟩ contention
    omega

def hasty : AppConfiguration := { booking := { lockStrategy := .optimistic, optimisticMaxRetries := 0 } }

def twoSeats : CreateEventDto :=
  .checked "show" "hall" 2 0 "2026-12-01T12:00:00Z" passed

/- A call books under the row lock while another one, which may not retry, has read the row. -/
def overtaken : List (Act Job Choice Ext) :=
  [.start 0 (.create twoSeats), .step 0 (.uuid "e"),
    .start 1 (.book {} "e" oneSeat {}), .start 2 (.book hasty "e" oneSeat {}),
    .step 2 .ok, .step 2 .ok,
    .step 1 .ok, .step 1 .ok, .step 1 .ok, .step 1 (.uuid "b"), .step 1 (.time 0),
    .step 1 (.uuid "m"), .step 1 .ok, .step 1 .ok, .step 1 .ok,
    .step 2 .ok, .step 2 .ok, .step 2 .ok]

theorem contention_paid_overtaken : ∃ entries p c,
    (api fun _ _ => 0).History locking.Ok migrated entries p ∧
    p.slot 2 = .ended (.book hasty "e" oneSeat {}) (.error contended) ∧
    p.shared.events "e" = some c ∧
    (∃ first x between y last, entries = first ++ x :: (between ++ y :: last) ∧
      x.task = 2 ∧ x.effect = .beginTx ∧ y.task = 2 ∧ y.effect = .rollbackTx ∧
      ∃ others, LostTo "e" 2 1 x.before y.before others) ∧
    min (min 2 c.committed.totalSeats) 1 ≤ ([1, 2].countP (granted p) : Nat) := by
  have replay : ((api fun _ _ => 0).run migrated overtaken).map (fun p =>
      (p.slot 0, p.slot 1, p.slot 2, (p.shared.events "e").isSome)) =
      some (.ended (.create twoSeats) (.ok (.created "e")),
        .ended (.book {} "e" oneSeat {}) (.ok (.booked
          { id := "b", eventId := "e", userId := "user-1", quantity := 1, status := .confirmed
            seatsRemaining := 1, lockStrategy := .pessimistic, createdAt := 0 })),
        .ended (.book hasty "e" oneSeat {}) (.error contended), true) := by rfl
  obtain ⟨p, hp, seen⟩ := Option.map_eq_some_iff.mp replay
  simp only [Prod.mk.injEq] at seen
  obtain ⟨created, booked, gaveUp, known⟩ := seen
  obtain ⟨c, row⟩ := Option.isSome_iff_exists.mp known
  have run : (api fun _ _ => 0).Reach locking.Ok migrated p := by
    refine any_run hp fun t j start => ?_
    simp only [overtaken, List.mem_cons, List.not_mem_nil, or_false, reduceCtorEq, false_or,
      Act.start.injEq] at start
    rcases start with ⟨-, rfl⟩ | ⟨-, rfl⟩ | ⟨-, rfl⟩
    · trivial
    · intro naive
      cases naive
    · intro naive
      cases naive
  obtain ⟨entries, history⟩ := Machine.History.of_reach run
  obtain ⟨paid, sold⟩ := contention_paid (fun _ _ => 0) entries p history "e"
  have lost := paid 2 hasty oneSeat {} gaveUp
  refine ⟨entries, p, c, history, gaveUp, row, lost, ?_⟩
  refine sold 0 c row [1, 2] (by decide) (fun t => ?_) fun t ht => ?_
  · by_cases part : t = 0 ∨ t = 1 ∨ t = 2
    · rcases part with rfl | rfl | rfl
      · simp [created, Slot.job, bookCall]
      · simp [booked, Slot.job, bookCall]
      · simp [gaveUp, Slot.job, bookCall]
    · have idle : p.slot t = .idle := by
        refine Machine.runChecked_slot hp fun a ha same => part ?_
        have three : (overtaken.all fun a => a.task.all [0, 1, 2].contains) = true := by rfl
        have named := List.all_eq_true.mp three a ha
        rw [same] at named
        simpa using named
      have other : t ∉ [1, 2] := fun mem => part (.inr (List.mem_pair.mp mem))
      simp [idle, Slot.job, other]
  · rcases List.mem_pair.mp ht with rfl | rfl
    · exact ⟨_, _, _, _, booked, rfl, (fun h => by cases h), .inl ⟨_, rfl⟩⟩
    · exact ⟨_, _, _, _, gaveUp, rfl, fun _ => le_refl _, .inr ⟨_, rfl⟩⟩

end Overbook
