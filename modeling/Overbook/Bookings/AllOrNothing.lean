import Overbook.Bookings.Linear
import Overbook.Discipline.History

/-! What one book call has done by the time it settles: whether it has sold, what its caller is
told, and what the metric counts. The oversold check is the only thing after the COMMIT whose failure
reaches the caller. -/
namespace Overbook

open Async Prog Kafka ReadCommitted Store

/- A COMMIT that the client knows of. -/
def Exchange.commits : Exchange → Bool
  | ⟨.commitTx, .ok _⟩ => true
  | _ => false

def Exchange.counts : Exchange → Option BookingResult
  | ⟨.bookingsTotal result _, _⟩ => some result
  | _ => none

def Exchange.readFails : Exchange → Bool
  | ⟨.findEvent _, .error _⟩ => true
  | ⟨.sumConfirmed _, .error _⟩ => true
  | _ => false

def Exchange.enter (rows : List BookingRow) : Exchange → List BookingRow
  | ⟨.beginTx, _⟩ => []
  | ⟨.insertBooking _, .ok b⟩ => rows ++ [b]
  | _ => rows

def holding (events : List Exchange) : List BookingRow := events.foldl Exchange.enter []

/-- The committed rows of the three tables are the same. -/
structure Untouched (s s' : Store) : Prop where
  events : ∀ id, (s'.events id).map (·.committed) = (s.events id).map (·.committed)
  bookings : s'.bookings = s.bookings
  outbox : s'.outbox.committed = s.outbox.committed

/-- What a book call that has answered `r` has done by the answers it was given, in their order. -/
structure AllOrNothing (eventId : Uuid) (dto : CreateBookingDto) (context : BookingContext)
    (r : Except Err Response) (mine : List ApiEntry) : Prop where
  throws : (∃ x, r = .error x) ↔ ∀ y ∈ mine, Exchange.commits y.event = false
  nothing : (∃ x, r = .error x) → ∀ y ∈ mine, Untouched y.before y.after
  one : ∀ answer, r = .ok answer → ∃ before sale after b response,
    mine = before ++ sale :: after ∧ answer = .booked response ∧ b.id = response.id ∧
      BookingFor eventId dto context b ∧ sale.after.bookings = sale.before.bookings ++ [b] ∧
      ∀ y ∈ before ++ after, Untouched y.before y.after
  counted : ∃ result, mine.filterMap (fun y => Exchange.counts y.event) = [result] ∧
    (result = .confirmed ↔ ∃ y ∈ mine, Exchange.commits y.event = true)

/-- No read of the call fails after its COMMIT. -/
def ChecksSeats (mine : List ApiEntry) : Prop :=
  mine.Pairwise fun x y => Exchange.commits x.event = true → Exchange.readFails y.event = false

/- Every answer may come, but a COMMIT whose reply is lost has not taken effect. -/
def plainCommits : Regime where
  allowed _ := True
  answers _ _ e c := e = .commitTx → c ≠ .lostReply
  crashes := True

variable {partition : String → String → Nat} {t : Tid} {s s' : Store}

theorem abort_untouched (t : Tid) (s : Store) : Untouched s (s.abort t) := by
  obtain ⟨bookings, outbox⟩ := abort_tables t s
  exact ⟨abort_events t s, bookings, outbox⟩

/-- What is not a COMMIT leaves the committed rows alone, and so does a COMMIT that fails. -/
theorem exec_untouched {e : Effect} {c : Choice} {r : Except Err e.Answer}
    (quiet : Exchange.commits ⟨e, r⟩ = false) (plain : plainCommits.answers t s e c)
    (create : ∀ row, e ≠ .insertEvent row) (h : exec partition t s e c = some (s', r)) :
    Untouched s s' := by
  by_cases commit : e = .commitTx
  · subst commit
    cases c with
    | ok =>
      cases r with
      | ok u => cases quiet
      | error x => simp [exec] at h
    | lostReply => exact absurd rfl (plain rfl)
    | fail =>
      cases Option.some.inj h
      exact abort_untouched t s
    | _ => cases h
  · rcases touch_commits (exec_touch h) with ⟨other, -⟩ | ⟨bookings, outbox⟩
    · exact absurd other commit
    · refine ⟨fun id => ?_, bookings, outbox⟩
      cases exec_touch h with
      | rest s' events => rw [events]
      | committed => exact absurd rfl commit
      | aborted => exact abort_events t s id
      | rolledBack => exact abort_events t s id
      | created id' row => exact absurd rfl (create row)
      | event id' cell v _ row =>
        by_cases same : id = id'
        · subst same
          simp [putEvent, row]
        · simp [putEvent, Function.update_of_ne same]
      | _ => rfl

/-- The bookings that an active transaction holds are those its statements have entered. -/
theorem exec_holding {e : Effect} {c : Choice} {r : Except Err e.Answer} {events : List Exchange}
    (held : s.active t = true → (s.tx t).bookings = holding events)
    (h : exec partition t s e c = some (s', r)) (act : s'.active t = true) :
    (s'.tx t).bookings = holding (events ++ [⟨e, r⟩]) := by
  have next : holding (events ++ [⟨e, r⟩]) = Exchange.enter (holding events) ⟨e, r⟩ := by
    simp [holding]
  rw [next]
  have aborted : (s.abort t).active t ≠ true := by simp [abort_inactive]
  by_cases begins : e = .beginTx
  · subst begins
    cases r with
    | ok u =>
      obtain ⟨-, rfl⟩ := begin_ok h
      simp [beginTx, Exchange.enter]
    | error x =>
      cases c with
      | fail =>
        cases Option.some.inj h
        exact absurd act aborted
      | ok => simp [exec] at h
      | _ => cases h
  by_cases inserts : ∃ row, e = .insertBooking row
  · obtain ⟨row, rfl⟩ := inserts
    cases r with
    | ok b =>
      obtain ⟨active, -, -, rfl⟩ := insertBooking_ok h
      rw [setTx_self]
      simp [Exchange.enter, held active]
    | error x =>
      cases c with
      | fail =>
        cases Option.some.inj h
        exact absurd act aborted
      | uuid id => simp [exec] at h
      | _ => cases h
  · have same : Exchange.enter (holding events) ⟨e, r⟩ = holding events := by
      cases e <;> first | rfl | exact absurd rfl begins | exact absurd ⟨_, rfl⟩ inserts
    rw [same]
    cases exec_touch h with
    | rest s' _ _ _ tx =>
      rw [active_congr (congrFun tx t)] at act
      rw [congrFun tx t]
      exact held act
    | begun => exact absurd rfl begins
    | booking row => exact absurd ⟨row, rfl⟩ inserts
    | committed => simp [commitTx, active] at act
    | aborted => exact absurd act aborted
    | rolledBack => simp [rollbackTx, active] at act
    | created => exact held act
    | event => exact held act
    | message row m active =>
      rw [setTx_self]
      exact held active
    | selected limit rows active =>
      rw [setTx_self]
      exact held active
    | updated ids patch active => exact held active
    | sent => exact held act

theorem history_holding {Ok : ApiPool → Act Job Choice Ext → Prop} {entries : List ApiEntry}
    {q : ApiPool} (h : (api partition).History Ok migrated entries q) (t : Tid)
    (act : q.shared.active t = true) :
    (q.shared.tx t).bookings = holding (eventsOf t entries) := by
  induction h with
  | refl => cases act
  | @step entries r r' a before ok st ih =>
    have still : ∀ s : Store, s.active t = true → s.tx t = r.shared.tx t →
        (s.tx t).bookings = holding (eventsOf t entries) := by
      intro s act same
      rw [same]
      exact ih ((active_congr same).symm.trans act)
    cases Machine.steps_of_step st with
    | @start t' j idle ready =>
      rw [show (api partition).logged r (.start t' j) = [] from rfl, List.append_nil]
      exact still _ act (by rw [Machine.put, settle_shared])
    | @step t' c j e k s o live answered =>
      rw [Machine.put, settle_shared] at act ⊢
      rw [Machine.logged_step live answered]
      by_cases same : t' = t
      · subst same
        rw [eventsOf_own entries ⟨t', e, o, r.shared, s⟩]
        exact exec_holding ih answered act
      · rw [eventsOf_other (by exact same)]
        exact still s act (touch_tx (Ne.symm same) (exec_touch answered))
    | @kill t' =>
      rw [show (api partition).logged r (.kill t') = [] from rfl, List.append_nil]
      exact ih act
    | @env x s happened =>
      rw [show (api partition).logged r (.env x) = [] from rfl, List.append_nil]
      cases x with
      | tick d =>
        cases Option.some.inj happened
        exact ih act
      | abortTx t' =>
        cases Option.some.inj happened
        by_cases same : t' = t
        · subst same
          simp [abort_inactive] at act
        · refine still _ act (touch_tx (Ne.symm same) (e := .beginTx) (c := .fail) ?_)
          exact .aborted trivial

/-- No COMMIT that the client knows of, and nothing counted. -/
structure Aside (y : Exchange) : Prop where
  commits : Exchange.commits y = false
  counts : Exchange.counts y = none

def Effect.aside : Effect → Prop
  | .commitTx => False
  | .bookingsTotal .. => False
  | _ => True

theorem aside_of {y : Exchange} (h : y.1.aside) : Aside y := by
  obtain ⟨e, r⟩ := y
  constructor
  · cases e <;> first | rfl | exact h.elim
  · cases e <;> first | rfl | exact h.elim

theorem runs_aside {α : Type} {p : Service α} {events : List Exchange} {o : Except Err α}
    (run : Runs p events o) (only : p.Only Effect.aside) : ∀ y ∈ events, Aside y :=
  fun y hy => aside_of (runs_only run only y hy)

/-- A transaction commits once, with its last statement, or not at all. -/
theorem runs_transaction {α : Type} {run : Service α} {events : List Exchange} {o : Except Err α}
    (body : run.Only Effect.aside) (h : Runs (transaction run) events o) :
    (∃ a u v inner, o = .ok a ∧ events = ⟨.beginTx, .ok u⟩ :: inner ++ [⟨.commitTx, .ok v⟩] ∧
      Runs run inner (.ok a)) ∨ ((∃ x, o = .error x) ∧ ∀ y ∈ events, Aside y) := by
  rcases runs_handle h with ⟨a, rfl, whole⟩ | ⟨x, first, rest, whole, undo, rfl⟩
  · obtain ⟨u, _, _, begun, ran, rfl⟩ := runs_through whole
    obtain rfl := runs_await begun
    obtain ⟨_, inner, _, worked, closing, rfl⟩ := runs_through ran
    obtain ⟨v, _, _, committed, last, rfl⟩ := runs_through closing
    obtain rfl := runs_await committed
    obtain ⟨rfl, same⟩ := runs_done last
    cases Except.ok.inj same
    exact .inl ⟨a, u, v, inner, rfl, rfl, worked⟩
  · have begins : ∀ u, Aside ⟨.beginTx, u⟩ := fun _ => aside_of trivial
    have failed : ∀ y ∈ first, Aside y := by
      intro y hy
      obtain ⟨_, _, begun, opened⟩ := runs_bind whole
      obtain rfl := runs_await begun
      cases opened with
      | threw => exact List.mem_singleton.mp hy ▸ begins _
      | went ran =>
        rcases List.mem_append.mp hy with hy | hy
        · exact List.mem_singleton.mp hy ▸ begins _
        obtain ⟨inner, _, worked, returned⟩ := runs_bind ran
        cases returned with
        | threw => exact runs_aside worked body y hy
        | went closing =>
          rcases List.mem_append.mp hy with hy | hy
          · exact runs_aside worked body y hy
          obtain ⟨_, _, committed, ended⟩ := runs_bind closing
          obtain rfl := runs_await committed
          cases ended with
          | threw ended =>
            cases ended
            exact List.mem_singleton.mp hy ▸ ⟨rfl, rfl⟩
          | went last => cases (runs_done last).2
    have undone : ∀ y ∈ rest, Aside y :=
      runs_aside undo (only_bind (only_handle ((only_await _).mpr trivial) fun _ => trivial)
        fun _ => trivial)
    refine .inr ⟨?_, fun y hy => (List.mem_append.mp hy).elim (failed y) (undone y)⟩
    obtain ⟨_, _, caught, ended⟩ := runs_bind undo
    cases ended with
    | threw ended => exact ⟨_, ended⟩
    | went last => exact ⟨x, (runs_fail last).2⟩

variable {config : AppConfiguration} {eventId : Uuid} {dto : CreateBookingDto}
  {context : BookingContext} {events : List Exchange}

def askedBooking (eventId : Uuid) (dto : CreateBookingDto) (context : BookingContext) :
    CreateBooking :=
  { eventId, userId := dto.userId, quantity := dto.quantity, status := .confirmed
    idempotencyKey := context.idempotencyKey }

def Effect.keepsBookings : Effect → Prop
  | .beginTx => False
  | .insertBooking _ => False
  | _ => True

theorem holding_kept (rows : List BookingRow) (h : ∀ y ∈ events, y.1.keepsBookings) :
    events.foldl Exchange.enter rows = rows := by
  induction events with
  | nil => rfl
  | cons y events ih =>
    obtain ⟨e, r⟩ := y
    have first : Exchange.enter rows ⟨e, r⟩ = rows := by
      have keeps : e.keepsBookings := h ⟨e, r⟩ (List.mem_cons_self ..)
      cases e <;> first | rfl | exact keeps.elim
    rw [List.foldl_cons, first]
    exact ih fun y hy => h y (List.mem_cons_of_mem _ hy)

/-- A booking transaction that gets to its COMMIT has inserted one booking. -/
theorem runs_bookInTransaction {a : BookingRow × Decremented}
    (run : Runs (bookInTransaction config eventId dto context) events (.ok a)) :
    ⟨.insertBooking (askedBooking eventId dto context), .ok a.1⟩ ∈ events ∧
      ∀ rows, events.foldl Exchange.enter rows = rows ++ [a.1] := by
  have seats : ∀ e : Effect, e.seats → e.keepsBookings := by
    intro e he
    cases e <;> trivial
  obtain ⟨_, first, _, taken, inserting, rfl⟩ := runs_through run
  obtain ⟨_, _, _, inserted, enqueuing, rfl⟩ := runs_through inserting
  obtain rfl := runs_await inserted
  obtain ⟨_, last, _, enqueued, ended, rfl⟩ := runs_through enqueuing
  obtain ⟨rfl, same⟩ := runs_done ended
  cases Except.ok.inj same
  have early := runs_only taken (only_mono seats decrement_seats)
  have late := runs_only (P := Effect.keepsBookings) enqueued (only_runIf (only_bind
    (only_bind ((only_await _).mpr trivial) fun _ => (only_await _).mpr trivial)
    fun _ => trivial))
  refine ⟨by simp [askedBooking], fun rows => ?_⟩
  rw [List.foldl_append, holding_kept rows early]
  simp [Exchange.enter, holding_kept _ late]

/- Metrics and the fault switch are not answered with errors. -/
def Effect.sure : Effect → Prop
  | .bookingsTotal .. => True
  | .bookingsOversoldTotal _ => True
  | .exitSoon => True
  | _ => False

theorem exec_sure {e : Effect} {c : Choice} {r : Except Err e.Answer} (sure : e.sure)
    (h : exec partition t s e c = some (s', r)) : ∀ x, r ≠ .error x := by
  rintro x rfl
  cases e <;> first | exact sure.elim | cases c <;> simp [exec] at h

structure Expected (eventId : Uuid) (events : List Exchange) : Prop where
  sure : ∀ y ∈ events, y.1.sure → ∀ x, y.2 ≠ .error x
  found : ∀ y ∈ events, y ≠ ⟨.findEvent eventId, .ok none⟩

theorem Expected.append {later : List Exchange} (h : Expected eventId (events ++ later)) :
    Expected eventId events ∧ Expected eventId later := by
  constructor
  · exact ⟨fun y hy => h.sure y (List.mem_append_left _ hy),
      fun y hy => h.found y (List.mem_append_left _ hy)⟩
  · exact ⟨fun y hy => h.sure y (List.mem_append_right _ hy),
      fun y hy => h.found y (List.mem_append_right _ hy)⟩

/-- Code that throws exactly where one of its reads has failed. -/
def ThrowsByReads {α : Type} (eventId : Uuid) (p : Service α) : Prop :=
  ∀ events o, Runs p events o → Expected eventId events →
    (∃ a, o = .ok a) ∧ (∀ y ∈ events, Exchange.readFails y = false) ∨
      (∃ x, o = .error x) ∧ ∃ y ∈ events, Exchange.readFails y = true

theorem throwsByReads_done {α : Type} (a : α) : ThrowsByReads eventId (done a) := by
  intro events o run _
  obtain ⟨rfl, rfl⟩ := runs_done run
  exact .inl ⟨⟨a, rfl⟩, fun y hy => nomatch hy⟩

theorem throwsByReads_bind {α β : Type} {p : Service α} {f : α → Service β}
    (hp : ThrowsByReads eventId p) (hf : ∀ a, ThrowsByReads eventId (f a)) : ThrowsByReads eventId (p >>= f) := by
  intro events o run h
  obtain ⟨first, r, before, after⟩ := runs_bind run
  cases after with
  | @threw x ended =>
    rcases hp events _ before h with ⟨⟨a, other⟩, -⟩ | ⟨-, fails⟩
    · exact nomatch other
    · exact .inr ⟨⟨x, ended⟩, fails⟩
  | @went a rest after =>
    obtain ⟨early, late⟩ := h.append
    rcases hp first _ before early with ⟨-, reads⟩ | ⟨⟨x, other⟩, -⟩
    · rcases hf a rest o after late with ⟨returned, more⟩ | ⟨threw, y, hy, fails⟩
      · exact .inl ⟨returned, fun y hy => (List.mem_append.mp hy).elim (reads y) (more y)⟩
      · exact .inr ⟨threw, y, List.mem_append_right _ hy, fails⟩
    · exact nomatch other

theorem throwsByReads_sure {e : Effect} (sure : e.sure) : ThrowsByReads eventId (ask e) := by
  intro events o run h
  obtain rfl := runs_await run
  cases o with
  | ok a =>
    refine .inl ⟨⟨a, rfl⟩, fun y hy => ?_⟩
    cases List.mem_singleton.mp hy
    cases e <;> rfl
  | error x => exact absurd rfl (h.sure _ (List.mem_singleton_self _) sure x)

theorem throwsByReads_runIf {c : Bool} {p : Service Unit} (h : c = true → ThrowsByReads eventId p) :
    ThrowsByReads eventId (runIf c p) := by
  cases c with
  | true => exact h rfl
  | false => exact throwsByReads_done ()

def Effect.readsNothing : Effect → Prop
  | .findEvent _ => False
  | .sumConfirmed _ => False
  | _ => True

theorem reads_nothing {y : Exchange} (h : y.1.readsNothing) : Exchange.readFails y = false := by
  obtain ⟨e, r⟩ := y
  cases e <;> first | rfl | exact h.elim

/-- What is caught, and reads nothing. -/
theorem throwsByReads_caught {p : Service Unit} (only : p.Only Effect.readsNothing) :
    ThrowsByReads eventId (tryCatch p fun _ => pure ()) := by
  intro events o run _
  have quiet := runs_only run (only_handle only fun _ => trivial)
  refine .inl ⟨?_, fun y hy => reads_nothing (quiet y hy)⟩
  rcases runs_handle run with ⟨a, ended, -⟩ | ⟨x, first, rest, -, caught, -⟩
  · exact ⟨a, ended⟩
  · exact ⟨(), (runs_done caught).2⟩

theorem integrity_throws : ThrowsByReads eventId (integrity eventId) := by
  intro events o run h
  obtain ⟨_, row, found, summing⟩ := runs_bind run
  obtain rfl := runs_await found
  cases summing with
  | @threw x ended => exact .inr ⟨⟨x, ended⟩, _, List.mem_singleton_self _, rfl⟩
  | @went row rest summing =>
    cases row with
    | none => exact absurd rfl (h.found _ (List.mem_cons_self ..))
    | some event =>
      obtain ⟨_, total, summed, reported⟩ := runs_bind summing
      obtain rfl := runs_await summed
      cases reported with
      | @threw x ended =>
        exact .inr ⟨⟨x, ended⟩, _, List.mem_cons_of_mem _ (List.mem_singleton_self _), rfl⟩
      | went reported =>
        obtain ⟨rfl, rfl⟩ := runs_done reported
        exact .inl ⟨⟨_, rfl⟩, by simp [Exchange.readFails]⟩

theorem recordOversoldIfAny_throws : ThrowsByReads eventId (recordOversoldIfAny eventId) :=
  throwsByReads_bind integrity_throws fun _ =>
    throwsByReads_runIf fun _ => throwsByReads_sure trivial

theorem afterCommit_throws {b : BookingRow} {result : Decremented} :
    ThrowsByReads eventId (afterCommit config eventId context b result) := by
  unfold afterCommit
  refine throwsByReads_bind (throwsByReads_sure trivial) fun _ => ?_
  refine throwsByReads_bind (throwsByReads_caught (by simp [Effect.readsNothing])) fun _ => ?_
  refine throwsByReads_bind (throwsByReads_runIf fun _ => recordOversoldIfAny_throws) fun _ => ?_
  refine throwsByReads_bind (throwsByReads_runIf fun _ => throwsByReads_sure trivial) fun _ => ?_
  refine throwsByReads_bind (throwsByReads_runIf fun _ => throwsByReads_caught ?_) fun _ => ?_
  · simp [publish, publishBatch, send, Effect.readsNothing]
  · exact throwsByReads_done _

theorem afterCommit_reads_nothing {b : BookingRow} {result : Decremented}
    (safe : config.booking.lockStrategy ≠ .none) :
    (afterCommit config eventId context b result).Only Effect.readsNothing := by
  unfold afterCommit
  refine only_bind (by simp [Effect.readsNothing]) fun _ => ?_
  refine only_bind (only_handle (by simp [Effect.readsNothing]) fun _ => trivial) fun _ => ?_
  refine only_bind ?_ fun _ => ?_
  · unfold runIf
    split
    · rename_i naive
      exact absurd (by simpa using naive) safe
    · trivial
  refine only_bind (only_runIf (by simp [Effect.readsNothing])) fun _ => ?_
  refine only_bind (only_runIf (only_handle ?_ fun _ => trivial)) fun _ => trivial
  simp [publish, publishBatch, send, Effect.readsNothing]

theorem integrity_aside : (integrity eventId).Only Effect.aside := by
  refine only_bind (by simp [Effect.aside]) fun row => ?_
  cases row with
  | none => trivial
  | some event => exact only_bind (by simp [Effect.aside]) fun _ => trivial

/-- After its COMMIT a call counts a confirmed booking first, and nothing else. -/
theorem runs_afterCommit {b : BookingRow} {result : Decremented} {o : Except Err BookingResponse}
    (run : Runs (afterCommit config eventId context b result) events o) :
    ∃ u rest, (∀ y ∈ rest, Aside y) ∧
      events = ⟨.bookingsTotal .confirmed config.booking.lockStrategy, u⟩ :: rest := by
  obtain ⟨_, u, counted, after⟩ := runs_bind run
  obtain rfl := runs_await counted
  cases after with
  | threw => exact ⟨_, [], fun y hy => (nomatch hy), rfl⟩
  | went after =>
    refine ⟨_, _, runs_aside after ?_, rfl⟩
    refine only_bind (only_handle (by simp [Effect.aside]) fun _ => trivial) fun _ => ?_
    refine only_bind (only_runIf (only_bind integrity_aside fun _ =>
      only_runIf (by simp [Effect.aside]))) fun _ => ?_
    refine only_bind (only_runIf (by simp [Effect.aside])) fun _ => ?_
    refine only_bind (only_runIf (only_handle ?_ fun _ => trivial)) fun _ => trivial
    simp [publish, publishBatch, send, Effect.aside]

theorem runs_returns {α β : Type} {p : Service α} {f : α → Service β} {b : β}
    (run : Runs (p >>= f) events (.ok b)) : ∃ a rest, Runs (f a) rest (.ok b) := by
  obtain ⟨a, _, rest, -, after, -⟩ := runs_through run
  exact ⟨a, rest, after⟩

theorem afterCommit_id {b : BookingRow} {result : Decremented} {response : BookingResponse}
    (run : Runs (afterCommit config eventId context b result) events (.ok response)) :
    b.id = response.id := by
  obtain ⟨_, _, run⟩ := runs_returns run
  obtain ⟨_, _, run⟩ := runs_returns run
  obtain ⟨_, _, run⟩ := runs_returns run
  obtain ⟨_, _, run⟩ := runs_returns run
  obtain ⟨_, _, run⟩ := runs_returns run
  obtain ⟨-, same⟩ := runs_done run
  cases Except.ok.inj same
  rfl

/-- The three ways a book call can go: it is refused, or it commits, and then it returns, or what
follows the COMMIT throws. -/
inductive BookRuns (config : AppConfiguration) (eventId : Uuid) (dto : CreateBookingDto)
    (context : BookingContext) : List Exchange → Except Err BookingResponse → Prop where
  | refused {first : List Exchange} {result : BookingResult} {u : Except Err Unit} {x : Err} :
      (∀ y ∈ first, Aside y) → result ≠ .confirmed →
      BookRuns config eventId dto context
        (first ++ [⟨.bookingsTotal result config.booking.lockStrategy, u⟩]) (.error x)
  | sold {a : BookingRow × Decremented} {u v : Unit} {inner after : List Exchange}
      {response : BookingResponse} :
      Runs (bookInTransaction config eventId dto context) inner (.ok a) →
      Runs (afterCommit config eventId context a.1 a.2) after (.ok response) →
      BookRuns config eventId dto context
        (⟨.beginTx, .ok u⟩ :: inner ++ ⟨.commitTx, .ok v⟩ :: after) (.ok response)
  | failed {a : BookingRow × Decremented} {u v : Unit} {w : Except Err Unit}
      {inner after : List Exchange} {result : BookingResult} {x x' : Err} :
      Runs (bookInTransaction config eventId dto context) inner (.ok a) →
      Runs (afterCommit config eventId context a.1 a.2) after (.error x) → result ≠ .confirmed →
      BookRuns config eventId dto context
        (⟨.beginTx, .ok u⟩ :: inner ++ ⟨.commitTx, .ok v⟩ ::
          (after ++ [⟨.bookingsTotal result config.booking.lockStrategy, w⟩])) (.error x')

theorem bookInTransaction_aside :
    (bookInTransaction config eventId dto context).Only Effect.aside := by
  refine only_mono (fun e he => ?_) bookInTransaction_books
  cases e <;> trivial

theorem runs_book {o : Except Err BookingResponse}
    (run : Runs (book config eventId dto context) events o) :
    BookRuns config eventId dto context events o := by
  have counted : ∀ x : Err, x.bookingResult ≠ .confirmed := by
    intro x
    cases x <;> exact nofun
  rcases runs_handle run with ⟨response, rfl, whole⟩ | ⟨x, first, rest, whole, last, rfl⟩
  · obtain ⟨_, _, _, committed, after, rfl⟩ := runs_through whole
    rcases runs_transaction bookInTransaction_aside committed with
      ⟨a, u, v, inner, same, rfl, worked⟩ | ⟨⟨x, other⟩, -⟩
    · cases Except.ok.inj same
      simpa using BookRuns.sold worked after
    · cases other
  · have told : ∃ w x', o = .error x' ∧
        rest = [⟨.bookingsTotal x.bookingResult config.booking.lockStrategy, w⟩] := by
      obtain ⟨_, w, total, threw⟩ := runs_bind last
      obtain rfl := runs_await total
      cases threw with
      | threw ended => exact ⟨_, _, ended, rfl⟩
      | went threw =>
        obtain ⟨rfl, rfl⟩ := runs_fail threw
        exact ⟨_, _, rfl, rfl⟩
    obtain ⟨w, x', rfl, rfl⟩ := told
    obtain ⟨_, _, committed, after⟩ := runs_bind whole
    cases after with
    | threw ended =>
      rcases runs_transaction bookInTransaction_aside committed with
        ⟨a, -, -, -, other, -⟩ | ⟨-, aside⟩
      · cases other
      · exact .refused aside (counted x)
    | went after =>
      rcases runs_transaction bookInTransaction_aside committed with
        ⟨a, u, v, inner, same, rfl, worked⟩ | ⟨⟨x, other⟩, -⟩
      · cases Except.ok.inj same
        simpa using BookRuns.failed worked after (counted x)
      · cases other

theorem inserted_known {row : CreateBooking} {c : Choice} {b : BookingRow}
    (h : exec partition t s (.insertBooking row) c = some (s', .ok b)) :
    (s.events row.eventId).isSome = true := by
  cases c with
  | uuid id =>
    simp only [exec] at h
    split at h
    · rename_i fits
      exact (Bool.and_eq_true_iff.mp fits).2
    · cases h
  | _ => cases h

theorem history_known {Ok : ApiPool → Act Job Choice Ext → Prop} {entries : List ApiEntry}
    {q : ApiPool} (h : (api partition).History Ok migrated entries q) {row : CreateBooking}
    {b : BookingRow} (inserted : ∃ x ∈ entries, x.event = ⟨.insertBooking row, .ok b⟩) :
    (q.shared.events row.eventId).isSome = true := by
  induction h with
  | refl =>
    obtain ⟨x, hx, -⟩ := inserted
    cases hx
  | @step entries r r' a before ok st ih =>
    have quiet : (api partition).logged r a = [] → (r.shared.events row.eventId).isSome = true := by
      intro none
      rw [none, List.append_nil] at inserted
      exact ih inserted
    cases Machine.steps_of_step st with
    | start =>
      rw [Machine.put, settle_shared]
      exact quiet rfl
    | @step t c j e k s o live answered =>
      rw [Machine.put, settle_shared]
      rw [Machine.logged_step live answered] at inserted
      obtain ⟨x, hx, same⟩ := inserted
      rcases List.mem_append.mp hx with old | new
      · exact exec_known (ih ⟨x, old, same⟩) answered
      · cases List.mem_singleton.mp new
        cases same
        refine exec_known ?_ answered
        exact inserted_known answered
    | kill => exact quiet rfl
    | @env x s happened =>
      have known := quiet rfl
      cases x with
      | tick d =>
        cases Option.some.inj happened
        exact known
      | abortTx t =>
        cases Option.some.inj happened
        exact abort_known known

/-- The history of a settled book call: where each of its entries comes from. -/
structure Settled (partition : String → String → Nat) (t : Tid) (config : AppConfiguration)
    (eventId : Uuid) (dto : CreateBookingDto) (context : BookingContext)
    (entries : List ApiEntry) : Prop where
  past : ∃ q, (api partition).History plainCommits.Ok migrated entries q
  only : ∀ y ∈ entriesOf t entries, ∀ row, y.effect ≠ .insertEvent row

theorem Settled.entry {entries : List ApiEntry}
    (h : Settled partition t config eventId dto context entries) {y : ApiEntry}
    (hy : y ∈ entriesOf t entries) : ∃ c, plainCommits.answers t y.before y.effect c ∧
      exec partition t y.before y.effect c = some (y.after, y.answer) := by
  obtain ⟨q, past⟩ := h.past
  obtain ⟨mem, own⟩ := List.mem_filter.mp hy
  cases beq_iff_eq.mp own
  obtain ⟨r, j, k, c, -, same, live, ok, answered⟩ := past.answered mem
  exact ⟨c, same ▸ ok j y.effect k live, answered⟩

theorem Settled.untouched {entries : List ApiEntry}
    (h : Settled partition t config eventId dto context entries) {y : ApiEntry}
    (hy : y ∈ entriesOf t entries) (quiet : Exchange.commits y.event = false) :
    Untouched y.before y.after := by
  obtain ⟨c, plain, answered⟩ := h.entry hy
  exact exec_untouched quiet plain (h.only y hy) answered

theorem Settled.expected {entries : List ApiEntry} {early late : List Exchange}
    (h : Settled partition t config eventId dto context entries)
    (split : eventsOf t entries = early ++ late) {b : BookingRow}
    (inserted : ⟨.insertBooking (askedBooking eventId dto context), .ok b⟩ ∈ early) :
    Expected eventId late := by
  constructor
  · intro y hy sure
    have mem : y ∈ eventsOf t entries := split ▸ List.mem_append_right _ hy
    obtain ⟨x, hx, rfl⟩ := List.mem_map.mp mem
    obtain ⟨c, -, answered⟩ := h.entry hx
    exact exec_sure sure answered
  · rintro y hy rfl
    obtain ⟨before, after, rfl⟩ := List.append_of_mem hy
    rw [← List.append_assoc] at split
    obtain ⟨first, ⟨task, e, o, s₀, s₁⟩, last, rfl, own, event, earlier, -⟩ := eventsOf_split split
    obtain ⟨q, past⟩ := h.past
    obtain ⟨r, j, k, c, sofar, rfl, -, -, answered⟩ := past.answer
    cases event
    obtain ⟨x, hx, same⟩ := List.mem_map.mp (earlier.symm ▸ List.mem_append_left _ inserted)
    have known : (r.shared.events eventId).isSome = true :=
      history_known sofar ⟨x, (List.mem_filter.mp hx).1, same⟩
    have found : none = (r.shared.events eventId).map (·.view task) := (findEvent_ok answered).2
    rw [Option.map_eq_none_iff.mp found.symm] at known
    cases known

/-- The COMMIT of a call adds the booking that the call has inserted, and nothing is committed by
its other statements. -/
theorem Settled.sale {entries : List ApiEntry} {u v : Unit} {inner after : List Exchange}
    {b : BookingRow} (h : Settled partition t config eventId dto context entries)
    (split : eventsOf t entries = ⟨.beginTx, .ok u⟩ :: inner ++ ⟨.commitTx, .ok v⟩ :: after)
    (inserted : ⟨.insertBooking (askedBooking eventId dto context), .ok b⟩ ∈ inner)
    (held : ∀ rows, inner.foldl Exchange.enter rows = rows ++ [b])
    (quiet : ∀ y ∈ inner ++ after, Exchange.commits y = false) :
    ∃ before sale rest, entriesOf t entries = before ++ sale :: rest ∧
      BookingFor eventId dto context b ∧ sale.after.bookings = sale.before.bookings ++ [b] ∧
      ∀ y ∈ before ++ rest, Untouched y.before y.after := by
  obtain ⟨first, ⟨task, e, o, s₀, s₁⟩, last, rfl, own, event, earlier, later⟩ := eventsOf_split split
  obtain ⟨q, past⟩ := h.past
  obtain ⟨r, j, k, c, sofar, rfl, -, -, answered⟩ := past.answer
  cases event
  subst own
  have mine : entriesOf task (first ++ ⟨task, .commitTx, .ok v, r.shared, s₁⟩ :: last) =
      entriesOf task first ++ ⟨task, .commitTx, .ok v, r.shared, s₁⟩ :: entriesOf task last := by
    simp [entriesOf, List.filter_append]
  refine ⟨_, _, _, mine, ?_, ?_, fun y hy => ?_⟩
  · have before : ⟨.insertBooking (askedBooking eventId dto context), .ok b⟩ ∈
        eventsOf task first := earlier.symm ▸ List.mem_cons_of_mem _ inserted
    obtain ⟨⟨_, _, _, s₂, s₃⟩, hx, same⟩ := List.mem_map.mp before
    cases same
    obtain ⟨c, -, inserting⟩ := h.entry (by rw [mine]; exact List.mem_append_left _ hx)
    obtain ⟨-, -, row, -⟩ := insertBooking_ok inserting
    rw [row]
    exact ⟨rfl, rfl, rfl, rfl, rfl⟩
  · have committing : exec partition task r.shared .commitTx c = some (s₁, .ok v) := answered
    obtain ⟨act, rfl⟩ := commit_ok committing
    have rows : (r.shared.tx task).bookings = [b] := by
      rw [history_holding sofar task act, earlier]
      exact held []
    exact congrArg (r.shared.bookings ++ ·) rows
  · have mem : y ∈ entriesOf task first ∨ y ∈ entriesOf task last := List.mem_append.mp hy
    refine h.untouched (by rw [mine]; simpa using mem.imp_right .inr) ?_
    rcases mem with early | late
    · have event : y.event ∈ eventsOf task first := List.mem_map_of_mem early
      rw [earlier] at event
      rcases List.mem_cons.mp event with begins | inside
      · rw [begins]
        rfl
      · exact quiet _ (List.mem_append_left _ inside)
    · exact quiet _ (List.mem_append_right _ (later ▸ List.mem_map_of_mem late))

inductive Responds : Except Err BookingResponse → Except Err Response → Prop where
  | threw (x : Err) : Responds (.error x) (.error x)
  | returned (response : BookingResponse) : Responds (.ok response) (.ok (.booked response))

theorem runs_code {r : Except Err Response}
    (run : Runs (Job.code (.book config eventId dto context)) events r) :
    ∃ o, Runs (book config eventId dto context) events o ∧ Responds o r := by
  obtain ⟨first, o, booked, after⟩ := runs_bind run
  cases after with
  | @threw x ended =>
    cases ended
    exact ⟨_, booked, .threw x⟩
  | @went a rest after =>
    obtain ⟨rfl, rfl⟩ := runs_done after
    rw [List.append_nil]
    exact ⟨_, booked, .returned a⟩

theorem settled_of_runs {entries : List ApiEntry} {q : ApiPool} {o : Except Err BookingResponse}
    (run : (api partition).History plainCommits.Ok migrated entries q)
    (booked : Runs (book config eventId dto context) (eventsOf t entries) o) :
    Settled partition t config eventId dto context entries := by
  have creates : (book config eventId dto context).Only fun e => ∀ row, e ≠ .insertEvent row := by
    refine book_only (only_mono (fun e he => ?_) bookInTransaction_books) fun e he => ?_
    · rintro row rfl
      exact he
    · rintro row rfl
      exact he
  constructor
  · exact ⟨q, run⟩
  · exact fun y hy => runs_only booked creates y.event (List.mem_map_of_mem hy)

theorem counts_aside {first : List Exchange} (aside : ∀ y ∈ first, Aside y) :
    first.filterMap Exchange.counts = [] :=
  List.filterMap_eq_nil_iff.mpr fun y hy => (aside y hy).counts

theorem refused_nothing {entries : List ApiEntry} {first : List Exchange} {result : BookingResult}
    {u : Except Err Unit} {x : Err} {r : Except Err Response}
    (h : Settled partition t config eventId dto context entries)
    (split : eventsOf t entries =
      first ++ [⟨.bookingsTotal result config.booking.lockStrategy, u⟩])
    (aside : ∀ y ∈ first, Aside y) (other : result ≠ .confirmed) (threw : r = .error x) :
    AllOrNothing eventId dto context r (entriesOf t entries) := by
  have quiet : ∀ y ∈ entriesOf t entries, Exchange.commits y.event = false := by
    intro y hy
    have mem : y.event ∈ eventsOf t entries := List.mem_map_of_mem hy
    rw [split] at mem
    rcases List.mem_append.mp mem with early | last
    · exact (aside _ early).commits
    · rw [List.mem_singleton.mp last]
      rfl
  constructor
  · exact ⟨fun _ => quiet, fun _ => ⟨x, threw⟩⟩
  · exact fun _ y hy => h.untouched hy (quiet y hy)
  · intro answer returned
    cases threw.symm.trans returned
  · refine ⟨result, ?_, fun same => absurd same other, ?_⟩
    · have counted : (eventsOf t entries).filterMap Exchange.counts = [result] := by
        rw [split, List.filterMap_append, counts_aside aside]
        rfl
      rwa [eventsOf, List.filterMap_map] at counted
    · rintro ⟨y, hy, commits⟩
      exact absurd commits (Bool.eq_false_iff.mp (quiet y hy))

theorem inner_aside {inner : List Exchange} {o : Except Err (BookingRow × Decremented)}
    (worked : Runs (bookInTransaction config eventId dto context) inner o) :
    ∀ y ∈ inner, Aside y :=
  runs_aside worked bookInTransaction_aside

theorem sold_all {entries : List ApiEntry} {a : BookingRow × Decremented} {u v : Unit}
    {inner after : List Exchange} {response : BookingResponse} {r : Except Err Response}
    (h : Settled partition t config eventId dto context entries)
    (split : eventsOf t entries = ⟨.beginTx, .ok u⟩ :: inner ++ ⟨.commitTx, .ok v⟩ :: after)
    (worked : Runs (bookInTransaction config eventId dto context) inner (.ok a))
    (returned : Runs (afterCommit config eventId context a.1 a.2) after (.ok response))
    (answer : r = .ok (.booked response)) :
    AllOrNothing eventId dto context r (entriesOf t entries) := by
  obtain ⟨inserted, held⟩ := runs_bookInTransaction worked
  obtain ⟨w, rest, aside, rfl⟩ := runs_afterCommit returned
  have inside := inner_aside worked
  have committed : ∃ y ∈ entriesOf t entries, Exchange.commits y.event = true := by
    have mem : (⟨.commitTx, .ok v⟩ : Exchange) ∈ eventsOf t entries := by simp [split]
    obtain ⟨y, hy, event⟩ := List.mem_map.mp mem
    exact ⟨y, hy, by rw [event]; rfl⟩
  constructor
  · constructor
    · rintro ⟨x, threw⟩
      cases answer.symm.trans threw
    · intro none
      obtain ⟨y, hy, commits⟩ := committed
      exact nomatch (none y hy).symm.trans commits
  · rintro ⟨x, threw⟩
    cases answer.symm.trans threw
  · intro given same
    cases answer.symm.trans same
    have quiet : ∀ y ∈ inner ++ ⟨.bookingsTotal .confirmed config.booking.lockStrategy, w⟩ :: rest,
        Exchange.commits y = false := by
      intro y hy
      rcases List.mem_append.mp hy with hy | hy
      · exact (inside y hy).commits
      · rcases List.mem_cons.mp hy with rfl | hy
        · rfl
        · exact (aside y hy).commits
    obtain ⟨before, sale, later, mine, booking, rows, others⟩ := h.sale split inserted held quiet
    exact ⟨before, sale, later, a.1, response, mine, rfl, afterCommit_id returned, booking, rows,
      others⟩
  · refine ⟨.confirmed, ?_, fun _ => committed, fun _ => rfl⟩
    have counted : (eventsOf t entries).filterMap Exchange.counts = [.confirmed] := by
      rw [split, List.filterMap_append, List.filterMap_cons, List.filterMap_cons, List.filterMap_cons,
        counts_aside inside, counts_aside aside]
      rfl
    rwa [eventsOf, List.filterMap_map] at counted

theorem Settled.after_commit {entries : List ApiEntry} {a : BookingRow × Decremented} {u v : Unit}
    {inner late : List Exchange} (h : Settled partition t config eventId dto context entries)
    (split : eventsOf t entries = ⟨.beginTx, .ok u⟩ :: inner ++ ⟨.commitTx, .ok v⟩ :: late)
    (worked : Runs (bookInTransaction config eventId dto context) inner (.ok a)) :
    Expected eventId late := by
  have parts : eventsOf t entries =
      (⟨.beginTx, .ok u⟩ :: inner ++ [⟨.commitTx, .ok v⟩]) ++ late := by simp [split]
  refine h.expected parts (b := a.1) (List.mem_append_left _ (List.mem_cons_of_mem _ ?_))
  exact (runs_bookInTransaction worked).1

/-- For every book call that has settled, whatever has failed in its run: it throws exactly if
nothing happened, it counts once, and a returned booking is committed, exactly when the lock
strategy is not `none` or the reads of its oversold check have not failed. -/
theorem book_all_or_nothing (partition : String → String → Nat) (entries : List ApiEntry)
    (q : ApiPool) (run : (api partition).History plainCommits.Ok migrated entries q) (t : Tid)
    (config : AppConfiguration) (eventId : Uuid) (dto : CreateBookingDto) (context : BookingContext)
    (r : Except Err Response) (ended : q.slot t = .ended (.book config eventId dto context) r) :
    AllOrNothing eventId dto context r (entriesOf t entries) ↔
      (config.booking.lockStrategy = .none → ChecksSeats (entriesOf t entries)) := by
  obtain ⟨o, booked, responds⟩ := runs_code (run.runs ended)
  have h := settled_of_runs run booked
  have goes := runs_book booked
  have checks : ChecksSeats (entriesOf t entries) ↔ (eventsOf t entries).Pairwise fun x y =>
      Exchange.commits x = true → Exchange.readFails y = false := by
    rw [eventsOf, List.pairwise_map]
    rfl
  rw [checks]
  have uncommitted : ∀ {part : List Exchange}, (∀ y ∈ part, Exchange.commits y = false) →
      part.Pairwise fun x y => Exchange.commits x = true → Exchange.readFails y = false :=
    fun none => List.pairwise_of_forall_mem_list fun x hx _ _ commits =>
      absurd commits (Bool.eq_false_iff.mp (none x hx))
  generalize split : eventsOf t entries = events at goes
  cases goes with
  | @refused first result u x aside other =>
    cases responds
    refine ⟨fun _ _ => uncommitted fun y hy => ?_, fun _ => refused_nothing h split aside other rfl⟩
    rcases List.mem_append.mp hy with early | last
    · exact (aside y early).commits
    · cases List.mem_singleton.mp last
      rfl
  | @sold a u v inner after response worked returned =>
    cases responds
    refine ⟨fun _ _ => ?_, fun _ => sold_all h split worked returned rfl⟩
    have reads : ∀ y ∈ after, Exchange.readFails y = false := by
      rcases afterCommit_throws after _ returned (h.after_commit split worked) with ⟨-, reads⟩ | ⟨⟨x, threw⟩, -⟩
      · exact reads
      · cases threw
    have early : ∀ y ∈ (⟨.beginTx, .ok u⟩ : Exchange) :: inner, Exchange.commits y = false := by
      intro y hy
      rcases List.mem_cons.mp hy with rfl | hy
      · rfl
      · exact (inner_aside worked y hy).commits
    refine List.pairwise_append.mpr ⟨uncommitted early, ?_, fun x hx _ _ commits => ?_⟩
    · refine List.pairwise_cons.mpr ⟨fun y hy _ => reads y hy, ?_⟩
      exact List.pairwise_of_forall_mem_list fun _ _ y hy _ => reads y hy
    · exact absurd commits (Bool.eq_false_iff.mp (early x hx))
  | @failed a u v w inner after result x x' worked threw other =>
    cases responds
    have commits : (⟨.commitTx, .ok v⟩ : Exchange) ∈ eventsOf t entries := by simp [split]
    constructor
    · intro all
      obtain ⟨y, hy, event⟩ := List.mem_map.mp commits
      have none := all.throws.mp ⟨x', rfl⟩ y hy
      rw [event] at none
      cases none
    · intro reads
      have expected := (h.after_commit split worked).append.1
      rcases afterCommit_throws after _ threw expected with ⟨⟨_, returned⟩, -⟩ | ⟨-, y, hy, fails⟩
      · cases returned
      have good : Exchange.readFails y = false := by
        by_cases naive : config.booking.lockStrategy = .none
        · have later := (List.pairwise_append.mp (reads naive)).2.1
          exact (List.pairwise_cons.mp later).1 y (List.mem_append_left _ hy) rfl
        · exact reads_nothing (runs_only threw (afterCommit_reads_nothing naive) y hy)
      exact absurd fails (Bool.eq_false_iff.mp good)

def unlocked : AppConfiguration := { booking := { lockStrategy := .none } }

def oneSeat : CreateBookingDto := .checked "user-1" 1 passed

/- One call books without a lock, up to the answers that its oversold check gets. -/
def checkedBooking (check : List Choice) : List (Act Job Choice Ext) :=
  [.start 0 (.create (.checked "show" "hall" 2 0 "2026-12-01T12:00:00Z" passed)),
    .step 0 (.uuid "e"), .start 1 (.book unlocked "e" oneSeat {}),
    .step 1 .ok, .step 1 .ok, .step 1 .ok, .step 1 (.uuid "b"), .step 1 (.time 0),
    .step 1 (.uuid "m"), .step 1 .ok, .step 1 .ok, .step 1 .ok] ++ check.map (.step 1)

def repliesArrive (_ : ApiPool) : Act Job Choice Ext → Bool
  | .step _ .lostReply => false
  | _ => true

theorem repliesArrive_ok (q : ApiPool) (a : Act Job Choice Ext) (h : repliesArrive q a = true) :
    plainCommits.Ok q a := by
  cases a with
  | step t c =>
    rintro j e k - - rfl
    cases h
  | env x => cases x <;> trivial
  | _ => trivial

def verdictOf (x : List ApiEntry × ApiPool) : Option (Job × Except Err Response) × Bool :=
  (match x.2.slot 1 with
    | .ended j r => some (j, r)
    | _ => none,
   (entriesOf 1 x.1).any fun y => Exchange.commits y.event)

theorem ended_of_verdict {entries : List ApiEntry} {q : ApiPool} {check : List Choice} {j : Job}
    {r : Except Err Response} {committed : Bool}
    (replay : (api fun _ _ => 0).replay repliesArrive migrated (checkedBooking check) =
      some (entries, q)) (seen : verdictOf (entries, q) = (some (j, r), committed)) :
    (api fun _ _ => 0).History plainCommits.Ok migrated entries q ∧ q.slot 1 = .ended j r ∧
      ((entriesOf 1 entries).any fun y => Exchange.commits y.event) = committed := by
  obtain ⟨answered, commits⟩ := Prod.mk.inj seen
  refine ⟨Machine.History.of_replay repliesArrive_ok .refl replay, ?_, commits⟩
  split at answered
  · rename_i slot
    cases answered
    exact slot
  · cases answered

def soldSeat : BookingResponse :=
  { id := "b", eventId := "e", userId := "user-1", quantity := 1, status := .confirmed
    seatsRemaining := 1, lockStrategy := .none, createdAt := 0 }

theorem book_all_or_nothing_sold : ∃ entries q,
    (api fun _ _ => 0).History plainCommits.Ok migrated entries q ∧
    q.slot 1 = .ended (.book unlocked "e" oneSeat {}) (.ok (.booked soldSeat)) ∧
    (AllOrNothing "e" oneSeat {} (.ok (.booked soldSeat)) (entriesOf 1 entries) ↔
      (unlocked.booking.lockStrategy = .none → ChecksSeats (entriesOf 1 entries))) := by
  have replay : ((api fun _ _ => 0).replay repliesArrive migrated
      (checkedBooking [.ok, .ok])).map verdictOf =
      some (some (.book unlocked "e" oneSeat {}, .ok (.booked soldSeat)), true) := by rfl
  obtain ⟨⟨entries, q⟩, hq, seen⟩ := Option.map_eq_some_iff.mp replay
  obtain ⟨run, ended, -⟩ := ended_of_verdict hq seen
  exact ⟨entries, q, run, ended, book_all_or_nothing _ entries q run 1 _ "e" oneSeat {} _ ended⟩

/-- The seat is sold, and because the check after the COMMIT fails the caller is told it is not. -/
theorem sold_but_thrown : ¬ ∀ (partition : String → String → Nat) (entries : List ApiEntry)
    (q : ApiPool) (_ : (api partition).History plainCommits.Ok migrated entries q) (t : Tid)
    (config : AppConfiguration) (eventId : Uuid) (dto : CreateBookingDto) (context : BookingContext)
    (r : Except Err Response) (_ : q.slot t = .ended (.book config eventId dto context) r),
    AllOrNothing eventId dto context r (entriesOf t entries) := by
  intro claim
  have replay : ((api fun _ _ => 0).replay repliesArrive migrated
      (checkedBooking [.fail, .ok])).map verdictOf =
      some (some (.book unlocked "e" oneSeat {}, .error lost), true) := by rfl
  obtain ⟨⟨entries, q⟩, hq, seen⟩ := Option.map_eq_some_iff.mp replay
  obtain ⟨run, ended, committed⟩ := ended_of_verdict hq seen
  have all := claim _ entries q run 1 _ "e" oneSeat {} _ ended
  obtain ⟨y, hy, commits⟩ := List.any_eq_true.mp committed
  exact nomatch (all.throws.mp ⟨lost, rfl⟩ y hy).symm.trans commits

end Overbook
