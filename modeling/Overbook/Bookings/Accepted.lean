import Overbook.Bookings.Validation
import Overbook.Store.Answers

/-! Which JSON bodies are either refused with 400 or booked without trouble. -/
namespace Overbook.Bookings

open Async Prog Js Kafka

def statusOf : Except Err BookingResponse → Nat
  | .ok _ => 201
  | .error (.notFound _) => 404
  | .error (.conflict _) => 409
  | .error (.unprocessableEntity _) => 422
  | .error (.other _) => 500

abbrev Events := List (Event Effect.Answer Err)

/-- Every UPDATE of an event follows the read of its row at once and fits the row as it was read, so
that it misses only what another transaction has changed since. -/
def Hits (events : Events) : Prop :=
  ∀ before id cond patch r after, events = before ++ ⟨.updateEvent id cond patch, r⟩ :: after →
    ∃ row, (before.getLast? = some ⟨.findEvent id, .ok (some row)⟩ ∨
      before.getLast? = some ⟨.findEventForUpdate id, .ok (some row)⟩) ∧ cond row = true

def isUpdate : Effect → Prop
  | .updateEvent .. => True
  | _ => False

theorem hits_none {events : Events} (none : ∀ event ∈ events, ¬ isUpdate event.1) :
    Hits events := by
  rintro before id cond patch r after rfl
  exact absurd trivial (none ⟨.updateEvent id cond patch, r⟩ (by simp))

theorem hits_append {first rest : Events} (h : Hits first) (h' : Hits rest) :
    Hits (first ++ rest) := by
  intro before id cond patch r after split
  rcases List.append_eq_append_iff.mp split with ⟨mid, rfl, split'⟩ | ⟨mid, same, split'⟩
  · -- the update is in the second part
    obtain ⟨row, last, fits⟩ := h' mid id cond patch r after split'
    refine ⟨row, ?_, fits⟩
    rw [List.getLast?_append]
    rcases last with last | last <;> simp [last]
  · cases mid with
    | nil =>
      rw [List.append_nil] at same
      subst same
      obtain ⟨row, last, fits⟩ := h' [] id cond patch r after split'.symm
      simp at last
    | cons event mid =>
      obtain ⟨rfl, -⟩ := List.cons.inj split'
      exact h before id cond patch r mid same

def Hitting {α : Type} (p : Service α) : Prop := ∀ events o, Runs p events o → Hits events

section Hitting

variable {α β : Type}

theorem hitting_only {p : Service α} (only : p.Only fun e => ¬ isUpdate e) : Hitting p :=
  fun _ _ run => hits_none (runs_only run only)

theorem hitting_bind {p : Service α} {f : α → Service β} (h : Hitting p)
    (next : ∀ a, Hitting (f a)) : Hitting (p >>= f) := by
  intro events o run
  obtain ⟨first, r, before, after⟩ := runs_bind run
  cases after with
  | threw ended => exact h _ _ before
  | went after => exact hits_append (h _ _ before) (next _ _ _ after)

theorem hitting_handle {p : Service α} {f : Err → Service α} (h : Hitting p)
    (next : ∀ x, Hitting (f x)) : Hitting (tryCatch p f) := by
  intro events o run
  rcases runs_handle run with ⟨a, -, inner⟩ | ⟨x, first, rest, threw, caught, rfl⟩
  · exact h _ _ inner
  · exact hits_append (h _ _ threw) (next x _ _ caught)

theorem seatsFor_ok {eventId : Uuid} {n : Nat} {o : Option EventRow} {event : EventRow}
    (h : seatsFor eventId n o = .ok event) : o = some event ∧ (n : Int) ≤ event.availableSeats := by
  cases o with
  | none => simp [seatsFor] at h
  | some row =>
    simp only [seatsFor] at h
    split at h
    · cases h
    · cases h
      exact ⟨rfl, by omega⟩

theorem hits_pair {y : Event Effect.Answer Err} {event : EventRow} {id : Uuid}
    {cond : EventRow → Bool} {patch : EventPatch} {r : Except Err Nat} {rest : Events}
    (read : y = ⟨.findEvent id, .ok (some event)⟩ ∨ y = ⟨.findEventForUpdate id, .ok (some event)⟩)
    (fits : cond event = true) (h : Hits rest) :
    Hits (y :: ⟨.updateEvent id cond patch, r⟩ :: rest) := by
  intro before id' cond' patch' r' after split
  cases before with
  | nil => rcases read with rfl | rfl <;> simp at split
  | cons first before =>
    simp only [List.cons_append, List.cons.injEq] at split
    obtain ⟨rfl, split⟩ := split
    cases before with
    | nil =>
      simp only [List.nil_append, List.cons.injEq, Sigma.mk.injEq, Effect.updateEvent.injEq] at split
      obtain ⟨⟨⟨rfl, rfl, rfl⟩, -⟩, -⟩ := split
      exact ⟨event, by simpa using read, fits⟩
    | cons second before =>
      simp only [List.cons_append, List.cons.injEq] at split
      obtain ⟨row, last, fits⟩ := h before id' cond' patch' r' after split.2
      refine ⟨row, ?_, fits⟩
      rcases last with last | last <;> simp [List.getLast?_cons, last]

variable {eventId : Uuid} {n : Nat}

section Read

variable {cond : EventRow → EventRow → Bool} {patch : EventRow → EventPatch}
  {f : EventRow → Nat → Service β}
  (fits : ∀ event : EventRow, (n : Int) ≤ event.availableSeats → cond event event = true)
  (next : ∀ event a, Hitting (f event a))

include fits next

theorem hits_read {row : Option EventRow} {y : Event Effect.Answer Err} {rest : Events}
    {o : Except Err β} (quiet : ¬ isUpdate y.1)
    (read : ∀ event, row = some event →
      y = ⟨.findEvent eventId, .ok (some event)⟩ ∨
      y = ⟨.findEventForUpdate eventId, .ok (some event)⟩)
    (run : Runs (do
      let event ← Prog.ofExcept (seatsFor eventId n row)
      let a ← ask (.updateEvent eventId (cond event) (patch event))
      f event a) rest o) : Hits (y :: rest) := by
  have alone : Hits [y] := hits_none fun z mem => by rwa [List.mem_singleton.mp mem]
  cases seats : seatsFor eventId n row with
  | error x =>
    rw [seats] at run
    obtain ⟨rfl, -⟩ := runs_fail run
    exact alone
  | ok event =>
    rw [seats] at run
    obtain ⟨found, enough⟩ := seatsFor_ok seats
    obtain ⟨r, after, rfl, went⟩ := runs_first run
    refine hits_pair (read event found) (fits event enough) ?_
    cases r with
    | error x =>
      obtain ⟨rfl, -⟩ := runs_fail went
      exact hits_none (by simp)
    | ok a => exact next event a _ _ went

/-- What all three strategies start with. -/
theorem hitting_read {p : Service (Option EventRow)}
    (read : p = ask (.findEvent eventId) ∨ p = ask (.findEventForUpdate eventId)) :
    Hitting (do
      let event ← Prog.ofExcept (seatsFor eventId n (← p))
      let a ← ask (.updateEvent eventId (cond event) (patch event))
      f event a) := by
  intro events o run
  rcases read with rfl | rfl
  · obtain ⟨r, rest, rfl, went⟩ := runs_first run
    cases r with
    | error x =>
      obtain ⟨rfl, -⟩ := runs_fail went
      exact hits_none fun y mem => by rw [List.mem_singleton.mp mem]; exact fun h => h
    | ok row => exact hits_read fits next (fun h => h) (fun event h => .inl (by rw [h])) went
  · obtain ⟨r, rest, rfl, went⟩ := runs_first run
    cases r with
    | error x =>
      obtain ⟨rfl, -⟩ := runs_fail went
      exact hits_none fun y mem => by rw [List.mem_singleton.mp mem]; exact fun h => h
    | ok row => exact hits_read fits next (fun h => h) (fun event h => .inr (by rw [h])) went

end Read

theorem decrement_hitting (config : BookingConfig) :
    Hitting (Overbook.decrement config eventId n) := by
  have done : ∀ a : Decremented, Hitting (pure a) := fun a => hitting_only (only_done a)
  unfold Overbook.decrement
  split
  · exact hitting_read (fun _ _ => rfl) (fun _ _ => done _) (.inr rfl)
  · unfold decrementOptimistic
    induction (config.optimisticMaxRetries + 1).toNat with
    | zero => exact hitting_only (only_fail _)
    | succ rounds ih =>
      refine hitting_read (fun event enough => by simp [Overbook.unchanged, enough]) ?_ (.inl rfl)
      intro event affected
      split
      · exact done _
      · exact ih
  · exact hitting_read (fun _ _ => rfl) (fun _ _ => done _) (.inl rfl)

theorem transaction_hitting {p : Service α} (h : Hitting p) : Hitting (transaction p) := by
  have quiet : ∀ {e : Effect}, ¬ isUpdate e → Hitting (ask e) := fun h =>
    hitting_only ((only_await _).mpr h)
  refine hitting_handle ?_ fun x => ?_
  · refine hitting_bind (quiet fun h => h) fun _ => hitting_bind h fun a => ?_
    exact hitting_bind (quiet fun h => h) fun _ => hitting_only (only_done a)
  · refine hitting_bind (hitting_handle (quiet fun h => h) fun _ => hitting_only (only_done _)) ?_
    exact fun _ => hitting_only (only_fail x)

theorem enqueueConfirmed_quiet (config : AppConfiguration) (context : BookingContext)
    (b : BookingRow) (result : Decremented) :
    (enqueueConfirmed config eventId context b result).Only fun e => ¬ isUpdate e := by
  refine only_bind (only_bind ?_ fun _ => ?_) fun _ => only_done _
  · simp [isUpdate]
  · simp [isUpdate]

theorem afterCommit_quiet (config : AppConfiguration) (context : BookingContext)
    (b : BookingRow) (result : Decremented) :
    (afterCommit config eventId context b result).Only fun e => ¬ isUpdate e := by
  have report : (integrity eventId).Only fun e => ¬ isUpdate e := by
    refine only_bind (by simp [isUpdate]) fun row => ?_
    cases row with
    | none => trivial
    | some event => exact only_bind (by simp [isUpdate]) fun _ => only_done _
  unfold afterCommit
  refine only_bind (by simp [isUpdate]) fun _ => ?_
  refine only_bind (only_handle (by simp [isUpdate]) fun _ => only_done _) fun _ => ?_
  refine only_bind (only_runIf (only_bind report fun _ => only_runIf (by simp [isUpdate]))) ?_
  refine fun _ => only_bind (only_runIf (by simp [isUpdate])) fun _ => ?_
  refine only_bind (only_runIf (only_handle ?_ fun _ => only_done _)) fun _ => only_done _
  simp [publish, publishBatch, send, isUpdate]

theorem book_hitting (config : AppConfiguration) (dto : CreateBookingDto)
    (context : BookingContext) : Hitting (Overbook.book config eventId dto context) := by
  have inside : Hitting (Overbook.bookInTransaction config eventId dto context) := by
    refine hitting_bind (decrement_hitting config.booking) fun result => hitting_only ?_
    refine only_bind (by simp [isUpdate]) fun b => ?_
    exact only_bind (only_runIf (enqueueConfirmed_quiet config context b result)) fun _ => trivial
  refine hitting_handle (hitting_bind (transaction_hitting inside) fun a => ?_) fun x => ?_
  · exact hitting_only (afterCommit_quiet config context a.1 a.2)
  · exact hitting_only (only_bind (by simp [isUpdate]) fun _ => only_fail x)

end Hitting

/-! The errors of a book call that is answered throughout. -/

def Refusal (x : Err) : Prop := ∃ message, x = .notFound message ∨ x = .conflict message

section Refusal

variable {α : Type} {eventId : Uuid} {n : Nat}

theorem seatsFor_refuses (o : Option EventRow) (x : Err) (h : seatsFor eventId n o = .error x) :
    Refusal x := by
  cases o with
  | none =>
    cases h
    exact ⟨_, .inl rfl⟩
  | some event =>
    simp only [seatsFor] at h
    split at h
    · cases h
      exact ⟨_, .inr rfl⟩
    · cases h

theorem decrement_raises (config : BookingConfig) :
    (Overbook.decrement config eventId n).Raises Refusal := by
  have seats : ∀ o : Option EventRow, (Prog.ofExcept (seatsFor eventId n o) :
      Service EventRow).Raises Refusal := fun o => raises_ofExcept (seatsFor_refuses o)
  have update : ∀ e : Effect, (ask e).Raises Refusal := raises_await
  unfold Overbook.decrement
  split
  · refine raises_bind (update _) fun o => raises_bind (seats o) fun event => ?_
    exact raises_bind (update _) fun _ => raises_done _
  · unfold decrementOptimistic
    induction (config.optimisticMaxRetries + 1).toNat with
    | zero => exact ⟨_, .inr rfl⟩
    | succ rounds ih =>
      refine raises_bind (update _) fun o => raises_bind (seats o) fun event => ?_
      refine raises_bind (update _) fun affected => ?_
      split
      · exact raises_done _
      · exact ih
  · refine raises_bind (update _) fun o => raises_bind (seats o) fun event => ?_
    exact raises_bind (update _) fun _ => raises_done _

theorem caught_raises {p : Service Unit} (h : p.Raises Refusal) :
    (tryCatch p fun _ => pure ()).Raises Refusal := raises_handle h fun _ _ => raises_done _

theorem transaction_raises {p : Service α} (h : p.Raises Refusal) :
    (transaction p).Raises Refusal := by
  have begun : (do ask .beginTx; let a ← p; ask .commitTx; pure a : Service α).Raises Refusal := by
    refine raises_bind (raises_await _) fun _ => raises_bind h fun a => ?_
    exact raises_bind (raises_await _) fun _ => raises_done a
  refine raises_handle begun fun x refusal => ?_
  exact raises_bind (caught_raises (raises_await _)) fun _ => refusal

theorem integrity_raises : (integrity eventId).Raises Refusal := by
  refine raises_bind (raises_await _) fun row => ?_
  cases row with
  | none => exact ⟨_, .inl rfl⟩
  | some event => exact raises_bind (raises_await _) fun _ => raises_done _

theorem afterCommit_raises (config : AppConfiguration) (context : BookingContext)
    (b : BookingRow) (result : Decremented) :
    (afterCommit config eventId context b result).Raises Refusal := by
  have sent : (publishDirectly config b result.eventName context.traceId).Raises Refusal := by
    refine caught_raises ?_
    simp [publish, publishBatch, send]
  unfold afterCommit
  refine raises_bind (raises_await _) fun _ => ?_
  refine raises_bind (caught_raises (raises_await _)) fun _ => ?_
  refine raises_bind (raises_runIf (raises_bind integrity_raises fun _ => raises_runIf ?_)) ?_
  · exact raises_await _
  refine fun _ => raises_bind (raises_runIf (raises_await _)) fun _ => ?_
  exact raises_bind (raises_runIf sent) fun _ => raises_done _

theorem book_raises (config : AppConfiguration) (dto : CreateBookingDto)
    (context : BookingContext) : (Overbook.book config eventId dto context).Raises Refusal := by
  have queued : ∀ b result, (enqueueConfirmed config eventId context b result).Raises Refusal :=
    fun _ _ => raises_bind (raises_bind (raises_await _) fun _ => raises_await _) fun _ =>
      raises_done _
  have inside : (Overbook.bookInTransaction config eventId dto context).Raises Refusal := by
    refine raises_bind (decrement_raises config.booking) fun result => ?_
    refine raises_bind (raises_await _) fun b => ?_
    exact raises_bind (raises_runIf (queued b result)) fun _ => raises_done _
  refine raises_handle (raises_bind (transaction_raises inside) fun a => ?_) fun x refusal => ?_
  · exact afterCommit_raises config context a.1 a.2
  · exact raises_bind (raises_await _) fun _ => refusal

end Refusal

/-! The claim and its condition. -/

/-- The statements of one call on the store, whatever other tasks do to the store in between. -/
inductive Plays (partition : String → String → Nat) (t : Tid) : Store → Events → Prop where
  | nil (s : Store) : Plays partition t s []
  | cons {s s' : Store} {e : Effect} {c : Choice} {r : Except Err e.Answer} {events : Events}
      (others : Store) (untouched : others.tx t = s.tx t)
      (answered : exec partition t others e c = some (s', r)) (rest : Plays partition t s' events) :
      Plays partition t s (⟨e, r⟩ :: events)

/-- A call that gets a body which the booking code and the tables can take, and that is answered
201, 404 or 409 unless the infrastructure fails, a 409 for contention with others alone. -/
structure Bookable (body : BookingBody) : Prop where
  quantity : ∃ n, body.quantity = some n ∧ 1 ≤ n ∧ n ≤ 10
  storable : BookingBody.storable body.userId = true
  answered : ∀ config eventId context events o partition t s,
    Runs (body.book config eventId context) events o → Plays partition t s events →
      Hits events ∧ (AllAnswered events → statusOf o ∈ [201, 404, 409])

def Admitted (limit : RateLimitConfig) (p : Packages) (body : JsValue) : Prop :=
  match beforeBook limit p body with
  | .error status => status = 400
  | .ok dto => Bookable dto

/-- With the rate limit on, the user id can be put into a text; `Number` throws on no quantity; and an
object that the decorators accept has another quantity than `null` and a user id of at most 100
characters, none of them U+0000 or half of a pair. -/
structure Harmless (limit : RateLimitConfig) (p : Packages) (body : JsValue) : Prop where
  identified : limit.enabled = true → identifyThrows body = false
  converts : within convertThrows body = false
  fits : ∀ members userId, body = .object members →
    accepts p (plainToInstance p members) = true → member "userId" members = some (.string userId) →
    member "quantity" members ≠ some .null ∧ userId.length ≤ 100 ∧
      ∀ c ∈ userId, ∃ x, c = .char x ∧ x ≠ '\x00'

theorem bookable {body : BookingBody} {n : Nat} (number : body.quantity = some n)
    (stored : BookingBody.storable body.userId = true)
    (escaped : BookingBody.paired body.userId = true) : Bookable body where
  quantity := ⟨n, number, body.quantity_range n number⟩
  storable := stored
  answered := by
    intro config eventId context events o _ _ _ run _
    rw [BookingBody.book_eq number stored escaped] at run
    refine ⟨book_hitting _ _ _ _ _ run, fun answered => ?_⟩
    have refusal := (book_raises _ _ _).runs run answered
    cases o with
    | ok response => simp [statusOf]
    | error x =>
      obtain ⟨message, rfl | rfl⟩ := refusal x rfl <;> simp [statusOf]

def tenSeats : EventRow :=
  { name := "", venue := "", totalSeats := 10, availableSeats := 10, priceCents := 0, startsAt := ""
    createdAt := 0 }

def withTenSeats : Store := { events := fun id => if id = "event" then some ⟨tenSeats, none⟩ else none }

/- With the outbox in use, the payload of a booking ends the call with a database error. -/
def payloadRefused (userId : String) (n : Nat) : Events :=
  [⟨.beginTx, .ok ()⟩, ⟨.findEventForUpdate "event", .ok (some tenSeats)⟩,
    ⟨.updateEvent "event" (fun _ => true) ⟨fun _ => 10 - n, fun row => row.version + 1⟩, .ok 1⟩,
    ⟨.insertBooking ⟨"event", userId, n, .confirmed, none⟩,
      .ok ⟨"booking", "event", userId, n, .confirmed, none, 0⟩⟩,
    ⟨.rollbackTx, .ok ()⟩, ⟨.bookingsTotal .error .pessimistic, .ok ()⟩]

theorem payloadRefused_plays (userId : String) (n : Nat) :
    Plays (fun _ _ => 0) 0 withTenSeats (payloadRefused userId n) := by
  refine .cons (c := .ok) _ rfl rfl ?_
  refine .cons (c := .ok) _ rfl rfl ?_
  refine .cons (c := .ok) _ rfl rfl ?_
  refine .cons (c := .uuid "booking") _ rfl rfl ?_
  refine .cons (c := .ok) _ rfl rfl ?_
  exact .cons (c := .ok) _ rfl rfl (.nil _)

theorem payloadRefused_answered (userId : String) (n : Nat) :
    AllAnswered (payloadRefused userId n) := by
  intro event mem
  simp only [payloadRefused, List.mem_cons, List.not_mem_nil, or_false] at mem
  rcases mem with rfl | rfl | rfl | rfl | rfl | rfl <;> exact ⟨_, rfl⟩

theorem payloadRefused_runs {body : BookingBody} {n : Nat} (number : body.quantity = some n)
    (stored : BookingBody.storable body.userId = true)
    (unpaired : BookingBody.paired body.userId = false) :
    Runs (body.book {} "event" {}) (payloadRefused (BookingBody.text body.userId) n)
      (.error (.other "invalid input syntax for type json")) := by
  have enough : seatsFor "event" n (some tenSeats) = .ok tenSeats := by
    have most := (body.quantity_range n number).2
    simp [seatsFor, tenSeats]
    omega
  have operand : body.operand = n := by simp [BookingBody.operand, number]
  have columns : body.columns = .ok (BookingBody.text body.userId, n) := by
    simp [BookingBody.columns, number, stored]
  have payload : body.payload = .error (.other "invalid input syntax for type json") := by
    simp [BookingBody.payload, unpaired]
  unfold BookingBody.book BookingBody.bookInTransaction BookingBody.decrement
  rw [columns, payload, operand]
  refine .call (.call ?_)
  dsimp only [Prog.ofExcept, Prog.bind]
  rw [enough]
  exact .call (.call (.call (.call .fail)))

/-! The pipe. -/

variable {p : Packages}

theorem validate_iff {x : Plain} {dto : BookingBody} (h : validate p x = some dto) :
    x.userId = some (.string dto.userId) ∧ accepts p x = true ∧
      dto.quantity = x.quantity.map Num.whole := by
  unfold validate at h
  split at h
  · rename_i userId found
    split at h
    · rename_i accepted
      cases Option.some.inj h
      exact ⟨found, accepted, rfl⟩
    · cases h
  · cases h

theorem validate_accepted {x : Plain} {userId : JsString} (found : x.userId = some (.string userId))
    (accepted : accepts p x = true) : ∃ dto, validate p x = some dto := by
  unfold validate
  split
  · rw [dif_pos accepted]
    exact ⟨_, rfl⟩
  · rename_i other
    exact absurd found (other userId)

/- Half of a pair shows in the payload only. -/
theorem storable_iff {userId : JsString} :
    (BookingBody.storable userId = true ∧ BookingBody.paired userId = true) ↔
      userId.length ≤ 100 ∧ ∀ c ∈ userId, ∃ x, c = .char x ∧ x ≠ '\x00' := by
  simp only [BookingBody.storable, BookingBody.paired, Bool.and_eq_true, decide_eq_true_eq,
    Bool.not_eq_true', List.all_eq_true]
  constructor
  · rintro ⟨⟨short, no_nul⟩, paired⟩
    refine ⟨short, fun c mem => ?_⟩
    cases c with
    | surrogate n => exact absurd (paired _ mem) (by simp)
    | char x =>
      refine ⟨x, rfl, ?_⟩
      rintro rfl
      simp_all
  · rintro ⟨short, chars⟩
    refine ⟨⟨short, ?_⟩, fun c mem => ?_⟩
    · by_contra nul
      obtain ⟨x, same, other⟩ := chars (.char '\x00') (by simpa using nul)
      exact other (CodePoint.char.inj same).symm
    · obtain ⟨x, rfl, -⟩ := chars c mem
      rfl

theorem beforeBook_identified {limit : RateLimitConfig} {body : JsValue}
    (identified : limit.enabled = true → identifyThrows body = false) :
    beforeBook limit p body = pipe p body := by
  unfold beforeBook
  cases enabled : limit.enabled with
  | false => rfl
  | true => simp [identified enabled]

/- The packages on a body without coercions: a length counts code points. -/
def plainPackages : Packages where
  number
    | .number x => .fin x.value
    | _ => .nan
  length := List.length
  skipped _ := false

def nullBody : JsValue :=
  .object [(key "userId", .string (key "user-42")), (key "quantity", .null)]

def nullQuantity : BookingBody := ⟨key "user-42", none, nofun⟩

def insertRefused : Events :=
  [⟨.beginTx, .ok ()⟩, ⟨.findEventForUpdate "event", .ok (some tenSeats)⟩,
    ⟨.updateEvent "event" (fun _ => true) ⟨fun _ => 10 - 0, fun row => row.version + 1⟩, .ok 1⟩,
    ⟨.rollbackTx, .ok ()⟩, ⟨.bookingsTotal .error .pessimistic, .ok ()⟩]

theorem insertRefused_plays : Plays (fun _ _ => 0) 0 withTenSeats insertRefused := by
  refine .cons (c := .ok) _ rfl rfl ?_
  refine .cons (c := .ok) _ rfl rfl ?_
  refine .cons (c := .ok) _ rfl rfl ?_
  refine .cons (c := .ok) _ rfl rfl ?_
  exact .cons (c := .ok) _ rfl rfl (.nil _)

theorem insertRefused_runs : Runs (nullQuantity.book {} "event" {}) insertRefused
    (.error (.other "null value in column quantity violates not-null constraint")) := by
  have seats : seatsFor "event" 0 (some tenSeats) = .ok tenSeats := rfl
  have operand : nullQuantity.operand = 0 := rfl
  have columns : nullQuantity.columns =
      .error (.other "null value in column quantity violates not-null constraint") := rfl
  unfold BookingBody.book BookingBody.bookInTransaction BookingBody.decrement
  rw [columns, operand]
  refine .call (.call ?_)
  dsimp only [Prog.ofExcept, Prog.bind]
  rw [seats]
  exact .call (.call (.call .fail))

end Overbook.Bookings
