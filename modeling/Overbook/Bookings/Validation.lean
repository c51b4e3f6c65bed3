import Overbook.Async.Errors
import Overbook.Bookings.Service
import Overbook.JsValue

/-! A booking request from its JSON body on: what the rate limit guard and the validation pipe make
of the body, and what a book call does with whatever the pipe lets pass. -/
namespace Overbook.Bookings

open Async Prog Js

/-! The pipe. -/

/-- What the packages decide: the number that `Number` makes of a value that it does not throw on,
the count that `@Length` compares, and the names that are copied to no instance. -/
structure Packages where
  number : JsValue → Num
  length : JsString → Nat
  skipped : JsString → Bool

def key (name : String) : JsString := name.toList.map .char

/- Of several members of one name the last is kept. -/
def member (name : String) (members : List (JsString × JsValue)) : Option JsValue :=
  (members.reverse.find? fun m => m.1 == key name).map (·.2)

mutual

/- A value reached through arrays only satisfies `f`. -/
def within (f : JsValue → Bool) : JsValue → Bool
  | .array items => withinItems f items
  | v => f v

def withinItems (f : JsValue → Bool) : List JsValue → Bool
  | [] => false
  | v :: items => within f v || withinItems f items

end

def hidesToString : JsValue → Bool
  | .object members => (member "toString" members).isSome
  | _ => false

/-- `Number(v)` and `String(v)` throw: a member `toString` hides the inherited method and is no
function. -/
def unprintable (v : JsValue) : Bool := within hidesToString v

/- `@Type(() => Number)`, where it throws nothing. -/
def typeNumber (p : Packages) : JsValue → Option Num
  | .null => none
  | v => some (p.number v)

/-- The DTO with its default, as `plainToInstance` fills it. A `quantity` of `null` is `none`. -/
structure Plain where
  userId : Option JsValue
  quantity : Option Num
  others : List JsString

def plainToInstance (p : Packages) (members : List (JsString × JsValue)) : Plain :=
  { userId := member "userId" members
    quantity :=
      match member "quantity" members with
      | none => some (.ofInt 1)
      | some v => typeNumber p v
    others := (members.map (·.1)).filter fun name =>
      !(name == key "userId" || name == key "quantity" || p.skipped name) }

def convertThrows : JsValue → Bool
  | .object members => ((member "quantity" members).map unprintable).getD false
  | _ => false

def isInt : Num → Bool
  | .fin q => q.den == 1
  | _ => false

def hasMin (bound : Int) (x : Num) : Bool := (Num.ofInt bound).le x

def hasMax (bound : Int) (x : Num) : Bool := x.le (.ofInt bound)

/- `@IsInt() @Min(1) @Max(10)`. -/
def isQuantity (x : Num) : Bool := isInt x && hasMin 1 x && hasMax 10 x

/- `@Length(1, 100)`. -/
def hasLength (p : Packages) (s : JsString) : Bool := 1 ≤ p.length s && p.length s ≤ 100

/-- A body that has passed validation. `@IsOptional()` lets a `quantity` of `null` pass. -/
structure BookingBody where
  userId : JsString
  quantity : Option Nat
  quantity_range : ∀ n, quantity = some n → 1 ≤ n ∧ n ≤ 10

def Num.whole : Num → Nat
  | .fin q => q.num.toNat
  | _ => 0

theorem isQuantity_whole {x : Num} (h : isQuantity x = true) :
    x = .ofInt (Num.whole x) ∧ 1 ≤ Num.whole x ∧ Num.whole x ≤ 10 := by
  cases x with
  | fin q =>
    simp only [isQuantity, isInt, hasMin, hasMax, Num.ofInt, Num.le, Bool.and_eq_true, beq_iff_eq,
      decide_eq_true_eq] at h
    obtain ⟨⟨den, least⟩, most⟩ := h
    have whole : q = q.num := (Rat.den_eq_one_iff q).mp den |>.symm
    rw [whole] at least most
    have low : (1 : Int) ≤ q.num := by exact_mod_cast least
    have high : q.num ≤ (10 : Int) := by exact_mod_cast most
    have nat : ((q.num.toNat : Nat) : Int) = q.num := Int.toNat_of_nonneg (by omega)
    refine ⟨?_, ?_, ?_⟩
    · simp only [Num.whole, Num.ofInt, nat]
      exact congrArg Num.fin whole
    · simp only [Num.whole]
      omega
    · simp only [Num.whole]
      omega
  | _ => simp [isQuantity, isInt] at h

/-- What the decorators accept. -/
def accepts (p : Packages) (x : Plain) : Bool :=
  x.others.isEmpty &&
    (match x.userId with
      | some (.string userId) => hasLength p userId
      | _ => false) &&
    (match x.quantity with
      | none => true
      | some q => isQuantity q)

def validate (p : Packages) (x : Plain) : Option BookingBody :=
  match x.userId with
  | some (.string userId) =>
    if h : accepts p x = true then
      some
        { userId, quantity := x.quantity.map Num.whole
          quantity_range := by
            intro n same
            obtain ⟨q, hq, rfl⟩ := Option.map_eq_some_iff.mp same
            simp only [accepts, hq, Bool.and_eq_true] at h
            exact (isQuantity_whole h.2).2 }
    else none
  | _ => none

/-- The pipe: the body for the handler, or the status of the answer without it. Bodies other than
objects and arrays are refused before it, and an array has none of the members. -/
def pipe (p : Packages) (body : JsValue) : Except Nat BookingBody :=
  if within convertThrows body then .error 500
  else
    match body with
    | .object members =>
      match validate p (plainToInstance p members) with
      | some dto => .ok dto
      | none => .error 400
    | _ => .error 400

/-! The guard. -/

def truthy : JsValue → Bool
  | .null => false
  | .bool b => b
  | .number x => x != .zero
  | .string s => s != []
  | _ => true

/-- `identify` throws: it puts the `userId` of the body, as it has been sent, into a text. -/
def identifyThrows : JsValue → Bool
  | .object members =>
    ((member "userId" members).map fun userId => truthy userId && unprintable userId).getD false
  | _ => false

/-- What becomes of a body before `book`, where the limiter has a token for the request or cannot be
reached: `RateLimitGuard` runs before the pipe, and `identify` stands outside its `try`. -/
def beforeBook (limit : RateLimitConfig) (p : Packages) (body : JsValue) : Except Nat BookingBody :=
  if limit.enabled && identifyThrows body then .error 500 else pipe p body

/-! The book call. -/

namespace BookingBody

/- What `user_id varchar(100)` stores. -/
def storable (userId : JsString) : Bool := userId.length ≤ 100 && !userId.contains (.char '\x00')

/- As the driver encodes it: half of a pair becomes U+FFFD. -/
def text (userId : JsString) : String :=
  String.ofList (userId.map fun
    | .char c => c
    | .surrogate _ => '\ufffd')

/- The columns of the booking row, unless Postgres refuses them. -/
def columns (body : BookingBody) : Except Err (String × Nat) :=
  match body.quantity with
  | none => .error (.other "null value in column quantity violates not-null constraint")
  | some n =>
    if storable body.userId then .ok (text body.userId, n)
    else .error (.other "the value does not fit in user_id")

def paired (userId : JsString) : Bool := userId.all fun
  | .char _ => true
  | .surrogate _ => false

/- The text of the payload escapes half of a pair, which `jsonb` refuses. -/
def payload (body : BookingBody) : Except Err Unit :=
  if paired body.userId then .ok () else .error (.other "invalid input syntax for type json")

/- The operators `<` and `-` take `null` for zero. -/
def operand (body : BookingBody) : Nat := body.quantity.getD 0

/- `WHERE version = :version AND available_seats >= :quantity`: with NULL it is true of no row. -/
def unchanged (body : BookingBody) (event row : EventRow) : Bool :=
  match body.quantity with
  | none => false
  | some n => Overbook.unchanged event n row

def optimisticRounds (body : BookingBody) (eventId : Uuid) : Nat → Service Decremented
  | 0 => throw (.conflict "Too much contention on this event, please retry")
  | rounds + 1 => do
    let event ← Prog.ofExcept (seatsFor eventId body.operand (← ask (.findEvent eventId)))
    let affected ← ask (.updateEvent eventId (body.unchanged event)
      { availableSeats := fun row => row.availableSeats - body.operand
        version := fun row => row.version + 1 })
    if affected = 1 then
      pure { seatsRemaining := event.availableSeats - body.operand, eventName := event.name }
    else optimisticRounds body eventId rounds

def decrement (body : BookingBody) (config : BookingConfig) (eventId : Uuid) : Service Decremented :=
  match config.lockStrategy with
  | .pessimistic => decrementPessimistic eventId body.operand
  | .optimistic => body.optimisticRounds eventId (config.optimisticMaxRetries + 1).toNat
  | .none => decrementNaive eventId body.operand

def bookInTransaction (body : BookingBody) (config : AppConfiguration) (eventId : Uuid)
    (context : BookingContext) : Service (BookingRow × Decremented) := do
  let result ← body.decrement config.booking eventId
  let (userId, quantity) ← Prog.ofExcept body.columns
  let booking ← ask (.insertBooking
    { eventId, userId, quantity, status := .confirmed, idempotencyKey := context.idempotencyKey })
  runIf config.outbox.enqueues (do
    Prog.ofExcept body.payload
    enqueueConfirmed config eventId context booking result)
  pure (booking, result)

/-- `book` with a body as the pipe hands it over. -/
def book (body : BookingBody) (config : AppConfiguration) (eventId : Uuid)
    (context : BookingContext) : Service BookingResponse :=
  tryCatch
    (do
      let (booking, result) ← transaction (body.bookInTransaction config eventId context)
      afterCommit config eventId context booking result)
    fun error => do
      ask (.bookingsTotal error.bookingResult config.booking.lockStrategy)
      throw error

variable {body : BookingBody} {n : Nat}

theorem optimisticRounds_eq (number : body.quantity = some n) (eventId : Uuid) (rounds : Nat) :
    body.optimisticRounds eventId rounds = Overbook.optimisticRounds eventId n rounds := by
  have operand : body.operand = n := by simp [BookingBody.operand, number]
  have cond : body.unchanged = fun event => Overbook.unchanged event n := by
    funext event row
    simp [BookingBody.unchanged, number]
  induction rounds with
  | zero => rfl
  | succ rounds ih =>
    unfold BookingBody.optimisticRounds Overbook.optimisticRounds
    rw [ih, operand, cond]

def dto (body : BookingBody) (number : body.quantity = some n) : CreateBookingDto :=
  { userId := text body.userId, quantity := n
    quantity_min := (body.quantity_range n number).1
    quantity_max := (body.quantity_range n number).2 }

/-- A number of seats and a user id that both tables take make an ordinary call. -/
theorem book_eq (number : body.quantity = some n) (stored : storable body.userId = true)
    (escaped : paired body.userId = true) (config : AppConfiguration) (eventId : Uuid)
    (context : BookingContext) :
    body.book config eventId context = Overbook.book config eventId (body.dto number) context := by
  have columns : body.columns = .ok (text body.userId, n) := by
    simp [BookingBody.columns, number, stored]
  have payload : body.payload = .ok () := by simp [BookingBody.payload, escaped]
  have decrement : body.decrement config.booking eventId =
      Overbook.decrement config.booking eventId n := by
    have operand : body.operand = n := by simp [BookingBody.operand, number]
    unfold BookingBody.decrement Overbook.decrement decrementOptimistic
    cases config.booking.lockStrategy with
    | pessimistic => simp only [operand]
    | optimistic => exact optimisticRounds_eq number eventId _
    | none => simp only [operand]
  unfold BookingBody.book Overbook.book BookingBody.bookInTransaction Overbook.bookInTransaction
  rw [decrement, columns, payload]
  rfl

end BookingBody

end Overbook.Bookings
