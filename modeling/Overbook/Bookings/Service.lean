import Overbook.Outbox.Relay

/-! Events are created and seats are booked: the three lock strategies of a book call. -/
namespace Overbook

open Async Prog Kafka

/- A request body that has passed validation. -/
structure CreateEventDto where
  name : String
  venue : String
  totalSeats : Int
  priceCents : Int
  startsAt : String
  totalSeats_min : 1 ≤ totalSeats
  priceCents_min : 0 ≤ priceCents

structure CreateBookingDto where
  userId : String
  quantity : Nat := 1
  quantity_min : 1 ≤ quantity
  quantity_max : quantity ≤ 10

/- Requests that pass the checks of their DTOs. -/
def CreateEventDto.checked (name venue : String) (totalSeats priceCents : Int) (startsAt : String)
    (passes : decide (1 ≤ totalSeats ∧ 0 ≤ priceCents) = true) : CreateEventDto :=
  ⟨name, venue, totalSeats, priceCents, startsAt, (of_decide_eq_true passes).1,
    (of_decide_eq_true passes).2⟩

def CreateBookingDto.checked (userId : String) (quantity : Nat)
    (passes : decide (1 ≤ quantity ∧ quantity ≤ 10) = true) : CreateBookingDto :=
  ⟨userId, quantity, (of_decide_eq_true passes).1, (of_decide_eq_true passes).2⟩

/- For a check that comes out true. -/
theorem passed : true = true := rfl

structure BookingContext where
  traceId : Option String := none
  idempotencyKey : Option String := none

structure BookingResponse where
  id : Uuid
  eventId : Uuid
  userId : String
  quantity : Nat
  status : BookingStatus
  seatsRemaining : Int
  lockStrategy : BookingLockStrategy
  createdAt : Time

structure SeatIntegrity where
  eventId : Uuid
  totalSeats : Int
  availableSeats : Int
  confirmedSeats : Nat
  oversoldBy : Int
  counterDrift : Bool

structure Decremented where
  seatsRemaining : Int
  eventName : String

def bookingConfirmed : String := "booking.confirmed"

/- The answer is the id of the saved event. -/
def create (dto : CreateEventDto) : Service Uuid :=
  ask (.insertEvent
    { name := dto.name, venue := dto.venue, totalSeats := dto.totalSeats
      availableSeats := dto.totalSeats, priceCents := dto.priceCents, startsAt := dto.startsAt })

def eventNotFound (eventId : Uuid) : Err := .notFound s!"Event {eventId} not found"

/-- The checks that all three strategies make on the row they have read. -/
def seatsFor (eventId : Uuid) (quantity : Nat) : Option EventRow → Except Err EventRow
  | none => .error (eventNotFound eventId)
  | some event => if event.availableSeats < quantity then .error (.conflict "Sold out") else .ok event

def decrementNaive (eventId : Uuid) (quantity : Nat) : Service Decremented := do
  let event ← Prog.ofExcept (seatsFor eventId quantity (← ask (.findEvent eventId)))
  let remaining := event.availableSeats - quantity
  let _ ← ask (.updateEvent eventId (fun _ => true) { availableSeats := fun _ => remaining })
  pure { seatsRemaining := remaining, eventName := event.name }

def decrementPessimistic (eventId : Uuid) (quantity : Nat) : Service Decremented := do
  let event ← Prog.ofExcept (seatsFor eventId quantity (← ask (.findEventForUpdate eventId)))
  let remaining := event.availableSeats - quantity
  let _ ← ask (.updateEvent eventId (fun _ => true)
    { availableSeats := fun _ => remaining, version := fun row => row.version + 1 })
  pure { seatsRemaining := remaining, eventName := event.name }

/- `WHERE version = :version AND available_seats >= :quantity`. -/
def unchanged (event : EventRow) (quantity : Nat) (row : EventRow) : Bool :=
  row.version == event.version && decide ((quantity : Int) ≤ row.availableSeats)

/- The rounds of the retry loop that are left. -/
def optimisticRounds (eventId : Uuid) (quantity : Nat) : Nat → Service Decremented
  | 0 => throw (.conflict "Too much contention on this event, please retry")
  | rounds + 1 => do
    let event ← Prog.ofExcept (seatsFor eventId quantity (← ask (.findEvent eventId)))
    let affected ← ask (.updateEvent eventId (unchanged event quantity)
      { availableSeats := fun row => row.availableSeats - quantity
        version := fun row => row.version + 1 })
    if affected = 1 then
      pure { seatsRemaining := event.availableSeats - quantity, eventName := event.name }
    else optimisticRounds eventId quantity rounds

/- `attempt` runs from 0 to `maxRetries`, both included. -/
def decrementOptimistic (maxRetries : Int) (eventId : Uuid) (quantity : Nat) : Service Decremented :=
  optimisticRounds eventId quantity (maxRetries + 1).toNat

def decrement (config : BookingConfig) (eventId : Uuid) (quantity : Nat) : Service Decremented :=
  match config.lockStrategy with
  | .pessimistic => decrementPessimistic eventId quantity
  | .optimistic => decrementOptimistic config.optimisticMaxRetries eventId quantity
  | .none => decrementNaive eventId quantity

def payloadOf (booking : BookingRow) (eventName : String) (traceId : Option String) :
    BookingConfirmedPayload :=
  { bookingId := booking.id, eventId := booking.eventId, userId := booking.userId
    quantity := booking.quantity, eventName, bookedAt := booking.createdAt, traceId }

def OutboxConfig.enqueues (config : OutboxConfig) : Bool :=
  config.enabled && !config.directPublishMode

/- Partition by event: all bookings for one event stay ordered. -/
def enqueueConfirmed (config : AppConfiguration) (eventId : Uuid) (context : BookingContext)
    (booking : BookingRow) (result : Decremented) : Service Unit := do
  let _ ← enqueue
    { aggregateType := "booking", aggregateId := booking.id, eventType := bookingConfirmed
      topic := config.kafka.topics.booking, messageKey := eventId
      payload := { payloadOf booking result.eventName context.traceId with eventId } }
  pure ()

/-- What runs between BEGIN and COMMIT of a book call. -/
def bookInTransaction (config : AppConfiguration) (eventId : Uuid) (dto : CreateBookingDto)
    (context : BookingContext) : Service (BookingRow × Decremented) := do
  let result ← decrement config.booking eventId dto.quantity
  let booking ← ask (.insertBooking
    { eventId, userId := dto.userId, quantity := dto.quantity, status := .confirmed
      idempotencyKey := context.idempotencyKey })
  runIf config.outbox.enqueues (enqueueConfirmed config eventId context booking result)
  pure (booking, result)

def integrity (eventId : Uuid) : Service SeatIntegrity := do
  match ← ask (.findEvent eventId) with
  | none => throw (eventNotFound eventId)
  | some event =>
    let confirmedSeats ← ask (.sumConfirmed eventId)
    pure
      { eventId, totalSeats := event.totalSeats, availableSeats := event.availableSeats
        confirmedSeats, oversoldBy := max 0 ((confirmedSeats : Int) - event.totalSeats)
        counterDrift := event.availableSeats != event.totalSeats - confirmedSeats }

def recordOversoldIfAny (eventId : Uuid) : Service Unit := do
  let report ← integrity eventId
  runIf (0 < report.oversoldBy) (ask (.bookingsOversoldTotal eventId))

def directMessage (config : AppConfiguration) (booking : BookingRow) (eventName : String)
    (traceId : Option String) : BookingMessage :=
  { topic := config.kafka.topics.booking
    key := booking.eventId
    value := payloadOf booking eventName traceId
    headers :=
      { messageId := some booking.id, eventType := some bookingConfirmed
        traceId := some (traceId.getD "") } }

/- A failed publish is only logged. -/
def publishDirectly (config : AppConfiguration) (booking : BookingRow) (eventName : String)
    (traceId : Option String) : Service Unit :=
  tryCatch (publish (directMessage config booking eventName traceId)) fun _ => pure ()

def invalidateCache (eventId : Uuid) : Service Unit :=
  tryCatch (ask (.delCache eventId)) fun _ => pure ()

/-- What a book call still does once its transaction has committed. -/
def afterCommit (config : AppConfiguration) (eventId : Uuid) (context : BookingContext)
    (booking : BookingRow) (result : Decremented) : Service BookingResponse := do
  let strategy := config.booking.lockStrategy
  ask (.bookingsTotal .confirmed strategy)
  invalidateCache eventId
  runIf (strategy = .none) (recordOversoldIfAny eventId)
  runIf config.outbox.crashAfterCommit (ask .exitSoon)
  runIf config.outbox.directPublishMode
    (publishDirectly config booking result.eventName context.traceId)
  pure
    { id := booking.id, eventId := booking.eventId, userId := booking.userId
      quantity := booking.quantity, status := booking.status
      seatsRemaining := result.seatsRemaining, lockStrategy := strategy
      createdAt := booking.createdAt }

def Err.bookingResult : Err → BookingResult
  | .conflict _ => .sold_out
  | _ => .error

def book (config : AppConfiguration) (eventId : Uuid) (dto : CreateBookingDto)
    (context : BookingContext) : Service BookingResponse :=
  tryCatch
    (do
      let (booking, result) ← transaction (bookInTransaction config eventId dto context)
      afterCommit config eventId context booking result)
    fun error => do
      ask (.bookingsTotal error.bookingResult config.booking.lockStrategy)
      throw error

/-! Every replica runs these four operations, on any number of requests at once. -/

inductive Job where
  | create (dto : CreateEventDto)
  | book (config : AppConfiguration) (eventId : Uuid) (dto : CreateBookingDto)
      (context : BookingContext)
  | integrity (eventId : Uuid)
  | drainOnce (config : OutboxConfig) (replica : Replica)

inductive Response where
  | created (id : Uuid)
  | booked (response : BookingResponse)
  | integrity (report : SeatIntegrity)
  | drained (published : Nat)

def Job.code : Job → Service Response
  | .create dto => do pure (.created (← Overbook.create dto))
  | .book config eventId dto context => do pure (.booked (← Overbook.book config eventId dto context))
  | .integrity eventId => do pure (.integrity (← Overbook.integrity eventId))
  | .drainOnce config replica => do pure (.drained (← Overbook.drainOnce config replica))

def api (partition : String → String → Nat) :
    Machine Store Job Effect Effect.Answer Err Response Choice Ext where
  code := Job.code
  ready _ _ := true
  exec := exec partition
  finish _ _ _ s := s
  ext := ext

theorem settle_shared {partition : String → String → Nat} (t : Tid) (j : Job) (s : Store)
    (b : Service Response) : ((api partition).settle t j s b).1 = s := by cases b <;> rfl

end Overbook
