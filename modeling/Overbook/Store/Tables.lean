import Overbook.Config
import Overbook.ReadCommitted
import Overbook.Kafka.Service

/-! The state that book calls and relays share: the tables `events`, `bookings` and
`outbox_messages`, the open transactions on them, and what the broker has accepted. -/
namespace Overbook

open Async ReadCommitted Kafka

structure EventRow where
  name : String
  venue : String
  totalSeats : Int
  availableSeats : Int
  priceCents : Int
  startsAt : String
  version : Nat := 0
  createdAt : Time
  deriving DecidableEq

inductive BookingStatus where
  | confirmed
  | cancelled
  deriving DecidableEq

structure BookingRow where
  id : Uuid
  eventId : Uuid
  userId : String
  quantity : Nat
  status : BookingStatus
  idempotencyKey : Option String
  createdAt : Time
  deriving DecidableEq

/- `bookedAt` is kept as the instant whose ISO text is stored. -/
structure BookingConfirmedPayload where
  bookingId : Uuid
  eventId : Uuid
  userId : String
  quantity : Nat
  eventName : String
  bookedAt : Time
  traceId : Option String
  deriving DecidableEq

inductive OutboxStatus where
  | pending
  | published
  | failed
  deriving DecidableEq

structure OutboxRow where
  id : Uuid
  aggregateType : String
  aggregateId : String
  eventType : String
  topic : String
  messageKey : String
  payload : BookingConfirmedPayload
  status : OutboxStatus
  attempts : Nat
  availableAt : Time
  publishedAt : Option Time
  lastError : Option String
  createdAt : Time
  deriving DecidableEq

inductive TxStatus where
  | idle
  | active
  | aborted
  deriving DecidableEq

/-- The transaction of one task: when it began, and the rows it has inserted but not yet
committed. `selected` is history: the outbox rows it has locked by its queue query. -/
structure Tx where
  status : TxStatus := .idle
  startedAt : Time := 0
  bookings : List BookingRow := []
  outbox : List OutboxRow := []
  selected : List Uuid := []

inductive BookingResult where
  | confirmed
  | sold_out
  | error
  deriving DecidableEq

abbrev BookingMessage := OutgoingMessage BookingConfirmedPayload

/-- `issued` is every uuid that Postgres has generated, with the task it was generated for;
`kafka` is what the broker has accepted, in order; `batches` is history: every batch that was
handed to the producer, with the task that handed it over. -/
structure Store where
  clock : Time := 0
  issued : List (Uuid × Tid) := []
  events : Uuid → Option (Cell EventRow) := fun _ => none
  bookings : List BookingRow := []
  outbox : Rows OutboxRow := []
  tx : Tid → Tx := fun _ => {}
  kafka : List BookingMessage := []
  batches : List (Tid × List BookingMessage) := []
  running : Replica → Bool := fun _ => false
  bookingsTotal : List (BookingResult × BookingLockStrategy) := []

namespace Store

def setTx (t : Tid) (x : Tx) (s : Store) : Store := { s with tx := Function.update s.tx t x }

def active (t : Tid) (s : Store) : Bool := (s.tx t).status == .active

def heldEvent (t : Tid) (s : Store) (id : Uuid) : Bool :=
  match s.events id with
  | some c => c.heldBy t
  | none => false

/- The instant that `now()` reads: the start of the transaction, or the statement itself. -/
def now (t : Tid) (s : Store) : Time := if s.active t then (s.tx t).startedAt else s.clock

def beginTx (t : Tid) (s : Store) : Store :=
  s.setTx t { status := .active, startedAt := s.clock }

/- One atomic step: working copies become the committed versions, inserts become rows. -/
def commitTx (t : Tid) (s : Store) : Store :=
  { s with
    events := fun id => (s.events id).map (·.commit t)
    bookings := s.bookings ++ (s.tx t).bookings
    outbox := (s.outbox.commit t).insert (s.tx t).outbox
    tx := Function.update s.tx t {} }

/- The transaction is lost on the server; its task may not know yet. -/
def abort (t : Tid) (s : Store) : Store :=
  if s.active t then
    { s with
      events := fun id => (s.events id).map (·.rollback t)
      outbox := s.outbox.rollback t
      tx := Function.update s.tx t { status := .aborted } }
  else s

def rollbackTx (t : Tid) (s : Store) : Store := (s.abort t).setTx t {}

def putEvent (id : Uuid) (c : Cell EventRow) (s : Store) : Store :=
  { s with events := Function.update s.events id (some c) }

def putOutbox (rows : Rows OutboxRow) (s : Store) : Store := { s with outbox := rows }

/- `gen_random_uuid()` never returns a value twice. -/
def fresh (id : Uuid) (s : Store) : Bool := !(s.issued.map (·.1)).contains id

def issue (id : Uuid) (t : Tid) (s : Store) : Store := { s with issued := (id, t) :: s.issued }

end Store

end Overbook
