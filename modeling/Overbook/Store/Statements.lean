import Overbook.Store.Tables

/-! The effects of the booking service and the relay, and how Postgres and the broker answer
them. A statement either takes effect whole or fails, and then its transaction is lost. -/
namespace Overbook

open Async ReadCommitted Kafka

structure CreateEvent where
  name : String
  venue : String
  totalSeats : Int
  availableSeats : Int
  priceCents : Int
  startsAt : String

structure CreateBooking where
  eventId : Uuid
  userId : String
  quantity : Nat
  status : BookingStatus
  idempotencyKey : Option String

structure CreateOutboxMessage where
  aggregateType : String
  aggregateId : String
  eventType : String
  topic : String
  messageKey : String
  payload : BookingConfirmedPayload
  status : OutboxStatus
  attempts : Nat
  availableAt : Time

/- The SET list of an UPDATE on `events`; the rest of the row stays. -/
structure EventPatch where
  availableSeats : EventRow → Int
  version : EventRow → Nat := (·.version)

def EventPatch.apply (p : EventPatch) (row : EventRow) : EventRow :=
  { row with availableSeats := p.availableSeats row, version := p.version row }

/- The SET list of an UPDATE on `outbox_messages`: absent columns stay. -/
structure OutboxPatch where
  attempts : Option Nat := none
  status : Option OutboxStatus := none
  availableAt : Option Time := none
  publishedAtNow : Bool := false
  lastError : Option (Option String) := none

def OutboxPatch.apply (p : OutboxPatch) (now : Time) (row : OutboxRow) : OutboxRow :=
  { row with
    attempts := p.attempts.getD row.attempts
    status := p.status.getD row.status
    availableAt := p.availableAt.getD row.availableAt
    publishedAt := if p.publishedAtNow then some now else row.publishedAt
    lastError := p.lastError.getD row.lastError }

inductive Effect where
  | beginTx
  | commitTx
  | rollbackTx
  | insertEvent (row : CreateEvent)
  | findEvent (id : Uuid)
  | findEventForUpdate (id : Uuid)
  | updateEvent (id : Uuid) (cond : EventRow → Bool) (patch : EventPatch)
  | insertBooking (row : CreateBooking)
  | sumConfirmed (eventId : Uuid)
  | insertOutbox (row : CreateOutboxMessage)
  | selectPending (limit : Int)
  | updateOutbox (ids : List Uuid) (patch : OutboxPatch)
  | countPending
  | dateNow
  | sendBatch (batch : List (TopicMessages BookingConfirmedPayload))
  | delCache (eventId : Uuid)
  | bookingsTotal (result : BookingResult) (strategy : BookingLockStrategy)
  | bookingsOversoldTotal (eventId : Uuid)
  | enterDrain (replica : Replica)
  | leaveDrain (replica : Replica)
  | exitSoon

/-- `updateEvent` answers with the number of affected rows, `enterDrain` with the flag
`running` as it was before it was set. -/
abbrev Effect.Answer : Effect → Type
  | .insertEvent _ => Uuid
  | .findEvent _ => Option EventRow
  | .findEventForUpdate _ => Option EventRow
  | .updateEvent .. => Nat
  | .insertBooking _ => BookingRow
  | .sumConfirmed _ => Nat
  | .insertOutbox _ => OutboxRow
  | .selectPending _ => List OutboxRow
  | .countPending => Nat
  | .dateNow => Time
  | .enterDrain _ => Bool
  | _ => Unit

/-- What the environment decides when it answers: the uuid it generates, the rows in the order
the query returns them, the clock of the process, or a failure. A COMMIT may take effect and its
reply be lost; a batch may be refused after the broker has accepted some partitions of it. -/
inductive Choice where
  | ok
  | fail
  | lostReply
  | uuid (id : Uuid)
  | rows (rows : List OutboxRow)
  | time (now : Time)
  | refused (accepted : List (String × Nat))

def lost : Err := .other "the connection is lost"

namespace Store

/- Pending, due, and not locked by anybody else: what the queue query can return. -/
def eligible (t : Tid) (s : Store) (c : Cell OutboxRow) : Bool :=
  c.committed.status == .pending && decide (c.committed.availableAt ≤ s.now t) && c.free t

def picks (t : Tid) (s : Store) (rows : List OutboxRow) (c : Cell OutboxRow) : Bool :=
  rows.contains c.committed && s.eligible t c

/- `WHERE id IN (...)`. -/
def among (ids : List Uuid) (c : Cell OutboxRow) : Bool := ids.contains c.committed.id

/-- The answers to `ORDER BY created_at ASC LIMIT n` over the eligible rows: rows of equal
`created_at` come in any order, and a zero limit selects none. -/
def Selects (limit : Int) (eligible rows : List OutboxRow) : Prop :=
  rows.Nodup ∧ (∀ r ∈ rows, r ∈ eligible) ∧ rows.Pairwise (fun a b => a.createdAt ≤ b.createdAt) ∧
  (rows.length : Int) ≤ limit ∧
  ∀ r ∈ eligible, r ∈ rows ∨
    ((rows.length : Int) = limit ∧ ∀ q ∈ rows, q.createdAt ≤ r.createdAt)

instance (limit : Int) (eligible rows : List OutboxRow) :
    Decidable (Selects limit eligible rows) := inferInstanceAs (Decidable (_ ∧ _))

def confirmedQuantity (eventId : Uuid) (bookings : List BookingRow) : Nat :=
  ((bookings.filter fun b => b.eventId == eventId && b.status == .confirmed).map
    (·.quantity)).sum

end Store

/- The accepted part of a refused batch: whole partitions, as one produce request per
partition is stored or rejected as a whole. -/
def acceptedPart (partition : String → String → Nat) (parts : List (String × Nat))
    (messages : List BookingMessage) : List BookingMessage :=
  messages.filter fun m => parts.contains (m.topic, partition m.topic m.key)

abbrev Answered (e : Effect) := Option (Store × Except Err e.Answer)

/- A statement that fails loses the transaction it belongs to. -/
def failed (t : Tid) (s : Store) {e : Effect} : Answered e := some (s.abort t, .error lost)

variable (partition : String → String → Nat)

/-- The answer to one effect of task `t`. Statements on `manager` need an active transaction;
`none` means that the statement waits for a lock, or that the choice does not fit. -/
def exec (t : Tid) (s : Store) : (e : Effect) → Choice → Answered e
  | .beginTx, .ok => if s.active t then none else some (s.beginTx t, .ok ())
  | .commitTx, .ok => if s.active t then some (s.commitTx t, .ok ()) else none
  | .commitTx, .lostReply => if s.active t then some (s.commitTx t, .error lost) else none
  | .rollbackTx, .ok => some (s.rollbackTx t, .ok ())
  -- the connection is gone; Postgres ends the transaction when it notices
  | .rollbackTx, .fail => some (s, .error lost)
  | .insertEvent row, .uuid id =>
    if s.fresh id && !s.active t then
      some ((s.issue id t).putEvent id ⟨⟨row.name, row.venue, row.totalSeats, row.availableSeats,
        row.priceCents, row.startsAt, 0, s.now t⟩, none⟩, .ok id)
    else none
  | .findEvent id, .ok => some (s, .ok ((s.events id).map (·.view t)))
  | .findEventForUpdate id, .ok =>
    if s.active t then
      match s.events id with
      | none => some (s, .ok none)
      | some c => if c.free t then some (s.putEvent id (c.lock t), .ok (some (c.view t))) else none
    else none
  | .updateEvent id cond patch, .ok =>
    if s.active t then
      match s.events id with
      | none => some (s, .ok 0)
      | some c =>
        if c.free t then
          if cond (c.view t) then some (s.putEvent id (c.write t (patch.apply (c.view t))), .ok 1)
          else some (s, .ok 0)
        -- a row that does not match before the wait is not waited for
        else if cond c.committed then none
        else some (s, .ok 0)
    else none
  | .insertBooking row, .uuid id =>
    if s.active t && s.fresh id && (s.events row.eventId).isSome then
      let booking : BookingRow := ⟨id, row.eventId, row.userId, row.quantity, row.status,
        row.idempotencyKey, s.now t⟩
      some ((s.issue id t).setTx t
        { s.tx t with bookings := (s.tx t).bookings ++ [booking] }, .ok booking)
    else none
  | .sumConfirmed eventId, .ok => some (s, .ok (Store.confirmedQuantity eventId s.bookings))
  | .insertOutbox row, .uuid id =>
    if s.active t && s.fresh id then
      let message : OutboxRow := ⟨id, row.aggregateType, row.aggregateId, row.eventType, row.topic,
        row.messageKey, row.payload, row.status, row.attempts, row.availableAt, none, none, s.now t⟩
      some ((s.issue id t).setTx t
        { s.tx t with outbox := (s.tx t).outbox ++ [message] }, .ok message)
    else none
  | .selectPending limit, .rows rows =>
    if s.active t && decide (0 ≤ limit) &&
        decide (Store.Selects limit ((s.outbox.filter (s.eligible t)).map (·.committed)) rows) then
      some ((s.putOutbox (s.outbox.write t (s.picks t rows) id)).setTx t
        { s.tx t with selected := rows.map (·.id) }, .ok rows)
    else none
  | .updateOutbox ids patch, .ok =>
    if s.active t && s.outbox.freeFor t (Store.among ids) then
      some (s.putOutbox (s.outbox.write t (Store.among ids) (patch.apply (s.now t))), .ok ())
    else none
  | .countPending, .ok =>
    if s.active t then
      some (s, .ok ((s.outbox.map (·.view t)).countP fun r => r.status == .pending))
    else none
  | .dateNow, .time now => some (s, .ok now)
  | .sendBatch batch, .ok =>
    some ({ s with kafka := s.kafka ++ sent batch, batches := s.batches ++ [(t, sent batch)] }, .ok ())
  | .sendBatch batch, .refused parts =>
    some ({ s with
      kafka := s.kafka ++ acceptedPart partition parts (sent batch)
      batches := s.batches ++ [(t, sent batch)] }, .error lost)
  | .delCache _, .ok => some (s, .ok ())
  | .delCache _, .fail => some (s, .error lost)
  | .bookingsTotal result strategy, .ok =>
    some ({ s with bookingsTotal := s.bookingsTotal ++ [(result, strategy)] }, .ok ())
  | .bookingsOversoldTotal _, .ok => some (s, .ok ())
  | .enterDrain replica, .ok =>
    some ({ s with running := Function.update s.running replica true }, .ok (s.running replica))
  | .leaveDrain replica, .ok =>
    some ({ s with running := Function.update s.running replica false }, .ok ())
  | .exitSoon, .ok => some (s, .ok ())
  | .beginTx, .fail => failed t s
  | .commitTx, .fail => failed t s
  | .insertEvent _, .fail => failed t s
  | .findEvent _, .fail => failed t s
  | .findEventForUpdate _, .fail => failed t s
  | .updateEvent .., .fail => failed t s
  | .insertBooking _, .fail => failed t s
  | .sumConfirmed _, .fail => failed t s
  | .insertOutbox _, .fail => failed t s
  | .selectPending _, .fail => failed t s
  | .updateOutbox .., .fail => failed t s
  | .countPending, .fail => failed t s
  | _, _ => none

/-- The environment between effects: time passes, and Postgres ends a transaction whose
connection or process is gone. -/
inductive Ext where
  | tick (d : Time)
  | abortTx (t : Tid)

def ext (s : Store) : Ext → Option Store
  | .tick d => some { s with clock := s.clock + d }
  | .abortTx t => some (s.abort t)

end Overbook
