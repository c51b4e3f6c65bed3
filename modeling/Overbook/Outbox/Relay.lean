import Overbook.Store.Statements

/-! The outbox: the row that a booking transaction adds, and the relay that publishes rows. -/
namespace Overbook

open Async Prog Kafka

abbrev Service := Prog Effect Effect.Answer Err

abbrev ask (e : Effect) : Service e.Answer := await e

/-- `dataSource.transaction(run)`: begin, run, commit; on any error roll back and rethrow. -/
def transaction {α : Type} (run : Service α) : Service α :=
  tryCatch
    (do
      ask .beginTx
      let result ← run
      ask .commitTx
      pure result)
    fun error => do
      -- an error of the ROLLBACK itself is swallowed
      tryCatch (ask .rollbackTx) fun _ => pure ()
      throw error

def send (batch : List (TopicMessages BookingConfirmedPayload)) : Service Unit :=
  ask (.sendBatch batch)

def publish (message : BookingMessage) : Service Unit := publishBatch send [message]

structure EnqueueOutboxInput where
  aggregateType : String
  aggregateId : String
  eventType : String
  topic : String
  messageKey : String
  payload : BookingConfirmedPayload

/- It runs on the manager of the caller's transaction. -/
def enqueue (input : EnqueueOutboxInput) : Service OutboxRow := do
  let availableAt ← ask .dateNow
  ask (.insertOutbox
    { aggregateType := input.aggregateType, aggregateId := input.aggregateId
      eventType := input.eventType, topic := input.topic, messageKey := input.messageKey
      payload := input.payload, status := .pending, attempts := 0, availableAt })

def relayMessage (row : OutboxRow) : BookingMessage :=
  { topic := row.topic
    key := row.messageKey
    value := row.payload
    headers :=
      { messageId := some row.id, eventType := some row.eventType
        traceId := some (row.payload.traceId.getD ""), attempts := some (.ofInt 0) } }

def backoffMs (attempts : Nat) : Nat := min (2 ^ attempts * 250) 60000

def failedPatch (maxAttempts : Int) (error : Err) (row : OutboxRow) (now : Time) : OutboxPatch :=
  let attempts := row.attempts + 1
  { attempts := some attempts
    status := some (if maxAttempts ≤ attempts then .failed else .pending)
    availableAt := some (now + backoffMs attempts)
    lastError := some (some (slice 1000 error.message)) }

def markFailed (maxAttempts : Int) (error : Err) : List OutboxRow → Service Unit
  | [] => pure ()
  | row :: rows => do
    let now ← ask .dateNow
    ask (.updateOutbox [row.id] (failedPatch maxAttempts error row now))
    markFailed maxAttempts error rows

def publishedPatch : OutboxPatch :=
  { status := some .published, publishedAtNow := true, lastError := some none }

def refreshPendingGauge : Service Unit := do
  let _ ← ask .countPending
  pure ()

/-- The transaction of one drain: select, publish, mark. -/
def drainBatch (config : OutboxConfig) : Service Nat := do
  let rows ← ask (.selectPending config.batchSize)
  if rows.isEmpty then
    refreshPendingGauge
    pure 0
  else
    match ← outcome (publishBatch send (rows.map relayMessage)) with
    | .error error =>
      markFailed config.maxAttempts error rows
      pure 0
    | .ok _ =>
      ask (.updateOutbox (rows.map (·.id)) publishedPatch)
      refreshPendingGauge
      pure rows.length

/-- What a drain asks for between its BEGIN and its COMMIT. -/
def Effect.drains : Effect → Prop
  | .selectPending _ => True
  | .updateOutbox .. => True
  | .countPending => True
  | .dateNow => True
  | .sendBatch _ => True
  | _ => False

theorem drainBatch_drains {config : OutboxConfig} : (drainBatch config).Only Effect.drains := by
  have gauge : refreshPendingGauge.Only Effect.drains :=
    only_bind (by simp [Effect.drains]) fun _ => trivial
  have failed : ∀ error rows, (markFailed config.maxAttempts error rows).Only Effect.drains := by
    intro error rows
    induction rows with
    | nil => trivial
    | cons row rows ih =>
      refine only_bind (by simp [Effect.drains]) fun now => ?_
      exact only_bind (by simp [Effect.drains]) fun _ => ih
  unfold drainBatch
  refine only_bind (by simp [Effect.drains]) fun rows => ?_
  split
  · exact only_bind gauge fun _ => trivial
  · refine only_bind (only_outcome ?_) fun r => ?_
    · unfold publishBatch
      split
      · trivial
      · simp [send, Effect.drains]
    · cases r with
      | error x => exact only_bind (failed x rows) fun _ => trivial
      | ok u => exact only_bind (by simp [Effect.drains]) fun _ => only_bind gauge fun _ => trivial

/- A drain of one replica; `running` keeps its drains apart. A restart is a new replica. -/
def drainOnce (config : OutboxConfig) (replica : Replica) : Service Nat := do
  let running ← ask (.enterDrain replica)
  if running then pure 0
  else ensure (transaction (drainBatch config)) (ask (.leaveDrain replica))

end Overbook
