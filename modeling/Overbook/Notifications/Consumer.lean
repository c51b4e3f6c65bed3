import Overbook.Async.Soundness
import Overbook.Config
import Overbook.Json
import Overbook.Kafka.Service

/-! The notification consumers: one reads the booking topic, one the retry topic. A record is
claimed by its message id, delivered, and on failure retried or dead-lettered. -/
namespace Overbook.Notifications

open Async Prog Kafka

/- The text of a record's value: it is not JSON, or it parses to a JSON value. -/
inductive Body where
  | invalid (text : String)
  | json (value : Json)

/-- Which message a record is a copy of: the one that its producer has named, or else the
record itself. The code never reads it. -/
inductive Origin where
  | named (messageId : String)
  | record (topic : String) (partition offset : Nat)
  deriving DecidableEq

structure Record where
  topic : String
  partition : Nat
  offset : Nat
  key : Option String
  value : Option Body
  headers : Headers
  origin : Origin

structure IncomingNotification where
  messageId : String
  eventType : String
  traceId : Option String
  payload : Json

structure ProcessedMessage where
  messageId : String
  consumerGroup : String
  eventType : String

structure DeadLetter where
  raw : Body
  reason : String
  attempts : Num
  deadLetteredAt : Time

inductive Value where
  | json (value : Json)
  | deadLetter (letter : DeadLetter)

/-! What the environment keeps. Owners and origins are never read by the code. -/

structure Claimed extends ProcessedMessage where
  owner : Tid

structure Delivery where
  owner : Tid
  origin : Origin
  message : IncomingNotification

structure Dead where
  origin : Origin
  message : OutgoingMessage DeadLetter

/-- The records of the booking and the retry topic, the dead letters, the table
`processed_messages` under its primary key, the flag `stopping` of each replica, and what the
handlers have done: the record each one has been handed, which of them have read the flag as
set, the notifications that `deliver` has sent, the claims that were lost, and the records whose
`onMessage` has resolved. -/
structure Inbox where
  clock : Time
  log : List Record
  dlq : List Dead
  processed : String × String → Option Claimed
  stopping : Replica → Bool
  handling : Tid → Option Nat
  stopped : List Tid
  delivered : List Delivery
  skipped : List (Tid × Claimed)
  consumed : List Nat

inductive Effect where
  | fetch (isRetryTopic : Bool) (index : Nat)
  | stopping (replica : Replica)
  | waitUntilDue (replica : Replica) (retryAtMs : Num)
  | acquire (replica : Replica)
  | insertClaim (row : ProcessedMessage)
  | deliver (message : IncomingNotification)
  | deleteClaim (messageId consumerGroup : String)
  | random
  | dateNow
  | sendBatch (batch : List (TopicMessages Value))

/- `insertClaim` answers whether RETURNING gave back a row. -/
abbrev Effect.Answer : Effect → Type
  | .fetch .. => Record
  | .stopping _ => Bool
  | .insertClaim _ => Bool
  | .random => Rat
  | .dateNow => Time
  | _ => Unit

/-- What the environment decides. A statement may take effect and lose its reply, and a publish
may be refused after the broker has stored the message. -/
inductive Choice where
  | ok
  | fail
  | lostReply
  | time (now : Time)
  | random (q : Rat)
  | threw (error : Err)
  | stored (partition : Nat)
  | storedUnanswered (partition : Nat)

/- The latest time that `Date.now()` can give. -/
def lastTime : Time := 8640000000000000

def lost : Err := .other "the connection is lost"

namespace Inbox

def nextOffset (s : Inbox) (topic : String) (partition : Nat) : Nat :=
  s.log.countP fun r => r.topic == topic && r.partition == partition

def origin (s : Inbox) (t : Tid) : Origin :=
  match (s.handling t).bind (s.log[·]?) with
  | some record => record.origin
  | none => .named ""

def copied (s : Inbox) (t : Tid) (partition : Nat) (m : OutgoingMessage Value) (value : Json) :
    Record :=
  ⟨m.topic, partition, s.nextOffset m.topic partition, some m.key, some (.json value), m.headers,
    s.origin t⟩

def accept (t : Tid) (partition : Nat) (s : Inbox) (m : OutgoingMessage Value) : Inbox :=
  match m.value with
  | .json value => { s with log := s.log ++ [s.copied t partition m value] }
  | .deadLetter letter =>
    { s with dlq := s.dlq ++ [⟨s.origin t, ⟨m.topic, m.key, letter, m.headers⟩⟩] }

def acceptAll (t : Tid) (partition : Nat) (s : Inbox) (batch : List (TopicMessages Value)) : Inbox :=
  (sent batch).foldl (accept t partition) s

/- A record from outside is a copy of what its id names, or of nothing else. -/
def produced (s : Inbox) (topic : String) (partition : Nat) (key : Option String)
    (value : Option Body) (headers : Headers) : Record :=
  let offset := s.nextOffset topic partition
  ⟨topic, partition, offset, key, value, headers,
    match headers.messageId.filter (· ≠ "") with
    | some id => .named id
    | none => .record topic partition offset⟩

def setClaim (s : Inbox) (key : String × String) (row : Option Claimed) : Inbox :=
  { s with processed := Function.update s.processed key row }

@[simp] theorem setClaim_self (s : Inbox) (key : String × String) (row : Option Claimed) :
    (s.setClaim key row).processed key = row := Function.update_self ..

theorem setClaim_of_ne {key key' : String × String} (ne : key' ≠ key) (s : Inbox)
    (row : Option Claimed) : (s.setClaim key row).processed key' = s.processed key' :=
  Function.update_of_ne ne ..

/- INSERT ... ON CONFLICT DO NOTHING. -/
def insertClaim (t : Tid) (s : Inbox) (row : ProcessedMessage) : Inbox :=
  match s.processed (row.messageId, row.consumerGroup) with
  | some claimed => { s with skipped := s.skipped ++ [(t, claimed)] }
  | none => s.setClaim (row.messageId, row.consumerGroup) (some { row with owner := t })

end Inbox

def subscribed (topics : Topics) (isRetryTopic : Bool) : String :=
  if isRetryTopic then topics.retry else topics.booking

/- The remaining time is not positive; a stamp that is not a number is never due. -/
def due (retryAtMs : Num) (now : Time) : Bool := (retryAtMs.minus (.ofInt now)).le (.ofInt 0)

/-- `waitUntilDue` sleeps until the stamp is due or the replica stops. A permit of the semaphore
may come at any time. `deliver` stands for the e-mail provider: it may end in any way, except that
it cannot read a booking id from a null payload. -/
def exec (topics : Topics) (t : Tid) (s : Inbox) :
    (e : Effect) → Choice → Option (Inbox × Except Err e.Answer)
  | .fetch isRetryTopic index, .ok =>
    match s.log[index]? with
    | some record =>
      if record.topic = subscribed topics isRetryTopic then
        some ({ s with handling := Function.update s.handling t (some index) }, .ok record)
      else none
    | none => none
  | .stopping replica, .ok =>
    some ({ s with stopped := if s.stopping replica then s.stopped ++ [t] else s.stopped },
      .ok (s.stopping replica))
  | .waitUntilDue replica retryAtMs, .time now =>
    if s.stopping replica || due retryAtMs now then some (s, .ok ()) else none
  | .acquire _, .ok => some (s, .ok ())
  | .insertClaim row, .ok =>
    some (s.insertClaim t row, .ok (s.processed (row.messageId, row.consumerGroup)).isNone)
  | .insertClaim row, .lostReply => some (s.insertClaim t row, .error lost)
  | .insertClaim _, .fail => some (s, .error lost)
  | .deliver message, .ok =>
    if message.payload.readable then
      some ({ s with delivered := s.delivered ++ [⟨t, s.origin t, message⟩] }, .ok ())
    else none
  | .deliver _, .threw error => some (s, .error error)
  | .deleteClaim messageId consumerGroup, .ok =>
    some (s.setClaim (messageId, consumerGroup) none, .ok ())
  | .deleteClaim messageId consumerGroup, .lostReply =>
    some (s.setClaim (messageId, consumerGroup) none, .error lost)
  | .deleteClaim .., .fail => some (s, .error lost)
  | .random, .random q => if 0 ≤ q ∧ q < 1 then some (s, .ok q) else none
  | .dateNow, .time now => some (s, .ok now)
  | .sendBatch batch, .stored partition => some (s.acceptAll t partition batch, .ok ())
  | .sendBatch batch, .storedUnanswered partition =>
    some (s.acceptAll t partition batch, .error lost)
  | .sendBatch _, .fail => some (s, .error lost)
  | _, _ => none

inductive Ext where
  | tick (d : Time)
  | produce (topic : String) (partition : Nat) (key : Option String) (value : Option Body)
      (headers : Headers)
  | onApplicationShutdown (replica : Replica)

def ext (s : Inbox) : Ext → Inbox
  | .tick d => { s with clock := s.clock + d }
  | .produce topic partition key value headers =>
    { s with log := s.log ++ [s.produced topic partition key value headers] }
  | .onApplicationShutdown replica =>
    { s with stopping := Function.update s.stopping replica true }

/-! The code of one handler. -/

abbrev Consumer (α : Type) := Prog Effect Effect.Answer Err α

abbrev ask (e : Effect) : Consumer e.Answer := await e

def send (batch : List (TopicMessages Value)) : Consumer Unit := ask (.sendBatch batch)

def publish (message : OutgoingMessage Value) : Consumer Unit := publishBatch send [message]

/- `approx` is the engine's `2 ** x` where `x` is not whole. -/
def computeBackoffMs (approx : Rat → Rat) (attempt : Num) (baseMs maxMs : Int) : Consumer Num := do
  let exponential := Num.min (.ofInt maxMs)
    ((Num.ofInt baseMs).times (Num.pow2 approx (Num.max (.ofInt 0) (attempt.minus (.ofInt 1)))))
  let random ← ask .random
  pure ((Num.fin random).times exponential).floor

def shouldDeadLetter (attempts : Num) (maxAttempts : Int) : Bool := (Num.ofInt maxAttempts).le attempts

/- `text.slice(0, 500)`. -/
def slice500 (text : String) : String := slice 500 text

inductive Handled where
  | sent
  | duplicate

/-- The claim on the message id is inserted first and deleted again when the delivery fails. -/
def handle (config : AppConfiguration) (message : IncomingNotification) : Consumer Handled := do
  let consumerGroup := config.kafka.consumerGroup
  let claimed ← ask (.insertClaim
    { messageId := message.messageId, consumerGroup, eventType := message.eventType })
  if claimed then
    tryCatch
      (do
        ask (.deliver message)
        pure .sent)
      fun error => do
        -- an error of the DELETE is swallowed
        tryCatch (ask (.deleteClaim message.messageId consumerGroup)) fun _ => pure ()
        throw error
  else pure .duplicate

structure Message where
  topic : String
  key : Option String
  messageId : String
  eventType : String
  traceId : Option String
  attempts : Num
  retryAt : Num
  body : Body

def Record.messageId (record : Record) : String :=
  record.headers.messageId.getD s!"{record.topic}-{record.offset}"

def Record.body (record : Record) : Body := record.value.getD (.json (.object []))

def Record.message (record : Record) : Message :=
  { topic := record.topic
    key := record.key
    messageId := record.messageId
    eventType := record.headers.eventType.getD "unknown"
    traceId := record.headers.traceId.filter (· ≠ "")
    attempts := (record.headers.attempts.getD (.ofInt 0)).double
    retryAt := (record.headers.retryAt.getD (.ofInt 0)).double
    body := record.body }

def deadLetterMessage (config : AppConfiguration) (message : Message) (attempts : Num)
    (reason : String) (now : Time) : OutgoingMessage Value :=
  { topic := config.kafka.topics.dlq
    key := message.key.getD "unknown"
    value := .deadLetter { raw := message.body, reason, attempts, deadLetteredAt := now }
    headers :=
      { originalTopic := some message.topic, attempts := some attempts
        error := some (slice500 reason) } }

/- A failed publish is only logged. -/
def deadLetter (config : AppConfiguration) (message : Message) (attempts : Num) (reason : String) :
    Consumer Unit := do
  let now ← ask .dateNow
  tryCatch (publish (deadLetterMessage config message attempts reason now)) fun _ => pure ()

def retryMessage (config : AppConfiguration) (message : Message) (parsed : Json) (attempts : Num)
    (retryAt : Num) (error : Err) : OutgoingMessage Value :=
  { topic := config.kafka.topics.retry
    key := message.key.getD message.messageId
    value := .json parsed
    headers :=
      { messageId := some message.messageId, eventType := some message.eventType
        traceId := some (message.traceId.getD ""), attempts := some attempts
        retryAt := some retryAt, originalTopic := some message.topic
        error := some (slice500 error.message) } }

def scheduleRetryOrDeadLetter (config : AppConfiguration) (approx : Rat → Rat) (message : Message)
    (parsed : Json) (error : Err) : Consumer Unit := do
  let attempts := message.attempts.plus (.ofInt 1)
  let notifications := config.notifications
  if shouldDeadLetter attempts notifications.maxAttempts then
    deadLetter config message attempts error.message
  else
    let backoffMs ← computeBackoffMs approx attempts notifications.retryBaseMs notifications.retryMaxMs
    let now ← ask .dateNow
    publish (retryMessage config message parsed attempts ((Num.ofInt now).plus backoffMs) error)

def handleOrReschedule (config : AppConfiguration) (approx : Rat → Rat) (message : Message)
    (parsed : Json) : Consumer Unit :=
  tryCatch
    (do
      let _ ← handle config
        { messageId := message.messageId, eventType := message.eventType
          traceId := message.traceId, payload := parsed }
      pure ())
    fun error => scheduleRetryOrDeadLetter config approx message parsed error

def process (config : AppConfiguration) (approx : Rat → Rat) (replica : Replica)
    (message : Message) : Consumer Unit :=
  match message.body with
  | .invalid _ => deadLetter config message message.attempts "payload is not valid JSON"
  | .json parsed => do
    ask (.acquire replica)
    handleOrReschedule config approx message parsed

def unlessStopping (replica : Replica) (rest : Consumer Unit) : Consumer Unit := do
  if ← ask (.stopping replica) then pure () else rest

def onMessage (config : AppConfiguration) (approx : Rat → Rat) (replica : Replica)
    (isRetryTopic : Bool) (record : Record) : Consumer Unit :=
  unlessStopping replica
    (if isRetryTopic then do
      ask (.waitUntilDue replica record.message.retryAt)
      unlessStopping replica (process config approx replica record.message)
    else process config approx replica record.message)

/- The record at `index` is handed to a handler of one of a replica's two consumers. -/
structure Job where
  replica : Replica
  isRetryTopic : Bool
  index : Nat
  deriving DecidableEq

def Job.code (config : AppConfiguration) (approx : Rat → Rat) (job : Job) : Consumer Unit := do
  let record ← ask (.fetch job.isRetryTopic job.index)
  onMessage config approx job.replica job.isRetryTopic record

/-- Any number of handlers on any number of replicas. Kafka may hand a record to any replica any
number of times; a record is consumed once its `onMessage` has resolved. -/
def consumers (config : AppConfiguration) (approx : Rat → Rat) :
    Machine Inbox Job Effect Effect.Answer Err Unit Choice Ext where
  code := Job.code config approx
  ready _ _ := true
  exec := exec config.kafka.topics
  finish _ job result s :=
    match result with
    | .ok _ => { s with consumed := s.consumed ++ [job.index] }
    | .error _ => s
  ext s x := some (ext s x)

abbrev ConsumerPool := Pool Inbox Job Effect Effect.Answer Err Unit

def Inbox.empty : Inbox :=
  ⟨0, [], [], fun _ => none, fun _ => false, fun _ => none, [], [], [], []⟩

def Effect.routine : Effect → Prop
  | .fetch .. => False
  | .sendBatch _ => False
  | _ => True

variable {P : Effect → Prop} {config : AppConfiguration} {approx : Rat → Rat}

theorem unlessStopping_only {replica : Replica} {rest : Consumer Unit}
    (routine : ∀ e : Effect, e.routine → P e) (h : rest.Only P) :
    (unlessStopping replica rest).Only P := by
  refine only_bind ((only_await _).mpr (routine _ trivial)) fun stopped => ?_
  split
  · trivial
  · exact h

/-- All that a handler can ask for. -/
theorem code_only (j : Job) (fetch : P (.fetch j.isRetryTopic j.index))
    (routine : ∀ e : Effect, e.routine → P e)
    (dead : ∀ message attempts reason now, P (.sendBatch
      [⟨config.kafka.topics.dlq, [deadLetterMessage config message attempts reason now]⟩]))
    (retry : ∀ message parsed attempts retryAt error, P (.sendBatch
      [⟨config.kafka.topics.retry, [retryMessage config message parsed attempts retryAt error]⟩])) :
    (j.code config approx).Only P := by
  have deadLetters : ∀ message attempts reason,
      (deadLetter config message attempts reason).Only P := by
    intro message attempts reason
    refine only_bind ((only_await _).mpr (routine _ trivial)) fun now => ?_
    exact only_handle ((only_await _).mpr (dead message attempts reason now)) fun _ => trivial
  have reschedules : ∀ message parsed error,
      (scheduleRetryOrDeadLetter config approx message parsed error).Only P := by
    intro message parsed error
    unfold scheduleRetryOrDeadLetter
    dsimp only
    split
    · exact deadLetters _ _ _
    · refine only_bind (only_bind ((only_await _).mpr (routine _ trivial)) fun _ => trivial) ?_
      intro backoffMs
      refine only_bind ((only_await _).mpr (routine _ trivial)) fun now => ?_
      exact (only_await _).mpr (retry message parsed _ _ error)
  have handles : ∀ message, (handle config message).Only P := by
    intro message
    refine only_bind ((only_await _).mpr (routine _ trivial)) fun claimed => ?_
    split
    · refine only_handle (only_bind ((only_await _).mpr (routine _ trivial)) fun _ => trivial) ?_
      intro error
      exact only_bind (only_handle ((only_await _).mpr (routine _ trivial)) fun _ => trivial)
        fun _ => trivial
    · trivial
  have processes : ∀ message, (process config approx j.replica message).Only P := by
    intro message
    unfold process
    split
    · exact deadLetters _ _ _
    · refine only_bind ((only_await _).mpr (routine _ trivial)) fun _ => ?_
      exact only_handle (only_bind (handles _) fun _ => trivial) fun _ => reschedules _ _ _
  refine only_bind ((only_await _).mpr fetch) fun record => unlessStopping_only routine ?_
  split
  · exact only_bind ((only_await _).mpr (routine _ trivial)) fun _ =>
      unlessStopping_only routine (processes _)
  · exact processes _

end Overbook.Notifications
