import Overbook.JsNumber
import Overbook.JsSlice
import Overbook.Async.Program

/-! Messages on their way to Kafka. A message value is kept as the value whose JSON text
is sent; the headers `attempts` and `retry-at` as the numbers that their texts stand for. -/
namespace Overbook.Kafka

open Async

structure Headers where
  messageId : Option String := none
  eventType : Option String := none
  traceId : Option String := none
  attempts : Option Num := none
  retryAt : Option Num := none
  originalTopic : Option String := none
  error : Option String := none
  deriving DecidableEq

structure OutgoingMessage (V : Type) where
  topic : String
  key : String
  value : V
  headers : Headers
  deriving DecidableEq

structure TopicMessages (V : Type) where
  topic : String
  messages : List (OutgoingMessage V)

variable {V : Type}

/- One turn of the grouping loop: the bucket of the topic, or a new bucket at the end. -/
def addToBucket (message : OutgoingMessage V) : List (TopicMessages V) → List (TopicMessages V)
  | [] => [⟨message.topic, [message]⟩]
  | bucket :: rest =>
    if bucket.topic = message.topic then ⟨bucket.topic, bucket.messages ++ [message]⟩ :: rest
    else bucket :: addToBucket message rest

def byTopic (messages : List (OutgoingMessage V)) : List (TopicMessages V) :=
  messages.foldl (fun buckets message => addToBucket message buckets) []

def sent (batch : List (TopicMessages V)) : List (OutgoingMessage V) :=
  batch.flatMap (·.messages)

/- One request for a whole batch; `send` is the producer's `sendBatch`. -/
def publishBatch {E : Type} {A : E → Type} {ε : Type}
    (send : List (TopicMessages V) → Prog E A ε Unit) (messages : List (OutgoingMessage V)) :
    Prog E A ε Unit :=
  if messages.isEmpty then pure () else send (byTopic messages)

theorem sent_addToBucket (message : OutgoingMessage V) (batch : List (TopicMessages V)) :
    (sent (addToBucket message batch)).Perm (message :: sent batch) := by
  induction batch with
  | nil => exact .refl _
  | cons bucket rest ih =>
    simp only [addToBucket]
    split
    · simp only [sent, List.flatMap_cons, List.append_assoc, List.singleton_append]
      exact List.perm_middle
    · simp only [sent, List.flatMap_cons]
      exact (ih.append_left _).trans List.perm_middle

/-- Grouping loses no message and makes none up. -/
theorem sent_byTopic (messages : List (OutgoingMessage V)) :
    (sent (byTopic messages)).Perm messages := by
  have all : ∀ batch : List (TopicMessages V),
      (sent (messages.foldl (fun b m => addToBucket m b) batch)).Perm (sent batch ++ messages) := by
    induction messages with
    | nil => intro batch; simp
    | cons message rest ih =>
      intro batch
      rw [List.foldl_cons]
      refine (ih _).trans ?_
      exact ((sent_addToBucket message batch).append_right rest).trans List.perm_middle.symm
  exact all []

theorem mem_sent_byTopic {messages : List (OutgoingMessage V)} {message : OutgoingMessage V} :
    message ∈ sent (byTopic messages) ↔ message ∈ messages := (sent_byTopic messages).mem_iff

theorem bucket_grows {topic : String} {messages : List (OutgoingMessage V)}
    (one : ∀ m ∈ messages, m.topic = topic) (before : List (OutgoingMessage V)) :
    messages.foldl (fun b m => addToBucket m b) [⟨topic, before⟩] =
      [⟨topic, before ++ messages⟩] := by
  induction messages generalizing before with
  | nil => simp
  | cons message rest ih =>
    have ht := one message (List.mem_cons_self ..)
    rw [List.foldl_cons]
    simp only [addToBucket, ht, if_true]
    rw [ih fun m hm => one m (List.mem_cons_of_mem message hm)]
    simp

/-- Messages of one topic stay in the order of the batch. -/
theorem sent_byTopic_single {topic : String} {messages : List (OutgoingMessage V)}
    (one : ∀ m ∈ messages, m.topic = topic) : sent (byTopic messages) = messages := by
  cases messages with
  | nil => rfl
  | cons message rest =>
    have ht := one message (List.mem_cons_self ..)
    have first : byTopic (message :: rest) =
        rest.foldl (fun b m => addToBucket m b) [⟨topic, [message]⟩] := by
      simp [byTopic, addToBucket, ht]
    rw [first, bucket_grows fun m hm => one m (List.mem_cons_of_mem message hm)]
    simp [sent]

end Overbook.Kafka
