import Overbook.OneUse
import Overbook.Notifications.Consumer

/-! The discipline of claims: the claim on a message id is the right to deliver it. Whoever
inserts the row holds the right, a delivery uses it, the release gives it up. -/
namespace Overbook.Notifications

open Async Prog Kafka OneUse

inductive Moves (t : Tid) (s : Inbox) : Effect → Inbox → Prop where
  | same (e : Effect) : Moves t s e s
  | fetched {isRetryTopic : Bool} {index : Nat} {record : Record}
      (there : s.log[index]? = some record) : Moves t s (.fetch isRetryTopic index)
        { s with handling := Function.update s.handling t (some index) }
  | stopped {replica : Replica} (stopping : s.stopping replica = true) :
      Moves t s (.stopping replica) { s with stopped := s.stopped ++ [t] }
  | inserted (row : ProcessedMessage) : Moves t s (.insertClaim row) (s.insertClaim t row)
  | delivered (message : IncomingNotification) : Moves t s (.deliver message)
      { s with delivered := s.delivered ++ [⟨t, s.origin t, message⟩] }
  | deleted (messageId consumerGroup : String) : Moves t s (.deleteClaim messageId consumerGroup)
      (s.setClaim (messageId, consumerGroup) none)
  | accepted (partition : Nat) (batch : List (TopicMessages Value)) :
      Moves t s (.sendBatch batch) (s.acceptAll t partition batch)

variable {topics : Topics} {t t' : Tid} {s s' : Inbox} {c : Choice}

attribute [local simp] exec

theorem exec_moves {e : Effect} {r : Except Err e.Answer}
    (h : exec topics t s e c = some (s', r)) : Moves t s e s' := by
  cases e with
  | fetch isRetryTopic index =>
    cases c <;> simp only [exec, reduceCtorEq] at h
    split at h
    · rename_i record there
      split at h
      · cases Option.some.inj h
        exact .fetched there
      · cases h
    · cases h
  | stopping replica =>
    cases c <;> simp only [exec, reduceCtorEq] at h
    cases stopping : s.stopping replica
    · simp only [stopping] at h
      cases Option.some.inj h
      exact .same _
    · simp only [stopping] at h
      cases Option.some.inj h
      exact .stopped stopping
  | _ =>
    cases c <;> simp only [exec, reduceCtorEq, Option.some.injEq, Prod.mk.injEq,
      Option.ite_none_right_eq_some] at h
    all_goals first
      | obtain ⟨rfl, _⟩ := h; constructor
      | obtain ⟨_, rfl, _⟩ := h; constructor

/-! What an answer means to the handler. -/

theorem fetched_ok {isRetryTopic : Bool} {index : Nat} {record : Record}
    (h : exec topics t s (.fetch isRetryTopic index) c = some (s', .ok record)) :
    s.log[index]? = some record ∧ record.topic = subscribed topics isRetryTopic ∧
      s' = { s with handling := Function.update s.handling t (some index) } := by
  cases c <;> simp only [exec, reduceCtorEq] at h
  split at h
  · rename_i record' there
    split at h
    · rename_i subscribed
      cases Option.some.inj h
      exact ⟨there, subscribed, rfl⟩
    · cases h
  · cases h

theorem stopping_ok {replica : Replica} {stopping : Bool}
    (h : exec topics t s (.stopping replica) c = some (s', .ok stopping)) :
    stopping = s.stopping replica ∧
      s' = { s with stopped := if stopping then s.stopped ++ [t] else s.stopped } := by
  cases c <;> simp only [exec, Option.some.injEq, Prod.mk.injEq, reduceCtorEq,
    Except.ok.injEq] at h
  obtain ⟨rfl, rfl⟩ := h
  exact ⟨rfl, rfl⟩

theorem inserted_ok {row : ProcessedMessage} {won : Bool}
    (h : exec topics t s (.insertClaim row) c = some (s', .ok won)) :
    won = (s.processed (row.messageId, row.consumerGroup)).isNone ∧ s' = s.insertClaim t row := by
  cases c <;> simp only [exec, Option.some.injEq, Prod.mk.injEq, reduceCtorEq, and_false,
    Except.ok.injEq] at h
  exact ⟨h.2.symm, h.1.symm⟩

theorem inserted_error {row : ProcessedMessage} {error : Err}
    (h : exec topics t s (.insertClaim row) c = some (s', .error error)) :
    (c = .lostReply ∧ s' = s.insertClaim t row) ∨ s' = s := by
  cases c <;> simp only [exec, Option.some.injEq, Prod.mk.injEq, reduceCtorEq, and_false] at h
  · exact .inr h.1.symm
  · exact .inl ⟨rfl, h.1.symm⟩

theorem delivered_error {message : IncomingNotification} {error : Err}
    (h : exec topics t s (.deliver message) c = some (s', .error error)) : s' = s := by
  cases c <;> simp only [exec, Option.some.injEq, Prod.mk.injEq, reduceCtorEq, and_false,
    Option.ite_none_right_eq_some] at h
  exact h.1.symm

theorem delivered_ok {message : IncomingNotification} {u : Unit}
    (h : exec topics t s (.deliver message) c = some (s', .ok u)) :
    s' = { s with delivered := s.delivered ++ [⟨t, s.origin t, message⟩] } := by
  cases c <;> simp only [exec, Option.some.injEq, Prod.mk.injEq, reduceCtorEq, and_false,
    Option.ite_none_right_eq_some] at h
  exact h.2.1.symm

theorem deleted_cases {messageId consumerGroup : String} {r : Except Err Unit}
    (h : exec topics t s (.deleteClaim messageId consumerGroup) c = some (s', r)) :
    s' = s.setClaim (messageId, consumerGroup) none ∨ (c = .fail ∧ s' = s) := by
  cases c <;> simp only [exec, Option.some.injEq, Prod.mk.injEq, reduceCtorEq] at h
  · exact .inl h.1.symm
  · exact .inr ⟨rfl, h.1.symm⟩
  · exact .inl h.1.symm

theorem skipped_cases {e : Effect} (moves : Moves t s e s') (skips : s'.skipped ≠ s.skipped) :
    ∃ row claimed, e = .insertClaim row ∧
      s.processed (row.messageId, row.consumerGroup) = some claimed ∧
      s' = { s with skipped := s.skipped ++ [(t, claimed)] } := by
  cases moves with
  | inserted row =>
    unfold Inbox.insertClaim at skips ⊢
    split
    · rename_i claimed there
      exact ⟨row, claimed, rfl, there, rfl⟩
    · rename_i free
      rw [free] at skips
      exact absurd rfl skips
  | accepted partition batch =>
    have same : ∀ (ms : List (OutgoingMessage Value)) (s : Inbox),
        (ms.foldl (Inbox.accept t partition) s).skipped = s.skipped := by
      intro ms
      induction ms with
      | nil => exact fun _ => rfl
      | cons m ms ih =>
        intro s
        have one : (s.accept t partition m).skipped = s.skipped := by
          unfold Inbox.accept
          split <;> rfl
        exact (ih _).trans one
    exact absurd (same (sent batch) s) skips
  | _ => exact absurd rfl skips

theorem sent_cases {batch : List (TopicMessages Value)} {r : Except Err Unit}
    (h : exec topics t s (.sendBatch batch) c = some (s', r)) :
    (∃ partition, s' = s.acceptAll t partition batch) ∨
      (c = .fail ∧ s' = s ∧ r = .error lost) := by
  cases c <;> simp only [exec, Option.some.injEq, Prod.mk.injEq, reduceCtorEq] at h
  · exact .inr ⟨rfl, h.1.symm, h.2.symm⟩
  · exact .inl ⟨_, h.1.symm⟩
  · exact .inl ⟨_, h.1.symm⟩

/-- The right to deliver the message `id`: the owner of the claim holds it. -/
def rightOn (group id : String) (s : Inbox) : Right :=
  ⟨(s.processed (id, group)).map (·.owner),
    (s.delivered.filter fun d => d.message.messageId == id).map (·.owner)⟩

variable {group id : String}

theorem rightOn_setClaim {key : String} (s : Inbox) (row : Option Claimed) :
    rightOn group id (s.setClaim (key, group) row) =
      if key = id then ⟨row.map (·.owner), (rightOn group id s).users⟩
      else rightOn group id s := by
  split
  · rename_i same
    rw [← same, rightOn, s.setClaim_self]
    rfl
  · rename_i other
    have ne : (id, group) ≠ (key, group) := fun h => other (congrArg Prod.fst h).symm
    rw [rightOn, s.setClaim_of_ne ne]
    rfl

theorem rightOn_insertClaim (t : Tid) (s : Inbox) {row : ProcessedMessage}
    (own : row.consumerGroup = group) :
    rightOn group id (s.insertClaim t row) =
      if row.messageId = id ∧ s.processed (id, group) = none then
        ⟨some t, (rightOn group id s).users⟩
      else rightOn group id s := by
  subst own
  unfold Inbox.insertClaim
  split
  · rename_i claimed there
    split
    · rename_i h
      rw [h.1, h.2] at there
      cases there
    · rfl
  · rename_i free
    rw [rightOn_setClaim]
    by_cases same : row.messageId = id
    · subst same
      simp [free]
    · simp [same]

theorem rightOn_delivered (s : Inbox) (d : Delivery) :
    rightOn group id { s with delivered := s.delivered ++ [d] } =
      if d.message.messageId = id then
        ⟨(rightOn group id s).holder, (rightOn group id s).users ++ [d.owner]⟩
      else rightOn group id s := by
  unfold rightOn
  split <;> rename_i same <;> simp [same]

theorem rightOn_accept (t : Tid) (partition : Nat) (s : Inbox) (m : OutgoingMessage Value) :
    rightOn group id (s.accept t partition m) = rightOn group id s := by
  unfold Inbox.accept
  split <;> rfl

def Handles (t : Tid) (record : Record) (s : Inbox) : Prop :=
  ∃ i, s.handling t = some i ∧ s.log[i]? = some record

theorem Handles.origin {record : Record} (h : Handles t record s) : s.origin t = record.origin := by
  obtain ⟨i, handling, there⟩ := h
  simp [Inbox.origin, handling, there]

/-- What a handler asserts of the effect it waits for. -/
def Asserts (group : String) (t : Tid) (s : Inbox) : Effect → Prop
  | .insertClaim row => row.consumerGroup = group ∧
      ∃ record, Handles t record s ∧ record.messageId = row.messageId
  | .deliver message => (rightOn group message.messageId s).MayUse t ∧
      ∃ record, Handles t record s ∧ record.messageId = message.messageId ∧
        record.body = .json message.payload
  | .deleteClaim messageId consumerGroup =>
      consumerGroup = group ∧ (rightOn group messageId s).MayUse t
  | .sendBatch batch => ∃ m, sent batch = [m] ∧ ∀ value, m.value = .json value →
      ∃ record, Handles t record s ∧ m.headers.messageId = some record.messageId ∧
        record.body = .json value
  | _ => True

theorem acceptAll_one {batch : List (TopicMessages Value)} {m : OutgoingMessage Value}
    (one : sent batch = [m]) (t : Tid) (partition : Nat) (s : Inbox) :
    s.acceptAll t partition batch = s.accept t partition m := by
  rw [Inbox.acceptAll, one]
  rfl

theorem moves_right {e : Effect} (here : Asserts group t s e) (moves : Moves t s e s')
    (id : String) : (rightOn group id s).Step t (rightOn group id s') := by
  cases moves with
  | same => exact .same _
  | fetched there => exact .same _
  | stopped stopping => exact .same _
  | inserted row =>
    rw [rightOn_insertClaim t s here.1]
    split
    · rename_i h
      have free : (rightOn group id s).holder = none := by simp [rightOn, h.2]
      have taken := Right.Step.take (t := t) (rightOn group id s).users
      rwa [← free] at taken
    · exact .same _
  | delivered message =>
    rw [rightOn_delivered]
    split
    · rename_i same
      subst same
      exact .use here.1
    · exact .same _
  | deleted messageId consumerGroup =>
    obtain ⟨rfl, may⟩ := here
    rw [rightOn_setClaim]
    split
    · rename_i same
      subst same
      exact .giveUp may
    · exact .same _
  | accepted partition batch =>
    obtain ⟨m, one, _⟩ := here
    rw [acceptAll_one one, rightOn_accept]
    exact .same _

end Overbook.Notifications
