import Overbook.Async.History
import Overbook.Pipeline

/-! What is left of a message in its dead letter. The headers by which the message is known are not
written to it, whatever it was given up for. -/
namespace Overbook

open Async Kafka Notifications

/-- A dead letter by which the message `m` can be told and replayed. -/
structure KeepsIdentity (toISOString : Time → String) (m : BookingMessage)
    (d : OutgoingMessage DeadLetter) : Prop where
  messageId : d.headers.messageId = m.headers.messageId
  eventType : d.headers.eventType = m.headers.eventType
  traceId : d.headers.traceId = m.headers.traceId
  key : d.key = m.key
  originalTopic : d.headers.originalTopic = some m.topic
  raw : d.value.raw = .json (m.value.json toISOString)

def Concerns (m : BookingMessage) (d : Dead) : Prop :=
  ∃ id, m.headers.messageId = some id ∧ d.origin = .named id

variable {config : AppConfiguration} {approx : Rat → Rat} {q : ConsumerPool}

def Posting (config : AppConfiguration) : Notifications.Effect → Prop
  | .sendBatch batch =>
    (∃ message attempts reason now, batch =
      [⟨config.kafka.topics.dlq, [deadLetterMessage config message attempts reason now]⟩]) ∨
    ∃ message parsed attempts retryAt error, batch =
      [⟨config.kafka.topics.retry, [retryMessage config message parsed attempts retryAt error]⟩]
  | _ => True

theorem code_posts (j : Notifications.Job) : (j.code config approx).Only (Posting config) := by
  refine code_only j trivial (fun e he => ?_) ?_ ?_
  · cases e <;> trivial
  · exact fun message attempts reason now => .inl ⟨message, attempts, reason, now, rfl⟩
  · exact fun message parsed attempts retryAt error =>
      .inr ⟨message, parsed, attempts, retryAt, error, rfl⟩

/-- Whatever a handler publishes, its error header has at most 500 UTF-16 units. -/
theorem code_errors_fit (j : Notifications.Job) : (j.code config approx).Only fun e =>
    ∀ batch, e = .sendBatch batch → ∀ m ∈ sent batch, ∀ text ∈ m.headers.error,
      utf16Length text.toList ≤ 500 := by
  refine Prog.only_mono ?_ (code_posts j)
  rintro e posts batch rfl m hm text there
  rcases posts with ⟨message, attempts, reason, now, rfl⟩ |
    ⟨message, parsed, attempts, retryAt, error, rfl⟩
  · cases List.mem_singleton.mp hm
    cases there
    exact slice_fits 500 reason
  · cases List.mem_singleton.mp hm
    cases there
    exact slice_fits 500 error.message

/-- No dead letter has a message id. -/
theorem dead_unnamed
    {Ok : ConsumerPool → Act Notifications.Job Notifications.Choice Notifications.Ext → Prop}
    (run : (consumers config approx).Reach Ok deployed q) :
    ∀ d ∈ q.shared.dlq, d.message.headers.messageId = none := by
  induction run with
  | refl => exact fun d hd => nomatch hd
  | @step p q a before ok st ih =>
    cases Machine.steps_of_step st with
    | start idle ready =>
      obtain ⟨consumed, same⟩ := Notifications.settle_shared config approx _ _ p.shared _
      rw [Machine.put, same]
      exact ih
    | @step t c j e k s r live answered =>
      obtain ⟨consumed, same⟩ := Notifications.settle_shared config approx t j s (k r)
      rw [Machine.put, same]
      intro d hd
      cases Notifications.exec_moves answered with
      | accepted partition batch =>
        rcases before.only code_posts live with ⟨message, attempts, reason, now, rfl⟩ |
          ⟨message, parsed, attempts, retryAt, error, rfl⟩
        · rcases List.mem_append.mp hd with old | new
          · exact ih d old
          · rw [List.mem_singleton.mp new]
            rfl
        · exact ih d hd
      | inserted row =>
        refine ih d ?_
        unfold Inbox.insertClaim at hd
        split at hd <;> exact hd
      | _ => exact ih d hd
    | kill live => exact ih
    | @env x s happened =>
      cases Option.some.inj happened
      cases x <;> exact ih

theorem relayed_named {partition : String → String → Nat} {toISOString : Time → String}
    {x : Pipeline} (run : Pipeline.Reach partition config approx toISOString .start x) {d : Dead}
    (hd : d ∈ x.handlers.shared.dlq) : d.message.headers.messageId = none :=
  dead_unnamed (pipeline_halves run).2 d hd

/-- No message that was ever published keeps its identity in the dead-letter queue. -/
theorem identity_lost (partition : String → String → Nat) (config : AppConfiguration)
    (approx : Rat → Rat) (toISOString : Time → String) (x : Pipeline)
    (run : Pipeline.Reach partition config approx toISOString .start x) (m : BookingMessage)
    (d : Dead) (dead : d ∈ x.handlers.shared.dlq) (about : Concerns m d) :
    ¬ KeepsIdentity toISOString m d.message := by
  intro keeps
  obtain ⟨id, named, -⟩ := about
  have none := relayed_named run dead
  exact nomatch none.symm.trans (keeps.messageId.trans named)

def oneAttempt : AppConfiguration := { notifications := { maxAttempts := 1 } }

def epoch (_ : Time) : String := "1970-01-01T00:00:00.000Z"

/-- The message of `oneRow` is handed out, cannot be delivered, and is given up. -/
def oneDeadLetter : List (Act Notifications.Job Notifications.Choice Notifications.Ext) :=
  [.env (.produce "booking.events" 0 (some "e") (some (.json (oneRow.payload.json epoch)))
      (relayMessage oneRow).headers),
    .start 1 ⟨0, false, 0⟩, .step 1 .ok, .step 1 .ok, .step 1 .ok, .step 1 .ok,
    .step 1 (.threw (.other "no mail server")), .step 1 .ok, .step 1 (.time 0), .step 1 (.stored 0)]

theorem given_up : ∃ x : Pipeline, Pipeline.Reach (fun _ _ => 0) oneAttempt id epoch .start x ∧
    relayMessage oneRow ∈ x.replicas.shared.kafka ∧
    ∃ d ∈ x.handlers.shared.dlq, Concerns (relayMessage oneRow) d := by
  have booked : (((api fun _ _ => 0).run migrated oneDrain).map fun p => p.shared.kafka) =
      some [relayMessage oneRow] := by decide +kernel
  have failed : (((consumers oneAttempt id).run deployed oneDeadLetter).map fun q =>
      q.shared.dlq.map (·.origin)) = some [.named oneRow.id] := by decide +kernel
  obtain ⟨p, hp, kafka⟩ := Option.map_eq_some_iff.mp booked
  obtain ⟨q, hq, origins⟩ := Option.map_eq_some_iff.mp failed
  have first : (api fun _ _ => 0).Reach everything.Ok migrated p := any_run hp fun _ _ _ => trivial
  have second : (consumers oneAttempt id).Reach (fun _ => Fed epoch p.shared) deployed q := by
    refine .of_run hq fun a ha _ => ?_
    simp only [oneDeadLetter, List.mem_cons, List.not_mem_nil, or_false] at ha
    rcases ha with rfl | rfl | rfl | rfl | rfl | rfl | rfl | rfl | rfl | rfl
    · exact ⟨relayMessage oneRow, by simp [kafka], rfl, rfl, rfl, rfl⟩
    all_goals trivial
  have there : Origin.named oneRow.id ∈ q.shared.dlq.map (·.origin) := by simp [origins]
  obtain ⟨d, dead, origin⟩ := List.mem_map.mp there
  exact ⟨⟨p, q⟩, (replicas_reach first).trans (handlers_reach second), by simp [kafka], d, dead,
    oneRow.id, rfl, origin⟩

theorem identity_lost_one : ∃ (x : Pipeline) (d : Dead), d ∈ x.handlers.shared.dlq ∧
    ¬ KeepsIdentity epoch (relayMessage oneRow) d.message := by
  obtain ⟨x, run, -, d, dead, about⟩ := given_up
  exact ⟨x, d, dead, identity_lost _ _ _ epoch x run (relayMessage oneRow) d dead about⟩

theorem dead_letter_unnamed : ¬ ∀ (partition : String → String → Nat) (config : AppConfiguration)
    (approx : Rat → Rat) (toISOString : Time → String) (x : Pipeline)
    (_ : Pipeline.Reach partition config approx toISOString .start x) (m : BookingMessage)
    (_ : m ∈ x.replicas.shared.kafka) (d : Dead) (_ : d ∈ x.handlers.shared.dlq) (_ : Concerns m d),
    KeepsIdentity toISOString m d.message := by
  intro claim
  obtain ⟨x, run, published, d, dead, about⟩ := given_up
  have keeps := claim _ _ _ epoch x run _ published d dead about
  exact nomatch (relayed_named run dead).symm.trans keeps.messageId

end Overbook
