import Mathlib
import Overbook.Notifications.Handling
import Overbook.Outbox.Identity

/-! The whole way of a notification: replicas book and relay, the broker hands what it has
accepted to the consumers, as often as it likes, and the consumers deliver. -/
namespace Overbook

open Async Kafka Notifications

/- The message value as JSON; `toISOString` writes an instant as text. -/
def BookingConfirmedPayload.json (toISOString : Time → String) (payload : BookingConfirmedPayload) :
    Json :=
  .object
    [("bookingId", .string payload.bookingId), ("eventId", .string payload.eventId),
      ("userId", .string payload.userId), ("quantity", .number payload.quantity),
      ("eventName", .string payload.eventName), ("bookedAt", .string (toISOString payload.bookedAt)),
      ("traceId", payload.traceId.elim .null .string)]

structure Pipeline where
  replicas : ApiPool
  handlers : ConsumerPool

variable (partition : String → String → Nat) (config : AppConfiguration) (approx : Rat → Rat)
  (toISOString : Time → String)

/-- A record is a copy of a message that the broker has accepted from a replica. -/
def Fed (s : Store) : Act Notifications.Job Notifications.Choice Notifications.Ext → Prop
  | .env (.produce topic _ key value headers) => ∃ m ∈ s.kafka, topic = m.topic ∧
      key = some m.key ∧ value = some (.json (m.value.json toISOString)) ∧ headers = m.headers
  | _ => True

inductive Pipeline.Step : Pipeline → Pipeline → Prop
  | replicas {p p' : ApiPool} {q : ConsumerPool} (a : Act Job Choice Ext) :
      (api partition).step p a = some p' → Step ⟨p, q⟩ ⟨p', q⟩
  | handlers {p : ApiPool} {q q' : ConsumerPool}
      (a : Act Notifications.Job Notifications.Choice Notifications.Ext) :
      Fed toISOString p.shared a → (consumers config approx).step q a = some q' →
      Step ⟨p, q⟩ ⟨p, q'⟩

abbrev Pipeline.Reach := Relation.ReflTransGen
  (Pipeline.Step partition config approx toISOString)

def Pipeline.start : Pipeline := ⟨migrated, deployed⟩

/- The consumers' records are copies of the messages in `log`. -/
def copiesOf (log : List BookingMessage) : Notifications.Regime where
  messages _ id body := ∃ m ∈ log, m.headers.messageId = some id ∧
    body = .json (m.value.json toISOString)

variable {partition config approx toISOString}

theorem everything_ok {p : ApiPool} (a : Act Job Choice Ext) : everything.Ok p a := by
  cases a with
  | start t j => trivial
  | step t c => exact fun _ _ _ _ => trivial
  | kill t => trivial
  | env x => cases x <;> trivial

theorem fed_ok {log : List BookingMessage} {s : Store} {q : ConsumerPool}
    {a : Act Notifications.Job Notifications.Choice Notifications.Ext}
    (traced : Traced s) (sub : s.kafka ⊆ log) (fed : Fed toISOString s a) :
    (copiesOf toISOString log).Ok q a := by
  cases a with
  | start t j => trivial
  | step t c => exact fun _ _ _ _ => trivial
  | kill t => exact fun _ _ _ _ => trivial
  | env x =>
    cases x with
    | tick d => trivial
    | onApplicationShutdown replica => trivial
    | produce topic part key value headers =>
      obtain ⟨m, hm, rfl, rfl, rfl, rfl⟩ := fed
      obtain ⟨id, named⟩ := source_named (traced m hm)
      refine ⟨m, sub hm, ?_, rfl⟩
      simp [Inbox.produced, Record.messageId, named]

theorem copiesOf_mono {log log' : List BookingMessage} (sub : log ⊆ log') {q : ConsumerPool}
    {a : Act Notifications.Job Notifications.Choice Notifications.Ext}
    (ok : (copiesOf toISOString log).Ok q a) : (copiesOf toISOString log').Ok q a := by
  cases a with
  | start t j => trivial
  | step t c => exact fun _ _ _ _ => trivial
  | kill t => exact fun _ _ _ _ => trivial
  | env x =>
    cases x with
    | tick d => trivial
    | onApplicationShutdown replica => trivial
    | produce topic part key value headers =>
      obtain ⟨m, hm, rest⟩ := ok
      exact ⟨m, sub hm, rest⟩

/-- Each half of a run of the pipeline is a run of its own. -/
theorem pipeline_halves {x : Pipeline}
    (run : Pipeline.Reach partition config approx toISOString .start x) :
    (api partition).Reach everything.Ok migrated x.replicas ∧
      (consumers config approx).Reach (copiesOf toISOString x.replicas.shared.kafka).Ok deployed
        x.handlers := by
  induction run with
  | refl => exact ⟨.refl, .refl⟩
  | tail _ step ih =>
    obtain ⟨first, second⟩ := ih
    cases step with
    | replicas a st =>
      have once := Machine.Reach.step .refl (everything_ok a) st
      have grows := api_grows first once
      exact ⟨first.trans once, second.mono fun q a => copiesOf_mono grows.kafka.subset⟩
    | handlers a fed st =>
      exact ⟨first, second.step (fed_ok (traced first) (fun _ h => h) fed) st⟩

def Notifications.Delivery.bookingId (d : Delivery) : Option Uuid :=
  (d.message.payload.member "bookingId").bind Json.text

theorem json_bookingId (payload : BookingConfirmedPayload) :
    ((payload.json toISOString).member "bookingId").bind Json.text = some payload.bookingId := by
  simp [BookingConfirmedPayload.json, Json.member, List.lookup, Json.text]

theorem delivered_message {x : Pipeline}
    (run : Pipeline.Reach partition config approx toISOString .start x) {d : Delivery}
    (hd : d ∈ x.handlers.shared.delivered) : ∃ m ∈ x.replicas.shared.kafka,
      m.headers.messageId = some d.message.messageId ∧ d.bookingId = some m.value.bookingId := by
  obtain ⟨m, hm, id, body⟩ := (consumers_sound (pipeline_halves run).2).inv.delivered d hd
  refine ⟨m, hm, id, ?_⟩
  rw [Delivery.bookingId, Body.json.inj body]
  exact json_bookingId m.value

/-- Whatever is delivered is about a committed booking. -/
theorem delivered_committed {x : Pipeline}
    (run : Pipeline.Reach partition config approx toISOString .start x) {d : Delivery}
    (hd : d ∈ x.handlers.shared.delivered) :
    ∃ b ∈ x.replicas.shared.bookings, d.bookingId = some b.id := by
  obtain ⟨m, hm, _, about⟩ := delivered_message run hd
  have api := (pipeline_halves run).1
  obtain ⟨b, hb, same⟩ := List.mem_map.mp (source_booking (api_sound api).inv (traced api m hm))
  exact ⟨b, hb, by rw [about, same]⟩

theorem delivered_id {x : Pipeline}
    (run : Pipeline.Reach partition config approx toISOString .start x) {d d' : Delivery}
    (hd : d ∈ x.handlers.shared.delivered) (hd' : d' ∈ x.handlers.shared.delivered)
    (same : d.bookingId = d'.bookingId) : d.message.messageId = d'.message.messageId := by
  have api := (pipeline_halves run).1
  obtain ⟨m, hm, id, about⟩ := delivered_message run hd
  obtain ⟨m', hm', id', about'⟩ := delivered_message run hd'
  have booking : m.value.bookingId = m'.value.bookingId :=
    Option.some.inj (about.symm.trans (same.trans about'))
  have one := source_id (api_sound api).inv (traced api m hm) (traced api m' hm') booking
  exact Option.some.inj (id.symm.trans (one.trans id'))

/-- A notification is delivered at most once for each booking. -/
theorem one_email_per_booking (partition : String → String → Nat) (config : AppConfiguration)
    (approx : Rat → Rat) (toISOString : Time → String) (x : Pipeline)
    (run : Pipeline.Reach partition config approx toISOString .start x) (bookingId : Uuid) :
    x.handlers.shared.delivered.countP (fun d => d.bookingId == some bookingId) ≤ 1 := by
  have sane := (consumers_sound (pipeline_halves run).2).inv
  by_cases any : ∃ d ∈ x.handlers.shared.delivered, d.bookingId = some bookingId
  · obtain ⟨d, hd, about⟩ := any
    have once := (sane.once d.message.messageId).length_le_one
    simp only [rightOn, List.length_map, ← List.countP_eq_length_filter] at once
    refine (List.countP_mono_left fun d' hd' about' => ?_).trans once
    have same : d'.bookingId = d.bookingId := (beq_iff_eq.mp about').trans about.symm
    exact beq_iff_eq.mpr (delivered_id run hd' hd same)
  · have none : x.handlers.shared.delivered.countP (fun d => d.bookingId == some bookingId) = 0 :=
      List.countP_eq_zero.mpr fun d hd about => any ⟨d, hd, beq_iff_eq.mp about⟩
    omega

theorem replicas_reach {p p' : ApiPool} {q : ConsumerPool}
    {Ok : ApiPool → Act Job Choice Ext → Prop} (run : (api partition).Reach Ok p p') :
    Pipeline.Reach partition config approx toISOString ⟨p, q⟩ ⟨p', q⟩ := by
  induction run with
  | refl => exact .refl
  | step _ _ st ih => exact ih.tail (.replicas _ st)

theorem handlers_reach {p : ApiPool} {q q' : ConsumerPool}
    (run : (consumers config approx).Reach (fun _ => Fed toISOString p.shared) q q') :
    Pipeline.Reach partition config approx toISOString ⟨p, q⟩ ⟨p, q'⟩ := by
  induction run with
  | refl => exact .refl
  | step _ fed st ih => exact ih.tail (.handlers _ fed st)

/- The message of `oneRow`, handed to two handlers. -/
def oneDelivery : List (Act Notifications.Job Notifications.Choice Notifications.Ext) :=
  [.env (.produce "booking.events" 0 (some "e")
      (some (.json (oneRow.payload.json fun _ => "1970-01-01T00:00:00.000Z")))
      (relayMessage oneRow).headers),
    .start 1 ⟨0, false, 0⟩, .step 1 .ok, .start 2 ⟨1, false, 0⟩, .step 2 .ok,
    .step 1 .ok, .step 2 .ok, .step 1 .ok, .step 2 .ok, .step 1 .ok, .step 1 .ok, .step 2 .ok]

theorem one_email_per_booking_one : ∃ x : Pipeline, x.handlers.shared.delivered.length = 1 ∧
    x.handlers.shared.skipped.length = 1 ∧
    x.handlers.shared.delivered.countP (fun d => d.bookingId == some "b") ≤ 1 := by
  have booked : (((api fun _ _ => 0).run migrated oneDrain).map fun p => p.shared.kafka) =
      some [relayMessage oneRow] := by decide +kernel
  have notified : (((consumers {} id).run deployed oneDelivery).map fun q =>
      (q.shared.delivered.length, q.shared.skipped.length)) = some (1, 1) := by decide +kernel
  obtain ⟨p, hp, kafka⟩ := Option.map_eq_some_iff.mp booked
  obtain ⟨q, hq, seen⟩ := Option.map_eq_some_iff.mp notified
  obtain ⟨delivered, skipped⟩ := Prod.mk.inj seen
  have first : (api fun _ _ => 0).Reach everything.Ok migrated p := any_run hp fun _ _ _ => trivial
  have second : (consumers {} id).Reach
      (fun _ => Fed (fun _ => "1970-01-01T00:00:00.000Z") p.shared) deployed q := by
    refine .of_run hq fun a ha _ => ?_
    simp only [oneDelivery, List.mem_cons, List.not_mem_nil, or_false] at ha
    rcases ha with rfl | rfl | rfl | rfl | rfl | rfl | rfl | rfl | rfl | rfl | rfl | rfl
    · exact ⟨relayMessage oneRow, by simp [kafka], rfl, rfl, rfl, rfl⟩
    all_goals trivial
  refine ⟨⟨p, q⟩, delivered, skipped, one_email_per_booking (fun _ _ => 0) {} id
    (fun _ => "1970-01-01T00:00:00.000Z") _ ?_ "b"⟩
  exact (replicas_reach first).trans (handlers_reach second)

end Overbook
