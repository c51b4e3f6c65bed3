import Overbook.Notifications.AllEnd
import Overbook.Outbox.Recovery
import Overbook.Pipeline

/-! From the booking to its end: every booking that is committed with an outbox row comes to one
e-mail or to one dead letter, and from wherever the pipeline is it can be brought there. -/
namespace Overbook

open Async Kafka Notifications Store

def Notifications.Body.bookingId (body : Body) : Option Uuid :=
  (body.parsed.member "bookingId").bind Json.text

def Notifications.Record.bookingId (r : Record) : Option Uuid := r.body.bookingId

def Notifications.Dead.bookingId (d : Dead) : Option Uuid := d.message.value.raw.bookingId

def Pipeline.emails (x : Pipeline) (bookingId : Uuid) : Nat :=
  x.handlers.shared.delivered.countP fun d => d.bookingId == some bookingId

def Pipeline.letters (x : Pipeline) (bookingId : Uuid) : Nat :=
  x.handlers.shared.dlq.countP fun d => d.bookingId == some bookingId

/-- Records about the booking are there, and all of them have been handled to their end. -/
def Pipeline.Ended (x : Pipeline) (bookingId : Uuid) : Prop :=
  (∃ r ∈ x.handlers.shared.log, r.bookingId = some bookingId) ∧
    ∀ i r, x.handlers.shared.log[i]? = some r → r.bookingId = some bookingId →
      i ∈ x.handlers.shared.consumed

/-- Records are handed out once, nothing fails there but deliveries, and what is fed is the first
copy of an accepted message. -/
def FedOnce (config : AppConfiguration) (toISOString : Time → String) (s : Store)
    (q : ConsumerPool) (a : Act Notifications.Job Notifications.Choice Notifications.Ext) : Prop :=
  handedOnce config q a ∧ match a with
    | .env (.produce topic partition key value headers) => ∃ m ∈ s.kafka,
        Relayed toISOString m (.produce topic partition key value headers) ∧
          ∃ id, m.headers.messageId = some id ∧ id ≠ "" ∧ ∀ r ∈ q.shared.log, r.messageId ≠ id
    | _ => True

variable (partition : String → String → Nat) (config : AppConfiguration) (approx : Rat → Rat)
  (toISOString : Time → String) (R : Regime)

inductive Pipeline.StepOnce : Pipeline → Pipeline → Prop
  | replicas {p p' : ApiPool} {q : ConsumerPool} (a : Act Job Choice Ext) :
      R.Ok p a → (api partition).step p a = some p' → StepOnce ⟨p, q⟩ ⟨p', q⟩
  | handlers {p : ApiPool} {q q' : ConsumerPool}
      (a : Act Notifications.Job Notifications.Choice Notifications.Ext) :
      FedOnce config toISOString p.shared q a → (consumers config approx).step q a = some q' →
      StepOnce ⟨p, q⟩ ⟨p, q'⟩

abbrev Pipeline.ReachOnce := Relation.ReflTransGen
  (Pipeline.StepOnce partition config approx toISOString R)

variable {partition config approx toISOString R} {x : Pipeline} {s : Store}

theorem reachOnce_reach
    (run : Pipeline.ReachOnce partition config approx toISOString R .start x) :
    Pipeline.Reach partition config approx toISOString .start x := by
  refine Relation.ReflTransGen.mono (fun x y st => ?_) _ _ run
  cases st with
  | replicas a ok st => exact .replicas a st
  | handlers a ok st =>
    refine .handlers a ?_ st
    cases a with
    | env y =>
      cases y with
      | produce topic part key value headers =>
        obtain ⟨-, m, hm, ⟨place, relayed⟩, -⟩ := ok
        cases relayed
        exact ⟨m, hm, rfl, rfl, rfl, rfl⟩
      | _ => trivial
    | _ => trivial

theorem fedOnce_mono {s' : Store} (grows : s.kafka ⊆ s'.kafka) {q : ConsumerPool}
    {a : Act Notifications.Job Notifications.Choice Notifications.Ext}
    (ok : FedOnce config toISOString s q a) : FedOnce config toISOString s' q a := by
  refine ⟨ok.1, ?_⟩
  cases a with
  | env y =>
    cases y with
    | produce topic part key value headers =>
      obtain ⟨m, hm, rest⟩ := ok.2
      exact ⟨m, grows hm, rest⟩
    | _ => trivial
  | _ => trivial

theorem reachOnce_halves
    (run : Pipeline.ReachOnce partition config approx toISOString R .start x) :
    (api partition).Reach R.Ok migrated x.replicas ∧ (consumers config approx).Reach
      (FedOnce config toISOString x.replicas.shared) deployed x.handlers := by
  induction run with
  | refl => exact ⟨.refl, .refl⟩
  | tail _ step ih =>
    obtain ⟨first, second⟩ := ih
    cases step with
    | replicas a ok st =>
      have one := Machine.Reach.step .refl ok st
      have grows := (api_grows first one).kafka.subset
      exact ⟨first.trans one, second.mono fun _ _ ok => fedOnce_mono grows ok⟩
    | handlers a fed st => exact ⟨first, second.step fed st⟩

/-! Everything the consumers have goes back to an outbox row. -/

/- The committed rows, less the columns that relays write. -/
def outboxRows (s : Store) : List OutboxRow := s.outbox.committed.map (·.envelope)

theorem outboxRows_ids (inv : Consistent s) : ((outboxRows s).map (·.id)).Nodup := by
  have ids := inv.wf.outbox.nodup
  rwa [outboxRows, List.map_map]

/-- With direct publishing off, the broker has what relays have sent and nothing else. -/
theorem kafka_relayed (mode : ∀ j, R.allowed j → j.OutboxOnly) {p : ApiPool}
    (run : (api partition).Reach R.Ok migrated p) {m : BookingMessage} (hm : m ∈ p.shared.kafka) :
    ∃ row ∈ outboxRows p.shared, m = relayMessage row := by
  cases traced run m hm with
  | relayed row there same => exact ⟨row, there, same⟩
  | direct b hb none about id =>
    obtain ⟨row, there, event, -⟩ := forall₂_mem_left (paired mode run) hb
    exact absurd (event.bookingId ▸ mem_announced there) none

theorem fedOnce_once (mode : ∀ j, R.allowed j → j.OutboxOnly) {p : ApiPool}
    (run : (api partition).Reach R.Ok migrated p) {q : ConsumerPool}
    {a : Act Notifications.Job Notifications.Choice Notifications.Ext}
    (ok : FedOnce config toISOString p.shared q a) : relaysOnce config toISOString q a ∧
      ∀ row ∈ outboxRows p.shared, once config toISOString row q a := by
  refine ⟨⟨ok.1, ?_⟩, fun row mine => ⟨ok.1, ?_⟩⟩
  · cases a with
    | env y =>
      cases y with
      | produce topic part key value headers =>
        obtain ⟨m, hm, relayed, id, named, given, first⟩ := ok.2
        obtain ⟨row, -, rfl⟩ := kafka_relayed mode run hm
        cases Option.some.inj named
        exact ⟨row, given, relayed, first⟩
      | _ => trivial
    | _ => trivial
  · cases a with
    | env y =>
      cases y with
      | produce topic part key value headers =>
        intro own
        obtain ⟨m, hm, relayed, id, named, -, first⟩ := ok.2
        obtain ⟨row', there, rfl⟩ := kafka_relayed mode run hm
        cases Option.some.inj named
        have nodup := outboxRows_ids (api_sound run).inv
        obtain rfl := List.inj_on_of_nodup_map nodup there mine
          ((relayed_id _ relayed).symm.trans own)
        exact ⟨relayed, first⟩
      | _ => trivial
    | _ => trivial

structure Histories (config : AppConfiguration) (approx : Rat → Rat)
    (toISOString : Time → String) (x : Pipeline)
    (entries : List (Entry Inbox Notifications.Effect.Answer Err)) : Prop where
  all : (consumers config approx).History (relaysOnce config toISOString) deployed entries x.handlers
  each : ∀ row ∈ outboxRows x.replicas.shared,
    (consumers config approx).History (once config toISOString row) deployed entries x.handlers

theorem histories (mode : ∀ j, R.allowed j → j.OutboxOnly)
    (run : Pipeline.ReachOnce partition config approx toISOString R .start x) :
    ∃ entries, Histories config approx toISOString x entries := by
  obtain ⟨first, second⟩ := reachOnce_halves run
  obtain ⟨entries, history⟩ := Machine.History.of_reach second
  exact ⟨entries, history.mono fun _ _ ok => (fedOnce_once mode first ok).1,
    fun row mine => history.mono fun _ _ ok => (fedOnce_once mode first ok).2 row mine⟩

/-- An accepted message is about the booking if and only if it goes by the id of its row. -/
theorem message_about (mode : ∀ j, R.allowed j → j.OutboxOnly) {p : ApiPool}
    (run : (api partition).Reach R.Ok migrated p) {row : OutboxRow} {b : BookingRow}
    (mine : row ∈ outboxRows p.shared) (event : EventOf row b) {m : BookingMessage}
    (hm : m ∈ p.shared.kafka) :
    m.value.bookingId = b.id ↔ m.headers.messageId = some row.id := by
  obtain ⟨row', there, rfl⟩ := kafka_relayed mode run hm
  have inv := (api_sound run).inv
  constructor
  · intro about
    have nodup : (announced p.shared).Nodup := inv.announced.nodup inv.wf.bookings.nodup
    rw [List.inj_on_of_nodup_map (announced_envelopes p.shared ▸ nodup) there mine
      (about.trans event.bookingId.symm)]
    rfl
  · intro named
    rw [List.inj_on_of_nodup_map (outboxRows_ids inv) there mine (Option.some.inj named)]
    exact event.bookingId

/-- What the consumers have about the booking is what they have under the id of its row. -/
structure Notified (x : Pipeline) (row : OutboxRow) (b : BookingRow) : Prop where
  records : ∀ r ∈ x.handlers.shared.log, r.bookingId = some b.id ↔ r.messageId = row.id
  delivered : ∀ d ∈ x.handlers.shared.delivered,
    d.bookingId = some b.id ↔ d.message.messageId = row.id
  letters : ∀ d ∈ x.handlers.shared.dlq, d.bookingId = some b.id ↔ d.origin = .named row.id

theorem booking_goes (mode : ∀ j, R.allowed j → j.OutboxOnly)
    (run : Pipeline.ReachOnce partition config approx toISOString R .start x) {row : OutboxRow}
    {b : BookingRow} (mine : row ∈ outboxRows x.replicas.shared) (event : EventOf row b) :
    Notified x row b := by
  have api := (reachOnce_halves run).1
  obtain ⟨entries, known⟩ := histories mode run
  have sane := (consumers_sound (pipeline_halves (reachOnce_reach run)).2).inv
  have records : ∀ r ∈ x.handlers.shared.log,
      r.bookingId = some b.id ↔ r.messageId = row.id := by
    intro r hr
    obtain ⟨m, hm, id, body⟩ := sane.messages r hr
    have about : r.bookingId = some m.value.bookingId := by
      rw [Record.bookingId, body]
      exact json_bookingId m.value
    rw [about, Option.some.injEq, message_about mode api mine event hm, id, Option.some.injEq]
  constructor
  · exact records
  · intro d hd
    obtain ⟨m, hm, id, about⟩ := delivered_message (reachOnce_reach run) hd
    rw [about, Option.some.injEq, message_about mode api mine event hm, id, Option.some.injEq]
  · intro d hd
    obtain ⟨r, hr, origin, raw⟩ := letters_kept (fun _ _ ok => ok.1) known.all d hd
    have same : d.bookingId = r.bookingId := congrArg Body.bookingId raw
    rw [same, origin, ((identified known.all).records r hr).2, Origin.named.injEq]
    exact records r hr

theorem Notified.counts {row : OutboxRow} {b : BookingRow} (h : Notified x row b)
    (group : String) : x.emails b.id = (account group row.id x.handlers.shared).sent ∧
      x.letters b.id = (account group row.id x.handlers.shared).letters.length := by
  constructor
  · rw [Pipeline.emails, List.countP_eq_length_filter]
    refine congrArg List.length (List.filter_congr fun d hd => ?_)
    rw [Bool.eq_iff_iff, beq_iff_eq, beq_iff_eq]
    exact h.delivered d hd
  · rw [Pipeline.letters, List.countP_eq_length_filter, account, List.length_map]
    refine congrArg List.length (List.filter_congr fun d hd => ?_)
    rw [Bool.eq_iff_iff, beq_iff_eq, beq_iff_eq]
    exact h.letters d hd

theorem Notified.ended_iff {row : OutboxRow} {b : BookingRow} (h : Notified x row b) :
    x.Ended b.id ↔ Consumed row.id x.handlers.shared := by
  constructor
  · rintro ⟨⟨r, hr, about⟩, all⟩
    refine ⟨List.ne_nil_of_mem (List.mem_filter.mpr ⟨hr, ?_⟩), fun i r there own => ?_⟩
    · exact beq_iff_eq.mpr ((h.records r hr).mp about)
    · exact all i r there ((h.records r (List.mem_of_getElem? there)).mpr own)
  · rintro ⟨some, all⟩
    obtain ⟨r, hr⟩ := List.exists_mem_of_ne_nil _ some
    obtain ⟨there, named⟩ := List.mem_filter.mp hr
    refine ⟨⟨r, there, (h.records r there).mpr (beq_iff_eq.mp named)⟩, fun i r there about => ?_⟩
    exact all i r there ((h.records r (List.mem_of_getElem? there)).mp about)

theorem closed_of_consumed {id : String} {s : Inbox} (h : Consumed id s) :
    id ∈ messageIds s ∧ id ∉ openIds s := by
  obtain ⟨some, all⟩ := h
  obtain ⟨r, hr⟩ := List.exists_mem_of_ne_nil _ some
  obtain ⟨there, named⟩ := List.mem_filter.mp hr
  refine ⟨mem_messageIds.mpr ⟨r, there, beq_iff_eq.mp named⟩, fun more => ?_⟩
  obtain ⟨-, i, -, own, missing⟩ := Finset.mem_filter.mp more
  obtain ⟨r, there, named⟩ := (Option.any_eq_true ..).mp own
  exact missing (all i r there (beq_iff_eq.mp named))

theorem Notifications.Identified.unnamed {group : String} {s : Inbox} (h : Identified group s) :
    (account group "" s).sent = 0 ∧ (account group "" s).letters = [] := by
  constructor
  · refine List.length_eq_zero_iff.mpr (List.filter_eq_nil_iff.mpr fun d hd named => ?_)
    exact h.sent d hd (beq_iff_eq.mp named)
  · refine List.map_eq_nil_iff.mpr (List.filter_eq_nil_iff.mpr fun d hd named => ?_)
    obtain ⟨id, given, origin⟩ := h.letters d hd
    rw [origin, beq_iff_eq] at named
    exact given (Origin.named.inj named)

/-- The end of one booking. -/
structure EndsAt (x : Pipeline) (bookingId : Uuid) : Prop where
  once : x.emails bookingId + x.letters bookingId ≤ 1
  closed : x.Ended bookingId → x.emails bookingId + x.letters bookingId = 1

theorem Notified.endsAt {entries : List (Entry Inbox Notifications.Effect.Answer Err)}
    {row : OutboxRow} {b : BookingRow} (moderate : Moderate config)
    (known : (consumers config approx).History (relaysOnce config toISOString) deployed entries
      x.handlers)
    (h : Notified x row b) : EndsAt x b.id := by
  obtain ⟨emails, letters⟩ := h.counts config.kafka.consumerGroup
  by_cases there : row.id ∈ messageIds x.handlers.shared
  · have given : row.id ≠ "" := by
      obtain ⟨r, hr, named⟩ := mem_messageIds.mp there
      exact named ▸ ((identified known).records r hr).1
    obtain ⟨once, sent, closed⟩ := (fair_of_told moderate given known).1 there
    refine ⟨by omega, fun ended => ?_⟩
    have final := closed (closed_of_consumed (h.ended_iff.mp ended)).2
    omega
  · have none : (account config.kafka.consumerGroup row.id x.handlers.shared).sent = 0 ∧
        (account config.kafka.consumerGroup row.id x.handlers.shared).letters = [] := by
      by_cases given : row.id = ""
      · rw [given]
        exact (identified known).unnamed
      · rw [(fair_of_told moderate given known).2 there]
        exact ⟨rfl, rfl⟩
    obtain ⟨sent, buried⟩ := none
    rw [buried] at letters
    rw [sent] at emails
    refine ⟨by simp [emails, letters], fun ended => ?_⟩
    exact absurd (closed_of_consumed (h.ended_iff.mp ended)).1 there

/-- The books of the whole pipeline: a booking has at most one e-mail or one dead letter, and
exactly one of them once its records have been handled; nobody else has any. -/
structure Balance (x : Pipeline) : Prop where
  each : ∀ b ∈ x.replicas.shared.bookings, EndsAt x b.id
  emails : ∀ d ∈ x.handlers.shared.delivered,
    ∃ b ∈ x.replicas.shared.bookings, d.bookingId = some b.id
  letters : ∀ d ∈ x.handlers.shared.dlq,
    ∃ b ∈ x.replicas.shared.bookings, d.bookingId = some b.id
  most : x.handlers.shared.delivered.length + x.handlers.shared.dlq.length ≤
    x.replicas.shared.bookings.length
  balance : (∀ b ∈ x.replicas.shared.bookings, x.Ended b.id) →
    x.handlers.shared.delivered.length + x.handlers.shared.dlq.length =
      x.replicas.shared.bookings.length

theorem booking_row (mode : ∀ j, R.allowed j → j.OutboxOnly) {p : ApiPool}
    (run : (api partition).Reach R.Ok migrated p) {b : BookingRow} (hb : b ∈ p.shared.bookings) :
    ∃ row ∈ outboxRows p.shared, EventOf row b := by
  obtain ⟨row, there, event, -⟩ := forall₂_mem_left (paired mode run) hb
  exact ⟨row, there, event⟩

theorem letter_committed (mode : ∀ j, R.allowed j → j.OutboxOnly)
    (run : Pipeline.ReachOnce partition config approx toISOString R .start x) {d : Dead}
    (hd : d ∈ x.handlers.shared.dlq) :
    ∃ b ∈ x.replicas.shared.bookings, d.bookingId = some b.id := by
  obtain ⟨entries, known⟩ := histories mode run
  have api := (reachOnce_halves run).1
  obtain ⟨r, hr, -, raw⟩ := letters_kept (fun _ _ ok => ok.1) known.all d hd
  obtain ⟨m, hm, -, body⟩ :=
    (consumers_sound (pipeline_halves (reachOnce_reach run)).2).inv.messages r hr
  have about : d.bookingId = some m.value.bookingId := by
    rw [Dead.bookingId, raw, body]
    exact json_bookingId m.value
  obtain ⟨b, hb, same⟩ := List.mem_map.mp (source_booking (api_sound api).inv (traced api m hm))
  exact ⟨b, hb, by rw [about, same]⟩

theorem length_eq_bookings {α : Type} (about : α → Option Uuid) {l : List α}
    {bookings : List BookingRow} (nodup : (bookings.map (·.id)).Nodup)
    (all : ∀ a ∈ l, ∃ b ∈ bookings, about a = some b.id) :
    l.length = (bookings.map fun b => l.countP fun a => about a == some b.id).sum := by
  have ids : (bookings.map fun b => some b.id).Nodup := by
    have somes := nodup.map (Option.some_injective Uuid)
    rwa [List.map_map] at somes
  have known : ∀ a ∈ l, about a ∈ (bookings.map fun b => some b.id).toFinset := by
    intro a ha
    obtain ⟨b, hb, same⟩ := all a ha
    simpa [same] using ⟨b, hb, rfl⟩
  rw [length_eq_sum about known, List.sum_toFinset _ ids, List.map_map]
  refine congrArg List.sum (List.map_congr_left fun b _ => ?_)
  rw [Function.comp, List.countP_eq_length_filter]
  refine congrArg List.length (List.filter_congr fun a _ => ?_)
  have decided : decide (about a = some b.id) = (about a == some b.id) := by
    by_cases same : about a = some b.id <;> simp [same]
  exact decided

/-- Every booking ends in one e-mail or in one dead letter, and the books balance. -/
theorem one_end_per_booking (partition : String → String → Nat) (config : AppConfiguration)
    (approx : Rat → Rat) (toISOString : Time → String) (R : Regime)
    (mode : ∀ j, R.allowed j → j.OutboxOnly) (moderate : Moderate config) (x : Pipeline)
    (run : Pipeline.ReachOnce partition config approx toISOString R .start x) : Balance x := by
  obtain ⟨entries, known⟩ := histories mode run
  have api := (reachOnce_halves run).1
  have each : ∀ b ∈ x.replicas.shared.bookings, EndsAt x b.id := by
    intro b hb
    obtain ⟨row, mine, event⟩ := booking_row mode api hb
    exact (booking_goes mode run mine event).endsAt moderate known.all
  have emails : ∀ d ∈ x.handlers.shared.delivered,
      ∃ b ∈ x.replicas.shared.bookings, d.bookingId = some b.id :=
    fun d hd => delivered_committed (reachOnce_reach run) hd
  have letters : ∀ d ∈ x.handlers.shared.dlq,
      ∃ b ∈ x.replicas.shared.bookings, d.bookingId = some b.id :=
    fun d hd => letter_committed mode run hd
  have nodup : (x.replicas.shared.bookings.map (·.id)).Nodup := (api_sound api).inv.wf.bookings.nodup
  have total : x.handlers.shared.delivered.length + x.handlers.shared.dlq.length =
      (x.replicas.shared.bookings.map fun b => x.emails b.id + x.letters b.id).sum := by
    rw [length_eq_bookings Delivery.bookingId nodup emails,
      length_eq_bookings Dead.bookingId nodup letters, ← List.sum_map_add]
    rfl
  have count : x.replicas.shared.bookings.length =
      (x.replicas.shared.bookings.map fun _ => 1).sum := by simp
  refine ⟨each, emails, letters, ?_, fun ended => ?_⟩
  · rw [total, count]
    exact List.sum_le_sum fun b hb => (each b hb).once
  · rw [total, count]
    refine congrArg List.sum (List.map_congr_left fun b hb => ?_)
    exact (each b hb).closed (ended b hb)

theorem replicas_reachOnce {p p' : ApiPool} {q : ConsumerPool}
    (run : (api partition).Reach R.Ok p p') :
    Pipeline.ReachOnce partition config approx toISOString R ⟨p, q⟩ ⟨p', q⟩ := by
  induction run with
  | refl => exact .refl
  | step _ ok st ih => exact ih.tail (.replicas _ ok st)

theorem handlers_reachOnce {p : ApiPool} {q q' : ConsumerPool}
    (run : (consumers config approx).Reach (FedOnce config toISOString p.shared) q q') :
    Pipeline.ReachOnce partition config approx toISOString R ⟨p, q⟩ ⟨p, q'⟩ := by
  induction run with
  | refl => exact .refl
  | step _ fed st ih => exact ih.tail (.handlers _ fed st)

/- The message of `oneRow` is fed and delivered. -/
theorem one_end_per_booking_one : ∃ x : Pipeline, Balance x ∧ x.replicas.shared.bookings.length = 1 ∧
    x.handlers.shared.delivered.length = 1 ∧ x.handlers.shared.dlq.length = 0 := by
  let feed : Notifications.Ext := .produce "booking.events" 0 (some "e")
    (some (.json (oneRow.payload.json fun _ => ""))) (relayMessage oneRow).headers
  let handled : List (Act Notifications.Job Notifications.Choice Notifications.Ext) :=
    List.replicate 5 (.step 1 .ok)
  let fed : ConsumerPool := ⟨Notifications.ext .empty feed, fun _ => .idle⟩
  let taken : ConsumerPool := Machine.put fed 1 ((consumers {} id).settle 1 ⟨0, false, 0⟩ fed.shared
    ((consumers {} id).code ⟨0, false, 0⟩))
  have booked : (((api fun _ _ => 0).run migrated oneDrain).map fun p =>
      (p.shared.bookings.length, p.shared.kafka)) = some (1, [relayMessage oneRow]) := by
    decide +kernel
  have notified : (((consumers {} id).run taken handled).map fun q =>
      (q.shared.delivered.length, q.shared.dlq.length)) = some (1, 0) := by decide +kernel
  obtain ⟨p, hp, seen⟩ := Option.map_eq_some_iff.mp booked
  obtain ⟨q, hq, ended⟩ := Option.map_eq_some_iff.mp notified
  obtain ⟨bookings, kafka⟩ := Prod.mk.inj seen
  obtain ⟨delivered, dlq⟩ := Prod.mk.inj ended
  have api : (api fun _ _ => 0).Reach outboxOnly.Ok migrated p := by
    refine any_run hp fun t j start => ?_
    simp only [oneDrain, oneBooking, List.mem_append, List.mem_cons, List.not_mem_nil, or_false,
      reduceCtorEq, false_or, Act.start.injEq] at start
    rcases start with (⟨-, rfl⟩ | ⟨-, rfl⟩) | ⟨-, rfl⟩
    · trivial
    · exact ⟨rfl, rfl⟩
    · trivial
  have consumed : (consumers {} id).Reach (FedOnce {} (fun _ => "") p.shared) deployed q := by
    have first : FedOnce {} (fun _ => "") p.shared deployed (.env feed) :=
      ⟨trivial, relayMessage oneRow, by simp [kafka], ⟨0, rfl⟩, "m", rfl, by decide,
        fun _ none => absurd none List.not_mem_nil⟩
    have second : FedOnce {} (fun _ => "") p.shared fed (.start 1 ⟨0, false, 0⟩) :=
      ⟨⟨⟨_, rfl, rfl⟩, fun t j job => by cases job⟩, trivial⟩
    refine ((Machine.Reach.refl.step first rfl).step second rfl).trans (.of_run hq fun a ha _ => ?_)
    cases List.eq_of_mem_replicate ha
    exact ⟨fun _ _ _ _ => rfl, trivial⟩
  have run : Pipeline.ReachOnce (fun _ _ => 0) {} id (fun _ => "") outboxOnly .start ⟨p, q⟩ :=
    (replicas_reachOnce api).trans (handlers_reachOnce consumed)
  exact ⟨⟨p, q⟩, one_end_per_booking _ {} id _ outboxOnly (fun _ h => h) default_moderate _ run,
    bookings, delivered, dlq⟩

/-! Going on to the ends. -/

def Job.BooksTo (topic : String) : Job → Prop
  | .book config .. => config.kafka.topics.booking = topic
  | _ => True

theorem booked_to {topic : String} (mode : ∀ j, R.allowed j → j.OutboxOnly ∧ j.BooksTo topic)
    {p : ApiPool} (run : (api partition).Reach R.Ok migrated p) :
    ∀ row ∈ outboxRows p.shared, row.topic = topic := by
  refine api_invariant (J := fun s => ∀ row ∈ outboxRows s, row.topic = topic) .refl run
    (fun _ h => absurd h List.not_mem_nil) ?_ (fun _ _ h => h) ?_
  · intro t s e c s' r inv here ok h he row there
    obtain ⟨rfl, act, rfl⟩ | ⟨-, outbox⟩ := touch_commits (exec_touch he)
    · rw [outboxRows, commit_envelopes inv.wf] at there
      rcases List.mem_append.mp there with old | new
      · exact h row old
      · cases here act with
        | book config eventId dto context b outbox allowed booking owns seats announced =>
          obtain ⟨⟨enabled, notDirect⟩, topics⟩ := mode _ allowed
          obtain ⟨m, rfl, added⟩ := announced (by simp [OutboxConfig.enqueues, enabled, notDirect])
          rw [owns.outbox] at new
          cases List.mem_singleton.mp new
          exact added.topic.trans topics
        | drain rows owns =>
          rw [owns.outbox] at new
          exact absurd new List.not_mem_nil
    · rw [outboxRows, outbox] at there
      exact h row there
  · intro _ t s _ h row there
    rw [outboxRows, (abort_tables t s).2] at there
    exact h row there

/-- Every row that is not given up can be published. -/
theorem can_publish {allowed : Job → Prop} {maxAttempts : Int} {p : ApiPool}
    {outbox : OutboxConfig} {replica : Replica} (size : 0 < outbox.batchSize)
    (limit : maxAttempts ≤ outbox.maxAttempts)
    (past : (api partition).Reach (patient allowed maxAttempts).Ok migrated p)
    (resting : p.shared.running replica = false) :
    ∃ q, (api partition).Reach (patient allowed maxAttempts).Ok p q ∧
      ∀ row ∈ outboxRows q.shared, relayMessage row ∈ q.shared.kafka := by
  obtain ⟨q, recovers⟩ := recovers_possible size limit past resting (backlog p.shared.outbox)
  have run : (api partition).Reach (patient allowed maxAttempts).Ok p q := recovers.patient limit
  refine ⟨q, run, fun row there => ?_⟩
  obtain ⟨r, hr, rfl⟩ := List.mem_map.mp there
  refine (pending_or_sent (past.trans run) hr).resolve_left fun pending => ?_
  have fewer := (recovers_empties size limit past recovers).2
  have none := List.countP_eq_zero.mp (show backlog q.shared.outbox = 0 by omega) r hr
  simp [pending] at none

theorem attendsTo_fedOnce {rows : List OutboxRow} (sent : ∀ row ∈ rows, relayMessage row ∈ s.kafka)
    (given : ∀ row ∈ rows, row.id ≠ "") {q : ConsumerPool}
    {a : Act Notifications.Job Notifications.Choice Notifications.Ext}
    (ok : attendsTo config toISOString rows q a) : FedOnce config toISOString s q a := by
  refine ⟨ok.1, ?_⟩
  cases a with
  | env y =>
    cases y with
    | produce topic part key value headers =>
      obtain ⟨row, mine, relayed, first⟩ := ok.2 _ rfl
      exact ⟨relayMessage row, sent row mine, relayed, row.id, rfl, given row mine, first⟩
    | _ => trivial
  | _ => trivial

/-- From every state in which no row has been given up, the pipeline can go on until each booking
has had its end, and those of which the consumers have heard nothing yet end in an e-mail. -/
theorem every_booking_can_end (partition : String → String → Nat) (config : AppConfiguration)
    (approx : Rat → Rat) (toISOString : Time → String) (allowed : Job → Prop) (maxAttempts : Int)
    (mode : ∀ j, allowed j → j.OutboxOnly ∧ j.BooksTo config.kafka.topics.booking)
    (moderate : Moderate config)
    (outbox : OutboxConfig) (replica : Replica) (size : 0 < outbox.batchSize)
    (limit : maxAttempts ≤ outbox.maxAttempts) (x : Pipeline)
    (run : Pipeline.ReachOnce partition config approx toISOString (patient allowed maxAttempts)
      .start x)
    (resting : x.replicas.shared.running replica = false)
    (given : ∀ row ∈ x.replicas.shared.outbox.committed, row.id ≠ "") :
    ∃ y, Pipeline.ReachOnce partition config approx toISOString (patient allowed maxAttempts) x y ∧
      ∀ b ∈ x.replicas.shared.bookings, y.Ended b.id ∧ y.emails b.id + y.letters b.id = 1 ∧
        ((∀ r ∈ x.handlers.shared.log, r.bookingId ≠ some b.id) → y.emails b.id = 1) := by
  have mode' : ∀ j, (patient allowed maxAttempts).allowed j →
      j.OutboxOnly ∧ j.BooksTo config.kafka.topics.booking := by
    intro j h
    cases j with
    | book config eventId dto context => exact mode _ h
    | _ => exact ⟨trivial, trivial⟩
  have outboxOnly := fun j h => (mode' j h).1
  have api := (reachOnce_halves run).1
  obtain ⟨q, published, sent⟩ := can_publish size limit api resting
  have grown : outboxRows x.replicas.shared ⊆ outboxRows q.shared :=
    (api_grows api published).outbox.subset
  have named : ∀ row ∈ outboxRows x.replicas.shared, row.id ≠ "" := by
    intro row there
    obtain ⟨r, hr, rfl⟩ := List.mem_map.mp there
    exact given r hr
  obtain ⟨entries, known⟩ := histories outboxOnly run
  obtain ⟨later, handlers, history, ends⟩ := all_end moderate
    (outboxRows_ids (api_sound api).inv) named (booked_to mode' api) (.refl _) known.each
  have fed := (history.mono fun _ _ ok =>
    attendsTo_fedOnce (fun row there => sent row (grown there)) named ok).reach
  have onward : Pipeline.ReachOnce partition config approx toISOString (patient allowed maxAttempts)
      x ⟨q, handlers⟩ := (replicas_reachOnce published).trans (handlers_reachOnce fed)
  refine ⟨⟨q, handlers⟩, onward, fun b hb => ?_⟩
  obtain ⟨row, mine, event⟩ := booking_row outboxOnly api hb
  obtain ⟨consumed, fresh⟩ := ends row mine
  obtain ⟨entries', known'⟩ := histories outboxOnly (run.trans onward)
  have after := booking_goes outboxOnly (run.trans onward) (grown mine) event
  have ended := after.ended_iff.mpr consumed
  refine ⟨ended, (after.endsAt moderate known'.all).closed ended, fun unheard => ?_⟩
  have before := booking_goes outboxOnly run mine event
  have nowhere : copies row.id x.handlers.shared = [] := by
    refine List.filter_eq_nil_iff.mpr fun r hr own => ?_
    exact unheard r hr ((before.records r hr).mpr (beq_iff_eq.mp own))
  rw [(after.counts config.kafka.consumerGroup).1, fresh nowhere]

/- The broker refuses the first publish of the only booking; its e-mail can still be sent. -/
theorem every_booking_can_end_refused : ∃ x y : Pipeline,
    x.replicas.shared.bookings.map (·.id) = ["b"] ∧ x.replicas.shared.kafka = [] ∧
      Pipeline.ReachOnce (fun _ _ => 0) {} id (fun _ => "") (patient
        (fun j => j.OutboxOnly ∧ j.BooksTo "booking.events") 10) x y ∧ y.emails "b" = 1 := by
  have replay : (((api fun _ _ => 0).runChecked (patientAct 10) migrated
      (oneBooking ++ refusedDrain {} 0)).map fun p => (p.shared.bookings.map (·.id),
        p.shared.kafka.length, p.shared.running 0, p.shared.outbox.committed.map (·.id))) =
      some (["b"], 0, false, ["m"]) := by decide +kernel
  obtain ⟨p, hp, seen⟩ := Option.map_eq_some_iff.mp replay
  obtain ⟨bookings, rest⟩ := Prod.mk.inj seen
  obtain ⟨kafka, rest⟩ := Prod.mk.inj rest
  obtain ⟨resting, ids⟩ := Prod.mk.inj rest
  have api : (api fun _ _ => 0).Reach (patient
      (fun j => j.OutboxOnly ∧ j.BooksTo "booking.events") 10).Ok migrated p := by
    refine patient_run hp fun t j start => ?_
    simp only [oneBooking, refusedDrain, List.mem_append, List.mem_cons, List.not_mem_nil, or_false,
      reduceCtorEq, false_or, Act.start.injEq, List.mem_map, and_false, exists_false] at start
    rcases start with (⟨-, rfl⟩ | ⟨-, rfl⟩) | ⟨-, rfl⟩
    · exact ⟨trivial, trivial⟩
    · exact ⟨⟨rfl, rfl⟩, rfl⟩
    · exact Int.le_refl 10
  have given : ∀ row ∈ p.shared.outbox.committed, row.id ≠ "" := by
    intro row hr empty
    have mem : row.id ∈ p.shared.outbox.committed.map (·.id) := List.mem_map_of_mem hr
    rw [ids, empty] at mem
    simp at mem
  obtain ⟨y, run, ends⟩ := every_booking_can_end (fun _ _ => 0) {} id (fun _ => "") _ 10
    (fun _ h => h) default_moderate {} 0 (by decide) (by decide) ⟨p, deployed⟩
    (replicas_reachOnce api) resting given
  have mem : "b" ∈ p.shared.bookings.map (·.id) := by rw [bookings]; exact List.mem_singleton_self _
  obtain ⟨b, hb, same⟩ := List.mem_map.mp mem
  obtain ⟨-, -, email⟩ := ends b hb
  refine ⟨⟨p, deployed⟩, y, bookings, List.length_eq_zero_iff.mp kafka, run, ?_⟩
  exact same ▸ email fun _ none => absurd none List.not_mem_nil

end Overbook
