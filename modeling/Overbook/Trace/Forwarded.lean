import Overbook.Async.Past
import Overbook.Outbox.Attempts
import Overbook.Outbox.Disjoint
import Overbook.Outbox.Identity
import Overbook.Trace.Id

/-! The trace id of a booking request in the outbox and in Kafka: every row and every message about
a booking has the id of the request that made the booking. -/
namespace Overbook.Trace

open Async Prog ReadCommitted Kafka Store

/- `POST /v1/events/:eventId/bookings`. -/
def create (config : AppConfiguration) (eventId : Uuid) (dto : CreateBookingDto)
    (request : Request) (idempotencyKey : Option String) : Job :=
  .book config eventId dto
    { traceId := request.traceId, idempotencyKey := idempotencyKey.map Idempotency.trim }

def Made (past : List Exchange) (id : Uuid) : Prop :=
  ∃ row b, ⟨.insertBooking row, .ok b⟩ ∈ past ∧ b.id = id

def Hands (context : BookingContext) (past : List Exchange) (payload : BookingConfirmedPayload) :
    Prop :=
  payload.traceId = context.traceId ∧ Made past payload.bookingId

def Forwards (j : Job) (past : List Exchange) : Effect → Prop
  | .insertOutbox row => ∃ config eventId dto context,
      j = .book config eventId dto context ∧ Hands context past row.payload
  | .sendBatch batch => (∃ rows : List OutboxRow, batch = byTopic (rows.map relayMessage)) ∨
      ∃ config eventId dto context, j = .book config eventId dto context ∧
        ∀ m ∈ sent batch, Hands context past m.value ∧
          m.headers.traceId = some (context.traceId.getD "")
  | _ => True

def Effect.silent : Effect → Prop
  | .insertOutbox _ => False
  | .sendBatch _ => False
  | _ => True

variable {config : AppConfiguration} {eventId : Uuid} {dto : CreateBookingDto}
  {context : BookingContext} {past : List Exchange} {id : Uuid} {j : Job}

theorem Made.more (h : Made past id) (event : Exchange) : Made (past ++ [event]) id := by
  obtain ⟨row, b, mem, same⟩ := h
  exact ⟨row, b, List.mem_append_left _ mem, same⟩

theorem silent_forwards {e : Effect} (h : Effect.silent e) : Forwards j past e := by
  cases e <;> trivial

theorem heeds_silent {α : Type} {p : Service α} (only : p.Only Effect.silent) :
    p.Heeds (fun _ => True) (Forwards j) (fun _ _ => True) past :=
  heeds_only only (fun _ _ _ silent => ⟨silent_forwards silent, fun _ => trivial⟩) trivial

theorem heeds_made {α : Type} {p : Service α} (only : p.Only Effect.silent) (h : Made past id) :
    p.Heeds (fun _ => True) (Forwards j) (fun past _ => Made past id) past :=
  heeds_only only (fun _ _ made silent => ⟨silent_forwards silent, fun _ => made.more _⟩) h

theorem seats_silent {e : Effect} (h : e.seats) : Effect.silent e := by
  cases e <;> trivial

theorem integrity_silent : (integrity eventId).Only Effect.silent := by
  refine only_bind ((only_await _).mpr trivial) fun row => ?_
  cases row with
  | none => trivial
  | some event => exact only_bind ((only_await _).mpr trivial) fun _ => trivial

theorem enqueue_forwards {booking : BookingRow} {result : Decremented}
    (made : Made past booking.id) :
    (enqueueConfirmed config eventId context booking result).Heeds (fun _ => True)
      (Forwards (.book config eventId dto context)) (fun past _ => Made past booking.id) past := by
  apply heeds_bind
  apply heeds_bind
  refine heeds_await trivial fun r _ => ?_
  cases r with
  | error x => exact made.more _
  | ok now =>
    refine heeds_await (e := Effect.insertOutbox _) ?_ fun r _ => ?_
    · exact ⟨config, eventId, dto, context, rfl, rfl, made.more _⟩
    · cases r <;> exact (made.more _).more _

theorem bookInTransaction_forwards :
    (bookInTransaction config eventId dto context).Heeds (fun _ => True)
      (Forwards (.book config eventId dto context))
      (fun past r => ∀ a, r = .ok a → Made past a.1.id) past := by
  apply heeds_bind
  refine (heeds_silent (only_mono (fun _ => seats_silent) decrement_seats)).mono fun past r _ => ?_
  cases r with
  | error x => exact nofun
  | ok result =>
    apply heeds_bind
    apply heeds_await trivial
    intro r _
    cases r with
    | error x => exact nofun
    | ok booking =>
      have made : Made (past ++ [⟨.insertBooking _, .ok booking⟩]) booking.id :=
        ⟨_, booking, List.mem_append_right _ (List.mem_singleton_self _), rfl⟩
      apply heeds_bind
      have enqueued : (runIf config.outbox.enqueues
          (enqueueConfirmed config eventId context booking result)).Heeds (fun _ => True)
          (Forwards (.book config eventId dto context)) (fun past _ => Made past booking.id)
          (past ++ [⟨.insertBooking _, .ok booking⟩]) := by
        unfold runIf
        split
        · exact enqueue_forwards made
        · exact made
      refine enqueued.mono fun past r made => ?_
      cases r with
      | error x => exact nofun
      | ok u =>
        intro a same
        cases Except.ok.inj same
        exact made

theorem transaction_forwards {α : Type} {run : Service α} {K : α → List Exchange → Prop}
    (more : ∀ a past event, K a past → K a (past ++ [event]))
    (body : ∀ past, run.Heeds (fun _ => True) (Forwards j)
      (fun past r => ∀ a, r = .ok a → K a past) past) :
    (transaction run).Heeds (fun _ => True) (Forwards j)
      (fun past r => ∀ a, r = .ok a → K a past) past := by
  apply heeds_handle
  have undo : ∀ (x : Err) past, (do
      tryCatch (ask .rollbackTx) fun _ => pure ()
      throw x : Service α).Heeds (fun _ => True) (Forwards j)
        (fun past r => ∀ a, r = .ok a → K a past) past := by
    intro x past
    apply heeds_bind
    have rolls : (tryCatch (ask .rollbackTx) fun _ => pure () : Service Unit).Only Effect.silent :=
      only_handle ((only_await _).mpr trivial) fun _ => trivial
    refine (heeds_silent rolls).mono fun past r _ => ?_
    cases r <;> exact nofun
  apply heeds_bind
  refine heeds_await (e := Effect.beginTx) trivial fun r _ => ?_
  cases r with
  | error x => exact undo x _
  | ok u =>
    dsimp only
    apply heeds_bind
    refine (body _).mono fun past r known => ?_
    cases r with
    | error x => exact undo x _
    | ok a =>
      dsimp only
      apply heeds_bind
      refine heeds_await (e := Effect.commitTx) trivial fun r _ => ?_
      cases r with
      | error x => exact undo x _
      | ok u =>
        intro b same
        cases Except.ok.inj same
        exact more a _ _ (known a rfl)

theorem publish_forwards {booking : BookingRow} {eventName : String} (made : Made past booking.id) :
    (publishDirectly config booking eventName context.traceId).Heeds (fun _ => True)
      (Forwards (.book config eventId dto context)) (fun _ _ => True) past := by
  apply heeds_handle
  refine heeds_await (e := Effect.sendBatch _) ?_ fun r _ => ?_
  · refine .inr ⟨config, eventId, dto, context, rfl, fun m mem => ?_⟩
    rw [mem_sent_byTopic, List.mem_singleton] at mem
    rw [mem]
    exact ⟨⟨rfl, made⟩, rfl⟩
  · cases r <;> trivial

theorem afterCommit_forwards {booking : BookingRow} {result : Decremented}
    (made : Made past booking.id) :
    (afterCommit config eventId context booking result).Heeds (fun _ => True)
      (Forwards (.book config eventId dto context)) (fun _ _ => True) past := by
  have next : ∀ {p : Service Unit} {f : Unit → Service BookingResponse} {past : List Exchange},
      p.Only Effect.silent → Made past booking.id →
      (∀ past, Made past booking.id → (f ()).Heeds (fun _ => True)
        (Forwards (.book config eventId dto context)) (fun _ _ => True) past) →
      (p >>= f).Heeds (fun _ => True) (Forwards (.book config eventId dto context))
        (fun _ _ => True) past := by
    intro p f past only made rest
    apply heeds_bind
    refine (heeds_made only made).mono fun past r made => ?_
    cases r with
    | error x => trivial
    | ok u => exact rest past made
  refine next ((only_await _).mpr trivial) made fun past made => ?_
  refine next (only_handle ((only_await _).mpr trivial) fun _ => trivial) made fun past made => ?_
  refine next (only_runIf (only_bind integrity_silent fun _ => only_runIf ?_)) made
    fun past made => ?_
  · exact (only_await _).mpr trivial
  refine next (only_runIf ((only_await _).mpr trivial)) made fun past made => ?_
  apply heeds_bind
  have published : (runIf config.outbox.directPublishMode
      (publishDirectly config booking result.eventName context.traceId)).Heeds (fun _ => True)
      (Forwards (.book config eventId dto context)) (fun _ _ => True) past := by
    unfold runIf
    split
    · exact publish_forwards made
    · trivial
  refine published.mono fun past r _ => ?_
  cases r <;> trivial

theorem book_forwards : (book config eventId dto context).Heeds (fun _ => True)
    (Forwards (.book config eventId dto context)) (fun _ _ => True) past := by
  apply heeds_handle
  have caught : ∀ (x : Err) past, (do
      ask (.bookingsTotal x.bookingResult config.booking.lockStrategy)
      throw x : Service BookingResponse).Heeds (fun _ => True)
        (Forwards (.book config eventId dto context)) (fun _ _ => True) past := fun x past =>
    heeds_silent (only_bind ((only_await _).mpr trivial) fun _ => trivial)
  apply heeds_bind
  have booked : (transaction (bookInTransaction config eventId dto context)).Heeds (fun _ => True)
      (Forwards (.book config eventId dto context))
      (fun past r => ∀ a, r = .ok a → Made past a.1.id) past :=
    transaction_forwards (fun a past event made => made.more event) fun past =>
      bookInTransaction_forwards
  refine booked.mono fun past r made => ?_
  cases r with
  | error x => exact caught x past
  | ok a =>
    refine (afterCommit_forwards (made a rfl)).mono fun past r _ => ?_
    cases r with
    | ok response => trivial
    | error x => exact caught x past

theorem drain_forwards {config : OutboxConfig} {replica : Replica} :
    (drainOnce config replica).Only fun e => ∀ past, Forwards j past e := by
  have plain : ∀ e : Effect, Effect.silent e → ∀ past, Forwards j past e :=
    fun e silent past => silent_forwards silent
  have gauge : refreshPendingGauge.Only Effect.silent :=
    only_bind ((only_await _).mpr trivial) fun _ => trivial
  have failed : ∀ error rows, (markFailed config.maxAttempts error rows).Only Effect.silent := by
    intro error rows
    induction rows with
    | nil => trivial
    | cons row rows ih =>
      refine only_bind ((only_await _).mpr trivial) fun now => ?_
      exact only_bind ((only_await _).mpr trivial) fun _ => ih
  have batch : (drainBatch config).Only fun e => ∀ past, Forwards j past e := by
    refine only_bind ((only_await _).mpr (plain _ trivial)) fun rows => ?_
    split
    · exact only_mono plain (only_bind gauge fun _ => trivial)
    · refine only_bind (only_outcome ?_) fun r => ?_
      · unfold publishBatch
        split
        · trivial
        · exact (only_await _).mpr fun past => .inl ⟨rows, rfl⟩
      · cases r with
        | error x => exact only_mono plain (only_bind (failed x rows) fun _ => trivial)
        | ok u =>
          refine only_mono plain (only_bind ((only_await _).mpr trivial) fun _ => ?_)
          exact only_bind gauge fun _ => trivial
  refine only_bind ((only_await _).mpr (plain _ trivial)) fun running => ?_
  split
  · trivial
  · refine only_ensure (only_handle ?_ fun x => ?_) ((only_await _).mpr (plain _ trivial))
    · refine only_bind ((only_await _).mpr (plain _ trivial)) fun _ => only_bind batch fun _ => ?_
      exact only_bind ((only_await _).mpr (plain _ trivial)) fun _ => trivial
    · refine only_bind (only_handle ?_ fun _ => trivial) fun _ => trivial
      exact (only_await _).mpr (plain _ trivial)

theorem code_forwards (j : Job) :
    j.code.Heeds (fun _ => True) (Forwards j) (fun _ _ => True) past := by
  cases j with
  | create dto =>
    exact heeds_silent (only_bind ((only_await _).mpr trivial) fun _ => trivial)
  | book config eventId dto context =>
    apply heeds_bind
    refine book_forwards.mono fun past r _ => ?_
    cases r <;> trivial
  | integrity eventId => exact heeds_silent (only_bind integrity_silent fun _ => trivial)
  | drainOnce config replica =>
    refine heeds_only (P := fun e => ∀ past, Forwards (.drainOnce config replica) past e)
      (only_bind drain_forwards fun _ => trivial) (fun past e _ forwards => ?_) trivial
    exact ⟨forwards past, fun _ => trivial⟩

variable {partition : String → String → Nat} {R : Regime} {p q : ApiPool}
  {entries : List ApiEntry} {t : Tid}

/-- The call that made the booking, with its trace id. -/
def Bears (p : ApiPool) (payload : BookingConfirmedPayload) : Prop :=
  ∃ t config eventId dto context, (p.slot t).job = some (.book config eventId dto context) ∧
    (payload.bookingId, t) ∈ p.shared.issued ∧ payload.traceId = context.traceId

theorem Bears.later {payload : BookingConfirmedPayload} (h : Bears p payload)
    (past : (api partition).Reach R.Ok migrated p) (run : (api partition).Reach R.Ok p q) :
    Bears q payload := by
  obtain ⟨t, config, eventId, dto, context, job, issued, same⟩ := h
  have kept := (Machine.reach_keep run t).1 _ job
  exact ⟨t, config, eventId, dto, context, kept, (api_grows past run).issued.subset issued, same⟩

theorem made_issued (run : (api partition).History R.Ok migrated entries p)
    (made : Made (eventsOf t entries) id) : (id, t) ∈ p.shared.issued := by
  induction run with
  | refl =>
    obtain ⟨_, _, mem, _⟩ := made
    cases mem
  | @step entries q q' a before ok st ih =>
    have run := before.step ok st
    have grows : Grows q.shared q'.shared := api_grows before.reach (.step .refl ok st)
    have unfolds := step_unfolds st
    generalize (api partition).logged q a = new at run unfolds made
    cases unfolds with
    | answer z was is =>
      by_cases own : z.task = t
      · subst own
        rw [eventsOf_own] at made
        obtain ⟨row, b, mem, same⟩ := made
        rcases List.mem_append.mp mem with old | last
        · exact grows.issued.subset (ih ⟨row, b, old, same⟩)
        · obtain ⟨-, -, c, answered⟩ := entry_step run
          obtain ⟨t, e, r, s, s'⟩ := z
          have event := List.mem_singleton.mp last
          cases event
          obtain ⟨-, -, -, state⟩ := insertBooking_ok answered
          dsimp only at is state ⊢
          rw [← is, ← same, state]
          exact List.mem_cons_self
      · rw [eventsOf_other own] at made
        exact grows.issued.subset (ih made)
    | quiet => exact grows.issued.subset (ih (List.append_nil entries ▸ made))
    | env => exact grows.issued.subset (ih (List.append_nil entries ▸ made))

theorem hands_bears (run : (api partition).History R.Ok migrated entries p) {e : Effect}
    {k : Except Err e.Answer → Service Response} {payload : BookingConfirmedPayload}
    (live : p.slot t = .live (.book config eventId dto context) e k)
    (hands : Hands context (eventsOf t entries) payload) : Bears p payload := by
  refine ⟨t, config, eventId, dto, context, by rw [live]; rfl, ?_, hands.1⟩
  exact made_issued run hands.2

theorem asks_forwards (run : (api partition).History R.Ok migrated entries p) {e : Effect}
    {k : Except Err e.Answer → Service Response} (live : p.slot t = .live j e k) :
    Forwards j (eventsOf t entries) e :=
  run.asks (fun _ _ _ _ _ _ _ => trivial) (code_forwards j) live

theorem open_bears (run : (api partition).Reach R.Ok migrated p) (t : Tid) :
    ∀ r ∈ (p.shared.tx t).outbox, Bears p r.payload := by
  refine open_rows (Q := fun q r => Bears q r.payload) ?_ ?_ run t
  · intro q t c j row k m s before live answered
    obtain ⟨entries, history⟩ := Machine.History.of_reach before
    obtain ⟨config, eventId, dto, context, rfl, hands⟩ := asks_forwards history live
    obtain ⟨-, -, made, -⟩ := insertOutbox_ok answered
    rw [made]
    exact hands_bears history live hands
  · exact fun q q' a r before ok st bears => bears.later before (.step .refl ok st)

theorem envelope_payload {r r' : OutboxRow} (h : r.envelope = r'.envelope) :
    r.payload = r'.payload := by
  have same : r.envelope.payload = r'.envelope.payload := congrArg OutboxRow.payload h
  exact same

/-- Every row of the outbox. -/
theorem rows_bear (run : (api partition).Reach R.Ok migrated p) :
    ∀ r ∈ p.shared.outbox.committed, Bears p r.payload := by
  induction run with
  | refl => exact nofun
  | @step q q' a before ok st ih =>
    have later : ∀ {payload}, Bears q payload → Bears q' payload := fun bears =>
      bears.later before (.step .refl ok st)
    have same : q'.shared.outbox.committed = q.shared.outbox.committed →
        ∀ r ∈ q'.shared.outbox.committed, Bears q' r.payload := by
      intro same r hr
      exact later (ih r (same ▸ hr))
    cases Machine.steps_of_step st with
    | @start t j => exact same (congrArg (·.outbox.committed) (settle_shared t j q.shared _))
    | kill => exact same rfl
    | env happened => exact same (ext_tables happened).2
    | @step t c j e k s r live answered =>
      have shared : (Machine.put q t ((api partition).settle t j s (k r))).shared = s :=
        settle_shared t j s _
      rw [shared] at same ⊢
      rcases touch_commits (exec_touch answered) with ⟨-, act, rfl⟩ | ⟨-, rows⟩
      · have wf := (api_sound before).inv.wf
        intro r hr
        have envelopes : r.envelope ∈ q.shared.outbox.committed.map (·.envelope) ++
            (q.shared.tx t).outbox.map (·.envelope) := by
          rw [← commit_envelopes wf]
          exact List.mem_map_of_mem hr
        rcases List.mem_append.mp envelopes with old | new
        · obtain ⟨r', mem, eq⟩ := List.mem_map.mp old
          rw [← envelope_payload eq]
          exact later (ih r' mem)
        · obtain ⟨r', mem, eq⟩ := List.mem_map.mp new
          rw [← envelope_payload eq]
          exact later (open_bears before t r' mem)
      · exact same rows

/-- Whoever sends a message hands on what its row has, or what its own request has. -/
theorem sent_bears (run : (api partition).History R.Ok migrated entries p)
    {batch : List (TopicMessages BookingConfirmedPayload)}
    {k : Except Err Unit → Service Response} (live : p.slot t = .live j (.sendBatch batch) k)
    (here : Sending R t batch p.shared) {m : BookingMessage} (hm : m ∈ sent batch) :
    Bears p m.value ∧ m.headers.traceId = some (m.value.traceId.getD "") := by
  rcases asks_forwards run live with ⟨rows, relayed⟩ | ⟨config, eventId, dto, context, rfl, hands⟩
  · cases here with
    | relay rows hbatch asked =>
      rw [hbatch, mem_sent_byTopic] at hm
      obtain ⟨r, hr, rfl⟩ := List.mem_map.mp hm
      obtain ⟨r', mem, same⟩ := List.mem_map.mp (asked_committed asked r hr)
      have bears := rows_bear run.reach r' mem
      rw [envelope_payload same] at bears
      exact ⟨bears, rfl⟩
    | direct config eventId dto context b eventName allowed on known none hbatch =>
      have mine := hm
      rw [hbatch, mem_sent_byTopic, List.mem_singleton] at mine
      rw [relayed, mem_sent_byTopic] at hm
      obtain ⟨r, -, eq⟩ := List.mem_map.mp hm
      exact absurd (eq.trans mine) direct_ne_relay
  · obtain ⟨handed, header⟩ := hands m hm
    rw [handed.1]
    exact ⟨hands_bears run live handed, header⟩

/-- Every message about a booking. -/
theorem messages_bear (run : (api partition).Reach R.Ok migrated p) :
    ∀ m ∈ p.shared.kafka,
      Bears p m.value ∧ m.headers.traceId = some (m.value.traceId.getD "") := by
  induction run with
  | refl => exact fun _ h => nomatch h
  | @step q q' a before ok st ih =>
    have later : ∀ {payload}, Bears q payload → Bears q' payload := fun bears =>
      bears.later before (.step .refl ok st)
    have same : q'.shared.kafka = q.shared.kafka → ∀ m ∈ q'.shared.kafka,
        Bears q' m.value ∧ m.headers.traceId = some (m.value.traceId.getD "") := by
      intro same m hm
      obtain ⟨bears, header⟩ := ih m (same ▸ hm)
      exact ⟨later bears, header⟩
    cases Machine.steps_of_step st with
    | @start t j => exact same (congrArg (·.kafka) (settle_shared t j q.shared _))
    | kill => exact same rfl
    | @env x s happened =>
      refine same ?_
      cases x with
      | tick d => cases Option.some.inj happened; rfl
      | abortTx t => cases Option.some.inj happened; exact abort_kafka t _
    | @step t c j e k s r live answered =>
      have shared : (Machine.put q t ((api partition).settle t j s (k r))).shared = s :=
        settle_shared t j s _
      rw [shared] at same ⊢
      rcases touch_kafka (exec_touch answered) with kept | ⟨batch, accepted, rfl, sub, more⟩
      · exact same kept
      · intro m hm
        rcases List.mem_append.mp (more ▸ hm) with old | new
        · obtain ⟨bears, header⟩ := ih m old
          exact ⟨later bears, header⟩
        · obtain ⟨entries, history⟩ := Machine.History.of_reach before
          have here : Sending R t batch q.shared := Logic.Sound.here (api_sound before) live
          obtain ⟨bears, header⟩ := sent_bears history live here (sub.subset new)
          exact ⟨later bears, header⟩

theorem Bears.own {payload : BookingConfirmedPayload} (h : Bears p payload) (wf : WF p.shared)
    (job : (p.slot t).job = some (.book config eventId dto context))
    (issued : (payload.bookingId, t) ∈ p.shared.issued) : payload.traceId = context.traceId := by
  obtain ⟨t', config', eventId', dto', context', job', issued', same⟩ := h
  cases GeneratedKeys.owner_unique wf.once issued issued'
  cases job.symm.trans job'
  exact same

/-- The ids of a request. Its response, the outbox rows and the messages about its booking have the
id that the middleware has resolved, and both ids are clean. The log lines have it too if and only
if the middleware runs first, or the headers name a usable id, or the same uuid is drawn twice. -/
theorem trace_ids (run : (api partition).Reach R.Ok migrated p) (order : Order)
    (logDraw draw : Draw) (headers : Headers) :
    ∃ id traceId, (receive order logDraw draw headers).id = some id ∧
      (receive order logDraw draw headers).traceId = some traceId ∧
      (receive order logDraw draw headers).responseHeader = some traceId ∧
      Clean id ∧ Clean traceId ∧
      (∀ t config eventId dto key, (p.slot t).job =
          some (create config eventId dto (receive order logDraw draw headers) key) →
        (∀ r ∈ p.shared.outbox.committed, (r.payload.bookingId, t) ∈ p.shared.issued →
          r.payload.traceId = some traceId) ∧
        ∀ m ∈ p.shared.kafka, (m.value.bookingId, t) ∈ p.shared.issued →
          m.value.traceId = some traceId ∧ m.headers.traceId = some traceId) ∧
      (id = traceId ↔ order = .middleware ∨ (candidate headers).any usable = true ∨
        randomUUID logDraw = randomUUID draw) := by
  obtain ⟨id, traceId, logged, stored, echoed, clean, clean', agree⟩ :=
    receive_ids order logDraw draw headers
  refine ⟨id, traceId, logged, stored, echoed, clean, clean', ?_, agree⟩
  intro t config eventId dto key job
  have wf := (api_sound run).inv.wf
  constructor
  · intro r hr issued
    exact ((rows_bear run r hr).own wf job issued).trans stored
  · intro m hm issued
    obtain ⟨bears, header⟩ := messages_bear run m hm
    have value := (bears.own wf job issued).trans stored
    rw [value] at header
    exact ⟨value, header⟩

/- One booking that is published directly. -/
def tracedBooking (request : Request) : List (Act Job Choice Ext) :=
  [.start 0 (.create (.checked "show" "hall" 1 0 "2026-12-01T12:00:00Z" passed)),
    .step 0 (.uuid "e"),
    .start 1 (create { outbox := { directPublishMode := true } } "e"
      (.checked "user-1" 1 passed) request none),
    .step 1 .ok, .step 1 .ok, .step 1 .ok, .step 1 (.uuid "b"), .step 1 .ok, .step 1 .ok,
    .step 1 .ok, .step 1 .ok]

theorem trace_ids_published : ∃ p : ApiPool,
    p.shared.kafka.map (·.headers.messageId) = [some "b"] ∧
    ∃ id traceId, (receive .middleware (fun _ => 0) (fun _ => 1) fun _ => none).id = some id ∧
      (receive .middleware (fun _ => 0) (fun _ => 1) fun _ => none).traceId = some traceId ∧
      Clean id ∧ id = traceId ∧
      ∀ m ∈ p.shared.kafka, (m.value.bookingId, 1) ∈ p.shared.issued →
        m.headers.traceId = some traceId := by
  let request := receive .middleware (fun _ => 0) (fun _ => 1) fun _ => none
  have replay : (((api fun _ _ => 0).run migrated (tracedBooking request)).map fun p =>
      ((p.slot 1).job, p.shared.kafka.map (·.headers.messageId))) =
        some (some (create { outbox := { directPublishMode := true } } "e"
          (.checked "user-1" 1 passed) request none), [some "b"]) := by rfl
  obtain ⟨p, hp, seen⟩ := Option.map_eq_some_iff.mp replay
  obtain ⟨job, sent⟩ := Prod.mk.inj seen
  have run : (api fun _ _ => 0).Reach everything.Ok migrated p := any_run hp fun _ _ _ => trivial
  obtain ⟨id, traceId, logged, stored, -, clean, -, forwarded, agree⟩ :=
    trace_ids run .middleware (fun _ => 0) (fun _ => 1) fun _ => none
  refine ⟨p, sent, id, traceId, logged, stored, clean, agree.mpr (.inl rfl), ?_⟩
  intro m mem issued
  exact ((forwarded 1 _ _ _ _ job).2 m mem issued).2

/- Two different uuids for a request without headers. -/
theorem logged_apart : ¬ ∀ order logDraw draw headers,
    (receive order logDraw draw headers).id = (receive order logDraw draw headers).traceId := by
  intro claim
  have same := claim .logger (fun _ => 0) (fun _ => 1) fun _ => none
  have uuids : randomUUID (fun _ => 0) = randomUUID (fun _ => 1) := Option.some.inj same
  have chars := congrArg String.toList uuids
  simp only [randomUUID, String.toList_ofList] at chars
  exact absurd chars (by decide)

end Overbook.Trace
