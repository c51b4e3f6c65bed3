import Overbook.Async.Soundness
import Overbook.Bookings.Service
import Overbook.Store.Answers
import Overbook.Store.Frame

/-! Where each statement of the services stands. What a transaction holds when it commits, which
rows a drain hands to the producer, which rows it rewrites: these facts are asserted once, at the
awaits, and every result about the tables starts from them. -/
namespace Overbook

open Async Prog ReadCommitted Kafka Store

abbrev ApiPool := Pool Store Job Effect Effect.Answer Err Response

/-- The runs that a result is about: the jobs that may start, the answers that may come, and
whether processes die and connections are lost. -/
structure Regime where
  allowed : Job → Prop
  answers : Tid → Store → Effect → Choice → Prop
  crashes : Prop

def Regime.Ok (R : Regime) (p : ApiPool) : Act Job Choice Ext → Prop
  | .start _ j => R.allowed j
  | .step t c => ∀ j e k, p.slot t = .live j e k → R.answers t p.shared e c
  | .kill _ => R.crashes
  | .env (.abortTx _) => R.crashes
  | .env (.tick _) => True

def Regime.any (allowed : Job → Prop) : Regime := ⟨allowed, fun _ _ _ _ => True, True⟩

/-- What the open transaction of `t` consists of: the rows it inserts, the event it may have
locked, and the outbox rows that its queue query has returned. -/
structure Owns (t : Tid) (bookings : List BookingRow) (outbox : List OutboxRow)
    (event : Option Uuid) (rows : List OutboxRow) (s : Store) : Prop where
  bookings : (s.tx t).bookings = bookings
  outbox : (s.tx t).outbox = outbox
  events : ∀ id, s.heldEvent t id = true → event = some id
  selected : (s.tx t).selected = rows.map (·.id)
  held : ∀ c ∈ s.outbox.held t, c.committed ∈ rows
  picked : ∀ r ∈ rows, ∃ c ∈ s.outbox.held t, c.committed = r
  pending : ∀ r ∈ rows, r.status = .pending

abbrev Clean (t : Tid) : Store → Prop := Owns t [] [] none []

def taken (quantity : Nat) (row : EventRow) : EventRow :=
  { row with availableSeats := row.availableSeats - quantity, version := row.version + 1 }

/-- The two safe strategies hold the seat row, with exactly their own seats taken off it. -/
def Taken (strategy : BookingLockStrategy) (eventId : Uuid) (quantity : Nat) (t : Tid)
    (s : Store) : Prop :=
  strategy ≠ .none → ∃ c, s.events eventId = some c ∧ c.heldBy t = true ∧
    c.view t = taken quantity c.committed ∧ (quantity : Int) ≤ c.committed.availableSeats

/-- The outbox row that announces a booking. -/
structure Announces (topic : String) (m : OutboxRow) (b : BookingRow) : Prop where
  aggregateType : m.aggregateType = "booking"
  aggregateId : m.aggregateId = b.id
  eventType : m.eventType = bookingConfirmed
  topic : m.topic = topic
  messageKey : m.messageKey = b.eventId
  payload : ∃ eventName traceId, m.payload = payloadOf b eventName traceId
  pending : m.status = .pending

structure BookingFor (eventId : Uuid) (dto : CreateBookingDto) (context : BookingContext)
    (b : BookingRow) : Prop where
  eventId : b.eventId = eventId
  userId : b.userId = dto.userId
  quantity : b.quantity = dto.quantity
  status : b.status = .confirmed
  idempotencyKey : b.idempotencyKey = context.idempotencyKey

def announced (s : Store) : List Uuid := s.outbox.committed.map (·.payload.bookingId)

/-- The tables are well formed, and the outbox announces committed bookings, none of them twice. -/
structure Consistent (s : Store) : Prop where
  wf : WF s
  announced : (announced s).Sublist (s.bookings.map (·.id))

/-- What no step ever takes back; a booking that is committed without an outbox row never
gets one. -/
structure Extends (s s' : Store) : Prop where
  grows : Grows s s'
  unannounced : ∀ b ∈ s.bookings, b.id ∉ announced s → b.id ∉ announced s'

theorem Extends.refl (s : Store) : Extends s s := ⟨.refl s, fun _ _ h => h⟩

theorem Extends.trans {s s' s'' : Store} (h : Extends s s') (h' : Extends s' s'') :
    Extends s s'' := by
  constructor
  · exact h.grows.trans h'.grows
  · intro b hb none
    exact h'.unannounced b (h.grows.bookings.subset hb) (h.unannounced b hb none)

theorem announced_of_eq {s s' : Store} (h : s'.outbox.committed = s.outbox.committed) :
    announced s' = announced s := by rw [announced, h, announced]

theorem consistent_of_eq {s s' : Store} (h : Consistent s) (wf : WF s')
    (bookings : s'.bookings = s.bookings) (outbox : s'.outbox.committed = s.outbox.committed) :
    Consistent s' := by
  constructor
  · exact wf
  · rw [announced_of_eq outbox, bookings]
    exact h.announced

theorem extends_of_eq {s s' : Store} (grows : Grows s s')
    (outbox : s'.outbox.committed = s.outbox.committed) : Extends s s' := by
  constructor
  · exact grows
  · intro b _ none
    rwa [announced_of_eq outbox]

variable (R : Regime)

def Regime.Fails : Prop := ∃ t s e c, R.answers t s e c ∧ Failing e c

/-- The answer that the queue query has given to `t`, in an earlier state. -/
def Asked (t : Tid) (rows : List OutboxRow) (s : Store) : Prop :=
  ∃ s₀ limit, WF s₀ ∧ Grows s₀ s ∧ R.answers t s₀ (.selectPending limit) (.rows rows) ∧
    Selects limit ((s₀.outbox.filter (s₀.eligible t)).map (·.committed)) rows

/-- A transaction at its COMMIT. -/
inductive Ready (t : Tid) (s : Store) : Prop
  | book (config : AppConfiguration) (eventId : Uuid) (dto : CreateBookingDto)
      (context : BookingContext) (b : BookingRow) (outbox : List OutboxRow) :
      R.allowed (.book config eventId dto context) → BookingFor eventId dto context b →
      Owns t [b] outbox (some eventId) [] s →
      Taken config.booking.lockStrategy eventId dto.quantity t s →
      (config.outbox.enqueues = true →
        ∃ m, outbox = [m] ∧ Announces config.kafka.topics.booking m b) →
      (config.outbox.enqueues = false → outbox = []) → Ready t s
  | drain (rows : List OutboxRow) : Owns t [] [] none rows s →
      (R.Fails ∨ ∀ c ∈ s.outbox.held t, (c.view t).status = .published) → Ready t s

/-- An update of outbox rows: the mark after a publish, or the backoff after a failed one. -/
inductive Marking (t : Tid) (ids : List Uuid) (patch : OutboxPatch) (s : Store) : Prop
  | published (rows : List OutboxRow) : Owns t [] [] none rows s → ids = rows.map (·.id) →
      patch = publishedPatch → (∀ r ∈ rows, relayMessage r ∈ s.kafka) → Marking t ids patch s
  | failed (rows : List OutboxRow) (row : OutboxRow) (maxAttempts : Int) (error : Err)
      (now : Time) : Owns t [] [] none rows s → row ∈ rows → ids = [row.id] →
      patch = failedPatch maxAttempts error row now → R.Fails → Marking t ids patch s

/-- A fact about the transaction of `t`, which Postgres may have ended meanwhile. -/
structure During (t : Tid) (P : Store → Prop) (s : Store) : Prop where
  now : s.active t = true → P s
  still : ¬ R.crashes → s.active t = true

/- A throw in the middle of a transaction: a statement has failed, or no outbox row is held. -/
def Thrown (t : Tid) (s : Store) : Prop :=
  R.Fails ∨ During R t (fun s => s.outbox.held t = []) s

/-- What a part of a transaction leaves behind. -/
def Leaves {α : Type} (t : Tid) (P : α → Store → Prop) : Except Err α → Store → Prop
  | .ok a, s => P a s
  | .error _, s => Thrown R t s

/- What a whole call leaves behind; when it throws, nothing is known. -/
def Returns {α : Type} (P : α → Store → Prop) : Except Err α → Store → Prop
  | .ok a, s => P a s
  | .error _, _ => True

/-- A batch at the producer: what one drain has selected, or one committed booking. -/
inductive Sending (t : Tid) (batch : List (TopicMessages BookingConfirmedPayload))
    (s : Store) : Prop
  | relay (rows : List OutboxRow) : batch = byTopic (rows.map relayMessage) → Asked R t rows s →
      During R t (Owns t [] [] none rows) s → (∀ b ∈ s.batches, b.1 ≠ t) → Sending t batch s
  | direct (config : AppConfiguration) (eventId : Uuid) (dto : CreateBookingDto)
      (context : BookingContext) (b : BookingRow) (eventName : String) :
      R.allowed (.book config eventId dto context) → config.outbox.directPublishMode = true →
      b ∈ s.bookings → b.id ∉ announced s →
      batch = byTopic [directMessage config b eventName context.traceId] → Sending t batch s

/-- What holds wherever a task waits for the answer to `e`. -/
def At (t : Tid) (e : Effect) (s : Store) : Prop :=
  match e with
  | .insertEvent row => row.availableSeats = row.totalSeats ∧ 1 ≤ row.totalSeats
  | .commitTx => s.active t = true → Ready R t s
  | .rollbackTx => R.Fails ∨ (s.active t = true → s.outbox.held t = [])
  | .updateOutbox ids patch => s.active t = true → Marking R t ids patch s
  | .sendBatch batch => Sending R t batch s
  | _ => True

variable (partition : String → String → Nat)

/-- What task `t` may rely on while others run. -/
structure Relies (t : Tid) (s s' : Store) : Prop where
  frame : Frame t s s'
  active : ¬ R.crashes → s'.active t = s.active t
  tables : Extends s s'

def discipline : Logic (api partition) where
  Inv := Consistent
  Frame := Relies R
  Fresh := Fresh
  Here := At R
  Ok := R.answers
  refl t s := ⟨.refl t s, fun _ => rfl, .refl s⟩
  trans _ _ _ _ h h' := ⟨h.frame.trans h'.frame, fun n => (h'.active n).trans (h.active n),
    h.tables.trans h'.tables⟩
  fresh _ _ _ h f := fresh_frame h f.frame

def Steady (t : Tid) (J : Store → Prop) : Prop :=
  ∀ s s', J s → (discipline R partition).Frame t s s' → J s'

def Stable (t : Tid) (P : Store → Prop) : Prop :=
  ∀ s s', P s → Frame t s s' → s'.active t = true → P s'

variable {R partition} {t : Tid} {s s' : Store}

theorem owns_stable {bookings : List BookingRow} {outbox rows : List OutboxRow}
    {event : Option Uuid} : Stable t (Owns t bookings outbox event rows) := by
  intro s s' h f act
  have tx := f.tx act
  have held := f.outbox act
  refine ⟨tx ▸ h.bookings, tx ▸ h.outbox, fun id hid => ?_, tx ▸ h.selected, ?_, ?_, h.pending⟩
  · have same := f.events act id (.inr hid)
    refine h.events id ?_
    simpa only [heldEvent, same] using hid
  · rw [held]; exact h.held
  · rw [held]; exact h.picked

theorem taken_stable {strategy : BookingLockStrategy} {eventId : Uuid} {quantity : Nat} :
    Stable t (Taken strategy eventId quantity t) := by
  intro s s' h f act locked
  obtain ⟨c, row, held, rest⟩ := h locked
  have mine : s.heldEvent t eventId = true := by simp [heldEvent, row, held]
  exact ⟨c, (f.events act eventId (.inl mine)).trans row, held, rest⟩

theorem Stable.and {P P' : Store → Prop} (h : Stable t P) (h' : Stable t P') :
    Stable t fun s => P s ∧ P' s :=
  fun s s' hp f act => ⟨h s s' hp.1 f act, h' s s' hp.2 f act⟩

theorem grows_steady {P : Store → Prop} (h : ∀ s s', P s → Grows s s' → P s') :
    Steady R partition t P := fun s s' hp f => h s s' hp f.frame.grows

theorem extends_steady {P : Store → Prop} (h : ∀ s s', P s → Extends s s' → P s') :
    Steady R partition t P := fun s s' hp f => h s s' hp f.tables

theorem during_steady {P : Store → Prop} (h : Stable t P) : Steady R partition t (During R t P) := by
  intro s s' hp f
  refine ⟨fun act => ?_, fun n => (f.active n).trans (hp.still n)⟩
  have was : s.active t = true := (active_congr (f.frame.tx act)).symm.trans act
  exact h s s' (hp.now was) f.frame act

theorem unsent_steady : Steady R partition t fun s => ∀ b ∈ s.batches, b.1 ≠ t :=
  fun _ _ h f b hb ht => h b (f.frame.sends b hb ht) ht

theorem Steady.and {J J' : Store → Prop} (h : Steady R partition t J)
    (h' : Steady R partition t J') : Steady R partition t fun s => J s ∧ J' s :=
  fun s s' hj f => ⟨h s s' hj.1 f, h' s s' hj.2 f⟩

theorem true_steady : Steady R partition t fun _ => True := fun _ _ _ _ => trivial

theorem During.of {P : Store → Prop} (act : s.active t = true) (p : P s) : During R t P s :=
  ⟨fun _ => p, fun _ => act⟩

theorem asked_grows {rows : List OutboxRow} (h : Asked R t rows s) (g : Grows s s') :
    Asked R t rows s' := by
  obtain ⟨s₀, limit, wf, g₀, rest⟩ := h
  exact ⟨s₀, limit, wf, g₀.trans g, rest⟩

theorem ready_announces (h : Ready R t s) :
    ((s.tx t).outbox.map (·.payload.bookingId)).Sublist ((s.tx t).bookings.map (·.id)) := by
  cases h with
  | book config eventId dto context b outbox allowed booking owns seats on off =>
    rw [owns.bookings, owns.outbox]
    cases enqueues : config.outbox.enqueues with
    | true =>
      obtain ⟨m, rfl, row⟩ := on enqueues
      obtain ⟨eventName, traceId, payload⟩ := row.payload
      have same : m.payload.bookingId = b.id := by rw [payload]; rfl
      rw [List.map_singleton, List.map_singleton, same]
    | false => rw [off enqueues]; exact List.nil_sublist _
  | drain rows owns => rw [owns.bookings, owns.outbox]; exact List.Sublist.refl _

theorem commit_announced (wf : WF s) :
    announced (s.commitTx t) = announced s ++ (s.tx t).outbox.map (·.payload.bookingId) := by
  have ids : ∀ rows : List OutboxRow, rows.map (·.payload.bookingId) =
      (rows.map (·.envelope)).map (·.payload.bookingId) := by
    intro rows
    rw [List.map_map]
    rfl
  rw [announced, ids, commit_envelopes wf, List.map_append, ← ids, ← ids, announced]

theorem commit_consistent (inv : Consistent s) (ready : Ready R t s) :
    Consistent (s.commitTx t) ∧
      ∀ b ∈ s.bookings, b.id ∉ announced s → b.id ∉ announced (s.commitTx t) := by
  have wf := commit_wf inv.wf (t := t)
  have added := ready_announces ready
  have bookings : (s.commitTx t).bookings.map (·.id) =
      s.bookings.map (·.id) ++ (s.tx t).bookings.map (·.id) := List.map_append
  constructor
  · constructor
    · exact wf
    · rw [commit_announced inv.wf, bookings]
      exact inv.announced.append added
  · intro b hb none announces
    rw [commit_announced inv.wf] at announces
    rcases List.mem_append.mp announces with old | new
    · exact none old
    · -- the ids of the bookings that a COMMIT adds are new
      have nodup := bookings ▸ wf.bookings.nodup
      exact List.disjoint_of_nodup_append nodup (List.mem_map_of_mem hb) (added.subset new)

/-- Every answer keeps the tables consistent and leaves the other tasks alone. -/
theorem exec_consistent {e : Effect} {c : Choice} {r : Except Err e.Answer} (inv : Consistent s)
    (here : At R t e s) (h : exec partition t s e c = some (s', r)) :
    Consistent s' ∧ Extends s s' := by
  have touch := exec_touch h
  have grows := touch_grows inv.wf touch
  rcases touch_commits touch with ⟨rfl, act, rfl⟩ | ⟨bookings, outbox⟩
  · obtain ⟨consistent, unannounced⟩ := commit_consistent inv (here act)
    exact ⟨consistent, grows, unannounced⟩
  · exact ⟨consistent_of_eq inv (touch_wf inv.wf touch) bookings outbox, extends_of_eq grows outbox⟩

theorem exec_keeps {e : Effect} {c : Choice} {r : Except Err e.Answer} (inv : Consistent s)
    (here : At R t e s) (h : exec partition t s e c = some (s', r)) :
    (discipline R partition).Keeps t s s' := by
  have touch := exec_touch h
  obtain ⟨consistent, tables⟩ := exec_consistent inv here h
  refine ⟨consistent, fun t' ne => ⟨touch_frame inv.wf ne touch, fun _ => ?_, tables⟩⟩
  exact active_congr (touch_tx ne touch)

/-- The rule for one effect: what is known before it is steady, the assertion follows from it,
and the answer leads to what is known after it. -/
theorem ask_safe {e : Effect} {J : Store → Prop} {Q : Except Err e.Answer → Store → Prop}
    (hj : J s) (steady : Steady R partition t J) (here : ∀ s, WF s → J s → At R t e s)
    (next : ∀ s c s' r, Consistent s → J s → R.answers t s e c →
      exec partition t s e c = some (s', r) → Q r s') : (discipline R partition).Safe t (ask e) Q s := by
  apply Logic.Safe.await
  intro s₁ f inv
  have h₁ := steady s s₁ hj f
  have asserted := here s₁ inv.wf h₁
  refine ⟨asserted, fun c s₂ r ok he => ?_⟩
  have keeps := exec_keeps (R := R) inv asserted he
  exact ⟨keeps, next s₁ c s₂ r inv h₁ ok he⟩

/- Only a failure is answered with an error; an unreachable cache is not counted as one. -/
theorem failing_of_error {e : Effect} {c : Choice} {x : Err}
    (h : exec partition t s e c = some (s', .error x)) (ne : ∀ id, e ≠ .delCache id) :
    Failing e c := by
  cases e <;> cases c <;> first
    | trivial
    | exact absurd rfl (ne _)
    | (simp only [exec] at h; repeat' split at h) <;> cases h

theorem fails_of_error {e : Effect} {c : Choice} {x : Err} (answers : R.answers t s e c)
    (h : exec partition t s e c = some (s', .error x)) (ne : ∀ id, e ≠ .delCache id) :
    R.Fails := ⟨t, s, e, c, answers, failing_of_error h ne⟩

/-- The rule for an effect within a transaction, and for what follows it. -/
theorem ask_bind {β : Type} {e : Effect} {f : e.Answer → Service β} {J : Store → Prop}
    {Q : β → Store → Prop} (hj : J s) (steady : Steady R partition t J)
    (here : ∀ s, WF s → J s → At R t e s)
    (next : ∀ s c s' a, Consistent s → J s → R.answers t s e c →
      exec partition t s e c = some (s', .ok a) →
      (discipline R partition).Safe t (f a) (Leaves R t Q) s')
    (ne : ∀ id, e ≠ .delCache id := by intro _ h; cases h) :
    (discipline R partition).Safe t (ask e >>= f) (Leaves R t Q) s := by
  apply Logic.Safe.bind
  refine ask_safe hj steady here fun s₁ c s₂ r inv h₁ answers he => ?_
  cases r with
  | ok a => exact next s₁ c s₂ a inv h₁ answers he
  | error x => exact .inl (fails_of_error answers he ne)

theorem leaves_bind {α β : Type} {p : Service α} {f : α → Service β} {P : α → Store → Prop}
    {Q : β → Store → Prop} (h : (discipline R partition).Safe t p (Leaves R t P) s)
    (rest : ∀ a s, P a s → (discipline R partition).Safe t (f a) (Leaves R t Q) s) :
    (discipline R partition).Safe t (p >>= f) (Leaves R t Q) s := by
  apply Logic.Safe.bind
  refine h.mono fun r s' hr => ?_
  cases r with
  | ok a => exact rest a s' hr
  | error x => exact hr

theorem Owns.none_held {bookings : List BookingRow} {outbox : List OutboxRow}
    {event : Option Uuid} (h : Owns t bookings outbox event [] s) : s.outbox.held t = [] :=
  List.eq_nil_iff_forall_not_mem.mpr fun c hc => List.not_mem_nil (h.held c hc)

theorem During.thrown {bookings : List BookingRow} {outbox : List OutboxRow}
    {event : Option Uuid} (h : During R t (Owns t bookings outbox event []) s) : Thrown R t s :=
  .inr ⟨fun act => (h.now act).none_held, h.still⟩

theorem thrown_steady : Steady R partition t (Thrown R t) := by
  intro s s' h f
  refine h.imp_right fun h => ?_
  refine during_steady (fun s s' none f act => ?_) s s' h f
  rw [f.outbox act]
  exact none

def Neutral : Effect → Prop
  | .insertEvent _ => False
  | .commitTx => False
  | .rollbackTx => False
  | .updateOutbox .. => False
  | .sendBatch _ => False
  | _ => True

theorem neutral_at {e : Effect} (h : Neutral e) (s : Store) : At R t e s := by
  cases e <;> first | exact h.elim | trivial

/-- Neutral code keeps whatever growing tables keep. -/
theorem neutral_safe {α : Type} {p : Service α} {J : Store → Prop} (only : p.Only Neutral)
    (keeps : ∀ s s', J s → Extends s s' → J s') (hj : J s) :
    (discipline R partition).Safe t p (fun _ => J) s := by
  refine Logic.Safe.of_only only (fun s s' h f _ => extends_steady keeps s s' h f) ?_ hj
  intro e he s inv h
  have here := neutral_at (R := R) (t := t) he s
  refine ⟨here, fun c s' r _ hx => ⟨exec_keeps inv here hx, ?_⟩⟩
  exact keeps s s' h (exec_consistent inv here hx).2

/-- What an aborted call still does is neutral. -/
theorem neutral_end {α : Type} {p : Service α} {Q : Except Err α → Store → Prop}
    (only : p.Only Neutral) (q : ∀ r s, Q r s) : (discipline R partition).Safe t p Q s :=
  (neutral_safe (J := fun _ => True) only (fun _ _ _ _ => trivial) trivial).mono fun r s' _ => q r s'

/-- `BEGIN` opens a transaction that owns nothing. -/
theorem begin_clean {c : Choice} {u : Unit} (wf : WF s)
    (h : exec partition t s .beginTx c = some (s', .ok u)) : s'.active t = true ∧ Clean t s' := by
  obtain ⟨idle, rfl⟩ := begin_ok h
  have self : (s.beginTx t).tx t = { status := .active, startedAt := s.clock } := setTx_self ..
  refine ⟨active_iff.mpr (by rw [self]), by rw [self], by rw [self], fun id held => ?_,
    by rw [self]; rfl, fun c hc => ?_, fun _ hr => (nomatch hr),
    fun _ hr => nomatch hr⟩
  · have none := wf.quietEvents t idle id
    exact absurd (none.symm.trans held) Bool.false_ne_true
  · have none : (s.beginTx t).outbox.held t = [] := wf.quietOutbox t idle
    rw [none] at hc
    cases hc

/-- The rule for a transaction: `run` starts clean and ends ready to commit. What it leaves,
and what the caller knew, is there when the COMMIT has taken effect. -/
theorem transaction_safe {α : Type} {run : Service α} {J : Store → Prop} {P Q : α → Store → Prop}
    (hj : J s) (steady : Steady R partition t J)
    (opened : ∀ s c s', J s → exec partition t s .beginTx c = some (s', .ok ()) → J s')
    (body : ∀ s, J s → During R t (Clean t) s →
      (discipline R partition).Safe t run (Leaves R t fun a => During R t (P a)) s)
    (stable : ∀ a, Stable t (P a)) (ready : ∀ a s, P a s → Ready R t s)
    (after : ∀ a s, P a s → Consistent s → s.active t = true → Q a (s.commitTx t)) :
    (discipline R partition).Safe t (transaction run) (Returns Q) s := by
  unfold transaction
  apply Logic.Safe.handle
  have undo : ∀ (x : Err) s, Thrown R t s → (discipline R partition).Safe t
      (do tryCatch (ask .rollbackTx) fun _ => pure (); throw x : Service α) (Returns Q) s := by
    intro x s h
    apply Logic.Safe.bind
    apply Logic.Safe.handle
    refine ask_safe h thrown_steady (fun s _ h => h.imp_right fun h => h.now) ?_
    intro s₁ c s₂ r _ _ _ _
    cases r <;> trivial
  suffices whole : (discipline R partition).Safe t
      (do ask .beginTx; let result ← run; ask .commitTx; pure result)
      (Leaves R t Q) s by
    refine whole.mono fun r s' hr => ?_
    cases r with
    | ok a => exact hr
    | error x => exact undo x s' hr
  refine ask_bind hj steady (fun _ _ _ => by trivial) fun s₁ c s₂ _ inv h₁ _ he => ?_
  obtain ⟨act, clean⟩ := begin_clean inv.wf he
  refine leaves_bind (body s₂ (opened s₁ c s₂ h₁ he) (.of act clean)) fun a s₃ h₃ => ?_
  refine ask_bind h₃ (during_steady (stable a)) (fun s _ h act => ready a s (h.now act)) ?_
  intro s₄ c s₅ _ inv h₄ _ he
  obtain ⟨act, rfl⟩ := commit_ok he
  exact after a s₄ (h₄.now act) inv act

end Overbook
