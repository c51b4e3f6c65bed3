import Overbook.Notifications.Claims

/-! What every handler keeps to, and what it has established when `onMessage` resolves, under a
regime of answers, messages, kills and shutdowns. -/
namespace Overbook.Notifications

open Async Prog Kafka OneUse

/-- The runs under study: how effects are answered, which messages are produced, in which effects
handlers may be killed, and whether replicas are shut down. -/
structure Regime where
  answers : Effect → Choice → Prop := fun _ _ => True
  messages : Origin → String → Body → Prop := fun _ _ _ => True
  kills : Effect → Prop := fun _ => True
  shutdowns : Prop := True

def Regime.Ok (R : Regime) (p : ConsumerPool) : Act Job Choice Ext → Prop
  | .start .. => True
  | .step t c => ∀ j e k, p.slot t = .live j e k → R.answers e c
  | .kill t => ∀ j e k, p.slot t = .live j e k → R.kills e
  | .env (.tick _) => True
  | .env (.produce topic partition key value headers) =>
    let record := p.shared.produced topic partition key value headers
    R.messages record.origin record.messageId record.body
  | .env (.onApplicationShutdown _) => R.shutdowns

/-- No handler leaves a claim behind: an insert does not take effect behind its back, a release
does not fail, and it does not die in between. -/
structure Regime.Tidy (R : Regime) : Prop where
  insert : ∀ row, ¬ R.answers (.insertClaim row) .lostReply
  delete : ∀ messageId consumerGroup, ¬ R.answers (.deleteClaim messageId consumerGroup) .fail
  delivering : ∀ message, ¬ R.kills (.deliver message)
  deleting : ∀ messageId consumerGroup, ¬ R.kills (.deleteClaim messageId consumerGroup)

/- A dead letter is always stored, even where the reply is lost. -/
def Regime.Posts (R : Regime) : Prop :=
  ∀ batch m letter, sent batch = [m] → m.value = .deadLetter letter →
    ¬ R.answers (.sendBatch batch) .fail

/-- Every claim that `t` holds has been used. -/
def Settled (group : String) (t : Tid) (s : Inbox) : Prop :=
  ∀ id, (rightOn group id s).holder = some t → t ∈ (rightOn group id s).users

def Quiet (group : String) (t : Tid) (s : Inbox) : Effect → Prop
  | .deliver message => ∀ id, (rightOn group id s).holder = some t → id = message.messageId
  | .deleteClaim messageId _ => ∀ id, (rightOn group id s).holder = some t → id = messageId
  | _ => Settled group t s

/-- Every message in the log and every delivery is of the regime, and each right is used once. -/
structure Sane (R : Regime) (group : String) (s : Inbox) : Prop where
  once : ∀ id, (rightOn group id s).Once
  messages : ∀ r ∈ s.log, R.messages r.origin r.messageId r.body
  delivered : ∀ d ∈ s.delivered, R.messages d.origin d.message.messageId (.json d.message.payload)
  consumed : ∀ i ∈ s.consumed, i < s.log.length

structure Undisturbed (group : String) (t : Tid) (s s' : Inbox) : Prop where
  rights : ∀ id, (rightOn group id s).Undisturbed t (rightOn group id s')
  handling : s'.handling t = s.handling t
  log : s.log <+: s'.log

structure Idle (R : Regime) (group : String) (t : Tid) (s : Inbox) : Prop where
  unused : ∀ id, t ∉ (rightOn group id s).users
  free : R.Tidy → ∀ id, (rightOn group id s).holder ≠ some t

variable {R : Regime} {group id : String} {t t' : Tid} {s s' s'' : Inbox}

theorem Undisturbed.refl (group : String) (t : Tid) (s : Inbox) : Undisturbed group t s s :=
  ⟨fun _ => .refl t _, rfl, List.prefix_rfl⟩

theorem Undisturbed.trans (h : Undisturbed group t s s') (h' : Undisturbed group t s' s'') :
    Undisturbed group t s s'' :=
  ⟨fun id => (h.rights id).trans (h'.rights id), h'.handling.trans h.handling, h.log.trans h'.log⟩

theorem Settled.undisturbed (h : Settled group t s) (u : Undisturbed group t s s') :
    Settled group t s' := by
  intro id holds
  have used := h id ((u.rights id).holder.mp holds)
  exact (u.rights id).users.mpr used

theorem Idle.undisturbed (h : Idle R group t s) (u : Undisturbed group t s s') :
    Idle R group t s' :=
  ⟨fun id used => h.unused id ((u.rights id).users.mp used),
    fun tidy id holds => h.free tidy id ((u.rights id).holder.mp holds)⟩

theorem Idle.settled (h : Idle R group t s) (tidy : R.Tidy) : Settled group t s :=
  fun id holds => absurd holds (h.free tidy id)

theorem prefix_getElem? {α : Type} {as bs : List α} (h : as <+: bs) {i : Nat} {a : α}
    (there : as[i]? = some a) : bs[i]? = some a := by
  obtain ⟨rest, rfl⟩ := h
  have lt : i < as.length := (List.getElem?_eq_some_iff.mp there).1
  rw [List.getElem?_append_left lt]
  exact there

def discipline (config : AppConfiguration) (approx : Rat → Rat) (R : Regime) :
    Logic (consumers config approx) where
  Inv := Sane R config.kafka.consumerGroup
  Frame := Undisturbed config.kafka.consumerGroup
  Fresh := Idle R config.kafka.consumerGroup
  Here t e s := Asserts config.kafka.consumerGroup t s e ∧
    (R.Tidy → Quiet config.kafka.consumerGroup t s e)
  Ok _ _ e c := R.answers e c
  refl t s := .refl _ t s
  trans _ _ _ _ h h' := h.trans h'
  fresh _ _ _ h u := h.undisturbed u
  Ended t s := R.Tidy → Settled config.kafka.consumerGroup t s
  ended _ _ _ h u tidy := (h tidy).undisturbed u

theorem accept_undisturbed (t t' : Tid) (partition : Nat) (s : Inbox) (m : OutgoingMessage Value) :
    Undisturbed group t' s (s.accept t partition m) := by
  constructor
  · intro id
    rw [rightOn_accept]
    exact .refl t' _
  · unfold Inbox.accept
    split <;> rfl
  · unfold Inbox.accept
    split
    · exact List.prefix_append ..
    · exact List.prefix_rfl

theorem moves_undisturbed {e : Effect} (here : Asserts group t s e) (moves : Moves t s e s')
    (other : t' ≠ t) : Undisturbed group t' s s' := by
  have rights := fun id => (moves_right here moves id).undisturbed other
  cases moves with
  | same => exact .refl group t' s
  | fetched there => exact ⟨rights, Function.update_of_ne other .., List.prefix_rfl⟩
  | stopped stopping => exact ⟨rights, rfl, List.prefix_rfl⟩
  | inserted row =>
    constructor
    · exact rights
    · unfold Inbox.insertClaim
      split <;> rfl
    · unfold Inbox.insertClaim
      split <;> exact List.prefix_rfl
  | delivered message => exact ⟨rights, rfl, List.prefix_rfl⟩
  | deleted messageId consumerGroup => exact ⟨rights, rfl, List.prefix_rfl⟩
  | accepted partition batch =>
    obtain ⟨m, one, _⟩ := here
    rw [acceptAll_one one]
    exact accept_undisturbed t t' partition s m

theorem moves_sane {e : Effect} (sane : Sane R group s) (here : Asserts group t s e)
    (moves : Moves t s e s') : Sane R group s' := by
  have once := fun id => (moves_right here moves id).once (sane.once id)
  cases moves with
  | same => exact sane
  | fetched there => exact ⟨once, sane.messages, sane.delivered, sane.consumed⟩
  | stopped stopping => exact ⟨once, sane.messages, sane.delivered, sane.consumed⟩
  | deleted messageId consumerGroup => exact ⟨once, sane.messages, sane.delivered, sane.consumed⟩
  | inserted row =>
    have same : (s.insertClaim t row).log = s.log ∧ (s.insertClaim t row).delivered = s.delivered ∧
        (s.insertClaim t row).consumed = s.consumed := by
      unfold Inbox.insertClaim
      split <;> exact ⟨rfl, rfl, rfl⟩
    obtain ⟨log, delivered, consumed⟩ := same
    exact ⟨once, log ▸ sane.messages, delivered ▸ sane.delivered, by
      rw [log, consumed]; exact sane.consumed⟩
  | delivered message =>
    refine ⟨once, sane.messages, ?_, sane.consumed⟩
    intro d hd
    rcases List.mem_append.mp hd with old | new
    · exact sane.delivered d old
    · obtain ⟨_, record, handles, messageId, body⟩ := here
      obtain rfl := List.mem_singleton.mp new
      have origin : s.origin t = record.origin := handles.origin
      obtain ⟨i, _, there⟩ := handles
      have known := sane.messages record (List.mem_of_getElem? there)
      rwa [messageId, body, ← origin] at known
  | accepted partition batch =>
    obtain ⟨m, one, value⟩ := here
    rw [acceptAll_one one] at once ⊢
    unfold Inbox.accept at once ⊢
    split
    · rename_i v json
      rw [json] at once
      refine ⟨once, ?_, sane.delivered, ?_⟩
      · intro r hr
        rcases List.mem_append.mp hr with old | new
        · exact sane.messages r old
        · obtain ⟨record, handles, messageId, body⟩ := value v json
          obtain rfl := List.mem_singleton.mp new
          have origin : s.origin t = record.origin := handles.origin
          obtain ⟨i, _, there⟩ := handles
          have known := sane.messages record (List.mem_of_getElem? there)
          have id : (s.copied t partition m v).messageId = record.messageId := by
            simp [Record.messageId, Inbox.copied, messageId]
          rw [id]
          rwa [body, ← origin] at known
      · intro i hi
        have lt := sane.consumed i hi
        rw [List.length_append]
        omega
    · rename_i letter json
      rw [json] at once
      exact ⟨once, sane.messages, sane.delivered, sane.consumed⟩

variable {config : AppConfiguration} {approx : Rat → Rat}

theorem ask_safe {e : Effect} {Q : Except Err e.Answer → Inbox → Prop}
    (here : ∀ s₁, Undisturbed config.kafka.consumerGroup t s s₁ →
      Asserts config.kafka.consumerGroup t s₁ e ∧
        (R.Tidy → Quiet config.kafka.consumerGroup t s₁ e))
    (next : ∀ s₁ c s₂ r, Undisturbed config.kafka.consumerGroup t s s₁ →
      Sane R config.kafka.consumerGroup s₁ → R.answers e c →
      exec config.kafka.topics t s₁ e c = some (s₂, r) → Q r s₂) :
    (discipline config approx R).Safe t (ask e) Q s := by
  apply Logic.Safe.await
  intro s₁ frame sane
  have asserted := here s₁ frame
  constructor
  · exact asserted
  · intro c s₂ r answered he
    have moves := exec_moves he
    have keeps : (discipline config approx R).Keeps t s₁ s₂ :=
      ⟨moves_sane sane asserted.1 moves, fun _ other => moves_undisturbed asserted.1 moves other⟩
    exact ⟨keeps, next s₁ c s₂ r frame sane answered he⟩

/-- Handler `t` of job `j` has been handed `record` and has not claimed anything yet, or has
released what it had claimed. -/
structure Ready (R : Regime) (group : String) (t : Tid) (j : Job) (record : Record) (s : Inbox) :
    Prop where
  handling : s.handling t = some j.index
  there : s.log[j.index]? = some record
  idle : Idle R group t s

variable {j : Job} {record : Record}

theorem Ready.undisturbed (h : Ready R group t j record s) (u : Undisturbed group t s s') :
    Ready R group t j record s' :=
  ⟨u.handling.trans h.handling, prefix_getElem? u.log h.there, h.idle.undisturbed u⟩

theorem Ready.handles (h : Ready R group t j record s) : Handles t record s :=
  ⟨j.index, h.handling, h.there⟩

def Neutral : Effect → Prop
  | .waitUntilDue .. => True
  | .acquire _ => True
  | .random => True
  | .dateNow => True
  | _ => False

theorem neutral_safe {e : Effect} (neutral : Neutral e)
    (h : Ready R config.kafka.consumerGroup t j record s) :
    (discipline config approx R).Safe t (ask e)
      (fun _ => Ready R config.kafka.consumerGroup t j record) s := by
  apply ask_safe
  · intro s₁ frame
    have settled := (h.undisturbed frame).idle.settled
    cases e <;> first | exact neutral.elim | exact ⟨trivial, settled⟩
  · intro s₁ c s₂ r frame _ _ he
    have still := h.undisturbed frame
    have moves := exec_moves he
    cases e <;> first | exact neutral.elim | (cases moves; exact still)

/-- How a record that `onMessage` has resolved is accounted for. -/
inductive Outcome (config : AppConfiguration) (j : Job) (record : Record) (s : Inbox) : Prop where
  | sent {d : Delivery} (sent : d ∈ s.delivered) (origin : d.origin = record.origin)
  | dead {d : Dead} (dead : d ∈ s.dlq) (origin : d.origin = record.origin)
  | duplicate {row : Claimed}
      (claimed : s.processed (record.messageId, config.kafka.consumerGroup) = some row)
  | retried {i : Nat} {copy : Record} (there : s.log[i]? = some copy) (unconsumed : i ∉ s.consumed)
      (new : i ≠ j.index) (topic : copy.topic = config.kafka.topics.retry)
      (messageId : copy.messageId = record.messageId) (origin : copy.origin = record.origin)

structure Post (config : AppConfiguration) (R : Regime) (t : Tid) (j : Job)
    (result : Except Err Unit) (s : Inbox) : Prop where
  settled : R.Tidy → Settled config.kafka.consumerGroup t s
  resolved : result = .ok () → ∃ record, s.log[j.index]? = some record ∧
    (R.Posts → t ∈ s.stopped ∨ Outcome config j record s)

theorem post_error {error : Err} (idle : Idle R config.kafka.consumerGroup t s) :
    Post config R t j (.error error) s := ⟨idle.settled, nofun⟩

theorem publish_eq (m : OutgoingMessage Value) :
    publish m = ask (.sendBatch [⟨m.topic, [m]⟩]) := rfl

theorem sent_one (m : OutgoingMessage Value) :
    sent ([⟨m.topic, [m]⟩] : List (TopicMessages Value)) = [m] := rfl

inductive Published (R : Regime) (t : Tid) (m : OutgoingMessage Value) (s : Inbox) :
    Except Err Unit → Inbox → Prop where
  | stored (r : Except Err Unit) (partition : Nat) : Published R t m s r (s.accept t partition m)
  | refused (allowed : R.answers (.sendBatch [⟨m.topic, [m]⟩]) .fail) :
      Published R t m s (.error lost) s

theorem publish_safe {m : OutgoingMessage Value}
    (copies : ∀ value, m.value = .json value →
      m.headers.messageId = some record.messageId ∧ record.body = .json value)
    (h : Ready R config.kafka.consumerGroup t j record s) :
    (discipline config approx R).Safe t (publish m)
      (fun r s' => ∃ s₁, Sane R config.kafka.consumerGroup s₁ ∧
        Ready R config.kafka.consumerGroup t j record s₁ ∧ Published R t m s₁ r s') s := by
  rw [publish_eq]
  apply ask_safe
  · intro s₁ frame
    have still := h.undisturbed frame
    constructor
    · exact ⟨m, sent_one m, fun value json => ⟨record, still.handles, copies value json⟩⟩
    · exact still.idle.settled
  · intro s₁ c s₂ r frame sane answered he
    refine ⟨s₁, sane, h.undisturbed frame, ?_⟩
    rcases sent_cases he with ⟨partition, rfl⟩ | ⟨rfl, rfl, rfl⟩
    · exact .stored r partition
    · exact .refused answered

theorem post_stored {m : OutgoingMessage Value} {partition : Nat}
    (h : Ready R config.kafka.consumerGroup t j record s)
    (outcome : Outcome config j record (s.accept t partition m)) :
    Post config R t j (.ok ()) (s.accept t partition m) := by
  have after := h.undisturbed (accept_undisturbed t t partition s m)
  constructor
  · exact after.idle.settled
  · exact fun _ => ⟨record, after.there, fun _ => .inr outcome⟩

theorem deadLetter_safe {message : Message} {attempts : Num} {reason : String}
    (h : Ready R config.kafka.consumerGroup t j record s) :
    (discipline config approx R).Safe t (deadLetter config message attempts reason)
      (Post config R t j) s := by
  apply Logic.Safe.bind
  apply (neutral_safe (by trivial) h).mono
  intro now s₁ ready
  cases now with
  | error error => exact post_error ready.idle
  | ok now =>
    apply Logic.Safe.handle
    apply (publish_safe (by rintro value ⟨⟩) ready).mono
    rintro r s₃ ⟨s₂, _, still, published⟩
    have post : Post config R t j (.ok ()) s₃ := by
      cases published with
      | stored r partition =>
        have origin : s₂.origin t = record.origin := still.handles.origin
        exact post_stored still (.dead (List.mem_append_right _ (List.mem_singleton_self _)) origin)
      | refused allowed =>
        refine ⟨still.idle.settled, fun _ => ⟨record, still.there, fun posts => ?_⟩⟩
        exact absurd allowed (posts _ _ _ (sent_one _) rfl)
    cases r with
    | ok u => exact post
    | error error => exact post

theorem schedule_safe {parsed : Json} {error : Err} (body : record.body = .json parsed)
    (h : Ready R config.kafka.consumerGroup t j record s) :
    (discipline config approx R).Safe t
      (scheduleRetryOrDeadLetter config approx record.message parsed error)
      (Post config R t j) s := by
  unfold scheduleRetryOrDeadLetter
  extract_lets attempts notifications
  split
  · exact deadLetter_safe h
  · apply Logic.Safe.bind
    apply Logic.Safe.bind
    apply (neutral_safe (by trivial) h).mono
    intro random s₁ ready
    cases random with
    | error error => exact post_error ready.idle
    | ok random =>
      apply Logic.Safe.bind
      apply (neutral_safe (by trivial) ready).mono
      intro now s₂ ready
      cases now with
      | error error => exact post_error ready.idle
      | ok now =>
        have copies : ∀ retryAt value,
            (retryMessage config record.message parsed attempts retryAt error).value = .json value →
            some record.messageId = some record.messageId ∧ record.body = .json value := by
          rintro retryAt value ⟨⟩
          exact ⟨rfl, body⟩
        apply (publish_safe (copies _) ready).mono
        rintro r s₄ ⟨s₃, sane, still, published⟩
        cases published with
        | refused allowed => exact post_error still.idle
        | stored r partition =>
          cases r with
          | error error =>
            exact post_error (still.undisturbed (accept_undisturbed t t partition s₃ _)).idle
          | ok u =>
            apply post_stored still
            have last : ∀ r : Record, (s₃.log ++ [r])[s₃.log.length]? = some r := by simp
            have here : j.index < s₃.log.length := (List.getElem?_eq_some_iff.mp still.there).1
            refine .retried (last _) ?_ (by omega) rfl rfl still.handles.origin
            intro consumed
            exact absurd (sane.consumed _ consumed) (Nat.lt_irrefl _)

/-- Handler `t` holds the claim on its record's message and has not delivered it. -/
structure Claiming (R : Regime) (group : String) (t : Tid) (j : Job) (record : Record)
    (s : Inbox) : Prop where
  handling : s.handling t = some j.index
  there : s.log[j.index]? = some record
  may : (rightOn group record.messageId s).MayUse t
  unused : ∀ id, t ∉ (rightOn group id s).users
  only : R.Tidy → ∀ id, (rightOn group id s).holder = some t → id = record.messageId

theorem Claiming.undisturbed (h : Claiming R group t j record s)
    (u : Undisturbed group t s s') : Claiming R group t j record s' where
  handling := u.handling.trans h.handling
  there := prefix_getElem? u.log h.there
  may := h.may.undisturbed (u.rights _)
  unused id used := h.unused id ((u.rights id).users.mp used)
  only tidy id holds := h.only tidy id ((u.rights id).holder.mp holds)

theorem Claiming.handles (h : Claiming R group t j record s) : Handles t record s :=
  ⟨j.index, h.handling, h.there⟩

theorem insertClaim_rest (t : Tid) (s : Inbox) (row : ProcessedMessage) :
    (s.insertClaim t row).handling = s.handling ∧ (s.insertClaim t row).log = s.log := by
  unfold Inbox.insertClaim
  split <;> exact ⟨rfl, rfl⟩

theorem insertClaim_users (t : Tid) (s : Inbox) {row : ProcessedMessage}
    (own : row.consumerGroup = group) :
    (rightOn group id (s.insertClaim t row)).users = (rightOn group id s).users := by
  rw [rightOn_insertClaim t s own]
  split <;> rfl

variable {row : ProcessedMessage}

theorem Ready.claiming (h : Ready R group t j record s) (own : row.consumerGroup = group)
    (same : row.messageId = record.messageId)
    (free : s.processed (record.messageId, group) = none) :
    Claiming R group t j record (s.insertClaim t row) := by
  obtain ⟨handling, log⟩ := insertClaim_rest t s row
  have unused : ∀ id, t ∉ (rightOn group id (s.insertClaim t row)).users := by
    intro id
    rw [insertClaim_users t s own]
    exact h.idle.unused id
  have holds : (rightOn group record.messageId (s.insertClaim t row)).holder = some t := by
    rw [rightOn_insertClaim t s own, if_pos ⟨same, free⟩]
  constructor
  · rw [handling]
    exact h.handling
  · rw [log]
    exact h.there
  · exact ⟨holds, unused _⟩
  · exact unused
  · intro tidy id held
    rw [rightOn_insertClaim t s own] at held
    split at held
    · rename_i won
      exact won.1.symm.trans same
    · exact absurd held (h.idle.free tidy id)

theorem Ready.unanswered (h : Ready R group t j record s) (own : row.consumerGroup = group)
    (untidy : ¬ R.Tidy) : Ready R group t j record (s.insertClaim t row) := by
  obtain ⟨handling, log⟩ := insertClaim_rest t s row
  constructor
  · rw [handling]
    exact h.handling
  · rw [log]
    exact h.there
  · constructor
    · intro id
      rw [insertClaim_users t s own]
      exact h.idle.unused id
    · exact fun tidy => absurd tidy untidy

theorem Claiming.released (h : Claiming R group t j record s) :
    Ready R group t j record (s.setClaim (record.messageId, group) none) := by
  constructor
  · exact h.handling
  · exact h.there
  · constructor
    · intro id
      rw [rightOn_setClaim]
      split <;> exact h.unused id
    · intro tidy id holds
      rw [rightOn_setClaim] at holds
      split at holds
      · cases holds
      · rename_i other
        exact other (h.only tidy id holds).symm

theorem Claiming.delivered (h : Claiming R config.kafka.consumerGroup t j record s)
    {message : IncomingNotification} (same : message.messageId = record.messageId) :
    Post config R t j (.ok ())
      { s with delivered := s.delivered ++ [⟨t, s.origin t, message⟩] } := by
  constructor
  · intro tidy id holds
    rw [rightOn_delivered] at holds ⊢
    split
    · exact List.mem_append_right _ (List.mem_singleton_self _)
    · rename_i other
      rw [if_neg other] at holds
      exact absurd (same.trans (h.only tidy id holds).symm) other
  · refine fun _ => ⟨record, h.there, fun _ => .inr ?_⟩
    exact .sent (List.mem_append_right _ (List.mem_singleton_self _)) h.handles.origin

def Attempted (config : AppConfiguration) (R : Regime) (t : Tid) (j : Job) (record : Record)
    (r : Except Err Handled) (s : Inbox) : Prop :=
  match r with
  | .ok _ => Post config R t j (.ok ()) s
  | .error _ => Ready R config.kafka.consumerGroup t j record s

theorem release_safe (error : Err) (h : Claiming R config.kafka.consumerGroup t j record s) :
    (discipline config approx R).Safe t
      (do
        tryCatch (ask (.deleteClaim record.messageId config.kafka.consumerGroup)) fun _ => pure ()
        throw error)
      (Attempted config R t j record) s := by
  apply Logic.Safe.bind
  apply Logic.Safe.handle
  apply ask_safe
  · intro s₁ frame
    have still := h.undisturbed frame
    exact ⟨⟨rfl, still.may⟩, still.only⟩
  · intro s₁ c s₂ r frame _ answered he
    have still := h.undisturbed frame
    have after : Ready R config.kafka.consumerGroup t j record s₂ := by
      rcases deleted_cases he with rfl | ⟨rfl, rfl⟩
      · exact still.released
      · have untidy : ¬ R.Tidy := fun tidy => tidy.delete _ _ answered
        exact ⟨still.handling, still.there, still.unused, fun tidy => absurd tidy untidy⟩
    cases r with
    | ok u => exact after
    | error error => exact after

theorem deliver_safe {eventType : String} {traceId : Option String} {parsed : Json}
    (body : record.body = .json parsed)
    (h : Claiming R config.kafka.consumerGroup t j record s) :
    (discipline config approx R).Safe t
      (tryCatch
        (do
          ask (.deliver ⟨record.messageId, eventType, traceId, parsed⟩)
          pure .sent)
        fun error => do
          tryCatch (ask (.deleteClaim record.messageId config.kafka.consumerGroup)) fun _ => pure ()
          throw error)
      (Attempted config R t j record) s := by
  apply Logic.Safe.handle
  apply Logic.Safe.bind
  apply ask_safe
  · intro s₁ frame
    have still := h.undisturbed frame
    exact ⟨⟨still.may, record, still.handles, rfl, body⟩, still.only⟩
  · intro s₁ c s₂ r frame _ _ he
    have still := h.undisturbed frame
    cases r with
    | ok u =>
      cases delivered_ok he
      exact still.delivered rfl
    | error error =>
      cases delivered_error he
      exact release_safe error still

theorem handle_safe {eventType : String} {traceId : Option String} {parsed : Json}
    (body : record.body = .json parsed)
    (h : Ready R config.kafka.consumerGroup t j record s) :
    (discipline config approx R).Safe t
      (handle config ⟨record.messageId, eventType, traceId, parsed⟩)
      (Attempted config R t j record) s := by
  apply Logic.Safe.bind
  apply ask_safe
  · intro s₁ frame
    have ready := h.undisturbed frame
    exact ⟨⟨rfl, record, ready.handles, rfl⟩, ready.idle.settled⟩
  · intro s₁ c s₂ r frame _ answered he
    have ready := h.undisturbed frame
    cases r with
    | error error =>
      rcases inserted_error he with ⟨rfl, rfl⟩ | rfl
      · exact ready.unanswered rfl fun tidy => tidy.insert _ answered
      · exact ready
    | ok won =>
      obtain ⟨rfl, rfl⟩ := inserted_ok he
      cases there : s₁.processed (record.messageId, config.kafka.consumerGroup) with
      | some claimed =>
        -- a copy of the message has been claimed before
        have lost : s₁.insertClaim t ⟨record.messageId, config.kafka.consumerGroup, eventType⟩ =
            { s₁ with skipped := s₁.skipped ++ [(t, claimed)] } := by
          simp only [Inbox.insertClaim, there]
        simp only [Option.isNone_some, Bool.false_eq_true, if_false, lost]
        constructor
        · exact ready.idle.settled
        · exact fun _ => ⟨record, ready.there, fun _ => .inr (.duplicate there)⟩
      | none =>
        simp only [Option.isNone_none, if_true]
        exact deliver_safe body (ready.claiming rfl rfl there)

theorem process_safe {replica : Replica} (h : Ready R config.kafka.consumerGroup t j record s) :
    (discipline config approx R).Safe t (process config approx replica record.message)
      (Post config R t j) s := by
  unfold process
  split
  · exact deadLetter_safe h
  · rename_i parsed body
    apply Logic.Safe.bind
    apply (neutral_safe (by trivial) h).mono
    intro r s₁ ready
    cases r with
    | error error => exact post_error ready.idle
    | ok u =>
      apply Logic.Safe.handle
      apply Logic.Safe.bind
      apply (handle_safe body ready).mono
      intro r s₂ attempted
      cases r with
      | ok handled => exact attempted
      | error error => exact schedule_safe body attempted

/- A handler that reads the flag as set resolves at once. -/
theorem unlessStopping_safe {replica : Replica} {rest : Consumer Unit}
    (next : ∀ s, Ready R config.kafka.consumerGroup t j record s →
      (discipline config approx R).Safe t rest (Post config R t j) s)
    (h : Ready R config.kafka.consumerGroup t j record s) :
    (discipline config approx R).Safe t (unlessStopping replica rest) (Post config R t j) s := by
  apply Logic.Safe.bind
  apply ask_safe
  · intro s₁ frame
    exact ⟨trivial, (h.undisturbed frame).idle.settled⟩
  · intro s₁ c s₂ r frame _ _ he
    have still := h.undisturbed frame
    have same : Undisturbed config.kafka.consumerGroup t s₁ s₂ := by
      cases exec_moves he with
      | same => exact .refl _ t s₁
      | stopped stopping => exact ⟨fun _ => .refl t _, rfl, List.prefix_rfl⟩
    have ready := still.undisturbed same
    cases r with
    | error error => exact post_error ready.idle
    | ok stopping =>
      obtain ⟨_, rfl⟩ := stopping_ok he
      cases stopping with
      | false => exact next _ ready
      | true =>
        have noted : t ∈ s₁.stopped ++ [t] := List.mem_append_right _ (List.mem_singleton_self t)
        constructor
        · exact ready.idle.settled
        · exact fun _ => ⟨record, ready.there, fun _ => .inl noted⟩

theorem onMessage_safe {replica : Replica} {isRetryTopic : Bool}
    (h : Ready R config.kafka.consumerGroup t j record s) :
    (discipline config approx R).Safe t (onMessage config approx replica isRetryTopic record)
      (Post config R t j) s := by
  apply unlessStopping_safe _ h
  intro s₁ ready
  cases isRetryTopic with
  | false => exact process_safe ready
  | true =>
    apply Logic.Safe.bind
    apply (neutral_safe (by trivial) ready).mono
    intro r s₂ ready
    cases r with
    | error error => exact post_error ready.idle
    | ok u => exact unlessStopping_safe (fun _ => process_safe) ready

theorem code_safe (j : Job) (idle : Idle R config.kafka.consumerGroup t s) :
    (discipline config approx R).Safe t (j.code config approx) (Post config R t j) s := by
  apply Logic.Safe.bind
  apply ask_safe
  · intro s₁ frame
    exact ⟨trivial, (idle.undisturbed frame).settled⟩
  · intro s₁ c s₂ r frame _ _ he
    have still := idle.undisturbed frame
    cases r with
    | error error =>
      have same : Idle R config.kafka.consumerGroup t s₂ := by
        cases exec_moves he with
        | same => exact still
        | fetched there => exact ⟨still.unused, still.free⟩
      exact post_error same
    | ok record =>
      obtain ⟨there, _, rfl⟩ := fetched_ok he
      apply onMessage_safe
      exact ⟨Function.update_self .., there, still.unused, still.free⟩

theorem undisturbed_of_rest (processed : s'.processed = s.processed)
    (delivered : s'.delivered = s.delivered) (handling : s'.handling = s.handling)
    (log : s.log <+: s'.log) (t : Tid) : Undisturbed group t s s' := by
  constructor
  · intro id
    have same : rightOn group id s' = rightOn group id s := by simp [rightOn, processed, delivered]
    rw [same]
    exact .refl t _
  · rw [handling]
  · exact log

theorem discipline_verified (config : AppConfiguration) (approx : Rat → Rat) (R : Regime) :
    Logic.Verified (discipline config approx R) R.Ok (Post config R) where
  allowed p t c j e k ok live := ok j e k live
  code p t j _ _ _ idle := code_safe j idle
  finish t j r s sane post := by
    cases r with
    | error error => exact ⟨sane, fun t' _ => .refl _ t' s⟩
    | ok u =>
      obtain ⟨record, there, _⟩ := post.resolved rfl
      have lt : j.index < s.log.length := (List.getElem?_eq_some_iff.mp there).1
      constructor
      · refine ⟨sane.once, sane.messages, sane.delivered, ?_⟩
        intro i hi
        rcases List.mem_append.mp hi with old | new
        · exact sane.consumed i old
        · rw [List.mem_singleton.mp new]
          exact lt
      · exact fun t' _ => ⟨fun _ => .refl t' _, rfl, List.prefix_rfl⟩
  ext p x s' ok sane st := by
    cases Option.some.inj st
    cases x with
    | tick d =>
      exact ⟨⟨sane.once, sane.messages, sane.delivered, sane.consumed⟩,
        undisturbed_of_rest rfl rfl rfl List.prefix_rfl⟩
    | onApplicationShutdown replica =>
      exact ⟨⟨sane.once, sane.messages, sane.delivered, sane.consumed⟩,
        undisturbed_of_rest rfl rfl rfl List.prefix_rfl⟩
    | produce topic partition key value headers =>
      constructor
      · refine ⟨sane.once, ?_, sane.delivered, ?_⟩
        · intro r hr
          rcases List.mem_append.mp hr with old | new
          · exact sane.messages r old
          · obtain rfl := List.mem_singleton.mp new
            exact ok
        · intro i hi
          exact Nat.lt_of_lt_of_le (sane.consumed i hi) (List.prefix_append ..).length_le
      · exact undisturbed_of_rest rfl rfl rfl (List.prefix_append ..)
  ended t j r s _ post := by
    cases r with
    | ok u => exact post.settled
    | error error => exact post.settled
  gone p t j e k ok live here := by
    intro tidy
    have killed : R.kills e := ok j e k live
    cases e with
    | deliver message => exact absurd killed (tidy.delivering message)
    | deleteClaim messageId consumerGroup => exact absurd killed (tidy.deleting messageId consumerGroup)
    | _ => exact here.2 tidy

/-- Consumers as they are deployed, before the first record. -/
def deployed : ConsumerPool := .initial .empty

theorem empty_sane (R : Regime) (group : String) : Sane R group .empty where
  once _ := .inl rfl
  messages _ h := absurd h List.not_mem_nil
  delivered _ h := absurd h List.not_mem_nil
  consumed _ h := absurd h List.not_mem_nil

theorem empty_idle (R : Regime) (group : String) (t : Tid) : Idle R group t .empty where
  unused _ := List.not_mem_nil
  free _ _ h := nomatch h

theorem consumers_sound {p : ConsumerPool} (run : (consumers config approx).Reach R.Ok deployed p) :
    Logic.Sound (discipline config approx R) (Post config R) p := by
  have start : Logic.Sound (discipline config approx R) (Post config R) deployed :=
    Logic.initial_sound (empty_sane R _) (empty_idle R _)
  exact Logic.reach_sound (discipline_verified config approx R) start run

def Sent (id : String) (s : Inbox) : Prop := ∃ d ∈ s.delivered, d.message.messageId = id

/- A live handler is between inserting the claim on `id` and finishing `deliver`. -/
def Delivering (id : String) (p : ConsumerPool) (t : Tid) : Prop :=
  ∃ j message k, p.slot t = .live j (.deliver message) k ∧ message.messageId = id

/- A live handler whose `deliver` has failed is deleting the claim on `id`. -/
def Releasing (group id : String) (p : ConsumerPool) (t : Tid) : Prop :=
  ∃ j k, p.slot t = .live j (.deleteClaim id group) k

theorem sent_iff_used {s : Inbox} : Sent id s ↔ (rightOn group id s).users ≠ [] := by
  constructor
  · rintro ⟨d, there, same⟩
    have used : d.owner ∈ (rightOn group id s).users :=
      List.mem_map_of_mem (List.mem_filter.mpr ⟨there, beq_iff_eq.mpr same⟩)
    exact List.ne_nil_of_mem used
  · intro used
    obtain ⟨t, ht⟩ := List.exists_mem_of_ne_nil _ used
    obtain ⟨d, hd, _⟩ := List.mem_map.mp ht
    obtain ⟨there, same⟩ := List.mem_filter.mp hd
    exact ⟨d, there, beq_iff_eq.mp same⟩

/-- Whoever holds a claim has delivered its message, or is live: it is delivering, or it is
deleting the claim after a failed delivery. -/
theorem claim_in_hand {p : ConsumerPool} (tidy : R.Tidy)
    (run : (consumers config approx).Reach R.Ok deployed p) {row : Claimed}
    (claimed : p.shared.processed (id, config.kafka.consumerGroup) = some row) :
    Sent id p.shared ∨ Delivering id p row.owner ∨
      Releasing config.kafka.consumerGroup id p row.owner := by
  have sound := consumers_sound run
  have holds : (rightOn config.kafka.consumerGroup id p.shared).holder = some row.owner := by
    simp [rightOn, claimed]
  by_cases used : row.owner ∈ (rightOn config.kafka.consumerGroup id p.shared).users
  · exact .inl (sent_iff_used.mpr (List.ne_nil_of_mem used))
  · right
    cases slot : p.slot row.owner with
    | idle => exact absurd holds ((sound.fresh _ slot).free tidy id)
    | ended j r => exact absurd (sound.ended _ j r slot tidy id holds) used
    | gone j => exact absurd (sound.gone _ j slot tidy id holds) used
    | live j e k =>
      obtain ⟨asserted, quiet⟩ := sound.here slot
      cases e with
      | deliver message => exact .inl ⟨j, message, k, slot, (quiet tidy id holds).symm⟩
      | deleteClaim messageId consumerGroup =>
        obtain rfl := quiet tidy id holds
        obtain ⟨rfl, _⟩ := asserted
        exact .inr ⟨j, k, slot⟩
      | _ => exact absurd (quiet tidy id holds) used

theorem settle_shared (config : AppConfiguration) (approx : Rat → Rat) (t : Tid) (j : Job)
    (s : Inbox) (b : Consumer Unit) :
    ∃ consumed, ((consumers config approx).settle t j s b).1 = { s with consumed := consumed } := by
  cases b with
  | done a => exact ⟨_, rfl⟩
  | fail x => exact ⟨s.consumed, rfl⟩
  | call e k => exact ⟨s.consumed, rfl⟩

/-- Ids that tell messages apart: every record produced is a copy of what its id names. -/
def Named (names : String → Origin) (origin : Origin) (id : String) (_ : Body) : Prop :=
  origin = names id

variable {names : String → Origin}

theorem sent_origin (sane : Sane R group s)
    (named : R.messages = Named names) {record : Record} (there : record ∈ s.log)
    (same : record.messageId = id) (sent : Sent id s) :
    ∃ d ∈ s.delivered, d.origin = record.origin := by
  obtain ⟨d, hd, messageId⟩ := sent
  have first := sane.delivered d hd
  have second := sane.messages record there
  rw [named] at first second
  exact ⟨d, hd, first.trans ((congrArg names (messageId.trans same.symm)).trans second.symm)⟩

theorem not_settled {p : ConsumerPool} {r : Except Err Unit}
    (ended : p.slot t = .ended j r)
    (hand : Delivering id p t' ∨ Releasing config.kafka.consumerGroup id p t') : t' ≠ t := by
  rintro rfl
  rcases hand with ⟨_, _, _, live, _⟩ | ⟨_, _, live⟩ <;> cases live.symm.trans ended

theorem resolved_outcome (posts : R.Posts) {p q : ConsumerPool}
    {a : Act Job Choice Ext} (run : (consumers config approx).Reach R.Ok deployed p) (ok : R.Ok p a)
    (st : (consumers config approx).step p a = some q)
    (before : p.slot t ≠ .ended j (.ok ())) (resolved : q.slot t = .ended j (.ok ())) :
    ∃ record, q.shared.log[j.index]? = some record ∧
      (t ∈ q.shared.stopped ∨ Outcome config j record q.shared) := by
  have verified := discipline_verified config approx R
  obtain ⟨s, _, post, shared⟩ :=
    Logic.sound_settle verified (consumers_sound run) ok st before resolved
  obtain ⟨record, there, outcome⟩ := post.resolved rfl
  have same : q.shared = { s with consumed := s.consumed ++ [j.index] } := shared
  rw [same]
  refine ⟨record, there, ?_⟩
  rcases outcome posts with stopped | outcome
  · exact .inl stopped
  · right
    cases outcome with
    | sent sent origin => exact .sent sent origin
    | dead dead origin => exact .dead dead origin
    | duplicate claimed => exact .duplicate claimed
    | retried there unconsumed new topic messageId origin =>
      refine .retried there ?_ new topic messageId origin
      intro consumed
      rcases List.mem_append.mp consumed with old | last
      · exact unconsumed old
      · exact new (List.mem_singleton.mp last)

/- Where no replica is shut down, no handler reads the flag as set. -/
theorem never_stopped {p : ConsumerPool} (calm : ¬ R.shutdowns)
    (run : (consumers config approx).Reach R.Ok deployed p) :
    (∀ replica, p.shared.stopping replica = false) ∧ p.shared.stopped = [] := by
  have start : Logic.Sound (discipline config approx R) (Post config R) deployed :=
    Logic.initial_sound (empty_sane R _) (empty_idle R _)
  refine Logic.reach_invariant (discipline_verified config approx R) start run
    (J := fun s => (∀ replica, s.stopping replica = false) ∧ s.stopped = []) ⟨fun _ => rfl, rfl⟩
    ?_ ?_ ?_
  · intro t s e c s' r _ here _ ⟨running, clear⟩ he _
    have moves := exec_moves he
    cases moves with
    | stopped stopping => exact nomatch (running _).symm.trans stopping
    | inserted row =>
      unfold Inbox.insertClaim
      split <;> exact ⟨running, clear⟩
    | accepted partition batch =>
      obtain ⟨m, one, _⟩ := here.1
      rw [acceptAll_one one]
      unfold Inbox.accept
      split <;> exact ⟨running, clear⟩
    | _ => exact ⟨running, clear⟩
  · intro t j r s _ _ h
    cases r <;> exact h
  · intro q x s' ok _ h st
    cases Option.some.inj st
    cases x with
    | onApplicationShutdown replica => exact absurd ok calm
    | _ => exact h

/-! Runs without failures, for replays. -/

def plain (_ : ConsumerPool) : Act Job Choice Ext → Bool
  | .start .. => true
  | .step _ .fail => false
  | .step _ .lostReply => false
  | .step _ (.storedUnanswered _) => false
  | .step .. => true
  | .kill _ => false
  | .env (.produce _ _ _ _ headers) => (headers.messageId.filter (· ≠ "")).isSome
  | .env _ => false

theorem produced_named (s : Inbox) (topic : String) (partition : Nat) (key : Option String)
    (value : Option Body) {headers : Headers}
    (named : (headers.messageId.filter (· ≠ "")).isSome = true) :
    (s.produced topic partition key value headers).origin =
      .named (s.produced topic partition key value headers).messageId := by
  cases id : headers.messageId with
  | none => simp [id] at named
  | some messageId =>
    have kept : messageId ≠ "" := by
      rintro rfl
      simp [id, Option.filter] at named
    simp [Inbox.produced, Record.messageId, id, Option.filter, kept]

theorem plain_ok {p : ConsumerPool} {a : Act Job Choice Ext} (named : R.messages = Named .named)
    (answers : ∀ e c, c ≠ .fail → c ≠ .lostReply → (∀ n, c ≠ .storedUnanswered n) → R.answers e c)
    (h : plain p a = true) : R.Ok p a := by
  cases a with
  | start t j => trivial
  | kill t => cases h
  | step t c =>
    intro j e k _
    apply answers
    · rintro rfl; cases h
    · rintro rfl; cases h
    · rintro n rfl; cases h
  | env x =>
    cases x with
    | produce topic partition key value headers =>
      have origin := produced_named p.shared topic partition key value h
      simp only [Regime.Ok, named]
      exact origin
    | _ => cases h

def resolvedJob : Slot Job Effect Effect.Answer Err Unit → Option Job
  | .ended j (.ok _) => some j
  | _ => none

theorem ended_of_resolvedJob {slot : Slot Job Effect Effect.Answer Err Unit} {j : Job}
    (h : resolvedJob slot = some j) : slot = .ended j (.ok ()) := by
  unfold resolvedJob at h
  split at h
  · cases h
    rfl
  · cases h

/- A record on the booking topic, handed to the first handler. -/
def handedOut : List (Act Job Choice Ext) :=
  [.env (.produce "booking.events" 0 (some "e1") (some (.json (.object [])))
      { messageId := some "m1" }),
    .start 1 ⟨0, false, 0⟩, .step 1 .ok]

end Overbook.Notifications
