import Overbook.Async.Past
import Overbook.Notifications.Duplicates
import Overbook.Notifications.Headers

/-! The course of one handler. As long as nothing fails but deliveries and no replica stops, what a
handler has been answered settles what it asks for next. -/
namespace Overbook.Notifications

open Async Prog Kafka

inductive Point where
  | fetching
  | checking
  | waiting
  | rechecking
  | acquiring
  | claiming
  | delivering
  | releasing (error : Err)
  | drawing (error : Err)
  | stamping (error : Err) (random : Rat)
  | retrying (error : Err) (random : Rat) (now : Time)
  | dating (attempts : Num) (reason : String)
  | burying (attempts : Num) (reason : String) (now : Time)
  | through

def Body.parsed : Body → Json
  | .json value => value
  | .invalid _ => .null

def Record.incoming (record : Record) : IncomingNotification :=
  { messageId := record.messageId, eventType := record.message.eventType
    traceId := record.message.traceId, payload := record.body.parsed }

def Record.claim (group : String) (record : Record) : ProcessedMessage :=
  { messageId := record.messageId, consumerGroup := group, eventType := record.message.eventType }

def Record.counted (record : Record) : Num := record.message.attempts.plus (.ofInt 1)

variable (config : AppConfiguration) (approx : Rat → Rat) (j : Job) (record : Record)

def retryOf (error : Err) (random : Rat) (now : Time) : OutgoingMessage Value :=
  retryMessage config record.message record.body.parsed record.counted
    ((Num.ofInt now).plus (backoffMs approx record.counted config.notifications.retryBaseMs
      config.notifications.retryMaxMs random)) error

namespace Point

def ready : Point :=
  match record.body with
  | .invalid _ => .dating record.message.attempts "payload is not valid JSON"
  | .json _ => .acquiring

def rescheduled (error : Err) : Point :=
  if shouldDeadLetter record.counted config.notifications.maxAttempts then
    .dating record.counted error.message
  else .drawing error

def effect : Point → Option Effect
  | fetching => some (.fetch j.isRetryTopic j.index)
  | checking => some (.stopping j.replica)
  | waiting => some (.waitUntilDue j.replica record.message.retryAt)
  | rechecking => some (.stopping j.replica)
  | acquiring => some (.acquire j.replica)
  | claiming => some (.insertClaim (record.claim config.kafka.consumerGroup))
  | delivering => some (.deliver record.incoming)
  | releasing _ => some (.deleteClaim record.messageId config.kafka.consumerGroup)
  | drawing _ => some .random
  | stamping .. => some .dateNow
  | retrying error random now =>
    some (.sendBatch [⟨config.kafka.topics.retry, [retryOf config approx record error random now]⟩])
  | dating .. => some .dateNow
  | burying attempts reason now =>
    some (.sendBatch [⟨config.kafka.topics.dlq,
      [deadLetterMessage config record.message attempts reason now]⟩])
  | through => none

def next : Point → Prog.Event Effect.Answer Err → Point
  | fetching, _ => checking
  | checking, _ => if j.isRetryTopic then waiting else ready record
  | waiting, _ => rechecking
  | rechecking, _ => ready record
  | acquiring, _ => claiming
  | claiming, ⟨.insertClaim _, .ok true⟩ => delivering
  | delivering, ⟨.deliver _, .error error⟩ => releasing error
  | releasing error, _ => rescheduled config record error
  | drawing error, ⟨.random, .ok random⟩ => stamping error random
  | stamping error random, ⟨.dateNow, .ok now⟩ => retrying error random now
  | dating attempts reason, ⟨.dateNow, .ok now⟩ => burying attempts reason now
  | _, _ => through

end Point

def pointOf (events : List (Prog.Event Effect.Answer Err)) : Point :=
  events.foldl (Point.next config j record) .fetching

/-- Nothing fails but a delivery, no flag is set, and the clock shows the time of a date. -/
def Smooth : Prog.Event Effect.Answer Err → Prop
  | ⟨.deliver _, _⟩ => True
  | ⟨.stopping _, r⟩ => r = .ok false
  | ⟨.random, r⟩ => ∃ q : Rat, 0 ≤ q ∧ q < 1 ∧ r = .ok q
  | ⟨.dateNow, r⟩ => ∃ now : Time, now ≤ lastTime ∧ r = .ok now
  | ⟨_, r⟩ => ∃ a, r = .ok a

def Point.late : Point → Bool
  | .fetching | .checking | .waiting => false
  | _ => true

def Point.Brought (events : List (Prog.Event Effect.Answer Err)) : Point → Prop
  | .drawing _ => shouldDeadLetter record.counted config.notifications.maxAttempts = false
  | .stamping _ q =>
    shouldDeadLetter record.counted config.notifications.maxAttempts = false ∧ 0 ≤ q ∧ q < 1
  | .retrying _ q now =>
    shouldDeadLetter record.counted config.notifications.maxAttempts = false ∧ 0 ≤ q ∧ q < 1 ∧
      now ≤ lastTime ∧ ⟨.dateNow, .ok now⟩ ∈ events
  | .dating attempts _ | .burying attempts _ _ => (∃ text, record.body = .invalid text) ∨
    attempts = record.counted ∧
      shouldDeadLetter record.counted config.notifications.maxAttempts = true
  | _ => True

/-- The handler of `j` has been handed `record`, and stands there. -/
structure Stands (past : List (Prog.Event Effect.Answer Err)) (point : Point) : Prop where
  place : pointOf config j record past = point
  brought : point.Brought config record past
  waited : j.isRetryTopic = true → point.late = true →
    ⟨.waitUntilDue j.replica record.message.retryAt, .ok ()⟩ ∈ past

structure Underway (past : List (Prog.Event Effect.Answer Err)) (point : Point) : Prop
    extends Stands config j record past point where
  handed : ∃ rest, past = ⟨.fetch j.isRetryTopic j.index, .ok record⟩ :: rest

def Fetched (past : List (Prog.Event Effect.Answer Err)) : Prop :=
  ∀ y ∈ past.head?, y = ⟨.fetch j.isRetryTopic j.index, .ok record⟩

def Course (past : List (Prog.Event Effect.Answer Err)) (e : Effect) : Prop :=
  ∀ record, Fetched j record past →
    ∃ point, Stands config j record past point ∧ point.effect config approx j record = some e

def Closes (past : List (Prog.Event Effect.Answer Err)) (r : Except Err Unit) : Prop :=
  r = .ok () ∧ ∀ record, Fetched j record past → Stands config j record past .through

variable {config approx j record} {past : List (Prog.Event Effect.Answer Err)} {point : Point}

theorem pointOf_snoc (past : List (Prog.Event Effect.Answer Err))
    (y : Prog.Event Effect.Answer Err) : pointOf config j record (past ++ [y]) =
      (pointOf config j record past).next config j record y := by
  simp [pointOf, List.foldl_append]

theorem Fetched.unique {first : Record} {rest : List (Prog.Event Effect.Answer Err)}
    (h : Fetched j record (⟨.fetch j.isRetryTopic j.index, .ok first⟩ :: rest)) :
    record = first := by
  have same := h _ rfl
  cases same
  rfl

theorem ready_brought (events : List (Prog.Event Effect.Answer Err)) :
    (Point.ready record).Brought config record events := by
  unfold Point.ready
  split
  · rename_i text body
    exact .inl ⟨text, body⟩
  · trivial

theorem rescheduled_brought (events : List (Prog.Event Effect.Answer Err)) (error : Err) :
    (Point.rescheduled config record error).Brought config record events := by
  unfold Point.rescheduled
  split
  · rename_i spent
    exact .inr ⟨rfl, spent⟩
  · rename_i more
    exact Bool.eq_false_iff.mpr more

theorem next_brought {y : Prog.Event Effect.Answer Err}
    (effect : point.effect config approx j record = some y.1) (smooth : Smooth y)
    (h : point.Brought config record past) :
    (point.next config j record y).Brought config record (past ++ [y]) := by
  obtain ⟨e, r⟩ := y
  cases point <;> cases effect
  case checking =>
    change (if j.isRetryTopic then Point.waiting else .ready record).Brought config record _
    split
    · trivial
    · exact ready_brought _
  case rechecking => exact ready_brought _
  case claiming =>
    obtain ⟨won, rfl⟩ := smooth
    cases won <;> trivial
  case delivering => cases r <;> trivial
  case releasing error => exact rescheduled_brought _ error
  case drawing error =>
    obtain ⟨q, nonneg, below, rfl⟩ := smooth
    exact ⟨h, nonneg, below⟩
  case stamping error q =>
    obtain ⟨now, time, rfl⟩ := smooth
    obtain ⟨more, nonneg, below⟩ := h
    exact ⟨more, nonneg, below, time, List.mem_append_right _ (List.mem_singleton_self _)⟩
  case dating attempts reason =>
    obtain ⟨now, -, rfl⟩ := smooth
    exact h
  all_goals trivial

theorem Stands.snoc {y : Prog.Event Effect.Answer Err} (h : Stands config j record past point)
    (effect : point.effect config approx j record = some y.1) (smooth : Smooth y) :
    Stands config j record (past ++ [y]) (point.next config j record y) := by
  constructor
  · rw [pointOf_snoc, h.place]
  · exact next_brought effect smooth h.brought
  · intro retry late
    by_cases before : point.late = true
    · exact List.mem_append_left _ (h.waited retry before)
    · obtain ⟨e, r⟩ := y
      cases point with
      | fetching => cases late
      | checking =>
        change (if j.isRetryTopic then Point.waiting else .ready record).late = true at late
        rw [if_pos retry] at late
        cases late
      | waiting =>
        cases effect
        obtain ⟨u, rfl⟩ := smooth
        exact List.mem_append_right _ (List.mem_singleton_self _)
      | _ => exact absurd rfl before

theorem asks_there {e : Effect}
    {ends : List (Prog.Event Effect.Answer Err) → Except Err e.Answer → Prop}
    (h : Underway config j record past point)
    (effect : point.effect config approx j record = some e)
    (next : ∀ r, Smooth ⟨e, r⟩ →
      Underway config j record (past ++ [⟨e, r⟩]) (point.next config j record ⟨e, r⟩) →
      ends (past ++ [⟨e, r⟩]) r) :
    (ask e).Heeds Smooth (Course config approx j) ends past := by
  obtain ⟨rest, handed⟩ := h.handed
  apply heeds_await
  · intro other fetched
    rw [handed] at fetched
    obtain rfl := fetched.unique
    exact ⟨point, h.toStands, effect⟩
  · intro r smooth
    exact next r smooth ⟨h.toStands.snoc effect smooth, rest ++ [⟨e, r⟩], by rw [handed]; rfl⟩

theorem Underway.closes (h : Underway config j record past .through) : Closes config j past (.ok ()) := by
  refine ⟨rfl, fun other fetched => ?_⟩
  obtain ⟨rest, handed⟩ := h.handed
  rw [handed] at fetched
  obtain rfl := fetched.unique
  exact h.toStands

theorem deadLetter_course {attempts : Num} {reason : String}
    (h : Underway config j record past (.dating attempts reason)) :
    (deadLetter config record.message attempts reason).Heeds Smooth (Course config approx j)
      (Closes config j) past := by
  apply heeds_bind
  apply asks_there h rfl
  rintro r ⟨now, -, rfl⟩ dated
  apply heeds_handle
  apply asks_there dated rfl
  rintro r ⟨u, rfl⟩ buried
  exact buried.closes

theorem schedule_course {parsed : Json} {error : Err} (body : record.body = .json parsed)
    (h : Underway config j record past (.rescheduled config record error)) :
    (scheduleRetryOrDeadLetter config approx record.message parsed error).Heeds Smooth
      (Course config approx j) (Closes config j) past := by
  unfold Point.rescheduled at h
  unfold scheduleRetryOrDeadLetter
  dsimp only
  split at h
  · rename_i spent
    rw [if_pos (show shouldDeadLetter (record.message.attempts.plus (.ofInt 1)) _ = true from spent)]
    exact deadLetter_course h
  · rename_i more
    rw [if_neg (show ¬ shouldDeadLetter (record.message.attempts.plus (.ofInt 1)) _ = true from more)]
    apply heeds_bind
    apply heeds_bind
    apply asks_there h rfl
    rintro r ⟨q, -, -, rfl⟩ drawn
    apply heeds_bind
    apply asks_there drawn rfl
    rintro r ⟨now, -, rfl⟩ stamped
    have parsed' : record.body.parsed = parsed := by rw [body]; rfl
    have effect : Point.effect config approx j record (.retrying error q now) =
        some (.sendBatch [⟨config.kafka.topics.retry, [retryMessage config record.message parsed
          record.counted ((Num.ofInt now).plus (backoffMs approx record.counted
            config.notifications.retryBaseMs config.notifications.retryMaxMs q)) error]⟩]) := by
      rw [← parsed']
      rfl
    apply asks_there stamped effect
    rintro r ⟨u, rfl⟩ retried
    exact retried.closes

theorem handle_course {parsed : Json} (body : record.body = .json parsed)
    (h : Underway config j record past .claiming) :
    (handle config ⟨record.messageId, record.message.eventType, record.message.traceId,
      parsed⟩).Heeds Smooth (Course config approx j)
      (fun past r => match r with
        | .ok _ => Underway config j record past .through
        | .error error => Underway config j record past (.rescheduled config record error)) past := by
  have incoming : record.incoming = ⟨record.messageId, record.message.eventType,
      record.message.traceId, parsed⟩ := by
    simp [Record.incoming, body, Body.parsed]
  apply heeds_bind
  apply asks_there h rfl
  rintro r ⟨won, rfl⟩ claimed
  cases won with
  | false => exact claimed
  | true =>
    apply heeds_handle
    apply heeds_bind
    apply asks_there claimed (by rw [← incoming]; rfl)
    intro r _ delivered
    cases r with
    | ok u => exact delivered
    | error error =>
      apply heeds_bind
      apply heeds_handle
      apply asks_there delivered rfl
      rintro r ⟨u, rfl⟩ released
      exact released

theorem process_course {replica : Replica} (own : replica = j.replica)
    (h : Underway config j record past (.ready record)) :
    (process config approx replica record.message).Heeds Smooth (Course config approx j)
      (Closes config j) past := by
  subst own
  unfold Point.ready at h
  unfold process
  have same : record.message.body = record.body := rfl
  split at h
  · rename_i text body
    rw [same, body]
    exact deadLetter_course h
  · rename_i parsed body
    rw [same, body]
    apply heeds_bind
    apply asks_there h rfl
    rintro r ⟨u, rfl⟩ acquired
    apply heeds_handle
    apply heeds_bind
    apply (handle_course body acquired).mono
    intro past r stands
    cases r with
    | ok handled => exact stands.closes
    | error error => exact schedule_course body stands

theorem onMessage_course (h : Underway config j record past .checking) :
    (onMessage config approx j.replica j.isRetryTopic record).Heeds Smooth (Course config approx j)
      (Closes config j) past := by
  apply heeds_bind
  apply asks_there h rfl
  rintro r rfl checked
  dsimp only [Point.next] at checked
  split at checked
  · rename_i retry
    rw [if_pos retry]
    apply heeds_bind
    apply asks_there checked rfl
    rintro r ⟨u, rfl⟩ waited
    apply heeds_bind
    apply asks_there waited rfl
    rintro r rfl rechecked
    exact process_course rfl rechecked
  · rename_i booking
    rw [if_neg booking]
    exact process_course rfl checked

/-- A handler takes its course. -/
theorem code_course (config : AppConfiguration) (approx : Rat → Rat) (j : Job) :
    (j.code config approx).Heeds Smooth (Course config approx j) (Closes config j) [] := by
  apply heeds_bind
  apply heeds_await
  · exact fun record _ => ⟨.fetching, ⟨rfl, trivial, nofun⟩, rfl⟩
  · rintro r ⟨record, rfl⟩
    exact onMessage_course ⟨⟨rfl, trivial, nofun⟩, [], rfl⟩

end Overbook.Notifications
