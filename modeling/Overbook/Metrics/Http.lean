import Overbook.Async.EventLoop
import Overbook.RateLimit.Guard

/-! The way of a request through one process: guard, interceptors, pipes and handler, and the
exception filter. The metrics are kept by the outermost interceptor. -/
namespace Overbook.Metrics

open Async Prog

/- The routes of all controllers. -/
inductive Endpoint where
  | createEvent
  | listEvents
  | findEvent
  | findEventUncached
  | book
  | integrity
  | listBookings
  | findBooking
  | outboxStats
  | drainOutbox
  | notificationStats
  | live
  | ready
  | scrape
  deriving DecidableEq

/- The status that the framework sets for a route: 201 for a POST. -/
def Endpoint.httpStatusCode : Endpoint → Nat
  | createEvent | book | drainOutbox => 201
  | _ => 200

/- `@UseGuards(RateLimitGuard)`. -/
def Endpoint.limited (endpoint : Endpoint) : Bool := endpoint = .book

/- `@UseInterceptors(IdempotencyInterceptor)`. -/
def Endpoint.idempotent (endpoint : Endpoint) : Bool := endpoint = .book

structure Request (B : Type) extends Idempotency.Request B where
  endpoint : Endpoint

/- What reaches the exception filter: from a pipe, the guard, the readiness probe, or a service. -/
inductive Exception where
  | badRequest (message : String)
  | tooManyRequests (body : RateLimit.TooManyRequests)
  | serviceUnavailable (message : String)
  | application (error : Err)

def Exception.getStatus : Exception → Nat
  | badRequest _ => 400
  | tooManyRequests _ => 429
  | serviceUnavailable _ => 503
  | application (.notFound _) => 404
  | application (.conflict _) => 409
  | application (.unprocessableEntity _) => 422
  | application (.other _) => 500

structure Labels where
  method : String
  route : String
  statusCode : String
  deriving DecidableEq

inductive Effect (R : Type) where
  | canActivate
  | claim (key endpoint fingerprint : String)
  | handle
  | complete (key : String) (status : Nat) (body : Option R)
  | release (key : String)
  | status (code : Nat)
  | statusCode
  | send
  | inFlightInc
  | inFlightDec
  | stopTimer (labels : Labels)
  | requestsTotal (labels : Labels)

/- `handle` is the pipes and the handler. -/
abbrev Effect.Answer {R : Type} : Effect R → Type
  | .claim .. => Idempotency.Claim R
  | .handle => R
  | .statusCode => Nat
  | _ => Unit

abbrev Script (R α : Type) := Prog (Effect R) Effect.Answer Exception α

variable {B R α : Type}

abbrev ask (e : Effect R) : Script R e.Answer := await e

/- `p.pipe(tap({ next, error }))`. -/
def tap (next : α → Script R Unit) (error : Script R Unit) (p : Script R α) : Script R α := do
  match ← outcome p with
  | .ok a =>
    next a
    pure a
  | .error x =>
    error
    throw x

def routeOf (request : Request B) : String :=
  match request.routePath.filter (· ≠ "") with
  | some path => path
  | none => (request.originalUrl.splitOn "?").headD "unknown"

def labels (request : Request B) (statusCode : Nat) : Labels :=
  ⟨request.method, routeOf request, toString statusCode⟩

def record (request : Request B) : Script R Unit := do
  let statusCode ← ask .statusCode
  ask (.stopTimer (labels request statusCode))
  ask (.requestsTotal (labels request statusCode))
  ask .inFlightDec

namespace HttpMetricsInterceptor

def intercept (request : Request B) (next : Script R α) : Script R α := do
  ask .inFlightInc
  tap (fun _ => record request) (record request) next

end HttpMetricsInterceptor

namespace IdempotencyInterceptor

/- `complete` and `release` are not waited for. -/
def afterClaim (key : String) (next : Script R (Option R)) :
    Idempotency.Claim R → Script R (Option R)
  | .replay status body => do
    ask (.status status)
    pure body
  | .proceed =>
    tap (fun body => do ask (.complete key (← ask .statusCode) body)) (ask (.release key)) next

def intercept (requestFingerprint : String → String → B → String) (request : Request B)
    (next : Script R (Option R)) : Script R (Option R) :=
  match request.key with
  | none => next
  | some key => do
    let fingerprint := requestFingerprint request.method request.originalUrl request.body
    afterClaim key next (← ask (.claim key request.toRequest.endpoint fingerprint))

end IdempotencyInterceptor

def handler : Script R (Option R) := do pure (some (← ask .handle))

def inner (requestFingerprint : String → String → B → String) (request : Request B) :
    Script R (Option R) :=
  if request.endpoint.idempotent then
    IdempotencyInterceptor.intercept requestFingerprint request handler
  else handler

def reply : Except Exception (Option R) → Script R Unit
  | .ok _ => ask .send
  | .error x => do
    ask (.status x.getStatus)
    ask .send

def serve (requestFingerprint : String → String → B → String) (request : Request B) :
    Script R Unit := do
  reply (← outcome (do
    if request.endpoint.limited then ask .canActivate
    ask (.status request.endpoint.httpStatusCode)
    HttpMetricsInterceptor.intercept request (inner requestFingerprint request)))

/-- The metrics, and the response of each request. The task of an increment is not kept by the
code. -/
structure Server where
  statusCode : Nat → Nat := fun _ => 200
  sent : Nat → Option Nat := fun _ => none
  httpRequestDuration : List (Nat × Labels) := []
  httpRequestsTotal : List (Nat × Labels) := []
  httpRequestsInFlight : Int := 0

def perform (i : Nat) (s : Server) : (e : Effect R) → Option (Server × e.Answer)
  | .canActivate => none
  | .claim .. => none
  | .handle => none
  | .complete .. => some (s, ())
  | .release _ => some (s, ())
  | .status code => some ({ s with statusCode := Function.update s.statusCode i code }, ())
  | .statusCode => some (s, s.statusCode i)
  | .send => some ({ s with sent := Function.update s.sent i (some (s.statusCode i)) }, ())
  | .inFlightInc => some ({ s with httpRequestsInFlight := s.httpRequestsInFlight + 1 }, ())
  | .inFlightDec => some ({ s with httpRequestsInFlight := s.httpRequestsInFlight - 1 }, ())
  | .stopTimer labels =>
    some ({ s with httpRequestDuration := s.httpRequestDuration ++ [(i, labels)] }, ())
  | .requestsTotal labels =>
    some ({ s with httpRequestsTotal := s.httpRequestsTotal ++ [(i, labels)] }, ())

def api (R : Type) (requestFingerprint : String → String → B → String) :
    Runtime Server (Request B) (Effect R) Effect.Answer Exception Unit where
  code := serve requestFingerprint
  perform := perform

def counted (i : Nat) (s : Server) : List Labels :=
  (s.httpRequestsTotal.filter (·.1 == i)).map (·.2)

def inside (rest : Script R Unit) : Bool :=
  match rest with
  | .call (.claim ..) _ => true
  | .call .handle _ => true
  | _ => false

variable {f : String → String → B → String} {request : Request B} {i : Nat} {s : Server}

def closing (request : Request B) (rest : Script R (Option R)) : Script R Unit := do
  reply (← outcome (tap (fun _ => record request) (record request) rest))

def admitted (requestFingerprint : String → String → B → String) (request : Request B) :
    Script R (Option R) := do
  ask (.status request.endpoint.httpStatusCode)
  HttpMetricsInterceptor.intercept request (inner requestFingerprint request)

namespace Server

def setStatus (i code : Nat) (s : Server) : Server :=
  { s with statusCode := Function.update s.statusCode i code }

def enter (i : Nat) (endpoint : Endpoint) (s : Server) : Server :=
  { s.setStatus i endpoint.httpStatusCode with httpRequestsInFlight := s.httpRequestsInFlight + 1 }

def recorded (i : Nat) (request : Request B) (s : Server) : Server :=
  { s with
    httpRequestDuration := s.httpRequestDuration ++ [(i, labels request (s.statusCode i))]
    httpRequestsTotal := s.httpRequestsTotal ++ [(i, labels request (s.statusCode i))]
    httpRequestsInFlight := s.httpRequestsInFlight - 1 }

def answer (i : Nat) (s : Server) : Server :=
  { s with sent := Function.update s.sent i (some (s.statusCode i)) }

end Server

inductive Inner : Script R (Option R) → Prop where
  | claims (key endpoint fingerprint : String) : Inner (do
      IdempotencyInterceptor.afterClaim key handler (← ask (.claim key endpoint fingerprint)))
  | handles : Inner handler
  | keyed (key : String) : Inner (IdempotencyInterceptor.afterClaim key handler .proceed)

theorem inner_waits : Inner (inner f request : Script R (Option R)) := by
  unfold inner
  split
  · unfold IdempotencyInterceptor.intercept
    split
    · exact .handles
    · exact .claims ..
  · exact .handles

theorem Inner.runs {rest : Script R (Option R)} (h : Inner rest) :
    (api R f).runSync i (closing request rest) s = (s, closing request rest) := by
  cases h <;> rfl

theorem Inner.within {rest : Script R (Option R)} (h : Inner rest) :
    inside (closing request rest) = true := by
  cases h <;> rfl

theorem admitted_runs : (api R f).runSync i
    (do reply (← outcome (admitted f request))) s =
      (s.enter i request.endpoint, closing request (inner f request)) := by
  have runs : (api R f).runSync i (closing request (inner f request)) (s.enter i request.endpoint) =
      _ := inner_waits.runs
  exact runs

/-- How a request goes on that is answered inside the interceptor. The flag tells whether the answer
was no error. -/
inductive Onward (request : Request B) (i : Nat) (s : Server) :
    Bool → Server × Script R Unit → Prop where
  | waits {rest : Script R (Option R)} : Inner rest →
      Onward request i s true (s, closing request rest)
  | answered : Onward request i s true ((s.recorded i request).answer i, done ())
  | replayed (status : Nat) : Onward request i s true
      (((s.setStatus i status).recorded i request).answer i, done ())
  | failed (x : Exception) : Onward request i s false
      (((s.recorded i request).setStatus i x.getStatus).answer i, done ())

theorem Inner.resumes {rest : Script R (Option R)} (h : Inner rest) (request : Request B) :
    ∃ e k, rest = call e k ∧
    ∀ r, Onward request i s r.isOk
      ((api R f).runSync i (closing request (k r)) s) := by
  cases h with
  | claims key endpoint fingerprint =>
    refine ⟨_, _, rfl, fun r => ?_⟩
    cases r with
    | error x => exact .failed x
    | ok claim =>
      cases claim with
      | proceed => exact .waits (.keyed key)
      | replay status body => exact .replayed status
  | handles =>
    refine ⟨_, _, rfl, fun r => ?_⟩
    cases r with
    | error x => exact .failed x
    | ok body => exact .answered
  | keyed key =>
    refine ⟨_, _, rfl, fun r => ?_⟩
    cases r with
    | error x => exact .failed x
    | ok body => exact .answered

/-- A request at its guard. -/
def guarded (requestFingerprint : String → String → B → String) (request : Request B)
    (r : Except Exception Unit) : Script R Unit := do
  reply (← outcome (do
    Prog.ofExcept r
    admitted requestFingerprint request))

theorem serve_limited (limited : request.endpoint.limited = true) :
    (serve f request : Script R Unit) =
      call .canActivate (guarded f request) := by
  unfold serve
  rw [if_pos limited]
  rfl

theorem serve_open (limited : request.endpoint.limited = false) :
    (serve f request : Script R Unit) =
      (do reply (← outcome (admitted f request))) := by
  unfold serve
  rw [limited]
  rfl

structure Response where
  statusCode : Nat
  sent : Option Nat
  counted : List Labels

def response (i : Nat) (s : Server) : Response := ⟨s.statusCode i, s.sent i, counted i s⟩

theorem response_apart : (api R f).Apart response := by
  intro i j s s' e a ne performed
  cases e <;> cases performed <;>
    simp [response, counted, Function.update_of_ne ne, ne.symm]

@[simp] theorem response_enter {endpoint : Endpoint} : response i (s.enter i endpoint) =
    { response i s with statusCode := endpoint.httpStatusCode } := by
  simp [response, Server.enter, Server.setStatus, counted]

@[simp] theorem response_setStatus (code : Nat) : response i (s.setStatus i code) =
    { response i s with statusCode := code } := by
  simp [response, Server.setStatus, counted]

@[simp] theorem response_recorded : response i (s.recorded i request) =
    { response i s with
      counted := (response i s).counted ++ [labels request (response i s).statusCode] } := by
  simp [response, Server.recorded, counted]

@[simp] theorem response_answer : response i (s.answer i) =
    { response i s with sent := some (response i s).statusCode } := by
  simp [response, Server.answer, counted]

abbrev Answers (R : Type) := List (Event (Effect.Answer (R := R)) Exception)

def Passed (answers : Answers R) : Prop := ∀ x ∈ answers, x.2.isOk = true

instance (answers : Answers R) : Decidable (Passed answers) :=
  inferInstanceAs (Decidable (∀ x ∈ answers, x.2.isOk = true))

theorem passed_snoc {answers : Answers R} {e : Effect R} {r : Except Exception e.Answer} :
    Passed (answers ++ [⟨e, r⟩]) ↔ Passed answers ∧ r.isOk = true := by
  simp [Passed, or_imp, forall_and]

/-- Where a request stands, with what it has been answered. -/
inductive Stage (f : String → String → B → String) (request : Request B) :
    Answers R → Response → Script R Unit → Prop where
  | atGuard : Stage f request [] ⟨200, none, []⟩
      (call .canActivate (guarded f request))
  | within {answers : Answers R} {rest : Script R (Option R)} : Passed answers → Inner rest →
      Stage f request answers ⟨request.endpoint.httpStatusCode, none, []⟩
        (closing request rest)
  | answered {answers : Answers R} (code : Nat) : Passed answers →
      Stage f request answers ⟨code, some code, [labels request code]⟩ (done ())
  | refused {answers : Answers R} (x : Exception) : ¬ Passed answers →
      Stage f request answers ⟨x.getStatus, some x.getStatus, []⟩ (done ())
  | failed {answers : Answers R} (x : Exception) : ¬ Passed answers →
      Stage f request answers ⟨x.getStatus, some x.getStatus,
        [labels request request.endpoint.httpStatusCode]⟩ (done ())

theorem stage_starts (fresh : response i s = ⟨200, none, []⟩) :
    Stage f request [] (response i ((api R f).runSync i (serve f request) s).1)
      ((api R f).runSync i (serve f request) s).2 := by
  cases limited : request.endpoint.limited with
  | true =>
    have waits : (api R f).runSync i (call .canActivate (guarded f request)) s = _ :=
      Runtime.runSync_await rfl
    rw [serve_limited limited, waits, fresh]
    exact .atGuard
  | false =>
    rw [serve_open limited, admitted_runs, response_enter, fresh]
    exact .within (by simp [Passed]) inner_waits

theorem Stage.resumes {answers : Answers R} {e : Effect R}
    {k : Except Exception e.Answer → Script R Unit} (r : Except Exception e.Answer)
    (h : Stage f request answers (response i s) (call e k)) :
    Stage f request (answers ++ [⟨e, r⟩]) (response i ((api R f).runSync i (k r) s).1)
      ((api R f).runSync i (k r) s).2 := by
  generalize there : response i s = v at h
  generalize waiting : call e k = rest at h
  cases h with
  | atGuard =>
    cases waiting
    cases r with
    | ok u =>
      have runs : (api R f).runSync i (guarded f request (.ok u)) s = _ := admitted_runs
      rw [runs, response_enter, there]
      exact .within (by simp [Passed, Except.isOk, Except.toBool]) inner_waits
    | error x =>
      have runs : (api R f).runSync i (guarded f request (.error x)) s =
          ((s.setStatus i x.getStatus).answer i, done ()) := rfl
      rw [runs, response_answer, response_setStatus, there]
      exact .refused x (by simp [Passed, Except.isOk, Except.toBool])
  | @within answers inner passed h =>
    obtain ⟨e', k', rfl, goes⟩ := h.resumes (f := f) (i := i) (s := s) request
    cases waiting
    show Stage f request (answers ++ [⟨_, r⟩])
      (response i ((api R f).runSync i (closing request (k' r)) s).1)
      ((api R f).runSync i (closing request (k' r)) s).2
    have onward := goes r
    have grown := @passed_snoc R answers _ r
    generalize r.isOk = b at onward grown
    generalize (api R f).runSync i (closing request (k' r)) s = y at onward
    cases onward with
    | waits inner =>
      rw [there]
      exact .within (grown.mpr ⟨passed, rfl⟩) inner
    | answered =>
      rw [response_answer, response_recorded, there]
      exact .answered _ (grown.mpr ⟨passed, rfl⟩)
    | replayed status =>
      rw [response_answer, response_recorded, response_setStatus, there]
      exact .answered status (grown.mpr ⟨passed, rfl⟩)
    | failed x =>
      rw [response_answer, response_setStatus, response_recorded, there]
      exact .failed x fun all => nomatch (grown.mp all).2
  | answered => cases waiting
  | refused => cases waiting
  | failed => cases waiting

/- A failed request was counted with the status that its route has by default. -/
theorem default_not_sent (endpoint : Endpoint) (x : Exception) :
    toString endpoint.httpStatusCode ≠ toString x.getStatus := by
  have default : endpoint.httpStatusCode = 200 ∨ endpoint.httpStatusCode = 201 := by
    cases endpoint <;> simp [Endpoint.httpStatusCode]
  have error : x.getStatus ∈ [400, 429, 503, 404, 409, 422, 500] := by
    cases x with
    | application e => cases e <;> simp [Exception.getStatus]
    | _ => simp [Exception.getStatus]
  simp only [List.mem_cons, List.not_mem_nil, or_false] at error
  rcases default with h | h <;> rw [h] <;>
    rcases error with h | h | h | h | h | h | h <;> rw [h] <;> decide

theorem Stage.waiting {answers : Answers R} {v : Response} {rest : Script R Unit}
    (h : Stage f request answers v rest) (waits : rest.waits = true) :
    v.sent = none ∧ v.counted = [] := by
  cases h with
  | atGuard => exact ⟨rfl, rfl⟩
  | within => exact ⟨rfl, rfl⟩
  | answered => cases waits
  | refused => cases waits
  | failed => cases waits

theorem Stage.ended {answers : Answers R} {v : Response} {rest : Script R Unit}
    (h : Stage f request answers v rest) (ended : rest.waits = false) :
    ∃ code, v.sent = some code ∧ (v.counted = [labels request code] ↔ Passed answers) := by
  cases h with
  | atGuard => cases ended
  | within passed inner =>
    obtain ⟨e, k, rfl, -⟩ := inner.resumes (f := f) (i := 0) (s := {}) request
    cases ended
  | answered code passed => exact ⟨code, rfl, fun _ => passed, fun _ => rfl⟩
  | refused x thrown =>
    refine ⟨_, rfl, ?_, fun all => absurd all thrown⟩
    intro counted
    cases counted
  | failed x thrown =>
    refine ⟨_, rfl, ?_, fun all => absurd all thrown⟩
    intro counted
    have same := congrArg Labels.statusCode (List.cons.inj counted).1
    exact absurd same (default_not_sent _ x)

/-! The gauge. -/

theorem inFlight_start : ((api R f).runSync i (serve f request) s).1.httpRequestsInFlight =
    s.httpRequestsInFlight +
      if inside ((api R f).runSync i (serve f request) s).2 then 1 else 0 := by
  cases limited : request.endpoint.limited with
  | true =>
    have waits : (api R f).runSync i (call .canActivate (guarded f request)) s = _ :=
      Runtime.runSync_await rfl
    rw [serve_limited limited, waits]
    exact (Int.add_zero _).symm
  | false =>
    rw [serve_open limited, admitted_runs, if_pos inner_waits.within]
    rfl

theorem Stage.inFlight {answers : Answers R} {v : Response} {e : Effect R}
    {k : Except Exception e.Answer → Script R Unit} (r : Except Exception e.Answer)
    (h : Stage f request answers v (call e k)) :
    ((api R f).runSync i (k r) s).1.httpRequestsInFlight +
        (if inside (call e k) then 1 else 0) =
      s.httpRequestsInFlight + if inside ((api R f).runSync i (k r) s).2 then 1 else 0 := by
  generalize waiting : call e k = rest at h
  cases h with
  | atGuard =>
    cases waiting
    cases r with
    | ok u =>
      have runs : (api R f).runSync i (guarded f request (.ok u)) s = _ := admitted_runs
      rw [runs, if_pos inner_waits.within]
      exact Int.add_zero _
    | error x => rfl
  | within passed h =>
    obtain ⟨e', k', rfl, goes⟩ := h.resumes (f := f) (i := i) (s := s) request
    rw [if_pos h.within]
    cases waiting
    show ((api R f).runSync i (closing request (k' r)) s).1.httpRequestsInFlight + 1 =
      s.httpRequestsInFlight + if inside ((api R f).runSync i (closing request (k' r)) s).2 then 1
        else 0
    have onward := goes r
    generalize r.isOk = b at onward
    generalize (api R f).runSync i (closing request (k' r)) s = y at onward
    cases onward with
    | waits inner => rw [if_pos inner.within]
    | _ =>
      show s.httpRequestsInFlight - 1 + 1 = s.httpRequestsInFlight + 0
      omega
  | answered => cases waiting
  | refused => cases waiting
  | failed => cases waiting

variable {log : List (Nat × Event (Effect.Answer (R := R)) Exception)}
  {p : Process Server (Request B) (Effect R) Effect.Answer Exception Unit}

/-- Every request at every moment. -/
theorem stages (reached : (api R f).Reach {} log p) {rest : Script R Unit}
    (task : p.tasks[i]? = some (request, rest)) :
    Stage f request (Runtime.answersTo i log) (response i p.state) rest := by
  have each := Runtime.Reach.each (w := ⟨200, none, []⟩) response_apart
    (I := fun request answers v rest => Stage f request answers v rest)
    (fun i request s fresh => stage_starts fresh) (fun i request s answers e k r h => h.resumes r)
    (fun i => rfl) reached
  exact each.2 i request rest task

theorem inFlight_inside (reached : (api R f).Reach {} log p) :
    p.state.httpRequestsInFlight = p.tasks.countP fun x => inside x.2 := by
  induction reached with
  | idle => rfl
  | start request _ ih =>
    show ((api R f).runSync _ (serve f request) _).1.httpRequestsInFlight =
      ((_ ++ [_]).countP _ : Nat)
    rw [inFlight_start, ih, List.countP_append, List.countP_singleton, Int.natCast_add]
    congr 1
    exact (apply_ite Nat.cast ..).symm
  | @resume log p i request e k r reached task ih =>
    have counted := Runtime.countP_set (f := fun x => inside x.2) task
      (request, ((api R f).runSync i (k r) p.state).2)
    have gauge := (stages reached task).inFlight (i := i) (s := p.state) r
    dsimp only at counted ⊢
    rw [ih] at gauge
    by_cases old : inside (call e k) = true <;>
      by_cases new : inside ((api R f).runSync i (k r) p.state).2 = true <;>
      simp only [old, new, if_true, if_false, Bool.false_eq_true] at counted gauge <;> omega

/-- What the metrics tell, in every run. The gauge is the number of requests inside the interceptor.
A request that has not been answered is not counted, and one that has been is counted once and with
the status that was sent if and only if no stage has answered it with an error. -/
theorem http_metrics (reached : (api R f).Reach {} log p) :
    (p.state.httpRequestsInFlight = p.tasks.countP fun x => inside x.2) ∧
      ((∀ x ∈ p.tasks, x.2.waits = false) → p.state.httpRequestsInFlight = 0) ∧
      ∀ i request rest, p.tasks[i]? = some (request, rest) →
        (rest.waits = true → p.state.sent i = none ∧ counted i p.state = []) ∧
        (rest.waits = false → ∃ code, p.state.sent i = some code ∧
          (counted i p.state = [labels request code] ↔ Passed (Runtime.answersTo i log))) := by
  refine ⟨inFlight_inside reached, fun quiet => ?_, fun i request rest task => ?_⟩
  · have none_inside : p.tasks.countP (fun x => inside x.2) = 0 := by
      refine List.countP_eq_zero.mpr fun x mem within => ?_
      have ended := quiet x mem
      cases left : x.2 with
      | call e k =>
        rw [left] at ended
        cases ended
      | done u =>
        rw [left] at within
        cases within
      | fail x =>
        rw [left] at within
        cases within
    rw [inFlight_inside reached, none_inside]
    rfl
  · have stage := stages reached task
    exact ⟨stage.waiting, stage.ended⟩

def booking : Request Unit where
  method := "POST"
  path := "/v1/events/e/bookings"
  originalUrl := "/v1/events/e/bookings"
  routePath := some "/v1/events/:eventId/bookings"
  body := ()
  endpoint := .book

/- A booking that succeeds. -/
theorem http_metrics_created : ∃ log p, (api Unit fun _ _ (_ : Unit) => "").Reach {} log p ∧
    ∃ code, p.state.sent 0 = some code ∧ counted 0 p.state = [labels booking code] := by
  have reached := (((Runtime.Reach.idle (m := api Unit fun _ _ (_ : Unit) => "") (s := {})).start
    booking).resume (i := 0) (.ok ()) rfl).resume (i := 0) (.ok ()) rfl
  obtain ⟨-, -, each⟩ := http_metrics reached
  obtain ⟨code, sent, told⟩ := (each 0 booking (done ()) rfl).2 rfl
  exact ⟨_, _, reached, code, sent, told.mpr (by decide)⟩

/- 409 was sent, and 201 counted. -/
theorem sold_out_counted_created :
    ¬ ∀ log p, (api Unit fun _ _ (_ : Unit) => "").Reach {} log p →
      ∀ i request rest, p.tasks[i]? = some (request, rest) → rest.waits = false →
        ∃ code, p.state.sent i = some code ∧ counted i p.state = [labels request code] := by
  intro claim
  have reached := (((Runtime.Reach.idle (m := api Unit fun _ _ (_ : Unit) => "") (s := {})).start
    booking).resume (i := 0) (.ok ()) rfl).resume (i := 0)
      (.error (.application (.conflict "Sold out"))) rfl
  obtain ⟨code, sent, told⟩ := claim _ _ reached 0 booking (done ()) rfl rfl
  cases sent
  exact absurd told (by decide)

end Overbook.Metrics
