import Overbook.RateLimit.Script
import Overbook.Idempotency.Interceptor

/-! The guard in front of the booking endpoint, and one Redis with the buckets of everybody. Each
bucket goes its own way. -/
namespace Overbook.RateLimit

open Overbook.Num

/- The arguments of the decorator; what they leave out comes from the configuration. -/
structure RateLimitOptions where
  bucket : String
  capacity : Option Int := none
  refillPerSecond : Option Rat := none

/- What the guard reads of a request: `userId` of the body, the header x-forwarded-for, the peer. -/
structure GuardedRequest where
  userId : Option String := none
  forwardedFor : Option String := none
  ip : Option String := none

structure RateLimitHeaders where
  limit : Int
  remaining : Num
  retryAfter : Option Num := none

structure TooManyRequests where
  statusCode : Nat := 429
  error : String := "Too Many Requests"
  message : String := "Rate limit exceeded"
  retryAfterMs : Num

structure Decision where
  headers : Option RateLimitHeaders := none
  result : Except TooManyRequests Bool

def Decision.passed (d : Decision) : Bool := d.result.toOption = some true

def identify (request : GuardedRequest) : String :=
  match request.userId.filter (· ≠ "") with
  | some userId => "user:" ++ userId
  | none =>
    let forwarded := request.forwardedFor.map fun header =>
      Idempotency.trim ((header.splitOn ",").headD "")
    "ip:" ++ (forwarded.or request.ip).getD "unknown"

def bucketKey (options : RateLimitOptions) (identity : String) : String :=
  "ratelimit:" ++ options.bucket ++ ":" ++ identity

/- What the guard makes of the script's reply. An error is taken for an outage. -/
def decisionOf (capacity : Int) : Except Err TokenBucketResult → Decision
  | .error _ => { result := .ok true }
  | .ok decision =>
    let headers : RateLimitHeaders := ⟨capacity, Num.max (.ofInt 0) decision.remaining, none⟩
    if decision.allowed then { headers := some headers, result := .ok true }
    else
      let retryAfterSeconds :=
        Num.max (.ofInt 1) (ceil (decision.retryAfterMs.div (.ofInt 1000)))
      { headers := some { headers with retryAfter := some retryAfterSeconds }
        result := .error { retryAfterMs := decision.retryAfterMs } }

/- A request that reached the script. The code keeps no such record. -/
structure Seen where
  identity : String
  entry : Entry
  decision : Decision

structure Limiter where
  clock : Rat
  hashes : String → Option Hash := fun _ => none
  seen : List Seen := []

/-- The guard on one request, with the one clock that all replicas and Redis share. -/
def canActivate (config : RateLimitConfig) (options : Option RateLimitOptions) (s : Limiter)
    (request : GuardedRequest) : Limiter × Decision :=
  if ¬ config.enabled then (s, { result := .ok true })
  else match options with
  | none => (s, { result := .ok true })
  | some options =>
    let capacity := options.capacity.getD config.capacity
    let refill := options.refillPerSecond.getD config.refillPerSecond
    let key := bucketKey options (identify request)
    let (hash, reply) := tokenBucket int64 s.clock (s.hashes key) (.ofInt capacity) (.fin refill)
      (.fin s.clock) (.ofInt 1)
    let decision := decisionOf capacity reply
    (⟨s.clock, Function.update s.hashes key hash,
      s.seen ++ [⟨identify request, ⟨s.clock, s.clock, 1, reply⟩, decision⟩]⟩, decision)

/- The last instant that `Date.now()` can give. -/
def lastDate : Rat := 8640000000000000

inductive LimiterAct where
  | tick (d : Rat)
  | request (request : GuardedRequest)
  | removed (key : String)

variable (config : RateLimitConfig) (options : RateLimitOptions)

def Limiter.step (s : Limiter) : LimiterAct → Limiter
  | .tick d => { s with clock := s.clock + d }
  | .request request => (canActivate config options s request).1
  | .removed key => { s with hashes := Function.update s.hashes key none }

/- Redis removes a key at its deadline or later. -/
def Due (clock : Rat) (hash : Option Hash) : Prop :=
  ∃ deadline ∈ hash.bind (·.expiresAt), deadline ≤ clock

def Limiter.Ok (s : Limiter) : LimiterAct → Prop
  | .tick d => 0 ≤ d ∧ s.clock + d ≤ lastDate
  | .request _ => True
  | .removed key => Due s.clock (s.hashes key)

abbrev Limiter.Reach : Limiter → Limiter → Prop :=
  Relation.ReflTransGen fun s s' => ∃ a, s.Ok a ∧ s' = s.step config options a

def letThrough (identity : String) (x y : Rat) (seen : List Seen) : Nat :=
  seen.countP fun e => e.identity = identity ∧ e.decision.passed ∧ x ≤ e.entry.clock ∧ e.entry.clock ≤ y

/-! One bucket by itself. -/

def OnClock (s : BucketKey) : Act → Prop
  | .tick d => 0 ≤ d ∧ s.clock + d ≤ lastDate
  | .call now cost => now = s.clock ∧ cost = 1
  | .removed => Due s.clock s.hash

def passes (capacity : Int) (x y : Rat) (history : List Entry) : Nat :=
  history.countP fun e => (decisionOf capacity e.result).passed ∧ x ≤ e.clock ∧ e.clock ≤ y

def Limiter.view (identity : String) (s : Limiter) : BucketKey :=
  ⟨s.clock, s.hashes (bucketKey options identity),
    (s.seen.filter (·.identity = identity)).map (·.entry)⟩

variable {options} {capacity : Int} {refill : Rat} {identity bucket : String} {s s' : Limiter}

theorem bucketKey_inj {i j : String} : bucketKey options i = bucketKey options j ↔ i = j :=
  String.append_right_inj _

/- The decorator of the booking endpoint gives a bucket only. -/
def bookingOptions (bucket : String) : RateLimitOptions := { bucket }

theorem view_own (request : GuardedRequest) (own : identify request = identity) :
    (s.step ⟨true, capacity, refill⟩ (bookingOptions bucket) (.request request)).view
        (bookingOptions bucket) identity =
      (s.view (bookingOptions bucket) identity).step int64 capacity refill (.call s.clock 1) := by
  subst own
  simp [Limiter.step, canActivate, bookingOptions, Limiter.view, BucketKey.step, Num.ofInt]

theorem view_other (request : GuardedRequest) (other : identify request ≠ identity) :
    (s.step ⟨true, capacity, refill⟩ (bookingOptions bucket) (.request request)).view
        (bookingOptions bucket) identity = s.view (bookingOptions bucket) identity := by
  have key : bucketKey (bookingOptions bucket) identity ≠
      bucketKey (bookingOptions bucket) (identify request) :=
    fun same => other (bucketKey_inj.mp same).symm
  simp [Limiter.step, canActivate, Limiter.view, other, Function.update_of_ne key]

/-- Whatever the limiter does, the bucket of one identity takes steps of its own. -/
theorem view_reach (identity : String) {clock : Rat} (run : Limiter.Reach ⟨true, capacity, refill⟩
      (bookingOptions bucket) { clock } s) :
    Reach int64 capacity refill OnClock (unused clock)
      (s.view (bookingOptions bucket) identity) := by
  induction run with
  | refl => exact .refl
  | @tail s s' _ step ih =>
    obtain ⟨a, ok, rfl⟩ := step
    cases a with
    | tick d => exact ih.tail ⟨.tick d, ok, rfl⟩
    | request request =>
      by_cases own : identify request = identity
      · exact ih.tail ⟨.call s.clock 1, ⟨rfl, rfl⟩, view_own request own⟩
      · rw [view_other request own]
        exact ih
    | removed key =>
      by_cases own : key = bucketKey (bookingOptions bucket) identity
      · subst own
        refine ih.tail ⟨.removed, ok, ?_⟩
        simp [Limiter.step, Limiter.view, BucketKey.step]
      · have same : (s.step ⟨true, capacity, refill⟩ (bookingOptions bucket) (.removed key)).view
            (bookingOptions bucket) identity = s.view (bookingOptions bucket) identity := by
          simp [Limiter.step, Limiter.view, Function.update_of_ne (Ne.symm own)]
        rw [same]
        exact ih

/-- Whatever a bucket does by itself, it does in the limiter. -/
theorem reach_view (request : GuardedRequest) {b : BucketKey} (run : Reach int64 capacity refill
      OnClock (s.view (bookingOptions bucket) (identify request)) b) :
    ∃ s', Limiter.Reach ⟨true, capacity, refill⟩ (bookingOptions bucket) s s' ∧
      s'.view (bookingOptions bucket) (identify request) = b := by
  induction run with
  | refl => exact ⟨s, .refl, rfl⟩
  | tail _ step ih =>
    obtain ⟨s', before, rfl⟩ := ih
    obtain ⟨a, ok, rfl⟩ := step
    cases a with
    | tick d => exact ⟨_, before.tail ⟨.tick d, ok, rfl⟩, rfl⟩
    | call now cost =>
      obtain ⟨rfl, rfl⟩ := ok
      exact ⟨_, before.tail ⟨.request request, trivial, rfl⟩, view_own request rfl⟩
    | removed =>
      refine ⟨_, before.tail ⟨.removed (bucketKey _ (identify request)), ok, rfl⟩, ?_⟩
      simp [Limiter.step, Limiter.view, BucketKey.step]

theorem seen_request (request : GuardedRequest) : ∃ reply,
    (s.step ⟨true, capacity, refill⟩ (bookingOptions bucket) (.request request)).seen =
      s.seen ++ [⟨identify request, ⟨s.clock, s.clock, 1, reply⟩, decisionOf capacity reply⟩] := by
  simp [Limiter.step, canActivate, bookingOptions]

theorem seen_decision {clock : Rat} (run : Limiter.Reach ⟨true, capacity, refill⟩
      (bookingOptions bucket) { clock } s) :
    ∀ e ∈ s.seen, e.decision = decisionOf capacity e.entry.result := by
  induction run with
  | refl => simp
  | tail _ step ih =>
    obtain ⟨a, _, rfl⟩ := step
    cases a with
    | tick d => exact ih
    | request request =>
      obtain ⟨reply, seen⟩ := seen_request request
      rw [seen]
      intro e he
      rcases List.mem_append.mp he with old | new
      · exact ih e old
      · rw [List.mem_singleton.mp new]
    | removed key => exact ih

theorem letThrough_view {clock : Rat} (run : Limiter.Reach ⟨true, capacity, refill⟩
      (bookingOptions bucket) { clock } s) (x y : Rat) :
    letThrough identity x y s.seen =
      passes capacity x y (s.view (bookingOptions bucket) identity).history := by
  have recorded := seen_decision run
  simp only [letThrough, passes, Limiter.view, List.countP_map, List.countP_filter]
  apply List.countP_congr
  intro e he
  simp only [recorded e he, Function.comp, Bool.and_eq_true, decide_eq_true_eq]
  tauto

end Overbook.RateLimit
