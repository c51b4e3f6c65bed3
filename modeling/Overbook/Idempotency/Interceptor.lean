import Overbook.Async.Soundness
import Overbook.Config

/-! The interceptor in front of the booking endpoint: a request with an Idempotency-Key claims
the key, runs the handler, and stores the response or releases the key. Request bodies `B`,
response bodies `R` and the fingerprint are parameters. -/
namespace Overbook.Idempotency

open Async Prog

inductive IdempotencyStatus where
  | inProgress
  | completed
  deriving DecidableEq

/- A row of `idempotency_keys`, less the key. -/
structure IdempotencyKey (R : Type) where
  endpoint : String
  requestHash : String
  status : IdempotencyStatus := .inProgress
  responseStatus : Option Nat := none
  responseBody : Option R := none
  expiresAt : Time

structure Request (B : Type) where
  idempotencyKey : Option String := none
  method : String
  routePath : Option String := none
  path : String
  originalUrl : String
  body : B

/- An answer to the client; `replayed` is the header Idempotent-Replay. -/
structure Reply (R : Type) where
  status : Nat
  body : Option R
  replayed : Bool
  deriving DecidableEq

inductive Claim (R : Type) where
  | proceed
  | replay (status : Nat) (body : Option R)

/- White space and line ends, as `String.prototype.trim` has them. -/
def isSpace (c : Char) : Bool :=
  let n := c.toNat
  (9 ≤ n && n ≤ 13) || (0x2000 ≤ n && n ≤ 0x200a) ||
    [0x20, 0xa0, 0x1680, 0x2028, 0x2029, 0x202f, 0x205f, 0x3000, 0xfeff].contains n

def trim (s : String) : String :=
  String.ofList ((s.toList.dropWhile isSpace).reverse.dropWhile isSpace).reverse

variable {B R : Type}

/- The trimmed header; an empty one is no key. -/
def Request.key (request : Request B) : Option String :=
  (request.idempotencyKey.map trim).filter (· ≠ "")

def Request.endpoint (request : Request B) : String :=
  s!"{request.method} {request.routePath.getD request.path}"

def ttlHours : Nat := 24

/- `TTL_HOURS * 3600 * 1000`. -/
def ttl : Time := ttlHours * 3600 * 1000

/-! What the environment keeps. The owner of a row or a booking is the request that made it;
the code never reads it. -/

structure Claimed (R : Type) extends IdempotencyKey R where
  owner : Tid

structure Booked (B R : Type) where
  request : Request B
  owner : Tid
  status : Nat
  body : R

structure KeyStore (B R : Type) where
  keys : String → Option (Claimed R)
  booked : List (Booked B R)
  answers : List (Tid × Except Err (Reply R))

def KeyStore.put (s : KeyStore B R) (key : String) (row : Option (Claimed R)) : KeyStore B R :=
  { s with keys := Function.update s.keys key row }

@[simp] theorem KeyStore.put_self (s : KeyStore B R) (key : String) (row : Option (Claimed R)) :
    (s.put key row).keys key = row := Function.update_self ..

theorem KeyStore.put_of_ne {key key' : String} (ne : key' ≠ key) (s : KeyStore B R)
    (row : Option (Claimed R)) : (s.put key row).keys key' = s.keys key' :=
  Function.update_of_ne ne ..

inductive Effect (B R : Type) where
  | dateNow
  | insertKey (key : String) (row : IdempotencyKey R)
  | findKey (key : String)
  | handle (request : Request B)
  | updateKey (key : String) (status : Nat) (body : R)
  | deleteKey (key : String)
  | answer (reply : Except Err (Reply R))

/- `insertKey` answers whether RETURNING gave back a row. -/
abbrev Effect.Answer : Effect B R → Type
  | .dateNow => Time
  | .insertKey .. => Bool
  | .findKey _ => Option (IdempotencyKey R)
  | .handle _ => Nat × R
  | _ => Unit

/-- The handler ends in one committed booking and its response, or in an error with nothing
committed. A statement may fail, or take effect and lose its reply. -/
inductive Choice (R : Type) where
  | ok
  | fail
  | lostReply
  | time (now : Time)
  | booked (status : Nat) (body : R)
  | threw (error : Err)

def lost : Err := .other "the connection is lost"

namespace KeyStore

/- INSERT ... ON CONFLICT DO NOTHING. -/
def insertKey (t : Tid) (s : KeyStore B R) (key : String) (row : IdempotencyKey R) :
    KeyStore B R :=
  if (s.keys key).isSome then s else s.put key (some { row with owner := t })

def updateKey (s : KeyStore B R) (key : String) (status : Nat) (body : R) : KeyStore B R :=
  s.put key ((s.keys key).map fun row =>
    { row with status := .completed, responseStatus := some status, responseBody := some body })

def sweep (s : KeyStore B R) (now : Time) : KeyStore B R :=
  { s with keys := fun key => (s.keys key).filter fun row => ¬ row.expiresAt < now }

end KeyStore

def exec (t : Tid) (s : KeyStore B R) :
    (e : Effect B R) → Choice R → Option (KeyStore B R × Except Err e.Answer)
  | .dateNow, .time now => some (s, .ok now)
  | .insertKey key row, .ok => some (s.insertKey t key row, .ok (s.keys key).isNone)
  | .insertKey key row, .lostReply => some (s.insertKey t key row, .error lost)
  | .insertKey .., .fail => some (s, .error lost)
  | .findKey key, .ok => some (s, .ok ((s.keys key).map (·.toIdempotencyKey)))
  | .findKey _, .fail => some (s, .error lost)
  | .handle request, .booked status body =>
    some ({ s with booked := s.booked ++ [⟨request, t, status, body⟩] }, .ok (status, body))
  | .handle _, .threw error => some (s, .error error)
  | .updateKey key status body, .ok => some (s.updateKey key status body, .ok ())
  | .updateKey key status body, .lostReply => some (s.updateKey key status body, .error lost)
  | .updateKey .., .fail => some (s, .error lost)
  | .deleteKey key, .ok => some (s.put key none, .ok ())
  | .deleteKey key, .lostReply => some (s.put key none, .error lost)
  | .deleteKey _, .fail => some (s, .error lost)
  | .answer reply, .ok => some ({ s with answers := s.answers ++ [(t, reply)] }, .ok ())
  | _, _ => none

/- The one thing that happens to rows on its own is the sweep of expired keys. -/
inductive Ext where
  | sweep (now : Time)

abbrev Handler (B R α : Type) := Prog (Effect B R) Effect.Answer Err α

abbrev ask (e : Effect B R) : Handler B R e.Answer := await e

def complete (key : String) (status : Nat) (body : R) : Handler B R Unit :=
  tryCatch (ask (.updateKey key status body)) fun _ => pure ()

def release (key : String) : Handler B R Unit :=
  tryCatch (ask (.deleteKey key)) fun _ => pure ()

def otherBody : Err :=
  .unprocessableEntity "This Idempotency-Key was already used with a different request body"

def inProgress : Err :=
  .conflict "A request with this Idempotency-Key is still in progress, retry shortly"

/- What `claim` makes of the row that was there first. -/
def onExisting (fingerprint : String) : Option (IdempotencyKey R) → Except Err (Claim R)
  -- the row was swept, or released, between the insert and the read
  | none => .ok .proceed
  | some existing =>
    if existing.requestHash ≠ fingerprint then .error otherBody
    else match existing.status, existing.responseStatus with
      | .completed, some status => .ok (.replay status existing.responseBody)
      | _, _ => .error inProgress

def claim (key endpoint fingerprint : String) : Handler B R (Claim R) := do
  let now ← ask .dateNow
  let inserted ← ask (.insertKey key { endpoint, requestHash := fingerprint, expiresAt := now + ttl })
  if inserted then pure .proceed
  else Prog.ofExcept (onExisting fingerprint (← ask (.findKey key)))

def answer (reply : Except Err (Reply R)) : Handler B R Unit := ask (.answer reply)

def handled (result : Nat × R) : Reply R := ⟨result.1, some result.2, false⟩

/- Without a key the client has accepted the risk of duplicates. -/
def unguarded (request : Request B) : Handler B R Unit := do
  answer ((← outcome (ask (.handle request))).map handled)

/-- The handler, and what becomes of the key. The answer leaves first: `complete` and
`release` are not waited for. -/
def guarded (key : String) (request : Request B) : Handler B R Unit := do
  match ← outcome (ask (.handle request)) with
  | .ok result =>
    answer (.ok (handled result))
    complete key result.1 result.2
  | .error error =>
    answer (.error error)
    release key

def afterClaim (key : String) (request : Request B) : Except Err (Claim R) → Handler B R Unit
  | .error error => answer (.error error)
  | .ok (.replay status body) => answer (.ok ⟨status, body, true⟩)
  | .ok .proceed => guarded key request

def intercept (requestFingerprint : String → String → B → String) (request : Request B) :
    Handler B R Unit :=
  match request.key with
  | none => unguarded request
  | some key => do
    let fingerprint := requestFingerprint request.method request.originalUrl request.body
    afterClaim key request (← outcome (claim key request.endpoint fingerprint))

/-- Any number of requests on any number of replicas, over one table of keys. -/
def interceptor (R : Type) (requestFingerprint : String → String → B → String) :
    Machine (KeyStore B R) (Request B) (Effect B R) Effect.Answer Err Unit (Choice R) Ext where
  code := intercept requestFingerprint
  ready _ _ := true
  exec := exec
  finish _ _ _ s := s
  ext s x := match x with | .sweep now => some (s.sweep now)

abbrev Requests (B R : Type) := Pool (KeyStore B R) (Request B) (Effect B R) Effect.Answer Err Unit

def noKeys : Requests B R := .initial ⟨fun _ => none, [], []⟩

/-- What an answered effect has done to the shared state. -/
inductive Moves (t : Tid) (s : KeyStore B R) : Effect B R → KeyStore B R → Prop where
  | same (e : Effect B R) : Moves t s e s
  | inserted (key : String) (row : IdempotencyKey R) :
      Moves t s (.insertKey key row) (s.insertKey t key row)
  | booked (request : Request B) (status : Nat) (body : R) : Moves t s (.handle request)
      { s with booked := s.booked ++ [⟨request, t, status, body⟩] }
  | updated (key : String) (status : Nat) (body : R) :
      Moves t s (.updateKey key status body) (s.updateKey key status body)
  | deleted (key : String) : Moves t s (.deleteKey key) (s.put key none)
  | answered (reply : Except Err (Reply R)) : Moves t s (.answer reply)
      { s with answers := s.answers ++ [(t, reply)] }

variable {t : Tid} {s s' : KeyStore B R} {c : Choice R}

theorem exec_moves {e : Effect B R} {r : Except Err e.Answer}
    (h : exec t s e c = some (s', r)) : Moves t s e s' := by
  cases e <;> cases c <;> simp only [exec, Option.some.injEq, Prod.mk.injEq, reduceCtorEq] at h
    <;> obtain ⟨rfl, _⟩ := h <;> constructor

theorem inserted_ok {key : String} {row : IdempotencyKey R} {won : Bool}
    (h : exec t s (.insertKey key row) c = some (s', .ok won)) :
    s' = s.insertKey t key row ∧ won = (s.keys key).isNone := by
  cases c <;> simp only [exec, Option.some.injEq, Prod.mk.injEq, reduceCtorEq, and_false,
    Except.ok.injEq] at h
  exact ⟨h.1.symm, h.2.symm⟩

theorem found_ok {key : String} {row : Option (IdempotencyKey R)}
    (h : exec t s (.findKey key) c = some (s', .ok row)) :
    row = (s.keys key).map (·.toIdempotencyKey) := by
  cases c <;> simp only [exec, Option.some.injEq, Prod.mk.injEq, reduceCtorEq, and_false,
    Except.ok.injEq] at h
  exact h.2.symm

theorem threw_same {request : Request B} {error : Err}
    (h : exec t s (.handle request) c = some (s', .error error)) : s' = s := by
  cases c <;> simp only [exec, Option.some.injEq, Prod.mk.injEq, reduceCtorEq, and_false] at h
  exact h.1.symm

end Overbook.Idempotency
