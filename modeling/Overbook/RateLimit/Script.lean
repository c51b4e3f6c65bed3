import Overbook.Config
import Overbook.JsNumber
import Mathlib.Logic.Relation

/-! The token bucket as a Lua script: one hash under one key, read, refilled and written back in
one atomic step of Redis. -/
namespace Overbook

namespace Num

/-! Lua computes with the same numbers as JavaScript. -/

def div : Num → Num → Num
  | fin a, fin b => if b ≠ 0 then fin (a / b) else if a = 0 then nan else if 0 < a then inf else ninf
  | nan, _ => nan
  | _, nan => nan
  | fin _, _ => fin 0
  | a, fin b => if 0 ≤ b then a else a.neg
  | _, _ => nan

/- `math.ceil`. -/
def ceil : Num → Num
  | fin q => fin q.ceil
  | a => a

/- The operator `<`. -/
def lt (a b : Num) : Bool := a.le b && a != b

/- `math.max` and `math.min` replace their first argument only by one that compares. -/
def luaMax (a b : Num) : Num := if a.lt b then b else a

def luaMin (a b : Num) : Num := if b.lt a then b else a

end Num

namespace RateLimit

open Overbook.Num

structure Hash where
  tokens : Num
  ts : Num
  expiresAt : Option Rat
  deriving DecidableEq

structure TokenBucketResult where
  allowed : Bool
  remaining : Num
  retryAfterMs : Num
  deriving DecidableEq

def notAnInteger : Err := .other "ERR value is not an integer or out of range"

/- The integers of Redis, and integers of any size, which exact arithmetic would have. -/
def int64 (q : Rat) : Bool := -2 ^ 63 ≤ q ∧ q < 2 ^ 63

def unbounded : Rat → Bool := fun _ => true

variable (fits : Rat → Bool)

/- PEXPIRE takes an integer, in milliseconds, if it and the deadline both fit. A time that is not
positive removes the key at once. -/
def pexpire (redisNow : Rat) (ms : Num) (hash : Hash) : Except Err (Option Hash) :=
  match ms with
  | .fin q =>
    if q.den = 1 ∧ fits q ∧ fits (redisNow + q) then
      .ok (if 0 < q then some { hash with expiresAt := some (redisNow + q) } else none)
    else .error notAnInteger
  | _ => .error notAnInteger

/- `math.ceil((capacity / refill) * 1000) + 1000`. -/
def expiry (capacity refill : Num) : Num :=
  ((capacity.div refill).mul (.ofInt 1000)).ceil.add (.ofInt 1000)

/- `math.ceil(((cost - tokens) / refill) * 1000)`. -/
def retryAfter (refill cost tokens : Num) : Num :=
  (((cost.sub tokens).div refill).mul (.ofInt 1000)).ceil

def refilled (hash : Option Hash) (capacity refill now : Num) : Num :=
  let tokens := (hash.map (·.tokens)).getD capacity
  let ts := (hash.map (·.ts)).getD now
  let elapsed := (luaMax (.ofInt 0) (now.sub ts)).div (.ofInt 1000)
  luaMin capacity (tokens.add (elapsed.mul refill))

/-- The hash that the script leaves behind, and its reply. An error of PEXPIRE aborts it; what
HSET has written by then stays, and so does the former time to live. -/
def tokenBucket (redisNow : Rat) (hash : Option Hash) (capacity refill now cost : Num) :
    Option Hash × Except Err TokenBucketResult :=
  let tokens := refilled hash capacity refill now
  let allowed := cost.le tokens
  let tokens := if allowed then tokens.sub cost else tokens
  let written : Hash := ⟨tokens, now, hash.bind (·.expiresAt)⟩
  match pexpire fits redisNow (expiry capacity refill) written with
  | .error error => (some written, .error error)
  | .ok kept =>
    let retryAfterMs := if allowed then .ofInt 0 else retryAfter refill cost tokens
    (kept, .ok ⟨allowed, tokens.floor, retryAfterMs⟩)

/-- One call of the script: when it ran, the time that its caller passed, and the reply. The
code keeps no such record. -/
structure Entry where
  clock : Rat
  now : Rat
  cost : Rat
  result : Except Err TokenBucketResult

def Entry.decision (e : Entry) : Option (Bool × Num) :=
  e.result.toOption.map fun r => (r.allowed, r.remaining)

def Entry.allowed (e : Entry) : Bool := (e.decision.map (·.1)).getD false

/- One bucket key; `clock` is the true time, in milliseconds, which Redis goes by. -/
structure BucketKey where
  clock : Rat
  hash : Option Hash := none
  history : List Entry := []

def unused (clock : Rat) : BucketKey := { clock }

inductive Act where
  | tick (d : Rat)
  | call (now cost : Rat)
  | removed
  deriving DecidableEq

def BucketKey.step (capacity refill : Rat) (s : BucketKey) : Act → BucketKey
  | .tick d => { s with clock := s.clock + d }
  | .call now cost =>
    let (hash, result) := tokenBucket fits s.clock s.hash (.fin capacity) (.fin refill) (.fin now)
      (.fin cost)
    ⟨s.clock, hash, s.history ++ [⟨s.clock, now, cost, result⟩]⟩
  | .removed => { s with hash := none }

abbrev Reach (capacity refill : Rat) (Ok : BucketKey → Act → Prop) : BucketKey → BucketKey → Prop :=
  Relation.ReflTransGen fun s s' => ∃ a, Ok s a ∧ s' = s.step fits capacity refill a

def Follows (capacity refill : Rat) (Ok : BucketKey → Act → Prop) : BucketKey → List Act → Prop
  | _, [] => True
  | s, a :: acts => Ok s a ∧ Follows capacity refill Ok (s.step fits capacity refill a) acts

instance Follows.decidable (capacity refill : Rat) (Ok : BucketKey → Act → Prop)
    [∀ s a, Decidable (Ok s a)] :
    ∀ s acts, Decidable (Follows fits capacity refill Ok s acts)
  | _, [] => isTrue trivial
  | s, a :: acts =>
    have := decidable capacity refill Ok (s.step fits capacity refill a) acts
    inferInstanceAs (Decidable (Ok s a ∧ Follows fits capacity refill Ok _ acts))

theorem Follows.reach {capacity refill : Rat} {Ok : BucketKey → Act → Prop} {s : BucketKey}
    {acts : List Act} (h : Follows fits capacity refill Ok s acts) :
    Reach fits capacity refill Ok s (acts.foldl (BucketKey.step fits capacity refill) s) := by
  induction acts generalizing s with
  | nil => exact .refl
  | cons a acts ih =>
    obtain ⟨ok, rest⟩ := h
    exact .head ⟨a, ok, rfl⟩ (ih rest)

def granted (x y : Rat) (history : List Entry) : Rat :=
  (history.map fun e => if e.allowed ∧ x ≤ e.clock ∧ e.clock ≤ y then e.cost else 0).sum

end RateLimit

end Overbook
