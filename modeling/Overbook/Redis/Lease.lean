import Overbook.Async.Linearizable
import Overbook.Async.Translate
import Overbook.Redis.Machine

/-! The lock of `RedisService` as a lease: a key belongs to whoever took it until it expires or is
released. What is done under a lock is a parameter: the work `W`, its answers `B`, and the world `ω`
that it is done in. -/
namespace Overbook.Lease

open Async Prog
open Redis (Lock redisDown invalidExpire)

inductive Effect (W : Type) where
  | randomUUID
  | setNx (key token : String) (ttlMs : Int)
  | releaseLock (key token : String)
  | work (w : W)

abbrev Effect.Answer {W : Type} (B : W → Type) : Effect W → Type
  | .randomUUID => Uuid
  | .setNx .. => Bool
  | .releaseLock .. => Unit
  | .work w => B w

abbrev Locked (W : Type) (B : W → Type) (α : Type) := Prog (Effect W) (Effect.Answer B) Err α

variable {W : Type} {B : W → Type} {ω C X T : Type}

abbrev ask (e : Effect W) : Locked W B (e.Answer B) := await e

def acquireLock (key : String) (ttlMs : Int) : Locked W B (Option Uuid) := do
  let token ← ask .randomUUID
  let won ← ask (.setNx key token ttlMs)
  return if won then some token else none

def releaseLock (key token : String) : Locked W B Unit :=
  tryCatch (ask (.releaseLock key token)) fun _ => return ()

def lift (fn : Prog W B Err T) : Locked W B T := fn.translate .work fun _ r => r

/-- Runs `fn` only if this call won the lock. -/
def withLock (key : String) (ttlMs : Int) (fn : Prog W B Err T) : Locked W B (Option T) := do
  match ← acquireLock key ttlMs with
  | none => return none
  | some token => return some (← (lift fn).ensure (releaseLock key token))

section Cache

/-! The cache takes its locks by these functions: its own commands are the work. -/

variable {V : Type}

def command : Effect (Redis.Effect V) → Redis.Effect V
  | .randomUUID => .randomUUID
  | .setNx key token ttlMs => .setNx key token ttlMs
  | .releaseLock key token => .releaseLock key token
  | .work e => e

def commandAnswer : (e : Effect (Redis.Effect V)) → Except Err (command e).Answer →
    Except Err (e.Answer Redis.Effect.Answer)
  | .randomUUID, r => r
  | .setNx .., r => r
  | .releaseLock .., r => r
  | .work _, r => r

def embed {α : Type} (p : Locked (Redis.Effect V) Redis.Effect.Answer α) : Redis.Cached V α :=
  p.translate command commandAnswer

theorem embed_acquireLock (key : String) (ttlMs : Int) :
    embed (acquireLock key ttlMs) = Redis.acquireLock (V := V) key ttlMs := by
  refine congrArg (call _) (funext fun token => ?_)
  cases token with
  | error x => rfl
  | ok token =>
    refine congrArg (call _) (funext fun won => ?_)
    cases won <;> rfl

theorem embed_releaseLock (key token : String) :
    embed (releaseLock key token) = Redis.releaseLock (V := V) key token := by
  refine congrArg (call _) (funext fun r => ?_)
  cases r <;> rfl

theorem embed_lift (fn : Redis.Cached V T) : embed (lift fn) = fn := by
  induction fn with
  | done a => rfl
  | fail x => rfl
  | call e k ih => exact congrArg (call e) (funext ih)

/-- The refreshes of the cache run under this lock. -/
theorem embed_withLock (key : String) (ttlMs : Int) (fn : Redis.Cached V Unit) :
    embed (do let _ ← withLock key ttlMs fn; return ()) = Redis.withLock key ttlMs fn := by
  unfold withLock Redis.withLock embed
  rw [translate_bind, translate_bind]
  have taken := embed_acquireLock (V := V) key ttlMs
  unfold embed at taken
  rw [taken, bind_bind]
  refine congrArg _ (funext fun token => ?_)
  cases token with
  | none => rfl
  | some token =>
    have whole := translate_ensure command commandAnswer (lift fn) (releaseLock key token)
    have body := embed_lift fn
    have released := embed_releaseLock (V := V) key token
    unfold embed at body released
    rw [body, released] at whole
    simp only [translate_bind, whole, bind_bind]
    exact bind_done _

end Cache

/-- What is done in the world, and what happens to it. -/
structure World (ω W : Type) (B : W → Type) (C X : Type) where
  perform : Tid → Int → ω → (w : W) → C → Option (ω × Except Err (B w))
  happen : ω → X → Option ω

/-! What the environment keeps. The code never reads it. -/

structure Taken where
  task : Tid
  key : String
  token : Uuid
  clock : Int
  ttlMs : Int

/- `taken` has the newest SET first; `granted` are the tokens that calls of `acquireLock` returned. -/
structure LockStore (ω : Type) where
  clock : Int
  locks : String → Option Lock
  world : ω
  uuids : List (Uuid × Tid)
  taken : List Taken
  granted : List (Tid × Uuid)

inductive Choice (C : Type) where
  | ok
  | fail
  | lostReply
  | uuid (u : Uuid)
  | work (c : C)

def Taken.lock (x : Taken) : Lock := ⟨x.token, x.clock + x.ttlMs⟩

namespace LockStore

variable (t : Tid) (s : LockStore ω) (key token : String)

/- Redis drops a key once its last millisecond is over. -/
def lock : Option Lock := (s.locks key).filter fun l => s.clock ≤ l.expiresAt

def last : Option Taken := s.taken.find? fun x => x.key == key

def take (ttlMs : Int) : LockStore ω :=
  let x : Taken := ⟨t, key, token, s.clock, ttlMs⟩
  { s with locks := Function.update s.locks key (some x.lock), taken := x :: s.taken }

/- RELEASE_LOCK_LUA. -/
def release : LockStore ω :=
  if (s.lock key).map (·.token) = some token then
    { s with locks := Function.update s.locks key none }
  else s

end LockStore

def exec (G : World ω W B C X) (t : Tid) (s : LockStore ω) :
    (e : Effect W) → Choice C → Option (LockStore ω × Except Err (e.Answer B))
  | .randomUUID, .uuid u =>
    if u ∈ s.uuids.map (·.1) then none else some ({ s with uuids := (u, t) :: s.uuids }, .ok u)
  | .setNx key token ttlMs, .ok =>
    if 0 < ttlMs then
      if (s.lock key).isSome then some (s, .ok false) else some (s.take t key token ttlMs, .ok true)
    else some (s, .error invalidExpire)
  | .setNx .., .fail => some (s, .error redisDown)
  | .setNx key token ttlMs, .lostReply =>
    if 0 < ttlMs ∧ (s.lock key).isNone then some (s.take t key token ttlMs, .error redisDown)
    else none
  | .releaseLock key token, .ok => some (s.release key token, .ok ())
  | .releaseLock .., .fail => some (s, .error redisDown)
  | .releaseLock key token, .lostReply => some (s.release key token, .error redisDown)
  | .work w, .work c =>
    (G.perform t s.clock s.world w c).map fun a => ({ s with world := a.1 }, a.2)
  | _, _ => none

inductive Ext (X : Type) where
  | tick (d : Int)
  | world (x : X)

def ext (G : World ω W B C X) (s : LockStore ω) : Ext X → Option (LockStore ω)
  | .tick d => if 0 ≤ d then some { s with clock := s.clock + d } else none
  | .world x => (G.happen s.world x).map fun world => { s with world }

/- A call of one of the three functions. A token is released by whom it was granted to: `taker` is
the call of `acquireLock` that returned it. -/
inductive Job (W : Type) (B : W → Type) (T : Type) where
  | acquireLock (key : String) (ttlMs : Int)
  | releaseLock (taker : Tid) (key token : String)
  | withLock (key : String) (ttlMs : Int) (fn : Prog W B Err T)

def Job.taker (t : Tid) : Job W B T → Tid
  | .releaseLock taker .. => taker
  | _ => t

inductive Result (T : Type) where
  | token (token : Option Uuid)
  | released
  | ran (value : Option T)

def code : Job W B T → Locked W B (Result T)
  | .acquireLock key ttlMs => do return .token (← acquireLock key ttlMs)
  | .releaseLock _ key token => do releaseLock key token; return .released
  | .withLock key ttlMs fn => do return .ran (← withLock key ttlMs fn)

def grant (t : Tid) (s : LockStore ω) : Except Err (Result T) → LockStore ω
  | .ok (.token (some token)) => { s with granted := (t, token) :: s.granted }
  | _ => s

/-- Any number of calls of any number of clients, and one Redis. -/
def leases (G : World ω W B C X) (T : Type) :
    Machine (LockStore ω) (Job W B T) (Effect W) (Effect.Answer B) Err (Result T) (Choice C)
      (Ext X) where
  code := code
  ready s
    | .releaseLock taker _ token => s.granted.contains (taker, token)
    | _ => true
  exec := exec G
  finish t _ r s := grant t s r
  ext := ext G

abbrev Clients (ω W : Type) (B : W → Type) (T : Type) :=
  Pool (LockStore ω) (Job W B T) (Effect W) (Effect.Answer B) Err (Result T)

def noLocks (clock : Int) (world : ω) : Clients ω W B T :=
  .initial ⟨clock, fun _ => none, world, [], [], []⟩

end Overbook.Lease
