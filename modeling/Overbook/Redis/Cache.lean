import Overbook.Async.Program
import Overbook.Config

/-! The cache in front of the database: read, take the lock, load, write back. Payloads `V` are a
parameter. -/
namespace Overbook.Redis

open Async Prog

structure CacheEnvelope (V : Type) where
  v : V
  freshUntil : Int

structure CacheOptions where
  ttlSeconds : Option Int := none

/- `setTimeout` answers when the timer is due; `more` is one more round of a loop, beyond those that
the model unrolls, and is never answered. -/
inductive Effect (V : Type) where
  | get (key : String)
  | set (key : String) (envelope : CacheEnvelope V) (ttlSeconds : Int)
  | setNx (key token : String) (ttlMs : Int)
  | releaseLock (key token : String)
  | randomUUID
  | dateNow
  | random
  | setTimeout (ms : Int)
  | elapsed (due : Int)
  | load (key : String)
  | answer (r : Except Err V)
  | more

abbrev Effect.Answer {V : Type} : Effect V → Type
  | .get _ => Option (CacheEnvelope V)
  | .setNx .. => Bool
  | .randomUUID => Uuid
  | .dateNow => Int
  | .random => Rat
  | .setTimeout _ => Int
  | .load _ => V
  | .more => Empty
  | _ => Unit

def redisDown : Err := .other "Reached the max retries per request limit"

abbrev Cached (V α : Type) := Prog (Effect V) Effect.Answer Err α

variable {V : Type}

abbrev ask (e : Effect V) : Cached V e.Answer := await e

/- The token, if the lock was free. -/
def acquireLock (key : String) (ttlMs : Int) : Cached V (Option Uuid) := do
  let token ← ask .randomUUID
  let won ← ask (.setNx key token ttlMs)
  return if won then some token else none

def releaseLock (key token : String) : Cached V Unit :=
  tryCatch (ask (.releaseLock key token)) fun _ => return ()

def withLock (key : String) (ttlMs : Int) (fn : Cached V Unit) : Cached V Unit := do
  match ← acquireLock key ttlMs with
  | none => return ()
  | some token => fn.ensure (releaseLock key token)

def ttlWithJitter (baseSeconds jitterSeconds : Int) : Cached V Int := do
  if jitterSeconds ≤ 0 then return max 1 baseSeconds
  let offset := ((← ask .random) * (jitterSeconds + 1)).floor
  return max 1 (baseSeconds + offset)

def read (key : String) : Cached V (Option (CacheEnvelope V)) :=
  tryCatch (ask (.get key)) fun _ => return none

variable (config : CacheConfig) (options : CacheOptions) (key : String)

def write (value : V) : Cached V Unit := do
  let base := options.ttlSeconds.getD config.ttlSeconds
  let freshSeconds ← ttlWithJitter base config.ttlJitterSeconds
  let now ← ask .dateNow
  let envelope := ⟨value, now + freshSeconds * 1000⟩
  tryCatch (ask (.set key envelope (freshSeconds + config.staleSeconds))) fun _ => return ()

def lockKey : String := "lock:" ++ key

def loadAndWrite : Cached V V := do
  let value ← ask (.load key)
  write config options key value
  return value

def sleep (ms : Int) : Cached V Unit := do
  ask (.elapsed (← ask (.setTimeout ms)))

/- The losers' loop, at most `rounds` of it. -/
def waitForWinner (deadline : Int) : Nat → Cached V V
  | 0 => do nomatch ← ask .more
  | rounds + 1 => do
    if (← ask .dateNow) < deadline then
      sleep 20
      match ← read key with
      | some entry => return entry.v
      | none => waitForWinner deadline rounds
    else ask (.load key)

/-- Only the lock winner loads; the losers wait briefly for the winner's write. -/
def singleFlight (rounds : Nat) : Cached V V := do
  match ← acquireLock (lockKey key) config.lockTtlMs with
  | some token => (loadAndWrite config options key).ensure (releaseLock (lockKey key) token)
  | none =>
    let deadline := (← ask .dateNow) + min config.lockTtlMs 2000
    waitForWinner key deadline rounds

def refreshInBackground : Cached V Unit :=
  tryCatch
    (withLock (lockKey key) config.lockTtlMs do
      let _ ← loadAndWrite config options key)
    fun _ => return ()

/- What `getOrLoad` resolves to, and whether it has a refresh going in the background. -/
structure Served (V : Type) where
  value : V
  refresh : Bool := false

def getOrLoad (rounds : Nat) : Cached V (Served V) := do
  if ¬ config.enabled then return { value := ← ask (.load key) }
  let entry ← read key
  let now ← ask .dateNow
  match entry with
  | some entry =>
    if now < entry.freshUntil then return { value := entry.v }
    else if config.stampedeProtection then return { value := entry.v, refresh := true }
    else return { value := ← loadAndWrite config options key }
  | none =>
    if config.stampedeProtection then return { value := ← singleFlight config options key rounds }
    else return { value := ← loadAndWrite config options key }

def serve (rounds : Nat) : Cached V Unit := do
  let served ← (getOrLoad config options key rounds).outcome
  ask (.answer (served.map (·.value)))
  match served with
  | .ok served => runIf served.refresh (refreshInBackground config options key)
  | .error _ => return ()

def eventCacheKey (id : String) : String := "cache:event:" ++ id

/- A configuration in which every time to live is the same. -/
def noJitter : CacheConfig := { ttlJitterSeconds := 0 }

end Overbook.Redis
