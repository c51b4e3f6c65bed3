import Overbook.Async.Pool
import Overbook.Redis.Cache
import Mathlib.Data.Rat.Floor

/-! One Redis, one clock, and any number of calls on any number of replicas. -/
namespace Overbook.Redis

open Async Prog

variable {V : Type}

structure Entry (V : Type) extends CacheEnvelope V where
  expiresAt : Int

structure Lock where
  token : Uuid
  expiresAt : Int

/-! What the environment keeps. The code never reads it. -/

inductive Flight where
  | loaded (clock : Int)
  | written (freshUntil : Int)
  deriving DecidableEq

/- `holds` is the lock that a task has taken, and since when, until it has written its entry. `waits`
is the lock that a task has found taken, and when its round of waiting began: with that SET NX, or
with its last timer. `deleted` are the invalidations, each with the version that it is about. -/
structure CacheStore (V : Type) where
  clock : Int
  entries : String → Option (Entry V)
  locks : String → Option Lock
  uuids : List (Uuid × Tid)
  database : String → V
  holds : Tid → Option (String × Int)
  waits : Tid → Option (String × Int)
  history : String → List Flight
  deleted : List (String × Nat)
  answers : List (Tid × Except Err V)

inductive Choice where
  | ok
  | fail
  | lostReply
  | uuid (u : Uuid)
  | random (q : Rat)

def invalidExpire : Err := .other "ERR invalid expire time in 'set' command"

def databaseDown : Err := .other "the connection is lost"

namespace CacheStore

variable (t : Tid) (s : CacheStore V) (key token : String)

def entry : Option (Entry V) := (s.entries key).filter fun e => s.clock ≤ e.expiresAt

def lock : Option Lock := (s.locks key).filter fun l => s.clock ≤ l.expiresAt

def set (envelope : CacheEnvelope V) (ttlSeconds : Int) : CacheStore V :=
  { s with
    entries := Function.update s.entries key
      (some { envelope with expiresAt := s.clock + ttlSeconds * 1000 })
    holds := if (s.holds t).map (·.1) = some (lockKey key) then Function.update s.holds t none
      else s.holds
    history := Function.update s.history key (s.history key ++ [.written envelope.freshUntil]) }

def take (ttlMs : Int) : CacheStore V :=
  { s with
    locks := Function.update s.locks key (some ⟨token, s.clock + ttlMs⟩)
    holds := Function.update s.holds t (some (key, s.clock)) }

def lose : CacheStore V := { s with waits := Function.update s.waits t (some (key, s.clock)) }

def timer : CacheStore V :=
  { s with waits := Function.update s.waits t ((s.waits t).map fun wait => (wait.1, s.clock)) }

/- RELEASE_LOCK_LUA. -/
def release : CacheStore V :=
  if (s.lock key).map (·.token) = some token then
    { s with locks := Function.update s.locks key none }
  else s

def load : CacheStore V :=
  { s with history := Function.update s.history key (s.history key ++ [.loaded s.clock]) }

def del (version : Nat) : CacheStore V :=
  { s with
    entries := Function.update s.entries key none
    deleted := s.deleted ++ [(key, version)] }

end CacheStore

def exec (t : Tid) (s : CacheStore V) :
    (e : Effect V) → Choice → Option (CacheStore V × Except Err e.Answer)
  | .get key, .ok => some (s, .ok ((s.entry key).map (·.toCacheEnvelope)))
  | .get _, .fail => some (s, .error redisDown)
  | .set key envelope ttlSeconds, .ok =>
    if 0 < ttlSeconds then some (s.set t key envelope ttlSeconds, .ok ())
    else some (s, .error invalidExpire)
  | .set .., .fail => some (s, .error redisDown)
  | .set key envelope ttlSeconds, .lostReply =>
    if 0 < ttlSeconds then some (s.set t key envelope ttlSeconds, .error redisDown) else none
  | .setNx key token ttlMs, .ok =>
    if 0 < ttlMs then
      if (s.lock key).isSome then some (s.lose t key, .ok false)
      else some (s.take t key token ttlMs, .ok true)
    else some (s, .error invalidExpire)
  | .setNx .., .fail => some (s, .error redisDown)
  | .setNx key token ttlMs, .lostReply =>
    if 0 < ttlMs ∧ (s.lock key).isNone then some (s.take t key token ttlMs, .error redisDown)
    else none
  | .releaseLock key token, .ok => some (s.release key token, .ok ())
  | .releaseLock .., .fail => some (s, .error redisDown)
  | .releaseLock key token, .lostReply => some (s.release key token, .error redisDown)
  | .randomUUID, .uuid u =>
    if u ∈ s.uuids.map (·.1) then none else some ({ s with uuids := (u, t) :: s.uuids }, .ok u)
  | .dateNow, .ok => some (s, .ok s.clock)
  | .random, .random q => if 0 ≤ q ∧ q < 1 then some (s, .ok q) else none
  | .setTimeout ms, .ok => some (s.timer t, .ok (s.clock + ms))
  | .elapsed due, .ok => if due ≤ s.clock then some (s, .ok ()) else none
  | .load key, .ok => some (s.load key, .ok (s.database key))
  | .load _, .fail => some (s, .error databaseDown)
  | .answer r, .ok => some ({ s with answers := s.answers ++ [(t, r)] }, .ok ())
  | _, _ => none

inductive Ext (V : Type) where
  | tick (d : Int)
  | commit (database : String → V)
  | del (key : String) (version : Nat)

def ext (s : CacheStore V) : Ext V → Option (CacheStore V)
  | .tick d => if 0 ≤ d then some { s with clock := s.clock + d } else none
  | .commit database => some { s with database }
  | .del key version => some (s.del key version)

/- One call; `after` is how many invalidations it comes after. -/
structure Call where
  key : String
  options : CacheOptions := {}
  after : Nat := 0

/-- Any number of calls, with at most `rounds` rounds of waiting each. -/
def cache (V : Type) (config : CacheConfig) (rounds : Nat) :
    Machine (CacheStore V) Call (Effect V) Effect.Answer Err Unit Choice (Ext V) where
  code call := serve config call.options call.key rounds
  ready s call := call.after = s.deleted.length
  exec := exec
  finish _ _ _ s := s
  ext := ext

abbrev Calls (V : Type) := Pool (CacheStore V) Call (Effect V) Effect.Answer Err Unit

def emptyCache (clock : Int) (database : String → V) : Calls V :=
  .initial ⟨clock, fun _ => none, fun _ => none, [], database, fun _ => none, fun _ => none,
    fun _ => [], [], []⟩

/-- All that an answer can do to the store. -/
inductive Moves (t : Tid) (s : CacheStore V) : Effect V → CacheStore V → Prop where
  | same {e : Effect V} : Moves t s e s
  | written {key : String} {envelope : CacheEnvelope V} {ttlSeconds : Int} (lasts : 0 < ttlSeconds) :
      Moves t s (.set key envelope ttlSeconds) (s.set t key envelope ttlSeconds)
  | taken {key token : String} {ttlMs : Int} (free : s.lock key = none) :
      Moves t s (.setNx key token ttlMs) (s.take t key token ttlMs)
  | lost {key token : String} {ttlMs : Int} (taken : (s.lock key).isSome = true) :
      Moves t s (.setNx key token ttlMs) (s.lose t key)
  | slept {ms : Int} : Moves t s (.setTimeout ms) (s.timer t)
  | released {key token : String} : Moves t s (.releaseLock key token) (s.release key token)
  | named {u : Uuid} (new : u ∉ s.uuids.map (·.1)) :
      Moves t s .randomUUID { s with uuids := (u, t) :: s.uuids }
  | loaded {key : String} : Moves t s (.load key) (s.load key)
  | answered {r : Except Err V} :
      Moves t s (.answer r) { s with answers := s.answers ++ [(t, r)] }

variable {t : Tid} {s s' : CacheStore V} {c : Choice}

theorem exec_moves {e : Effect V} {r : Except Err e.Answer}
    (h : exec t s e c = some (s', r)) : Moves t s e s' := by
  cases e <;> cases c <;> simp only [exec, reduceCtorEq] at h
  all_goals repeat' split at h
  all_goals simp only [Option.some.injEq, Prod.mk.injEq, reduceCtorEq] at h
  all_goals obtain ⟨rfl, -⟩ := h
  case set.ok.isTrue lasts => exact .written lasts
  case set.lostReply.isTrue lasts => exact .written lasts
  case setNx.ok.isTrue.isTrue taken => exact .lost taken
  case setNx.ok.isTrue.isFalse free => exact .taken (by simpa using free)
  case setNx.lostReply.isTrue free => exact .taken (by simpa using free.2)
  case randomUUID.uuid.isFalse new => exact .named new
  case setTimeout.ok => exact .slept
  case releaseLock.ok => exact .released
  case releaseLock.lostReply => exact .released
  case load.ok => exact .loaded
  case answer.ok => exact .answered
  all_goals exact .same

/-! Redis is reachable, and so is the database. -/

def Choice.healthy : Choice → Bool
  | .fail => false
  | .lostReply => false
  | _ => true

theorem set_ok {key : String} {envelope : CacheEnvelope V} {ttlSeconds : Int}
    {r : Except Err Unit} (lasts : 0 < ttlSeconds) (healthy : c.healthy)
    (h : exec t s (.set key envelope ttlSeconds) c = some (s', r)) :
    s' = s.set t key envelope ttlSeconds ∧ r = .ok () := by
  cases c <;> simp [exec, lasts, Choice.healthy] at h healthy
  exact ⟨h.1.symm, h.2.symm⟩

theorem setNx_ok {key token : String} {ttlMs : Int} {r : Except Err Bool} (lasts : 0 < ttlMs)
    (healthy : c.healthy) (h : exec t s (.setNx key token ttlMs) c = some (s', r)) :
    (s.lock key = none ∧ s' = s.take t key token ttlMs ∧ r = .ok true) ∨
      ((s.lock key).isSome = true ∧ s' = s.lose t key ∧ r = .ok false) := by
  cases c <;> simp [exec, lasts, Choice.healthy] at h healthy
  cases held : s.lock key with
  | none =>
    simp [held] at h
    exact .inl ⟨rfl, h.1.symm, h.2.symm⟩
  | some l =>
    simp [held] at h
    exact .inr ⟨rfl, h.1.symm, h.2.symm⟩

theorem randomUUID_ok {r : Except Err Uuid} (h : exec t s .randomUUID c = some (s', r)) :
    ∃ u, u ∉ s.uuids.map (·.1) ∧ s' = { s with uuids := (u, t) :: s.uuids } ∧ r = .ok u := by
  cases c with
  | uuid u =>
    simp only [exec] at h
    split at h
    · cases h
    · rename_i new
      cases h
      exact ⟨u, new, rfl, rfl⟩
  | _ => cases h

theorem load_ok {key : String} {r : Except Err V} (healthy : c.healthy)
    (h : exec t s (.load key) c = some (s', r)) : s' = s.load key ∧ r = .ok (s.database key) := by
  cases c <;> simp [exec, Choice.healthy] at h healthy
  exact ⟨h.1.symm, h.2.symm⟩

theorem get_ok {key : String} {r : Except Err (Option (CacheEnvelope V))} (healthy : c.healthy)
    (h : exec t s (.get key) c = some (s', r)) :
    s' = s ∧ r = .ok ((s.entry key).map (·.toCacheEnvelope)) := by
  cases c <;> simp [exec, Choice.healthy] at h healthy
  exact ⟨h.1.symm, h.2.symm⟩

theorem dateNow_ok {r : Except Err Int} (h : exec t s .dateNow c = some (s', r)) :
    s' = s ∧ r = .ok s.clock := by
  cases c <;> simp [exec] at h
  exact ⟨h.1.symm, h.2.symm⟩

theorem random_ok {r : Except Err Rat} (h : exec t s .random c = some (s', r)) :
    s' = s ∧ ∃ q, 0 ≤ q ∧ r = .ok q := by
  cases c with
  | random q =>
    simp only [exec] at h
    split at h
    · rename_i unit
      cases h
      exact ⟨rfl, q, unit.1, rfl⟩
    · cases h
  | _ => cases h

end Overbook.Redis
