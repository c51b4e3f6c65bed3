import Overbook.Idempotency.Interceptor
import Overbook.Redis.Exclusion

/-! The sweep of expired keys, which every replica's cron starts every minute. The lease is given
back as soon as the sweep is through, so it keeps another replica out for as long as the sweep
takes, and not for the minute. -/
namespace Overbook.Cleanup

open Async Prog Lease
open Idempotency (KeyStore lost)

def LOCK_KEY : String := "cron:idempotency-cleanup"

def LOCK_TTL_MS : Int := 60000

inductive Query where
  | newDate
  | deleteExpired (now : Time)

abbrev Query.Answer : Query → Type
  | .newDate => Time
  | .deleteExpired _ => Nat

/- The rows that have gone are only counted for the log. -/
def sweep : Prog Query Query.Answer Err Unit := do
  let now ← await .newDate
  let _affected ← await (.deleteExpired now)

def sweepExpiredKeys : Job Query Query.Answer Unit := .withLock LOCK_KEY LOCK_TTL_MS sweep

variable {B R : Type}

structure Table (B R : Type) where
  rows : KeyStore B R
  deletes : List Tid

def Table.delete (t : Tid) (table : Table B R) (now : Time) : Table B R :=
  ⟨table.rows.sweep now, t :: table.deletes⟩

inductive Reply where
  | ok (n : Nat)
  | fail
  | lostReply

/- A clock may say anything. A statement fails, or is executed and may lose its reply. -/
def perform (t : Tid) (_ : Int) (table : Table B R) :
    (q : Query) → Reply → Option (Table B R × Except Err q.Answer)
  | .newDate, .ok now => some (table, .ok now)
  | .deleteExpired now, .ok affected => some (table.delete t now, .ok affected)
  | .deleteExpired _, .fail => some (table, .error lost)
  | .deleteExpired now, .lostReply => some (table.delete t now, .error lost)
  | _, _ => none

def database (B R : Type) : World (Table B R) Query Query.Answer Reply (KeyStore B R) where
  perform := perform
  happen table rows := some { table with rows }

abbrev Crons (B R : Type) := Clients (Table B R) Query Query.Answer Unit

abbrev Action (B R : Type) := Act (Job Query Query.Answer Unit) (Choice Reply) (Ext (KeyStore B R))

variable (minute : Tid → Nat)

/-- The lease of this minute is still held wherever a replica asks for it after another one has had
it. -/
def Kept (p : Crons B R) : Action B R → Prop
  | .start _ j => j = sweepExpiredKeys
  | .step t _ => ∀ j key token ttlMs k, p.slot t = .live j (.setNx key token ttlMs) k →
      ∀ x ∈ p.shared.taken, minute x.task = minute t → x.task ≠ t → (p.shared.lock key).isSome
  | _ => True

/-- The lease of a minute is taken once, and only who has taken it deletes. -/
structure OneEach (s : LockStore (Table B R)) : Prop where
  winners : ∀ x ∈ s.taken, ∀ x' ∈ s.taken, minute x.task = minute x'.task → x.task = x'.task
  deletes : ∀ t ∈ s.world.deletes, ∃ x ∈ s.taken, x.task = t

variable {minute} {t : Tid} {s s' : LockStore (Table B R)} {c : Choice Reply}

theorem perform_deletes (clock : Int) {table table' : Table B R} {q : Query} {reply : Reply}
    {r : Except Err q.Answer} (h : perform t clock table q reply = some (table', r)) :
    ∀ t' ∈ table'.deletes, t' = t ∨ t' ∈ table.deletes := by
  cases q <;> cases reply <;> simp only [perform, reduceCtorEq, Option.some.injEq,
    Prod.mk.injEq] at h
  all_goals obtain ⟨rfl, -⟩ := h
  all_goals intro t' mem
  case deleteExpired.ok => exact List.mem_cons.mp mem
  case deleteExpired.lostReply => exact List.mem_cons.mp mem
  all_goals exact .inr mem

/- One step: a lease is only taken when nobody has had it this minute, and a sweep that deletes
has taken it. -/
theorem exec_once {e : Effect Query} {r : Except Err (e.Answer Query.Answer)} (h : OneEach minute s)
    (he : exec (database B R) t s e c = some (s', r))
    (first : ∀ key token ttlMs, e = .setNx key token ttlMs → s.lock key = none →
      ∀ x ∈ s.taken, minute x.task = minute t → x.task = t)
    (won : ∀ w, e = .work w → ∃ x ∈ s.taken, x.task = t) : OneEach minute s' := by
  cases exec_moves he with
  | same => exact h
  | named => exact ⟨h.winners, h.deletes⟩
  | @taken key token ttlMs free =>
    have alone := first key token ttlMs rfl free
    constructor
    · intro x hx x' hx' same
      rcases List.mem_cons.mp hx with rfl | hx <;> rcases List.mem_cons.mp hx' with rfl | hx'
      · rfl
      · exact (alone x' hx' same.symm).symm
      · exact alone x hx same
      · exact h.winners x hx x' hx' same
    · intro t' mem
      obtain ⟨x, hx, task⟩ := h.deletes t' mem
      exact ⟨x, List.mem_cons_of_mem _ hx, task⟩
  | @released key token =>
    rcases release_cases s key token with same | ⟨l, _, _, gone⟩
    · rw [same]
      exact h
    · rw [gone]
      exact ⟨h.winners, h.deletes⟩
  | @worked w world =>
    obtain ⟨reply, table, done, eq⟩ := work_ok he
    rw [eq]
    refine ⟨h.winners, fun t' mem => ?_⟩
    rcases perform_deletes s.clock done t' mem with rfl | before
    · exact won w rfl
    · exact h.deletes t' before

theorem settle_once (h : OneEach minute s) (t : Tid) (j : Job Query Query.Answer Unit)
    (b : Locked Query Query.Answer (Result Unit)) :
    OneEach minute ((leases (database B R) Unit).settle t j s b).1 := by
  obtain ⟨granted, same⟩ := settle_store (G := database B R) t j s b
  rw [same]
  exact ⟨h.winners, h.deletes⟩

theorem kept_once {clock : Int} {rows : KeyStore B R} {p : Crons B R}
    (run : (leases (database B R) Unit).Reach (Kept minute) (noLocks clock ⟨rows, []⟩) p) :
    OneEach minute p.shared := by
  induction run with
  | refl => exact ⟨nofun, nofun⟩
  | @step p q a run ok st ih =>
    have sound := lease_sound run
    have jobs : ∀ t j, (p.slot t).job = some j → some sweepExpiredKeys = some j :=
      run.jobs fun r a ok t j start => by
        subst start
        exact congrArg some ok.symm
    cases Machine.steps_of_step st with
    | start idle ready => exact settle_once ih ..
    | @step t c j e k s r live answered =>
      refine settle_once (exec_once ih answered ?_ ?_) ..
      · rintro key token ttlMs rfl free x hx together
        by_contra other
        have held := ok j key token ttlMs k live x hx together other
        simp [free] at held
      · rintro w rfl
        have job := congrArg Slot.job live
        rw [← Option.some.inj (jobs t j job)] at job
        obtain ⟨x, hx, task, _⟩ := sound.here live LOCK_KEY LOCK_TTL_MS sweep job
        exact ⟨x, hx, task⟩
    | kill live => exact ih
    | @env x s happened =>
      cases x with
      | tick d =>
        simp only [leases, ext] at happened
        split at happened
        · cases happened
          exact ⟨ih.winners, ih.deletes⟩
        · cases happened
      | world rows =>
        cases happened
        exact ⟨ih.winners, ih.deletes⟩

/-- At most one replica deletes in a minute, in every run in which the lease of the minute is still
held wherever another replica asks for it. -/
theorem one_sweep_a_minute {clock : Int} {rows : KeyStore B R} {p : Crons B R}
    (run : (leases (database B R) Unit).Reach (Kept minute) (noLocks clock ⟨rows, []⟩) p)
    {t t' : Tid} (deleted : t ∈ p.shared.world.deletes) (deleted' : t' ∈ p.shared.world.deletes)
    (together : minute t = minute t') : t = t' := by
  have once := kept_once run
  obtain ⟨x, hx, rfl⟩ := once.deletes t deleted
  obtain ⟨x', hx', rfl⟩ := once.deletes t' deleted'
  exact once.winners x hx x' hx' together

def holding (minute : Tid → Nat) (p : Crons B R) : Action B R → Bool
  | .step t _ => match p.slot t with
    | .live _ (.setNx key _ _) _ =>
      p.shared.taken.all fun x => minute x.task != minute t || x.task == t || (p.shared.lock key).isSome
    | _ => true
  | _ => true

theorem kept_of_holding {p : Crons B R} {a : Action B R} (starts : ∀ t j, a = .start t j →
    j = sweepExpiredKeys) (h : holding minute p a = true) : Kept minute p a := by
  cases a with
  | start t j => exact starts t j rfl
  | step t c =>
    intro j key token ttlMs k live x hx together other
    simp only [holding, live] at h
    simpa [together, other] using List.all_eq_true.mp h x hx
  | kill t => trivial
  | env x => trivial

def noTable : Table String String := ⟨⟨fun _ => none, [], []⟩, []⟩

/- A second replica fires 5 ms after a first one, which is still sweeping. -/
def longSweep : List (Action String String) :=
  [.start 0 sweepExpiredKeys, .step 0 (.uuid "a"), .step 0 .ok, .step 0 (.work (.ok 60000)),
    .env (.tick 5), .start 1 sweepExpiredKeys, .step 1 (.uuid "b"), .step 1 .ok,
    .step 0 (.work (.ok 2)), .step 0 .ok]

theorem one_sweep_long : ∃ p, (leases (database String String) Unit).Reach (Kept fun _ => 0)
    (noLocks 0 noTable) p ∧ p.shared.world.deletes = [0] ∧ ∀ t ∈ p.shared.world.deletes, t = 0 := by
  have replay : ((leases (database String String) Unit).runChecked (holding fun _ => 0)
      (noLocks 0 noTable) longSweep).map (·.shared.world.deletes) = some [0] := by decide +kernel
  obtain ⟨p, run, deletes⟩ := Option.map_eq_some_iff.mp replay
  have kept : (leases (database String String) Unit).Reach (Kept fun _ => 0)
      (noLocks 0 noTable) p := by
    refine .of_checked run fun a mem r ok => kept_of_holding (fun t j start => ?_) ok
    subst start
    simp [longSweep] at mem
    exact mem.elim (·.2) (·.2)
  have first : 0 ∈ p.shared.world.deletes := deletes ▸ List.mem_singleton_self 0
  exact ⟨p, kept, deletes, fun t mem => one_sweep_a_minute kept mem first rfl⟩

/-- Redis is reachable, and all that runs is the cron of one minute. -/
def Fires (_ : Crons String String) : Action String String → Prop
  | .start _ j => j = sweepExpiredKeys
  | .step _ c => c ≠ .fail ∧ c ≠ .lostReply
  | _ => True

/- The first replica has swept and released the lease before the second one fires. -/
def shortSweep : List (Action String String) :=
  [.start 0 sweepExpiredKeys, .step 0 (.uuid "a"), .step 0 .ok, .step 0 (.work (.ok 60000)),
    .env (.tick 3), .step 0 (.work (.ok 2)), .step 0 .ok, .env (.tick 2),
    .start 1 sweepExpiredKeys, .step 1 (.uuid "b"), .step 1 .ok, .step 1 (.work (.ok 60005)),
    .step 1 (.work (.ok 0)), .step 1 .ok]

/-- Two replicas delete, although their crons fire for one minute, 5 ms apart. -/
theorem second_sweep : ¬ ∀ p,
    (leases (database String String) Unit).Reach Fires (noLocks 0 noTable) p → p.shared.clock ≤ 5 →
      ∀ t ∈ p.shared.world.deletes, ∀ t' ∈ p.shared.world.deletes, t = t' := by
  intro claim
  have replay : ((leases (database String String) Unit).run (noLocks 0 noTable) shortSweep).map
      (fun p => (p.shared.world.deletes, p.shared.clock)) = some ([1, 0], 5) := by decide +kernel
  obtain ⟨p, run, eq⟩ := Option.map_eq_some_iff.mp replay
  obtain ⟨deletes, clock⟩ := Prod.mk.inj eq
  have fires : (leases (database String String) Unit).Reach Fires (noLocks 0 noTable) p := by
    refine .of_run run fun a mem r => ?_
    simp only [shortSweep, List.mem_cons, List.not_mem_nil, or_false] at mem
    rcases mem with rfl | rfl | rfl | rfl | rfl | rfl | rfl | rfl | rfl | rfl | rfl | rfl | rfl | rfl
    all_goals simp [Fires]
  have same := claim p fires (Int.le_of_eq clock)
  rw [deletes] at same
  exact absurd (same 0 (by decide) 1 (by decide)) (by decide)

end Overbook.Cleanup
