import Mathlib.Data.Set.Card
import Overbook.Async.Soundness
import Overbook.Config

/-! The semaphore. A permit goes from a finishing task straight to the first waiter, which goes on
only later, and new calls may come in between. What the permits have done is kept in three logs:
the calls of `run`, those that have been granted a permit, and those whose `finally` has run. -/
namespace Overbook.Concurrency

open Async Prog

/-- `waiters` holds the `resolve` functions, each named by the call that waits for it. -/
structure Semaphore where
  permits : Int
  available : Int
  waiters : List Tid

namespace Semaphore

def new (permits : Int) : Except Err Semaphore :=
  if permits < 1 then .error (.other "Semaphore needs at least one permit")
  else .ok ⟨permits, permits, []⟩

def inFlight (s : Semaphore) : Int := s.permits - s.available

def queued (s : Semaphore) : Nat := s.waiters.length

/- `acquire` up to its first await, and whether it returns without waiting. -/
def acquire (t : Tid) (s : Semaphore) : Semaphore × Bool :=
  if 0 < s.available then ({ s with available := s.available - 1 }, true)
  else ({ s with waiters := s.waiters ++ [t] }, false)

/- `release`, and whose `resolve` it calls. -/
def release (s : Semaphore) : Semaphore × Option Tid :=
  match s.waiters with
  | next :: waiters => ({ s with waiters }, some next)
  | [] => if s.available < s.permits then ({ s with available := s.available + 1 }, none)
          else (s, none)

end Semaphore

/- `resolved` is the promise of a waiter, `turn` the turn that an await takes even where nothing
is waited for, and `fn` the task from the moment it is called until it has settled. -/
inductive Effect where
  | acquire
  | resolved
  | turn
  | fn
  | release

abbrev Effect.Answer (T : Type) : Effect → Type
  | .acquire => Bool
  | .fn => T
  | _ => Unit

inductive Choice (T : Type) where
  | ok
  | returns (value : T)
  | throws (error : Err)

variable {T : Type}

abbrev Job (T : Type) := Prog Effect (Effect.Answer T) Err

abbrev ask (e : Effect) : Job T (e.Answer T) := await e

def acquire : Job T Unit := do
  if ← ask .acquire then return () else ask .resolved

def run : Job T T := do
  acquire
  ask .turn
  (ask .fn).ensure (ask .release)

/-- One semaphore and the three logs. The code never reads them. -/
structure Desk where
  semaphore : Semaphore
  called : List Tid
  granted : List Tid
  finished : List Tid

def exec (t : Tid) (s : Desk) :
    (e : Effect) → Choice T → Option (Desk × Except Err (e.Answer T))
  | .acquire, .ok =>
    let a := s.semaphore.acquire t
    some ({ s with semaphore := a.1, called := s.called ++ [t],
                   granted := if a.2 then s.granted ++ [t] else s.granted }, .ok a.2)
  | .resolved, .ok => if t ∈ s.granted then some (s, .ok ()) else none
  | .turn, .ok => some (s, .ok ())
  | .fn, .returns value => some (s, .ok value)
  | .fn, .throws error => some (s, .error error)
  | .release, .ok =>
    let a := s.semaphore.release
    some ({ s with semaphore := a.1, granted := s.granted ++ a.2.toList,
                   finished := s.finished ++ [t] }, .ok ())
  | _, _ => none

/-- Any number of calls of `run`, each with a task of its own. -/
def calls (T : Type) : Machine Desk Unit Effect (Effect.Answer T) Err T (Choice T) Empty where
  code _ := run
  ready _ _ := true
  exec := exec
  finish _ _ _ s := s
  ext _ x := nomatch x

abbrev Callers (T : Type) := Pool Desk Unit Effect (Effect.Answer T) Err T

def idle (s : Semaphore) : Callers T := .initial ⟨s, [], [], []⟩

/- The process lives on: its tasks end by returning or by throwing. -/
def Alive (_ : Callers T) (a : Act Unit (Choice T) Empty) : Prop := ∀ t, a ≠ .kill t

/-! What a call knows of itself, and what the steps of others leave of it. -/

structure Own (t : Tid) (s s' : Desk) : Prop where
  called : t ∈ s'.called ↔ t ∈ s.called
  granted : t ∈ s.granted → t ∈ s'.granted
  finished : t ∈ s'.finished ↔ t ∈ s.finished

def Stands (t : Tid) (s : Desk) : Effect → Prop
  | .acquire => t ∉ s.called
  | .resolved => t ∈ s.called ∧ t ∉ s.finished
  | _ => t ∈ s.granted ∧ t ∉ s.finished

/-- Nobody is lost: a call has been granted a permit or it is in the queue, in the order of the
calls, and the permits that are out are those of the calls that have not finished. -/
structure Kept (permits : Int) (s : Desk) : Prop where
  positive : 0 < permits
  permits : s.semaphore.permits = permits
  room : 0 ≤ s.semaphore.available
  full : s.semaphore.waiters ≠ [] → s.semaphore.available = 0
  order : s.called = s.granted ++ s.semaphore.waiters
  balance : s.semaphore.inFlight + s.finished.length = s.granted.length
  distinct : s.called.Nodup
  once : s.finished.Nodup
  within : s.finished ⊆ s.granted

variable {t t' : Tid} {s s' : Desk} {permits : Int}

namespace Kept

/-- A call that finds a permit takes it, and one that finds none is the last in the queue. -/
theorem acquire (h : Kept permits s) (new : t ∉ s.called) :
    Kept permits { s with
      semaphore := (s.semaphore.acquire t).1
      called := s.called ++ [t]
      granted := if (s.semaphore.acquire t).2 then s.granted ++ [t] else s.granted } := by
  have distinct : (s.called ++ [t]).Nodup := by
    rw [← List.concat_eq_append]
    exact h.distinct.concat new
  unfold Semaphore.acquire
  split
  · rename_i free
    have nobody : s.semaphore.waiters = [] := by
      by_contra waiting
      have := h.full waiting
      omega
    have balance := h.balance
    unfold Semaphore.inFlight at balance
    constructor
    · exact h.positive
    · exact h.permits
    · change 0 ≤ s.semaphore.available - 1
      omega
    · exact fun waiting => absurd nobody waiting
    · simp [h.order, nobody]
    · simp [Semaphore.inFlight]
      omega
    · exact distinct
    · exact h.once
    · exact fun a mem => List.mem_append_left _ (h.within mem)
  · rename_i taken
    constructor
    · exact h.positive
    · exact h.permits
    · exact h.room
    · intro _
      have := h.room
      change s.semaphore.available = 0
      omega
    · simp [h.order]
    · exact h.balance
    · exact distinct
    · exact h.once
    · exact h.within

/-- A permit goes to the first waiter, or back to the others when nobody waits. -/
theorem release (h : Kept permits s) (own : t ∈ s.granted) (running : t ∉ s.finished) :
    Kept permits { s with
      semaphore := s.semaphore.release.1
      granted := s.granted ++ s.semaphore.release.2.toList
      finished := s.finished ++ [t] } := by
  have once : (s.finished ++ [t]).Nodup := by
    rw [← List.concat_eq_append]
    exact h.once.concat running
  have within : s.finished ++ [t] ⊆ s.granted := by
    intro a mem
    rcases List.mem_append.mp mem with old | new
    · exact h.within old
    · rw [List.mem_singleton.mp new]
      exact own
  have balance := h.balance
  unfold Semaphore.inFlight at balance
  unfold Semaphore.release
  split
  · rename_i next waiters queue
    constructor
    · exact h.positive
    · exact h.permits
    · exact h.room
    · exact fun _ => h.full (by simp [queue])
    · simp [h.order, queue]
    · simp [Semaphore.inFlight]
      omega
    · exact h.distinct
    · exact once
    · exact fun a mem => List.mem_append_left _ (within mem)
  · rename_i queue
    have unfinished : s.finished.length < s.granted.length := by
      have le := (List.subperm_of_subset once within).length_le
      simpa using le
    have room : s.semaphore.available < s.semaphore.permits := by omega
    rw [if_pos room]
    constructor
    · exact h.positive
    · exact h.permits
    · have := h.room
      change 0 ≤ s.semaphore.available + 1
      omega
    · exact fun waiting => absurd queue waiting
    · simp [h.order, queue]
    · simp [Semaphore.inFlight]
      omega
    · exact h.distinct
    · exact once
    · exact fun a mem => List.mem_append_left _ (within mem)

end Kept

/-- What an answer can do. -/
theorem exec_kept {e : Effect} {c : Choice T} {r : Except Err (e.Answer T)} (h : Kept permits s)
    (here : Stands t s e) (answered : exec t s e c = some (s', r)) :
    Kept permits s' ∧ ∀ t', t' ≠ t → Own t' s s' := by
  cases e <;> cases c <;> simp only [exec, reduceCtorEq] at answered
  case acquire =>
    cases answered
    refine ⟨h.acquire here, fun t' ne => ?_⟩
    constructor
    · simp [ne]
    · intro mem
      dsimp only
      split
      · exact List.mem_append_left _ mem
      · exact mem
    · exact Iff.rfl
  case release =>
    cases answered
    refine ⟨h.release here.1 here.2, fun t' ne => ?_⟩
    constructor
    · exact Iff.rfl
    · exact List.mem_append_left _
    · simp [ne]
  case resolved =>
    split at answered <;> cases answered
    exact ⟨h, fun t' _ => ⟨Iff.rfl, id, Iff.rfl⟩⟩
  all_goals
    cases answered
    exact ⟨h, fun t' _ => ⟨Iff.rfl, id, Iff.rfl⟩⟩

/-- The logic of the semaphore. -/
def fair (T : Type) (permits : Int) : Logic (calls T) where
  Inv := Kept permits
  Frame := Own
  Fresh t s := t ∉ s.called
  Here t e s := Stands t s e
  Ok _ _ _ _ := True
  refl _ _ := ⟨Iff.rfl, id, Iff.rfl⟩
  trans _ _ _ _ h h' := ⟨h'.called.trans h.called, fun mem => h'.granted (h.granted mem),
    h'.finished.trans h.finished⟩
  fresh _ _ _ fresh own mem := fresh (own.called.mp mem)
  Ended t s := t ∈ s.finished
  ended _ _ _ ended own := own.finished.mpr ended

theorem Stands.own {e : Effect} (h : Stands t s e) (own : Own t s s') : Stands t s' e := by
  cases e with
  | acquire => exact fun mem => h (own.called.mp mem)
  | resolved => exact ⟨own.called.mpr h.1, fun mem => h.2 (own.finished.mp mem)⟩
  | turn => exact ⟨own.granted h.1, fun mem => h.2 (own.finished.mp mem)⟩
  | fn => exact ⟨own.granted h.1, fun mem => h.2 (own.finished.mp mem)⟩
  | release => exact ⟨own.granted h.1, fun mem => h.2 (own.finished.mp mem)⟩

theorem ask_fair {e : Effect} {Q : Except Err (e.Answer T) → Desk → Prop} (here : Stands t s e)
    (next : ∀ s₁ c s₂ r, Kept permits s₁ → Stands t s₁ e → exec t s₁ e c = some (s₂, r) → Q r s₂) :
    (fair T permits).Safe t (ask e) Q s := by
  apply Logic.Safe.await
  intro s₁ own inv
  have there := here.own own
  refine ⟨there, fun c s₂ r _ he => ?_⟩
  exact ⟨exec_kept inv there he, next s₁ c s₂ r inv there he⟩

theorem acquire_fair (new : t ∉ s.called) :
    (fair T permits).Safe t acquire (fun r s => r = .ok () ∧ t ∈ s.granted ∧ t ∉ s.finished) s := by
  apply Logic.Safe.bind
  refine ask_fair new fun s₁ c s₂ r inv new he => ?_
  have unfinished : t ∉ s₁.finished := fun mem => new (by simp [inv.order, inv.within mem])
  cases c <;> simp only [exec, reduceCtorEq] at he
  cases he
  dsimp only
  split
  · exact ⟨rfl, by simp, unfinished⟩
  · refine ask_fair ⟨by simp, unfinished⟩ fun s₃ c s₄ r inv here he => ?_
    cases c <;> simp only [exec, reduceCtorEq] at he
    split at he <;> cases he
    rename_i granted
    exact ⟨rfl, granted, here.2⟩

theorem run_fair (new : t ∉ s.called) :
    (fair T permits).Safe t run (fun _ s => t ∈ s.finished) s := by
  apply Logic.Safe.bind
  refine (acquire_fair new).mono fun r s₁ granted => ?_
  rw [granted.1]
  apply Logic.Safe.bind
  refine ask_fair granted.2 fun s₂ c s₃ r _ here he => ?_
  cases c <;> simp only [exec, reduceCtorEq] at he
  cases he
  apply Logic.Safe.ensure
  refine ask_fair here fun s₄ c s₅ r _ here he => ?_
  have same : s₅ = s₄ := by
    cases c <;> simp only [exec, reduceCtorEq] at he <;> cases he <;> rfl
  rw [same]
  refine ask_fair here fun s₆ c s₇ u _ here he => ?_
  cases c <;> simp only [exec, reduceCtorEq] at he
  cases he
  simp

theorem fair_verified (T : Type) (permits : Int) :
    Logic.Verified (fair T permits) Alive (fun t _ _ s => t ∈ s.finished) where
  allowed _ _ _ _ _ _ _ _ := trivial
  code _ _ _ _ _ _ new := run_fair new
  finish _ _ _ _ inv _ := ⟨inv, fun _ _ => ⟨Iff.rfl, id, Iff.rfl⟩⟩
  ext _ x := nomatch x
  ended _ _ _ _ _ finished := finished
  gone _ t _ _ _ alive := absurd rfl (alive t)

theorem alive_slot {p q : Callers T} (run : (calls T).Reach Alive p q)
    (start : ∀ t j, p.slot t ≠ .gone j) : ∀ t j, q.slot t ≠ .gone j := by
  induction run with
  | refl => exact start
  | @step q q' a _ alive st ih =>
    intro t j
    have settle : ∀ s (b : Job T T), ((calls T).settle t () s b).2 ≠ .gone j := by
      intro s b
      cases b <;> exact nofun
    by_cases other : a.task ≠ some t
    · rw [Machine.steps_slot (Machine.steps_of_step st) other]
      exact ih t j
    · have same : a.task = some t := not_not.mp other
      cases Machine.steps_of_step st with
      | start => cases same; rw [Machine.put_self]; exact settle _ _
      | step => cases same; rw [Machine.put_self]; exact settle _ _
      | kill => exact absurd rfl (alive _)
      | env => cases same

/-! What can be seen of a call. -/

def Executing (q : Callers T) (t : Tid) : Prop := ∃ j k, q.slot t = .live j .fn k

/- It has got as far as its place in the queue or its permit. -/
def Called (q : Callers T) (t : Tid) : Prop :=
  (∃ j, (q.slot t).job = some j) ∧ ∀ j k, q.slot t ≠ .live j .acquire k

def Finished (q : Callers T) (t : Tid) : Prop := ∃ j r, q.slot t = .ended j r

section Reached

variable {sem : Semaphore} {q q' : Callers T}

theorem reach_fair (made : Semaphore.new permits = .ok sem)
    (run : (calls T).Reach Alive (idle sem) q) :
    Logic.Sound (fair T permits) (fun t _ _ s => t ∈ s.finished) q := by
  refine Logic.reach_sound (fair_verified T permits) (Logic.initial_sound ?_ ?_) run
  · unfold Semaphore.new at made
    split at made
    · cases made
    · rename_i positive
      cases made
      constructor
      · omega
      · rfl
      · change 0 ≤ permits
        omega
      · exact fun waiting => absurd rfl waiting
      · rfl
      · simp [Semaphore.inFlight]
      · exact .nil
      · exact .nil
      · exact fun _ mem => mem
  · exact fun t => List.not_mem_nil

theorem called_iff (made : Semaphore.new permits = .ok sem)
    (run : (calls T).Reach Alive (idle sem) q) : t ∈ q.shared.called ↔ Called q t := by
  have sound := reach_fair made run
  have granted : t ∈ q.shared.granted → t ∈ q.shared.called := fun mem => by
    simp [sound.inv.order, mem]
  cases slot : q.slot t with
  | idle =>
    refine iff_of_false (sound.fresh t slot) ?_
    rintro ⟨⟨j, job⟩, -⟩
    simp [slot, Slot.job] at job
  | live j e k =>
    have here := sound.here slot
    by_cases first : e = .acquire
    · subst first
      exact iff_of_false here fun called => called.2 j k slot
    · have called : t ∈ q.shared.called := by
        cases e with
        | acquire => exact absurd rfl first
        | resolved => exact here.1
        | turn => exact granted here.1
        | fn => exact granted here.1
        | release => exact granted here.1
      refine iff_of_true called ⟨⟨j, by simp [slot, Slot.job]⟩, fun j' k' other => ?_⟩
      cases slot.symm.trans other
      exact first rfl
  | ended j r =>
    have finished := sound.ended t j r slot
    refine iff_of_true (granted (sound.inv.within finished)) ⟨⟨j, ?_⟩, ?_⟩ <;>
      simp [slot, Slot.job]
  | gone j => exact absurd slot (alive_slot run (fun _ _ gone => by cases gone) t j)

theorem finished_iff (made : Semaphore.new permits = .ok sem)
    (run : (calls T).Reach Alive (idle sem) q) : t ∈ q.shared.finished ↔ Finished q t := by
  have sound := reach_fair made run
  constructor
  · intro mem
    cases slot : q.slot t with
    | idle =>
      have called : t ∈ q.shared.called := by
        simp [sound.inv.order, sound.inv.within mem]
      exact absurd called (sound.fresh t slot)
    | live j e k =>
      have here := sound.here slot
      cases e with
      | acquire =>
        have called : t ∈ q.shared.called := by
          simp [sound.inv.order, sound.inv.within mem]
        exact absurd called here
      | resolved => exact absurd mem here.2
      | turn => exact absurd mem here.2
      | fn => exact absurd mem here.2
      | release => exact absurd mem here.2
    | ended j r => exact ⟨j, r, slot⟩
    | gone j => exact absurd slot (alive_slot run (fun _ _ => nofun) t j)
  · rintro ⟨j, r, ended⟩
    exact sound.ended t j r ended

theorem holding_eq (made : Semaphore.new permits = .ok sem)
    (run : (calls T).Reach Alive (idle sem) q) :
    {t | t ∈ q.shared.granted ∧ ¬ Finished q t} =
      ↑(q.shared.granted.toFinset \ q.shared.finished.toFinset) := by
  ext t
  simp [finished_iff made run]

theorem holding_card (h : Kept permits s') :
    ((s'.granted.toFinset \ s'.finished.toFinset).card : Int) = s'.semaphore.inFlight := by
  have granted : s'.granted.Nodup := by
    have distinct := h.distinct
    rw [h.order] at distinct
    exact (List.nodup_append.mp distinct).1
  have within : s'.finished.toFinset ⊆ s'.granted.toFinset := by
    intro t
    simpa using fun mem => h.within mem
  have balance := h.balance
  have all := List.toFinset_card_of_nodup granted
  have done := List.toFinset_card_of_nodup h.once
  have le := Finset.card_le_card within
  rw [Finset.card_sdiff_of_subset within, Nat.cast_sub le, all, done]
  omega

/-- The first calls have their permits: as many as there are, and one for each that has finished. -/
theorem granted_eq (h : Kept permits s') :
    s'.granted = s'.called.take (permits.toNat + s'.finished.length) := by
  have balance := h.balance
  have room := h.room
  have positive := h.positive
  unfold Semaphore.inFlight at balance
  rw [h.permits] at balance
  rw [h.order]
  by_cases waiting : s'.semaphore.waiters = []
  · rw [waiting, List.append_nil, List.take_of_length_le]
    omega
  · have full := h.full waiting
    rw [List.take_left']
    omega

theorem exec_grows {e : Effect} {c : Choice T} {r : Except Err (e.Answer T)}
    (answered : exec t s e c = some (s', r)) :
    s.called <+: s'.called ∧ s.finished <+: s'.finished := by
  cases e <;> cases c <;> simp only [exec, reduceCtorEq] at answered
  case acquire => cases answered; simp
  case release => cases answered; simp
  case resolved => split at answered <;> cases answered; simp
  all_goals cases answered; simp

theorem logs_grow (made : Semaphore.new permits = .ok sem) (run : (calls T).Reach Alive (idle sem) q)
    (on : (calls T).Reach Alive q q') : q.shared.called <+: q'.shared.called ∧
      q.shared.finished <+: q'.shared.finished := by
  refine Logic.reach_invariant (fair_verified T permits) (reach_fair made run) on
    (J := fun s => q.shared.called <+: s.called ∧ q.shared.finished <+: s.finished) ?_ ?_ ?_ ?_
  · exact ⟨List.prefix_refl _, List.prefix_refl _⟩
  · intro t s e c s' r _ _ _ h answered _
    have grown := exec_grows answered
    exact ⟨h.1.trans grown.1, h.2.trans grown.2⟩
  · exact fun _ _ _ _ _ _ h => h
  · exact fun _ x => nomatch x

/-- What `run` promises to its callers in a state that has been reached. -/
structure Serves (permits : Int) (q : Callers T) : Prop where
  bounded : {t | Executing q t}.encard ≤ permits.toNat
  queued : q.shared.semaphore.waiters ≠ [] → q.shared.semaphore.available = 0
  counted : {t | t ∈ q.shared.granted ∧ ¬ Finished q t}.Finite ∧
    ({t | t ∈ q.shared.granted ∧ ¬ Finished q t}.ncard : Int) = q.shared.semaphore.inFlight
  started : ∀ t, t ∈ q.shared.called ↔ Called q t
  inOrder : q.shared.called = q.shared.granted ++ q.shared.semaphore.waiters
  turns : ∀ q', (calls T).Reach Alive q q' → ∃ more : List Tid, more.Nodup ∧
    (∀ t, t ∈ more ↔ Finished q' t ∧ ¬ Finished q t) ∧
    ∀ k t, q.shared.semaphore.waiters[k]? = some t → (t ∈ q'.shared.granted ↔ k < more.length)
  drained : (∀ t ∈ q.shared.granted, Finished q t) → q.shared.semaphore.waiters = [] →
    q.shared.semaphore.inFlight = 0

theorem executing_holds (made : Semaphore.new permits = .ok sem)
    (run : (calls T).Reach Alive (idle sem) q) (h : Executing q t) :
    t ∈ q.shared.granted ∧ ¬ Finished q t := by
  obtain ⟨j, k, live⟩ := h
  have here := (reach_fair made run).here live
  exact ⟨here.1, fun finished => here.2 ((finished_iff made run).mpr finished)⟩

/-- A waiter is as many calls away from its permit as it stands behind in the queue. -/
theorem waiter_granted (h : Kept permits s) (h' : Kept permits s') (called : s.called <+: s'.called)
    {more : List Tid} (finished : s'.finished = s.finished ++ more) {k : Nat}
    (waits : s.semaphore.waiters[k]? = some t) : t ∈ s'.granted ↔ k < more.length := by
  have waiting : s.semaphore.waiters ≠ [] := by
    intro none
    simp [none] at waits
  have full := h.full waiting
  have positive := h.positive
  have balance := h.balance
  unfold Semaphore.inFlight at balance
  rw [h.permits] at balance
  have place : s'.called[s.granted.length + k]? = some t := by
    have before : s.called[s.granted.length + k]? = some t := by
      rw [h.order, List.getElem?_append_right (Nat.le_add_right ..)]
      simpa using waits
    obtain ⟨bound, here⟩ := List.getElem?_eq_some_iff.mp before
    rw [List.prefix_iff_getElem?.mp called _ bound, here]
  rw [granted_eq h', finished, List.length_append]
  constructor
  · intro mem
    obtain ⟨i, at_i⟩ := List.mem_iff_getElem?.mp mem
    rw [List.getElem?_take] at at_i
    split at at_i
    · have same : i = s.granted.length + k := by
        have bound := (List.getElem?_eq_some_iff.mp at_i).1
        exact (List.getElem?_inj bound h'.distinct).mp (at_i.trans place.symm)
      omega
    · cases at_i
  · intro early
    refine List.mem_iff_getElem?.mpr ⟨s.granted.length + k, ?_⟩
    rw [List.getElem?_take, if_pos (by omega)]
    exact place

theorem executing_card (made : Semaphore.new permits = .ok sem)
    (run : (calls T).Reach Alive (idle sem) q) :
    {t | Executing q t}.encard ≤ permits.toNat := by
  have kept := (reach_fair made run).inv
  have within : {t | Executing q t} ⊆ {t | t ∈ q.shared.granted ∧ ¬ Finished q t} :=
    fun _ executing => executing_holds made run executing
  rw [holding_eq made run] at within
  have few : (q.shared.granted.toFinset \ q.shared.finished.toFinset).card ≤ permits.toNat := by
    have card := holding_card kept
    have room := kept.room
    rw [Semaphore.inFlight, kept.permits] at card
    omega
  calc {t | Executing q t}.encard
      ≤ (↑(q.shared.granted.toFinset \ q.shared.finished.toFinset) : Set Tid).encard :=
        Set.encard_le_encard within
    _ = (q.shared.granted.toFinset \ q.shared.finished.toFinset).card :=
        Set.encard_coe_eq_coe_finsetCard _
    _ ≤ permits.toNat := by exact_mod_cast few

theorem waiters_turn (made : Semaphore.new permits = .ok sem)
    (run : (calls T).Reach Alive (idle sem) q) (on : (calls T).Reach Alive q q') :
    ∃ more : List Tid, more.Nodup ∧ (∀ t, t ∈ more ↔ Finished q' t ∧ ¬ Finished q t) ∧
      ∀ k t, q.shared.semaphore.waiters[k]? = some t →
        (t ∈ q'.shared.granted ↔ k < more.length) := by
  have kept := (reach_fair made run).inv
  have kept' := (reach_fair made (run.trans on)).inv
  obtain ⟨called, more, finished⟩ := logs_grow made run on
  have once : (q.shared.finished ++ more).Nodup := finished ▸ kept'.once
  obtain ⟨-, distinct, apart⟩ := List.nodup_append.mp once
  refine ⟨more, distinct, fun t => ?_, fun k t waits =>
    waiter_granted kept kept' called finished.symm waits⟩
  rw [← finished_iff made run, ← finished_iff made (run.trans on), ← finished]
  constructor
  · exact fun mem => ⟨List.mem_append_right _ mem, fun old => apart t old t mem rfl⟩
  · rintro ⟨mem, new⟩
    exact (List.mem_append.mp mem).resolve_left new

end Reached

/-- The semaphore bounds the work, keeps the order of the calls and loses no permit. -/
theorem semaphore_serves (permits : Int) (positive : 1 ≤ permits) :
    ∃ s, Semaphore.new permits = .ok s ∧
      ∀ q, (calls T).Reach Alive (idle s) q → Serves permits q := by
  have made : Semaphore.new permits = .ok ⟨permits, permits, []⟩ := if_neg (by omega)
  refine ⟨_, made, fun q run => ?_⟩
  have kept := (reach_fair made run).inv
  have holding := holding_eq made run
  constructor
  · exact executing_card made run
  · exact kept.full
  · rw [holding]
    refine ⟨Finset.finite_toSet _, ?_⟩
    rw [Set.ncard_coe_finset]
    exact holding_card kept
  · exact fun t => called_iff made run
  · exact kept.order
  · exact fun q' on => waiters_turn made run on
  · intro drained _
    have none : q.shared.granted.toFinset \ q.shared.finished.toFinset = ∅ := by
      have empty : {t | t ∈ q.shared.granted ∧ ¬ Finished q t} = ∅ :=
        Set.eq_empty_of_forall_notMem fun t h => h.2 (drained t h.1)
      rw [holding] at empty
      exact_mod_cast empty
    rw [← holding_card kept, none]
    rfl

/- The second call comes while the first one is running, and waits until that has finished. -/
def overtaken : List (Act Unit (Choice Unit) Empty) :=
  [.start 1 (), .step 1 .ok, .step 1 .ok, .start 2 (), .step 2 .ok]

def handedOver : List (Act Unit (Choice Unit) Empty) := [.step 1 (.returns ()), .step 1 .ok]

theorem one_permit_serves : ∃ s, Semaphore.new 1 = .ok s ∧
    (∀ q, (calls Unit).Reach Alive (idle s) q → Serves 1 q) ∧
    ∃ q q', (calls Unit).Reach Alive (idle s) q ∧ (calls Unit).Reach Alive q q' ∧
      Executing q 1 ∧ q.shared.semaphore.waiters = [2] ∧ Finished q' 1 ∧
      2 ∈ q'.shared.granted := by
  obtain ⟨s, made, serves⟩ := semaphore_serves (T := Unit) 1 (by decide)
  refine ⟨s, made, serves, ?_⟩
  cases (rfl : Semaphore.new 1 = .ok ⟨1, 1, []⟩).symm.trans made
  have replay : ∃ k, (((calls Unit).run (idle ⟨1, 1, []⟩) overtaken).bind fun q =>
      ((calls Unit).run q handedOver).map fun q' =>
        (q.slot 1, q.shared.semaphore.waiters, q'.slot 1)) =
      some (.live () .fn k, [2], .ended () (.ok ())) := ⟨_, rfl⟩
  obtain ⟨k, replay⟩ := replay
  obtain ⟨q, hq, rest⟩ := Option.bind_eq_some_iff.mp replay
  obtain ⟨q', hq', seen⟩ := Option.map_eq_some_iff.mp rest
  obtain ⟨live, seen⟩ := Prod.mk.inj seen
  obtain ⟨waiters, ended⟩ := Prod.mk.inj seen
  have run : (calls Unit).Reach Alive (idle ⟨1, 1, []⟩) q := .of_run hq (by simp [overtaken, Alive])
  have on : (calls Unit).Reach Alive q q' := .of_run hq' (by simp [handedOver, Alive])
  have finished : Finished q' 1 := ⟨_, _, ended⟩
  have running : ¬ Finished q 1 := by
    rintro ⟨j, r, slot⟩
    cases live.symm.trans slot
  obtain ⟨more, -, new, waits⟩ := (serves q run).turns q' on
  have one : 1 ∈ more := (new 1).mpr ⟨finished, running⟩
  have first : q.shared.semaphore.waiters[0]? = some 2 := by simp [waiters]
  exact ⟨q, q', run, on, ⟨_, _, live⟩, waiters, finished,
    (waits 0 2 first).mpr (List.length_pos_of_mem one)⟩

end Overbook.Concurrency
