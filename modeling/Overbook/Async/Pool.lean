import Overbook.Async.Program

/-! A pool of concurrent tasks over one shared state. Every scheduler, every loss of a
process and every answer of the environment is a list of actions, so a property of all
reachable pools is a property of all interleavings. -/
namespace Overbook.Async

abbrev Tid := Nat

/-- What has become of one task id. A live task waits for the answer to `e`; a task whose
process died is gone without a result. -/
inductive Slot (Job E : Type) (A : E → Type) (ε α : Type) where
  | idle
  | live (j : Job) (e : E) (k : Except ε (A e) → Prog E A ε α)
  | ended (j : Job) (r : Except ε α)
  | gone (j : Job)

/-- `exec` is the environment: it answers the effect `e` of a task, the choice resolving what
the environment decides; `none` means that the effect is blocked or the choice does not fit.
`ready` says when a job may start, `finish` records that a task has settled. -/
structure Machine (σ Job E : Type) (A : E → Type) (ε α Choice Ext : Type) where
  code : Job → Prog E A ε α
  ready : σ → Job → Bool
  exec : Tid → σ → (e : E) → Choice → Option (σ × Except ε (A e))
  finish : Tid → Job → Except ε α → σ → σ
  ext : σ → Ext → Option σ

structure Pool (σ Job E : Type) (A : E → Type) (ε α : Type) where
  shared : σ
  slot : Tid → Slot Job E A ε α

inductive Act (Job Choice Ext : Type) where
  | start (t : Tid) (j : Job)
  | step (t : Tid) (c : Choice)
  | kill (t : Tid)
  | env (x : Ext)

variable {σ Job E : Type} {A : E → Type} {ε α Choice Ext : Type}

def Act.task : Act Job Choice Ext → Option Tid
  | .start t _ => some t
  | .step t _ => some t
  | .kill t => some t
  | .env _ => none

def Slot.isLive : Slot Job E A ε α → Bool
  | .live .. => true
  | _ => false

/- Whose result is known, or never will be. -/
def Slot.isSettled : Slot Job E A ε α → Bool
  | .ended .. => true
  | .gone .. => true
  | _ => false

def Slot.job : Slot Job E A ε α → Option Job
  | .idle => none
  | .live j _ _ => some j
  | .ended j _ => some j
  | .gone j => some j

def Pool.initial (s : σ) : Pool σ Job E A ε α := ⟨s, fun _ => .idle⟩

namespace Machine

variable (m : Machine σ Job E A ε α Choice Ext)

/- A program that has returned or thrown leaves the pool at once. -/
def settle (t : Tid) (j : Job) (s : σ) : Prog E A ε α → σ × Slot Job E A ε α
  | .done a => (m.finish t j (.ok a) s, .ended j (.ok a))
  | .fail x => (m.finish t j (.error x) s, .ended j (.error x))
  | .call e k => (s, .live j e k)

def put (p : Pool σ Job E A ε α) (t : Tid) (r : σ × Slot Job E A ε α) : Pool σ Job E A ε α :=
  ⟨r.1, Function.update p.slot t r.2⟩

theorem put_self (p : Pool σ Job E A ε α) (t : Tid) (r : σ × Slot Job E A ε α) :
    (put p t r).slot t = r.2 := Function.update_self ..

theorem put_of_ne {t t' : Tid} (ne : t' ≠ t) (p : Pool σ Job E A ε α)
    (r : σ × Slot Job E A ε α) : (put p t r).slot t' = p.slot t' := Function.update_of_ne ne ..

def step (p : Pool σ Job E A ε α) : Act Job Choice Ext → Option (Pool σ Job E A ε α)
  | .start t j =>
    match p.slot t with
    | .idle => if m.ready p.shared j then some (put p t (m.settle t j p.shared (m.code j))) else none
    | _ => none
  | .step t c =>
    match p.slot t with
    | .live j e k => (m.exec t p.shared e c).map fun a => put p t (m.settle t j a.1 (k a.2))
    | _ => none
  | .kill t =>
    match p.slot t with
    | .live j _ _ => some ⟨p.shared, Function.update p.slot t (.gone j)⟩
    | _ => none
  | .env x => (m.ext p.shared x).map fun s => ⟨s, p.slot⟩

/-- What an action does, case by case. -/
inductive Steps (p : Pool σ Job E A ε α) :
    Act Job Choice Ext → Pool σ Job E A ε α → Prop where
  | start {t : Tid} {j : Job} (idle : p.slot t = .idle) (ready : m.ready p.shared j = true) :
      Steps p (.start t j) (put p t (m.settle t j p.shared (m.code j)))
  | step {t : Tid} {c : Choice} {j : Job} {e : E} {k : Except ε (A e) → Prog E A ε α} {s : σ}
      {r : Except ε (A e)} (live : p.slot t = .live j e k)
      (answered : m.exec t p.shared e c = some (s, r)) :
      Steps p (.step t c) (put p t (m.settle t j s (k r)))
  | kill {t : Tid} {j : Job} {e : E} {k : Except ε (A e) → Prog E A ε α}
      (live : p.slot t = .live j e k) :
      Steps p (.kill t) ⟨p.shared, Function.update p.slot t (.gone j)⟩
  | env {x : Ext} {s : σ} (happened : m.ext p.shared x = some s) : Steps p (.env x) ⟨s, p.slot⟩

/- The pool after a list of actions, for replaying one run; `ok` checks each action first. -/
def runChecked (ok : Pool σ Job E A ε α → Act Job Choice Ext → Bool) (p : Pool σ Job E A ε α) :
    List (Act Job Choice Ext) → Option (Pool σ Job E A ε α)
  | [] => some p
  | a :: as => if ok p a then (m.step p a).bind fun q => runChecked ok q as else none

def run (p : Pool σ Job E A ε α) (as : List (Act Job Choice Ext)) : Option (Pool σ Job E A ε α) :=
  m.runChecked (fun _ _ => true) p as

/-- The pools that runs reach whose every action satisfies `Ok` in the pool it is taken from. -/
inductive Reach (Ok : Pool σ Job E A ε α → Act Job Choice Ext → Prop)
    (p : Pool σ Job E A ε α) : Pool σ Job E A ε α → Prop where
  | refl : Reach Ok p p
  | step {q q' : Pool σ Job E A ε α} {a : Act Job Choice Ext} :
      Reach Ok p q → Ok q a → m.step q a = some q' → Reach Ok p q'

variable {m}

theorem steps_of_step {p q : Pool σ Job E A ε α} {a : Act Job Choice Ext}
    (h : m.step p a = some q) : m.Steps p a q := by
  cases a with
  | start t j =>
    simp only [step] at h
    split at h
    · rename_i idle
      split at h
      · rename_i ready
        cases Option.some.inj h
        exact .start idle ready
      · cases h
    · cases h
  | step t c =>
    simp only [step] at h
    split at h
    · rename_i j e k live
      obtain ⟨⟨s, r⟩, answered, rfl⟩ := Option.map_eq_some_iff.mp h
      exact .step live answered
    · cases h
  | kill t =>
    simp only [step] at h
    split at h
    · rename_i j e k live
      cases Option.some.inj h
      exact .kill live
    · cases h
  | env x =>
    obtain ⟨s, happened, rfl⟩ := Option.map_eq_some_iff.mp h
    exact .env happened

theorem Reach.trans {Ok : Pool σ Job E A ε α → Act Job Choice Ext → Prop}
    {p q r : Pool σ Job E A ε α} (h : m.Reach Ok p q) (h' : m.Reach Ok q r) : m.Reach Ok p r := by
  induction h' with
  | refl => exact h
  | step _ ok st ih => exact .step ih ok st

theorem Reach.mono {Ok Ok' : Pool σ Job E A ε α → Act Job Choice Ext → Prop}
    (le : ∀ q a, Ok q a → Ok' q a) {p q : Pool σ Job E A ε α} (h : m.Reach Ok p q) :
    m.Reach Ok' p q := by
  induction h with
  | refl => exact .refl
  | step _ ok st ih => exact .step ih (le _ _ ok) st

theorem steps_slot {p q : Pool σ Job E A ε α} {a : Act Job Choice Ext} (h : m.Steps p a q)
    {t : Tid} (other : a.task ≠ some t) : q.slot t = p.slot t := by
  cases h with
  | start idle ready => exact put_of_ne (fun same => other (congrArg some same.symm)) ..
  | step live answered => exact put_of_ne (fun same => other (congrArg some same.symm)) ..
  | kill live => exact Function.update_of_ne (fun same => other (congrArg some same.symm)) ..
  | env happened => rfl

theorem settle_job (t : Tid) (j : Job) (s : σ) (b : Prog E A ε α) :
    (m.settle t j s b).2.job = some j := by cases b <;> rfl

/-- A task keeps its job for good, and what has settled stays as it is. -/
theorem steps_keep {p q : Pool σ Job E A ε α} {a : Act Job Choice Ext} (h : m.Steps p a q)
    (t : Tid) : (∀ j, (p.slot t).job = some j → (q.slot t).job = some j) ∧
      ((p.slot t).isSettled = true → q.slot t = p.slot t) := by
  by_cases other : a.task ≠ some t
  · rw [steps_slot h other]
    exact ⟨fun _ hj => hj, fun _ => rfl⟩
  · have same : a.task = some t := not_not.mp other
    cases h with
    | start idle ready =>
      cases Option.some.inj same
      simp [idle, Slot.job, Slot.isSettled]
    | step live answered =>
      cases Option.some.inj same
      rw [put_self, live]
      exact ⟨fun j hj => (settle_job ..).trans hj, fun settled => nomatch settled⟩
    | kill live =>
      cases Option.some.inj same
      simp [live, Slot.job, Slot.isSettled]
    | env => cases same

/-- A task that has a job had it before, or has just been started with it. -/
theorem steps_job {p q : Pool σ Job E A ε α} {a : Act Job Choice Ext} (h : m.Steps p a q) {t : Tid}
    {j : Job} (job : (q.slot t).job = some j) : (p.slot t).job = some j ∨ a = .start t j := by
  by_cases other : a.task ≠ some t
  · rw [steps_slot h other] at job
    exact .inl job
  · have same : a.task = some t := not_not.mp other
    cases h with
    | start idle ready =>
      cases Option.some.inj same
      rw [put_self, settle_job] at job
      cases job
      exact .inr rfl
    | step live answered =>
      cases Option.some.inj same
      rw [put_self, settle_job] at job
      rw [live]
      exact .inl job
    | kill live =>
      cases Option.some.inj same
      rw [live]
      simp only [Function.update_self] at job
      exact .inl job
    | env => cases same

theorem reach_keep {Ok : Pool σ Job E A ε α → Act Job Choice Ext → Prop}
    {p q : Pool σ Job E A ε α} (h : m.Reach Ok p q) (t : Tid) :
    (∀ j, (p.slot t).job = some j → (q.slot t).job = some j) ∧
      ((p.slot t).isSettled = true → q.slot t = p.slot t) := by
  induction h with
  | refl => exact ⟨fun _ hj => hj, fun _ => rfl⟩
  | step _ _ st ih =>
    have keep := steps_keep (steps_of_step st) t
    refine ⟨fun j hj => keep.1 j (ih.1 j hj), fun settled => ?_⟩
    have before := ih.2 settled
    exact (keep.2 (by rw [before]; exact settled)).trans before

/-- A run has started finitely many tasks. -/
theorem Reach.idle_after {Ok : Pool σ Job E A ε α → Act Job Choice Ext → Prop} {s : σ}
    {p : Pool σ Job E A ε α} (h : m.Reach Ok (.initial s) p) :
    ∃ n, ∀ t, n ≤ t → p.slot t = .idle := by
  induction h with
  | refl => exact ⟨0, fun _ _ => rfl⟩
  | @step q q' a _ _ st ih =>
    obtain ⟨n, idle⟩ := ih
    refine ⟨max n (a.task.elim 0 (· + 1)), fun t le => ?_⟩
    have other : a.task ≠ some t := by
      intro same
      rw [same] at le
      exact Nat.not_succ_le_self t (Nat.le_trans (Nat.le_max_right ..) le)
    rw [steps_slot (steps_of_step st) other]
    exact idle t (Nat.le_trans (Nat.le_max_left ..) le)

theorem Reach.not_gone {Ok : Pool σ Job E A ε α → Act Job Choice Ext → Prop} {s : σ}
    {p : Pool σ Job E A ε α} (spared : ∀ q t, ¬ Ok q (.kill t)) (h : m.Reach Ok (.initial s) p) :
    ∀ t j, p.slot t ≠ .gone j := by
  induction h with
  | refl => exact fun t j => nofun
  | @step q q' a _ ok st ih =>
    intro t j gone
    cases steps_of_step st with
    | @start t' j' idle ready =>
      by_cases same : t = t'
      · subst same
        rw [put_self] at gone
        cases after : m.code j' <;> rw [after] at gone <;> cases gone
      · rw [put_of_ne same] at gone
        exact ih t j gone
    | @step t' c j' e k s r live answered =>
      by_cases same : t = t'
      · subst same
        rw [put_self] at gone
        cases after : k r <;> rw [after] at gone <;> cases gone
      · rw [put_of_ne same] at gone
        exact ih t j gone
    | @kill t' => exact spared q t' ok
    | env happened => exact ih t j gone

/-- A replayed run leaves the tasks alone that none of its actions is about. -/
theorem runChecked_slot {ok : Pool σ Job E A ε α → Act Job Choice Ext → Bool}
    {as : List (Act Job Choice Ext)} {p q : Pool σ Job E A ε α} (h : m.runChecked ok p as = some q)
    {t : Tid} (others : ∀ a ∈ as, a.task ≠ some t) : q.slot t = p.slot t := by
  induction as generalizing p with
  | nil => cases Option.some.inj h; rfl
  | cons a as ih =>
    unfold runChecked at h
    split at h
    · obtain ⟨r, hr, ht⟩ := Option.bind_eq_some_iff.mp h
      have first := steps_slot (steps_of_step hr) (others a (List.mem_cons_self ..))
      exact (ih ht fun b hb => others b (List.mem_cons_of_mem a hb)).trans first
    · cases h

/-- Nobody is live after a replayed run in which all who took part are through. -/
theorem run_no_live {ok : Pool σ Job E A ε α → Act Job Choice Ext → Bool} {s : σ}
    {as : List (Act Job Choice Ext)} {q : Pool σ Job E A ε α}
    (h : m.runChecked ok (.initial s) as = some q) (ts : List Tid)
    (part : (as.all fun a => a.task.all ts.contains) = true)
    (through : ∀ t ∈ ts, (q.slot t).isLive = false) (t : Tid) : (q.slot t).isLive = false := by
  by_cases ht : t ∈ ts
  · exact through t ht
  · have others : ∀ a ∈ as, a.task ≠ some t := by
      intro a ha same
      have named := List.all_eq_true.mp part a ha
      rw [same] at named
      exact ht (by simpa using named)
    rw [runChecked_slot h others]
    rfl

/-- A replayed run is a run, when the check passes allowed actions only. -/
theorem Reach.of_checked {Ok : Pool σ Job E A ε α → Act Job Choice Ext → Prop}
    {ok : Pool σ Job E A ε α → Act Job Choice Ext → Bool} {as : List (Act Job Choice Ext)}
    {p q : Pool σ Job E A ε α} (h : m.runChecked ok p as = some q)
    (allowed : ∀ a ∈ as, ∀ r, ok r a = true → Ok r a) : m.Reach Ok p q := by
  induction as generalizing p with
  | nil => cases Option.some.inj h; exact .refl
  | cons a as ih =>
    unfold runChecked at h
    split at h
    · rename_i passed
      obtain ⟨r, hr, ht⟩ := Option.bind_eq_some_iff.mp h
      exact Reach.trans (.step .refl (allowed a (List.mem_cons_self ..) p passed) hr)
        (ih ht fun b hb => allowed b (List.mem_cons_of_mem a hb))
    · cases h

theorem Reach.of_run {Ok : Pool σ Job E A ε α → Act Job Choice Ext → Prop}
    {as : List (Act Job Choice Ext)} {p q : Pool σ Job E A ε α} (h : m.run p as = some q)
    (ok : ∀ a ∈ as, ∀ r : Pool σ Job E A ε α, Ok r a) : m.Reach Ok p q :=
  .of_checked h fun a ha r _ => ok a ha r

end Machine

end Overbook.Async
