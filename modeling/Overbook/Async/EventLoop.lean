import Overbook.Async.Trace
import Mathlib.Data.List.Basic

/-! One process of a single thread. What is called in it runs up to its next await without a break;
an effect that returns at once does not end the run. -/
namespace Overbook.Async

variable {σ Kind E : Type} {A : E → Type} {ε α : Type}

/-- The code of a process. `perform` is what an effect of the `i`-th task does when it returns at
once; `none` means that it is awaited. -/
structure Runtime (σ Kind E : Type) (A : E → Type) (ε α : Type) where
  code : Kind → Prog E A ε α
  perform : Nat → σ → (e : E) → Option (σ × A e)

/-- The state that all tasks share, and the tasks in the order in which they were called, each with
what is left of it. -/
structure Process (σ Kind E : Type) (A : E → Type) (ε α : Type) where
  state : σ
  tasks : List (Kind × Prog E A ε α)

namespace Prog

def waits : Prog E A ε α → Bool
  | call .. => true
  | _ => false

@[simp] theorem waits_done (a : α) : (done a : Prog E A ε α).waits = false := rfl
@[simp] theorem waits_fail (x : ε) : (fail x : Prog E A ε α).waits = false := rfl
@[simp] theorem waits_call (e : E) (k : Except ε (A e) → Prog E A ε α) :
    (call e k).waits = true := rfl

/-- A program asks for effects that satisfy `work` only, then for `last`, and then `after` holds of
what is left. It may not end before. -/
inductive Until (work : E → Prop) (last : E) (after : Prog E A ε α → Prop) :
    Prog E A ε α → Prop where
  | works {e : E} {k : Except ε (A e) → Prog E A ε α} : work e →
      (∀ r, Until work last after (k r)) → Until work last after (call e k)
  | leaves {k : Except ε (A last) → Prog E A ε α} : (∀ r, after (k r)) →
      Until work last after (call last k)

section

variable {work : E → Prop} {last : E} {β : Type} {after : Prog E A ε α → Prop}
  {after' : Prog E A ε β → Prop} {p : Prog E A ε α}

/-- What is done with a program when it has ended, be it by a bind or a handler, is done with what
`last` leaves. -/
theorem until_through {F : Prog E A ε α → Prog E A ε β} (h : p.Until work last after)
    (through : ∀ e k, F (call e k) = call e fun r => F (k r))
    (hF : ∀ rest, after rest → after' (F rest)) : (F p).Until work last after' := by
  induction h with
  | works working _ ih => exact through .. ▸ .works working ih
  | leaves left => exact through .. ▸ .leaves fun r => hF _ (left r)

/-- A `finally` block that only asks for `last`. -/
theorem until_ensure {q : Prog E A ε Unit} (hp : p.Only work)
    (hq : ∀ r : Except ε α, (q >>= fun _ => ofExcept r).Until work last after) :
    (p.ensure q).Until work last after := by
  unfold ensure outcome
  induction p with
  | done a => exact hq (.ok a)
  | fail x => exact hq (.error x)
  | call e k ih => exact .works hp.1 fun r => ih r (hp.2 r)

end

end Prog

def Process.waiting (kinds : Kind → Bool) (p : Process σ Kind E A ε α) : Nat :=
  p.tasks.countP fun x => kinds x.1 && x.2.waits

def Process.called (kinds : Kind → Bool) (p : Process σ Kind E A ε α) : Nat :=
  p.tasks.countP fun x => kinds x.1

namespace Runtime

variable (m : Runtime σ Kind E A ε α)

/-- Up to the next await nothing else runs. -/
def runSync (i : Nat) : Prog E A ε α → σ → σ × Prog E A ε α
  | .done a, s => (s, .done a)
  | .fail x, s => (s, .fail x)
  | .call e k, s =>
    match m.perform i s e with
    | some (s', a) => runSync i (k (.ok a)) s'
    | none => (s, .call e k)

def start (kind : Kind) (p : Process σ Kind E A ε α) : Process σ Kind E A ε α :=
  let (s, rest) := m.runSync p.tasks.length (m.code kind) p.state
  ⟨s, p.tasks ++ [(kind, rest)]⟩

def resume (i : Nat) (answer : (e : E) → Except ε (A e)) (p : Process σ Kind E A ε α) :
    Option (Process σ Kind E A ε α) :=
  match p.tasks[i]? with
  | some (kind, .call e k) =>
    let (s, rest) := m.runSync i (k (answer e)) p.state
    some ⟨s, p.tasks.set i (kind, rest)⟩
  | _ => none

variable {m} {i : Nat} {s s' : σ} {kinds : Kind → Bool} {p q : Process σ Kind E A ε α}

@[simp] theorem runSync_done (a : α) : m.runSync i (.done a) s = (s, .done a) := rfl

@[simp] theorem runSync_fail (x : ε) : m.runSync i (.fail x) s = (s, .fail x) := rfl

theorem runSync_once {e : E} {k : Except ε (A e) → Prog E A ε α} {a : A e}
    (h : m.perform i s e = some (s', a)) :
    m.runSync i (.call e k) s = m.runSync i (k (.ok a)) s' := by
  simp [runSync, h]

theorem runSync_await {e : E} {k : Except ε (A e) → Prog E A ε α} (h : m.perform i s e = none) :
    m.runSync i (.call e k) s = (s, .call e k) := by
  simp [runSync, h]

/-- What it means to resume a task. -/
theorem resume_some {answer : (e : E) → Except ε (A e)} (h : m.resume i answer p = some q) :
    ∃ kind e k, p.tasks[i]? = some (kind, .call e k) ∧
      q.state = (m.runSync i (k (answer e)) p.state).1 ∧
      q.tasks = p.tasks.set i (kind, (m.runSync i (k (answer e)) p.state).2) := by
  unfold resume at h
  split at h
  · rename_i kind e k task
    cases Option.some.inj h
    exact ⟨kind, e, k, task, rfl, rfl⟩
  · cases h

/- The counts of tasks. -/

theorem countP_set {f : Kind × Prog E A ε α → Bool} {tasks : List (Kind × Prog E A ε α)}
    {x : Kind × Prog E A ε α} (task : tasks[i]? = some x) (y : Kind × Prog E A ε α) :
    (tasks.set i y).countP f + (if f x then 1 else 0) =
      tasks.countP f + if f y then 1 else 0 := by
  obtain ⟨inside, found⟩ := List.getElem?_eq_some_iff.mp task
  rw [List.countP_set inside, found]
  cases counts : f x with
  | false => simp
  | true =>
    have counted : 0 < tasks.countP f :=
      List.countP_pos_iff.mpr ⟨x, List.mem_of_getElem? task, counts⟩
    simp only [if_true]
    omega

theorem waiting_start (kind : Kind) : (m.start kind p).waiting kinds = p.waiting kinds +
    if kinds kind && (m.runSync p.tasks.length (m.code kind) p.state).2.waits then 1 else 0 := by
  simp [start, Process.waiting, List.countP_append, List.countP_singleton]

/-- A task that goes on still waits, or it has ended. -/
theorem waiting_set (kinds : Kind → Bool) {kind : Kind} {e : E} {k : Except ε (A e) → Prog E A ε α}
    (task : p.tasks[i]? = some (kind, .call e k)) (s : σ) (rest : Prog E A ε α) :
    Process.waiting kinds ⟨s, p.tasks.set i (kind, rest)⟩ + (if kinds kind then 1 else 0) =
      p.waiting kinds + if kinds kind && rest.waits then 1 else 0 := by
  have counted := countP_set (f := fun x => kinds x.1 && x.2.waits) task (kind, rest)
  simp only [Prog.waits_call, Bool.and_true] at counted
  exact counted

theorem called_start (kind : Kind) :
    (m.start kind p).called kinds = p.called kinds + if kinds kind then 1 else 0 := by
  simp [start, Process.called, List.countP_append, List.countP_singleton]

theorem called_resume {answer : (e : E) → Except ε (A e)} (h : m.resume i answer p = some q) :
    q.called kinds = p.called kinds := by
  obtain ⟨kind, e, k, task, -, tasks⟩ := resume_some h
  have counted := countP_set (f := fun x => kinds x.1) task (kind,
    (m.runSync i (k (answer e)) p.state).2)
  rw [Process.called, Process.called, tasks]
  exact Nat.add_right_cancel counted

/-- What tasks were answered, in order, and the process after it. -/
inductive Reach (m : Runtime σ Kind E A ε α) (s : σ) :
    List (Nat × Prog.Event A ε) → Process σ Kind E A ε α → Prop where
  | idle : Reach m s [] ⟨s, []⟩
  | start {log : List (Nat × Prog.Event A ε)} {p : Process σ Kind E A ε α} (kind : Kind) :
      Reach m s log p → Reach m s log (m.start kind p)
  | resume {log : List (Nat × Prog.Event A ε)} {p : Process σ Kind E A ε α} {i : Nat} {kind : Kind}
      {e : E} {k : Except ε (A e) → Prog E A ε α} (r : Except ε (A e)) : Reach m s log p →
      p.tasks[i]? = some (kind, .call e k) →
      Reach m s (log ++ [(i, ⟨e, r⟩)])
        ⟨(m.runSync i (k r) p.state).1, p.tasks.set i (kind, (m.runSync i (k r) p.state).2)⟩

def answersTo (i : Nat) (log : List (Nat × Prog.Event A ε)) : List (Prog.Event A ε) :=
  (log.filter (·.1 == i)).map (·.2)

theorem answersTo_own (log : List (Nat × Prog.Event A ε)) (x : Prog.Event A ε) :
    answersTo i (log ++ [(i, x)]) = answersTo i log ++ [x] := by
  simp [answersTo]

theorem answersTo_other {j : Nat} (ne : i ≠ j) (log : List (Nat × Prog.Event A ε))
    (x : Prog.Event A ε) : answersTo i (log ++ [(j, x)]) = answersTo i log := by
  simp [answersTo, ne.symm]

section

variable {W : Type} {view : Nat → σ → W}

def Apart (m : Runtime σ Kind E A ε α) (view : Nat → σ → W) : Prop :=
  ∀ {i j s s' e a}, i ≠ j → m.perform j s e = some (s', a) → view i s' = view i s

theorem Apart.runSync (apart : m.Apart view) {j : Nat} (ne : i ≠ j) (y : Prog E A ε α) (s : σ) :
    view i (m.runSync j y s).1 = view i s := by
  induction y generalizing s with
  | done a => rfl
  | fail x => rfl
  | call e k ih =>
    cases performed : m.perform j s e with
    | none => rw [runSync_await performed]
    | some answer => rw [runSync_once performed, ih, apart ne performed]

/-- A fact about a task, its answers and its part of the state that holds at its first await, and
from one await on at the next, holds of every task. -/
theorem Reach.each (apart : m.Apart view) {w : W}
    {I : Kind → List (Prog.Event A ε) → W → Prog E A ε α → Prop}
    (calls : ∀ i kind s, view i s = w →
      I kind [] (view i (m.runSync i (m.code kind) s).1) (m.runSync i (m.code kind) s).2)
    (goes : ∀ i kind s answers e k r, I kind answers (view i s) (.call e k) →
      I kind (answers ++ [⟨e, r⟩]) (view i (m.runSync i (k r) s).1) (m.runSync i (k r) s).2)
    {log : List (Nat × Prog.Event A ε)} (fresh : ∀ i, view i s = w) (h : m.Reach s log p) :
    (∀ i, p.tasks.length ≤ i → view i p.state = w ∧ answersTo i log = []) ∧
      ∀ i kind rest, p.tasks[i]? = some (kind, rest) →
        I kind (answersTo i log) (view i p.state) rest := by
  induction h with
  | idle => exact ⟨fun i _ => ⟨fresh i, rfl⟩, by simp⟩
  | @start log p kind _ ih =>
    obtain ⟨unused, each⟩ := ih
    constructor
    · intro i beyond
      have new : p.tasks.length + 1 ≤ i := by simpa [Runtime.start] using beyond
      obtain ⟨same, silent⟩ := unused i (by omega)
      exact ⟨(apart.runSync (by omega) ..).trans same, silent⟩
    · intro i other rest task
      rcases Nat.lt_trichotomy i p.tasks.length with old | here | beyond
      · have found := (List.getElem?_append_left old).symm.trans task
        have kept := each i other rest found
        rwa [← apart.runSync (Nat.ne_of_lt old) (m.code kind) p.state] at kept
      · subst here
        obtain ⟨same, silent⟩ := unused _ (Nat.le_refl _)
        have last := List.getElem?_concat_length.symm.trans task
        cases Option.some.inj last
        rw [silent]
        exact calls _ kind p.state same
      · have length : (m.start kind p).tasks.length = p.tasks.length + 1 := by simp [Runtime.start]
        have here := (List.getElem?_eq_some_iff.mp task).1
        omega
  | @resume log p i kind e k r _ task ih =>
    obtain ⟨unused, each⟩ := ih
    have bound := (List.getElem?_eq_some_iff.mp task).1
    constructor
    · intro j beyond
      have high : p.tasks.length ≤ j := by simpa using beyond
      obtain ⟨same, silent⟩ := unused j high
      have ne : j ≠ i := by omega
      exact ⟨(apart.runSync ne ..).trans same, (answersTo_other ne ..).trans silent⟩
    · intro j other rest there
      by_cases own : j = i
      · subst own
        have set := (List.getElem?_set_self bound).symm.trans there
        cases Option.some.inj set
        rw [answersTo_own]
        exact goes j kind p.state _ e k r (each j kind _ task)
      · have found := (List.getElem?_set_ne (Ne.symm own)).symm.trans there
        rw [answersTo_other own]
        have kept := each j other rest found
        rwa [← apart.runSync own (k r) p.state] at kept

end

end Runtime

end Overbook.Async
