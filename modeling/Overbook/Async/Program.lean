import Mathlib.Logic.Function.Basic

/-! Asynchronous functions as data. A program runs up to its next effect and waits there
for an answer; between two effects it is atomic, as code between two awaits of one process is.
Effects `E`, their answers `A`, errors and results are parameters. -/
namespace Overbook.Async

/-- An async function at one of its rest points: it has returned, it has thrown, or it
waits for the answer to one effect. A rejected effect answers with an error. -/
inductive Prog (E : Type) (A : E → Type) (ε α : Type) where
  | done (a : α)
  | fail (x : ε)
  | call (e : E) (k : Except ε (A e) → Prog E A ε α)

namespace Prog

variable {E : Type} {A : E → Type} {ε α β : Type}

def bind : Prog E A ε α → (α → Prog E A ε β) → Prog E A ε β
  | done a, f => f a
  | fail x, _ => fail x
  | call e k, f => call e fun r => (k r).bind f

/- The `catch` branch of a `try` statement, and `.catch(h)` on a promise. -/
def handle : Prog E A ε α → (ε → Prog E A ε α) → Prog E A ε α
  | done a, _ => done a
  | fail x, h => h x
  | call e k, h => call e fun r => (k r).handle h

def ofExcept : Except ε α → Prog E A ε α
  | .ok a => done a
  | .error x => fail x

/-- Awaiting one effect. -/
def await (e : E) : Prog E A ε (A e) := call e ofExcept

instance : Monad (Prog E A ε) where
  pure := done
  bind := bind

instance : MonadExceptOf ε (Prog E A ε) where
  throw := fail
  tryCatch := handle

/- The outcome of `p` as a value, so that a `finally` block can run on either outcome. -/
def outcome (p : Prog E A ε α) : Prog E A ε (Except ε α) :=
  handle (bind p fun a => done (.ok a)) fun x => done (.error x)

/-- `try { p } finally { q }`. -/
def ensure (p : Prog E A ε α) (q : Prog E A ε Unit) : Prog E A ε α := do
  let r ← outcome p
  q
  ofExcept r

def runIf (c : Bool) (p : Prog E A ε Unit) : Prog E A ε Unit := if c then p else done ()

@[simp] theorem pure_eq (a : α) : (pure a : Prog E A ε α) = done a := rfl
@[simp] theorem throw_eq (x : ε) : (throw x : Prog E A ε α) = fail x := rfl
@[simp] theorem done_bind (a : α) (f : α → Prog E A ε β) : done a >>= f = f a := rfl
@[simp] theorem fail_bind (x : ε) (f : α → Prog E A ε β) :
    (fail x : Prog E A ε α) >>= f = fail x := rfl

/-- Every effect a program can ever ask for, on any answers, satisfies `P`. -/
def Only (P : E → Prop) : Prog E A ε α → Prop
  | done _ => True
  | fail _ => True
  | call e k => P e ∧ ∀ r, (k r).Only P

variable {P : E → Prop}

@[simp] theorem only_done (a : α) : (done a : Prog E A ε α).Only P := trivial
@[simp] theorem only_fail (x : ε) : (fail x : Prog E A ε α).Only P := trivial

theorem only_bind {p : Prog E A ε α} {f : α → Prog E A ε β} (hp : p.Only P)
    (hf : ∀ a, (f a).Only P) : (p >>= f).Only P := by
  induction p with
  | done a => exact hf a
  | fail x => trivial
  | call e k ih => exact ⟨hp.1, fun r => ih r (hp.2 r)⟩

theorem only_handle {p : Prog E A ε α} {h : ε → Prog E A ε α} (hp : p.Only P)
    (hh : ∀ x, (h x).Only P) : (tryCatch p h).Only P := by
  induction p with
  | done a => trivial
  | fail x => exact hh x
  | call e k ih => exact ⟨hp.1, fun r => ih r (hp.2 r)⟩

@[simp] theorem only_ofExcept (r : Except ε α) : (ofExcept r : Prog E A ε α).Only P := by
  cases r <;> trivial

@[simp] theorem only_await (e : E) : (await e : Prog E A ε (A e)).Only P ↔ P e :=
  ⟨fun h => h.1, fun h => ⟨h, only_ofExcept⟩⟩

theorem only_outcome {p : Prog E A ε α} (hp : p.Only P) : p.outcome.Only P :=
  only_handle (only_bind hp fun _ => trivial) fun _ => trivial

theorem only_ensure {p : Prog E A ε α} {q : Prog E A ε Unit} (hp : p.Only P) (hq : q.Only P) :
    (p.ensure q).Only P :=
  only_bind (only_outcome hp) fun r => only_bind hq fun _ => only_ofExcept r

theorem only_runIf {c : Bool} {p : Prog E A ε Unit} (hp : p.Only P) : (runIf c p).Only P := by
  unfold runIf
  split
  · exact hp
  · trivial

theorem only_mono {P' : E → Prop} {p : Prog E A ε α} (h : ∀ e, P e → P' e) (hp : p.Only P) :
    p.Only P' := by
  induction p with
  | done a => trivial
  | fail x => trivial
  | call e k ih => exact ⟨h e hp.1, fun r => ih r (hp.2 r)⟩

/-- However it goes, a program that returns has asked for an effect that satisfies `P`. -/
def Must (P : E → Prop) : Prog E A ε α → Prop
  | done _ => False
  | fail _ => True
  | call e k => P e ∨ ∀ r, (k r).Must P

theorem must_bind {p : Prog E A ε α} {f : α → Prog E A ε β} (hp : p.Must P) :
    (p >>= f).Must P := by
  induction p with
  | done a => exact hp.elim
  | fail x => trivial
  | call e k ih => exact hp.imp_right fun h r => ih r (h r)

theorem must_then {p : Prog E A ε α} {f : α → Prog E A ε β} (hf : ∀ a, (f a).Must P) :
    (p >>= f).Must P := by
  induction p with
  | done a => exact hf a
  | fail x => trivial
  | call e k ih => exact .inr ih

theorem must_handle {p : Prog E A ε α} {h : ε → Prog E A ε α} (hp : p.Must P)
    (hh : ∀ x, (h x).Must P) : (tryCatch p h).Must P := by
  induction p with
  | done a => exact hp.elim
  | fail x => exact hh x
  | call e k ih => exact hp.imp_right fun h r => ih r (h r)

end Prog

end Overbook.Async
