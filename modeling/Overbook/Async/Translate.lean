import Overbook.Async.Program

/-! A program over some effects as a program over others. -/
namespace Overbook.Async.Prog

variable {E E' : Type} {A : E → Type} {A' : E' → Type} {ε α β γ : Type}

theorem bind_bind (p : Prog E A ε α) (g : α → Prog E A ε β) (h : β → Prog E A ε γ) :
    (p >>= g) >>= h = p >>= fun a => g a >>= h := by
  induction p with
  | done a => rfl
  | fail x => rfl
  | call e k ih => exact congrArg (call e) (funext ih)

@[simp] theorem bind_done (p : Prog E A ε Unit) : (p >>= fun _ => done ()) = p := by
  induction p with
  | done a => rfl
  | fail x => rfl
  | call e k ih => exact congrArg (call e) (funext ih)

/-- Every effect `e` is asked as `f e`, and its answer is read by `back`. -/
def translate (f : E → E') (back : ∀ e, Except ε (A' (f e)) → Except ε (A e)) :
    Prog E A ε α → Prog E' A' ε α
  | done a => done a
  | fail x => fail x
  | call e k => call (f e) fun r => translate f back (k (back e r))

variable (f : E → E') (back : ∀ e, Except ε (A' (f e)) → Except ε (A e))

@[simp] theorem translate_done (a : α) : (done a : Prog E A ε α).translate f back = done a := rfl

theorem translate_bind (p : Prog E A ε α) (g : α → Prog E A ε β) :
    (p >>= g).translate f back = p.translate f back >>= fun a => (g a).translate f back := by
  induction p with
  | done a => rfl
  | fail x => rfl
  | call e k ih => exact congrArg (call (f e)) (funext fun r => ih (back e r))

theorem translate_handle (p : Prog E A ε α) (h : ε → Prog E A ε α) :
    (tryCatch p h).translate f back =
      tryCatch (p.translate f back) fun x => (h x).translate f back := by
  induction p with
  | done a => rfl
  | fail x => rfl
  | call e k ih => exact congrArg (call (f e)) (funext fun r => ih (back e r))

theorem translate_ofExcept (r : Except ε α) :
    (Prog.ofExcept r : Prog E A ε α).translate f back = Prog.ofExcept r := by
  cases r <;> rfl

theorem translate_outcome (p : Prog E A ε α) :
    p.outcome.translate f back = (p.translate f back).outcome := by
  have caught := translate_handle f back (p >>= fun a => done (.ok a : Except ε α))
    fun x => done (.error x : Except ε α)
  rw [translate_bind] at caught
  exact caught

theorem translate_ensure (p : Prog E A ε α) (q : Prog E A ε Unit) :
    (p.ensure q).translate f back = (p.translate f back).ensure (q.translate f back) := by
  unfold ensure
  simp only [translate_bind, translate_outcome, translate_ofExcept]

variable {f} {back}

theorem only_translate {P : E' → Prop} {p : Prog E A ε α} (h : p.Only fun e => P (f e)) :
    (p.translate f back).Only P := by
  induction p with
  | done a => trivial
  | fail x => trivial
  | call e k ih => exact ⟨h.1, fun r => ih (back e r) (h.2 (back e r))⟩

/-- A translated program asks for translated effects only. -/
theorem translate_only {P : E' → Prop} {p : Prog E A ε α} (h : ∀ e, P (f e)) :
    (p.translate f back).Only P := by
  induction p with
  | done a => trivial
  | fail x => trivial
  | call e k ih => exact ⟨h e, fun r => ih (back e r)⟩

end Overbook.Async.Prog
