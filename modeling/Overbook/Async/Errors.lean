import Overbook.Async.Trace

/-! The errors that a program raises by itself: those it still throws when every effect is
answered. -/
namespace Overbook.Async.Prog

variable {E : Type} {A : E → Type} {ε α β : Type} {P Q : ε → Prop}

/-- With every effect answered, the program throws only what satisfies `P`. -/
def Raises (P : ε → Prop) : Prog E A ε α → Prop
  | done _ => True
  | fail x => P x
  | call _ k => ∀ a, (k (.ok a)).Raises P

def AllAnswered (events : List (Event A ε)) : Prop := ∀ event ∈ events, ∃ a, event.2 = .ok a

@[simp] theorem raises_done (a : α) : (done a : Prog E A ε α).Raises P := trivial

@[simp] theorem raises_await (e : E) : (await e : Prog E A ε (A e)).Raises P := fun _ => trivial

theorem raises_ofExcept {r : Except ε α} (h : ∀ x, r = .error x → P x) :
    (ofExcept r : Prog E A ε α).Raises P := by
  cases r with
  | ok a => trivial
  | error x => exact h x rfl

theorem raises_bind {p : Prog E A ε α} {f : α → Prog E A ε β} (hp : p.Raises P)
    (hf : ∀ a, (f a).Raises P) : (p >>= f).Raises P := by
  induction p with
  | done a => exact hf a
  | fail x => exact hp
  | call e k ih => exact fun a => ih _ (hp a)

theorem raises_handle {p : Prog E A ε α} {h : ε → Prog E A ε α} (hp : p.Raises Q)
    (hh : ∀ x, Q x → (h x).Raises P) : (tryCatch p h).Raises P := by
  induction p with
  | done a => trivial
  | fail x => exact hh x hp
  | call e k ih => exact fun a => ih _ (hp a)

theorem raises_runIf {c : Bool} {p : Prog E A ε Unit} (hp : p.Raises P) :
    (runIf c p).Raises P := by
  cases c with
  | true => exact hp
  | false => trivial

theorem Raises.mono {p : Prog E A ε α} (h : p.Raises P) (le : ∀ x, P x → Q x) : p.Raises Q := by
  induction p with
  | done a => trivial
  | fail x => exact le x h
  | call e k ih => exact fun a => ih _ (h a)

theorem Raises.runs {p : Prog E A ε α} {events : List (Event A ε)} {o : Except ε α}
    (h : p.Raises P) (run : Runs p events o) (answered : AllAnswered events) :
    ∀ x, o = .error x → P x := by
  induction run with
  | done => exact nofun
  | fail => exact fun x same => (Except.error.inj same) ▸ h
  | @call e k r events o _ ih =>
    obtain ⟨a, rfl⟩ : ∃ a, r = .ok a := answered ⟨e, r⟩ (List.mem_cons_self ..)
    exact ih (h a) fun event mem => answered event (List.mem_cons_of_mem _ mem)

/-- Where effects are rejected with errors of `fails` only, the program throws only what satisfies
`P`. -/
def Throws (fails P : ε → Prop) : Prog E A ε α → Prop
  | done _ => True
  | fail x => P x
  | call _ k => ∀ r, (∀ x, r = .error x → fails x) → (k r).Throws fails P

variable {fails : ε → Prop}

theorem throws_ofExcept {r : Except ε α} (h : ∀ x, r = .error x → P x) :
    (ofExcept r : Prog E A ε α).Throws fails P := by
  cases r with
  | ok a => trivial
  | error x => exact h x rfl

theorem throws_await (le : ∀ x, fails x → P x) (e : E) :
    (await e : Prog E A ε (A e)).Throws fails P :=
  fun _ h => throws_ofExcept fun x same => le x (h x same)

theorem throws_bind {p : Prog E A ε α} {f : α → Prog E A ε β} (hp : p.Throws fails P)
    (hf : ∀ a, (f a).Throws fails P) : (p >>= f).Throws fails P := by
  induction p with
  | done a => exact hf a
  | fail x => exact hp
  | call e k ih => exact fun r h => ih r (hp r h)

theorem throws_caught {p : Prog E A ε α} {h : ε → Prog E A ε α}
    (hh : ∀ x, (h x).Throws fails P) : (tryCatch p h).Throws fails P := by
  induction p with
  | done a => trivial
  | fail x => exact hh x
  | call e k ih => exact fun r _ => ih r

theorem throws_runIf {c : Bool} {p : Prog E A ε Unit} (hp : p.Throws fails P) :
    (runIf c p).Throws fails P := by
  cases c with
  | true => exact hp
  | false => trivial

theorem Throws.mono {p : Prog E A ε α} (h : p.Throws fails P) (le : ∀ x, P x → Q x) :
    p.Throws fails Q := by
  induction p with
  | done a => trivial
  | fail x => exact le x h
  | call e k ih => exact fun r fits => ih r (h r fits)

theorem Throws.runs {p : Prog E A ε α} {events : List (Event A ε)} {o : Except ε α}
    (h : p.Throws fails P) (run : Runs p events o)
    (rejected : ∀ event ∈ events, ∀ x, event.2 = .error x → fails x) : ∀ x, o = .error x → P x := by
  induction run with
  | done => exact nofun
  | fail => exact fun x same => (Except.error.inj same) ▸ h
  | @call e k r events o _ ih =>
    have first := rejected ⟨e, r⟩ (List.mem_cons_self ..)
    exact ih (h r first) fun event mem => rejected event (List.mem_cons_of_mem _ mem)

end Overbook.Async.Prog
