import Overbook.Async.Program

/-! One program by itself, with what it asked and what it was answered. -/
namespace Overbook.Async

namespace Prog

variable {E : Type} {A : E → Type} {ε α β : Type}

abbrev Event (A : E → Type) (ε : Type) := (e : E) × Except ε (A e)

/-- A whole run of a program, and how it ends. -/
inductive Runs : Prog E A ε α → List (Event A ε) → Except ε α → Prop where
  | done {a : α} : Runs (done a) [] (.ok a)
  | fail {x : ε} : Runs (fail x) [] (.error x)
  | call {e : E} {k : Except ε (A e) → Prog E A ε α} {r : Except ε (A e)}
      {events : List (Event A ε)} {o : Except ε α} :
      Runs (k r) events o → Runs (call e k) (⟨e, r⟩ :: events) o

/-- After these events the program waits for the answer to `e`. -/
inductive Awaits : Prog E A ε α → List (Event A ε) → E → Prop where
  | here {e : E} {k : Except ε (A e) → Prog E A ε α} : Awaits (call e k) [] e
  | there {e e' : E} {k : Except ε (A e) → Prog E A ε α} {r : Except ε (A e)}
      {events : List (Event A ε)} :
      Awaits (k r) events e' → Awaits (call e k) (⟨e, r⟩ :: events) e'

variable {events : List (Event A ε)} {e : E}

theorem runs_done {a : α} {o : Except ε α} (h : Runs (done a : Prog E A ε α) events o) :
    events = [] ∧ o = .ok a := by
  cases h
  exact ⟨rfl, rfl⟩

theorem runs_fail {x : ε} {o : Except ε α} (h : Runs (fail x : Prog E A ε α) events o) :
    events = [] ∧ o = .error x := by
  cases h
  exact ⟨rfl, rfl⟩

theorem runs_ofExcept {r o : Except ε α} (h : Runs (ofExcept r : Prog E A ε α) events o) :
    events = [] ∧ o = r := by
  cases r with
  | ok a => exact runs_done h
  | error x => exact runs_fail h

theorem runs_await {o : Except ε (A e)} (h : Runs (await e : Prog E A ε (A e)) events o) :
    events = [⟨e, o⟩] := by
  cases h with
  | call rest =>
    obtain ⟨rfl, rfl⟩ := runs_ofExcept rest
    rfl

/-- How `p` ends decides whether `f` is run. -/
inductive ThenRuns (f : α → Prog E A ε β) (first : List (Event A ε)) (o : Except ε β) :
    Except ε α → List (Event A ε) → Prop where
  | threw {x : ε} : o = .error x → ThenRuns f first o (.error x) first
  | went {a : α} {rest : List (Event A ε)} :
      Runs (f a) rest o → ThenRuns f first o (.ok a) (first ++ rest)

theorem runs_bind {p : Prog E A ε α} {f : α → Prog E A ε β} {o : Except ε β}
    (h : Runs (p >>= f) events o) :
    ∃ first r, Runs p first r ∧ ThenRuns f first o r events := by
  induction p generalizing events with
  | done a => exact ⟨[], .ok a, .done, .went h⟩
  | fail x =>
    obtain ⟨rfl, ended⟩ := runs_fail h
    exact ⟨[], .error x, .fail, .threw ended⟩
  | call e k ih =>
    cases h with
    | call rest =>
      obtain ⟨first, r, before, after⟩ := ih _ rest
      refine ⟨_ :: first, r, .call before, ?_⟩
      cases after with
      | threw ended => exact .threw ended
      | went after => exact .went after

theorem runs_through {p : Prog E A ε α} {f : α → Prog E A ε β} {b : β}
    (h : Runs (p >>= f) events (.ok b)) :
    ∃ a first rest, Runs p first (.ok a) ∧ Runs (f a) rest (.ok b) ∧ events = first ++ rest := by
  obtain ⟨first, r, before, after⟩ := runs_bind h
  cases after with
  | threw ended => cases ended
  | @went a rest after => exact ⟨a, first, rest, before, after, rfl⟩

theorem runs_handle {p : Prog E A ε α} {h : ε → Prog E A ε α} {o : Except ε α}
    (run : Runs (tryCatch p h) events o) :
    (∃ a, o = .ok a ∧ Runs p events (.ok a)) ∨
      ∃ x first rest, Runs p first (.error x) ∧ Runs (h x) rest o ∧ events = first ++ rest := by
  induction p generalizing events with
  | done a =>
    obtain ⟨rfl, rfl⟩ := runs_done run
    exact .inl ⟨a, rfl, .done⟩
  | fail x => exact .inr ⟨x, [], events, .fail, run, rfl⟩
  | call e k ih =>
    cases run with
    | call rest =>
      rcases ih _ rest with ⟨a, ended, before⟩ | ⟨x, first, last, before, after, rfl⟩
      · exact .inl ⟨a, ended, .call before⟩
      · exact .inr ⟨x, _ :: first, last, .call before, after, rfl⟩

theorem runs_outcome {p : Prog E A ε α} {o : Except ε (Except ε α)}
    (run : Runs p.outcome events o) : ∃ r, o = .ok r ∧ Runs p events r := by
  rcases runs_handle run with ⟨r, rfl, inner⟩ | ⟨x, first, rest, threw, caught, rfl⟩
  · obtain ⟨r, first, _, before, after, rfl⟩ := runs_through inner
    obtain ⟨rfl, ended⟩ := runs_done after
    cases Except.ok.inj ended
    exact ⟨_, rfl, by simpa using before⟩
  · obtain ⟨rfl, rfl⟩ := runs_done caught
    obtain ⟨first', r, before, after⟩ := runs_bind threw
    cases after with
    | threw ended =>
      cases Except.error.inj ended
      exact ⟨_, rfl, by simpa using before⟩
    | went after =>
      obtain ⟨_, ended⟩ := runs_done after
      cases ended

/- The `finally` block runs last; where it throws, its error is the outcome. -/
theorem runs_ensure {p : Prog E A ε α} {q : Prog E A ε Unit} {o : Except ε α}
    (run : Runs (p.ensure q) events o) : ∃ first r rest last, Runs p first r ∧
      Runs q rest last ∧ events = first ++ rest ∧ o = last.bind fun _ => r := by
  obtain ⟨first, outcome, tried, after⟩ := runs_bind run
  obtain ⟨r, rfl, inner⟩ := runs_outcome tried
  cases after with
  | went left =>
    obtain ⟨rest, last, final, settled⟩ := runs_bind left
    cases settled with
    | threw ended => exact ⟨first, r, _, _, inner, final, rfl, ended⟩
    | went settled =>
      obtain ⟨rfl, rfl⟩ := runs_ofExcept settled
      exact ⟨first, _, _, _, inner, final, by simp, rfl⟩

theorem runs_only {P : E → Prop} {p : Prog E A ε α} {o : Except ε α} (run : Runs p events o)
    (only : p.Only P) : ∀ event ∈ events, P event.1 := by
  induction run with
  | done => exact nofun
  | fail => exact nofun
  | call _ ih =>
    intro event he
    rcases List.mem_cons.mp he with rfl | later
    · exact only.1
    · exact ih (only.2 _) event later

theorem awaits_bind {p : Prog E A ε α} {f : α → Prog E A ε β} (h : Awaits (p >>= f) events e) :
    Awaits p events e ∨ ∃ a first rest, Runs p first (.ok a) ∧ Awaits (f a) rest e ∧
      events = first ++ rest := by
  induction p generalizing events with
  | done a => exact .inr ⟨a, [], events, .done, h, rfl⟩
  | fail x => cases h
  | call e' k ih =>
    cases h with
    | here => exact .inl .here
    | there rest =>
      rcases ih _ rest with inside | ⟨a, first, last, before, after, rfl⟩
      · exact .inl (.there inside)
      · exact .inr ⟨a, _ :: first, last, .call before, after, rfl⟩

theorem awaits_handle {p : Prog E A ε α} {h : ε → Prog E A ε α} (waits : Awaits (tryCatch p h) events e) :
    Awaits p events e ∨ ∃ x first rest, Runs p first (.error x) ∧ Awaits (h x) rest e ∧
      events = first ++ rest := by
  induction p generalizing events with
  | done a => cases waits
  | fail x => exact .inr ⟨x, [], events, .fail, waits, rfl⟩
  | call e' k ih =>
    cases waits with
    | here => exact .inl .here
    | there rest =>
      rcases ih _ rest with inside | ⟨x, first, last, before, after, rfl⟩
      · exact .inl (.there inside)
      · exact .inr ⟨x, _ :: first, last, .call before, after, rfl⟩

theorem awaits_outcome {p : Prog E A ε α} (waits : Awaits p.outcome events e) : Awaits p events e := by
  rcases awaits_handle waits with inside | ⟨_, _, _, _, ended, _⟩
  · rcases awaits_bind inside with inside | ⟨_, _, _, _, ended, _⟩
    · exact inside
    · cases ended
  · cases ended

theorem runs_first {f : A e → Prog E A ε β} {o : Except ε β} (h : Runs (await e >>= f) events o) :
    ∃ r rest, events = ⟨e, r⟩ :: rest ∧ Runs (ofExcept r >>= f) rest o := by
  cases h with
  | call rest => exact ⟨_, _, rfl, rest⟩

theorem runs_next {f : A e → Prog E A ε β} {b : β} (h : Runs (await e >>= f) events (.ok b)) :
    ∃ a rest, events = ⟨e, .ok a⟩ :: rest ∧ Runs (f a) rest (.ok b) := by
  obtain ⟨r, rest, rfl, later⟩ := runs_first h
  cases r with
  | ok a => exact ⟨a, rest, rfl, later⟩
  | error x => cases (runs_fail later).2

theorem awaits_first {e' : E} {f : A e → Prog E A ε β} (h : Awaits (await e >>= f) events e') :
    (events = [] ∧ e' = e) ∨
      ∃ r rest, events = ⟨e, r⟩ :: rest ∧ Awaits (ofExcept r >>= f) rest e' := by
  cases h with
  | here => exact .inl ⟨rfl, rfl⟩
  | there rest => exact .inr ⟨_, _, rfl, rest⟩

/-- The run in which every effect is answered by the same function. -/
def respond (answer : (e : E) → Except ε (A e)) :
    Prog E A ε α → List (Event A ε) × Except ε α
  | done a => ([], .ok a)
  | fail x => ([], .error x)
  | call e k =>
    let rest := respond answer (k (answer e))
    (⟨e, answer e⟩ :: rest.1, rest.2)

theorem respond_runs (answer : (e : E) → Except ε (A e)) (p : Prog E A ε α) :
    Runs p (respond answer p).1 (respond answer p).2 := by
  induction p with
  | done a => exact .done
  | fail x => exact .fail
  | call e k ih => exact .call (ih (answer e))

theorem respond_answers (answer : (e : E) → Except ε (A e)) (p : Prog E A ε α) :
    ∀ y ∈ (respond answer p).1, y = ⟨y.1, answer y.1⟩ := by
  induction p with
  | done a => exact nofun
  | fail x => exact nofun
  | call e k ih =>
    intro y hy
    rcases List.mem_cons.mp hy with rfl | later
    · rfl
    · exact ih (answer e) y later

theorem Only.awaits {P : E → Prop} {p : Prog E A ε α} (h : p.Only P) (waits : Awaits p events e) :
    P e := by
  induction waits with
  | here => exact h.1
  | there _ ih => exact ih (h.2 _)

theorem only_of_awaits {P : E → Prop} {p : Prog E A ε α}
    (h : ∀ events e, Awaits p events e → P e) : p.Only P := by
  induction p with
  | done a => trivial
  | fail x => trivial
  | call e k ih => exact ⟨h [] e .here, fun r => ih r fun events e' later => h _ e' (.there later)⟩

theorem Only.awaited {P : E → Prop} {p : Prog E A ε α} (h : p.Only P) (waits : Awaits p events e) :
    ∀ event ∈ events, P event.1 := by
  induction waits with
  | here => exact nofun
  | there _ ih =>
    intro event he
    rcases List.mem_cons.mp he with rfl | later
    · exact h.1
    · exact ih (h.2 _) event later

end Prog

end Overbook.Async
