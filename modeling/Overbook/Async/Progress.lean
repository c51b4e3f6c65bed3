import Overbook.Async.Soundness

/-! Programs that get on. When a logic asserts at every await of a task that some answer is
possible, the task can be run to its end, as programs are finite trees. -/
namespace Overbook.Async

namespace Machine

variable {σ Job E : Type} {A : E → Type} {ε α Choice Ext : Type}
  {m : Machine σ Job E A ε α Choice Ext} {p : Pool σ Job E A ε α} {t : Tid} {j : Job}

theorem step_start (idle : p.slot t = .idle) (ready : m.ready p.shared j = true) :
    m.step p (.start t j) = some (put p t (m.settle t j p.shared (m.code j))) := by
  simp [step, idle, ready]

theorem step_answer {e : E} {k : Except ε (A e) → Prog E A ε α} {c : Choice} {s : σ}
    {r : Except ε (A e)} (live : p.slot t = .live j e k)
    (answered : m.exec t p.shared e c = some (s, r)) :
    m.step p (.step t c) = some (put p t (m.settle t j s (k r))) := by
  simp [step, live, answered]

theorem run_cons {q : Pool σ Job E A ε α} {a : Act Job Choice Ext} (st : m.step p a = some q)
    (as : List (Act Job Choice Ext)) : m.run p (a :: as) = m.run q as := by
  simp [run, runChecked, st]

end Machine

namespace Logic

variable {σ Job E : Type} {A : E → Type} {ε α Choice Ext : Type}
  {m : Machine σ Job E A ε α Choice Ext} {L : Logic m}
  {Ok : Pool σ Job E A ε α → Act Job Choice Ext → Prop}
  {Post : Tid → Job → Except ε α → σ → Prop} {t : Tid} {j : Job}

/-- By induction on what is left of the program; `enabled` supplies the next answer. -/
theorem live_ends (v : Verified L Ok Post)
    (enabled : ∀ (p : Pool σ Job E A ε α) e k, p.slot t = .live j e k → L.Here t e p.shared →
      ∃ c s r, Ok p (.step t c) ∧ m.exec t p.shared e c = some (s, r))
    {p : Pool σ Job E A ε α} {b : Prog E A ε α} {s : σ} {p₀ : Pool σ Job E A ε α}
    (here : p = Machine.put p₀ t (m.settle t j s b)) (sound : Sound L Post p) :
    ∃ q r, m.Reach Ok p q ∧ q.slot t = .ended j r := by
  induction b generalizing p s p₀ with
  | done a => exact ⟨p, .ok a, .refl, by rw [here, Machine.put_self]; rfl⟩
  | fail x => exact ⟨p, .error x, .refl, by rw [here, Machine.put_self]; rfl⟩
  | call e k ih =>
    have live : p.slot t = .live j e k := by rw [here, Machine.put_self]; rfl
    obtain ⟨c, s', r, ok, answered⟩ := enabled p e k live (sound.here live)
    have st := Machine.step_answer live answered
    obtain ⟨q, r', run, ended⟩ := ih r rfl (sound_step v sound ok st)
    exact ⟨q, r', .trans (.step .refl ok st) run, ended⟩

theorem start_ends (v : Verified L Ok Post)
    (enabled : ∀ (p : Pool σ Job E A ε α) e k, p.slot t = .live j e k → L.Here t e p.shared →
      ∃ c s r, Ok p (.step t c) ∧ m.exec t p.shared e c = some (s, r))
    {p : Pool σ Job E A ε α} (sound : Sound L Post p) (idle : p.slot t = .idle)
    (ready : m.ready p.shared j = true) (ok : Ok p (.start t j)) :
    ∃ q r, m.Reach Ok p q ∧ q.slot t = .ended j r := by
  have st := Machine.step_start idle ready
  obtain ⟨q, r, run, ended⟩ := live_ends v enabled rfl (sound_step v sound ok st)
  exact ⟨q, r, .trans (.step .refl ok st) run, ended⟩

end Logic

end Overbook.Async
