import Overbook.Async.History
import Overbook.Async.Progress

/-! Pools that come to rest. Where some live task can always be run to its end on its own, every
live task ends, as only finitely many have been started. -/
namespace Overbook.Async.Machine

variable {σ Job E : Type} {A : E → Type} {ε α Choice Ext : Type}
  {m : Machine σ Job E A ε α Choice Ext}
  {Ok : Pool σ Job E A ε α → Act Job Choice Ext → Prop}
  {P : Pool σ Job E A ε α → Prop} {p : Pool σ Job E A ε α} {t : Tid} {j : Job}

/-- A task whose next effect can always be answered in such a way that `P` stays is run to its end
by its answers alone; the induction is on what is left of its program. -/
theorem runs_to_end
    (next : ∀ p e k, P p → p.slot t = .live j e k → ∃ c s r, Ok p (.step t c) ∧
      m.exec t p.shared e c = some (s, r) ∧ P (put p t (m.settle t j s (k r))))
    {b : Prog E A ε α} {s : σ} (slot : p.slot t = (m.settle t j s b).2) (holds : P p) :
    ∃ q r, m.Reach Ok p q ∧ P q ∧ q.slot t = .ended j r ∧ ∀ t', t' ≠ t → q.slot t' = p.slot t' := by
  induction b generalizing p s with
  | done a => exact ⟨p, .ok a, .refl, holds, slot, fun _ _ => rfl⟩
  | fail x => exact ⟨p, .error x, .refl, holds, slot, fun _ _ => rfl⟩
  | call e k ih =>
    have live : p.slot t = .live j e k := slot
    obtain ⟨c, s', r, ok, answered, after⟩ := next p e k holds live
    obtain ⟨q, r', run, last, ended, others⟩ := ih r (put_self ..) after
    refine ⟨q, r', .trans (.step .refl ok (step_answer live answered)) run, last, ended, ?_⟩
    intro t' other
    exact (others t' other).trans (put_of_ne other ..)

inductive Rested (before after : Slot Job E A ε α) : Prop where
  | same (quiet : before.isLive = false) (still : after = before)
  | ended {j : Job} {e : E} {k : Except ε (A e) → Prog E A ε α} (r : Except ε α)
      (live : before = .live j e k) (ended : after = .ended j r)

theorem Rested.not_live {before after : Slot Job E A ε α} (h : Rested before after) :
    after.isLive = false := by
  cases h with
  | same quiet still =>
    rw [still]
    exact quiet
  | ended r live ended =>
    rw [ended]
    rfl

/-- One task after the other comes to its end. -/
theorem all_end
    (next : ∀ p t₀, P p → (p.slot t₀).isLive = true → ∃ t j e k q r, p.slot t = .live j e k ∧
      m.Reach Ok p q ∧ P q ∧ q.slot t = .ended j r ∧ ∀ t', t' ≠ t → q.slot t' = p.slot t')
    {n : Nat} (later : ∀ t, n ≤ t → p.slot t = .idle) (holds : P p) :
    ∃ q, m.Reach Ok p q ∧ P q ∧ ∀ t, Rested (p.slot t) (q.slot t) := by
  induction count : (List.range n).countP (fun t => (p.slot t).isLive) using Nat.strongRecOn
    generalizing p with
  | ind left ih =>
    by_cases quiet : ∀ t, (p.slot t).isLive = false
    · exact ⟨p, .refl, holds, fun t => .same (quiet t) rfl⟩
    · obtain ⟨t₀, live₀⟩ := not_forall.mp quiet
      obtain ⟨t, j, e, k, q, r, live, run, after, ended, others⟩ :=
        next p t₀ holds (by simpa using live₀)
      have lt : t < n := by
        by_contra big
        rw [later t (Nat.le_of_not_lt big)] at live
        cases live
      have later' : ∀ t', n ≤ t' → q.slot t' = .idle := by
        intro t' le
        have other : t' ≠ t := Nat.ne_of_gt (Nat.lt_of_lt_of_le lt le)
        exact (others t' other).trans (later t' le)
      have fewer : (List.range n).countP (fun t => (q.slot t).isLive) < left := by
        have mine : (p.slot t).isLive = true := by rw [live]; rfl
        have rest : ((List.range n).erase t).countP (fun t => (q.slot t).isLive) =
            ((List.range n).erase t).countP (fun t => (p.slot t).isLive) := by
          refine List.countP_congr fun t' ht' => ?_
          have other : t' ≠ t := ((List.nodup_range (n := n)).mem_erase_iff.mp ht').1
          rw [others t' other]
        have split := List.perm_cons_erase (List.mem_range.mpr lt)
        rw [← count, split.countP_eq, split.countP_eq, List.countP_cons, List.countP_cons, rest, ended,
          mine]
        simp [Slot.isLive]
      obtain ⟨q', run', last, rested⟩ := ih _ fewer later' after rfl
      refine ⟨q', run.trans run', last, fun t' => ?_⟩
      by_cases own : t' = t
      · subst own
        have still := (reach_keep run' t').2 (by rw [ended]; rfl)
        exact .ended r live (still.trans ended)
      · have same := rested t'
        rwa [others t' own] at same

end Overbook.Async.Machine
