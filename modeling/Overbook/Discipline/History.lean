import Overbook.Async.History
import Overbook.Discipline.Drain

/-! The history of a run of the services, entry by entry: what is known where a statement was
answered, and what happens between two entries. -/
namespace Overbook

open Async Prog Store

abbrev Exchange := Prog.Event Effect.Answer Err

abbrev ApiEntry := Entry Store Effect.Answer Err

variable {partition : String → String → Nat} {R : Regime} {p q : ApiPool}

/-- An entry of the history is a statement that was answered in a consistent state. -/
theorem entry_step {first last : List ApiEntry} {z : ApiEntry}
    (run : (api partition).History R.Ok migrated (first ++ z :: last) p) :
    Consistent z.before ∧ At R z.task z.effect z.before ∧
      ∃ c, exec partition z.task z.before z.effect c = some (z.after, z.answer) := by
  obtain ⟨r, j, k, c, before, shared, live, -, answered⟩ := run.answer
  have sound := api_sound before.reach
  have here := Logic.Sound.here sound live
  rw [shared] at here
  exact ⟨shared ▸ sound.inv, here, c, answered⟩

/-- What a step does to the history and to the tables. -/
inductive Unfolds (partition : String → String → Nat) (p q : ApiPool) :
    List ApiEntry → Prop where
  | answer {j : Job} (z : ApiEntry) {k : Except Err z.effect.Answer → Service Response} :
      z.before = p.shared → z.after = q.shared → p.slot z.task = .live j z.effect k →
      Unfolds partition p q [z]
  | quiet : q.shared = p.shared → Unfolds partition p q []
  | env (x : Ext) : ext p.shared x = some q.shared → Unfolds partition p q []

theorem step_unfolds {a : Act Job Choice Ext} (st : (api partition).step p a = some q) :
    Unfolds partition p q ((api partition).logged p a) := by
  cases Machine.steps_of_step st with
  | @start t j => exact .quiet (settle_shared t j p.shared _)
  | @step t c j e k s r live answered =>
    rw [Machine.logged_step live answered]
    exact .answer ⟨t, e, r, p.shared, s⟩ rfl (settle_shared t j s _).symm live
  | kill => exact .quiet rfl
  | env happened => exact .env _ happened

end Overbook
