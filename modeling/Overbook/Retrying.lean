import Mathlib.Data.List.Basic

/-! Work that is tried again after each failure, up to a limit. The outcomes of its attempts settle
how often it is tried and how it ends. -/
namespace Overbook.Retrying

inductive Stage where
  | waiting
  | trying
  | failed
  | released
  | succeeded
  | abandoned
  deriving DecidableEq

/-- So many attempts have failed before the one that the work is at. -/
structure Work where
  failures : Nat
  stage : Stage

inductive Step (limit : Nat) : Work → Work → Prop where
  | take (n : Nat) : Step limit ⟨n, .waiting⟩ ⟨n, .trying⟩
  | succeed (n : Nat) : Step limit ⟨n, .trying⟩ ⟨n, .succeeded⟩
  | fail (n : Nat) : Step limit ⟨n, .trying⟩ ⟨n, .failed⟩
  | release (n : Nat) : Step limit ⟨n, .failed⟩ ⟨n, .released⟩
  | again {n : Nat} (more : n + 1 < limit) : Step limit ⟨n, .released⟩ ⟨n + 1, .waiting⟩
  | giveUp {n : Nat} (spent : limit ≤ n + 1) : Step limit ⟨n, .released⟩ ⟨n, .abandoned⟩

def Work.outcomes (w : Work) : List Bool :=
  match w.stage with
  | .waiting | .trying => List.replicate w.failures false
  | .failed | .released | .abandoned => List.replicate (w.failures + 1) false
  | .succeeded => List.replicate w.failures false ++ [true]

/-- An attempt is left for the work, and none where it has been abandoned. -/
structure Work.Limited (limit : Nat) (w : Work) : Prop where
  below : w.failures < limit
  spent : w.stage = .abandoned → w.failures + 1 = limit

/-- The attempts that the work takes, and whether the last one succeeds: the first success ends it,
and otherwise the limit does. -/
def ending (limit : Nat) (outcomes : Nat → Bool) : Nat × Bool :=
  match (List.range limit).find? outcomes with
  | some n => (n + 1, true)
  | none => (limit, false)

def Follows (outcomes : Nat → Bool) (seen : List Bool) : Prop :=
  ∀ i b, seen[i]? = some b → outcomes i = b

variable {limit n : Nat} {w w' : Work} {outcomes : Nat → Bool} {seen : List Bool}

theorem Step.limited (st : Step limit w w') (h : w.Limited limit) : w'.Limited limit := by
  have below := h.below
  cases st with
  | again more => exact ⟨more, nofun⟩
  | giveUp spent => exact ⟨below, fun _ => Nat.le_antisymm below spent⟩
  | _ => exact ⟨below, nofun⟩

theorem Follows.of_append {more : List Bool} (h : Follows outcomes (seen ++ more)) :
    Follows outcomes seen := by
  intro i b there
  have lt : i < seen.length := (List.getElem?_eq_some_iff.mp there).1
  exact h i b (by rw [List.getElem?_append_left lt]; exact there)

theorem Follows.snoc (h : Follows outcomes seen) :
    Follows outcomes (seen ++ [outcomes seen.length]) := by
  intro i b there
  rcases Nat.lt_trichotomy i seen.length with before | here | after
  · rw [List.getElem?_append_left before] at there
    exact h i b there
  · subst here
    simpa using there
  · have none : (seen ++ [outcomes seen.length])[i]? = none := by simp; omega
    cases none.symm.trans there

theorem follows_replicate : Follows outcomes (List.replicate n false) ↔
    ∀ i, i < n → outcomes i = false := by
  constructor
  · intro h i lt
    exact h i false (by simp [lt])
  · intro h i b there
    obtain ⟨lt, rfl⟩ : i < n ∧ false = b := by simpa [List.getElem?_replicate] using there
    exact h i lt

/-- Work that has ended has ended as its outcomes settle. -/
theorem ended_as_settled (h : w.Limited limit) (follows : Follows outcomes w.outcomes) :
    (w.stage = .succeeded → ending limit outcomes = (w.failures + 1, true)) ∧
      (w.stage = .abandoned → ending limit outcomes = (limit, false)) := by
  constructor
  · intro succeeded
    rw [Work.outcomes, succeeded] at follows
    have failed := follows_replicate.mp follows.of_append
    have last := follows w.failures true (by simp)
    have found : (List.range limit).find? outcomes = some w.failures := by
      rw [List.find?_range_eq_some]
      exact ⟨last, List.mem_range.mpr h.below, fun i lt => by simp [failed i lt]⟩
    simp [ending, found]
  · intro abandoned
    rw [Work.outcomes, abandoned] at follows
    have failed := follows_replicate.mp follows
    rw [h.spent abandoned] at failed
    have none : (List.range limit).find? outcomes = none := by
      rw [List.find?_range_eq_none]
      exact fun i lt => by simp [failed i lt]
    simp [ending, none]

example : ending 3 (fun n => n == 1) = (2, true) := by decide

theorem ending_first (attempts : 0 < limit) (first : outcomes 0 = true) :
    ending limit outcomes = (1, true) := by
  have found : (List.range limit).find? outcomes = some 0 := by
    rw [List.find?_range_eq_some]
    exact ⟨first, List.mem_range.mpr attempts, fun i lt => absurd lt (Nat.not_lt_zero i)⟩
  rw [ending, found]

theorem follows_seen (seen : List Bool) : Follows (fun i => (seen[i]?).getD true) seen := by
  intro i b there
  simp [there]

end Overbook.Retrying
