import Mathlib.Data.List.Nodup

/-! Which of two elements comes first in a list that grows at its end. -/
namespace Overbook.Precedence

variable {α β : Type}

/-- Before every occurrence of `b` there is an occurrence of `a`. -/
def Precedes (a b : α) (l : List α) : Prop := ∀ pre post, l = pre ++ b :: post → a ∈ pre

theorem precedes_of_not_mem {a b : α} {l : List α} (h : b ∉ l) : Precedes a b l := by
  rintro pre post rfl
  exact absurd (List.mem_append_right _ (List.mem_cons_self ..)) h

/-- What is appended has to respect the order only while `a` is still missing. -/
theorem Precedes.append {a b : α} {l l' : List α} (h : Precedes a b l)
    (h' : a ∈ l ∨ Precedes a b l') : Precedes a b (l ++ l') := by
  intro pre post eq
  rcases List.append_eq_append_iff.mp eq with ⟨as, rfl, rfl⟩ | ⟨bs, rfl, tail⟩
  · rcases h' with ha | h'
    · exact List.mem_append_left _ ha
    · exact List.mem_append_right _ (h' as post rfl)
  · cases bs with
    | nil =>
      rw [List.append_nil] at h'
      rcases h' with ha | h'
      · exact ha
      · exact absurd (h' [] post tail.symm) List.not_mem_nil
    | cons c bs =>
      obtain ⟨rfl, -⟩ := List.cons.inj tail
      exact h pre bs rfl

theorem Precedes.filter {a b : α} {l : List α} {p : α → Bool} (h : Precedes a b l)
    (keep : p a = true) : Precedes a b (l.filter p) := by
  intro pre post eq
  obtain ⟨l₁, l₂, rfl, rfl, tail⟩ := List.filter_eq_append_iff.mp eq
  obtain ⟨l₃, l₄, rfl, skip, -, -⟩ := List.filter_eq_cons_iff.mp tail
  have ha := h (l₁ ++ l₃) l₄ (by simp)
  rcases List.mem_append.mp ha with ha | ha
  · exact List.mem_filter.mpr ⟨ha, keep⟩
  · exact absurd keep (skip a ha)

theorem precedes_map {f : α → β} {a b : β} {l : List α}
    (h : ∀ y ∈ l, f y = b → ∃ x, f x = a ∧ Precedes x y l) : Precedes a b (l.map f) := by
  intro pre post eq
  obtain ⟨l₁, l₂, rfl, rfl, tail⟩ := List.map_eq_append_iff.mp eq
  obtain ⟨y, l₃, rfl, hy, -⟩ := List.map_eq_cons_iff.mp tail
  have mem : y ∈ l₁ ++ y :: l₃ := List.mem_append_right _ (List.mem_cons_self ..)
  obtain ⟨x, rfl, before⟩ := h y mem hy
  exact List.mem_map_of_mem (before l₁ l₃ rfl)

/-- In a sorted list the smaller element comes first. -/
theorem precedes_of_sorted {r : α → α → Prop} {a b : α} {l : List α} (sorted : l.Pairwise r)
    (mem : a ∈ l) (ne : a ≠ b) (lt : ¬ r b a) : Precedes a b l := by
  rintro pre post rfl
  rcases List.mem_append.mp mem with ha | ha
  · exact ha
  · rcases List.mem_cons.mp ha with rfl | ha
    · exact absurd rfl ne
    · have tail := (List.pairwise_append.mp sorted).2.1
      exact absurd ((List.pairwise_cons.mp tail).1 a ha) lt

/-- A pair lies in the part of the list that has its second element. -/
theorem pair_init {a b : α} {l l' : List α} (h : [a, b].Sublist (l ++ l')) (last : b ∉ l') :
    [a, b].Sublist l := by
  obtain ⟨l₁, l₂, eq, h₁, h₂⟩ := List.sublist_append_iff.mp h
  cases l₂ with
  | nil => rw [List.append_nil] at eq; rwa [eq]
  | cons c l₂ =>
    have mem : b ∈ c :: l₂ := by
      have ends := congrArg List.getLast? eq
      rw [List.getLast?_append] at ends
      have some : (c :: l₂).getLast? = some b := by
        cases tail : (c :: l₂).getLast? with
        | none => simp at tail
        | some x => rw [tail] at ends; simpa using ends.symm
      exact List.mem_of_getLast? some
    exact absurd (h₂.subset mem) last

end Overbook.Precedence
