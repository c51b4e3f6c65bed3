import Overbook.Async.Pool

/-! A right that one task at a time can hold and that is used at most once: whoever finds it
free takes it, and only a holder that has not used it may use it or give it up. -/
namespace Overbook.OneUse

open Async

structure Right where
  holder : Option Tid
  users : List Tid

namespace Right

/-- Nobody has used the right, or one task has, and it still holds it. -/
def Once (r : Right) : Prop := r.users = [] ∨ ∃ t, r.users = [t] ∧ r.holder = some t

structure MayUse (t : Tid) (r : Right) : Prop where
  holds : r.holder = some t
  unused : t ∉ r.users

/-- What task `t` may do about the right. -/
inductive Step (t : Tid) : Right → Right → Prop where
  | same (r : Right) : Step t r r
  | take (users : List Tid) : Step t ⟨none, users⟩ ⟨some t, users⟩
  | use {r : Right} : MayUse t r → Step t r ⟨r.holder, r.users ++ [t]⟩
  | giveUp {r : Right} : MayUse t r → Step t r ⟨none, r.users⟩

structure Undisturbed (t : Tid) (r r' : Right) : Prop where
  holder : r'.holder = some t ↔ r.holder = some t
  users : t ∈ r'.users ↔ t ∈ r.users

variable {t t' : Tid} {r r' r'' : Right}

theorem Undisturbed.refl (t : Tid) (r : Right) : Undisturbed t r r := ⟨Iff.rfl, Iff.rfl⟩

theorem Undisturbed.trans (h : Undisturbed t r r') (h' : Undisturbed t r' r'') :
    Undisturbed t r r'' := ⟨h'.holder.trans h.holder, h'.users.trans h.users⟩

theorem MayUse.undisturbed (h : MayUse t r) (u : Undisturbed t r r') : MayUse t r' :=
  ⟨u.holder.mpr h.holds, fun used => h.unused (u.users.mp used)⟩

theorem MayUse.first (h : MayUse t r) (once : r.Once) : r.users = [] := by
  rcases once with none | ⟨t', one, holds⟩
  · exact none
  · have same : t' = t := Option.some.inj (holds.symm.trans h.holds)
    exact absurd (by simp [one, same]) h.unused

theorem Step.once (h : Step t r r') (once : r.Once) : r'.Once := by
  cases h with
  | same => exact once
  | take users =>
    rcases once with none | ⟨_, _, holds⟩
    · exact .inl none
    · cases holds
  | use may =>
    have first := may.first once
    exact .inr ⟨t, by simp [first], may.holds⟩
  | giveUp may => exact .inl (may.first once)

theorem Step.undisturbed (h : Step t r r') (other : t' ≠ t) : Undisturbed t' r r' := by
  cases h with
  | same => exact .refl t' r
  | take users => exact ⟨by simp [other.symm], Iff.rfl⟩
  | use may => exact ⟨Iff.rfl, by simp [other]⟩
  | giveUp may => exact ⟨by simp [may.holds, other.symm], Iff.rfl⟩

/-- A right is used at most once. -/
theorem Once.length_le_one (h : r.Once) : r.users.length ≤ 1 := by
  rcases h with none | ⟨t, one, _⟩
  · simp [none]
  · simp [one]

end Right

end Overbook.OneUse
