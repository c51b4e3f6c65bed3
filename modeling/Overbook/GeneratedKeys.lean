import Mathlib.Data.List.Nodup
import Overbook.Async.Pool

/-! Generated primary keys. Each key is issued once, to one task; it lies in that task's
uncommitted rows or among the committed ones, never in both and never twice. -/
namespace Overbook.GeneratedKeys

open Overbook.Async

variable {K : Type}

structure Placed (issued : List (K × Tid)) (committed : List K) (pending : Tid → List K) :
    Prop where
  nodup : committed.Nodup
  known : ∀ x ∈ committed, x ∈ issued.map (·.1)
  pending_nodup : ∀ t, (pending t).Nodup
  pending_issued : ∀ t, ∀ x ∈ pending t, (x, t) ∈ issued
  apart : ∀ t, ∀ x ∈ pending t, x ∉ committed

variable {issued : List (K × Tid)} {committed : List K} {pending : Tid → List K}

theorem owner_unique (nodup : (issued.map (·.1)).Nodup) {x : K} {t t' : Tid}
    (h : (x, t) ∈ issued) (h' : (x, t') ∈ issued) : t = t' :=
  congrArg Prod.snd (List.inj_on_of_nodup_map nodup h h' rfl)

/-- Another key is issued, for a row of this table or of another. -/
theorem Placed.issue (h : Placed issued committed pending) (x : K × Tid) :
    Placed (x :: issued) committed pending where
  nodup := h.nodup
  known := fun y hy => List.mem_cons_of_mem _ (h.known y hy)
  pending_nodup := h.pending_nodup
  pending_issued := fun t y hy => List.mem_cons_of_mem _ (h.pending_issued t y hy)
  apart := h.apart

/-- Task `t` inserts a row under a fresh key. -/
theorem Placed.insert {t : Tid} {x : K} {pending' : Tid → List K}
    (h : Placed issued committed pending) (fresh : x ∉ issued.map (·.1))
    (own : pending' t = pending t ++ [x]) (other : ∀ t', t' ≠ t → pending' t' = pending t') :
    Placed ((x, t) :: issued) committed pending' := by
  have known : ∀ t', ∀ y ∈ pending t', y ≠ x := by
    rintro t' y hy rfl
    exact fresh (List.mem_map_of_mem (h.pending_issued t' y hy))
  refine ⟨h.nodup, (h.issue (x, t)).known, fun t' => ?_, fun t' y hy => ?_, fun t' y hy => ?_⟩
  · by_cases ht : t' = t
    · subst ht
      rw [own, List.nodup_append]
      refine ⟨h.pending_nodup t', List.nodup_singleton x, fun y hy z hz => ?_⟩
      rw [List.mem_singleton.mp hz]
      exact known t' y hy
    · rw [other t' ht]; exact h.pending_nodup t'
  · by_cases ht : t' = t
    · subst ht
      rw [own] at hy
      rcases List.mem_append.mp hy with hy | hy
      · exact List.mem_cons_of_mem _ (h.pending_issued t' y hy)
      · rw [List.mem_singleton.mp hy]; exact List.mem_cons_self ..
    · rw [other t' ht] at hy
      exact List.mem_cons_of_mem _ (h.pending_issued t' y hy)
  · by_cases ht : t' = t
    · subst ht
      rw [own] at hy
      rcases List.mem_append.mp hy with hy | hy
      · exact h.apart t' y hy
      · rw [List.mem_singleton.mp hy]; exact fun hx => fresh (h.known x hx)
    · rw [other t' ht] at hy
      exact h.apart t' y hy

/-- Task `t` gives its rows up. -/
theorem Placed.drop {t : Tid} {pending' : Tid → List K} (h : Placed issued committed pending)
    (own : pending' t = []) (other : ∀ t', t' ≠ t → pending' t' = pending t') :
    Placed issued committed pending' := by
  have sub : ∀ t', ∀ y ∈ pending' t', y ∈ pending t' := by
    intro t' y hy
    by_cases ht : t' = t
    · subst ht; rw [own] at hy; cases hy
    · rwa [other t' ht] at hy
  refine ⟨h.nodup, h.known, fun t' => ?_, fun t' y hy => h.pending_issued t' y (sub t' y hy),
    fun t' y hy => h.apart t' y (sub t' y hy)⟩
  by_cases ht : t' = t
  · subst ht; rw [own]; exact List.nodup_nil
  · rw [other t' ht]; exact h.pending_nodup t'

/-- Task `t` commits its rows. -/
theorem Placed.commit {t : Tid} {pending' : Tid → List K} (h : Placed issued committed pending)
    (once : (issued.map (·.1)).Nodup) (own : pending' t = [])
    (other : ∀ t', t' ≠ t → pending' t' = pending t') :
    Placed issued (committed ++ pending t) pending' := by
  have rest := h.drop own other
  refine ⟨?_, fun x hx => ?_, rest.pending_nodup, rest.pending_issued, fun t' x hx => ?_⟩
  · rw [List.nodup_append]
    refine ⟨h.nodup, h.pending_nodup t, ?_⟩
    rintro x hx y hy rfl
    exact h.apart t x hy hx
  · rcases List.mem_append.mp hx with hx | hx
    · exact h.known x hx
    · exact List.mem_map_of_mem (h.pending_issued t x hx)
  · rw [List.mem_append, not_or]
    refine ⟨rest.apart t' x hx, fun hy => ?_⟩
    by_cases ht : t' = t
    · subst ht; rw [own] at hx; cases hx
    · rw [other t' ht] at hx
      exact ht (owner_unique once (h.pending_issued t' x hx) (h.pending_issued t x hy))

end Overbook.GeneratedKeys
