import Mathlib.Data.List.Sort

/-! Rows in the order of a key, and what follows a bound. A bound that is the key of a row cuts the
rows there, so a page and what follows its last row are the rows again. -/
namespace Overbook.Keyset

variable {α κ : Type} [LinearOrder κ] {key : α → κ}

def Increasing (key : α → κ) (rows : List α) : Prop := rows.Pairwise fun a b => key a < key b

def above (key : α → κ) (bound : Option κ) (a : α) : Bool := bound.all fun b => decide (b < key a)

def ordered (key : α → κ) (rows : List α) : List α :=
  rows.mergeSort fun a b => decide (key a ≤ key b)

@[simp] theorem above_none (a : α) : above key none a = true := rfl

@[simp] theorem above_some (b : κ) (a : α) : above key (some b) a = true ↔ b < key a := by
  simp [above]

theorem ordered_increasing {rows : List α} (distinct : (rows.map key).Nodup) :
    Increasing key (ordered key rows) := by
  have sorted : (ordered key rows).Pairwise fun a b => key a ≤ key b := by
    refine (List.pairwise_mergeSort ?_ ?_ rows).imp fun le => of_decide_eq_true le
    · simpa using fun a b c => le_trans
    · simpa using fun a b => le_total (key a) (key b)
  have apart : (ordered key rows).Pairwise fun a b => key a ≠ key b := by
    have perm := (List.mergeSort_perm rows fun a b => decide (key a ≤ key b)).map key
    exact List.pairwise_map.mp (perm.nodup_iff.mpr distinct)
  exact sorted.imp₂ (fun _ _ le ne => lt_of_le_of_ne le ne) apart

theorem mem_ordered {rows : List α} {a : α} : a ∈ ordered key rows ↔ a ∈ rows :=
  List.mem_mergeSort

variable {rows : List α}

theorem Increasing.filter (h : Increasing key rows) (p : α → Bool) :
    Increasing key (rows.filter p) := List.Pairwise.filter p h

theorem Increasing.take (h : Increasing key rows) (n : Nat) : Increasing key (rows.take n) :=
  List.Pairwise.sublist (List.take_sublist ..) h

theorem ordered_filter (distinct : (rows.map key).Nodup) (p : α → Bool) :
    ordered key (rows.filter p) = (ordered key rows).filter p := by
  have left : Increasing key (ordered key (rows.filter p)) :=
    ordered_increasing ((List.filter_sublist.map key).nodup distinct)
  have right := (ordered_increasing distinct).filter p
  have same : (ordered key (rows.filter p)).Perm ((ordered key rows).filter p) :=
    (List.mergeSort_perm ..).trans ((List.mergeSort_perm ..).filter p).symm
  exact same.eq_of_pairwise (fun a b _ _ lt gt => absurd gt (lt_asymm lt)) left right

theorem Increasing.le_last (h : Increasing key rows) {x : α} (last : rows.getLast? = some x) :
    ∀ a ∈ rows, key a ≤ key x := by
  obtain ⟨init, rfl⟩ := List.getLast?_eq_some_iff.mp last
  intro a mem
  rcases List.mem_append.mp mem with earlier | same
  · exact le_of_lt ((List.pairwise_append.mp h).2.2 a earlier x (List.mem_singleton_self x))
  · rw [List.mem_singleton.mp same]

/-- What follows the last row of a page is what the page has left out. -/
theorem Increasing.above_last (h : Increasing key rows) {n : Nat} {x : α}
    (last : (rows.take n).getLast? = some x) :
    rows.filter (above key (some (key x))) = rows.drop n := by
  have whole : Increasing key (rows.take n ++ rows.drop n) := by rwa [List.take_append_drop]
  obtain ⟨page, -, apart⟩ := List.pairwise_append.mp whole
  have none : (rows.take n).filter (above key (some (key x))) = [] := by
    refine List.filter_eq_nil_iff.mpr fun a mem higher => ?_
    rw [above_some] at higher
    exact not_lt_of_ge (Increasing.le_last page last a mem) higher
  have all : (rows.drop n).filter (above key (some (key x))) = rows.drop n :=
    List.filter_eq_self.mpr fun a mem =>
      (above_some ..).mpr (apart x (List.mem_of_getLast? last) a mem)
  calc rows.filter (above key (some (key x)))
      = (rows.take n ++ rows.drop n).filter (above key (some (key x))) := by
        rw [List.take_append_drop]
    _ = rows.drop n := by rw [List.filter_append, none, all, List.nil_append]

/-- What follows a bound beyond an earlier bound. -/
theorem filter_above_above {b : Option κ} {c : κ} (le : ∀ x, b = some x → x ≤ c) :
    (rows.filter (above key b)).filter (above key (some c)) =
      rows.filter (above key (some c)) := by
  rw [List.filter_filter]
  refine List.filter_congr fun a _ => ?_
  cases b with
  | none => simp
  | some x =>
    rw [Bool.eq_iff_iff, Bool.and_eq_true, above_some, above_some]
    exact ⟨fun h => h.1, fun h => ⟨h, lt_of_le_of_lt (le x rfl) h⟩⟩

end Overbook.Keyset
