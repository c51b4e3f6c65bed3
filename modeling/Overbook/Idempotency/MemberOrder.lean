import Mathlib.Data.List.Lex
import Mathlib.Data.List.Pairwise
import Overbook.Idempotency.Fingerprint

/-! When a fingerprint does not depend on the order of members: the sort has to tell the keys of
each object apart, since those that it takes for equal stay in the order they came in. Array indices
are put in order before the sort. -/
namespace Overbook.Idempotency

open Js

/-- A consistent comparison, which is what a sort asks for. -/
structure Collation (localeCompare : JsString → JsString → Int) : Prop where
  refl : ∀ a, localeCompare a a = 0
  flip : ∀ a b, 0 ≤ localeCompare a b ↔ localeCompare b a ≤ 0
  trans : ∀ a b c, localeCompare a b ≤ 0 → localeCompare b c ≤ 0 → localeCompare a c ≤ 0

section Objects

variable (P : List JsString → Prop)

mutual

def EveryObject : JsValue → Prop
  | .array items => EveryItem items
  | .object members => P (members.map Prod.fst) ∧ EveryMember members
  | .null => True
  | .bool _ => True
  | .number _ => True
  | .string _ => True

def EveryItem : List JsValue → Prop
  | [] => True
  | v :: items => EveryObject v ∧ EveryItem items

def EveryMember : List (JsString × JsValue) → Prop
  | [] => True
  | (_, v) :: members => EveryObject v ∧ EveryMember members

end

variable {P}

@[simp] theorem everyObject_array (items : List JsValue) :
    EveryObject P (.array items) ↔ ∀ v ∈ items, EveryObject P v := by
  change EveryItem P items ↔ _
  induction items with
  | nil => simp [EveryItem]
  | cons v items ih => simp [EveryItem, ih]

@[simp] theorem everyObject_object (members : List (JsString × JsValue)) :
    EveryObject P (.object members) ↔
      P (members.map Prod.fst) ∧ ∀ m ∈ members, EveryObject P m.2 := by
  change P (members.map Prod.fst) ∧ EveryMember P members ↔ _
  refine and_congr Iff.rfl ?_
  induction members with
  | nil => simp [EveryMember]
  | cons m members ih => simp [EveryMember, ih]

/-- What does not depend on the order of keys survives a reordering. -/
theorem Reordered.every (perm : ∀ ks ks', ks.Perm ks' → P ks → P ks') {v w : JsValue}
    (h : Reordered v w) (every : EveryObject P v) : EveryObject P w := by
  induction h with
  | refl v => exact every
  | members p =>
    rw [everyObject_object] at every ⊢
    exact ⟨perm _ _ (p.map _) every.1, fun m mem => every.2 m (p.mem_iff.mpr mem)⟩
  | item xs ys _ ih =>
    rw [everyObject_array] at every ⊢
    rw [List.forall_mem_append, List.forall_mem_cons] at every ⊢
    exact ⟨every.1, ih every.2.1, every.2.2⟩
  | member ms key ns _ ih =>
    rw [everyObject_object, List.map_append, List.map_cons] at every ⊢
    rw [List.forall_mem_append, List.forall_mem_cons] at every ⊢
    exact ⟨every.1, every.2.1, ih every.2.2.1, every.2.2.2⟩
  | trans _ _ ih ih' => exact ih' (ih every)

end Objects

def DistinctKeys (v : JsValue) : Prop := EveryObject List.Nodup v

/- Two keys do not depend on the order they came in. -/
def Told (localeCompare : JsString → JsString → Int) (a b : JsString) : Prop :=
  localeCompare a b = 0 → (arrayIndex a).isSome = true ∨ (arrayIndex b).isSome = true

/- No object has two keys that are taken for equal, unless one is an array index. -/
def Separated (localeCompare : JsString → JsString → Int) (v : JsValue) : Prop :=
  EveryObject (List.Pairwise (Told localeCompare)) v

variable {localeCompare : JsString → JsString → Int}

theorem Collation.tie (c : Collation localeCompare) {a b : JsString} (le : localeCompare a b ≤ 0)
    (ge : localeCompare b a ≤ 0) : localeCompare a b = 0 :=
  le_antisymm le ((c.flip a b).mpr ge)

theorem Collation.tie_symm (c : Collation localeCompare) {a b : JsString}
    (h : localeCompare a b = 0) : localeCompare b a = 0 :=
  c.tie ((c.flip a b).mp h.ge) h.le

theorem Collation.total (c : Collation localeCompare) (a b : JsString) :
    localeCompare a b ≤ 0 ∨ localeCompare b a ≤ 0 :=
  (le_total (localeCompare a b) 0).imp_right (c.flip a b).mp

theorem separated_perm (c : Collation localeCompare) (ks ks' : List JsString) (perm : ks.Perm ks')
    (h : ks.Pairwise (Told localeCompare)) : ks'.Pairwise (Told localeCompare) :=
  (perm.pairwise_iff fun told tie => (told (c.tie_symm tie)).symm).mp h

/-- Entries that the sort tells apart have one order only. -/
theorem sortEntries_perm {α : Type} (c : Collation localeCompare) {ms ns : List (JsString × α)}
    (perm : ms.Perm ns)
    (separated : (ms.map Prod.fst).Pairwise fun a b => localeCompare a b ≠ 0) :
    sortEntries localeCompare ms = sortEntries localeCompare ns := by
  let r : JsString × α → JsString × α → Prop := fun a b => localeCompare a.1 b.1 ≤ 0
  have total : Std.Total r := ⟨fun a b => c.total a.1 b.1⟩
  have trans : IsTrans _ r := ⟨fun a b d h h' => c.trans a.1 b.1 d.1 h h'⟩
  have apart : ∀ a ∈ ms, ∀ b ∈ ms, a ≠ b → localeCompare a.1 b.1 ≠ 0 := by
    have symm : Std.Symm fun a b : JsString × α => localeCompare a.1 b.1 ≠ 0 :=
      ⟨fun a b ne tie => ne (c.tie_symm tie)⟩
    exact fun a ha b hb => (List.pairwise_map.mp separated).forall ha hb
  have both : (sortEntries localeCompare ms).Perm (sortEntries localeCompare ns) :=
    (List.perm_insertionSort ..).trans (perm.trans (List.perm_insertionSort ..).symm)
  refine both.eq_of_pairwise (fun a b ha hb le ge => ?_) (List.pairwise_insertionSort r ms)
    (List.pairwise_insertionSort r ns)
  by_contra ne
  have a_mem : a ∈ ms := (List.mem_insertionSort r).mp ha
  have b_mem : b ∈ ms := perm.mem_iff.mpr ((List.mem_insertionSort r).mp hb)
  exact apart a a_mem b b_mem ne (c.tie le ge)

theorem arrayIndex_key {key : JsString} {n : Nat} (h : arrayIndex key = some n) :
    key = (Nat.toDigits 10 n).map .char := by
  unfold arrayIndex at h
  dsimp only at h
  split at h
  · rename_i canonical
    cases h
    exact canonical.1
  · cases h

/-- Different array indices are different numbers, and so have one order only. -/
theorem indices_perm {α : Type} {ms ns : List (JsString × α)} (perm : ms.Perm ns)
    (once : (ms.map Prod.fst).Nodup) :
    (ms.filter fun m => (arrayIndex m.1).isSome).insertionSort
        (fun a b => (arrayIndex a.1).getD 0 ≤ (arrayIndex b.1).getD 0) =
      (ns.filter fun m => (arrayIndex m.1).isSome).insertionSort
        fun a b => (arrayIndex a.1).getD 0 ≤ (arrayIndex b.1).getD 0 := by
  let r : JsString × α → JsString × α → Prop := fun a b =>
    (arrayIndex a.1).getD 0 ≤ (arrayIndex b.1).getD 0
  have total : Std.Total r := ⟨fun a b => le_total ..⟩
  have trans : IsTrans _ r := ⟨fun a b d h h' => le_trans h h'⟩
  have both := (List.perm_insertionSort r (ms.filter fun m => (arrayIndex m.1).isSome)).trans
    ((perm.filter _).trans (List.perm_insertionSort r _).symm)
  refine both.eq_of_pairwise (fun a b ha hb le ge => ?_) (List.pairwise_insertionSort r _)
    (List.pairwise_insertionSort r _)
  obtain ⟨a_mem, a_index⟩ := List.mem_filter.mp ((List.mem_insertionSort r).mp ha)
  obtain ⟨b_mem, b_index⟩ := List.mem_filter.mp ((List.mem_insertionSort r).mp hb)
  obtain ⟨i, hi⟩ := Option.isSome_iff_exists.mp a_index
  obtain ⟨k, hk⟩ := Option.isSome_iff_exists.mp b_index
  have same : i = k := by
    have le' : (arrayIndex a.1).getD 0 = (arrayIndex b.1).getD 0 := le_antisymm le ge
    simpa [hi, hk] using le'
  have keys : a.1 = b.1 := by rw [arrayIndex_key hi, arrayIndex_key hk, same]
  exact List.inj_on_of_nodup_map once a_mem (perm.mem_iff.mpr b_mem) keys

theorem sortEntries_append {α : Type} (xs ys : List (JsString × α)) :
    sortEntries localeCompare (xs ++ ys) =
      xs.foldr (List.orderedInsert fun a b => localeCompare a.1 b.1 ≤ 0)
        (sortEntries localeCompare ys) := by
  induction xs with
  | nil => rfl
  | cons x xs ih =>
    rw [List.foldr_cons, ← ih]
    rfl

/-- Entries that are told apart have one order only. -/
theorem sorted_eq {α : Type} (c : Collation localeCompare) {ms ns : List (JsString × α)}
    (perm : ms.Perm ns) (once : (ms.map Prod.fst).Nodup)
    (told : (ms.map Prod.fst).Pairwise (Told localeCompare)) :
    sortEntries localeCompare (objectEntries ms) = sortEntries localeCompare (objectEntries ns) := by
  have rest : ((ms.filter fun m => !(arrayIndex m.1).isSome).map Prod.fst).Pairwise
      fun a b => localeCompare a b ≠ 0 := by
    rw [List.pairwise_map] at told ⊢
    refine (told.filter _).imp_of_mem fun {a b} ha hb apart tie => ?_
    have left := (List.mem_filter.mp ha).2
    have right := (List.mem_filter.mp hb).2
    simp only [Bool.not_eq_true'] at left right
    rcases apart tie with index | index
    · simp [left] at index
    · simp [right] at index
  unfold objectEntries
  rw [sortEntries_append, sortEntries_append, indices_perm perm once,
    sortEntries_perm c (perm.filter _) rest]

/-- Where the keys are told apart, a reordering leaves nothing behind. -/
theorem canonical_eq (c : Collation localeCompare) {v w : JsValue} (h : Reordered v w)
    (distinct : DistinctKeys v) (separated : Separated localeCompare v) :
    canonical localeCompare v = canonical localeCompare w := by
  induction h with
  | refl v => rfl
  | members perm =>
    have once := ((everyObject_object _).mp distinct).1
    have keys := ((everyObject_object _).mp separated).1
    rw [canonical, canonical, canonicalMembers_eq, canonicalMembers_eq]
    refine congrArg JsValue.object (sorted_eq c (perm.map _) ?_ ?_)
    · rwa [List.map_map]
    · rwa [List.map_map]
  | item xs ys _ ih =>
    have once := (everyObject_array _).mp distinct
    have items := (everyObject_array _).mp separated
    have inner := ih (once _ (by simp)) (items _ (by simp))
    simp only [canonical, canonicalItems_eq, List.map_append, List.map_cons, inner]
  | member ms key ns _ ih =>
    have once := ((everyObject_object _).mp distinct).2
    have values := ((everyObject_object _).mp separated).2
    have inner := ih (once (key, _) (by simp)) (values (key, _) (by simp))
    simp only [canonical, canonicalMembers_eq, List.map_append, List.map_cons, inner]
  | trans first _ ih ih' =>
    have once := first.every (fun _ _ perm => perm.nodup_iff.mp) distinct
    have told := first.every (separated_perm c) separated
    exact (ih distinct separated).trans (ih' once told)

theorem perm_of_sorted {α : Type} {ms ns : List (JsString × α)}
    (same : sortEntries localeCompare (objectEntries ms) =
      sortEntries localeCompare (objectEntries ns)) : ms.Perm ns := by
  have perm : (sortEntries localeCompare (objectEntries ms)).Perm ms := sorted_perm ms
  rw [same] at perm
  exact perm.symm.trans (sorted_perm ns)

theorem perm_middle {α : Type} {x y : α} (ms ns : List α)
    (perm : (ms ++ x :: ns).Perm (ms ++ y :: ns)) : x = y := by
  have rest : ([x] ++ ns).Perm ([y] ++ ns) := (List.perm_append_left_iff ms).mp perm
  exact List.singleton_perm_singleton.mp ((List.perm_append_right_iff ns).mp rest)

/- Two entries that are taken for equal come out in the order they came in. -/
theorem not_both_orders {α : Type} {a b : α} (ne : a ≠ b) {entries : List α}
    (once : entries.Nodup) (h : [a, b].Sublist entries) : ¬ [b, a].Sublist entries := by
  intro h'
  induction entries with
  | nil => cases h
  | cons x entries ih =>
    obtain ⟨new, rest⟩ := List.nodup_cons.mp once
    cases h with
    | cons _ later =>
      cases h' with
      | cons _ later' => exact ih rest later later'
      | cons_cons _ _ => exact new (later.subset (by simp))
    | cons_cons _ later =>
      cases h' with
      | cons _ later' => exact new (later'.subset (by simp))
      | cons_cons _ _ => exact ne rfl

theorem entries_sublist {α : Type} {a b : JsString × α} {ms : List (JsString × α)}
    (left : arrayIndex a.1 = none) (right : arrayIndex b.1 = none) (h : [a, b].Sublist ms) :
    [a, b].Sublist (objectEntries ms) := by
  have kept := h.filter fun m => !(arrayIndex m.1).isSome
  simp only [List.filter_cons, left, right, Option.isSome_none, Bool.not_false, if_true,
    List.filter_nil] at kept
  exact kept.trans (List.sublist_append_right ..)

theorem sortEntries_tie {α : Type} (c : Collation localeCompare) {a b : JsString × α}
    {ms : List (JsString × α)} (left : arrayIndex a.1 = none) (right : arrayIndex b.1 = none)
    (tie : localeCompare a.1 b.1 = 0) (ne : a ≠ b) (once : ms.Nodup) (h : [a, b].Sublist ms) :
    sortEntries localeCompare (objectEntries ms.reverse) ≠
      sortEntries localeCompare (objectEntries ms) := by
  intro same
  have first : [a, b].Sublist (sortEntries localeCompare (objectEntries ms)) :=
    List.pair_sublist_insertionSort tie.le (entries_sublist left right h)
  have back : [b, a].Sublist ms.reverse := by simpa using h.reverse
  have second : [b, a].Sublist (sortEntries localeCompare (objectEntries ms.reverse)) :=
    List.pair_sublist_insertionSort (c.tie_symm tie).le (entries_sublist right left back)
  have distinct : (sortEntries localeCompare (objectEntries ms)).Nodup :=
    (sorted_perm ms).nodup_iff.mpr once
  rw [same] at second
  exact not_both_orders ne distinct first second

/-- Where two keys of an object are taken for equal, some reordering shows. -/
theorem reordering_shows (c : Collation localeCompare) (v : JsValue) (distinct : DistinctKeys v)
    (tie : ¬ Separated localeCompare v) :
    ∃ w, Reordered v w ∧ canonical localeCompare w ≠ canonical localeCompare v := by
  induction v using JsValue.induct with
  | null => exact absurd trivial tie
  | bool b => exact absurd trivial tie
  | number x => exact absurd trivial tie
  | string s => exact absurd trivial tie
  | array items ih =>
    rw [Separated, everyObject_array, not_forall] at tie
    obtain ⟨u, tied⟩ := tie
    obtain ⟨mem, tied⟩ := Classical.not_imp.mp tied
    obtain ⟨u', inner, shows⟩ := ih u mem ((everyObject_array _).mp distinct u mem) tied
    obtain ⟨xs, ys, rfl⟩ := List.append_of_mem mem
    refine ⟨_, .item xs ys inner, fun same => shows ?_⟩
    simpa [canonical, canonicalItems_eq] using same
  | object members ih =>
    obtain ⟨keys, values⟩ := (everyObject_object _).mp distinct
    by_cases below : ∃ m ∈ members, ¬ Separated localeCompare m.2
    · obtain ⟨⟨key, u⟩, mem, tied⟩ := below
      obtain ⟨u', inner, shows⟩ := ih (key, u) mem (values (key, u) mem) tied
      obtain ⟨ms, ns, rfl⟩ := List.append_of_mem mem
      refine ⟨_, .member ms key ns inner, fun same => shows ?_⟩
      simp only [canonical, canonicalMembers_eq, JsValue.object.injEq, List.map_append,
        List.map_cons] at same
      exact congrArg Prod.snd (perm_middle _ _ (perm_of_sorted same))
    · have own : ¬ (members.map Prod.fst).Pairwise (Told localeCompare) := by
        intro separated
        refine tie ((everyObject_object _).mpr ⟨separated, fun m mem => ?_⟩)
        by_contra tied
        exact below ⟨m, mem, tied⟩
      rw [List.pairwise_map, List.pairwise_iff_forall_sublist] at own
      push Not at own
      obtain ⟨a, b, sub, tied⟩ := own
      obtain ⟨tied, others⟩ := Classical.not_imp.mp tied
      obtain ⟨left, right⟩ := not_or.mp others
      rw [Bool.not_eq_true, Option.isSome_eq_false_iff, Option.isNone_iff_eq_none] at left right
      have ne : a.1 ≠ b.1 := (List.pairwise_map.mp keys).forall_sublist sub
      refine ⟨_, .members (List.reverse_perm members).symm, fun same => ?_⟩
      simp only [canonical, canonicalMembers_eq, JsValue.object.injEq, List.map_reverse] at same
      refine sortEntries_tie c (a := (a.1, canonical localeCompare a.2))
        (b := (b.1, canonical localeCompare b.2)) left right tied (fun same => ne (Prod.mk.inj same).1) ?_
        (sub.map fun m : JsString × JsValue => (m.1, canonical localeCompare m.2)) same
      refine List.Nodup.of_map Prod.fst ?_
      rw [List.map_map]
      exact keys

/-- The order of members never shows exactly where no object has two keys that the sort takes for
equal and that are no array indices. -/
theorem member_order_free_iff (R : Runtime) (c : Collation R.localeCompare)
    (hash : Function.Injective R.sha256) (method path : List Char) (body : JsValue)
    (distinct : DistinctKeys body) :
    (∀ body', Reordered body body' →
      requestFingerprint R method path body' = requestFingerprint R method path body) ↔
    Separated R.localeCompare body := by
  constructor
  · intro free
    by_contra tie
    obtain ⟨body', reordered, shows⟩ := reordering_shows c body distinct tie
    have texts := List.append_cancel_left (hash (free body' reordered))
    have bodies := List.append_cancel_left (List.cons.inj texts).2
    rw [stableStringify_eq, stableStringify_eq, List.cons.injEq] at bodies
    exact shows (stringify_inj bodies.2)
  · intro separated body' reordered
    have same := canonical_eq c reordered distinct separated
    simp only [requestFingerprint, stableStringify_eq, same]

/-! Two spellings of one name, which compare as equal. -/

def composed : JsString := [.char '\u00e9']

def decomposed : JsString := [.char 'e', .char '\u0301']

def two : JsValue := .number (.decimal ⟨false, 2, 0, by decide⟩)

def twoNames : JsValue := .object [(composed, one), (decomposed, two)]

def namesSwapped : JsValue := .object [(decomposed, two), (composed, one)]

/-- Every runtime that takes the two names for equal tells one order of them from the other. -/
theorem member_order_shows : DistinctKeys twoNames ∧ Reordered twoNames namesSwapped ∧
    ∀ (R : Runtime) (method path : List Char), R.localeCompare composed decomposed = 0 →
      R.localeCompare decomposed composed = 0 → Function.Injective R.sha256 →
      requestFingerprint R method path twoNames ≠ requestFingerprint R method path namesSwapped := by
  refine ⟨?_, .members (.swap ..), fun R method path tie tie' hash same => ?_⟩
  · rw [DistinctKeys, twoNames, everyObject_object]
    exact ⟨by decide, by simp [one, two, EveryObject]⟩
  · have texts := List.append_cancel_left (hash same)
    have bodies := List.append_cancel_left (List.cons.inj texts).2
    rw [stableStringify_eq, stableStringify_eq, List.cons.injEq] at bodies
    have values := stringify_inj bodies.2
    have names : composed ≠ decomposed := by decide
    have plain : arrayIndex composed = none := by decide
    have plain' : arrayIndex decomposed = none := by decide
    simp [twoNames, namesSwapped, canonical, canonicalMembers, sortEntries, objectEntries, plain,
      plain', tie, tie', one, two, names] at values

theorem comparing_collation (key : JsString → List Nat) : Collation (comparing key) where
  refl a := by simp [comparing]
  flip a b := by
    unfold comparing
    rcases lt_trichotomy (key a) (key b) with lt | eq | gt
    · simp [lt, lt.asymm, lt.ne']
    · simp [eq]
    · simp [gt, gt.asymm, gt.ne']
  trans a b c := by
    have le : ∀ x y, comparing key x y ≤ 0 ↔ key x ≤ key y := by
      intro x y
      unfold comparing
      rcases lt_trichotomy (key x) (key y) with lt | eq | gt
      · simp [lt, lt.le]
      · simp [eq]
      · simp [gt.asymm, gt.ne', gt]
    simp only [le]
    exact le_trans

theorem member_order_free_ascii :
    (∀ body', Reordered inOrder body' →
      requestFingerprint asciiRuntime ['P', 'O', 'S', 'T'] ['/', 'x'] body' =
        requestFingerprint asciiRuntime ['P', 'O', 'S', 'T'] ['/', 'x'] inOrder) ↔
    Separated asciiRuntime.localeCompare inOrder := by
  refine member_order_free_iff asciiRuntime (comparing_collation _) (fun a b h =>
    String.ofList_injective h) _ _ inOrder ?_
  rw [DistinctKeys, inOrder, everyObject_object]
  exact ⟨by decide, by simp [one, EveryObject]⟩


end Overbook.Idempotency
