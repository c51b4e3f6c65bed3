import Overbook.JsQuotes
import Mathlib.Data.List.Sort

/-! The fingerprint of a request. It is the hash of the method, the path and a text of the body
with the members of every object sorted by their keys. -/
namespace Overbook.Idempotency

open Js

/-- What the fingerprint uses of the language and of `node:crypto`. -/
structure Runtime where
  toUpperCase : List Char → List Char
  localeCompare : JsString → JsString → Int
  sha256 : List Char → String

def codePoint : CodePoint → Nat
  | .char c => c.toNat
  | .surrogate n => 0xD800 + n

/- The number that a key stands for, where the key is an array index. -/
def arrayIndex (key : JsString) : Option Nat :=
  let n := key.foldl (fun n c => 10 * n + (codePoint c - 48)) 0
  if key = (Nat.toDigits 10 n).map .char ∧ n < 2 ^ 32 - 1 then some n else none

/-- `Object.entries`: the array indices first, in ascending order, and then the other keys in the
order they came in. -/
def objectEntries {α : Type} (members : List (JsString × α)) : List (JsString × α) :=
  (members.filter fun m => (arrayIndex m.1).isSome).insertionSort
      (fun a b => (arrayIndex a.1).getD 0 ≤ (arrayIndex b.1).getD 0) ++
    members.filter fun m => !(arrayIndex m.1).isSome

def ofText (s : String) : JsString := s.toList.map .char

example : (objectEntries [(ofText "b", 0), (ofText "10", 1), (ofText "01", 2), (ofText "2", 3)]).map
    Prod.snd = [3, 1, 0, 2] := by decide +kernel

/- `.sort(([a], [b]) => a.localeCompare(b))`, which is stable. -/
def sortEntries {α : Type} (localeCompare : JsString → JsString → Int)
    (entries : List (JsString × α)) : List (JsString × α) :=
  entries.insertionSort fun a b => localeCompare a.1 b.1 ≤ 0

variable (localeCompare : JsString → JsString → Int)

mutual

/- A JSON value has no member that is undefined. The texts of the members are made before the sort
here, which looks at the keys only. -/
def stableStringify : JsValue → List Char
  | .array items => '[' :: (join (stableItems items) ++ [']'])
  | .object members =>
    let entries := sortEntries localeCompare (objectEntries (stableMembers members))
    '\x7b' :: (join (entries.map fun entry => memberText entry.1 entry.2) ++ ['\x7d'])
  | .null => JsValue.null.stringify
  | .bool b => (JsValue.bool b).stringify
  | .number x => (JsValue.number x).stringify
  | .string s => (JsValue.string s).stringify

def stableItems : List JsValue → List (List Char)
  | [] => []
  | v :: items => stableStringify v :: stableItems items

def stableMembers : List (JsString × JsValue) → List (JsString × List Char)
  | [] => []
  | (key, v) :: members => (key, stableStringify v) :: stableMembers members

end

def requestFingerprint (R : Runtime) (method path : List Char) (body : JsValue) : String :=
  R.sha256 (R.toUpperCase method ++ ' ' :: (path ++ ' ' :: stableStringify R.localeCompare body))

/-! The text is the plain one of the body with its members in order. -/

mutual

def canonical : JsValue → JsValue
  | .array items => .array (canonicalItems items)
  | .object members => .object (sortEntries localeCompare (objectEntries (canonicalMembers members)))
  | .null => .null
  | .bool b => .bool b
  | .number x => .number x
  | .string s => .string s

def canonicalItems : List JsValue → List JsValue
  | [] => []
  | v :: items => canonical v :: canonicalItems items

def canonicalMembers : List (JsString × JsValue) → List (JsString × JsValue)
  | [] => []
  | (key, v) :: members => (key, canonical v) :: canonicalMembers members

end

/-- The members of objects at any depth are put in another order. -/
inductive Reordered : JsValue → JsValue → Prop where
  | refl (v : JsValue) : Reordered v v
  | members {ms ns : List (JsString × JsValue)} : ms.Perm ns → Reordered (.object ms) (.object ns)
  | item {v w : JsValue} (xs ys : List JsValue) : Reordered v w →
      Reordered (.array (xs ++ v :: ys)) (.array (xs ++ w :: ys))
  | member {v w : JsValue} (ms : List (JsString × JsValue)) (key : JsString)
      (ns : List (JsString × JsValue)) : Reordered v w →
      Reordered (.object (ms ++ (key, v) :: ns)) (.object (ms ++ (key, w) :: ns))
  | trans {u v w : JsValue} : Reordered u v → Reordered v w → Reordered u w

section Canonical

theorem stableItems_eq (items : List JsValue) :
    stableItems localeCompare items = items.map (stableStringify localeCompare) := by
  induction items with
  | nil => rfl
  | cons v items ih => simp [stableItems, ih]

theorem stableMembers_eq (members : List (JsString × JsValue)) :
    stableMembers localeCompare members =
      members.map fun m => (m.1, stableStringify localeCompare m.2) := by
  induction members with
  | nil => rfl
  | cons m members ih => simp [stableMembers, ih]

theorem canonicalItems_eq (items : List JsValue) :
    canonicalItems localeCompare items = items.map (canonical localeCompare) := by
  induction items with
  | nil => rfl
  | cons v items ih => simp [canonicalItems, ih]

theorem canonicalMembers_eq (members : List (JsString × JsValue)) :
    canonicalMembers localeCompare members =
      members.map fun m => (m.1, canonical localeCompare m.2) := by
  induction members with
  | nil => rfl
  | cons m members ih => simp [canonicalMembers, ih]

variable {localeCompare}

theorem map_sortEntries {α β : Type} (f : JsString → α → β) (entries : List (JsString × α)) :
    (sortEntries localeCompare entries).map (fun e => (e.1, f e.1 e.2)) =
      sortEntries localeCompare (entries.map fun e => (e.1, f e.1 e.2)) :=
  List.map_insertionSort _ _ _ _ fun _ _ _ _ => Iff.rfl

theorem map_objectEntries {α β : Type} (f : JsString → α → β) (members : List (JsString × α)) :
    (objectEntries members).map (fun e => (e.1, f e.1 e.2)) =
      objectEntries (members.map fun e => (e.1, f e.1 e.2)) := by
  unfold objectEntries
  rw [List.map_append, List.filter_map, List.filter_map]
  exact congrArg₂ _ (List.map_insertionSort _ _ _ _ fun _ _ _ _ => Iff.rfl) rfl

theorem objectEntries_perm {α : Type} (members : List (JsString × α)) :
    (objectEntries members).Perm members :=
  ((List.perm_insertionSort ..).append_right _).trans (List.filter_append_perm ..)

theorem sorted_perm {α : Type} (members : List (JsString × α)) :
    (sortEntries localeCompare (objectEntries members)).Perm members :=
  (List.perm_insertionSort ..).trans (objectEntries_perm members)

theorem stableStringify_eq (v : JsValue) :
    stableStringify localeCompare v = (canonical localeCompare v).stringify := by
  induction v using JsValue.induct with
  | null => rfl
  | bool b => rfl
  | number x => rfl
  | string s => rfl
  | array items ih =>
    simp only [stableStringify, canonical, JsValue.stringify, stringifyItems_eq, stableItems_eq,
      canonicalItems_eq, List.map_map]
    rw [List.map_congr_left ih]
    rfl
  | object members ih =>
    have texts : members.map (fun m => (m.1, stableStringify localeCompare m.2)) =
        (members.map fun m => (m.1, canonical localeCompare m.2)).map
          fun m => (m.1, m.2.stringify) := by
      rw [List.map_map]
      exact List.map_congr_left fun m mem => by simp [ih m mem]
    simp only [stableStringify, canonical, JsValue.stringify, stringifyMembers_eq,
      stableMembers_eq, canonicalMembers_eq, texts]
    rw [← map_objectEntries fun _ v => JsValue.stringify v,
      ← map_sortEntries fun _ v => JsValue.stringify v, List.map_map]
    rfl

theorem Reordered.symm {v w : JsValue} (h : Reordered v w) : Reordered w v := by
  induction h with
  | refl v => exact .refl v
  | members perm => exact .members perm.symm
  | item xs ys _ ih => exact .item xs ys ih
  | member ms key ns _ ih => exact .member ms key ns ih
  | trans _ _ ih ih' => exact .trans ih' ih

theorem reordered_items {f : JsValue → JsValue} {items : List JsValue}
    (each : ∀ v ∈ items, Reordered v (f v)) (done : List JsValue) :
    Reordered (.array (done ++ items)) (.array (done ++ items.map f)) := by
  induction items generalizing done with
  | nil => exact .refl _
  | cons v items ih =>
    have first := Reordered.item done items (each v (List.mem_cons_self ..))
    have rest := ih (fun w mem => each w (List.mem_cons_of_mem v mem)) (done ++ [f v])
    rw [List.append_assoc, List.append_assoc] at rest
    exact first.trans rest

theorem reordered_members {f : JsValue → JsValue} {members : List (JsString × JsValue)}
    (each : ∀ m ∈ members, Reordered m.2 (f m.2)) (done : List (JsString × JsValue)) :
    Reordered (.object (done ++ members))
      (.object (done ++ members.map fun m => (m.1, f m.2))) := by
  induction members generalizing done with
  | nil => exact .refl _
  | cons m members ih =>
    have first := Reordered.member done m.1 members (each m (List.mem_cons_self ..))
    have rest := ih (fun n mem => each n (List.mem_cons_of_mem m mem)) (done ++ [(m.1, f m.2)])
    rw [List.append_assoc, List.append_assoc] at rest
    exact first.trans rest

variable (localeCompare) in
/-- Putting the members in order is a reordering. -/
theorem canonical_reordered (v : JsValue) : Reordered v (canonical localeCompare v) := by
  induction v using JsValue.induct with
  | null => exact .refl _
  | bool b => exact .refl _
  | number x => exact .refl _
  | string s => exact .refl _
  | array items ih =>
    rw [canonical, canonicalItems_eq]
    exact reordered_items ih []
  | object members ih =>
    rw [canonical, canonicalMembers_eq]
    exact (reordered_members ih []).trans (.members (sorted_perm _).symm)

theorem reordered_of_canonical {v w : JsValue}
    (same : canonical localeCompare v = canonical localeCompare w) : Reordered v w := by
  refine (canonical_reordered localeCompare v).trans ?_
  rw [same]
  exact (canonical_reordered localeCompare w).symm

end Canonical

/-- Different requests have different fingerprints. -/
theorem fingerprint_inj (R : Runtime) (spaceless : ∀ m, ' ' ∉ m → ' ' ∉ R.toUpperCase m)
    (hash : Function.Injective R.sha256) {method method' path path' : List Char}
    {body body' : JsValue} (no_space : ' ' ∉ method) (no_space' : ' ' ∉ method')
    (same : requestFingerprint R method path body = requestFingerprint R method' path' body') :
    R.toUpperCase method = R.toUpperCase method' ∧ path = path' ∧ Reordered body body' := by
  have texts := hash same
  have letters : ∀ m, ' ' ∉ m → ∀ c ∈ R.toUpperCase m, (c != ' ') = true := by
    intro m free c mem
    refine bne_iff_ne.mpr ?_
    rintro rfl
    exact spaceless m free mem
  obtain ⟨upper, rest⟩ := stops_inj (letters method no_space) (letters method' no_space')
    (stops_cons (by decide) _) (stops_cons (by decide) _) texts
  have tails := (List.cons.inj rest).2
  rw [stableStringify_eq, stableStringify_eq] at tails
  obtain ⟨paths, bodies⟩ := closed_split (stringify_closed _) (stringify_closed _) tails
  exact ⟨upper, paths, reordered_of_canonical (stringify_inj bodies)⟩

/-! A comparison by code points, which is how keys of small letters compare. -/

def comparing (key : JsString → List Nat) (a b : JsString) : Int :=
  if key a < key b then -1 else if key a = key b then 0 else 1

def byCodePoint : JsString → JsString → Int := comparing fun s => s.map codePoint

def asciiRuntime : Runtime := ⟨fun m => m.map Char.toUpper, byCodePoint, String.ofList⟩

def one : JsValue := .number (.decimal ⟨false, 1, 0, by decide⟩)

def inOrder : JsValue := .object [(ofText "quantity", one), (ofText "userId", .string (ofText "u1"))]

def swapped : JsValue := .object [(ofText "userId", .string (ofText "u1")), (ofText "quantity", one)]

theorem fingerprint_inj_swapped : asciiRuntime.toUpperCase ['p', 'u', 't'] =
      asciiRuntime.toUpperCase ['P', 'U', 'T'] ∧
    ['/', 'x'] = ['/', 'x'] ∧ Reordered inOrder swapped := by
  have spaceless : ∀ m, ' ' ∉ m → ' ' ∉ asciiRuntime.toUpperCase m := by
    intro m free mem
    obtain ⟨c, c_mem, upper⟩ := List.mem_map.mp mem
    have same : c = ' ' := by
      unfold Char.toUpper at upper
      split at upper
      · rename_i letter
        have code := congrArg (fun c => c.val.toNat) upper
        have low : 97 ≤ c.toNat := letter.1
        have high : c.toNat ≤ 122 := letter.2
        simp at code
        omega
      · exact upper
    exact free (same ▸ c_mem)
  refine fingerprint_inj asciiRuntime spaceless (fun a b h => String.ofList_injective h) (by decide)
    (by decide) ?_
  decide +kernel

end Overbook.Idempotency
