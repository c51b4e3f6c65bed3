import Overbook.Async.Pool

/-! Rows under READ COMMITTED with row locks. A row has one committed version and at most one
transaction that holds it, with that transaction's working copy; so no two transactions ever
hold one row, by construction. Everyone but the holder sees the committed version. -/
namespace Overbook.ReadCommitted

open Overbook.Async

/-- A row: its committed version, and the transaction that has locked it, if any. -/
structure Cell (V : Type) where
  committed : V
  holder : Option (Tid × V) := none
  deriving DecidableEq

namespace Cell

variable {V : Type}

def heldBy (t : Tid) (c : Cell V) : Bool :=
  match c.holder with
  | some h => h.1 == t
  | none => false

def free (t : Tid) (c : Cell V) : Bool :=
  match c.holder with
  | some h => h.1 == t
  | none => true

/- What a statement of `t` sees. -/
def view (t : Tid) (c : Cell V) : V :=
  match c.holder with
  | some h => if h.1 = t then h.2 else c.committed
  | none => c.committed

def write (t : Tid) (v : V) (c : Cell V) : Cell V := ⟨c.committed, some (t, v)⟩

def lock (t : Tid) (c : Cell V) : Cell V := c.write t (c.view t)

def commit (t : Tid) (c : Cell V) : Cell V :=
  if c.heldBy t then ⟨c.view t, none⟩ else c

def rollback (t : Tid) (c : Cell V) : Cell V :=
  if c.heldBy t then ⟨c.committed, none⟩ else c

@[simp] theorem write_committed (t : Tid) (v : V) (c : Cell V) :
    (c.write t v).committed = c.committed := rfl
@[simp] theorem write_view (t : Tid) (v : V) (c : Cell V) : (c.write t v).view t = v := by
  simp [write, view]
@[simp] theorem lock_committed (t : Tid) (c : Cell V) : (c.lock t).committed = c.committed := rfl
@[simp] theorem lock_view (t : Tid) (c : Cell V) : (c.lock t).view t = c.view t := by simp [lock]
@[simp] theorem write_heldBy (t t' : Tid) (v : V) (c : Cell V) :
    (c.write t v).heldBy t' = (t == t') := rfl
@[simp] theorem lock_heldBy (t t' : Tid) (c : Cell V) : (c.lock t).heldBy t' = (t == t') := rfl
@[simp] theorem rollback_committed (t : Tid) (c : Cell V) :
    (c.rollback t).committed = c.committed := by
  unfold rollback
  split <;> rfl

theorem heldBy_iff {t : Tid} {c : Cell V} :
    c.heldBy t = true ↔ c.holder = some (t, c.view t) := by
  cases c with
  | mk v holder =>
    cases holder with
    | none => simp [heldBy]
    | some h =>
      obtain ⟨t', w⟩ := h
      simp only [heldBy, view, beq_iff_eq, Option.some.injEq, Prod.mk.injEq]
      constructor
      · rintro rfl; simp
      · exact fun h => h.1

theorem heldBy_unique {t t' : Tid} {c : Cell V} (h : c.heldBy t = true)
    (h' : c.heldBy t' = true) : t = t' := by
  have eq := (heldBy_iff.mp h).symm.trans (heldBy_iff.mp h')
  exact congrArg Prod.fst (Option.some.inj eq)

theorem view_of_not_heldBy {t : Tid} {c : Cell V} (h : c.heldBy t = false) :
    c.view t = c.committed := by
  cases c with
  | mk v holder =>
    cases holder with
    | none => rfl
    | some p => simp_all [heldBy, view]

theorem not_heldBy_of_free {t t' : Tid} {c : Cell V} (ne : t' ≠ t) (h : c.free t = true) :
    c.heldBy t' = false := by
  cases c with
  | mk v holder =>
    cases holder with
    | none => rfl
    | some p =>
      simp only [free, beq_iff_eq] at h
      simp [heldBy, h, ne.symm]

/- Of a row that another transaction holds, `t` sees the committed version. -/
theorem view_of_not_free {t : Tid} {c : Cell V} (h : c.free t = false) : c.view t = c.committed := by
  refine view_of_not_heldBy ?_
  cases c with
  | mk v holder =>
    cases holder with
    | none => rfl
    | some p => exact h

theorem free_of_heldBy {t : Tid} {c : Cell V} (h : c.heldBy t = true) : c.free t = true := by
  simp [free, heldBy_iff.mp h]

@[simp] theorem commit_heldBy_self (t : Tid) (c : Cell V) : (c.commit t).heldBy t = false := by
  unfold commit
  split
  · rfl
  · rename_i h; simpa using h

@[simp] theorem rollback_heldBy_self (t : Tid) (c : Cell V) :
    (c.rollback t).heldBy t = false := by
  unfold rollback
  split
  · rfl
  · rename_i h; simpa using h

theorem commit_other {t t' : Tid} {c : Cell V} (ne : t' ≠ t) (h : c.heldBy t' = true) :
    c.commit t = c := by
  have free : c.heldBy t = false := by
    by_contra held
    exact ne (heldBy_unique h (by simpa using held))
  simp [commit, free]

theorem rollback_other {t t' : Tid} {c : Cell V} (ne : t' ≠ t) (h : c.heldBy t' = true) :
    c.rollback t = c := by
  have free : c.heldBy t = false := by
    by_contra held
    exact ne (heldBy_unique h (by simpa using held))
  simp [rollback, free]

theorem commit_heldBy_other {t t' : Tid} {c : Cell V} (ne : t' ≠ t) :
    (c.commit t).heldBy t' = c.heldBy t' := by
  unfold commit
  split
  · rename_i h
    have away : c.heldBy t' = false := by
      by_contra held
      exact ne (heldBy_unique (by simpa using held) h)
    rw [away]
    rfl
  · rfl

theorem rollback_heldBy_other {t t' : Tid} {c : Cell V} (ne : t' ≠ t) :
    (c.rollback t).heldBy t' = c.heldBy t' := by
  unfold rollback
  split
  · rename_i h
    have away : c.heldBy t' = false := by
      by_contra held
      exact ne (heldBy_unique (by simpa using held) h)
    rw [away]
    rfl
  · rfl

theorem commit_committed (t : Tid) (c : Cell V) : (c.commit t).committed = c.view t := by
  unfold commit
  split
  · rfl
  · rename_i h; exact (view_of_not_heldBy (by simpa using h)).symm

end Cell

/- A table is the list of its committed rows, in the order in which they were committed. -/
abbrev Rows (V : Type) := List (Cell V)

namespace Rows

variable {V : Type}

def committed (rows : Rows V) : List V := rows.map (·.committed)

def commit (t : Tid) (rows : Rows V) : Rows V := rows.map (·.commit t)

def rollback (t : Tid) (rows : Rows V) : Rows V := rows.map (·.rollback t)

def held (t : Tid) (rows : Rows V) : Rows V := rows.filter (·.heldBy t)

/-- Rows that a statement locks and rewrites; the others stay. -/
def write (t : Tid) (p : Cell V → Bool) (f : V → V) (rows : Rows V) : Rows V :=
  rows.map fun c => if p c then c.write t (f (c.view t)) else c

/-- A statement of `t` may touch the rows `p` only when nobody else holds one of them. -/
def freeFor (t : Tid) (p : Cell V → Bool) (rows : Rows V) : Bool :=
  rows.all fun c => !p c || c.free t

def insert (vs : List V) (rows : Rows V) : Rows V := rows ++ vs.map fun v => ⟨v, none⟩

theorem mem_held {t : Tid} {c : Cell V} {rows : Rows V} :
    c ∈ rows.held t ↔ c ∈ rows ∧ c.heldBy t = true := List.mem_filter

/-- Steps on rows that leave the rows of `t` alone and lock none for it. -/
theorem held_map {t : Tid} {f : Cell V → Cell V} {rows : Rows V}
    (own : ∀ c ∈ rows, c.heldBy t = true → f c = c)
    (other : ∀ c ∈ rows, c.heldBy t = false → (f c).heldBy t = false) :
    held t (rows.map f) = held t rows := by
  induction rows with
  | nil => rfl
  | cons c rows ih =>
    have tail := ih (fun d hd => own d (List.mem_cons_of_mem c hd))
      (fun d hd => other d (List.mem_cons_of_mem c hd))
    unfold held at tail ⊢
    cases h : c.heldBy t with
    | true =>
      have hc := own c (List.mem_cons_self ..) h
      simp only [List.map_cons, List.filter_cons, hc, h, tail]
    | false =>
      have hc := other c (List.mem_cons_self ..) h
      simp only [List.map_cons, List.filter_cons, hc, h, tail, Bool.false_eq_true, if_false]

theorem held_commit {t t' : Tid} (ne : t' ≠ t) (rows : Rows V) :
    held t' (rows.commit t) = held t' rows :=
  held_map (fun _ _ h => Cell.commit_other ne h)
    fun _ _ h => (Cell.commit_heldBy_other ne).trans h

theorem held_rollback {t t' : Tid} (ne : t' ≠ t) (rows : Rows V) :
    held t' (rows.rollback t) = held t' rows :=
  held_map (fun _ _ h => Cell.rollback_other ne h)
    fun _ _ h => (Cell.rollback_heldBy_other ne).trans h

theorem held_insert (t : Tid) (vs : List V) (rows : Rows V) :
    held t (rows.insert vs) = held t rows := by
  have none : held t (vs.map fun v => (⟨v, none⟩ : Cell V)) = [] := by
    rw [held, List.filter_eq_nil_iff]
    rintro c hc
    obtain ⟨v, _, rfl⟩ := List.mem_map.mp hc
    exact Bool.false_ne_true
  rw [insert, held, List.filter_append]
  exact (congrArg _ none).trans (List.append_nil _)

theorem free_of_freeFor {t : Tid} {p : Cell V → Bool} {rows : Rows V}
    (free : rows.freeFor t p = true) {c : Cell V} (hc : c ∈ rows) (hp : p c = true) :
    c.free t = true := by
  have hf := List.all_eq_true.mp free c hc
  rw [hp] at hf
  simpa using hf

theorem held_write {t t' : Tid} {p : Cell V → Bool} {f : V → V} {rows : Rows V} (ne : t' ≠ t)
    (free : rows.freeFor t p = true) : held t' (rows.write t p f) = held t' rows := by
  have away : ∀ c ∈ rows, p c = true → c.heldBy t' = false :=
    fun c hc hp => Cell.not_heldBy_of_free ne (free_of_freeFor free hc hp)
  apply held_map
  · intro c hc held
    split
    · rename_i hp; rw [away c hc hp] at held; cases held
    · rfl
  · intro c hc held
    split
    · simpa using ne.symm
    · exact held

@[simp] theorem committed_rollback (t : Tid) (rows : Rows V) :
    committed (rows.rollback t) = committed rows := by
  simp [committed, rollback, List.map_map, Function.comp_def]

@[simp] theorem committed_write (t : Tid) (p : Cell V → Bool) (f : V → V) (rows : Rows V) :
    committed (rows.write t p f) = committed rows := by
  simp only [committed, write, List.map_map]
  apply List.map_congr_left
  intro c _
  simp only [Function.comp_apply]
  split <;> rfl

theorem committed_commit (t : Tid) (rows : Rows V) :
    committed (rows.commit t) = rows.map (·.view t) := by
  simp [committed, commit, List.map_map, Function.comp_def, Cell.commit_committed]

@[simp] theorem committed_insert (vs : List V) (rows : Rows V) :
    committed (rows.insert vs) = committed rows ++ vs := by
  simp [committed, insert, List.map_map, Function.comp_def]

/-- `P` holds of the committed version of every row and of every working copy. -/
def Throughout (P : V → Prop) (rows : Rows V) : Prop :=
  ∀ c ∈ rows, P c.committed ∧ ∀ t, P (c.view t)

theorem view_or (t t' : Tid) (f : V → V) (c : Cell V) :
    (c.write t (f (c.view t))).view t' = f (c.view t) ∨
      (c.write t (f (c.view t))).view t' = c.committed := by
  by_cases same : t = t' <;> simp [Cell.view, Cell.write, same]

theorem Throughout.write_of {P : V → Prop} {rows : Rows V} (h : rows.Throughout P) (t : Tid)
    (p : Cell V → Bool) {f : V → V}
    (keeps : ∀ c ∈ rows, p c = true → ∀ t, P (c.view t) → P (f (c.view t))) :
    (rows.write t p f).Throughout P := by
  intro c hc
  obtain ⟨d, hd, rfl⟩ := List.mem_map.mp hc
  obtain ⟨committed, views⟩ := h d hd
  split
  · rename_i written
    refine ⟨committed, fun t' => ?_⟩
    rcases view_or t t' f d with eq | eq
    · rw [eq]; exact keeps d hd written t (views t)
    · rw [eq]; exact committed
  · exact ⟨committed, views⟩

theorem Throughout.write {P : V → Prop} {rows : Rows V} (h : rows.Throughout P) (t : Tid)
    (p : Cell V → Bool) {f : V → V} (keeps : ∀ v, P v → P (f v)) :
    (rows.write t p f).Throughout P := h.write_of t p fun _ _ _ _ => keeps _

theorem Throughout.commit {P : V → Prop} {rows : Rows V} (h : rows.Throughout P) (t : Tid) :
    Throughout P (rows.commit t) := by
  intro c hc
  obtain ⟨d, hd, rfl⟩ := List.mem_map.mp hc
  unfold Cell.commit
  split
  · exact ⟨(h d hd).2 t, fun _ => (h d hd).2 t⟩
  · exact h d hd

theorem Throughout.rollback {P : V → Prop} {rows : Rows V} (h : rows.Throughout P) (t : Tid) :
    Throughout P (rows.rollback t) := by
  intro c hc
  obtain ⟨d, hd, rfl⟩ := List.mem_map.mp hc
  unfold Cell.rollback
  split
  · exact ⟨(h d hd).1, fun _ => (h d hd).1⟩
  · exact h d hd

theorem Throughout.insert {P : V → Prop} {rows : Rows V} (h : rows.Throughout P) {vs : List V}
    (new : ∀ v ∈ vs, P v) : Throughout P (rows.insert vs) := by
  intro c hc
  rcases List.mem_append.mp hc with hc | hc
  · exact h c hc
  · obtain ⟨v, hv, rfl⟩ := List.mem_map.mp hc
    exact ⟨new v hv, fun _ => new v hv⟩

end Rows

end Overbook.ReadCommitted
