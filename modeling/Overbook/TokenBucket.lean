import Mathlib.Algebra.Order.Field.Basic
import Mathlib.Tactic.Linarith
import Mathlib.Tactic.Ring

/-! Token buckets over an ordered field: a bucket fills continuously up to its capacity, and a
call that asks for no more than the level takes its cost out. -/
namespace Overbook.TokenBucket

variable {K : Type} [Field K] [LinearOrder K]

structure Bucket (K : Type) where
  capacity : K
  rate : K

structure Level (K : Type) where
  tokens : K
  since : K

structure Call (K : Type) where
  now : K
  cost : K

def Bucket.refilled (b : Bucket K) (l : Level K) (now : K) : K :=
  min b.capacity (l.tokens + (now - l.since) * b.rate)

def Bucket.grants (b : Bucket K) (l : Level K) (c : Call K) : Bool := c.cost ≤ b.refilled l c.now

def Bucket.after (b : Bucket K) (l : Level K) (c : Call K) : Level K :=
  ⟨if b.grants l c then b.refilled l c.now - c.cost else b.refilled l c.now, c.now⟩

def Bucket.run (b : Bucket K) (l : Level K) (calls : List (Call K)) : Level K :=
  calls.foldl b.after l

def Bucket.decisions (b : Bucket K) : Level K → List (Call K) → List (Bool × K)
  | _, [] => []
  | l, c :: calls => (b.grants l c, (b.after l c).tokens) :: b.decisions (b.after l c) calls

def Bucket.share (b : Bucket K) (l : Level K) (x y : K) (c : Call K) : K :=
  if b.grants l c ∧ x ≤ c.now ∧ c.now ≤ y then c.cost else 0

def Bucket.spent (b : Bucket K) (x y : K) : Level K → List (Call K) → K
  | _, [] => 0
  | l, c :: calls => b.share l x y c + b.spent x y (b.after l c) calls

/-- The calls come in the order of their times, from `t` on, and none asks for less than nothing. -/
def Forward (t : K) : List (Call K) → Prop
  | [] => True
  | c :: calls => t ≤ c.now ∧ 0 ≤ c.cost ∧ Forward c.now calls

variable {b : Bucket K} {l : Level K} {c : Call K} {calls : List (Call K)} {x y t : K}

theorem run_append (c : Call K) : b.run l (calls ++ [c]) = b.after (b.run l calls) c := by
  simp [Bucket.run]

theorem decisions_append (c : Call K) : b.decisions l (calls ++ [c]) =
    b.decisions l calls ++ [(b.grants (b.run l calls) c, (b.after (b.run l calls) c).tokens)] := by
  induction calls generalizing l with
  | nil => rfl
  | cons d calls ih =>
    have later := ih (l := b.after l d)
    simp only [List.cons_append, Bucket.decisions, later]
    rfl

theorem spent_append (c : Call K) : b.spent x y l (calls ++ [c]) =
    b.spent x y l calls + b.share (b.run l calls) x y c := by
  induction calls generalizing l with
  | nil => simp [Bucket.spent, Bucket.run]
  | cons d calls ih =>
    have later := ih (l := b.after l d)
    simp only [List.cons_append, Bucket.spent, later, Bucket.run, List.foldl_cons, add_assoc]

theorem forward_append (h : Forward t calls) (base : t ≤ c.now) (cost : 0 ≤ c.cost)
    (last : ∀ d ∈ calls, d.now ≤ c.now) : Forward t (calls ++ [c]) := by
  induction calls generalizing t with
  | nil => exact ⟨base, cost, trivial⟩
  | cons d calls ih =>
    obtain ⟨first, own, rest⟩ := h
    have before := last d List.mem_cons_self
    exact ⟨first, own, ih rest before fun e he => last e (List.mem_cons_of_mem d he)⟩

theorem forward_run (h : Forward t calls) (base : t = l.since) :
    (∀ d ∈ calls, d.now ≤ (b.run l calls).since) ∧ t ≤ (b.run l calls).since := by
  induction calls generalizing t l with
  | nil => exact ⟨fun d hd => (nomatch hd), base.le⟩
  | cons c calls ih =>
    obtain ⟨first, _, rest⟩ := h
    obtain ⟨all, last⟩ := ih (l := b.after l c) rest rfl
    constructor
    · intro d hd
      rcases List.mem_cons.mp hd with rfl | hd
      · exact last
      · exact all d hd
    · exact first.trans last

theorem refilled_le : b.refilled l t ≤ b.capacity := min_le_left ..

theorem refilled_le_inflow : b.refilled l t ≤ l.tokens + (t - l.since) * b.rate := min_le_right ..

theorem share_outside (h : c.now < x ∨ y < c.now) : b.share l x y c = 0 := by
  unfold Bucket.share
  rw [if_neg]
  rintro ⟨_, lower, upper⟩
  rcases h with early | late
  · exact absurd lower (not_le.mpr early)
  · exact absurd upper (not_le.mpr late)

theorem spent_after (h : Forward t calls) (late : y < t) : b.spent x y l calls = 0 := by
  induction calls generalizing t l with
  | nil => rfl
  | cons c calls ih =>
    obtain ⟨first, _, rest⟩ := h
    have beyond : y < c.now := lt_of_lt_of_le late first
    simp only [Bucket.spent, share_outside (.inr beyond), ih rest beyond, add_zero]

/-- A level that the bucket can have. -/
structure Level.Valid (b : Bucket K) (l : Level K) : Prop where
  nonneg : 0 ≤ l.tokens
  le : l.tokens ≤ b.capacity

variable [IsStrictOrderedRing K]

theorem refilled_nonneg (valid : l.Valid b) (rate : 0 ≤ b.rate) (later : l.since ≤ t) :
    0 ≤ b.refilled l t := by
  have inflow : 0 ≤ (t - l.since) * b.rate := mul_nonneg (sub_nonneg.mpr later) rate
  have full : 0 ≤ b.capacity := valid.nonneg.trans valid.le
  exact le_min full (add_nonneg valid.nonneg inflow)

theorem refilled_full (valid : l.Valid b) (time : b.capacity ≤ (t - l.since) * b.rate) :
    b.refilled l t = b.capacity := by
  have nonneg := valid.nonneg
  exact min_eq_left (by linarith)

/-- Every call leaves the bucket with a level that it can have. -/
theorem after_valid (valid : l.Valid b) (rate : 0 ≤ b.rate) (later : l.since ≤ c.now)
    (cost : 0 ≤ c.cost) : (b.after l c).Valid b := by
  have nonneg := refilled_nonneg valid rate later
  have le := refilled_le (b := b) (l := l) (t := c.now)
  unfold Bucket.after
  cases granted : b.grants l c with
  | true =>
    have enough : c.cost ≤ b.refilled l c.now := by simpa [Bucket.grants] using granted
    constructor <;> simp only [if_true] <;> linarith
  | false => exact ⟨nonneg, le⟩

theorem run_valid (valid : l.Valid b) (rate : 0 ≤ b.rate) (h : Forward l.since calls) :
    (b.run l calls).Valid b := by
  induction calls generalizing l with
  | nil => exact valid
  | cons c calls ih =>
    obtain ⟨first, cost, rest⟩ := h
    exact ih (after_valid valid rate first cost) rest

theorem share_add_after (cost : 0 ≤ c.cost) :
    b.share l x y c + (b.after l c).tokens ≤ b.refilled l c.now := by
  unfold Bucket.share Bucket.after
  cases b.grants l c with
  | true => simp only [if_true, true_and]; split <;> linarith
  | false => simp

theorem spent_within (valid : l.Valid b) (rate : 0 ≤ b.rate) (h : Forward l.since calls)
    (before : l.since ≤ y) : b.spent x y l calls ≤ l.tokens + (y - l.since) * b.rate := by
  induction calls generalizing l with
  | nil =>
    have inflow : 0 ≤ (y - l.since) * b.rate := mul_nonneg (sub_nonneg.mpr before) rate
    exact add_nonneg valid.nonneg inflow
  | cons c calls ih =>
    obtain ⟨first, cost, rest⟩ := h
    rcases le_or_gt c.now y with within | beyond
    · have later := ih (after_valid valid rate first cost) rest within
      have taken := share_add_after (b := b) (l := l) (x := x) (y := y) cost
      have level := refilled_le_inflow (b := b) (l := l) (t := c.now)
      have since : (b.after l c).since = c.now := rfl
      have flow : (y - l.since) * b.rate =
          (c.now - l.since) * b.rate + (y - c.now) * b.rate := by ring
      rw [since] at later
      simp only [Bucket.spent]
      linarith
    · have none : b.spent x y l (c :: calls) = 0 :=
        spent_after (t := c.now) ⟨le_rfl, cost, rest⟩ beyond
      have inflow : 0 ≤ (y - l.since) * b.rate := mul_nonneg (sub_nonneg.mpr before) rate
      rw [none]
      exact add_nonneg valid.nonneg inflow

/-- In any window no more is granted than one full bucket and what flows in meanwhile. -/
theorem spent_le (valid : l.Valid b) (rate : 0 ≤ b.rate) (h : Forward l.since calls)
    (window : x ≤ y) : b.spent x y l calls ≤ b.capacity + (y - x) * b.rate := by
  have full : 0 ≤ b.capacity := valid.nonneg.trans valid.le
  have inflow : 0 ≤ (y - x) * b.rate := mul_nonneg (sub_nonneg.mpr window) rate
  induction calls generalizing l with
  | nil => exact add_nonneg full inflow
  | cons c calls ih =>
    obtain ⟨first, cost, rest⟩ := h
    have next := after_valid valid rate first cost
    rcases lt_or_ge c.now x with early | inside
    · have later := ih next rest
      simp only [Bucket.spent, share_outside (.inl early), zero_add]
      exact later
    · rcases le_or_gt c.now y with within | beyond
      · -- the window starts before the first call that counts, whose bucket is at most full
        have later := spent_within (x := x) next rate rest within
        have taken := share_add_after (b := b) (l := l) (x := x) (y := y) cost
        have level := refilled_le (b := b) (l := l) (t := c.now)
        have since : (b.after l c).since = c.now := rfl
        have shorter : (y - c.now) * b.rate ≤ (y - x) * b.rate :=
          mul_le_mul_of_nonneg_right (by linarith) rate
        rw [since] at later
        simp only [Bucket.spent]
        linarith
      · have none : b.spent x y l (c :: calls) = 0 :=
          spent_after (t := c.now) ⟨le_rfl, cost, rest⟩ beyond
        rw [none]
        exact add_nonneg full inflow

/-! Denied calls. A call that is denied only reads the bucket. -/

theorem refilled_refilled (rate : 0 ≤ b.rate) {u : K} (later : t ≤ u) :
    b.refilled ⟨b.refilled l t, t⟩ u = b.refilled l u := by
  have inflow : 0 ≤ (u - t) * b.rate := mul_nonneg (sub_nonneg.mpr later) rate
  have flow : (u - l.since) * b.rate = (t - l.since) * b.rate + (u - t) * b.rate := by ring
  unfold Bucket.refilled
  rcases le_total b.capacity (l.tokens + (t - l.since) * b.rate) with full | short
  · rw [min_eq_left full, min_eq_left (by linarith), min_eq_left (by linarith)]
  · rw [min_eq_right short]
    congr 1
    linarith

/-- From `t` on the two levels are one to every call. -/
def Alike (b : Bucket K) (t : K) (l l' : Level K) : Prop :=
  ∀ u, t ≤ u → b.refilled l u = b.refilled l' u

omit [IsStrictOrderedRing K] in
theorem Alike.after {l' : Level K} (h : Alike b t l l') (later : t ≤ c.now) :
    b.grants l c = b.grants l' c ∧ b.after l c = b.after l' c := by
  have same := h c.now later
  have decided : b.grants l c = b.grants l' c := by simp only [Bucket.grants, same]
  exact ⟨decided, by simp only [Bucket.after, decided, same]⟩

theorem Alike.denied {l' : Level K} (h : Alike b t l l') (rate : 0 ≤ b.rate) (later : t ≤ c.now)
    (denied : b.grants l c = false) : Alike b c.now (b.after l c) l' := by
  intro u hu
  have read : b.after l c = ⟨b.refilled l c.now, c.now⟩ := by simp [Bucket.after, denied]
  rw [read, refilled_refilled rate hu, h u (later.trans hu)]

/-- The second list is the first one without some of what satisfies `p`. -/
inductive Without {α : Type} (p : α → Prop) : List α → List α → Prop where
  | nil : Without p [] []
  | keep {x : α} {xs ys : List α} : Without p xs ys → Without p (x :: xs) (x :: ys)
  | drop {x : α} {xs ys : List α} : p x → Without p xs ys → Without p (x :: xs) ys

/-- Whichever denied calls are left out, the others get the answers that they got. `reports` is how
an answer shows in what was recorded of a call. -/
theorem decisions_without {α δ : Type} {call : α → Call K} {decision : α → δ}
    {reports : Bool × K → δ} {denied : α → Prop} {xs kept : List α} (without : Without denied xs kept)
    (rate : 0 ≤ b.rate)
    (shows : ∀ x d, denied x → decision x = reports d → d.1 = false)
    {l' : Level K} (alike : Alike b t l l') (forward : Forward t (xs.map call))
    (decided : xs.map decision = (b.decisions l (xs.map call)).map reports) :
    kept.map decision = (b.decisions l' (kept.map call)).map reports := by
  induction without generalizing t l l' with
  | nil => rfl
  | @keep x xs ys _ ih =>
    obtain ⟨later, _, rest⟩ := forward
    obtain ⟨head, tail⟩ := List.cons.inj decided
    obtain ⟨grants, after⟩ := alike.after later
    have still : Alike b (call x).now (b.after l (call x)) (b.after l' (call x)) := fun u _ => by rw [after]
    have others := ih still rest tail
    simp only [List.map_cons, Bucket.decisions, others, ← grants, ← after, head]
  | @drop x xs ys out _ ih =>
    obtain ⟨later, _, rest⟩ := forward
    obtain ⟨head, tail⟩ := List.cons.inj decided
    exact ih (alike.denied rate later (shows x _ out head)) rest tail

/- When a call that has been denied can be granted: not before what it lacks has flowed in. -/
theorem grants_after_denied (rate : 0 < b.rate) (cost : c.cost ≤ b.capacity)
    (denied : b.grants l c = false) (u : K) :
    b.grants (b.after l c) ⟨u, c.cost⟩ = true ↔
      (c.cost - b.refilled l c.now) / b.rate ≤ u - c.now := by
  have read : b.after l c = ⟨b.refilled l c.now, c.now⟩ := by simp [Bucket.after, denied]
  have level : b.refilled ⟨b.refilled l c.now, c.now⟩ u =
      min b.capacity (b.refilled l c.now + (u - c.now) * b.rate) := rfl
  rw [read, Bucket.grants, decide_eq_true_eq, level, le_min_iff, div_le_iff₀ rate]
  constructor
  · intro h
    linarith [h.2]
  · intro h
    exact ⟨cost, by linarith⟩

end Overbook.TokenBucket
