import Overbook.RateLimit.Reference
import Mathlib.Algebra.Order.BigOperators.Group.List
import Mathlib.Data.List.Induction

/-! Replicas with clocks of their own. The script stores the time of the caller even where that is
behind the stored one, and the next caller whose clock is ahead has the time between them
refilled once more. -/
namespace Overbook.RateLimit

open Overbook.Num TokenBucket

/-- Every caller's clock is within `delta` milliseconds of the true time. -/
def Skewed (capacity delta : Rat) (s : BucketKey) : Act → Prop
  | .tick d => 0 ≤ d
  | .call now cost => s.clock - delta ≤ now ∧ now ≤ s.clock + delta ∧ 0 < cost ∧ cost ≤ capacity
  | .removed => True

instance (capacity delta : Rat) (s : BucketKey) : ∀ a, Decidable (Skewed capacity delta s a)
  | .tick _ => inferInstanceAs (Decidable (_ ≤ _))
  | .call _ _ => inferInstanceAs (Decidable (_ ∧ _ ∧ _ ∧ _))
  | .removed => inferInstanceAs (Decidable True)

/-- No call steps back behind the stored time, and a key that is missing has had the time to fill
since every earlier call. -/
def Ordered (capacity refill : Rat) (s : BucketKey) : Act → Prop
  | .call now _ =>
    (∀ hash ∈ s.hash, hash.ts.le (fin now)) ∧
    (s.hash = none → ∀ e ∈ s.history, capacity ≤ (now - e.now) * (refill / 1000))
  | _ => True

instance (capacity refill : Rat) (s : BucketKey) : ∀ a, Decidable (Ordered capacity refill s a)
  | .call _ _ => inferInstanceAs (Decidable ((∀ _ ∈ s.hash, _) ∧ (_ → ∀ _ ∈ s.history, _)))
  | .tick _ => inferInstanceAs (Decidable True)
  | .removed => inferInstanceAs (Decidable True)

/-- The stamps of a history stay within `delta` of the true time, from `start` on. -/
structure NearTime (capacity refill delta start : Rat) (s : BucketKey) : Prop where
  agrees : Agrees capacity refill (start - delta) s
  started : start ≤ s.clock
  near : ∀ e ∈ s.history, e.clock - delta ≤ e.now ∧ e.now ≤ e.clock + delta
  cost : ∀ e ∈ s.history, 0 ≤ e.cost

variable {capacity refill delta start base : Rat} {s : BucketKey}

theorem levelIn_since (capacity refill base : Rat) (s : BucketKey) :
    levelIn capacity refill base s = full capacity base ∨
      ∃ e ∈ s.history, (levelIn capacity refill base s).since = e.now := by
  unfold levelIn
  cases s.history using List.reverseRecOn with
  | nil => exact .inl rfl
  | append_singleton history e =>
    have last : e ∈ history ++ [e] := by simp
    refine .inr ⟨e, last, ?_⟩
    rw [List.map_append, List.map_cons, List.map_nil, run_append]
    rfl

theorem ordered_inTime (pos : 0 < refill) (positive : 0 < capacity)
    (h : NearTime capacity refill delta start s) {now cost : Rat}
    (near : s.clock - delta ≤ now) (ordered : Ordered capacity refill s (.call now cost)) :
    InTime capacity refill (start - delta) s now := by
  obtain ⟨stored, gone⟩ := ordered
  have rate : 0 < refill / 1000 := by positivity
  have begun : start - delta ≤ now := le_trans (sub_le_sub_right h.started delta) near
  have valid := levelIn_valid pos positive.le h.agrees
  rcases levelIn_since capacity refill (start - delta) s
    with fresh | ⟨e, he, since⟩
  · constructor
    · rw [fresh]
      exact begun
    · intro _
      have inflow : 0 ≤ (now - (start - delta)) * (refill / 1000) :=
        mul_nonneg (sub_nonneg.mpr begun) rate.le
      rw [fresh]
      exact min_eq_left (le_add_of_nonneg_right inflow)
  · constructor
    · cases key : s.hash with
      | some hash =>
        have before := stored hash key
        rw [(h.agrees.stored hash key).2] at before
        simpa [Num.le, levelIn] using before
      | none =>
        have filled := gone key e he
        have elapsed : 0 < (now - e.now) * (refill / 1000) := positive.trans_le filled
        have later : 0 < now - e.now := (mul_pos_iff_of_pos_right rate).mp elapsed
        rw [since]
        linarith
    · intro key
      have filled := gone key e he
      rw [← since] at filled
      exact refilled_full valid filled

theorem nearTime_step (pos : 0 < refill) (positive : 0 < capacity) {a : Act}
    (skewed : Skewed capacity delta s a) (ordered : Ordered capacity refill s a)
    (h : NearTime capacity refill delta start s) :
    NearTime capacity refill delta start (s.step unbounded capacity refill a) := by
  cases a with
  | tick d =>
    have later : s.clock ≤ s.clock + d := le_add_of_nonneg_right skewed
    exact ⟨⟨h.agrees.forward, h.agrees.decisions, h.agrees.stored, h.agrees.spent⟩,
      h.started.trans later, h.near, h.cost⟩
  | call now cost =>
    obtain ⟨lower, upper, someCost, _⟩ := skewed
    have inTime := ordered_inTime pos positive h lower ordered
    have agrees := call_agrees pos positive.le (takes_unbounded _) h.agrees someCost.le inTime
    constructor
    · exact agrees
    · exact h.started
    · intro e he
      rcases List.mem_append.mp he with old | new
      · exact h.near e old
      · rw [List.mem_singleton.mp new]
        exact ⟨lower, upper⟩
    · intro e he
      rcases List.mem_append.mp he with old | new
      · exact h.cost e old
      · rw [List.mem_singleton.mp new]
        exact someCost.le
  | removed =>
    exact ⟨⟨h.agrees.forward, h.agrees.decisions, nofun, h.agrees.spent⟩, h.started, h.near, h.cost⟩

theorem nearTime
    (pos : 0 < refill) (positive : 0 < capacity)
    (run : Reach unbounded capacity refill
      (fun s a => Skewed capacity delta s a ∧ Ordered capacity refill s a) (unused start) s) :
    NearTime capacity refill delta start s := by
  induction run with
  | refl => exact ⟨unused_agrees (start - delta) start, le_rfl, nofun, nofun⟩
  | tail _ step ih =>
    obtain ⟨a, ⟨skewed, ordered⟩, rfl⟩ := step
    exact nearTime_step pos positive skewed ordered ih

/- What is granted in a window carries stamps that are at most `delta` outside. -/
theorem granted_le_spent (h : NearTime capacity refill delta start s) (x y : Rat) :
    granted x y s.history ≤ (reference capacity refill).spent (x - delta) (y + delta)
      (full capacity (start - delta)) (s.history.map (·.call)) := by
  rw [h.agrees.spent, granted]
  apply List.sum_le_sum
  intro e he
  obtain ⟨lower, upper⟩ := h.near e he
  have cost := h.cost e he
  by_cases counts : e.allowed ∧ x ≤ e.clock ∧ e.clock ≤ y
  · obtain ⟨allowed, first, last⟩ := counts
    have wider : x - delta ≤ e.now ∧ e.now ≤ y + delta := by constructor <;> linarith
    simp [allowed, first, last, wider]
  · rw [if_neg counts]
    split
    · exact cost
    · exact le_rfl

/-- As long as no call steps back, the limit holds across replicas: a window of `T` seconds sees
no more granted than a full bucket and the refill of the window, `delta` longer at both ends. -/
theorem shared_limit (capacity refill delta start : Rat) (some_capacity : 0 < capacity)
    (some_refill : 0 < refill) (nonneg : 0 ≤ delta) (s : BucketKey)
    (run : Reach unbounded capacity refill
      (fun s a => Skewed capacity delta s a ∧ Ordered capacity refill s a) (unused start) s)
    (x T : Rat) (window : 0 ≤ T) :
    granted x (x + 1000 * T) s.history ≤ capacity + refill * (T + 2 * delta / 1000) := by
  have h := nearTime some_refill some_capacity run
  have rate : 0 ≤ (reference capacity refill).rate := by
    unfold reference
    positivity
  have bound := spent_le (x := x - delta) (y := x + 1000 * T + delta)
    (full_valid some_capacity.le) rate h.agrees.forward (by linarith)
  calc granted x (x + 1000 * T) s.history
      ≤ _ := granted_le_spent h x (x + 1000 * T)
    _ ≤ _ := bound
    _ = capacity + refill * (T + 2 * delta / 1000) := by simp only [reference]; ring

/- Two replicas, half a second behind and half a second ahead. -/
def inOrder : List Act := [.call 500 1, .tick 1000, .call 2500 1, .tick 1000, .call 2500 1]

theorem shared_limit_in_order : ∃ s : BucketKey,
    s.history.map (·.allowed) = [true, true, false] ∧
    granted 1000 (1000 + 1000 * 2) s.history ≤ 1 + 1 * (2 + 2 * 500 / 1000) := by
  have run : Follows unbounded 1 1 (fun s a => Skewed 1 500 s a ∧ Ordered 1 1 s a) (unused 1000) inOrder := by
    decide +kernel
  refine ⟨inOrder.foldl (BucketKey.step unbounded 1 1) (unused 1000), by decide +kernel, ?_⟩
  exact shared_limit 1 1 500 1000 (by decide) (by decide) (by decide) _ run.reach 1000 2 (by decide)

/- The same two replicas in turn, all at one time. -/
def inTurn : List Act := [.call 1500 1, .call 500 1, .call 1500 1, .call 500 1, .call 1500 1]

/- At once three tokens are granted where two may be; the key is never removed. -/
theorem skewed_clocks_refill_twice : ∃ s : BucketKey,
    Reach unbounded 1 1 (fun s a => Skewed 1 500 s a ∧ a ≠ .removed) (unused 1000) s ∧
    ¬ granted 1000 (1000 + 1000 * 0) s.history ≤ 1 + 1 * (0 + 2 * 500 / 1000) := by
  have run : Follows unbounded 1 1 (fun s a => Skewed 1 500 s a ∧ a ≠ .removed) (unused 1000) inTurn := by
    decide +kernel
  exact ⟨_, run.reach, by decide +kernel⟩

end Overbook.RateLimit
