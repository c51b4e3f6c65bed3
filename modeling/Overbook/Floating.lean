import Mathlib.Algebra.Order.Round
import Mathlib.Data.Int.Log
import Mathlib.Data.Rat.Floor
import Mathlib.Tactic.Linarith
import Mathlib.Tactic.Positivity
import Mathlib.Tactic.Ring

/-! Rounding to a binary floating-point format: to the nearest value, and of two to the one with the
even significand. -/
namespace Overbook.Floating

section Nearest

variable {K : Type} [Field K] [LinearOrder K] [FloorRing K]

def nearest (x : K) : ℤ :=
  if Int.fract x < 1 / 2 then ⌊x⌋
  else if 1 / 2 < Int.fract x then ⌊x⌋ + 1
  else if 2 ∣ ⌊x⌋ then ⌊x⌋
  else ⌊x⌋ + 1

theorem nearest_cases (x : K) :
    (nearest x = ⌊x⌋ ∧ Int.fract x ≤ 1 / 2) ∨ (nearest x = ⌊x⌋ + 1 ∧ 1 / 2 ≤ Int.fract x) := by
  unfold nearest
  split
  · next below => exact .inl ⟨rfl, below.le⟩
  · next notBelow =>
    split
    · next above => exact .inr ⟨rfl, above.le⟩
    · next notAbove =>
      split
      · exact .inl ⟨rfl, not_lt.mp notAbove⟩
      · exact .inr ⟨rfl, not_lt.mp notBelow⟩

variable [IsStrictOrderedRing K]

theorem nearest_near (x : K) : |(nearest x : K) - x| ≤ 1 / 2 := by
  have parts := Int.floor_add_fract x
  have nonneg := Int.fract_nonneg x
  have below := Int.fract_lt_one x
  rw [abs_le]
  rcases nearest_cases x with ⟨same, near⟩ | ⟨same, near⟩
  · rw [same]
    constructor <;> linarith
  · rw [same]
    push_cast
    constructor <;> linarith

@[simp] theorem nearest_int (n : ℤ) : nearest (n : K) = n := by
  simp [nearest]

theorem nearest_le {x : K} {n : ℤ} (lt : x < n + 1 / 2) : nearest x ≤ n := by
  have near := abs_le.mp (nearest_near x)
  have below : (nearest x : K) < n + 1 := by linarith
  exact Int.lt_add_one_iff.mp (by exact_mod_cast below)

theorem nearest_mono {x y : K} (le : x ≤ y) : nearest x ≤ nearest y := by
  have floors : ⌊x⌋ ≤ ⌊y⌋ := Int.floor_mono le
  by_cases same : ⌊x⌋ = ⌊y⌋
  · have parts : Int.fract x ≤ Int.fract y := by
      rw [Int.fract, Int.fract, same]
      exact sub_le_sub_right le _
    unfold nearest
    rw [same]
    split <;> split <;> grind
  · rcases nearest_cases x with ⟨hx, -⟩ | ⟨hx, -⟩ <;>
      rcases nearest_cases y with ⟨hy, -⟩ | ⟨hy, -⟩ <;> omega

theorem nearest_neg (x : K) : nearest (-x) = -nearest x := by
  by_cases whole : Int.fract x = 0
  · obtain ⟨n, rfl⟩ := Int.fract_eq_zero_iff.mp whole
    have negated : -(n : K) = ((-n : ℤ) : K) := by push_cast; rfl
    rw [negated, nearest_int, nearest_int]
  · have floor : ⌊-x⌋ = -⌊x⌋ - 1 := by
      rw [Int.floor_neg, (Int.ceil_eq_floor_add_one_iff_notMem x).mpr]
      · ring
      · rintro ⟨n, rfl⟩
        exact whole (Int.fract_intCast n)
    have rest : Int.fract (-x) = 1 - Int.fract x := Int.fract_neg whole
    unfold nearest
    rw [floor, rest]
    by_cases below : Int.fract x < 1 / 2
    · have above : 1 / 2 < 1 - Int.fract x := by linarith
      rw [if_neg above.not_gt, if_pos above, if_pos below]
      ring
    · by_cases above : 1 / 2 < Int.fract x
      · have below' : 1 - Int.fract x < 1 / 2 := by linarith
        rw [if_pos below', if_neg below, if_pos above]
        ring
      · have low : ¬ 1 - Int.fract x < 1 / 2 := fun lt => above (by linarith)
        have high : ¬ 1 / 2 < 1 - Int.fract x := fun lt => below (by linarith)
        rw [if_neg low, if_neg high, if_neg below, if_neg above]
        split <;> split <;> omega

end Nearest

/-- `digits` significant bits, and spacings from `2 ^ least` to `2 ^ top`. -/
structure Format where
  digits : ℕ
  least : ℤ
  top : ℤ
  positive : 0 < digits
  ordered : least ≤ top

namespace Format

/- The values, with no regard to `top`. A significand may be a power of two. -/
def Value {K : Type} [Field K] (F : Format) (x : K) : Prop :=
  ∃ m e : ℤ, |m| ≤ 2 ^ F.digits ∧ F.least ≤ e ∧ x = m * 2 ^ e

/- The multiples of the finest spacing. -/
def Grained {K : Type} [Field K] (F : Format) (x : K) : Prop := ∃ n : ℤ, x = n * 2 ^ F.least

section Values

variable {F : Format} {K : Type} [Field K] {x : K}

theorem Value.neg (h : F.Value x) : F.Value (-x) := by
  obtain ⟨m, e, bits, fine, rfl⟩ := h
  exact ⟨-m, e, by rwa [abs_neg], fine, by push_cast; ring⟩

theorem value_int {n : ℤ} (least : F.least ≤ 0) (bits : |n| ≤ 2 ^ F.digits) :
    F.Value (n : K) :=
  ⟨n, 0, bits, least, by simp⟩

theorem value_two_zpow {e : ℤ} (fine : F.least ≤ e) : F.Value (2 ^ e : K) := by
  refine ⟨1, e, ?_, fine, by simp⟩
  rw [abs_one]
  exact one_le_pow₀ one_le_two

variable [LinearOrder K] [IsStrictOrderedRing K]

theorem zpow_multiple (m : ℤ) {a e : ℤ} (le : a ≤ e) :
    (m : K) * 2 ^ e = ((m * 2 ^ (e - a).toNat : ℤ) : K) * 2 ^ a := by
  have whole : ((e - a).toNat : ℤ) = e - a := Int.toNat_of_nonneg (sub_nonneg.mpr le)
  push_cast
  rw [mul_assoc, ← zpow_natCast, whole, ← zpow_add₀ two_ne_zero, sub_add_cancel]

theorem Value.grained (h : F.Value x) : F.Grained x := by
  obtain ⟨m, e, -, fine, rfl⟩ := h
  exact ⟨_, zpow_multiple m fine⟩

theorem grained_int (least : F.least ≤ 0) (n : ℤ) : F.Grained (n : K) := by
  have whole := zpow_multiple (K := K) n least
  rw [zpow_zero, mul_one] at whole
  exact ⟨_, whole⟩

end Values

variable {F : Format} {K : Type} [Field K] [LinearOrder K] [FloorRing K] {x y : K}

/- The spacing at `x` is two to this. -/
def exponent (F : Format) (x : K) : ℤ := max (Int.log 2 |x| + 1 - F.digits) F.least

theorem exponent_neg (x : K) : F.exponent (-x) = F.exponent x := by
  rw [exponent, exponent, abs_neg]

def spacing (F : Format) (x : K) : K := 2 ^ F.exponent x

def round (F : Format) (x : K) : K := nearest (x / F.spacing x) * F.spacing x

/- The largest finite number, and what is rounded beyond it. -/
def largest (F : Format) : K := (2 ^ F.digits - 1) * 2 ^ F.top

def overflow (F : Format) : K := (2 ^ F.digits - 1 / 2) * 2 ^ F.top

variable [IsStrictOrderedRing K]

theorem spacing_pos (x : K) : 0 < F.spacing x := zpow_pos two_pos _

theorem round_neg (x : K) : F.round (-x) = -F.round x := by
  rw [round, round, spacing, spacing, exponent_neg, neg_div, nearest_neg]
  push_cast
  ring

@[simp] theorem round_zero : F.round (0 : K) = 0 := by
  have zero : nearest (0 : K) = 0 := by simpa using nearest_int (K := K) 0
  simp [round, zero]

/- Less than half a spacing above a multiple of it, `x` is rounded to that multiple at most. -/
theorem round_le_multiple {n : ℤ} (lt : x < (n + 1 / 2) * F.spacing x) :
    F.round x ≤ n * F.spacing x := by
  have scaled : x / F.spacing x < n + 1 / 2 := (div_lt_iff₀ (spacing_pos x)).mpr lt
  have rounded := nearest_le scaled
  exact mul_le_mul_of_nonneg_right (by exact_mod_cast rounded) (spacing_pos x).le

theorem round_le_multiple_of_le {n : ℤ} (le : x ≤ n * F.spacing x) :
    F.round x ≤ n * F.spacing x := by
  apply round_le_multiple
  linarith [spacing_pos (F := F) x]

theorem log_multiple (coarse : F.least < F.exponent x) :
    (2 : K) ^ Int.log 2 |x| = ((2 ^ (F.digits - 1) : ℤ) : K) * F.spacing x := by
  have positive := F.positive
  have two : (2 : K) ≠ 0 := two_pos.ne'
  have same : Int.log 2 |x| = ((F.digits - 1 : ℕ) : ℤ) + F.exponent x := by
    unfold exponent at coarse ⊢
    omega
  rw [same, zpow_add₀ two, zpow_natCast, spacing]
  push_cast
  rfl

/- A value with a finer spacing than the one at `x` is no further from zero than the power of two
below `x`. -/
theorem abs_le_log {m e : ℤ} (bits : |m| ≤ 2 ^ F.digits) (fine : F.least ≤ e)
    (finer : e < F.exponent x) : |(m : K) * 2 ^ e| ≤ 2 ^ Int.log 2 |x| := by
  have exponents : F.digits + e ≤ Int.log 2 |x| := by
    unfold exponent at finer
    omega
  have bits' : |(m : K)| ≤ 2 ^ F.digits := by exact_mod_cast bits
  have scale : (0 : K) < 2 ^ e := zpow_pos two_pos e
  calc |(m : K) * 2 ^ e| = |(m : K)| * 2 ^ e := by rw [abs_mul, abs_of_pos scale]
    _ ≤ 2 ^ F.digits * 2 ^ e := mul_le_mul_of_nonneg_right bits' scale.le
    _ = 2 ^ (F.digits + e) := by rw [zpow_add₀ two_ne_zero, zpow_natCast]
    _ ≤ 2 ^ Int.log 2 |x| := zpow_le_zpow_right₀ one_le_two exponents

theorem log_le_abs (ne : x ≠ 0) : (2 : K) ^ Int.log 2 |x| ≤ |x| := by
  have below := Int.zpow_log_le_self one_lt_two (abs_pos.mpr ne)
  rwa [Nat.cast_ofNat] at below

/-- A value above `x` is above what `x` is rounded to. -/
theorem round_le_of_value (value : F.Value y) (le : x ≤ y) : F.round x ≤ y := by
  obtain ⟨m, e, bits, fine, rfl⟩ := value
  by_cases multiple : F.exponent x ≤ e
  · rw [zpow_multiple m multiple] at le ⊢
    exact round_le_multiple_of_le le
  · have finer : e < F.exponent x := not_le.mp multiple
    have power := log_multiple (fine.trans_lt finer)
    rcases eq_or_ne x 0 with rfl | ne
    · rwa [round_zero]
    have small := abs_le.mp (abs_le_log bits fine finer)
    have large := log_le_abs ne
    rcases lt_or_gt_of_ne ne with negative | positive
    · have value := abs_of_neg negative
      have below : x ≤ ((-2 ^ (F.digits - 1) : ℤ) : K) * F.spacing x := by
        rw [Int.cast_neg, neg_mul]
        linarith
      have rounded := round_le_multiple_of_le below
      rw [Int.cast_neg, neg_mul] at rounded
      linarith
    · have value := abs_of_pos positive
      have below : x ≤ ((2 ^ (F.digits - 1) : ℤ) : K) * F.spacing x := by linarith
      have rounded := round_le_multiple_of_le below
      linarith

theorem le_round_of_value (value : F.Value y) (le : y ≤ x) : y ≤ F.round x := by
  have negated := round_le_of_value value.neg (neg_le_neg le)
  rw [round_neg] at negated
  exact neg_le_neg_iff.mp negated

theorem round_of_value (value : F.Value x) : F.round x = x :=
  le_antisymm (round_le_of_value value le_rfl) (le_round_of_value value le_rfl)

theorem round_lt_overflow (lt : x < F.overflow) : F.round x ≤ F.largest := by
  unfold overflow at lt
  unfold largest
  have unit : (0 : K) < 2 ^ F.top := zpow_pos two_pos F.top
  have bits : ((2 ^ F.digits - 1 : ℤ) : K) = 2 ^ F.digits - 1 := by push_cast; rfl
  by_cases le : x ≤ (2 ^ F.digits - 1) * 2 ^ F.top
  · refine round_le_of_value ⟨2 ^ F.digits - 1, F.top, ?_, F.ordered, by rw [bits]⟩ le
    have one : (1 : ℤ) ≤ 2 ^ F.digits := one_le_pow₀ one_le_two
    rw [abs_of_nonneg (by omega)]
    omega
  · have half : (2 : K) ^ F.digits = 2 * 2 ^ (F.digits - 1) := by
      rw [← pow_succ', Nat.sub_add_cancel F.positive]
    have one : (1 : K) ≤ 2 ^ (F.digits - 1) := one_le_pow₀ one_le_two
    have above : 2 ^ (F.digits - 1) * 2 ^ F.top ≤ x := by
      have significand : (2 : K) ^ (F.digits - 1) ≤ 2 ^ F.digits - 1 := by linarith
      exact (mul_le_mul_of_nonneg_right significand unit.le).trans (not_le.mp le).le
    have below : x < 2 ^ F.digits * 2 ^ F.top := by linarith
    have positive : 0 < x := (mul_pos (by linarith) unit).trans_le above
    have same : F.exponent x = F.top := by
      have digits := F.positive
      have ordered := F.ordered
      rw [← zpow_natCast, ← zpow_add₀ two_ne_zero] at above below
      have least := (Int.zpow_le_iff_le_log (b := 2) one_lt_two positive).mp
        (by rwa [Nat.cast_ofNat])
      have most := (Int.lt_zpow_iff_log_lt (b := 2) one_lt_two positive).mp
        (by rwa [Nat.cast_ofNat])
      unfold exponent
      rw [abs_of_pos positive]
      omega
    have rounded := round_le_multiple (F := F) (x := x) (n := 2 ^ F.digits - 1)
    rw [spacing, same, bits] at rounded
    apply rounded
    linarith

/-- What is closer to zero than the overflow threshold is rounded to a finite number. -/
theorem abs_round_le_largest (lt : |x| < F.overflow) : |F.round x| ≤ F.largest := by
  obtain ⟨low, high⟩ := abs_lt.mp lt
  have negated := round_lt_overflow (neg_lt.mp low)
  rw [round_neg] at negated
  exact abs_le.mpr ⟨neg_le.mp negated, round_lt_overflow high⟩

theorem largest_lt_overflow : (F.largest : K) < F.overflow := by
  have unit : (0 : K) < 2 ^ F.top := zpow_pos two_pos F.top
  unfold largest overflow
  linarith

theorem lt_two_zpow (x : K) : |x| < 2 ^ F.digits * F.spacing x := by
  have above := Int.lt_zpow_succ_log_self one_lt_two |x|
  have le : Int.log 2 |x| + 1 ≤ F.digits + F.exponent x := by
    unfold exponent
    omega
  rw [Nat.cast_ofNat] at above
  rw [spacing, ← zpow_natCast, ← zpow_add₀ two_ne_zero]
  exact above.trans_le (zpow_le_zpow_right₀ one_le_two le)

theorem round_value (x : K) : F.Value (F.round x) := by
  refine ⟨nearest (x / F.spacing x), F.exponent x, ?_, le_max_right .., rfl⟩
  have bound := lt_two_zpow (F := F) x
  have scaled : |x / F.spacing x| ≤ 2 ^ F.digits := by
    rw [abs_div, abs_of_pos (spacing_pos x), div_le_iff₀ (spacing_pos x)]
    exact bound.le
  obtain ⟨low, high⟩ := abs_le.mp scaled
  have below := nearest_mono low
  have above := nearest_mono high
  have power : nearest (2 ^ F.digits : K) = 2 ^ F.digits := by
    simpa using nearest_int (K := K) (2 ^ F.digits)
  rw [nearest_neg, power] at below
  rw [power] at above
  exact abs_le.mpr ⟨below, above⟩

@[simp] theorem round_round (x : K) : F.round (F.round x) = F.round x :=
  round_of_value (round_value x)

theorem power_between (positive : 0 < x) (le : x ≤ y) (differ : F.exponent x ≠ F.exponent y) :
    ∃ z, F.Value z ∧ x ≤ z ∧ z ≤ y := by
  have positive' := positive.trans_le le
  have logs := Int.log_mono_right (b := 2) positive le
  have grows : Int.log 2 x < Int.log 2 y ∧ F.least ≤ Int.log 2 y := by
    have digits := F.positive
    unfold exponent at differ
    rw [abs_of_pos positive, abs_of_pos positive'] at differ
    omega
  have below := log_le_abs positive'.ne'
  rw [abs_of_pos positive'] at below
  have above := (Int.lt_zpow_iff_log_lt one_lt_two positive).mpr grows.1
  rw [Nat.cast_ofNat] at above
  exact ⟨2 ^ Int.log 2 y, value_two_zpow grows.2, above.le, below⟩

theorem value_between (le : x ≤ y) (differ : F.exponent x ≠ F.exponent y) :
    ∃ z, F.Value z ∧ x ≤ z ∧ z ≤ y := by
  rcases lt_or_ge 0 x with positive | low
  · exact power_between positive le differ
  · rcases lt_or_ge y 0 with negative | high
    · have differ' : F.exponent (-y) ≠ F.exponent (-x) := by
        rw [exponent_neg, exponent_neg]
        exact differ.symm
      obtain ⟨z, value, below, above⟩ :=
        power_between (neg_pos.mpr negative) (neg_le_neg le) differ'
      exact ⟨-z, value.neg, by linarith, by linarith⟩
    · exact ⟨0, ⟨0, F.least, by simp, le_rfl, by simp⟩, low, high⟩

theorem round_mono (le : x ≤ y) : F.round x ≤ F.round y := by
  by_cases same : F.exponent x = F.exponent y
  · have scaled : x / F.spacing x ≤ y / F.spacing x :=
      div_le_div_of_nonneg_right le (spacing_pos x).le
    have spacings : F.spacing y = F.spacing x := by rw [spacing, spacing, same]
    rw [round, round, spacings]
    exact mul_le_mul_of_nonneg_right (by exact_mod_cast nearest_mono scaled) (spacing_pos x).le
  · obtain ⟨z, value, below, above⟩ := value_between le same
    exact (round_le_of_value value below).trans (le_round_of_value value above)

theorem round_pos (grain : 2 ^ F.least ≤ x) : 0 < F.round x :=
  (zpow_pos two_pos F.least).trans_le (le_round_of_value (value_two_zpow le_rfl) grain)

/-- A difference is not rounded down to zero: underflow is gradual. -/
theorem round_sub_nonpos_iff (hx : F.Grained x) (hy : F.Grained y) :
    F.round (x - y) ≤ 0 ↔ x ≤ y := by
  constructor
  · intro rounded
    by_contra above
    obtain ⟨m, rfl⟩ := hx
    obtain ⟨n, rfl⟩ := hy
    have grain : (0 : K) < 2 ^ F.least := zpow_pos two_pos F.least
    have lt : (n : K) < m := lt_of_mul_lt_mul_right (not_le.mp above) grain.le
    have one : (n : K) + 1 ≤ m := by exact_mod_cast lt
    have scaled := mul_le_mul_of_nonneg_right one grain.le
    refine absurd rounded (not_le.mpr (round_pos ?_))
    linarith
  · intro le
    have rounded := round_mono (F := F) (sub_nonpos.mpr le)
    rwa [round_zero] at rounded

end Format

theorem binary64_ordered : (-1074 : ℤ) ≤ 971 := by decide

def binary64 : Format := ⟨53, -1074, 971, Nat.succ_pos 52, binary64_ordered⟩

theorem binary64_int {n : ℤ} (bits : |n| ≤ 2 ^ 53) : binary64.Value (n : ℚ) :=
  Format.value_int (by decide) bits

example : binary64.round (2 ^ 53 + 1 : ℚ) = 2 ^ 53 := by decide +kernel

end Overbook.Floating
