import Overbook.Floating

/-! JavaScript numbers. `add`, `sub` and `mul` are exact; the operators `plus`, `minus` and `times`
round to a double. `NaN` compares false with everything, itself included, and the two zeros, which
nothing here tells apart, are one. -/
namespace Overbook

open Floating

inductive Num where
  | nan
  | ninf
  | fin (q : Rat)
  | inf
  deriving DecidableEq

namespace Num

def ofInt (z : Int) : Num := fin z

def add : Num → Num → Num
  | fin a, fin b => fin (a + b)
  | nan, _ => nan
  | _, nan => nan
  | inf, ninf => nan
  | ninf, inf => nan
  | inf, _ => inf
  | _, inf => inf
  | ninf, _ => ninf
  | _, ninf => ninf

def neg : Num → Num
  | nan => nan
  | ninf => inf
  | fin q => fin (-q)
  | inf => ninf

def sub (a b : Num) : Num := a.add b.neg

def mul : Num → Num → Num
  | fin a, fin b => fin (a * b)
  | nan, _ => nan
  | _, nan => nan
  | fin a, b => if a = 0 then nan else if 0 < a then b else b.neg
  | a, fin b => if b = 0 then nan else if 0 < b then a else a.neg
  | inf, b => b
  | ninf, b => b.neg

/-- The double nearest to a number, as `Number()` reads it from a text. -/
def double : Num → Num
  | fin q =>
    if binary64.overflow ≤ q then inf
    else if q ≤ -binary64.overflow then ninf
    else fin (binary64.round q)
  | a => a

/- The operators `+`, `-` and `*` on doubles. -/
def plus (a b : Num) : Num := (a.add b).double

def minus (a b : Num) : Num := (a.sub b).double

def times (a b : Num) : Num := (a.mul b).double

/- The operator `<=`. -/
def le : Num → Num → Bool
  | nan, _ => false
  | _, nan => false
  | ninf, _ => true
  | _, inf => true
  | fin a, fin b => a ≤ b
  | _, _ => false

/- `Math.min` and `Math.max`: `NaN` wins. -/
def min (a b : Num) : Num :=
  if a = nan ∨ b = nan then nan else if a.le b then a else b

def max (a b : Num) : Num :=
  if a = nan ∨ b = nan then nan else if a.le b then b else a

/- `Math.floor`. -/
def floor : Num → Num
  | fin q => fin q.floor
  | a => a

/-- `2 ** x`, which is infinite from 1024 on. At whole numbers it is exact up to rounding; the others
are left to the engine, here `approx`. -/
def pow2 (approx : Rat → Rat) : Num → Num
  | nan => nan
  | ninf => fin 0
  | fin q =>
    if 1024 ≤ q then inf
    else if q.den = 1 then (fin ((2 : Rat) ^ q.num)).double
    else (fin (approx q)).double
  | inf => inf

/- How many milliseconds a timer takes at least: a delay that is no number from 1 to 2³¹ - 1 counts
as 1. -/
def timeout : Num → Nat
  | fin q => if 1 ≤ q ∧ q ≤ 2147483647 then q.floor.toNat else 1
  | _ => 1

theorem timeout_pos (delay : Num) : 1 ≤ timeout delay := by
  cases delay with
  | fin q =>
    simp only [timeout]
    split
    · next range =>
      have whole : (1 : Int) ≤ q.floor := Rat.le_floor_iff.mpr (by exact_mod_cast range.1)
      omega
    · exact Nat.le_refl 1
  | _ => exact Nat.le_refl 1

@[simp] theorem min_fin (a b : Rat) : (fin a).min (fin b) = fin (if a ≤ b then a else b) := by
  by_cases le : a ≤ b <;> simp [Num.min, Num.le, le]

theorem ofInt_le {a b : Int} : (ofInt a).le (ofInt b) = true ↔ a ≤ b := by
  simp [ofInt, Num.le]

theorem min_ofInt (a b : Int) : (ofInt a).min (ofInt b) = ofInt (Min.min a b) := by
  rw [ofInt, ofInt, min_fin, min_def]
  by_cases le : a ≤ b <;> simp [ofInt, le]

theorem min_of_le {a b : Num} (h : a.le b = true) : a.min b = a := by
  cases a <;> cases b <;> simp_all [Num.min, Num.le]

@[simp] theorem max_fin (a b : Rat) : (fin a).max (fin b) = fin (if a ≤ b then b else a) := by
  by_cases le : a ≤ b <;> simp [Num.max, Num.le, le]

protected theorem le_trans {a b c : Num} (hab : a.le b = true) (hbc : b.le c = true) :
    a.le c = true := by
  cases a <;> cases b <;> cases c <;> simp_all [Num.le]
  exact hab.trans hbc

theorem ninf_le {a : Num} (ne : a ≠ nan) : ninf.le a = true := by
  cases a <;> first | rfl | exact absurd rfl ne

theorem le_inf {a : Num} (ne : a ≠ nan) : a.le inf = true := by
  cases a <;> first | rfl | exact absurd rfl ne

/-! Rounding to a double. -/

theorem double_fin {q : Rat} (lt : |q| < binary64.overflow) :
    (fin q).double = fin (binary64.round q) := by
  obtain ⟨low, high⟩ := abs_lt.mp lt
  simp [double, low.not_ge, high.not_ge]

theorem double_value {q : Rat} (le : |q| ≤ binary64.largest) (value : binary64.Value q) :
    (fin q).double = fin q := by
  rw [double_fin (le.trans_lt Format.largest_lt_overflow), Format.round_of_value value]

theorem double_eq_fin {a : Num} {x : Rat} (h : a.double = fin x) :
    |x| ≤ binary64.largest ∧ binary64.Value x := by
  cases a with
  | fin q =>
    simp only [double] at h
    split at h
    · cases h
    · next low =>
      split at h
      · cases h
      · next high =>
        cases h
        have lt : |q| < binary64.overflow := abs_lt.mpr ⟨not_le.mp high, not_le.mp low⟩
        exact ⟨Format.abs_round_le_largest lt, Format.round_value q⟩
  | _ => cases h

@[simp] theorem double_double (a : Num) : a.double.double = a.double := by
  cases h : a.double with
  | fin x =>
    obtain ⟨le, value⟩ := double_eq_fin h
    exact double_value le value
  | _ => rfl

theorem double_ne_nan {a : Num} (ne : a ≠ nan) : a.double ≠ nan := by
  cases a with
  | fin q =>
    simp only [double]
    split
    · simp
    · split <;> simp
  | _ => exact ne

theorem double_mono {a b : Num} (h : a.le b = true) : a.double.le b.double = true := by
  have number : a ≠ nan ∧ b ≠ nan := by
    constructor
    · rintro rfl
      cases h
    · rintro rfl
      cases a <;> cases h
  cases a with
  | fin q =>
    cases b with
    | fin r =>
      simp only [Num.le, decide_eq_true_eq] at h
      by_cases low : q ≤ -binary64.overflow
      · have small : (fin q).double = ninf := by
          have positive : (0 : Rat) < binary64.overflow := by decide +kernel
          have below : ¬ binary64.overflow ≤ q := by linarith
          simp [double, low, below]
        rw [small]
        exact ninf_le (double_ne_nan number.2)
      · by_cases high : binary64.overflow ≤ r
        · have large : (fin r).double = inf := by simp [double, high]
          rw [large]
          exact le_inf (double_ne_nan number.1)
        · rw [double_fin (abs_lt.mpr ⟨not_le.mp low, by linarith⟩),
            double_fin (abs_lt.mpr ⟨by linarith, not_le.mp high⟩)]
          simpa [Num.le] using Format.round_mono h
    | inf => exact le_inf (double_ne_nan number.1)
    | _ => cases h
  | ninf => exact ninf_le (double_ne_nan number.2)
  | inf =>
    cases b with
    | inf => rfl
    | _ => cases h
  | nan => cases h

/- The whole numbers that a double counts one by one. -/
theorem double_ofInt {n : Int} (bits : |n| ≤ 2 ^ 53) : (ofInt n).double = ofInt n := by
  have small : (2 ^ 53 : Rat) ≤ binary64.largest := by decide +kernel
  have bits' : |(n : Rat)| ≤ 2 ^ 53 := by exact_mod_cast bits
  exact double_value (bits'.trans small) (binary64_int bits)

theorem plus_one {n : Int} (bits : |n + 1| ≤ 2 ^ 53) : (ofInt n).plus (ofInt 1) = ofInt (n + 1) := by
  have sum : (ofInt n).add (ofInt 1) = ofInt (n + 1) := by simp [add, ofInt]
  rw [plus, sum]
  exact double_ofInt bits

theorem plus_one_mono {a b : Num} (h : a.le b = true) :
    (a.plus (ofInt 1)).le (b.plus (ofInt 1)) = true := by
  apply double_mono
  cases a <;> cases b <;> simp_all [Num.le, add, ofInt]

/- A difference is rounded to no other side of zero. -/
theorem minus_le_zero {x y : Rat} (hx : binary64.Grained x) (hy : binary64.Grained y) :
    ((fin x).minus (fin y)).le (ofInt 0) = true ↔ x ≤ y := by
  have difference : (fin x).minus (fin y) = (fin (x - y)).double := by
    simp [minus, sub, neg, add, sub_eq_add_neg]
  have positive : (0 : Rat) < binary64.overflow := by decide +kernel
  rw [difference, double]
  split
  · next high =>
    have lt : y < x := by linarith
    simp [ofInt, Num.le, lt]
  · split
    · next low =>
      have le : x ≤ y := by linarith
      simp [ofInt, Num.le, le]
    · simpa [ofInt, Num.le] using Format.round_sub_nonpos_iff hx hy

/- Whole powers are doubles as long as they are finite. -/
theorem pow2_natCast (approx : Rat → Rat) (n : Nat) :
    pow2 approx (fin n) = if 1024 ≤ n then inf else fin (2 ^ n) := by
  have compare : (1024 : Rat) ≤ n ↔ 1024 ≤ n := by exact_mod_cast Iff.rfl
  simp only [pow2, compare]
  split
  · rfl
  · next below =>
    have large : (2 : Rat) ^ n ≤ binary64.largest := by
      have power : (2 : Rat) ^ n ≤ 2 ^ 1023 := pow_le_pow_right₀ one_le_two (by omega)
      exact power.trans (by decide +kernel)
    have value : binary64.Value ((2 : Rat) ^ n) := by
      have power := Format.value_two_zpow (K := Rat) (F := binary64) (e := n) (by
        have least : binary64.least = -1074 := rfl
        omega)
      rwa [zpow_natCast] at power
    have exact : (fin ((2 : Rat) ^ n)).double = fin (2 ^ n) := by
      refine double_value ?_ value
      rwa [abs_of_nonneg (by positivity)]
    simpa using exact

end Num

end Overbook
