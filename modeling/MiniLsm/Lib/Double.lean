import Mathlib

/-!
# Non-negative floating-point numbers

The numbers that programs get by converting, dividing, multiplying, and adding non-negative numbers
in floating point: not a number, infinity, or a finite non-negative number. Each operation rounds
its exact result, and `Rounding` has the rounding as a parameter, with what every rounding mode
grants: it keeps the order, and it fixes zero and one. The sizes that occur stay far below the
largest finite number, so that rounding to infinity is left out.
-/

/-- A rounding of finite numbers. -/
structure Rounding where
  /-- The rounded number. -/
  round : ℚ → ℚ
  mono : Monotone round
  zero : round 0 = 0
  one : round 1 = 1

/-- No rounding at all. -/
def Rounding.exact : Rounding := ⟨id, monotone_id, rfl, rfl⟩

/-- A non-negative floating-point number. -/
inductive Double where
  | nan
  | inf
  | fin (q : ℚ)
  deriving DecidableEq

namespace Double

variable (r : Rounding)

/-- The conversion of an unsigned number. -/
def ofNat (n : ℕ) : Double := .fin (r.round n)

/-- The sum of two numbers. -/
def add : Double → Double → Double
  | fin a, fin b => fin (r.round (a + b))
  | nan, _ => nan
  | _, nan => nan
  | _, _ => inf

/-- The product of two numbers. -/
def mul : Double → Double → Double
  | fin a, fin b => fin (r.round (a * b))
  | nan, _ => nan
  | _, nan => nan
  | inf, fin b => if b = 0 then nan else inf
  | fin a, inf => if a = 0 then nan else inf
  | inf, inf => inf

/-- The quotient of two numbers. -/
def div : Double → Double → Double
  | fin a, fin b => if b = 0 then (if a = 0 then nan else inf) else fin (r.round (a / b))
  | nan, _ => nan
  | _, nan => nan
  | inf, fin _ => inf
  | fin _, inf => fin 0
  | inf, inf => nan

/-- `a < b`, which is false for what is not a number. -/
def lt : Double → Double → Bool
  | fin a, fin b => decide (a < b)
  | fin _, inf => true
  | _, _ => false

/-- `a ≤ b`, which is false for what is not a number. -/
def le : Double → Double → Bool
  | fin a, fin b => decide (a ≤ b)
  | fin _, inf => true
  | inf, inf => true
  | _, _ => false

/-- The quotient of two sizes is not above one when the first is not above the second. -/
theorem not_one_lt_div_ofNat {a b : ℕ} (hab : a ≤ b) (hb : 0 < b) :
    lt (fin 1) (div r (ofNat r a) (ofNat r b)) = false := by
  have hb1 : (1 : ℚ) ≤ r.round b := by
    rw [← r.one]
    exact r.mono (by exact_mod_cast hb)
  have hba : r.round a ≤ r.round b := r.mono (by exact_mod_cast hab)
  have hq : r.round (r.round a / r.round b) ≤ 1 := by
    rw [← r.one]
    exact r.mono ((div_le_one (by linarith)).mpr hba)
  have hne : r.round b ≠ 0 := by linarith
  simp only [ofNat, div, if_neg hne, lt, decide_eq_false_iff_not, not_lt]
  exact hq

end Double
