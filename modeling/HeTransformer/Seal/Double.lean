import HeTransformer.Types

/-!
# `double`s by their bits

The scales of ciphertexts and of the encryption parameters are C++ `double`s, which the model
keeps as their IEEE-754 bit patterns. This module reads such a pattern: its exponent and
mantissa, `==` on two of them, and the value of a finite one, scaled by `2^1074` so that it is an
integer (the smallest subnormal is `2^-1074`).

On that it builds SEAL's `util::are_close`, with which `Evaluator::add` compares the scales of
its operands: the difference of the two values, rounded to the nearest `double`, must be below
`epsilon` times the larger magnitude, or 1. Two scales that differ in their last bits are close;
a scale is close to itself exactly when it is finite (`areClose_self`).
-/

namespace HeTransformer

/-! ## Reading the bits -/

/-- The biased exponent of the `double` whose bits are `x`. -/
def doubleExponent (x : UInt64) : Nat := x.toNat / 2 ^ 52 % 2 ^ 11

/-- The mantissa of the `double` whose bits are `x`. -/
def doubleMantissa (x : UInt64) : Nat := x.toNat % 2 ^ 52

/-- The `double` whose bits are `x` is a NaN. -/
def doubleIsNaN (x : UInt64) : Bool := doubleExponent x == 2047 && doubleMantissa x != 0

/-- The `double` whose bits are `x` is finite: neither an infinity nor a NaN. -/
def doubleIsFinite (x : UInt64) : Bool := doubleExponent x != 2047

/-- `==` on `double`s, on their bits: a NaN equals nothing, the two zeros are equal, and other
values are equal when their bits are. -/
def doubleEq (x y : UInt64) : Bool :=
  !doubleIsNaN x && !doubleIsNaN y && (x == y || (x.toNat % 2 ^ 63 == 0 && y.toNat % 2 ^ 63 == 0))

@[simp] theorem doubleEq_self (x : UInt64) : doubleEq x x = !doubleIsNaN x := by
  simp [doubleEq]

theorem not_doubleIsNaN_of_finite {x : UInt64} (h : doubleIsFinite x = true) :
    doubleIsNaN x = false := by
  simp only [doubleIsFinite, bne_iff_ne, ne_eq] at h
  simp [doubleIsNaN, h]

/-! ## Values -/

/-- The value of the finite `double` whose bits are `x`, times `2^1074`; `none` for an infinity
or a NaN. A normal `double` of biased exponent `e` is `(2^52 + mantissa) * 2^(e - 1075)`, a
subnormal one `mantissa * 2^-1074`. -/
def doubleScaled (x : UInt64) : Option Int :=
  if doubleExponent x = 2047 then none
  else
    let m : Nat := if doubleExponent x = 0 then doubleMantissa x
      else (2 ^ 52 + doubleMantissa x) * 2 ^ (doubleExponent x - 1)
    some (if x.toNat < 2 ^ 63 then m else -m)

theorem doubleScaled_of_finite {x : UInt64} (h : doubleIsFinite x = true) :
    ∃ a, doubleScaled x = some a := by
  simp only [doubleIsFinite, bne_iff_ne, ne_eq] at h
  exact ⟨_, if_neg h⟩

/-- Round `n * 2^-1074` to the nearest `double`, ties to even, and scale back by `2^1074`. The
`double`s in `[2^k, 2^(k+1)) * 2^-1074` are the multiples of `2^(k - 52)` there, and below
`2^52 * 2^-1074`, the subnormal range, the multiples of 1. Past the largest `double` the result
is no `double` but stays above every finite one, which is all `areClose` asks of an overflow
to infinity. -/
def roundScaled (n : Nat) : Nat :=
  let u := 2 ^ (Nat.log2 n - 52)
  let q := n / u
  let r := n % u
  (if 2 * r < u ∨ (2 * r = u ∧ q % 2 = 0) then q else q + 1) * u

@[simp] theorem roundScaled_zero : roundScaled 0 = 0 := by
  simp [roundScaled, Nat.log2_zero]

/-! ## `are_close` -/

/-- SEAL's `util::are_close` (SEAL is not among the sources):
`fabs(value1 - value2) < epsilon * max(fabs(value1), fabs(value2), 1.0)`, with the subtraction
rounded to the nearest `double` and `epsilon = 2^-52`; the product and the maximum are exact.
An infinity or a NaN is close to nothing, since the difference is then an infinity or a NaN. -/
def areClose (x y : UInt64) : Bool :=
  match doubleScaled x, doubleScaled y with
  | some a, some b =>
      decide (roundScaled (a - b).natAbs * 2 ^ 52 < max (max a.natAbs b.natAbs) (2 ^ 1074))
  | _, _ => false

/-- A `double` is close to itself exactly when it is finite. -/
theorem areClose_self (x : UInt64) : areClose x x = doubleIsFinite x := by
  by_cases h : doubleIsFinite x = true
  · obtain ⟨a, ha⟩ := doubleScaled_of_finite h
    simp only [areClose, ha, sub_self, Int.natAbs_zero, roundScaled_zero, Nat.zero_mul, h,
      decide_eq_true_eq, -Nat.reducePow]
    positivity
  · have hn : doubleScaled x = none := by
      simp only [doubleIsFinite, bne_iff_ne, ne_eq, Decidable.not_not, Bool.not_eq_true,
        bne_eq_false_iff_eq, beq_iff_eq] at h
      exact if_pos h
    simp only [areClose, hn, Bool.not_eq_true] at h ⊢
    exact h.symm

end HeTransformer
