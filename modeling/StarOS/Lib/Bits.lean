import Mathlib.Algebra.Group.Nat.Defs
import Mathlib.Algebra.Order.Group.Nat
import Mathlib.Data.Nat.Bitwise
import Mathlib.Tactic.Common

/-!
# Masks

Aligning an address, cutting an index out of one and reading a field of a descriptor are all a
conjunction with a constant whose set bits are consecutive. These lemmas say what it is in
arithmetic.

## Main results

* `Bits.and_mask` — the bits from `k` to `n`
* `Bits.and_not_low` — all but the lowest `k` bits of a machine word
* `Bits.roundUp_spec` — the least multiple at or above a number
-/

namespace Bits

/-- The bits from `k` up to `n`, as arithmetic. -/
theorem and_mask (x : ℕ) {k n : ℕ} (h : k ≤ n) :
    x &&& (2 ^ n - 2 ^ k) = x % 2 ^ n / 2 ^ k * 2 ^ k := by
  have hmask : 2 ^ n - 2 ^ k = (2 ^ (n - k) - 1) <<< k := by
    rw [Nat.shiftLeft_eq, Nat.sub_mul, Nat.one_mul, ← Nat.pow_add, Nat.sub_add_cancel h]
  rw [hmask, ← Nat.shiftRight_eq_div_pow, ← Nat.shiftLeft_eq]
  refine Nat.eq_of_testBit_eq fun i => ?_
  rw [Nat.testBit_and, Nat.testBit_shiftLeft, Nat.testBit_shiftLeft, Nat.testBit_two_pow_sub_one,
    Nat.testBit_shiftRight, Nat.testBit_mod_two_pow]
  by_cases hi : k ≤ i
  · have hadd : k + (i - k) = i := by omega
    have hlt : i - k < n - k ↔ i < n := by omega
    rw [hadd]
    simp only [ge_iff_le, hi, decide_true, Bool.true_and, hlt]
    rw [Bool.and_comm]
  · simp [hi]

/-- All but the lowest `k` bits of an `n`-bit word. -/
theorem and_not_low {x k n : ℕ} (hx : x < 2 ^ n) (h : k ≤ n) :
    x &&& (2 ^ n - 2 ^ k) = x / 2 ^ k * 2 ^ k := by
  rw [and_mask x h, Nat.mod_eq_of_lt hx]

/-- Rounding up lands on a multiple, at or above the number and less than one step above it. -/
theorem roundUp_spec (x : ℕ) {m : ℕ} (hm : 0 < m) :
    m ∣ (x + m - 1) / m * m ∧ x ≤ (x + m - 1) / m * m ∧ (x + m - 1) / m * m < x + m := by
  have hdiv := Nat.div_add_mod (x + m - 1) m
  have hmod := Nat.mod_lt (x + m - 1) hm
  rw [Nat.mul_comm] at hdiv
  refine ⟨Nat.dvd_mul_left _ _, ?_, ?_⟩ <;> omega

/-- It is the least such multiple. -/
theorem roundUp_le {x y m : ℕ} (hm : 0 < m) (hy : m ∣ y) (hxy : x ≤ y) :
    (x + m - 1) / m * m ≤ y := by
  obtain ⟨q, rfl⟩ := hy
  have hlt : (x + m - 1) / m < q + 1 := by
    rw [Nat.div_lt_iff_lt_mul hm, Nat.add_mul, Nat.mul_comm q m]
    omega
  rw [Nat.mul_comm m q]
  exact Nat.mul_le_mul_right m (Nat.le_of_lt_succ hlt)

end Bits
