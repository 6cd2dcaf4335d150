import Mathlib.Data.Nat.GCD.Basic
import Mathlib.Order.Monotone.Defs
import StarOS.Lib.Checked

/-!
# Ticks and nanoseconds

A counter counts at a rate of its own, and everything above it wants nanoseconds. The factor between
the two is kept as a reduced fraction and applied in 128 bits, rounded down one way and up the
other, so that a deadline has passed in ticks when it has passed in nanoseconds.

## Main definitions

* `TickScale`, with `fromHz`, `nanos`, `ticks`

## Main results

* `TickScale.Of.nanos_eq`, `TickScale.Of.ticks_eq` — what the conversions come to, without overflow
* `TickScale.clock_law`
-/

namespace StarOS

/-- Nanoseconds in one second. -/
def nanosPerSec : ℕ := 1000000000

/-- The greatest common divisor, by Euclid. -/
def gcd (a b : ℕ) : ℕ := if _h : b = 0 then a else gcd b (a % b)
termination_by b
decreasing_by exact Nat.mod_lt _ (Nat.pos_of_ne_zero _h)

/-- The factor from ticks to nanoseconds, as a reduced fraction. -/
structure TickScale where
  num : ℕ
  den : ℕ
  deriving DecidableEq, Repr

namespace TickScale

/-- The scale of a counter that runs at `freqHz`. -/
def fromHz (freqHz : ℕ) : Option TickScale :=
  if freqHz = 0 then none
  else
    let g := gcd nanosPerSec freqHz
    some ⟨nanosPerSec / g, freqHz / g⟩

/-- Bring a 128-bit value into 64 bits. -/
def saturate (n : ℕ) : ℕ := if n > 2 ^ 64 - 1 then 2 ^ 64 - 1 else n

variable {σ ε : Type}

/-- Ticks to nanoseconds. The product is formed in 128 bits. -/
def nanos (s : TickScale) (ticks : ℕ) : Checked σ ε ℕ := do
  let product ← Checked.mul 128 ticks s.num
  let ns ← Checked.div product s.den
  return saturate ns

/-- Nanoseconds to ticks, rounded up. -/
def ticks (s : TickScale) (nanos : ℕ) : Checked σ ε ℕ := do
  let numerator ← Checked.mul 128 nanos s.den
  let ticks ← Checked.divCeil 128 numerator s.num
  return saturate ticks

end TickScale

/-! ### The scale -/

theorem gcd_eq (a b : ℕ) : gcd a b = Nat.gcd a b := by
  induction a, b using gcd.induct with
  | case1 a =>
    rw [gcd, dif_pos rfl, Nat.gcd_zero_right]
  | case2 a b hb ih =>
    rw [gcd, dif_neg hb, ih, Nat.gcd_comm a b, Nat.gcd_rec b a, Nat.gcd_comm]

/-- A division rounded up, as a number. -/
def ceilDiv (a b : ℕ) : ℕ := a / b + if a % b > 0 then 1 else 0

theorem ceilDiv_le_iff {a b k : ℕ} (hb : 0 < b) : ceilDiv a b ≤ k ↔ a ≤ k * b := by
  have hdiv := Nat.div_add_mod a b
  rw [ceilDiv]
  split
  · next hrem =>
    rw [Nat.succ_le_iff, Nat.div_lt_iff_lt_mul hb]
    refine ⟨Nat.le_of_lt, fun h => Nat.lt_of_le_of_ne h ?_⟩
    rintro rfl
    rw [Nat.mul_mod_left] at hrem
    exact Nat.lt_irrefl _ hrem
  · next hrem =>
    have hexact : b * (a / b) = a := by omega
    rw [Nat.add_zero]
    conv_rhs => rw [← hexact, Nat.mul_comm k b]
    exact (Nat.mul_le_mul_left_iff hb).symm

/-- None of the operations stops where what it computes fits. -/
theorem mul_eq {σ ε : Type} {w a b : ℕ} (h : a * b < 2 ^ w) :
    (Checked.mul w a b : Checked σ ε ℕ) = pure (a * b) := if_pos h

theorem div_eq {σ ε : Type} {a b : ℕ} (hb : 0 < b) :
    (Checked.div a b : Checked σ ε ℕ) = pure (a / b) := if_neg (Nat.ne_of_gt hb)

theorem divCeil_eq {σ ε : Type} {w a b : ℕ} (hb : 0 < b) (h : a < 2 ^ w) :
    (Checked.divCeil w a b : Checked σ ε ℕ) = pure (ceilDiv a b) := by
  rw [Checked.divCeil, div_eq hb, pure_bind, ceilDiv]
  split
  · next hrem =>
    have hle : ceilDiv a b ≤ a := (ceilDiv_le_iff hb).mpr (Nat.le_mul_of_pos_right a hb)
    rw [ceilDiv, if_pos hrem] at hle
    exact if_pos (Nat.lt_of_le_of_lt hle h)
  · rfl

namespace TickScale

variable {σ ε : Type} {freqHz m n t : ℕ} {s : TickScale}

theorem saturate_eq (n : ℕ) : saturate n = min n (2 ^ 64 - 1) := by
  rw [saturate]
  split <;> omega

theorem saturate_mono (h : m ≤ n) : saturate m ≤ saturate n := by
  rw [saturate_eq, saturate_eq]
  omega

/-- What holds of a scale: it is the ratio of a second to the frequency, and its parts are not zero
and fit in 64 bits. -/
structure Of (s : TickScale) (freqHz : ℕ) : Prop where
  ratio : s.num * freqHz = nanosPerSec * s.den
  num_pos : 0 < s.num
  den_pos : 0 < s.den
  num_lt : s.num < 2 ^ 64
  den_lt : s.den < 2 ^ 64

theorem fromHz_eq_some (hpos : 0 < freqHz) (hlt : freqHz < 2 ^ 64) :
    ∃ s, fromHz freqHz = some s ∧ s.Of freqHz := by
  refine ⟨_, if_neg (Nat.ne_of_gt hpos), ?_⟩
  rw [gcd_eq]
  have hnanos : 0 < nanosPerSec := by decide
  have hnanos64 : nanosPerSec < 2 ^ 64 := by decide
  have hg := Nat.gcd_pos_of_pos_left freqHz hnanos
  have hnum := Nat.gcd_dvd_left nanosPerSec freqHz
  have hden := Nat.gcd_dvd_right nanosPerSec freqHz
  refine ⟨?_, Nat.div_pos (Nat.le_of_dvd hnanos hnum) hg, Nat.div_pos (Nat.le_of_dvd hpos hden) hg,
    Nat.lt_of_le_of_lt (Nat.div_le_self ..) hnanos64, Nat.lt_of_le_of_lt (Nat.div_le_self ..) hlt⟩
  show nanosPerSec / _ * freqHz = nanosPerSec * (freqHz / _)
  rw [Nat.div_mul_right_comm hnum, Nat.mul_div_assoc _ hden]

variable (h : s.Of freqHz)
include h

theorem Of.nanos_eq (ht : t < 2 ^ 64) :
    (s.nanos t : Checked σ ε ℕ) = pure (saturate (t * nanosPerSec / freqHz)) := by
  have hproduct : t * s.num < 2 ^ 128 :=
    Nat.lt_of_lt_of_le (Nat.mul_lt_mul'' ht h.num_lt) (by decide)
  have hfreq : 0 < freqHz := by
    have := h.ratio
    by_contra hzero
    rw [Nat.eq_zero_of_not_pos hzero, Nat.mul_zero] at this
    exact absurd this.symm (Nat.mul_ne_zero (by decide) (Nat.ne_of_gt h.den_pos))
  have hsame : t * s.num / s.den = t * nanosPerSec / freqHz := by
    rw [← Nat.mul_div_mul_right _ _ hfreq, Nat.mul_assoc, h.ratio, ← Nat.mul_assoc,
      Nat.mul_comm s.den freqHz, Nat.mul_div_mul_right _ _ h.den_pos]
  rw [nanos, mul_eq hproduct, pure_bind, div_eq h.den_pos, pure_bind, hsame]

theorem Of.ticks_eq (hn : n < 2 ^ 64) :
    (s.ticks n : Checked σ ε ℕ) = pure (saturate (ceilDiv (n * freqHz) nanosPerSec)) := by
  have hproduct : n * s.den < 2 ^ 128 :=
    Nat.lt_of_lt_of_le (Nat.mul_lt_mul'' hn h.den_lt) (by decide)
  have hsame : ceilDiv (n * s.den) s.num = ceilDiv (n * freqHz) nanosPerSec := by
    refine eq_of_forall_ge_iff fun k => ?_
    have hnanos : 0 < nanosPerSec := by decide
    have hleft : n * s.den * nanosPerSec = n * freqHz * s.num := by
      rw [Nat.mul_assoc, Nat.mul_assoc, Nat.mul_comm s.den, ← h.ratio, Nat.mul_comm s.num]
    have hright : k * s.num * nanosPerSec = k * nanosPerSec * s.num := Nat.mul_right_comm ..
    calc ceilDiv (n * s.den) s.num ≤ k
        ↔ n * s.den ≤ k * s.num := ceilDiv_le_iff h.num_pos
      _ ↔ n * s.den * nanosPerSec ≤ k * s.num * nanosPerSec :=
          (Nat.mul_le_mul_right_iff hnanos).symm
      _ ↔ n * freqHz * s.num ≤ k * nanosPerSec * s.num := by rw [hleft, hright]
      _ ↔ n * freqHz ≤ k * nanosPerSec := Nat.mul_le_mul_right_iff h.num_pos
      _ ↔ ceilDiv (n * freqHz) nanosPerSec ≤ k := (ceilDiv_le_iff hnanos).symm
  rw [ticks, mul_eq hproduct, pure_bind, divCeil_eq h.num_pos hproduct, pure_bind, hsame]

omit h

/-- **The law of the scale.** -/
theorem clock_law (hpos : 0 < freqHz) (hlt : freqHz < 2 ^ 64) :
    ∃ s, fromHz freqHz = some s ∧ ∃ nanos ticks : ℕ → ℕ,
      (∀ t < 2 ^ 64, s.nanos t = (pure (nanos t) : Checked Unit Empty ℕ)) ∧
      (∀ n < 2 ^ 64, s.ticks n = (pure (ticks n) : Checked Unit Empty ℕ)) ∧
      (∀ t, nanos t = min (t * 10 ^ 9 / freqHz) (2 ^ 64 - 1)) ∧ Monotone nanos ∧ Monotone ticks ∧
      ∀ t n, n < 2 ^ 64 → n * freqHz ≤ (2 ^ 64 - 1) * 10 ^ 9 → (ticks n ≤ t ↔ n ≤ nanos t) := by
  obtain ⟨s, hs, hof⟩ := fromHz_eq_some hpos hlt
  have hnanos : 0 < nanosPerSec := by decide
  refine ⟨s, hs, fun t => saturate (t * nanosPerSec / freqHz),
    fun n => saturate (ceilDiv (n * freqHz) nanosPerSec), fun t ht => hof.nanos_eq ht,
    fun n hn => hof.ticks_eq hn, fun t => saturate_eq _, fun t t' h => ?_, fun n n' h => ?_,
    fun t n hn hfits => ?_⟩
  · exact saturate_mono (Nat.div_le_div_right (Nat.mul_le_mul_right _ h))
  · refine saturate_mono ((ceilDiv_le_iff hnanos).mpr ?_)
    exact Nat.le_trans (Nat.mul_le_mul_right _ h) ((ceilDiv_le_iff hnanos).mp (Nat.le_refl _))
  · have hexact : ceilDiv (n * freqHz) nanosPerSec ≤ 2 ^ 64 - 1 := (ceilDiv_le_iff hnanos).mpr hfits
    dsimp only
    rw [saturate_eq, saturate_eq, Nat.min_eq_left hexact, ceilDiv_le_iff hnanos, le_min_iff,
      and_iff_left (Nat.le_sub_one_of_lt hn), Nat.le_div_iff_mul_le hpos]

theorem clock_law_coprime : ∃ s, fromHz 33333333 = some s ∧ ∃ nanos ticks : ℕ → ℕ,
    (∀ t < 2 ^ 64, s.nanos t = (pure (nanos t) : Checked Unit Empty ℕ)) ∧
    (∀ n < 2 ^ 64, s.ticks n = (pure (ticks n) : Checked Unit Empty ℕ)) ∧
    (ticks 1000000000 ≤ 33333333 ↔ 1000000000 ≤ nanos 33333333) := by
  have hpos : 0 < 33333333 := by decide
  obtain ⟨s, hs, nanos, ticks, hnanos, hticks, -, -, -, hlaw⟩ := clock_law hpos (by decide)
  exact ⟨s, hs, nanos, ticks, hnanos, hticks, hlaw _ _ (by decide) (by decide)⟩

end TickScale
end StarOS
