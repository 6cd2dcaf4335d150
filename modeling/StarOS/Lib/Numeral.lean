import Mathlib.Data.Nat.Digits.Lemmas
import StarOS.Lib.Checked

/-!
# Numerals

A number written in a base, the most significant digit first.

## Main definitions

* `Numeral.value`, `Numeral.digits`
* `Numeral.read` — digits read from the left into an integer of so many bits
* `Numeral.divide` — digits found by dividing until nothing is left

## Main results

* `Numeral.value_digits`
* `Numeral.read_eq`, `Numeral.divide_eq`
-/

namespace Numeral

open Checked

/-- The number that digits stand for. -/
def value (b : ℕ) (ds : List ℕ) : ℕ := ds.foldl (fun n d => n * b + d) 0

/-- The digits of a number without a zero in front. Zero has none. -/
def digits (b n : ℕ) : List ℕ := (Nat.digits b n).reverse

/-- Read digits behind `n`, as long as the number has no more than `w` bits. -/
def read (w b : ℕ) : ℕ → List ℕ → Option ℕ
  | n, [] => some n
  | n, d :: ds => do
    let m ← checkedMul w n b
    let n ← checkedAdd w m d
    read w b n ds

/-- At most `k` digits, the least significant first, found by dividing until nothing is left. There
is at least one. -/
def divide (b : ℕ) : ℕ → ℕ → Option (List ℕ)
  | 0, _ => none
  | k + 1, n => if n / b = 0 then some [n % b] else (divide b k (n / b)).map (n % b :: ·)

variable {b n w k : ℕ} {ds es : List ℕ}

theorem value_eq_ofDigits : value b ds = Nat.ofDigits b ds.reverse := by
  rw [value, Nat.ofDigits_eq_foldr, List.foldr_reverse]
  exact congrArg (ds.foldl · 0) (funext₂ fun n d => by rw [Nat.cast_id, Nat.add_comm, Nat.mul_comm])

@[simp] theorem value_nil : value b [] = 0 := rfl

theorem value_append : value b (ds ++ es) = value b ds * b ^ es.length + value b es := by
  rw [value_eq_ofDigits, value_eq_ofDigits, value_eq_ofDigits, List.reverse_append,
    Nat.ofDigits_append, List.length_reverse, Nat.mul_comm, Nat.add_comm]

theorem value_cons (d : ℕ) : value b (d :: ds) = d * b ^ ds.length + value b ds := by
  have hcons : value b ([d] ++ ds) = value b [d] * b ^ ds.length + value b ds := value_append
  rwa [show value b [d] = d by simp [value]] at hcons

theorem value_replicate_zero_append : value b (List.replicate k 0 ++ ds) = value b ds := by
  rw [value_eq_ofDigits, List.reverse_append, List.reverse_replicate,
    Nat.ofDigits_append_replicate_zero, value_eq_ofDigits]

/-- **A number is written by its digits.** -/
theorem value_digits (b n : ℕ) : value b (digits b n) = n := by
  rw [value_eq_ofDigits, digits, List.reverse_reverse, Nat.ofDigits_digits]

@[simp] theorem digits_zero (b : ℕ) : digits b 0 = [] := by
  rw [digits, Nat.digits_zero, List.reverse_nil]

theorem digits_of_pos (hb : 1 < b) (hn : 0 < n) : digits b n = digits b (n / b) ++ [n % b] := by
  rw [digits, Nat.digits_def' hb hn, List.reverse_cons, digits]

theorem digits_ne_nil (hn : n ≠ 0) : digits b n ≠ [] := by
  rwa [digits, Ne, List.reverse_eq_nil_iff, Nat.digits_eq_nil_iff_eq_zero]

theorem lt_of_mem_digits (hb : 1 < b) {d : ℕ} (hd : d ∈ digits b n) : d < b :=
  Nat.digits_lt_base hb (List.mem_reverse.mp hd)

/-- There is no zero in front. -/
theorem head?_digits (hb : 1 < b) : (digits b n).head? ≠ some 0 := by
  induction n using Nat.strongRecOn with
  | ind n ih =>
    obtain rfl | hn := Nat.eq_zero_or_pos n
    · simp
    · rw [digits_of_pos hb hn]
      by_cases hlast : n / b = 0
      · rw [hlast, digits_zero, List.nil_append, List.head?_cons, Ne, Option.some.injEq,
          Nat.mod_eq_of_lt (by by_contra hge; exact absurd hlast (Nat.div_pos (by omega)
              (by omega)).ne')]
        exact hn.ne'
      · rw [List.head?_append_of_ne_nil _ (digits_ne_nil hlast)]
        exact ih (n / b) (Nat.div_lt_self hn hb)

/-- **Reading digits** gives their number unless it does not fit. -/
theorem read_eq (hb : 0 < b) (hn : n < 2 ^ w) : read w b n ds =
    if n * b ^ ds.length + value b ds < 2 ^ w then some (n * b ^ ds.length + value b ds)
    else none := by
  induction ds generalizing n with
  | nil => simp [read, hn]
  | cons d ds ih =>
    have hsum : n * b ^ (d :: ds).length + value b (d :: ds) =
        (n * b + d) * b ^ ds.length + value b ds := by
      rw [value_cons, List.length_cons, Nat.pow_succ]
      ring
    rw [hsum, read, checkedMul]
    have hpos : 1 ≤ b ^ ds.length := Nat.one_le_pow _ _ hb
    have hle : n * b + d ≤ (n * b + d) * b ^ ds.length := Nat.le_mul_of_pos_right _ hpos
    by_cases hfit : n * b + d < 2 ^ w
    · rw [if_pos (by omega), Option.bind_eq_bind, Option.bind_some, checkedAdd, if_pos hfit]
      exact ih hfit
    · rw [if_neg (by omega : ¬ (n * b + d) * b ^ ds.length + value b ds < 2 ^ w)]
      split
      · rw [Option.bind_eq_bind, Option.bind_some, checkedAdd, if_neg hfit]
        rfl
      · rfl

/-- **Dividing finds the digits**, if there is room for them. -/
theorem divide_eq (hb : 1 < b) (hn : n < b ^ (k + 1)) :
    divide b (k + 1) n = some (if n = 0 then [0] else Nat.digits b n) := by
  induction k generalizing n with
  | zero =>
    have hdiv : n / b = 0 := Nat.div_eq_of_lt (by simpa using hn)
    rw [divide, if_pos hdiv]
    split
    · next h0 => rw [h0, Nat.zero_mod]
    · next h0 => rw [Nat.digits_def' hb (Nat.pos_of_ne_zero h0), hdiv, Nat.digits_zero]
  | succ k ih =>
    rw [divide]
    by_cases hdiv : n / b = 0
    · rw [if_pos hdiv]
      split
      · next h0 => rw [h0, Nat.zero_mod]
      · next h0 => rw [Nat.digits_def' hb (Nat.pos_of_ne_zero h0), hdiv, Nat.digits_zero]
    · have h0 : n ≠ 0 := fun h0 => hdiv (by rw [h0, Nat.zero_div])
      have hlt : n / b < b ^ (k + 1) := Nat.div_lt_of_lt_mul (by rwa [← Nat.pow_succ'])
      rw [if_neg hdiv, ih hlt, if_neg hdiv, if_neg h0, Option.map_some,
        Nat.digits_def' hb (Nat.pos_of_ne_zero h0)]

end Numeral
