import Mathlib.Data.List.TakeWhile
import StarOS.Lib.Numeral
import StarOS.Libc.Scan

/-!
# The numbers that `strtol` and `strtoul` read

C makes up a text of space, a sign, a prefix, digits and what stands behind them. How it is made up
for a base is unique, and both functions return the number that the digits stand for, as far as it
fits, and how much stands before the rest.

## Main definitions

* `Scan.Reading`

## Main results

* `Scan.takeDigits_append` — digits are read as their number, or as the largest
* `Scan.strtol_exact`
-/

namespace StarOS

namespace Scan

open Checked Format

/-! ### Digits -/

/-- **Digits are read** as their number, or as the largest. -/
theorem takeDigits_append {w : ℕ} {base : ℤ} {s : List UInt8} (hw : 1 ≤ w) (hb : 2 ≤ base.toNat)
    (hs : ∀ c ∈ s.head?, digit c base = none) {bs : List UInt8} {ds : List ℕ}
    (hds : bs.map (digit · base) = ds.map some) {v : ℕ} {saturated : Bool} :
    takeDigits w base v saturated (bs ++ s) =
      match Numeral.read w base.toNat v ds with
      | some n => (n, saturated, s)
      | none => (2 ^ w - 1, true, s) := by
  have hend : ∀ v saturated, takeDigits w base v saturated s = (v, saturated, s) := by
    intro v saturated
    cases s with
    | nil => rfl
    | cons c s => rw [takeDigits, hs c rfl]
  -- a number that was too large stays the largest
  have hfull : ∀ {bs : List UInt8} {ds : List ℕ}, bs.map (digit · base) = ds.map some →
      takeDigits w base (2 ^ w - 1) true (bs ++ s) = (2 ^ w - 1, true, s) := by
    intro bs ds hds
    induction bs generalizing ds with
    | nil => exact hend _ _
    | cons c bs ih =>
      obtain ⟨d, ds, rfl⟩ : ∃ d ds', ds = d :: ds' := by
        cases ds with
        | nil => cases hds
        | cons d ds => exact ⟨d, ds, rfl⟩
      obtain ⟨hc, hrest⟩ := List.cons.inj hds
      have hpow : 2 ≤ 2 ^ w := Nat.pow_le_pow_right (n := 2) (by decide) hw
      have hmul : ¬ (2 ^ w - 1) * base.toNat < 2 ^ w := by
        have hle := Nat.mul_le_mul_left (2 ^ w - 1) hb
        omega
      rw [List.cons_append, takeDigits, show digit c base = some d from hc]
      dsimp only
      rw [checkedMul, if_neg hmul, Option.bind_none]
      exact ih hrest
  induction bs generalizing ds v with
  | nil =>
    obtain rfl : ds = [] := List.map_eq_nil_iff.mp hds.symm
    exact hend v saturated
  | cons c bs ih =>
    obtain ⟨d, ds, rfl⟩ : ∃ d ds', ds = d :: ds' := by
      cases ds with
      | nil => cases hds
      | cons d ds => exact ⟨d, ds, rfl⟩
    obtain ⟨hc, hrest⟩ := List.cons.inj hds
    rw [List.cons_append, takeDigits, show digit c base = some d from hc, Numeral.read]
    dsimp only
    rw [Option.bind_eq_bind, ← Option.bind_assoc]
    cases h : (checkedMul w v base.toNat).bind fun v => checkedAdd w v d with
    | some v => exact ih hrest
    | none => exact hfull hrest

theorem dropWhile_append_of_all {p : UInt8 → Bool} {s t : List UInt8} (hs : ∀ b ∈ s, p b = true)
    (ht : ∀ b ∈ t.head?, p b = false) : (s ++ t).dropWhile p = t := by
  rw [List.dropWhile_append_of_pos hs]
  cases t with
  | nil => rfl
  | cons b t => exact List.dropWhile_cons_of_neg (by rw [ht b rfl]; exact Bool.false_ne_true)

/-! ### What C says -/

/-- A prefix stands in front, with a digit behind it. -/
def HasPrefix (base : ℤ) (t : List UInt8) : Prop :=
  (base = 0 ∨ base = 16) ∧ ∃ x c u, t = ascii '0' :: x :: c :: u ∧
    (x = ascii 'x' ∨ x = ascii 'X') ∧ (digit c 16).isSome = true

/-- **How a text is made up** for a base. -/
structure Reading (base : ℤ) (s : List UInt8) where
  space : List UInt8
  sign : List UInt8
  hexPrefix : List UInt8
  digits : List UInt8
  rest : List UInt8
  text : s = space ++ (sign ++ (hexPrefix ++ (digits ++ rest)))
  space_all : ∀ b ∈ space, isSpace b = true
  /-- There is no sign only where none stands. -/
  sign_cases : sign = [ascii '-'] ∨ sign = [ascii '+'] ∨ sign = [] ∧
    ∀ b ∈ (hexPrefix ++ (digits ++ rest)).head?,
      isSpace b = false ∧ b ≠ ascii '-' ∧ b ≠ ascii '+'
  /-- A prefix counts only with a digit behind it, and there is none only where none stands. -/
  prefix_cases : (hexPrefix = [ascii '0', ascii 'x'] ∨ hexPrefix = [ascii '0', ascii 'X']) ∧
      (base = 0 ∨ base = 16) ∧ digits ≠ [] ∨
    hexPrefix = [] ∧ ¬ HasPrefix base (digits ++ rest)
  /-- The digits are the longest run of them. -/
  digits_all : ∀ c ∈ digits, (digit c (if hexPrefix ≠ [] then 16 else if base = 0 then
    if (digits ++ rest).head? = some (ascii '0') then 8 else 10 else base)).isSome = true
  rest_head : ∀ c ∈ rest.head?, digit c (if hexPrefix ≠ [] then 16 else if base = 0 then
    if (digits ++ rest).head? = some (ascii '0') then 8 else 10 else base) = none

namespace Reading

variable {base : ℤ} {s : List UInt8} (r : Reading base s)

/-- The base that counts. -/
def effective : ℤ :=
  if r.hexPrefix ≠ [] then 16
  else if base = 0 then if (r.digits ++ r.rest).head? = some (ascii '0') then 8 else 10
  else base

/-- The number that the digits stand for. -/
def magnitude : ℕ := Numeral.value r.effective.toNat (r.digits.filterMap (digit · r.effective))

def negative : Bool := r.sign = [ascii '-']

def value : ℤ := if r.negative then -r.magnitude else r.magnitude

/-- What stands before the rest. -/
def consumed : ℕ :=
  r.space.length + (r.sign.length + (r.hexPrefix.length + r.digits.length))

end Reading

/-- The number of 64 bits that is the nearest. -/
def clamp (v : ℤ) : ℤ := max (-2 ^ 63) (min v (2 ^ 63 - 1))

namespace Reading

variable {base : ℤ} {s : List UInt8} (r : Reading base s)

theorem effective_ge (hb : base = 0 ∨ 2 ≤ base) : 2 ≤ r.effective.toNat := by
  rw [effective]
  split
  · decide
  · split
    · split <;> decide
    · omega

theorem map_digits : r.digits.map (digit · r.effective) =
    (r.digits.filterMap (digit · r.effective)).map some := by
  have hall : ∀ c ∈ r.digits, (digit c r.effective).isSome = true := r.digits_all
  generalize r.digits = ds at hall
  induction ds with
  | nil => rfl
  | cons c ds ih =>
    obtain ⟨d, hd⟩ := Option.isSome_iff_exists.mp (hall c List.mem_cons_self)
    rw [List.map_cons, List.filterMap_cons_some (f := (digit · r.effective)) hd, List.map_cons, hd,
      ih fun c hc => hall c (List.mem_cons_of_mem _ hc)]

/-- Space and sign are taken away. -/
theorem takeSign_text : takeSign (s.dropWhile isSpace) =
    (r.negative, r.hexPrefix ++ (r.digits ++ r.rest)) := by
  have hdrop : s.dropWhile isSpace = r.sign ++ (r.hexPrefix ++ (r.digits ++ r.rest)) := by
    refine (congrArg _ r.text).trans (dropWhile_append_of_all r.space_all fun b hb => ?_)
    obtain hsign | hsign | ⟨hsign, hhead⟩ := r.sign_cases
    · rw [hsign] at hb
      obtain rfl := Option.some.inj hb
      rfl
    · rw [hsign] at hb
      obtain rfl := Option.some.inj hb
      rfl
    · rw [hsign] at hb
      exact (hhead b hb).1
  rw [hdrop, negative]
  obtain hsign | hsign | ⟨hsign, hhead⟩ := r.sign_cases
  · rw [hsign]
    rfl
  · rw [hsign]
    rfl
  · have hminus : (r.hexPrefix ++ (r.digits ++ r.rest)).head? ≠ some (ascii '-') :=
      fun h => (hhead _ h).2.1 rfl
    have hplus : (r.hexPrefix ++ (r.digits ++ r.rest)).head? ≠ some (ascii '+') :=
      fun h => (hhead _ h).2.2 rfl
    rw [hsign, List.nil_append, takeSign, if_neg hminus, if_neg hplus]
    rfl

/-- And so is the prefix. -/
theorem takeBase_text : takeBase base (r.hexPrefix ++ (r.digits ++ r.rest)) =
    (r.effective, r.digits ++ r.rest) := by
  rw [takeBase, effective]
  obtain ⟨hpfx, hbase, hne⟩ | ⟨hpfx, hno⟩ := r.prefix_cases
  · obtain ⟨c, ds, hds⟩ := List.exists_cons_of_ne_nil hne
    have hc : (digit c 16).isSome = true := by
      have hall := r.digits_all c (by rw [hds]; exact List.mem_cons_self)
      rwa [if_pos (by obtain h | h := hpfx <;> rw [h] <;> exact List.cons_ne_nil _ _)] at hall
    obtain hpfx | hpfx := hpfx
    · rw [hpfx, hds, if_pos ⟨hbase, rfl, .inl rfl, hc⟩, if_pos (List.cons_ne_nil _ _)]
      rfl
    · rw [hpfx, hds, if_pos ⟨hbase, rfl, .inr rfl, hc⟩, if_pos (List.cons_ne_nil _ _)]
      rfl
  · rw [hpfx, List.nil_append, if_neg]
    · rw [if_neg (not_not.mpr rfl), List.head?_eq_getElem?]
      split <;> rfl
    · rintro ⟨hbase, h0, hx, hc⟩
      refine hno ⟨hbase, ?_⟩
      generalize r.digits ++ r.rest = t at h0 hx hc
      match t with
      | [] => cases h0
      | [_] => obtain hx | hx := hx <;> cases hx
      | [_, _] => cases hc
      | z :: x :: c :: u =>
        obtain rfl := Option.some.inj h0
        exact ⟨x, c, u, rfl, hx.imp Option.some.inj Option.some.inj, hc⟩

/-- **What both find.** -/
theorem number_text {w : ℕ} (hw : 1 ≤ w) (hb : base = 0 ∨ 2 ≤ base) : number w s base =
    if r.digits = [] then none
    else if r.magnitude < 2 ^ w then
      some (r.negative, r.magnitude, false, r.rest)
    else some (r.negative, 2 ^ w - 1, true, r.rest) := by
  have hge := r.effective_ge hb
  have hread : takeDigits w r.effective 0 false (r.digits ++ r.rest) =
      if r.magnitude < 2 ^ w then (r.magnitude, false, r.rest) else (2 ^ w - 1, true, r.rest) := by
    rw [takeDigits_append hw hge r.rest_head r.map_digits,
      Numeral.read_eq (by omega) (by positivity), Nat.zero_mul, Nat.zero_add, ← magnitude]
    by_cases hfit : r.magnitude < 2 ^ w
    · rw [if_pos hfit, if_pos hfit]
    · rw [if_neg hfit, if_neg hfit]
  rw [number, r.takeSign_text]
  dsimp only
  rw [r.takeBase_text]
  dsimp only
  rw [hread, List.length_append]
  by_cases hdigits : r.digits = []
  · rw [if_pos hdigits, hdigits, List.length_nil, Nat.zero_add]
    by_cases hfit : r.magnitude < 2 ^ w
    · rw [if_pos hfit, if_pos rfl]
    · rw [if_neg hfit, if_pos rfl]
  · have hpos := List.length_pos_of_ne_nil hdigits
    have hne : r.rest.length ≠ r.digits.length + r.rest.length := by omega
    rw [if_neg hdigits]
    by_cases hfit : r.magnitude < 2 ^ w
    · rw [if_pos hfit, if_pos hfit]
      exact if_neg hne
    · rw [if_neg hfit, if_neg hfit]
      exact if_neg hne

theorem length_text : s.length - r.rest.length = r.consumed := by
  have hlen := congrArg List.length r.text
  simp only [List.length_append] at hlen
  rw [consumed]
  omega

theorem strtol_eq (hb : base = 0 ∨ 2 ≤ base) : strtol s base =
    if r.digits = [] then (0, 0) else (clamp r.value, r.consumed) := by
  rw [strtol, r.number_text (by decide) hb]
  by_cases hdigits : r.digits = []
  · rw [if_pos hdigits, if_pos hdigits]
  · rw [if_neg hdigits, if_neg hdigits]
    by_cases hfit : r.magnitude < 2 ^ 63
    · rw [if_pos hfit]
      refine Prod.ext ?_ r.length_text
      cases hsign : r.negative with
      | true =>
        simp only [value, clamp, hsign, if_true, Bool.false_eq_true, if_false]
        omega
      | false =>
        simp only [value, clamp, hsign, Bool.false_eq_true, if_false]
        omega
    · rw [if_neg hfit]
      refine Prod.ext ?_ r.length_text
      cases hsign : r.negative with
      | true =>
        simp only [value, clamp, hsign, if_true]
        omega
      | false =>
        simp only [value, clamp, hsign, Bool.false_eq_true, if_false]
        omega

theorem strtoul_eq (hb : base = 0 ∨ 2 ≤ base) : strtoul s base =
    if r.digits = [] then (0, 0)
    else (if r.magnitude < 2 ^ 64 then (r.value % 2 ^ 64).toNat else 2 ^ 64 - 1, r.consumed) := by
  rw [strtoul, r.number_text (by decide) hb]
  by_cases hdigits : r.digits = []
  · rw [if_pos hdigits, if_pos hdigits]
  · rw [if_neg hdigits, if_neg hdigits]
    by_cases hfit : r.magnitude < 2 ^ 64
    · rw [if_pos hfit, if_pos hfit]
      refine Prod.ext ?_ r.length_text
      cases hsign : r.negative with
      | true =>
        simp only [value, hsign, if_true, Bool.false_eq_true, if_false]
        omega
      | false =>
        simp only [value, hsign, Bool.false_eq_true, if_false]
        omega
    · rw [if_neg hfit, if_neg hfit]
      exact Prod.ext rfl r.length_text

end Reading

theorem head?_dropWhile (p : UInt8 → Bool) (s : List UInt8) :
    ∀ b ∈ (s.dropWhile p).head?, p b = false := by
  intro b hb
  have hnot := List.head?_dropWhile_not p s
  rw [hb] at hnot
  simpa using hnot

/-- **Each text is made up** in some way. -/
theorem exists_reading (base : ℤ) (s : List UInt8) : Nonempty (Reading base s) := by
  obtain ⟨sign, u, hu, hsign⟩ : ∃ sign u, s.dropWhile isSpace = sign ++ u ∧
      (sign = [ascii '-'] ∨ sign = [ascii '+'] ∨ sign = [] ∧
        ∀ b ∈ u.head?, isSpace b = false ∧ b ≠ ascii '-' ∧ b ≠ ascii '+') := by
    have hspace := head?_dropWhile isSpace s
    cases ht : s.dropWhile isSpace with
    | nil => exact ⟨[], [], rfl, .inr (.inr ⟨rfl, fun b hb => nomatch hb⟩)⟩
    | cons b t =>
      rw [ht] at hspace
      by_cases hminus : b = ascii '-'
      · exact ⟨[ascii '-'], t, by rw [hminus]; rfl, .inl rfl⟩
      · by_cases hplus : b = ascii '+'
        · exact ⟨[ascii '+'], t, by rw [hplus]; rfl, .inr (.inl rfl)⟩
        · refine ⟨[], b :: t, rfl, .inr (.inr ⟨rfl, fun b' hb' => ?_⟩)⟩
          obtain rfl := Option.some.inj hb'
          exact ⟨hspace b rfl, hminus, hplus⟩
  obtain ⟨pfx, v, hv, hpfx⟩ : ∃ pfx v, u = pfx ++ v ∧
      ((pfx = [ascii '0', ascii 'x'] ∨ pfx = [ascii '0', ascii 'X']) ∧ (base = 0 ∨ base = 16) ∧
        (∃ c w, v = c :: w ∧ (digit c 16).isSome = true) ∨ pfx = [] ∧ ¬ HasPrefix base v) := by
    by_cases h : HasPrefix base u
    · obtain ⟨hbase, x, c, w, hu, hx, hc⟩ := h
      refine ⟨[ascii '0', x], c :: w, hu, .inl ⟨?_, hbase, c, w, rfl, hc⟩⟩
      exact hx.imp (congrArg ([ascii '0', ·])) (congrArg ([ascii '0', ·]))
    · exact ⟨[], u, rfl, .inr ⟨rfl, h⟩⟩
  -- the digits are the longest run in the base that counts
  obtain ⟨b, hb⟩ : ∃ b, b = if pfx ≠ [] then 16 else if base = 0 then
    if v.head? = some (ascii '0') then 8 else 10 else base := ⟨_, rfl⟩
  have hrun := List.takeWhile_append_dropWhile (p := fun c => (digit c b).isSome) (l := v)
  have hrest := head?_dropWhile (fun c => (digit c b).isSome) v
  refine ⟨⟨s.takeWhile isSpace, sign, pfx, v.takeWhile fun c => (digit c b).isSome,
    v.dropWhile fun c => (digit c b).isSome, ?_, fun _ => List.mem_takeWhile_imp, ?_, ?_, ?_, ?_⟩⟩
  · rw [hrun, ← hv, ← hu, List.takeWhile_append_dropWhile]
  · rw [hrun, ← hv]
    exact hsign
  · rw [hrun]
    refine hpfx.imp_left fun ⟨htext, hbase, c, w, hc, hdigit⟩ => ⟨htext, hbase, ?_⟩
    have hne : pfx ≠ [] := by
      obtain htext | htext := htext <;> rw [htext] <;> exact List.cons_ne_nil _ _
    rw [if_pos hne] at hb
    rw [hc, hb, List.takeWhile_cons, if_pos hdigit]
    exact List.cons_ne_nil _ _
  · rw [hrun, ← hb]
    exact fun _ => List.mem_takeWhile_imp
  · rw [hrun, ← hb]
    exact fun c hc => Option.not_isSome_iff_eq_none.mp
      (by rw [hrest c hc]; exact Bool.false_ne_true)

/-- **`strtol` and `strtoul` are exact**: each text is made up for the base in some way, and
whatever way that is, the value is the number that the digits stand for, as near as it fits, and
what is consumed stands before the rest. Without a digit both are zero. -/
theorem strtol_exact (s : List UInt8) {base : ℤ} (hb : base = 0 ∨ 2 ≤ base ∧ base ≤ 36) :
    Nonempty (Reading base s) ∧ ∀ r : Reading base s,
      (strtol s base = if r.digits = [] then (0, 0) else (clamp r.value, r.consumed)) ∧
      (strtoul s base = if r.digits = [] then (0, 0) else
        (if r.magnitude < 2 ^ 64 then (r.value % 2 ^ 64).toNat else 2 ^ 64 - 1, r.consumed)) ∧
      (strtol s base).2 = (strtoul s base).2 := by
  refine ⟨exists_reading base s, fun r => ?_⟩
  have hl := r.strtol_eq (hb.imp_right And.left)
  have hul := r.strtoul_eq (hb.imp_right And.left)
  refine ⟨hl, hul, ?_⟩
  rw [hl, hul]
  split <;> rfl

/-- A mask in hexadecimal that needs all of 64 bits. -/
theorem strtol_exact_mask :
    let s := "  -0xFFFFFFFFFFFFFFFFg".toList.map ascii
    Nonempty (Reading 0 s) ∧ ∀ r : Reading 0 s,
      (strtol s 0 = if r.digits = [] then (0, 0) else (clamp r.value, r.consumed)) ∧
      (strtoul s 0 = if r.digits = [] then (0, 0) else
        (if r.magnitude < 2 ^ 64 then (r.value % 2 ^ 64).toNat else 2 ^ 64 - 1, r.consumed)) ∧
      (strtol s 0).2 = (strtoul s 0).2 :=
  strtol_exact _ (.inl rfl)

end Scan

end StarOS
