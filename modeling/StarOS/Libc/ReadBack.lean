import Mathlib.Data.List.DropRight
import StarOS.Libc.Conversion
import StarOS.Libc.Strtol

/-!
# Reading back what was printed

What `strtol`, `strtoul` and `scan` make of an integer that `printf` has written.

Whatever the flags, the width and the precision are, the text consists of spaces, a sign, a prefix,
digits and spaces. Such a text is a value of a type of its own (`Written`), which is read and
written independently.

## Main definitions

* `Scan.Written`
* `Scan.ReadByNumber`, `Scan.ReadByScan`

## Main results

* `Scan.Written.number_text` — the number is read from such a text
* `Scan.exists_written` — the engine of `printf` writes nothing else
* `Scan.read_back_exact`
-/

namespace StarOS

namespace Scan

open Checked Format

/-! ### A number in a text -/

/-- A text that is a number in a base: spaces, a sign, a prefix, digits and spaces. -/
structure Written (base : ℕ) where
  before : ℕ
  /-- A minus or a plus. -/
  sign : Option Bool
  /-- An `X` or an `x`. -/
  hexPrefix : Option Bool
  digits : List ℕ
  upper : Bool
  behind : ℕ
  lt : ∀ d ∈ digits, d < base
  digits_of_prefix : hexPrefix ≠ none → base = 16 ∧ digits ≠ []

namespace Written

variable {base : ℕ} (t : Written base)

def signText : List UInt8 := t.sign.toList.map fun minus => ascii (if minus then '-' else '+')

def prefixText : List UInt8 :=
  match t.hexPrefix with
  | none => []
  | some upper => [ascii '0', ascii (if upper then 'X' else 'x')]

/-- The digits and what stands behind them. -/
def tail : List UInt8 := t.digits.map (digitByte t.upper) ++ fillWith t.behind ' '

def text : List UInt8 := fillWith t.before ' ' ++ (t.signText ++ (t.prefixText ++ t.tail))

def value : ℕ := Numeral.value base t.digits

def negative : Bool := t.sign.getD false

end Written

theorem digit_space (base : ℤ) : digit (ascii ' ') base = none := rfl

theorem digitByte_spec {upper : Bool} {d : ℕ} (hd : d < 16) :
    digitValue (digitByte upper d) = some d ∧ isSpace (digitByte upper d) = false ∧
      (digitByte upper d ≠ ascii '-' ∧ digitByte upper d ≠ ascii '+') ∧
      digitByte upper d ≠ ascii 'x' ∧ digitByte upper d ≠ ascii 'X' := by
  have hall : ∀ upper : Bool, ∀ d < 16, digitValue (digitByte upper d) = some d ∧
      isSpace (digitByte upper d) = false ∧
      (digitByte upper d ≠ ascii '-' ∧ digitByte upper d ≠ ascii '+') ∧
      digitByte upper d ≠ ascii 'x' ∧ digitByte upper d ≠ ascii 'X' := by decide
  exact hall upper d hd

theorem digit_digitByte {upper : Bool} {d base : ℕ} (hd : d < base) (hbase : base ≤ 16) :
    digit (digitByte upper d) base = some d := by
  rw [digit, (digitByte_spec (hd.trans_le hbase)).1]
  simp [hd]

/-- **Digits are read** as their number, or as the largest. -/
theorem takeDigits_map {w base : ℕ} {upper : Bool} {s : List UInt8} (hw : 1 ≤ w) (hb : 2 ≤ base)
    (hbase : base ≤ 16) (hs : ∀ c ∈ s.head?, digit c base = none) {ds : List ℕ}
    (hds : ∀ d ∈ ds, d < base) {v : ℕ} {saturated : Bool} :
    takeDigits w base v saturated (ds.map (digitByte upper) ++ s) =
      match Numeral.read w base v ds with
      | some n => (n, saturated, s)
      | none => (2 ^ w - 1, true, s) := by
  have hmap : (ds.map (digitByte upper)).map (digit · (base : ℤ)) = ds.map some := by
    rw [List.map_map]
    exact List.map_congr_left fun d hd => digit_digitByte (hds d hd) hbase
  have htake : takeDigits w (base : ℤ) v saturated (ds.map (digitByte upper) ++ s) = _ :=
    takeDigits_append hw (by rwa [Int.toNat_natCast]) hs hmap
  rwa [Int.toNat_natCast] at htake

theorem head?_spaces (n : ℕ) : ∀ c ∈ (fillWith n ' ').head?, c = ascii ' ' := by
  intro c hc
  exact List.eq_of_mem_replicate (List.mem_of_mem_head? hc)

namespace Written

variable {base : ℕ} (t : Written base)

theorem mem_tail {c : UInt8} (hc : c ∈ t.tail) :
    (∃ d < base, c = digitByte t.upper d) ∨ c = ascii ' ' := by
  obtain hc | hc := List.mem_append.mp hc
  · obtain ⟨d, hd, rfl⟩ := List.mem_map.mp hc
    exact .inl ⟨d, t.lt d hd, rfl⟩
  · exact .inr (List.eq_of_mem_replicate hc)

theorem exists_head (h : t.digits ≠ []) :
    ∃ d < base, ∃ s, t.tail = digitByte t.upper d :: s := by
  obtain ⟨d, ds, hdigits⟩ := List.exists_cons_of_ne_nil h
  refine ⟨d, t.lt d (by rw [hdigits]; exact List.mem_cons_self),
    ds.map (digitByte t.upper) ++ fillWith t.behind ' ', ?_⟩
  rw [tail, hdigits]
  rfl

/-- Behind the sign the prefix is taken away, and nothing else passes for one. -/
theorem takeBase_text (hb : 2 ≤ base) (hbase : base ≤ 16) :
    takeBase base (t.prefixText ++ t.tail) = ((base : ℤ), t.tail) := by
  have hne : (base : ℤ) ≠ 0 := by omega
  rw [takeBase, prefixText]
  cases hpfx : t.hexPrefix with
  | none =>
    rw [if_neg, if_neg hne, List.nil_append]
    rintro ⟨-, -, hx, -⟩
    have hmem : ∀ c, t.tail[1]? = some c → c ≠ ascii 'x' ∧ c ≠ ascii 'X' := by
      intro c hc
      obtain ⟨d, hd, rfl⟩ | rfl := t.mem_tail (List.mem_of_getElem? hc)
      · exact (digitByte_spec (hd.trans_le hbase)).2.2.2
      · decide
    obtain hx | hx := hx
    · exact (hmem _ hx).1 rfl
    · exact (hmem _ hx).2 rfl
  | some upper =>
    obtain ⟨rfl, hdigits⟩ := t.digits_of_prefix (by rw [hpfx]; exact Option.some_ne_none _)
    obtain ⟨d, hd, s, hs⟩ := t.exists_head hdigits
    have hdigit : digit (digitByte t.upper d) 16 = some d := digit_digitByte hd (Nat.le_refl _)
    rw [if_pos]
    · rfl
    · rw [hs]
      refine ⟨.inr rfl, rfl, ?_, ?_⟩
      · cases upper
        · exact .inl rfl
        · exact .inr rfl
      · show ((some (digitByte t.upper d)).bind (digit · 16)).isSome = true
        rw [Option.bind_some, hdigit]
        rfl

theorem dropWhile_spaces (n : ℕ) (s : List UInt8) :
    (fillWith n ' ' ++ s).dropWhile isSpace = s.dropWhile isSpace := by
  induction n with
  | zero => rfl
  | succ n ih => exact ih

/-- What begins behind the sign, if there is a digit. -/
theorem exists_behind (hbase : base ≤ 16) (h : t.digits ≠ []) :
    ∃ c s, t.prefixText ++ t.tail = c :: s ∧ isSpace c = false ∧ c ≠ ascii '-' ∧ c ≠ ascii '+' := by
  rw [prefixText]
  cases t.hexPrefix with
  | none =>
    obtain ⟨d, hd, s, hs⟩ := t.exists_head h
    obtain ⟨-, hspace, hsigns, -⟩ := @digitByte_spec t.upper d (hd.trans_le hbase)
    exact ⟨_, s, hs, hspace, hsigns⟩
  | some upper => exact ⟨ascii '0', _, rfl, by decide⟩

/-- The spaces in front are taken away. -/
theorem dropWhile_text (hbase : base ≤ 16) : t.text.dropWhile isSpace =
    if t.sign = none ∧ t.digits = [] then [] else t.signText ++ (t.prefixText ++ t.tail) := by
  rw [text, dropWhile_spaces]
  split
  · next h =>
    have hpfx : t.hexPrefix = none := by
      by_contra hne
      exact (t.digits_of_prefix hne).2 h.2
    rw [signText, h.1, prefixText, hpfx, tail, h.2]
    exact (List.append_nil (fillWith t.behind ' ') ▸ dropWhile_spaces t.behind [] :)
  · next h =>
    rw [signText]
    cases hsign : t.sign with
    | some minus => cases minus <;> rfl
    | none =>
      obtain ⟨c, s, htext, hspace, -⟩ := t.exists_behind hbase fun hnil => h ⟨hsign, hnil⟩
      show (t.prefixText ++ t.tail).dropWhile isSpace = t.prefixText ++ t.tail
      rw [htext, List.dropWhile_cons_of_neg (by rw [hspace]; decide)]

/-- And so is the sign. -/
theorem takeSign_text (hbase : base ≤ 16) (h : t.sign ≠ none ∨ t.digits ≠ []) :
    takeSign (t.signText ++ (t.prefixText ++ t.tail)) = (t.negative, t.prefixText ++ t.tail) := by
  rw [signText, negative]
  cases hsign : t.sign with
  | some minus => cases minus <;> rfl
  | none =>
    obtain ⟨c, s, htext, -, hminus, hplus⟩ :=
      t.exists_behind hbase (h.resolve_left (not_not.mpr hsign))
    show takeSign (t.prefixText ++ t.tail) = _
    rw [htext, takeSign, List.head?_cons, if_neg fun h => hminus (Option.some.inj h),
      if_neg fun h => hplus (Option.some.inj h)]
    rfl

/-- **The number is read**, as far as it fits, unless there is no digit. -/
theorem number_text {w : ℕ} (hw : 1 ≤ w) (hb : 2 ≤ base) (hbase : base ≤ 16) :
    number w t.text base =
      if t.digits = [] then none
      else if t.value < 2 ^ w then
        some (t.negative, t.value, false, fillWith t.behind ' ')
      else some (t.negative, 2 ^ w - 1, true, fillWith t.behind ' ') := by
  by_cases h : t.sign ≠ none ∨ t.digits ≠ []
  · have hread : takeDigits w base 0 false t.tail =
        if t.value < 2 ^ w then (t.value, false, fillWith t.behind ' ')
        else (2 ^ w - 1, true, fillWith t.behind ' ') := by
      rw [tail, takeDigits_map hw hb hbase (fun c hc => head?_spaces _ c hc ▸ digit_space base)
        t.lt,
        Numeral.read_eq (by omega) (by positivity), Nat.zero_mul, Nat.zero_add, ← value]
      by_cases hfit : t.value < 2 ^ w
      · rw [if_pos hfit, if_pos hfit]
      · rw [if_neg hfit, if_neg hfit]
    have hlen : t.tail.length = t.digits.length + t.behind := by simp [tail]
    have hrest : (fillWith t.behind ' ').length = t.behind := length_fillWith _ _
    rw [number, t.dropWhile_text hbase, if_neg fun h' => h.elim (· h'.1) (· h'.2),
      t.takeSign_text hbase h]
    dsimp only
    rw [t.takeBase_text hb hbase]
    dsimp only
    rw [hread]
    by_cases hdigits : t.digits = []
    · rw [hdigits, List.length_nil, Nat.zero_add] at hlen
      rw [if_pos hdigits]
      by_cases hfit : t.value < 2 ^ w
      · rw [if_pos hfit]
        exact if_pos (hrest.trans hlen.symm)
      · rw [if_neg hfit]
        exact if_pos (hrest.trans hlen.symm)
    · have hpos := List.length_pos_of_ne_nil hdigits
      have hne : (fillWith t.behind ' ').length ≠ t.tail.length := by omega
      rw [if_neg hdigits]
      by_cases hfit : t.value < 2 ^ w
      · rw [if_pos hfit, if_pos hfit]
        exact if_neg hne
      · rw [if_neg hfit, if_neg hfit]
        exact if_neg hne
  · obtain ⟨hsign, hdigits⟩ := not_or.mp h
    rw [not_not] at hsign hdigits
    have hne : base ≠ 0 := by omega
    rw [number, t.dropWhile_text hbase, if_pos ⟨hsign, hdigits⟩, if_pos hdigits]
    simp [takeSign, takeBase, takeDigits, hne]

/-- What `strtol` makes of it. -/
theorem strtol_text (hb : 2 ≤ base) (hbase : base ≤ 16) : (strtol t.text base).1 =
    if t.value < 2 ^ 63 then (if t.negative then -(t.value : ℤ) else t.value)
    else if t.negative then -2 ^ 63 else 2 ^ 63 - 1 := by
  rw [strtol, t.number_text (by decide) hb hbase]
  by_cases hdigits : t.digits = []
  · have hvalue : t.value = 0 := by rw [value, hdigits, Numeral.value_nil]
    rw [if_pos hdigits, hvalue]
    simp
  · rw [if_neg hdigits]
    by_cases hfit : t.value < 2 ^ 63
    · rw [if_pos hfit, if_pos hfit]
      rfl
    · rw [if_neg hfit, if_neg hfit]
      rfl

/-- What `strtoul` makes of it without a minus. -/
theorem strtoul_text (hb : 2 ≤ base) (hbase : base ≤ 16) (hfit : t.value < 2 ^ 64)
    (hsign : t.negative = false) : (strtoul t.text base).1 = t.value := by
  rw [strtoul, t.number_text (by decide) hb hbase]
  by_cases hdigits : t.digits = []
  · rw [if_pos hdigits, value, hdigits, Numeral.value_nil]
  · rw [if_neg hdigits, if_pos hfit]
    simp [hsign]

end Written

/-! ### What the engine of `printf` writes -/

theorem fillWith_add (m n : ℕ) (c : Char) : fillWith (m + n) c = fillWith m c ++ fillWith n c :=
  List.replicate_add m n (ascii c)

theorem fillWith_zero_eq_map (n : ℕ) (upper : Bool) :
    fillWith n '0' = (List.replicate n 0).map (digitByte upper) := by
  rw [List.map_replicate]
  rfl

theorem exists_filled (spec : Format.Spec) (lead text : List UInt8) : ∃ n z m : ℕ,
    filled spec lead text =
      fillWith n ' ' ++ (lead ++ (fillWith z '0' ++ (text ++ fillWith m ' '))) ∧
    (z ≠ 0 → spec.precision = none) := by
  rw [filled]
  split
  · refine ⟨0, 0, spec.width - (lead.length + text.length), ?_, fun h => absurd rfl h⟩
    rw [List.append_assoc]
    rfl
  · split
    · split
      · next hnone =>
        refine ⟨0, spec.width - (lead.length + text.length), 0, ?_, fun _ => hnone⟩
        rw [List.append_assoc, show fillWith 0 ' ' = [] from rfl, List.append_nil, List.nil_append]
      · refine ⟨0, 0, 0, ?_, fun h => absurd rfl h⟩
        show lead ++ text = lead ++ (text ++ [])
        rw [List.append_nil]
    · refine ⟨spec.width - (lead.length + text.length), 0, 0, ?_, fun h => absurd rfl h⟩
      show _ = _ ++ (lead ++ (text ++ []))
      rw [List.append_nil, List.append_assoc]

variable (d : Directive) (args : Args)

/-- A sign or a space. -/
theorem exists_sign : ∃ (k : ℕ) (sign : Option Bool),
    d.sign args = fillWith k ' ' ++ sign.toList.map
        (fun minus => ascii (if minus then '-' else '+')) ∧
    (sign.getD false = true ↔ d.value args < 0) := by
  rw [Directive.sign]
  split
  · next hunsigned =>
    refine ⟨0, none, rfl, ?_⟩
    rw [Directive.value, if_neg hunsigned]
    exact ⟨fun h => absurd h Bool.false_ne_true,
      fun h => absurd h (Int.not_lt.mpr (Int.natCast_nonneg _))⟩
  · split
    · next hneg => exact ⟨0, some true, rfl, by simp [hneg]⟩
    · next hneg =>
      split
      · exact ⟨0, some false, rfl, by simp [hneg]⟩
      · split
        · exact ⟨1, none, rfl, by simp [hneg]⟩
        · exact ⟨0, none, rfl, by simp [hneg]⟩

/-- A prefix, or a zero. -/
theorem exists_prefix : ∃ (hexPrefix : Option Bool) (o : ℕ),
    (if .alt ∈ d.flags ∧ (d.value args).natAbs ≠ 0 then
      prefixText d.letter.base (d.letter = .X) else []) =
      (match hexPrefix with
        | none => []
        | some upper => [ascii '0', ascii (if upper then 'X' else 'x')]) ++ fillWith o '0' ∧
    (hexPrefix ≠ none → d.letter.base = 16 ∧ d.value args ≠ 0) ∧
    (o ≠ 0 → d.value args ≠ 0) := by
  split
  · next h =>
    have hv := Int.natAbs_ne_zero.mp h.2
    rw [prefixText]
    split
    · next h16 =>
      refine ⟨some (d.letter = .X), 0, ?_, fun _ => ⟨h16, hv⟩, fun h => absurd rfl h⟩
      cases (decide (d.letter = .X))
      · rfl
      · rfl
    · split
      · exact ⟨none, 1, rfl, fun h => absurd rfl h, fun _ => hv⟩
      · exact ⟨none, 0, rfl, fun h => absurd rfl h, fun _ => hv⟩
  · exact ⟨none, 0, rfl, fun h => absurd rfl h, fun h => absurd rfl h⟩

/-- **Every integer is written as a number**, with its value and its sign. Zero has no digit if the
engine takes the precision for 0. -/
theorem exists_written : ∃ t : Written d.letter.base,
    t.text = filled (d.spec args) (d.leadRead args) (d.digitsRead args) ∧
    t.value = (d.value args).natAbs ∧ (t.negative = true ↔ d.value args < 0) ∧
    (t.digits = [] ↔ (d.precisionRead args).getD 1 = 0 ∧ d.value args = 0) := by
  obtain ⟨n, z, m, hfilled, hz⟩ := exists_filled (d.spec args) (d.leadRead args) (d.digitsRead args)
  obtain ⟨k, sign, hsign, hnegative⟩ := exists_sign d args
  obtain ⟨hexPrefix, o, hpfx, h16, ho⟩ := exists_prefix d args
  have hbase : 1 < d.letter.base := Nat.lt_of_lt_of_le (by decide) d.letter.base_ge
  generalize hmissing : (d.precisionRead args).getD 1 -
    (Numeral.digits d.letter.base (d.value args).natAbs).length = j
  have hnil : Numeral.digits d.letter.base (d.value args).natAbs = [] ↔ d.value args = 0 := by
    constructor
    · intro hnil
      by_contra hne
      exact Numeral.digits_ne_nil (Int.natAbs_ne_zero.mpr hne) hnil
    · intro hzero
      rw [hzero, Int.natAbs_zero, Numeral.digits_zero]
  have hread : d.digitsRead args = fillWith j '0' ++ d.plainDigits args := by
    rw [Directive.digitsRead, atLeast, digitText, List.length_map, hmissing]
    rfl
  refine ⟨⟨n + k, sign, hexPrefix, List.replicate (o + z + j) 0 ++
    Numeral.digits d.letter.base (d.value args).natAbs, d.letter = .X, m, ?_, ?_⟩, ?_, ?_,
        hnegative,
    ?_⟩
  · intro i hi
    obtain hi | hi := List.mem_append.mp hi
    · rw [List.eq_of_mem_replicate hi]
      omega
    · exact Numeral.lt_of_mem_digits hbase hi
  · intro hne
    obtain ⟨heq, hv⟩ := h16 hne
    exact ⟨heq, fun happ => hv (hnil.mp (List.append_eq_nil_iff.mp happ).2)⟩
  · rw [hfilled, Directive.leadRead, hsign, hpfx, hread, Written.text, Written.signText,
      Written.prefixText, Written.tail, fillWith_add, List.map_append,
      ← fillWith_zero_eq_map, fillWith_add, fillWith_add]
    simp only [List.append_assoc]
    rfl
  · rw [Written.value, Numeral.value_replicate_zero_append, Numeral.value_digits]
  · show List.replicate (o + z + j) 0 ++ _ = [] ↔ _
    rw [List.append_eq_nil_iff, hnil, List.replicate_eq_nil_iff]
    constructor
    · rintro ⟨hsum, hv⟩
      rw [hnil.mpr hv, List.length_nil] at hmissing
      exact ⟨by omega, hv⟩
    · rintro ⟨hp, hv⟩
      have ho : o = 0 := by
        by_contra hne
        exact ho hne hv
      have hz : z = 0 := by
        by_contra hne
        have hnone : d.precisionRead args = none := hz hne
        rw [hnone] at hp
        exact absurd hp (by decide)
      exact ⟨by omega, hv⟩

/-! ### Reading it back -/

variable {reals : Reals} {fmt rest : List UInt8} {spec : Spec}

/-- The letters that are read in the base that they are written in. -/
def Reads (c : Letter) : Prop := c = .d ∨ c = .u ∨ c = .o ∨ c = .x

theorem conversion_letter (c : Letter) :
    conversion [ascii 'l', c.byte] = some (some ({ width := .long }, c.byte, [])) := by
  cases c <;> simp +decide [conversion, takeSuppress, takeMax, takeModifier]

theorem convert_integer {c : Letter} (hc : Reads c) (spec : Spec) (st : State) :
    Scan.convert reals spec c.byte st =
      if (strtol (st.skip.slice spec.max) c.base).2 = 0 then some (.inr st.skip.stop)
      else if spec.suppress then
        some (.inl (st.skip.advance (strtol (st.skip.slice spec.max) c.base).2))
      else some (.inl ((st.skip.putInt (strtol (st.skip.slice spec.max) c.base).1
        spec.width).advance (strtol (st.skip.slice spec.max) c.base).2)) := by
  have hskip : ¬ (c.byte = ascii 'c' ∨ c.byte = ascii '[' ∨ c.byte = ascii 'n') := by
    obtain rfl | rfl | rfl | rfl := hc <;> decide
  have hn : c.byte ≠ ascii 'n' := fun h => hskip (.inr (.inr h))
  have hchar : c.byte ≠ ascii 'c' := fun h => hskip (.inl h)
  have hs : c.byte ≠ ascii 's' := by cases c <;> decide
  have hset : c.byte ≠ ascii '[' := fun h => hskip (.inr (.inl h))
  have hinteger : c.byte = ascii 'd' ∨ c.byte = ascii 'i' ∨ c.byte = ascii 'u' ∨
      c.byte = ascii 'o' ∨ c.byte = ascii 'x' ∨ c.byte = ascii 'X' ∨ c.byte = ascii 'p' := by
    cases c <;> decide
  have hbase : (if c.byte = ascii 'o' then (8 : ℤ)
      else if c.byte = ascii 'x' ∨ c.byte = ascii 'X' ∨ c.byte = ascii 'p' then 16
      else if c.byte = ascii 'i' then 0 else 10) = c.base := by
    obtain rfl | rfl | rfl | rfl := hc <;> decide
  have hp : c.byte ≠ ascii 'p' := by cases c <;> decide
  rw [Scan.convert]
  dsimp only
  rw [if_neg hskip, if_neg hn, if_neg hchar, if_neg hs, if_neg hset, if_pos hinteger, hbase,
    if_neg hp]

theorem number_dropWhile (w : ℕ) (s : List UInt8) (base : ℤ) :
    number w (s.dropWhile isSpace) base = number w s base := by
  rw [number, List.dropWhile_idempotent, number]

theorem slice_skip {st : State} (h : st.pos + st.input.length ≤ usizeMax) :
    st.skip.slice usizeMax = st.input.dropWhile isSpace := by
  have hlen := congrArg List.length (List.takeWhile_append_dropWhile (p := isSpace) (l := st.input))
  rw [List.length_append] at hlen
  refine List.take_of_length_le ?_
  show (st.input.dropWhile isSpace).length ≤
    min (st.pos + (st.input.takeWhile isSpace).length + usizeMax) usizeMax -
      (st.pos + (st.input.takeWhile isSpace).length)
  omega

/-- **An integer conversion** stores what `strtol` finds, unless nothing is consumed. -/
theorem scan_letter (reals : Reals) (dests : Args) {c : Letter} (hc : Reads c)
    {input : List UInt8} (hlen : input.length ≤ usizeMax) :
    ∃ returned, scan reals input [ascii '%', ascii 'l', c.byte] dests =
      if (strtol (input.dropWhile isSpace) c.base).2 = 0 then some (returned, [])
      else some (1, if dests 0 = 0 then [] else
        [(dests 0, .int 64 (.ofInt 64 (strtol (input.dropWhile isSpace) c.base).1))]) := by
  have hslice : (State.skip ⟨input, 0, 0, false, dests, []⟩).slice usizeMax =
      input.dropWhile isSpace := slice_skip (by rw [Nat.zero_add]; exact hlen)
  refine ⟨(State.skip ⟨input, 0, 0, false, dests, []⟩).stop, ?_⟩
  rw [scan, run_conversion (by rw [List.head?_cons]; decide) (conversion_letter c), convert_integer hc]
  show Option.map _ (Option.bind (if (strtol ((State.skip _).slice usizeMax) _).2 = 0 then _
    else some (Sum.inl (((State.skip _).putInt (strtol ((State.skip _).slice usizeMax) _).1
      .long).advance _))) _) = _
  rw [hslice]
  split
  · rfl
  · rw [Option.bind_some]
    show Option.map _ (run reals [] _) = _
    rw [run]
    rfl

namespace Written

variable {c : Letter} {dests : Args} (t : Written c.base)

theorem base_le (c : Letter) : 2 ≤ c.base ∧ c.base ≤ 16 := by
  cases c <;> decide

/-- Without the spaces in front nothing is consumed exactly if there is no digit. -/
theorem strtol_used : (strtol (t.text.dropWhile isSpace) c.base).2 = 0 ↔ t.digits = [] := by
  rw [strtol, number_dropWhile, t.number_text (by decide) (base_le c).1 (base_le c).2]
  by_cases hdigits : t.digits = []
  · simp [hdigits]
  · have hlen : (t.text.dropWhile isSpace).length = t.signText.length + (t.prefixText.length +
        (t.digits.length + t.behind)) := by
      rw [t.dropWhile_text (base_le c).2, if_neg fun h => hdigits h.2]
      simp [tail]
    have hpos := List.length_pos_of_ne_nil hdigits
    have hrest : (fillWith t.behind ' ').length = t.behind := length_fillWith _ _
    rw [if_neg hdigits]
    by_cases hfit : t.value < 2 ^ 63
    · rw [if_pos hfit]
      show _ - _ = 0 ↔ _
      simp only [hdigits, iff_false]
      omega
    · rw [if_neg hfit]
      show _ - _ = 0 ↔ _
      simp only [hdigits, iff_false]
      omega

end Written

theorem length_filled (spec : Format.Spec) (lead text : List UInt8) :
    (filled spec lead text).length ≤ max spec.width (lead.length + text.length) := by
  rw [filled]
  split
  · simp only [List.length_append, length_fillWith]
    omega
  · split
    · split
      · simp only [List.length_append, length_fillWith]
        omega
      · simp only [List.length_append]
        omega
    · simp only [List.length_append, length_fillWith]
      omega

theorem fieldWidth_le (h : d.SizesFit) : d.fieldWidth args ≤ usizeMax := by
  have hwidth := h.1
  rw [Directive.fieldWidth]
  cases hd : d.width with
  | star =>
    rw [Size.value]
    have hlow := BitVec.le_two_mul_toInt (x := (args 0).setWidth 32)
    have hhigh := BitVec.two_mul_toInt_lt (x := (args 0).setWidth 32)
    rw [usizeMax]
    omega
  | digits ds =>
    rw [hd] at hwidth
    rw [Size.value, Int.natAbs_natCast]
    exact Nat.le_of_lt_succ hwidth

/-- A text that `format` produces is a number, and not too long. -/
theorem exists_written_format {source : Source} {text : List UInt8}
    (h : format source d.text args = some text) : ∃ t : Written d.letter.base,
    t.text = text ∧ text.length ≤ usizeMax ∧
    t.value = (d.value args).natAbs ∧ (t.negative = true ↔ d.value args < 0) ∧
    (t.digits = [] ↔ (d.precisionRead args).getD 1 = 0 ∧ d.value args = 0) := by
  rw [← List.append_nil d.text, format_text, format_nil, Option.map_some, List.append_nil] at h
  split at h
  · next hfits =>
    obtain rfl := Option.some.inj h
    obtain ⟨t, htext, ht⟩ := exists_written d args
    refine ⟨t, htext, (length_filled _ _ _).trans (Nat.max_le.mpr ⟨?_, ?_⟩), ht⟩
    · exact fieldWidth_le d args hfits.1
    · exact Nat.le_of_lt_succ hfits.2
  · cases h

/-- `strtol` reads the value of a signed letter from the text, and `strtoul` that of an unsigned
one. -/
def ReadByNumber (text : List UInt8) : Prop :=
  if d.letter.signed then (strtol text d.letter.base).1 = d.value args
  else ((strtoul text d.letter.base).1 : ℤ) = d.value args

/-- `scan` makes one assignment for the same modifier and letter, and stores the word that was
printed. -/
def ReadByScan (reals : Reals) (text : List UInt8) : Prop :=
  ∀ dests : Args, dests 0 ≠ 0 → scan reals text [ascii '%', ascii 'l', d.letter.byte] dests =
    some (1, [(dests 0, .int 64 (d.sized args 0))])

variable {d args}

theorem value_signed (hlong : d.modifier = .l) (h : d.letter.signed = true) :
    d.value args = (d.sized args 0).toInt := by
  rw [Directive.value, if_pos h, hlong]
  exact congrArg BitVec.toInt (BitVec.setWidth_eq _)

theorem value_unsigned (hlong : d.modifier = .l) (h : d.letter.signed = false) :
    d.value args = (d.sized args 0).toNat := by
  rw [Directive.value, if_neg (by rw [h]; exact Bool.false_ne_true), hlong]
  exact congrArg (fun w : BitVec 64 => (w.toNat : ℤ)) (BitVec.setWidth_eq _)

/-- `strtol` reads every signed value, the least one from a number that is too large. -/
theorem strtol_signed (hlong : d.modifier = .l) (hsigned : d.letter.signed = true)
    {t : Written d.letter.base} (hvalue : t.value = (d.value args).natAbs)
    (hnegative : t.negative = true ↔ d.value args < 0) :
    (strtol t.text d.letter.base).1 = d.value args := by
  have hlow := BitVec.le_two_mul_toInt (x := d.sized args 0)
  have hhigh := BitVec.two_mul_toInt_lt (x := d.sized args 0)
  rw [← value_signed hlong hsigned] at hlow hhigh
  rw [t.strtol_text (Written.base_le _).1 (Written.base_le _).2, hvalue]
  simp only [hnegative]
  split <;> split <;> omega

/-- And what it makes of an unsigned one. -/
theorem strtol_unsigned (hlong : d.modifier = .l) (hsigned : d.letter.signed = false)
    {t : Written d.letter.base} (hvalue : t.value = (d.value args).natAbs)
    (hnegative : t.negative = true ↔ d.value args < 0) :
    (strtol t.text d.letter.base).1 =
      if d.value args < 2 ^ 63 then d.value args else 2 ^ 63 - 1 := by
  have hnonneg : 0 ≤ d.value args := by
    rw [value_unsigned hlong hsigned]
    exact Int.natCast_nonneg _
  rw [t.strtol_text (Written.base_le _).1 (Written.base_le _).2, hvalue]
  simp only [hnegative]
  split <;> split <;> split <;> omega

/-- **`strtol` and `strtoul` read back** what was printed. -/
theorem readByNumber {source : Source} {text : List UInt8} (hlong : d.modifier = .l)
    (h : format source d.text args = some text) : ReadByNumber d args text := by
  obtain ⟨t, rfl, -, hvalue, hnegative, -⟩ := exists_written_format d args h
  rw [ReadByNumber]
  split
  · next hsigned => exact strtol_signed hlong hsigned hvalue hnegative
  · next hsigned =>
    have hword : d.value args = (d.sized args 0).toNat :=
      value_unsigned hlong (Bool.eq_false_iff.mpr hsigned)
    have hlt := (d.sized args 0).isLt
    have hfalse : t.negative = false := Bool.eq_false_iff.mpr fun h => by
      have hneg := hnegative.mp h
      omega
    rw [t.strtoul_text (Written.base_le _).1 (Written.base_le _).2 (by omega) hfalse, hvalue]
    omega

/-- There is a digit, unless zero is printed with a precision of 0 or with a negative one. -/
theorem precisionRead_eq_zero_iff : (d.precisionRead args).getD 1 = 0 ↔
    d.precision? args = some 0 ∨ d.NoPrecision args := by
  cases hp : d.precision? args with
  | some p =>
    rw [d.precisionRead_of_some args hp, Option.getD_some, Option.some.injEq]
    refine (or_iff_left fun hno => ?_).symm
    rw [hno.2] at hp
    cases hp
  | none =>
    rw [d.precisionRead_of_none args hp]
    split
    · next hnone => exact ⟨fun h => absurd h (by decide), fun h => h.elim (fun h => nomatch h)
        fun h => absurd hnone h.1⟩
    · next hsome => exact ⟨fun _ => .inr ⟨hsome, hp⟩, fun _ => rfl⟩

/-- **What was printed is read back** by `strtol` and `strtoul` and by `scan`, exactly if the letter
is signed or the value has a sign bit to spare, and zero is not printed with a precision that is
negative. -/
theorem read_back_exact (source : Source) (reals : Reals) (d : Directive) (args : Args)
    {text : List UInt8} (hlong : d.modifier = .l) (hletter : Reads d.letter)
    (hzero : d.precision? args = some 0 → d.value args ≠ 0)
    (htext : format source d.text args = some text) :
    ReadByNumber d args text ∧ ReadByScan d args reals text ↔
      (d.letter = .d ∨ d.value args < 2 ^ 63) ∧ (d.NoPrecision args → d.value args ≠ 0) := by
  rw [and_iff_right (readByNumber hlong htext)]
  obtain ⟨t, rfl, hlen, hvalue, hnegative, hdigits⟩ := exists_written_format d args htext
  -- no digit stands there exactly if zero is printed with a negative precision
  have hused : (strtol (t.text.dropWhile isSpace) d.letter.base).2 = 0 ↔
      d.NoPrecision args ∧ d.value args = 0 := by
    rw [t.strtol_used, hdigits, precisionRead_eq_zero_iff]
    constructor
    · rintro ⟨hp | hno, hv⟩
      · exact absurd hv (hzero hp)
      · exact ⟨hno, hv⟩
    · rintro ⟨hno, hv⟩
      exact ⟨.inr hno, hv⟩
  have hfound : (strtol (t.text.dropWhile isSpace) d.letter.base).1 =
      (strtol t.text d.letter.base).1 := by
    rw [strtol, strtol, number_dropWhile]
    split <;> rfl
  -- the word that is stored
  have hstored : BitVec.ofInt 64 (strtol t.text d.letter.base).1 = d.sized args 0 ↔
      d.letter = .d ∨ d.value args < 2 ^ 63 := by
    cases hsigned : d.letter.signed with
    | true =>
      have hd : d.letter = .d := by
        obtain h | h | h | h := hletter
        · exact h
        all_goals
          rw [h] at hsigned
          cases hsigned
      rw [strtol_signed hlong hsigned hvalue hnegative, value_signed hlong hsigned,
        BitVec.ofInt_toInt]
      exact iff_of_true rfl (.inl hd)
    | false =>
      have hd : d.letter ≠ .d := fun h => by
        rw [h] at hsigned
        cases hsigned
      rw [strtol_unsigned hlong hsigned hvalue hnegative, or_iff_right hd]
      split
      · next hlt =>
        rw [value_unsigned hlong hsigned] at hlt ⊢
        rw [BitVec.ofInt_natCast, BitVec.ofNat_toNat, BitVec.setWidth_eq]
        exact iff_of_true rfl hlt
      · next hge =>
        refine iff_of_false (fun heq => hge ?_) hge
        rw [value_unsigned hlong hsigned, ← heq, BitVec.toNat_ofInt]
        norm_num
  constructor
  · intro hscan
    obtain ⟨returned, hread⟩ := scan_letter reals (fun _ => 1) hletter hlen
    rw [hscan (fun _ => 1) (by decide)] at hread
    split at hread
    · cases hread
    · next hne =>
      rw [if_neg (by decide), hfound] at hread
      obtain ⟨-, hword⟩ := Prod.mk.inj (Option.some.inj hread)
      obtain ⟨-, hword⟩ := Prod.mk.inj (List.head_eq_of_cons_eq hword)
      injection hword with _ hword
      exact ⟨hstored.mp hword.symm, fun hno hv => hne (hused.mpr ⟨hno, hv⟩)⟩
  · rintro ⟨hfits, hno⟩ dests hdest
    obtain ⟨returned, hread⟩ := scan_letter reals dests hletter hlen
    rw [hread, if_neg fun h => hno (hused.mp h).1 (hused.mp h).2, if_neg hdest, hfound,
      hstored.mpr hfits]

/-- `%lu` of 5. -/
theorem read_back_exact_five :
    let d : Directive := ⟨[], .digits [], none, .l, .u, by rintro _ ⟨⟩; decide⟩
    let reals : Reals := ⟨fun _ => 0, fun _ => 0⟩
    ReadByNumber d (fun _ => 5) [ascii '5'] ∧ ReadByScan d (fun _ => 5) reals [ascii '5'] ↔
      (d.letter = .d ∨ d.value (fun _ => 5) < 2 ^ 63) ∧
        (d.NoPrecision (fun _ => 5) → d.value (fun _ => 5) ≠ 0) :=
  read_back_exact ⟨fun _ => [], fun _ _ => []⟩ _ _ _ rfl (.inr (.inl rfl)) (fun h => nomatch h)
    (by decide +kernel)

/-- `%lu` of the largest word is stored by `scan` without its uppermost bit. -/
theorem scan_large : ¬ ∀ (source : Source) (reals : Reals) (text : List UInt8),
    let d : Directive := ⟨[], .digits [], none, .l, .u, by rintro _ ⟨⟩; decide⟩
    format source d.text (fun _ => -1) = some text →
      ReadByNumber d (fun _ => -1) text ∧ ReadByScan d (fun _ => -1) reals text := by
  intro hall
  have hscan := (hall ⟨fun _ => [], fun _ _ => []⟩ ⟨fun _ => 0, fun _ => 0⟩
    ("18446744073709551615".toList.map ascii) (by decide +kernel)).2 (fun _ => 1) (by decide)
  have hread : scan ⟨fun _ => 0, fun _ => 0⟩ ("18446744073709551615".toList.map ascii)
      ("%lu".toList.map ascii) (fun _ => 1) = some (1, [(1, .int 64 0x7fffffffffffffff)]) := by
    decide +kernel
  exact absurd (hread.symm.trans hscan) (by decide +kernel)

end Scan

end StarOS
