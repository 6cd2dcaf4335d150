import StarOS.Libc.Format

/-!
# Integer conversions

What C says of the conversions `d`, `i`, `u`, `o`, `x` and `X`, and when the engine does it.

A directive is its flags, a width, a precision, a length modifier and a letter. Width and precision
are written out or taken from an argument. C's result is put together from the sign, the prefix and
the digits of the value; the engine's is what `format` makes of the directive's text.

## Main definitions

* `Format.Directive`, `Format.Directive.text`
* `Format.Directive.output` — the result that C prescribes
* `Format.Directive.Spared` — the directives that the engine gets right

## Main results

* `Format.directive_text` — the engine reads the directive that was written
* `Format.format_text` — what it makes of it
* `Format.conversion_exact`
-/

namespace StarOS

namespace Format

open Checked

/-! ### What C says -/

/-- The flags. -/
inductive Flag
  | minus
  | zero
  | plus
  | space
  | alt
  deriving DecidableEq

def Flag.byte : Flag → UInt8
  | .minus => ascii '-'
  | .zero => ascii '0'
  | .plus => ascii '+'
  | .space => ascii ' '
  | .alt => ascii '#'

/-- A width or a precision: an argument, or digits. -/
inductive Size
  | star
  | digits (ds : List (Fin 10))

def Size.text : Size → List UInt8
  | .star => [ascii '*']
  | .digits ds => ds.map fun d => digitByte false d.val

/-- The number, from an `int` or from the digits. -/
def Size.value (args : Args) : Size → ℤ
  | .star => ((args 0).setWidth 32).toInt
  | .digits ds => Numeral.value 10 (ds.map (·.val))

/-- The arguments behind it. -/
def Size.rest (args : Args) : Size → Args
  | .star => args.rest
  | .digits _ => args

/-- The length modifiers of integer conversions. -/
inductive Modifier
  | plain
  | hh
  | h
  | l
  | ll
  | j
  | z
  | t
  deriving DecidableEq

def Modifier.text : Modifier → List UInt8
  | .plain => []
  | .hh => [ascii 'h', ascii 'h']
  | .h => [ascii 'h']
  | .l => [ascii 'l']
  | .ll => [ascii 'l', ascii 'l']
  | .j => [ascii 'j']
  | .z => [ascii 'z']
  | .t => [ascii 't']

/-- How wide the type is that a modifier stands for. -/
def Modifier.bits : Modifier → ℕ
  | .hh => 8
  | .h => 16
  | .plain => 32
  | .l | .ll | .j | .z | .t => 64

/-- The letters of integer conversions. -/
inductive Letter
  | d
  | i
  | u
  | o
  | x
  | X
  deriving DecidableEq

def Letter.byte : Letter → UInt8
  | .d => ascii 'd'
  | .i => ascii 'i'
  | .u => ascii 'u'
  | .o => ascii 'o'
  | .x => ascii 'x'
  | .X => ascii 'X'

def Letter.signed : Letter → Bool
  | .d | .i => true
  | .u | .o | .x | .X => false

def Letter.base : Letter → ℕ
  | .d | .i | .u => 10
  | .o => 8
  | .x | .X => 16

/-- A directive for an integer. -/
structure Directive where
  flags : List Flag
  width : Size
  precision : Option Size
  modifier : Modifier
  letter : Letter
  /-- A zero in front of a width would be a flag. -/
  width_head : ∀ ds, width = .digits ds → ds.head? ≠ some 0

namespace Directive

variable (d : Directive) (args : Args)

/-- What stands behind the width. -/
def precisionText : List UInt8 :=
  match d.precision with
  | none => []
  | some p => ascii '.' :: p.text

/-- How a directive is written. -/
def text : List UInt8 :=
  ascii '%' :: (d.flags.map Flag.byte ++ (d.width.text ++ (d.precisionText ++
    (d.modifier.text ++ [d.letter.byte]))))

/-- The side: the left one with `-`, or with a negative width. -/
def OnLeft : Prop := .minus ∈ d.flags ∨ d.width.value args < 0

instance : Decidable (d.OnLeft args) := inferInstanceAs (Decidable (_ ∨ _))

/-- The least number of characters. -/
def fieldWidth : ℕ := (d.width.value args).natAbs

/-- The precision. A negative one is as if there were none. -/
def precision? : Option ℕ :=
  match d.precision with
  | none => none
  | some p =>
    if p.value (d.width.rest args) < 0 then none else some (p.value (d.width.rest args)).toNat

/-- The arguments behind the width and the precision. -/
def sized : Args :=
  match d.precision with
  | none => d.width.rest args
  | some p => p.rest (d.width.rest args)

/-- The arguments behind the directive. -/
def rest : Args := (d.sized args).rest

/-- The value, as the type that the modifier and the letter stand for. -/
def value : ℤ :=
  if d.letter.signed then ((d.sized args 0).setWidth d.modifier.bits).toInt
  else ((d.sized args 0).setWidth d.modifier.bits).toNat

/-- A signed conversion puts a sign, or a space for it. -/
def sign : List UInt8 :=
  if ¬ d.letter.signed then []
  else if d.value args < 0 then [ascii '-']
  else if .plus ∈ d.flags then [ascii '+']
  else if .space ∈ d.flags then [ascii ' ']
  else []

/-- The digits of the value, with zeros up to the precision. Without a precision there is at least
one digit. -/
def digits : List UInt8 :=
  atLeast ((d.precision? args).getD 1)
    (digitText (d.letter = .X) d.letter.base (d.value args).natAbs)

/-- With `#` a hexadecimal value other than zero has a prefix. -/
def hexPrefix : List UInt8 :=
  if .alt ∈ d.flags ∧ d.letter.base = 16 ∧ d.value args ≠ 0 then
    [ascii '0', ascii (if d.letter = .X then 'X' else 'x')]
  else []

/-- With `#` an octal value begins with a zero. -/
def magnitude : List UInt8 :=
  if .alt ∈ d.flags ∧ d.letter = .o ∧ (d.digits args).head? ≠ some (ascii '0') then
    ascii '0' :: d.digits args
  else d.digits args

/-- Sign and prefix. -/
def lead : List UInt8 := d.sign args ++ d.hexPrefix args

/-- How much is missing to the width. -/
def missing : ℕ := d.fieldWidth args - ((d.lead args).length + (d.magnitude args).length)

/-- **The result that C prescribes.** It is filled up with spaces, or behind sign and prefix with
zeros if `0` asks for it; `-` and a precision overrule `0`. -/
def output : List UInt8 :=
  if d.OnLeft args then d.lead args ++ d.magnitude args ++ fillWith (d.missing args) ' '
  else if .zero ∈ d.flags ∧ d.precision? args = none then
    d.lead args ++ fillWith (d.missing args) '0' ++ d.magnitude args
  else fillWith (d.missing args) ' ' ++ d.lead args ++ d.magnitude args

end Directive

/-! ### What the engine reads -/

/-- The length that the engine takes a modifier for. -/
def Modifier.length : Modifier → Option Length
  | .plain => none
  | .hh => some .char
  | .h => some .short
  | .l => some .long
  | .ll | .j => some .longLong
  | .z | .t => some .size

/-- A flag in a spec. -/
def Spec.flag (spec : Spec) : Flag → Spec
  | .minus => { spec with left := true }
  | .zero => { spec with zero := true }
  | .plus => { spec with plus := true }
  | .space => { spec with space := true }
  | .alt => { spec with alt := true }

/-- A spec with these flags and nothing else. -/
def Spec.ofFlags (flags : List Flag) : Spec :=
  { left := .minus ∈ flags, zero := .zero ∈ flags, plus := .plus ∈ flags, space := .space ∈ flags,
    alt := .alt ∈ flags }

/-- The precision that the engine takes. -/
def Directive.precisionRead (d : Directive) (args : Args) : Option ℕ :=
  d.precision.map fun p => (max (p.value (d.width.rest args)) 0).toNat

/-- The spec that the engine makes of a directive. -/
def Directive.spec (d : Directive) (args : Args) : Spec :=
  { Spec.ofFlags d.flags with
    left := d.OnLeft args
    width := d.fieldWidth args
    precision := d.precisionRead args
    length := d.modifier.length }

/-- A number that was written out fits an integer. -/
def Size.Fits : Size → Prop
  | .star => True
  | .digits ds => Numeral.value 10 (ds.map (·.val)) < 2 ^ 64

instance : (s : Size) → Decidable s.Fits
  | .star => inferInstanceAs (Decidable True)
  | .digits _ => inferInstanceAs (Decidable (_ < _))

/-- The numbers of a directive fit. -/
def Directive.SizesFit (d : Directive) : Prop := d.width.Fits ∧ ∀ p ∈ d.precision, p.Fits

instance (d : Directive) : Decidable d.SizesFit := inferInstanceAs (Decidable (_ ∧ _))

/-- The bytes a modifier and a letter are made of. -/
def letters : List UInt8 := "hljztdiuoxX".toList.map ascii

variable {spec : Spec} {fmt rest : List UInt8} {args : Args} {b : UInt8}

instance (p : Flag → Prop) [DecidablePred p] : Decidable (∀ f, p f) :=
  decidable_of_iff (p .minus ∧ p .zero ∧ p .plus ∧ p .space ∧ p .alt)
    ⟨fun h f => by cases f <;> simp [h], fun h => ⟨h _, h _, h _, h _, h _⟩⟩

/-- A byte that is no flag, and no `%` either. -/
def Behind (b : UInt8) : Prop := b ≠ ascii '%' ∧ ∀ f : Flag, b ≠ f.byte

instance (b : UInt8) : Decidable (Behind b) := inferInstanceAs (Decidable (_ ∧ _))

theorem letters_apart : ∀ b ∈ letters, isAsciiDigit b = false ∧ b ≠ ascii '.' ∧ b ≠ ascii '*' ∧
    Behind b := by
  decide +kernel

theorem Flag.byte_ne (f : Flag) : f.byte ≠ ascii '%' := by
  cases f <;> decide

theorem takeFlags_byte (f : Flag) : takeFlags spec (f.byte :: fmt) = takeFlags (spec.flag f)
    fmt := by
  cases f <;> rfl

theorem takeFlags_of_not_flag (h : ∀ f : Flag, b ≠ f.byte) :
    takeFlags spec (b :: fmt) = (spec, b :: fmt) := by
  have hminus : b ≠ ascii '-' := h .minus
  have hzero : b ≠ ascii '0' := h .zero
  have hplus : b ≠ ascii '+' := h .plus
  have hspace : b ≠ ascii ' ' := h .space
  have halt : b ≠ ascii '#' := h .alt
  rw [takeFlags, if_neg hminus, if_neg hzero, if_neg hplus, if_neg hspace, if_neg halt]

/-- **Flags** are read in any order and any number. -/
theorem takeFlags_map (flags : List Flag) (h : ∀ f : Flag, b ≠ f.byte) :
    takeFlags {} (flags.map Flag.byte ++ b :: fmt) = (Spec.ofFlags flags, b :: fmt) := by
  suffices hall : ∀ done, takeFlags (Spec.ofFlags done) (flags.map Flag.byte ++ b :: fmt) =
      (Spec.ofFlags (done ++ flags), b :: fmt) from hall []
  induction flags with
  | nil =>
    intro done
    rw [List.append_nil]
    exact takeFlags_of_not_flag h
  | cons f flags ih =>
    intro done
    have hflag : (Spec.ofFlags done).flag f = Spec.ofFlags (done ++ [f]) := by
      cases f <;> simp [Spec.flag, Spec.ofFlags]
    rw [List.map_cons, List.cons_append, takeFlags_byte, hflag, ih, List.append_assoc]
    rfl

theorem digitByte_fin : ∀ d : Fin 10, isAsciiDigit (digitByte false d) = true ∧
    (digitByte false d - ascii '0').toNat = d ∧ digitByte false d ≠ ascii '*' ∧
    (d ≠ 0 → Behind (digitByte false d)) := by
  decide

/-- **Digits** are read to their end. -/
theorem takeNumber_map (ds : List (Fin 10)) (hb : isAsciiDigit b = false) (n : ℕ) :
    takeNumber n (ds.map (fun d => digitByte false d.val) ++ b :: fmt) =
      (Numeral.read 64 10 n (ds.map (·.val))).map (·, b :: fmt) := by
  induction ds generalizing n with
  | nil =>
    rw [List.map_nil, List.nil_append, takeNumber, if_neg (by simp [hb]), List.map_nil,
      Numeral.read]
    rfl
  | cons d ds ih =>
    obtain ⟨hdigit, hvalue, -⟩ := digitByte_fin d
    rw [List.map_cons, List.cons_append, takeNumber, if_pos hdigit, hvalue, List.map_cons,
      Numeral.read]
    simp only [Option.bind_eq_bind, ih]
    cases checkedMul 64 n 10 with
    | none => rfl
    | some m => cases h : checkedAdd 64 m d <;> simp [h]

/-- Reading a number that fits. -/
theorem takeNumber_digits (ds : List (Fin 10)) (hb : isAsciiDigit b = false) :
    takeNumber 0 (ds.map (fun d => digitByte false d.val) ++ b :: fmt) =
      if (Size.digits ds).Fits then some (Numeral.value 10 (ds.map (·.val)), b :: fmt)
      else none := by
  rw [takeNumber_map ds hb, Numeral.read_eq (by decide) (by decide), Nat.zero_mul, Nat.zero_add]
  show _ = if Numeral.value 10 (ds.map (·.val)) < 2 ^ 64 then _ else none
  split <;> rfl

/-- Narrowing what was promoted. -/
theorem setWidth_signExtend (w : BitVec 64) {n : ℕ} (hn : n ≤ 32) :
    ((w.setWidth 32).signExtend 64).setWidth n = w.setWidth n := by
  refine BitVec.eq_of_getLsbD_eq fun i hi => ?_
  simp only [BitVec.getLsbD_setWidth, BitVec.getLsbD_signExtend]
  have h32 : i < 32 := by omega
  have h64 : i < 64 := by omega
  simp [hi, h32, h64]

theorem setWidth_setWidth (w : BitVec 64) {n : ℕ} (hn : n ≤ 32) :
    ((w.setWidth 32).setWidth 64).setWidth n = w.setWidth n := by
  refine BitVec.eq_of_getLsbD_eq fun i hi => ?_
  have h32 : i < 32 := by omega
  have h64 : i < 64 := by omega
  simp [hi, h32, h64]

theorem toInt_int (args : Args) : (args.int .int).toInt = Size.star.value args := by
  rw [Args.int, narrowSigned, BitVec.toInt_signExtend_of_le (by decide),
    setWidth_signExtend _ (by decide), Size.value]

/-- **The width.** -/
theorem takeWidth_text (s : Size) (hb : b ≠ ascii '*' ∧ isAsciiDigit b = false) :
    takeWidth spec (s.text ++ b :: fmt) args =
      if s.Fits then
        some ({ spec with
          left := spec.left || decide (s.value args < 0), width := (s.value args).natAbs },
            b :: fmt, s.rest args)
      else none := by
  cases s with
  | star =>
    have hfits : Size.star.Fits := trivial
    rw [if_pos hfits, Size.text, takeWidth, if_pos (by rfl), toInt_int]
    generalize Size.star.value args = w
    by_cases hneg : w < 0
    · simp [hneg, Size.rest]
    · have hnat : w.toNat = w.natAbs := by omega
      simp [hneg, hnat, Size.rest]
  | digits ds =>
    have hhead : ((Size.digits ds).text ++ b :: fmt).head? ≠ some (ascii '*') := by
      cases ds with
      | nil => exact fun h => hb.1 (Option.some.inj h)
      | cons d ds => exact fun h => (digitByte_fin d).2.2.1 (Option.some.inj h)
    have hpos : ¬ (Numeral.value 10 (ds.map (·.val)) : ℤ) < 0 := by omega
    rw [takeWidth, if_neg hhead, Size.text, takeNumber_digits ds hb.2]
    split <;> simp [Size.value, Size.rest, hpos]

/-- The number behind a point. -/
theorem takePrecision_point (p : Size) (hb : b ≠ ascii '*' ∧ isAsciiDigit b = false) :
    takePrecision spec (ascii '.' :: (p.text ++ b :: fmt)) args =
      if p.Fits then
        some ({ spec with precision := some (max (p.value args) 0).toNat }, b :: fmt, p.rest args)
      else none := by
  rw [takePrecision, List.head?_cons, if_pos rfl, List.tail_cons]
  cases p with
  | star =>
    have hfits : Size.star.Fits := trivial
    have hhead : (Size.star.text ++ b :: fmt).head? = some (ascii '*') := rfl
    dsimp only
    rw [if_pos hfits, if_pos hhead, toInt_int]
    rfl
  | digits ds =>
    have hhead : ((Size.digits ds).text ++ b :: fmt).head? ≠ some (ascii '*') := by
      cases ds with
      | nil => exact fun h => hb.1 (Option.some.inj h)
      | cons d ds => exact fun h => (digitByte_fin d).2.2.1 (Option.some.inj h)
    dsimp only
    rw [if_neg hhead, Size.text, takeNumber_digits ds hb.2]
    split <;> simp [Size.value, Size.rest]

/-- **The precision.** -/
theorem takePrecision_text (d : Directive) (hspec : spec.precision = none)
    (hb : b ≠ ascii '.' ∧ b ≠ ascii '*' ∧ isAsciiDigit b = false) :
    takePrecision spec (d.precisionText ++ b :: fmt) (d.width.rest args) =
      if ∀ p ∈ d.precision, p.Fits then
        some ({ spec with precision := d.precisionRead args }, b :: fmt, d.sized args)
      else none := by
  rw [Directive.precisionText, Directive.precisionRead, Directive.sized]
  cases d.precision with
  | none =>
    rw [takePrecision, List.nil_append, List.head?_cons, if_neg fun h => hb.1 (Option.some.inj h),
      if_pos (by simp)]
    simp [← hspec]
  | some p =>
    have hfits : (∀ q ∈ some p, q.Fits) ↔ p.Fits :=
      ⟨fun h => h p rfl, fun h q hq => Option.some.inj hq ▸ h⟩
    refine (takePrecision_point p hb.2).trans ?_
    simp only [hfits, Option.map_some]

theorem takeLength_h : takeLength spec (ascii 'h' :: fmt) = takeLength { spec with
    length := some (if spec.length = some .short then .char else .short) } fmt := by
  rw [takeLength, if_pos rfl]

theorem takeLength_l : takeLength spec (ascii 'l' :: fmt) = takeLength { spec with
    length := some (if spec.length = some .long then .longLong else .long) } fmt := by
  rw [takeLength, if_neg (by decide), if_pos rfl]

theorem takeLength_letter (c : Letter) :
    takeLength spec (c.byte :: rest) = (spec, c.byte :: rest) := by
  cases c <;> rfl

/-- **The length modifier.** -/
theorem takeLength_text (m : Modifier) (c : Letter) (hspec : spec.length = none) :
    takeLength spec (m.text ++ c.byte :: rest) =
      ({ spec with length := m.length }, c.byte :: rest) := by
  cases m with
  | plain => rw [Modifier.text, List.nil_append, takeLength_letter, Modifier.length, ← hspec]
  | hh =>
    show takeLength spec (ascii 'h' :: ascii 'h' :: c.byte :: rest) = _
    rw [takeLength_h, takeLength_h, takeLength_letter, hspec]
    rfl
  | h =>
    show takeLength spec (ascii 'h' :: c.byte :: rest) = _
    rw [takeLength_h, takeLength_letter, hspec]
    rfl
  | l =>
    show takeLength spec (ascii 'l' :: c.byte :: rest) = _
    rw [takeLength_l, takeLength_letter, hspec]
    rfl
  | ll =>
    show takeLength spec (ascii 'l' :: ascii 'l' :: c.byte :: rest) = _
    rw [takeLength_l, takeLength_l, takeLength_letter, hspec]
    rfl
  | j | z | t =>
    show takeLength _ (c.byte :: rest) = _
    rw [takeLength_letter]
    rfl

/-! Each part of a directive ends where the next begins: none of them can begin with a byte that the
one before it would take. -/

theorem exists_modifier_head (m : Modifier) (c : Letter) (rest : List UInt8) :
    ∃ b fmt, m.text ++ c.byte :: rest = b :: fmt ∧ b ∈ letters := by
  cases m <;> cases c <;> exact ⟨_, _, rfl, by decide⟩

theorem exists_precision_head (d : Directive) (rest : List UInt8) :
    ∃ b fmt, d.precisionText ++ (d.modifier.text ++ d.letter.byte :: rest) = b :: fmt ∧
      b ≠ ascii '*' ∧ isAsciiDigit b = false ∧ Behind b := by
  rw [Directive.precisionText]
  cases d.precision with
  | none =>
    obtain ⟨b, fmt, htext, hb⟩ := exists_modifier_head d.modifier d.letter rest
    obtain ⟨hdigit, -, hstar, hflag⟩ := letters_apart b hb
    exact ⟨b, fmt, htext, hstar, hdigit, hflag⟩
  | some p =>
    exact ⟨ascii '.', _, rfl, by decide, by decide, by decide⟩

theorem exists_width_head (d : Directive) (rest : List UInt8) :
    ∃ b fmt, d.width.text ++ (d.precisionText ++ (d.modifier.text ++ d.letter.byte :: rest)) =
      b :: fmt ∧ Behind b := by
  cases hwidth : d.width with
  | star =>
    exact ⟨ascii '*', _, rfl, by decide⟩
  | digits ds =>
    cases ds with
    | nil =>
      obtain ⟨b, fmt, htext, -, -, hflag⟩ := exists_precision_head d rest
      exact ⟨b, fmt, htext, hflag⟩
    | cons n ds =>
      have hn : n ≠ 0 := fun h0 => d.width_head _ hwidth (congrArg some h0)
      exact ⟨digitByte false n, _, rfl, (digitByte_fin n).2.2.2 hn⟩

theorem exists_text_head (d : Directive) (rest : List UInt8) :
    ∃ b fmt, d.flags.map Flag.byte ++ (d.width.text ++ (d.precisionText ++
      (d.modifier.text ++ d.letter.byte :: rest))) = b :: fmt ∧ b ≠ ascii '%' := by
  cases d.flags with
  | nil =>
    obtain ⟨b, fmt, htext, hb⟩ := exists_width_head d rest
    exact ⟨b, fmt, htext, hb.1⟩
  | cons f flags => exact ⟨f.byte, _, rfl, f.byte_ne⟩

/-- **The engine reads the directive that was written**, if its numbers fit an integer. -/
theorem directive_text (d : Directive) (args : Args) (rest : List UInt8) :
    directive (d.flags.map Flag.byte ++ (d.width.text ++ (d.precisionText ++
        (d.modifier.text ++ d.letter.byte :: rest)))) args =
      if d.SizesFit then some (d.spec args, d.letter.byte :: rest, d.sized args) else none := by
  obtain ⟨b, fmt, htext, hflag⟩ := exists_width_head d rest
  rw [directive, htext, takeFlags_map d.flags hflag.2, ← htext]
  obtain ⟨b₁, fmt₁, htext₁, hstar₁, hdigit₁, -⟩ := exists_precision_head d rest
  dsimp only
  rw [htext₁, takeWidth_text d.width ⟨hstar₁, hdigit₁⟩, ← htext₁]
  by_cases hwidth : d.width.Fits
  · obtain ⟨b₂, fmt₂, htext₂, hb₂⟩ := exists_modifier_head d.modifier d.letter rest
    obtain ⟨hdigit₂, hpoint₂, hstar₂, -⟩ := letters_apart b₂ hb₂
    rw [if_pos hwidth, Option.bind_eq_bind, Option.bind_some]
    dsimp only
    rw [htext₂, takePrecision_text d rfl ⟨hpoint₂, hstar₂, hdigit₂⟩, ← htext₂]
    by_cases hprecision : ∀ p ∈ d.precision, p.Fits
    · rw [if_pos hprecision, if_pos ⟨hwidth, hprecision⟩, Option.bind_some]
      dsimp only
      rw [takeLength_text d.modifier d.letter rfl]
      simp only [Directive.spec, Spec.ofFlags, Directive.OnLeft, Directive.fieldWidth]
      rw [← Bool.decide_or]
      rfl
    · rw [if_neg hprecision, if_neg fun h => hprecision h.2]
      rfl
  · rw [if_neg hwidth, if_neg fun h => hwidth h.1]
    rfl

/-! ### What the engine writes -/

theorem toInt_modifier (m : Modifier) (args : Args) :
    (args.int (m.length.getD .int)).toInt = ((args 0).setWidth m.bits).toInt := by
  cases m with
  | hh | h | plain =>
    simp only [Modifier.length, Modifier.bits, Option.getD_some, Option.getD_none, Args.int,
      narrowSigned]
    rw [BitVec.toInt_signExtend_of_le (by decide), setWidth_signExtend _ (by decide)]
  | _ => exact congrArg BitVec.toInt (BitVec.setWidth_eq _).symm

theorem toNat_modifier (m : Modifier) (args : Args) :
    (args.uint (m.length.getD .int)).toNat = ((args 0).setWidth m.bits).toNat := by
  cases m with
  | hh | h | plain =>
    simp only [Modifier.length, Modifier.bits, Option.getD_some, Option.getD_none, Args.uint,
      narrowUnsigned]
    rw [BitVec.toNat_setWidth_of_le (by decide), setWidth_setWidth _ (by decide)]
  | _ => exact congrArg BitVec.toNat (BitVec.setWidth_eq _).symm

variable (d : Directive) (args : Args)

/-- Sign and prefix as the engine writes them, where the zero of an octal number is one. -/
def Directive.leadRead : List UInt8 :=
  d.sign args ++ if .alt ∈ d.flags ∧ (d.value args).natAbs ≠ 0 then
    prefixText d.letter.base (d.letter = .X) else []

/-- The digits as the engine writes them. -/
def Directive.digitsRead : List UInt8 :=
  atLeast ((d.precisionRead args).getD 1)
    (digitText (d.letter = .X) d.letter.base (d.value args).natAbs)

theorem Letter.base_ge (c : Letter) : 8 ≤ c.base := by
  cases c <;> decide

theorem Directive.natAbs_value_lt : (d.value args).natAbs < 2 ^ 64 := by
  have hbits : d.modifier.bits ≤ 64 := by cases d.modifier <;> decide
  rw [value]
  split
  · have hpow : (2 : ℤ) ^ d.modifier.bits ≤ 2 ^ 64 := by
      exact_mod_cast Nat.pow_le_pow_right (n := 2) (by decide) hbits
    have hlow := BitVec.le_two_mul_toInt (x := (d.sized args 0).setWidth d.modifier.bits)
    have hhigh := BitVec.two_mul_toInt_lt (x := (d.sized args 0).setWidth d.modifier.bits)
    omega
  · have hlt := ((d.sized args 0).setWidth d.modifier.bits).isLt
    have hpow : 2 ^ d.modifier.bits ≤ 2 ^ 64 := Nat.pow_le_pow_right (by decide) hbits
    rw [Int.natAbs_natCast]
    exact hlt.trans_le hpow

theorem toList_signOf (v : ℤ) : (signOf (d.spec args) v).toList =
    if v < 0 then [ascii '-'] else if .plus ∈ d.flags then [ascii '+']
    else if .space ∈ d.flags then [ascii ' '] else [] := by
  rw [signOf]
  split
  · rfl
  · simp only [Directive.spec, Spec.ofFlags, decide_eq_true_eq]
    split
    · rfl
    · split <;> rfl

/-- **What the engine makes of an integer.** -/
theorem convert_letter (source : Source) :
    convert source (d.spec args) d.letter.byte (d.sized args) =
      (if (d.leadRead args).length + (d.digitsRead args).length < 2 ^ 64 then
        some (filled (d.spec args) (d.leadRead args) (d.digitsRead args), d.rest args)
      else none).map fun r => (some r.1, r.2) := by
  -- every letter comes down to `integer`, with its own base, sign and prefix
  have hinteger : ∀ (v : ℕ) (sign : Option UInt8) (hasPrefix : Bool), v = (d.value args).natAbs →
      sign.toList = d.sign args →
      (if hasPrefix ∧ v ≠ 0 then prefixText d.letter.base (d.letter = .X) else []) =
        (if .alt ∈ d.flags ∧ (d.value args).natAbs ≠ 0 then
          prefixText d.letter.base (d.letter = .X) else []) →
      integer (d.spec args) v d.letter.base (d.letter = .X) sign hasPrefix =
        if (d.leadRead args).length + (d.digitsRead args).length < 2 ^ 64 then
          some (filled (d.spec args) (d.leadRead args) (d.digitsRead args)) else none := by
    rintro v sign hasPrefix rfl hsign hpfx
    refine integer_eq (d.spec args) d.letter.base_ge (d.natAbs_value_lt args) ?_ rfl
    rw [hsign, hpfx]
    rfl
  cases hletter : d.letter with
  | d | i =>
    have hvalue : ((d.sized args).int (d.modifier.length.getD .int)).toInt = d.value args := by
      rw [toInt_modifier, Directive.value, if_pos (by rw [hletter]; rfl)]
    have hsign : (signOf (d.spec args) (d.value args)).toList = d.sign args := by
      have hsigned : ¬ ¬ d.letter.signed = true := by rw [hletter]; decide
      rw [toList_signOf, Directive.sign, if_neg hsigned]
    have hout := hinteger _ _ false rfl hsign (by rw [hletter]; simp [prefixText, Letter.base])
    rw [hletter] at hout
    show (do
      let out ← integer (d.spec args)
        ((d.sized args).int (d.modifier.length.getD .int)).toInt.natAbs 10 false
        (signOf (d.spec args) ((d.sized args).int (d.modifier.length.getD .int)).toInt) false
      some (some out, d.rest args)) = _
    rw [hvalue]
    refine (congrArg (Option.bind · _) hout).trans ?_
    split <;> rfl
  | u | o | x | X =>
    have hvalue : ((d.sized args).uint (d.modifier.length.getD .int)).toNat =
        (d.value args).natAbs := by
      rw [toNat_modifier, Directive.value, if_neg (by rw [hletter]; decide), Int.natAbs_natCast]
    have hsign : (none : Option UInt8).toList = d.sign args := by
      rw [Directive.sign, if_pos (by rw [hletter]; decide)]
      rfl
    have hout := hinteger _ none (if d.letter = .u then false else .alt ∈ d.flags) hvalue hsign
      (by simp [hletter, hvalue, prefixText, Letter.base])
    rw [hletter] at hout
    show (do
      let out ← integer (d.spec args) ((d.sized args).uint (d.modifier.length.getD .int)).toNat
        _ _ none _
      some (some out, d.rest args)) = _
    refine (congrArg (Option.bind · _) hout).trans ?_
    split <;> rfl

/-- **A directive in a format**: what the engine makes of its text, whatever stands behind it. -/
theorem format_text (source : Source) (d : Directive) (args : Args) (rest : List UInt8) :
    format source (d.text ++ rest) args =
      if d.SizesFit ∧ (d.leadRead args).length + (d.digitsRead args).length < 2 ^ 64 then
        (format source rest (d.rest args)).map
          (filled (d.spec args) (d.leadRead args) (d.digitsRead args) ++ ·)
      else none := by
  obtain ⟨b, fmt, htext, hb⟩ := exists_text_head d rest
  have hread := directive_text d args rest
  rw [htext] at hread
  have hall : d.text ++ rest = ascii '%' :: b :: fmt := by
    rw [← htext, Directive.text]
    simp
  rw [hall]
  by_cases hsizes : d.SizesFit
  · rw [if_pos hsizes] at hread
    rw [format_directive hb hread (convert_letter d args source)]
    by_cases hfits : (d.leadRead args).length + (d.digitsRead args).length < 2 ^ 64
    · rw [if_pos hfits, if_pos ⟨hsizes, hfits⟩]
      rfl
    · rw [if_neg hfits, if_neg fun h => hfits h.2]
      rfl
  · rw [if_neg hsizes] at hread
    rw [format_directive_none hb hread, if_neg fun h => hsizes h.1]

/-! ### When that is what C says -/

/-- The precision is taken from an argument that is negative. -/
def Directive.NoPrecision : Prop := d.precision ≠ none ∧ d.precision? args = none

/-- The value as printed without a precision. -/
def Directive.plainDigits : List UInt8 :=
  digitText (d.letter = .X) d.letter.base (d.value args).natAbs

/-- **The directives that the engine gets right.** -/
structure Directive.Spared : Prop where
  /-- Numbers written out fit an integer, and so does the length of the text. -/
  sizes : d.SizesFit
  fits : (d.lead args).length + (d.magnitude args).length < 2 ^ 64
  /-- Zero is not printed with a precision that is negative. -/
  zero : d.NoPrecision args → d.value args ≠ 0
  /-- An octal number that has its prefix has no other zero in front, and zero has a precision other
  than 0. -/
  octal : .alt ∈ d.flags → d.letter = .o → ∀ p, d.precision? args = some p →
    if d.value args = 0 then p ≠ 0 else p ≤ (d.plainDigits args).length
  /-- Where zeros are asked for and there is a precision, there is nothing to fill. -/
  width : .zero ∈ d.flags → ¬ d.OnLeft args → d.precision ≠ none → d.missing args = 0

/-- What the engine takes for the precision where C has one. -/
theorem Directive.precisionRead_of_some {p : ℕ} (h : d.precision? args = some p) :
    d.precisionRead args = some p := by
  rw [precision?] at h
  rw [precisionRead]
  cases hp : d.precision with
  | none => rw [hp] at h; cases h
  | some s =>
    rw [hp] at h
    dsimp only at h
    split at h
    · cases h
    · next hpos =>
      obtain rfl := Option.some.inj h
      rw [Option.map_some, max_eq_left (Int.not_lt.mp hpos)]

/-- Where C has none the engine takes 0 or none. -/
theorem Directive.precisionRead_of_none (h : d.precision? args = none) :
    d.precisionRead args = if d.precision = none then none else some 0 := by
  rw [precision?] at h
  rw [precisionRead]
  cases hp : d.precision with
  | none => rfl
  | some s =>
    rw [hp] at h
    dsimp only at h
    split at h
    · next hneg =>
      rw [Option.map_some, max_eq_right (Int.le_of_lt hneg), if_neg (Option.some_ne_none s)]
      rfl
    · cases h

theorem Directive.plainDigits_eq_nil_iff : d.plainDigits args = [] ↔ d.value args = 0 := by
  rw [plainDigits, digitText, List.map_eq_nil_iff]
  constructor
  · intro hnil
    by_contra hne
    exact Numeral.digits_ne_nil (Int.natAbs_ne_zero.mpr hne) hnil
  · intro hzero
    rw [hzero, Int.natAbs_zero, Numeral.digits_zero]

/-- Without a precision there is one digit at least, and with a negative one the engine prints none
for zero. -/
theorem Directive.digitsRead_eq (h : d.NoPrecision args → d.value args ≠ 0) :
    d.digitsRead args = d.digits args := by
  rw [digitsRead, digits]
  cases hp : d.precision? args with
  | some p => rw [d.precisionRead_of_some args hp]
  | none =>
    rw [d.precisionRead_of_none args hp]
    split
    · rfl
    · next hsome =>
      have hne := mt (d.plainDigits_eq_nil_iff args).mp (h ⟨hsome, hp⟩)
      have hpos := List.length_pos_of_ne_nil hne
      rw [plainDigits] at hpos
      rw [Option.getD_some, Option.getD_none, atLeast, atLeast, Nat.zero_sub,
        Nat.sub_eq_zero_of_le hpos]

theorem digitByte_eq_zero_iff {upper : Bool} {n : ℕ} (hn : n < 16) :
    digitByte upper n = ascii '0' ↔ n = 0 := by
  have hall : ∀ upper : Bool, ∀ n < 16, digitByte upper n = ascii '0' ↔ n = 0 := by decide
  exact hall upper n hn

/-- There is no zero in front of the digits themselves. -/
theorem Directive.head?_plainDigits : (d.plainDigits args).head? ≠ some (ascii '0') := by
  rw [plainDigits, digitText, List.head?_map]
  intro h
  obtain ⟨n, hn, hzero⟩ := Option.map_eq_some_iff.mp h
  have hbase : 1 < d.letter.base ∧ d.letter.base ≤ 16 := by cases d.letter <;> decide
  have hlt := Numeral.lt_of_mem_digits hbase.1 (List.mem_of_mem_head? hn)
  have h0 := (digitByte_eq_zero_iff (by omega)).mp hzero
  exact Numeral.head?_digits hbase.1 (h0 ▸ hn)

theorem atLeast_of_le {n : ℕ} {text : List UInt8} (h : n ≤ text.length) :
    atLeast n text = text := by
  rw [atLeast, Nat.sub_eq_zero_of_le h]
  rfl

theorem head?_atLeast {n : ℕ} {text : List UInt8} (h : text.length < n) :
    (atLeast n text).head? = some (ascii '0') := by
  obtain ⟨k, hk⟩ := Nat.exists_eq_add_of_lt h
  have hfill : n - text.length = k + 1 := by omega
  rw [atLeast, hfill, fillWith, List.replicate_succ]
  rfl

/-- What C takes for the digits of a value other than zero, if the precision adds none. -/
theorem Directive.digits_of_ne_zero (hv : d.value args ≠ 0)
    (hp : ∀ p, d.precision? args = some p → p ≤ (d.plainDigits args).length) :
    d.digits args = d.plainDigits args := by
  refine atLeast_of_le ?_
  cases h : d.precision? args with
  | none => exact List.length_pos_of_ne_nil (mt (d.plainDigits_eq_nil_iff args).mp hv)
  | some p => exact hp p h

/-- **The zero of an octal number** is the end of the prefix for the engine and the first digit for
C. Apart from it they agree on sign, prefix and digits. -/
theorem Directive.exists_split (hzero : d.NoPrecision args → d.value args ≠ 0)
    (hoctal : .alt ∈ d.flags → d.letter = .o → ∀ p, d.precision? args = some p →
      if d.value args = 0 then p ≠ 0 else p ≤ (d.plainDigits args).length) :
    ∃ zero, (zero = [] ∨ zero = [ascii '0']) ∧ d.leadRead args = d.lead args ++ zero ∧
      d.magnitude args = zero ++ d.digitsRead args := by
  rw [d.digitsRead_eq args hzero, leadRead, lead, hexPrefix, magnitude]
  by_cases ho : .alt ∈ d.flags ∧ d.letter = .o
  · obtain ⟨halt, hletter⟩ := ho
    have hbase : d.letter.base = 8 := by rw [hletter]; rfl
    have hhex : ¬ (.alt ∈ d.flags ∧ d.letter.base = 16 ∧ d.value args ≠ 0) := by
      rw [hbase]
      exact fun h => absurd h.2.1 (by decide)
    rw [if_neg hhex]
    have hp := hoctal halt hletter
    by_cases hv : d.value args = 0
    · have hnil := (d.plainDigits_eq_nil_iff args).mpr hv
      have hhead : (d.digits args).head? = some (ascii '0') := by
        refine head?_atLeast ?_
        rw [plainDigits] at hnil
        rw [hnil, List.length_nil]
        cases h : d.precision? args with
        | none => exact Nat.one_pos
        | some p =>
          have hne := hp p h
          rw [if_pos hv] at hne
          exact Nat.pos_of_ne_zero hne
      refine ⟨[], .inl rfl, ?_, if_neg fun h => h.2.2 hhead⟩
      rw [if_neg fun h => h.2 (Int.natAbs_eq_zero.mpr hv), List.append_nil, List.append_nil]
    · have hdigits := d.digits_of_ne_zero args hv fun p h => by
        have hle := hp p h
        rwa [if_neg hv] at hle
      refine ⟨[ascii '0'], .inr rfl, ?_, if_pos ⟨halt, hletter, ?_⟩⟩
      · rw [if_pos ⟨halt, Int.natAbs_ne_zero.mpr hv⟩, hbase, List.append_nil]
        rfl
      · rw [hdigits]
        exact d.head?_plainDigits args
  · refine ⟨[], .inl rfl, ?_, if_neg fun h => ho ⟨h.1, h.2.1⟩⟩
    rw [List.append_nil]
    refine congrArg (d.sign args ++ ·) ?_
    by_cases hpfx : .alt ∈ d.flags ∧ d.value args ≠ 0
    · rw [if_pos ⟨hpfx.1, Int.natAbs_ne_zero.mpr hpfx.2⟩]
      cases hletter : d.letter with
      | o => exact absurd ⟨hpfx.1, hletter⟩ ho
      | d | i | u => simp [prefixText, Letter.base]
      | x | X => simp [prefixText, Letter.base, hpfx]
    · rw [if_neg fun h => hpfx ⟨h.1, Int.natAbs_ne_zero.mp h.2⟩, if_neg fun h => hpfx ⟨h.1, h.2.2⟩]

/-- Zeros and zeros may change places. -/
theorem fillWith_append_comm {zero : List UInt8} (h : zero = [] ∨ zero = [ascii '0']) (n : ℕ) :
    fillWith n '0' ++ zero = zero ++ fillWith n '0' := by
  obtain rfl | rfl := h
  · rw [List.append_nil, List.nil_append]
  · exact List.replicate_succ'.symm.trans List.replicate_succ

/-- **Then the engine writes what C says.** -/
theorem Directive.filled_eq_output {zero : List UInt8} (hz : zero = [] ∨ zero = [ascii '0'])
    (hlead : d.leadRead args = d.lead args ++ zero)
    (hmagnitude : d.magnitude args = zero ++ d.digitsRead args)
    (hwidth : .zero ∈ d.flags → ¬ d.OnLeft args → d.precision ≠ none → d.missing args = 0) :
    filled (d.spec args) (d.leadRead args) (d.digitsRead args) = d.output args := by
  have hmissing : (d.spec args).width - ((d.leadRead args).length + (d.digitsRead args).length) =
      d.missing args := by
    rw [missing, hlead, hmagnitude, List.length_append, List.length_append, Nat.add_assoc]
    rfl
  rw [filled, hmissing, output, hlead, hmagnitude]
  have hleft : (d.spec args).left = decide (d.OnLeft args) := rfl
  have hzeros : (d.spec args).zero = decide (.zero ∈ d.flags) := rfl
  have hnone : (d.spec args).precision = none ↔ d.precision = none := Option.map_eq_none_iff
  have hC : d.precision = none → d.precision? args = none := fun h => by rw [precision?, h]
  rw [hleft, hzeros]
  by_cases hl : d.OnLeft args
  · rw [if_pos (decide_eq_true hl), if_pos hl]
    simp only [List.append_assoc]
  · rw [if_neg (by simpa using hl), if_neg hl]
    by_cases h0 : .zero ∈ d.flags
    · rw [if_pos (decide_eq_true h0)]
      by_cases hp : d.precision = none
      · rw [if_pos (hnone.mpr hp), if_pos ⟨h0, hC hp⟩]
        simp only [List.append_assoc]
        rw [← List.append_assoc zero, ← fillWith_append_comm hz, List.append_assoc]
      · rw [if_neg (mt hnone.mp hp), hwidth h0 hl hp]
        split <;> simp [fillWith]
    · rw [if_neg (by simpa using h0), if_neg fun h => h0 h.1]
      simp only [List.append_assoc]

/-! Where they disagree the zeros can be counted, or the length is another. -/

/-- The zeros in a text. -/
def zeros (text : List UInt8) : ℕ := text.count (ascii '0')

theorem zeros_append (s t : List UInt8) : zeros (s ++ t) = zeros s + zeros t :=
  List.count_append

theorem zeros_spaces (n : ℕ) : zeros (fillWith n ' ') = 0 :=
  List.count_eq_zero.mpr fun h => absurd (List.eq_of_mem_replicate h) (by decide)

theorem zeros_pos_of_head? {text : List UInt8} (h : text.head? = some (ascii '0')) :
    0 < zeros text :=
  List.count_pos_iff.mpr (List.mem_of_mem_head? h)

/-- With a precision the engine fills with nothing but spaces. -/
theorem zeros_filled {spec : Spec} {lead text : List UInt8} (h : spec.precision ≠ none) :
    zeros (filled spec lead text) = zeros lead + zeros text := by
  rw [filled]
  split
  · rw [zeros_append, zeros_append, zeros_spaces, Nat.add_zero]
  · split
    · rw [zeros_append]
    · rw [zeros_append, zeros_append, zeros_spaces, Nat.zero_add]

/-- And so does C with one of its own; otherwise there can be more zeros. -/
theorem Directive.zeros_output : zeros (d.lead args) + zeros (d.magnitude args) ≤
      zeros (d.output args) ∧
    (d.precision? args ≠ none →
      zeros (d.output args) = zeros (d.lead args) + zeros (d.magnitude args)) := by
  rw [output]
  split
  · rw [zeros_append, zeros_append, zeros_spaces, Nat.add_zero]
    exact ⟨Nat.le_refl _, fun _ => rfl⟩
  · split
    · next h =>
      rw [zeros_append, zeros_append]
      exact ⟨by omega, fun hsome => absurd h.2 hsome⟩
    · rw [zeros_append, zeros_append, zeros_spaces, Nat.zero_add]
      exact ⟨Nat.le_refl _, fun _ => rfl⟩

theorem Directive.precisionRead_ne_none (h : d.precision ≠ none) :
    (d.spec args).precision ≠ none := mt Option.map_eq_none_iff.mp h

/-- Zero with a negative precision. -/
theorem Directive.zero_of_eq
    (h : filled (d.spec args) (d.leadRead args) (d.digitsRead args) = d.output args)
    (hno : d.NoPrecision args) : d.value args ≠ 0 := by
  intro hv
  have hnil := (d.plainDigits_eq_nil_iff args).mpr hv
  have hread : d.digitsRead args = [] := by
    rw [digitsRead, d.precisionRead_of_none args hno.2, if_neg hno.1]
    exact congrArg (atLeast 0) hnil
  have hlead : d.leadRead args = d.sign args := by
    rw [leadRead, if_neg fun h => h.2 (Int.natAbs_eq_zero.mpr hv), List.append_nil]
  have hcount := congrArg zeros h
  rw [zeros_filled (d.precisionRead_ne_none args hno.1), hread, hlead] at hcount
  have hhead : (d.magnitude args).head? = some (ascii '0') := by
    rw [magnitude]
    split
    · rfl
    · rw [digits, hno.2]
      refine head?_atLeast ?_
      rw [plainDigits] at hnil
      rw [hnil]
      exact Nat.one_pos
  have hpos := zeros_pos_of_head? hhead
  have hle := (d.zeros_output args).1
  rw [lead, zeros_append] at hle
  have hzero : zeros ([] : List UInt8) = 0 := rfl
  omega

/-- An octal number with its prefix. -/
theorem Directive.octal_of_eq
    (h : filled (d.spec args) (d.leadRead args) (d.digitsRead args) = d.output args)
    (halt : .alt ∈ d.flags) (hletter : d.letter = .o) {p : ℕ} (hp : d.precision? args = some p) :
    if d.value args = 0 then p ≠ 0 else p ≤ (d.plainDigits args).length := by
  have hsome : d.precision ≠ none := fun hnone => by
    rw [precision?, hnone] at hp
    cases hp
  have hbase : d.letter.base = 8 := by rw [hletter]; rfl
  have hsign : d.sign args = [] := if_pos (by rw [hletter]; decide)
  have hlead : d.lead args = [] := by
    rw [lead, hsign, hexPrefix, if_neg (by rw [hbase]; exact fun h => absurd h.2.1 (by decide))]
    rfl
  have hdigits : d.digitsRead args = d.digits args := d.digitsRead_eq args fun hno => by
    rw [hno.2] at hp
    cases hp
  have hcount := congrArg zeros h
  rw [zeros_filled (d.precisionRead_ne_none args hsome),
    (d.zeros_output args).2 (by rw [hp]; exact Option.some_ne_none p), hlead, hdigits] at hcount
  have hnone : zeros ([] : List UInt8) = 0 := rfl
  split
  · next hv =>
    rintro rfl
    have hnil := (d.plainDigits_eq_nil_iff args).mpr hv
    have hempty : d.digits args = [] := by
      rw [digits, hp]
      exact congrArg (atLeast 0) hnil
    rw [leadRead, if_neg fun h => h.2 (Int.natAbs_eq_zero.mpr hv), hsign, magnitude, hempty,
      if_pos ⟨halt, hletter, by simp⟩] at hcount
    exact absurd hcount (by decide)
  · next hv =>
    by_contra hlt
    have hhead : (d.digits args).head? = some (ascii '0') := by
      rw [digits, hp]
      exact head?_atLeast (Nat.not_le.mp hlt)
    rw [leadRead, if_pos ⟨halt, Int.natAbs_ne_zero.mpr hv⟩, hsign, hbase, magnitude,
      if_neg fun h => h.2.2 hhead] at hcount
    have hpfx : zeros ([] ++ prefixText 8 (d.letter = .X)) = 1 := by rw [hletter]; rfl
    omega

/-- What is filled up by C and not by the engine. -/
theorem Directive.width_of_eq {zero : List UInt8}
    (h : filled (d.spec args) (d.leadRead args) (d.digitsRead args) = d.output args)
    (hlead : d.leadRead args = d.lead args ++ zero)
    (hmagnitude : d.magnitude args = zero ++ d.digitsRead args)
    (h0 : .zero ∈ d.flags) (hl : ¬ d.OnLeft args) (hp : d.precision ≠ none) :
    d.missing args = 0 := by
  have hleft : ¬ (d.spec args).left = true := mt of_decide_eq_true hl
  have hzeros : (d.spec args).zero = true := decide_eq_true h0
  have hlen := congrArg List.length h
  rw [filled, if_neg hleft, if_pos hzeros, if_neg (d.precisionRead_ne_none args hp), output,
    if_neg hl, hlead] at hlen
  split at hlen
  · simp only [List.length_append, length_fillWith, hmagnitude] at hlen
    omega
  · simp only [List.length_append, length_fillWith, hmagnitude] at hlen
    omega

/-- **Integer conversion is C's** exactly for the directives that are spared: the text of the
directive is replaced by the result that C prescribes, whatever stands behind it. -/
theorem conversion_exact (source : Source) (d : Directive) (args : Args) :
    (∀ rest, format source (d.text ++ rest) args =
      (format source rest (d.rest args)).map (d.output args ++ ·)) ↔ d.Spared args := by
  constructor
  · intro hall
    have hone := hall []
    rw [format_text, format_nil] at hone
    split at hone
    · next hfine =>
      have heq : filled (d.spec args) (d.leadRead args) (d.digitsRead args) = d.output args := by
        simpa using hone
      have hzero := d.zero_of_eq args heq
      have hoctal := fun halt hletter p => d.octal_of_eq args heq halt hletter (p := p)
      obtain ⟨zero, hz, hlead, hmagnitude⟩ := d.exists_split args hzero hoctal
      refine ⟨hfine.1, ?_, hzero, hoctal, d.width_of_eq args heq hlead hmagnitude⟩
      have hlen := hfine.2
      rw [hlead, List.length_append] at hlen
      rw [hmagnitude, List.length_append]
      omega
    · cases hone
  · intro hd rest
    obtain ⟨zero, hz, hlead, hmagnitude⟩ := d.exists_split args hd.zero hd.octal
    have hlen := hd.fits
    rw [hmagnitude, List.length_append] at hlen
    rw [format_text, if_pos ⟨hd.sizes, by rw [hlead, List.length_append]; omega⟩,
      d.filled_eq_output args hz hlead hmagnitude hd.width]

/-- `%08.3d` of 5 is not filled up to its width. -/
theorem format_zero_width : ¬ ∀ source : Source,
    let d : Directive :=
      ⟨[.zero], .digits [8], some (.digits [3]), .plain, .d, by rintro _ ⟨⟩; decide⟩
    ∀ rest, format source (d.text ++ rest) (fun _ => 5) =
      (format source rest (d.rest fun _ => 5)).map (d.output (fun _ => 5) ++ ·) := by
  intro hall
  have hone := hall ⟨fun _ => [], fun _ _ => []⟩ []
  rw [format_nil] at hone
  have hprinted : format ⟨fun _ => [], fun _ _ => []⟩ ("%08.3d".toList.map ascii) (fun _ => 5) =
      some ("005".toList.map ascii) := by
    decide +kernel
  have hlength := congrArg (Option.map List.length) (hprinted.symm.trans hone)
  exact absurd hlength (by decide +kernel)

end Format

end StarOS
