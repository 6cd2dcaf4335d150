import StarOS.Lib.Numeral

/-!
# The engine of `printf`

A format is copied to the output up to a `%`, and what stands from there to a conversion letter is
replaced by an argument. Arguments are machine words: the format decides which of them are read and
as what.

The text of a floating-point number and the text at an address come from outside (`Source`). An
integer that does not fit its type ends the run without an output.

## Main definitions

* `Format.Spec`, `Format.Args`
* `Format.directive` — what stands between a `%` and the conversion letter
* `Format.integer`
* `Format.format`

## Main results

* `Format.directive_length` — a directive ends where the rest of the format begins
* `Format.integer_eq` — the text of an integer
-/

namespace StarOS

/-- The byte of an ASCII character. -/
def ascii (c : Char) : UInt8 := .ofNat c.toNat

namespace Format

open Checked

/-- The length modifier of a conversion: how wide the argument was before it was promoted. -/
inductive Length
  | char
  | short
  | int
  | long
  | longLong
  | size
  deriving DecidableEq

/-- The arguments that have not been read. -/
abbrev Args := ℕ → BitVec 64

/-- The arguments behind the next. -/
def Args.rest (args : Args) : Args := fun n => args (n + 1)

/-- Narrow a promoted argument to what the length modifier asked for, keeping the sign. -/
def narrowSigned (value : BitVec 64) : Length → BitVec 64
  | .char => (value.setWidth 8).signExtend 64
  | .short => (value.setWidth 16).signExtend 64
  | .int => (value.setWidth 32).signExtend 64
  | .long | .longLong | .size => value

/-- The unsigned counterpart of `narrowSigned`. -/
def narrowUnsigned (value : BitVec 64) : Length → BitVec 64
  | .char => (value.setWidth 8).setWidth 64
  | .short => (value.setWidth 16).setWidth 64
  | .int => (value.setWidth 32).setWidth 64
  | .long | .longLong | .size => value

/-- The next argument, read as an integer: half a word if it was promoted to one. -/
def Args.int (args : Args) (len : Length) : BitVec 64 :=
  match len with
  | .char | .short | .int => narrowSigned (((args 0).setWidth 32).signExtend 64) len
  | .long | .longLong | .size => narrowSigned (args 0) len

def Args.uint (args : Args) (len : Length) : BitVec 64 :=
  match len with
  | .char | .short | .int => narrowUnsigned (((args 0).setWidth 32).setWidth 64) len
  | .long | .longLong | .size => narrowUnsigned (args 0) len

/-- Flags and sizes parsed out of one conversion. -/
structure Spec where
  left : Bool := false
  zero : Bool := false
  plus : Bool := false
  space : Bool := false
  alt : Bool := false
  width : ℕ := 0
  precision : Option ℕ := none
  length : Option Length := none
  deriving DecidableEq

/-- What comes from outside: the text at an address, and the text of a floating-point number. -/
structure Source where
  asBytes : BitVec 64 → List UInt8
  float : Spec → BitVec 64 → List UInt8

/-! ### Directives -/

def takeFlags (spec : Spec) : List UInt8 → Spec × List UInt8
  | [] => (spec, [])
  | b :: fmt =>
    if b = ascii '-' then takeFlags { spec with left := true } fmt
    else if b = ascii '0' then takeFlags { spec with zero := true } fmt
    else if b = ascii '+' then takeFlags { spec with plus := true } fmt
    else if b = ascii ' ' then takeFlags { spec with space := true } fmt
    else if b = ascii '#' then takeFlags { spec with alt := true } fmt
    else (spec, b :: fmt)

def isAsciiDigit (b : UInt8) : Bool := ascii '0' ≤ b ∧ b ≤ ascii '9'

/-- Take the digits in front and append them to `n`. -/
def takeNumber (n : ℕ) : List UInt8 → Option (ℕ × List UInt8)
  | [] => some (n, [])
  | b :: fmt =>
    if isAsciiDigit b then do
      let m ← checkedMul 64 n 10
      let n ← checkedAdd 64 m (b - ascii '0').toNat
      takeNumber n fmt
    else some (n, b :: fmt)

/-- The width, possibly from an argument. A negative one also asks for the left side. -/
def takeWidth (spec : Spec) (fmt : List UInt8) (args : Args) :
    Option (Spec × List UInt8 × Args) :=
  if fmt.head? = some (ascii '*') then
    let w := (args.int .int).toInt
    let spec := if w < 0 then { spec with left := true, width := w.natAbs }
      else { spec with width := w.toNat }
    some (spec, fmt.tail, args.rest)
  else do
    let (width, fmt) ← takeNumber 0 fmt
    some ({ spec with width }, fmt, args)

/-- The precision, if there is a point. -/
def takePrecision (spec : Spec) (fmt : List UInt8) (args : Args) :
    Option (Spec × List UInt8 × Args) :=
  if fmt.head? = some (ascii '.') then
    let fmt := fmt.tail
    if fmt.head? = some (ascii '*') then
      let p := (max (args.int .int).toInt 0).toNat
      some ({ spec with precision := some p }, fmt.tail, args.rest)
    else do
      let (p, fmt) ← takeNumber 0 fmt
      some ({ spec with precision := some p }, fmt, args)
  else some (spec, fmt, args)

def takeLength (spec : Spec) : List UInt8 → Spec × List UInt8
  | [] => (spec, [])
  | b :: fmt =>
    if b = ascii 'h' then
      takeLength { spec with
        length := some (if spec.length = some .short then .char else .short) } fmt
    else if b = ascii 'l' then
      takeLength { spec with
        length := some (if spec.length = some .long then .longLong else .long) } fmt
    else if b = ascii 'z' ∨ b = ascii 't' then takeLength { spec with length := some .size } fmt
    else if b = ascii 'j' then takeLength { spec with length := some .longLong } fmt
    else (spec, b :: fmt)

/-- What stands behind a `%`, up to the conversion letter. -/
def directive (fmt : List UInt8) (args : Args) : Option (Spec × List UInt8 × Args) := do
  let (spec, fmt) := takeFlags {} fmt
  let (spec, fmt, args) ← takeWidth spec fmt args
  let (spec, fmt, args) ← takePrecision spec fmt args
  let (spec, fmt) := takeLength spec fmt
  some (spec, fmt, args)

/-! ### Output -/

/-- `n` times the same byte. -/
def fillWith (n : ℕ) (c : Char) : List UInt8 := List.replicate n (ascii c)

/-- Emit `body` inside the spec's width. -/
def pad (spec : Spec) (body : List UInt8) : List UInt8 :=
  let fill := spec.width - body.length
  if spec.left then body ++ fillWith fill ' ' else fillWith fill ' ' ++ body

/-- The character of a digit. -/
def digitByte (upper : Bool) (d : ℕ) : UInt8 :=
  if d < 10 then ascii '0' + .ofNat d
  else (if upper then ascii 'A' else ascii 'a') + .ofNat (d - 10)

/-- The digits of an integer, the least significant first, in a buffer with `room` for so many. -/
def digitLoop (upper : Bool) (base : ℕ) : ℕ → ℕ → Option (List UInt8)
  | 0, _ => none
  | room + 1, v =>
    if v / base = 0 then some [digitByte upper (v % base)]
    else (digitLoop upper base room (v / base)).map (digitByte upper (v % base) :: ·)

/-- Emit an integer with the spec's flags applied. -/
def integer (spec : Spec) (value base : ℕ) (upper : Bool) (sign : Option UInt8)
    (hasPrefix : Bool) : Option (List UInt8) := do
  let buf ← digitLoop upper base 24 value
  let buf := if spec.precision = some 0 ∧ value = 0 then [] else buf
  let n := buf.length
  let zeros := spec.precision.getD 0 - n
  let prefixLen :=
    if hasPrefix ∧ value ≠ 0 then if base = 16 then 2 else if base = 8 then 1 else 0 else 0
  let body ← checkedAdd 64 n zeros
  let body ← checkedAdd 64 body prefixLen
  let body ← checkedAdd 64 body sign.toList.length
  let fill := spec.width - body
  some ((if ¬ spec.left ∧ ¬ spec.zero then fillWith fill ' ' else []) ++
    sign.toList ++
    (if 0 < prefixLen then
      ascii '0' :: (if base = 16 then [if upper then ascii 'X' else ascii 'x'] else []) else []) ++
    (if ¬ spec.left ∧ spec.zero ∧ spec.precision = none then fillWith fill '0' else []) ++
    fillWith zeros '0' ++
    buf.reverse ++
    (if spec.left then fillWith fill ' ' else []))

/-- The sign of a signed conversion. -/
def signOf (spec : Spec) (v : ℤ) : Option UInt8 :=
  if v < 0 then some (ascii '-')
  else if spec.plus then some (ascii '+')
  else if spec.space then some (ascii ' ')
  else none

/-- The text for one conversion letter, and the arguments behind. `none` stands for a letter that
is not supported. -/
def convert (source : Source) (spec : Spec) (conversion : UInt8) (args : Args) :
    Option (Option (List UInt8) × Args) :=
  let len := spec.length.getD .int
  if conversion = ascii 'c' then
    some (some (pad spec [((args.int .int).toNat.toUInt8)]), args.rest)
  else if conversion = ascii 's' then
    let bytes := if args 0 = 0 then "(null)".toList.map ascii else source.asBytes (args 0)
    let n := match spec.precision with
      | none => bytes.length
      | some p => min p bytes.length
    some (some (pad spec (bytes.take n)), args.rest)
  else if conversion = ascii 'd' ∨ conversion = ascii 'i' then do
    let v := (args.int len).toInt
    let out ← integer spec v.natAbs 10 false (signOf spec v) false
    some (some out, args.rest)
  else if conversion = ascii 'u' then do
    let out ← integer spec (args.uint len).toNat 10 false none false
    some (some out, args.rest)
  else if conversion = ascii 'x' then do
    let out ← integer spec (args.uint len).toNat 16 false none spec.alt
    some (some out, args.rest)
  else if conversion = ascii 'X' then do
    let out ← integer spec (args.uint len).toNat 16 true none spec.alt
    some (some out, args.rest)
  else if conversion = ascii 'o' then do
    let out ← integer spec (args.uint len).toNat 8 false none spec.alt
    some (some out, args.rest)
  else if conversion = ascii 'p' then do
    let out ← integer { spec with alt := true } (args 0).toNat 16 false none true
    some (some out, args.rest)
  else if conversion = ascii 'f' ∨ conversion = ascii 'F' then
    some (some (source.float spec (args 0)), args.rest)
  else some (none, args)

/-! ### Where a directive ends -/

variable {fmt rest : List UInt8} {spec spec' : Spec} {args args' : Args}

theorem length_takeFlags (spec : Spec) (fmt : List UInt8) :
    (takeFlags spec fmt).2.length ≤ fmt.length := by
  fun_induction takeFlags spec fmt <;> simp_all <;> omega

theorem length_takeNumber {n n' : ℕ} (h : takeNumber n fmt = some (n', rest)) :
    rest.length ≤ fmt.length := by
  induction fmt generalizing n with
  | nil => simp_all [takeNumber]
  | cons b fmt ih =>
    rw [takeNumber] at h
    split at h
    · simp only [Option.bind_eq_bind, Option.bind_eq_some_iff] at h
      obtain ⟨m, -, k, -, h⟩ := h
      exact Nat.le_succ_of_le (ih h)
    · obtain ⟨-, rfl⟩ := Prod.mk.inj (Option.some.inj h)
      exact Nat.le_refl _

theorem length_takeWidth (h : takeWidth spec fmt args = some (spec', rest, args')) :
    rest.length ≤ fmt.length := by
  rw [takeWidth] at h
  split at h
  · obtain ⟨-, h⟩ := Prod.mk.inj (Option.some.inj h)
    obtain ⟨rfl, -⟩ := Prod.mk.inj h
    exact (List.tail_sublist fmt).length_le
  · simp only [Option.bind_eq_bind, Option.bind_eq_some_iff, Prod.exists, Option.some.injEq,
      Prod.mk.injEq] at h
    obtain ⟨n, fmt', hnumber, -, rfl, -⟩ := h
    exact length_takeNumber hnumber

theorem length_takePrecision (h : takePrecision spec fmt args = some (spec', rest, args')) :
    rest.length ≤ fmt.length := by
  have htail := (List.tail_sublist fmt).length_le
  rw [takePrecision] at h
  split at h
  · dsimp only at h
    split at h
    · obtain ⟨-, h⟩ := Prod.mk.inj (Option.some.inj h)
      obtain ⟨rfl, -⟩ := Prod.mk.inj h
      exact (List.tail_sublist _).length_le.trans htail
    · simp only [Option.bind_eq_bind, Option.bind_eq_some_iff, Prod.exists, Option.some.injEq,
        Prod.mk.injEq] at h
      obtain ⟨n, fmt', hnumber, -, rfl, -⟩ := h
      exact (length_takeNumber hnumber).trans htail
  · obtain ⟨-, h⟩ := Prod.mk.inj (Option.some.inj h)
    obtain ⟨rfl, -⟩ := Prod.mk.inj h
    exact Nat.le_refl _

theorem length_takeLength (spec : Spec) (fmt : List UInt8) :
    (takeLength spec fmt).2.length ≤ fmt.length := by
  fun_induction takeLength spec fmt <;> simp_all <;> omega

/-- **A directive ends** where the rest of the format begins. -/
theorem directive_length (h : directive fmt args = some (spec, rest, args')) :
    rest.length ≤ fmt.length := by
  simp only [directive, Option.bind_eq_bind, Option.bind_eq_some_iff, Prod.exists,
    Option.some.injEq, Prod.mk.injEq] at h
  obtain ⟨s₁, f₁, a₁, hwidth, s₂, f₂, a₂, hprecision, -, rfl, -⟩ := h
  exact (length_takeLength s₂ f₂).trans ((length_takePrecision hprecision).trans
    ((length_takeWidth hwidth).trans (length_takeFlags {} fmt)))

/-! ### Formats -/

/-- Format `fmt`, pulling arguments from `args`. -/
def format (source : Source) : List UInt8 → Args → Option (List UInt8)
  | [], _ => some []
  | b :: fmt, args =>
    if b ≠ ascii '%' then (format source fmt args).map (b :: ·)
    -- a `%` at the end is not a conversion
    else if fmt = [] then some [ascii '%']
    else if fmt.head? = some (ascii '%') then
      (format source fmt.tail args).map (ascii '%' :: ·)
    else
      match _h : directive fmt args with
      | none => none
      | some (_, [], _) => some []
      | some (spec, conversion :: rest, args) =>
        match convert source spec conversion args with
        | none => none
        | some (out, args) =>
          (format source rest args).map
            (out.getD ((b :: fmt).take (fmt.length + 1 - rest.length)) ++ ·)
  termination_by fmt => fmt.length
  decreasing_by
    · exact Nat.lt_succ_self _
    · exact Nat.lt_succ_of_le (List.tail_sublist _).length_le
    · have hlen := directive_length _h
      rw [List.length_cons] at hlen ⊢
      omega

variable {source : Source}

theorem format_nil : format source [] args = some [] := by
  rw [format]

/-- **A directive in a format**, with a letter that is supported. -/
theorem format_directive {b conversion : UInt8} {out : Option (List UInt8 × Args)}
    (hb : b ≠ ascii '%')
    (hd : directive (b :: fmt) args = some (spec, conversion :: rest, args'))
    (hc : convert source spec conversion args' = out.map fun r => (some r.1, r.2)) :
    format source (ascii '%' :: b :: fmt) args =
      out.bind fun r => (format source rest r.2).map (r.1 ++ ·) := by
  rw [format, if_neg (not_not.mpr rfl), if_neg (List.cons_ne_nil _ _),
    List.head?_cons, if_neg fun h => hb (Option.some.inj h)]
  split
  · next hnone => rw [hd] at hnone; cases hnone
  · next hnil => rw [hd] at hnil; cases hnil
  · next heq =>
    rw [hd] at heq
    cases heq
    cases out with
    | none => rw [hc]; rfl
    | some r => rw [hc]; rfl

/-- A directive with a number that does not fit. -/
theorem format_directive_none {b : UInt8} (hb : b ≠ ascii '%')
    (hd : directive (b :: fmt) args = none) :
    format source (ascii '%' :: b :: fmt) args = none := by
  rw [format, if_neg (not_not.mpr rfl), if_neg (List.cons_ne_nil _ _),
    List.head?_cons, if_neg fun h => hb (Option.some.inj h)]
  split
  · rfl
  · next hnil => rw [hd] at hnil; cases hnil
  · next heq => rw [hd] at heq; cases heq

/-! ### The text of an integer -/

/-- The digits of a number as they are printed, none for zero. -/
def digitText (upper : Bool) (base v : ℕ) : List UInt8 :=
  (Numeral.digits base v).map (digitByte upper)

variable {upper : Bool} {base v : ℕ}

theorem digitLoop_eq (room : ℕ) : digitLoop upper base room v =
    (Numeral.divide base room v).map (·.map (digitByte upper)) := by
  induction room generalizing v with
  | zero => rfl
  | succ room ih =>
    rw [digitLoop, Numeral.divide]
    split
    · rfl
    · rw [ih]
      cases Numeral.divide base room (v / base) <;> rfl

/-- A 64-bit integer has at most 22 digits. -/
theorem digitLoop_of_lt (hb : 8 ≤ base) (hv : v < 2 ^ 64) : digitLoop upper base 24 v =
    some (if v = 0 then [ascii '0'] else (digitText upper base v).reverse) := by
  have hroom : v < base ^ 24 := hv.trans_le
    ((by decide : 2 ^ 64 ≤ 8 ^ 24).trans (Nat.pow_le_pow_left hb 24))
  rw [digitLoop_eq, Numeral.divide_eq (by omega) hroom, Option.map_some]
  split
  · cases upper <;> rfl
  · rw [digitText, Numeral.digits, List.map_reverse, List.reverse_reverse]

/-- Digits with zeros in front, up to so many. -/
def atLeast (n : ℕ) (text : List UInt8) : List UInt8 := fillWith (n - text.length) '0' ++ text

/-- What stands before the digits when a prefix is asked for. -/
def prefixText (base : ℕ) (upper : Bool) : List UInt8 :=
  if base = 16 then [ascii '0', if upper then ascii 'X' else ascii 'x']
  else if base = 8 then [ascii '0'] else []

/-- The body of an integer, and where it is filled up to the width. -/
def filled (spec : Spec) (lead text : List UInt8) : List UInt8 :=
  let fill := spec.width - (lead.length + text.length)
  if spec.left then lead ++ text ++ fillWith fill ' '
  else if spec.zero then
    if spec.precision = none then lead ++ fillWith fill '0' ++ text else lead ++ text
  else fillWith fill ' ' ++ lead ++ text

/-- Adding up what fits as a whole. -/
theorem checkedAdd_bind {α : Type} {w a b c d : ℕ} {f : ℕ → Option α} :
    ((checkedAdd w a b).bind fun s => (checkedAdd w s c).bind fun s =>
      (checkedAdd w s d).bind f) = if a + b + c + d < 2 ^ w then f (a + b + c + d) else none := by
  by_cases hfit : a + b + c + d < 2 ^ w
  · rw [if_pos hfit, checkedAdd_of_lt (by omega), Option.bind_some, checkedAdd_of_lt (by omega),
      Option.bind_some, checkedAdd_of_lt hfit, Option.bind_some]
  · rw [if_neg hfit, Option.bind_eq_none_iff]
    intro s hs
    obtain ⟨-, rfl⟩ := checkedAdd_eq_some.mp hs
    rw [Option.bind_eq_none_iff]
    intro s hs
    obtain ⟨-, rfl⟩ := checkedAdd_eq_some.mp hs
    rw [checkedAdd, if_neg hfit, Option.bind_none]

@[simp] theorem length_fillWith (n : ℕ) (c : Char) : (fillWith n c).length = n :=
  List.length_replicate

/-- What the buffer holds, with the zeros that the precision asks for. -/
theorem atLeast_of_buf (precision : Option ℕ) (buf : List UInt8)
    (hbuf : buf = if precision = some 0 ∧ v = 0 then [] else
      if v = 0 then [ascii '0'] else (digitText upper base v).reverse) :
    fillWith (precision.getD 0 - buf.length) '0' ++ buf.reverse =
      atLeast (precision.getD 1) (digitText upper base v) := by
  by_cases hv : v = 0
  · have hnone : digitText upper base v = [] := by rw [digitText, hv, Numeral.digits_zero]; rfl
    rw [hnone, atLeast, List.append_nil, List.length_nil, Nat.sub_zero]
    by_cases hzero : precision = some 0
    · rw [hbuf, if_pos ⟨hzero, hv⟩, hzero]
      rfl
    · rw [hbuf, if_neg fun h => hzero h.1, if_pos hv]
      cases precision with
      | none => rfl
      | some p =>
        obtain ⟨p, rfl⟩ := Nat.exists_eq_succ_of_ne_zero fun h0 => hzero (congrArg some h0)
        exact List.replicate_succ'.symm
  · have hsome : digitText upper base v ≠ [] := by
      rw [digitText, Ne, List.map_eq_nil_iff]
      exact Numeral.digits_ne_nil hv
    have hpos := List.length_pos_of_ne_nil hsome
    rw [hbuf, if_neg fun h => hv h.2, if_neg hv, List.reverse_reverse, List.length_reverse, atLeast]
    cases precision with
    | none => rw [Option.getD_none, Option.getD_none, Nat.zero_sub, Nat.sub_eq_zero_of_le hpos]
    | some p => rfl

/-- **The text of an integer**: sign and prefix, then at least as many digits as the precision says,
filled up to the width, but not where zeros were asked for and there is a precision. -/
theorem integer_eq (spec : Spec) {sign : Option UInt8} {hasPrefix : Bool} (hb : 8 ≤ base)
    (hv : v < 2 ^ 64) {lead text : List UInt8}
    (hlead : lead = sign.toList ++ if hasPrefix ∧ v ≠ 0 then prefixText base upper else [])
    (htext : text = atLeast (spec.precision.getD 1) (digitText upper base v)) :
    integer spec v base upper sign hasPrefix =
      if lead.length + text.length < 2 ^ 64 then some (filled spec lead text) else none := by
  rw [integer, digitLoop_of_lt hb hv]
  simp only [Option.bind_eq_bind, Option.bind_some, checkedAdd_bind]
  generalize hbuf : (if spec.precision = some 0 ∧ v = 0 then [] else
    if v = 0 then [ascii '0'] else (digitText upper base v).reverse) = buf
  have hdigits := atLeast_of_buf spec.precision buf hbuf.symm
  rw [← htext] at hdigits
  have hlength : buf.length + (spec.precision.getD 0 - buf.length) = text.length := by
    rw [← hdigits, List.length_append, length_fillWith, List.length_reverse, Nat.add_comm]
  generalize hpfx : (if hasPrefix ∧ v ≠ 0 then prefixText base upper else []) = pfx at hlead
  have hpfxLen : (if hasPrefix = true ∧ v ≠ 0 then if base = 16 then 2 else if base =
    8 then 1 else 0
      else 0) = pfx.length := by
    rw [← hpfx, prefixText]
    split <;> [skip; rfl]
    split <;> [rfl; skip]
    split <;> rfl
  have hpfxText : (if 0 < pfx.length then ascii '0' :: (if base = 16 then
      [if upper then ascii 'X' else ascii 'x'] else []) else []) = pfx := by
    rw [← hpfx, prefixText]
    split <;> [skip; rfl]
    split <;> [rfl; skip]
    split <;> rfl
  rw [hpfxLen, hpfxText, hlength]
  have hall : text.length + pfx.length + sign.toList.length = lead.length + text.length := by
    rw [hlead, List.length_append]
    omega
  rw [hall]
  refine if_congr Iff.rfl (congrArg some ?_) rfl
  rw [List.append_assoc _ (fillWith _ '0') buf.reverse, hdigits, filled, hlead]
  cases spec.left <;> cases spec.zero <;> cases spec.precision <;> simp

end Format

end StarOS
