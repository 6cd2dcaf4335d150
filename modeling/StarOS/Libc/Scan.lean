import StarOS.Libc.Format

/-!
# Reading numbers back

`strtol`, `strtoul` and `strtod` read the number in front of a text, and `scan` reads a text against
a format and stores what it finds.

Of a floating-point number the literal is read here: the double that it comes to is a matter of
floating-point arithmetic, which is a parameter (`Reals`).

## Main definitions

* `Scan.strtol`, `Scan.strtoul`
* `Scan.literal`, `Scan.strtod`
* `Scan.scan`
* `Scan.convert` — one conversion

## Main results

* `Scan.literal_sound` — a literal stands in front of what is left
* `Scan.conversion_length` — a conversion ends where the rest of the format begins
-/

namespace StarOS

namespace Scan

open Checked Format

/-! ### Numbers -/

/-- One of C's whitespace characters. -/
def isSpace (b : UInt8) : Bool := b = ascii ' ' ∨ (9 ≤ b ∧ b ≤ 13)

def digitValue (c : UInt8) : Option ℕ :=
  if ascii '0' ≤ c ∧ c ≤ ascii '9' then some (c - ascii '0').toNat
  else if ascii 'a' ≤ c ∧ c ≤ ascii 'z' then some (c - ascii 'a' + 10).toNat
  else if ascii 'A' ≤ c ∧ c ≤ ascii 'Z' then some (c - ascii 'A' + 10).toNat
  else none

/-- One digit in `base`. -/
def digit (c : UInt8) (base : ℤ) : Option ℕ := (digitValue c).filter fun d => (d : ℤ) < base

/-- A sign, and whether it is a minus. -/
def takeSign (s : List UInt8) : Bool × List UInt8 :=
  if s.head? = some (ascii '-') then (true, s.tail)
  else if s.head? = some (ascii '+') then (false, s.tail)
  else (false, s)

/-- A prefix, if the base allows it and a digit stands behind it; base 0 is told from the text. -/
def takeBase (base : ℤ) (s : List UInt8) : ℤ × List UInt8 :=
  if (base = 0 ∨ base = 16) ∧ s[0]? = some (ascii '0') ∧
      (s[1]? = some (ascii 'x') ∨ s[1]? = some (ascii 'X')) ∧
      (s[2]?.bind (digit · 16)).isSome then (16, s.drop 2)
  else if base = 0 then (if s[0]? = some (ascii '0') then 8 else 10, s)
  else (base, s)

/-- The digits in front behind `value`, as a number of `w` bits: a larger one stays at the largest,
and that it was larger is kept. -/
def takeDigits (w : ℕ) (base : ℤ) (value : ℕ) (saturated : Bool) :
    List UInt8 → ℕ × Bool × List UInt8
  | [] => (value, saturated, [])
  | c :: s =>
    match digit c base with
    | none => (value, saturated, c :: s)
    | some d =>
      match (checkedMul w value base.toNat).bind fun v => checkedAdd w v d with
      | some value => takeDigits w base value saturated s
      | none => takeDigits w base (2 ^ w - 1) true s

/-- What `strtol` and `strtoul` find: whether there is a minus, the number, whether it was too
large, and what stands behind it. -/
def number (w : ℕ) (s : List UInt8) (base : ℤ) : Option (Bool × ℕ × Bool × List UInt8) :=
  let (negative, s) := takeSign (s.dropWhile isSpace)
  let (base, s) := takeBase base s
  let (value, saturated, rest) := takeDigits w base 0 false s
  if rest.length = s.length then none else some (negative, value, saturated, rest)

/-- `strtol`: the value, and how many bytes were consumed. Without a digit there are none. -/
def strtol (s : List UInt8) (base : ℤ) : ℤ × ℕ :=
  match number 63 s base with
  | none => (0, 0)
  | some (negative, value, saturated, rest) =>
    (if saturated then if negative then -2 ^ 63 else 2 ^ 63 - 1
      else if negative then -value else value, s.length - rest.length)

/-- `strtoul`: the same, accumulating unsigned. -/
def strtoul (s : List UInt8) (base : ℤ) : ℕ × ℕ :=
  match number 64 s base with
  | none => (0, 0)
  | some (negative, value, saturated, rest) =>
    (if saturated then 2 ^ 64 - 1 else if negative then (2 ^ 64 - value) % 2 ^ 64 else value,
      s.length - rest.length)

/-! ### Floating-point numbers -/

/-- What a literal says. The exponent counts digits in an `i32`, and wraps where there are more of
them. -/
inductive Literal
  | infinity (negative : Bool)
  | nan
  | decimal (negative : Bool) (mantissa : ℕ) (exponent : BitVec 32)
  deriving DecidableEq

/-- The arithmetic of floating-point numbers: the double that a literal comes to, and the nearest
number that is half as wide. -/
structure Reals where
  value : Literal → BitVec 64
  asFloat : BitVec 64 → BitVec 32

def toAsciiLowercase (b : UInt8) : UInt8 :=
  if ascii 'A' ≤ b ∧ b ≤ ascii 'Z' then b + 32 else b

/-- What stands behind a word in front, in letters of any case. -/
def matchCi (s word : List UInt8) : Option (List UInt8) :=
  if (s.take word.length).map toAsciiLowercase = word then some (s.drop word.length) else none

/-- What the digits of a mantissa have come to. -/
structure Mantissa where
  value : ℕ := 0
  digits : ℕ := 0
  exponent : BitVec 32 := 0
  seenPoint : Bool := false
  anyDigit : Bool := false

/-- One more digit. Behind the nineteenth only the magnitude can change, and a leading zero is not
counted. -/
def Mantissa.push (m : Mantissa) (c : UInt8) : Mantissa :=
  if m.digits < 19 then
    let value := m.value * 10 + (c - ascii '0').toNat
    { m with
      value
      digits := if value ≠ 0 then m.digits + 1 else m.digits
      exponent := if m.seenPoint then m.exponent - 1 else m.exponent
      anyDigit := true }
  else { m with exponent := if m.seenPoint then m.exponent else m.exponent + 1, anyDigit := true }

/-- The digits of a mantissa, with one point among them at most. -/
def takeMantissa (m : Mantissa) : List UInt8 → Mantissa × List UInt8
  | [] => (m, [])
  | c :: s =>
    if isAsciiDigit c then takeMantissa (m.push c) s
    else if c = ascii '.' ∧ ¬ m.seenPoint then takeMantissa { m with seenPoint := true } s
    else (m, c :: s)

/-- The digits of an exponent behind `value`. A larger one than 100000 stays there. -/
def takeExponentDigits (value : ℕ) : List UInt8 → ℕ × List UInt8
  | [] => (value, [])
  | c :: s =>
    if isAsciiDigit c then takeExponentDigits (min (value * 10 + (c - ascii '0').toNat) 100000) s
    else (value, c :: s)

/-- An exponent, which only counts if it is well formed. -/
def takeExponent (s : List UInt8) : BitVec 32 × List UInt8 :=
  if s.head? = some (ascii 'e') ∨ s.head? = some (ascii 'E') then
    let (negative, digits) := takeSign s.tail
    let (value, rest) := takeExponentDigits 0 digits
    if rest.length < digits.length then
      (if negative then -BitVec.ofNat 32 value else BitVec.ofNat 32 value, rest)
    else (0, s)
  else (0, s)

/-- The literal in front of a text, and what stands behind it. -/
def literal (s : List UInt8) : Option (Literal × List UInt8) :=
  let (negative, s) := takeSign (s.dropWhile isSpace)
  match (matchCi s ("infinity".toList.map ascii)).or (matchCi s ("inf".toList.map ascii)) with
  | some rest => some (.infinity negative, rest)
  | none =>
    match matchCi s ("nan".toList.map ascii) with
    | some rest => some (.nan, rest)
    | none =>
      let (m, rest) := takeMantissa {} s
      let (exponent, rest) := takeExponent rest
      if m.anyDigit then some (.decimal negative m.value (m.exponent + exponent), rest) else none

/-- `strtod`: the value, and how many bytes were consumed. Without a digit there are none. -/
def strtod (reals : Reals) (s : List UInt8) : BitVec 64 × ℕ :=
  match literal s with
  | none => (0, 0)
  | some (l, rest) => (reals.value l, s.length - rest.length)

/-- The digits that count make up the mantissa. -/
structure Mantissa.Sound (m : Mantissa) : Prop where
  digits : m.digits ≤ 19
  value : m.value < 10 ^ m.digits

theorem sub_le_of_isAsciiDigit {c : UInt8} (h : isAsciiDigit c = true) :
    (c - ascii '0').toNat ≤ 9 := by
  obtain ⟨hlow, hhigh⟩ := of_decide_eq_true h
  have hlow : 48 ≤ c.toNat := hlow
  have hhigh : c.toNat ≤ 57 := hhigh
  have hzero : (ascii '0').toNat = 48 := rfl
  rw [UInt8.toNat_sub_of_le _ _ (show ascii '0' ≤ c from hlow), hzero]
  omega

theorem Mantissa.Sound.push {m : Mantissa} {c : UInt8} (h : m.Sound) (hc : isAsciiDigit c = true) :
    (m.push c).Sound := by
  have hdigit := sub_le_of_isAsciiDigit hc
  have hvalue := h.value
  rw [Mantissa.push]
  split
  · next hfew =>
    dsimp only
    by_cases hzero : m.value * 10 + (c - ascii '0').toNat = 0
    · rw [hzero, if_neg (not_not.mpr rfl)]
      exact ⟨h.digits, Nat.pow_pos (by decide)⟩
    · rw [if_pos hzero]
      refine ⟨hfew, ?_⟩
      show m.value * 10 + (c - ascii '0').toNat < 10 ^ (m.digits + 1)
      rw [pow_succ]
      omega
  · exact ⟨h.digits, h.value⟩

theorem takeMantissa_sound {m : Mantissa} (h : m.Sound) (s : List UInt8) :
    (takeMantissa m s).1.Sound := by
  fun_induction takeMantissa m s with
  | case1 => exact h
  | case2 m c s hc ih => exact ih (h.push hc)
  | case3 m c s _ _ ih => exact ih ⟨h.digits, h.value⟩
  | case4 => exact h

theorem takeSign_suffix (s : List UInt8) : (takeSign s).2 <:+ s := by
  rw [takeSign]
  split
  · exact List.tail_suffix s
  · split
    · exact List.tail_suffix s
    · exact List.suffix_rfl

theorem matchCi_suffix {s word rest : List UInt8} (h : matchCi s word = some rest) :
    rest <:+ s := by
  rw [matchCi] at h
  split at h
  · cases h
    exact List.drop_suffix _ s
  · cases h

theorem takeMantissa_suffix (m : Mantissa) (s : List UInt8) : (takeMantissa m s).2 <:+ s := by
  fun_induction takeMantissa m s with
  | case1 => exact List.suffix_rfl
  | case2 m c s _ ih => exact ih.trans (List.suffix_cons c s)
  | case3 m c s _ _ ih => exact ih.trans (List.suffix_cons c s)
  | case4 => exact List.suffix_rfl

theorem takeExponentDigits_suffix (value : ℕ) (s : List UInt8) :
    (takeExponentDigits value s).2 <:+ s := by
  fun_induction takeExponentDigits value s with
  | case1 => exact List.suffix_rfl
  | case2 value c s _ ih => exact ih.trans (List.suffix_cons c s)
  | case3 => exact List.suffix_rfl

theorem takeExponent_suffix (s : List UInt8) : (takeExponent s).2 <:+ s := by
  rw [takeExponent]
  split
  · dsimp only
    split
    · exact (takeExponentDigits_suffix 0 _).trans
        ((takeSign_suffix s.tail).trans (List.tail_suffix s))
    · exact List.suffix_rfl
  · exact List.suffix_rfl

/-- What a literal says is a number that the machine has. -/
def Literal.Fits : Literal → Prop
  | .infinity _ | .nan => True
  | .decimal _ mantissa _ => mantissa < 2 ^ 64

/-- **A literal** stands in front of what is left, and its mantissa fits in 64 bits. -/
theorem literal_sound {s rest : List UInt8} {l : Literal} (h : literal s = some (l, rest)) :
    rest <:+ s ∧ l.Fits := by
  have hsign : (takeSign (s.dropWhile isSpace)).2 <:+ s :=
    (takeSign_suffix _).trans (List.dropWhile_suffix _)
  dsimp only [literal] at h
  generalize takeSign (s.dropWhile isSpace) = signed at h hsign
  split at h
  · next rest' hinfinity =>
    cases h
    refine ⟨?_, trivial⟩
    obtain hword | ⟨-, hword⟩ := Option.or_eq_some_iff.mp hinfinity
    · exact (matchCi_suffix hword).trans hsign
    · exact (matchCi_suffix hword).trans hsign
  · split at h
    · next rest' hnan =>
      cases h
      exact ⟨(matchCi_suffix hnan).trans hsign, trivial⟩
    · have hnothing : Mantissa.Sound {} := ⟨Nat.zero_le 19, Nat.one_pos⟩
      have hsound := takeMantissa_sound hnothing signed.2
      split at h
      · cases h
        refine ⟨(takeExponent_suffix _).trans ((takeMantissa_suffix _ _).trans hsign), ?_⟩
        have hpow : 10 ^ (takeMantissa {} signed.2).1.digits ≤ 10 ^ 19 :=
          Nat.pow_le_pow_right (by decide) hsound.digits
        exact (hsound.value.trans_le hpow).trans (by decide)
      · cases h

/-! ### The engine of `scanf` -/

/-- The width of an integer destination. -/
inductive Width
  | char
  | short
  | int
  | long
  | longLong
  | size
  | double
  deriving DecidableEq

def Width.bits : Width → ℕ
  | .char => 8
  | .short => 16
  | .int => 32
  | .long | .longLong | .size | .double => 64

/-- What is put at a destination. -/
inductive Stored
  | int (bits : ℕ) (value : BitVec bits)
  | bytes (text : List UInt8)
  | double (value : BitVec 64)
  | float (value : BitVec 32)
  deriving DecidableEq

/-- The largest integer. -/
def usizeMax : ℕ := 0xffffffffffffffff

/-- What stands between a `%` and the conversion letter, and the set behind a `[`. -/
structure Spec where
  suppress : Bool := false
  max : ℕ := usizeMax
  width : Width := .int
  set : List (UInt8 × UInt8) := []
  negated : Bool := false

/-- How far a call has come: the input from `pos` on, what was assigned and where the next value
goes. The count of assignments is a `c_int`, which comes round. -/
structure State where
  input : List UInt8
  pos : ℕ
  assigned : BitVec 32
  seen : Bool
  dests : Args
  stored : List (BitVec 64 × Stored)

def takeSuppress (spec : Spec) (fmt : List UInt8) : Spec × List UInt8 :=
  if fmt.head? = some (ascii '*') then ({ spec with suppress := true }, fmt.tail) else (spec, fmt)

/-- The maximum field width. -/
def takeMax (spec : Spec) (fmt : List UInt8) : Option (Spec × List UInt8) :=
  if fmt.head?.any isAsciiDigit then do
    let (max, fmt) ← takeNumber 0 fmt
    some ({ spec with max }, fmt)
  else some (spec, fmt)

def takeModifier (spec : Spec) : List UInt8 → Spec × List UInt8
  | [] => (spec, [])
  | b :: fmt =>
    if b = ascii 'h' then
      takeModifier { spec with width := if spec.width = .short then .char else .short } fmt
    else if b = ascii 'l' then
      takeModifier { spec with width := if spec.width = .long then .longLong else .long } fmt
    else if b = ascii 'z' then takeModifier { spec with width := .size } fmt
    else if b = ascii 'j' ∨ b = ascii 't' then takeModifier { spec with width := .longLong } fmt
    else if b = ascii 'L' then takeModifier { spec with width := .double } fmt
    else (spec, b :: fmt)

/-- The ranges of a set up to its `]`, which stands for itself if it is the first. -/
def takeRanges (first : Bool) : List UInt8 → Option (List (UInt8 × UInt8) × List UInt8)
  | [] => none
  | [c] => if c = ascii ']' ∧ ¬ first then some ([], []) else none
  | c :: dash :: fmt =>
    if c = ascii ']' ∧ ¬ first then some ([], dash :: fmt)
    else
      match fmt with
      | last :: fmt' =>
        if dash = ascii '-' ∧ last ≠ ascii ']' then
          (takeRanges false fmt').map fun r => ((c, last) :: r.1, r.2)
        else (takeRanges false (dash :: last :: fmt')).map fun r => ((c, c) :: r.1, r.2)
      | [] => (takeRanges false [dash]).map fun r => ((c, c) :: r.1, r.2)
  termination_by fmt => fmt.length

def parseSet (spec : Spec) (fmt : List UInt8) : Option (Spec × List UInt8) := do
  let negated : Bool := fmt.head? = some (ascii '^')
  let (set, fmt) ← takeRanges true (if negated then fmt.tail else fmt)
  some ({ spec with set, negated }, fmt)

def setContains (set : List (UInt8 × UInt8)) (b : UInt8) : Bool :=
  set.any fun r => r.1 ≤ b ∧ b ≤ r.2

/-- What stands behind a `%`: the spec, the letter and the rest of the format, unless the format
ends in between. -/
def conversion (fmt : List UInt8) : Option (Option (Spec × UInt8 × List UInt8)) := do
  let (spec, fmt) := takeSuppress {} fmt
  let (spec, fmt) ← takeMax spec fmt
  let (spec, fmt) := takeModifier spec fmt
  match fmt with
  | [] => some none
  | c :: fmt =>
    if c = ascii '[' then some ((parseSet spec fmt).map fun r => (r.1, c, r.2))
    else some (some (spec, c, fmt))

namespace State

/-- The end of the input with nothing assigned is told from input that does not match. -/
def stop (st : State) : ℤ :=
  if 0 < st.assigned.toInt then st.assigned.toInt else if st.input = [] then -1 else 0

/-- What is returned where the format ends. -/
def result (st : State) : ℤ :=
  if st.assigned = 0 ∧ ¬ st.seen ∧ st.input = [] then -1 else st.assigned.toInt

def skip (st : State) : State :=
  { st with
    input := st.input.dropWhile isSpace
    pos := st.pos + (st.input.takeWhile isSpace).length }

def advance (st : State) (n : ℕ) : State :=
  { st with input := st.input.drop n, pos := st.pos + n, seen := true }

/-- Put a value at the next destination. -/
def put (st : State) (value : Stored) : State :=
  { st with
    assigned := st.assigned + 1
    dests := st.dests.rest
    stored := st.stored ++ [(st.dests 0, value)] }

/-- Put an integer at the next destination, as wide as the length modifier asked for. -/
def storeInt (st : State) (value : ℤ) (width : Width) : State :=
  { st with
    dests := st.dests.rest
    stored := st.stored ++ if st.dests 0 = 0 then [] else
      [(st.dests 0, .int width.bits (.ofInt width.bits value))] }

def putInt (st : State) (value : ℤ) (width : Width) : State :=
  { st.storeInt value width with assigned := st.assigned + 1 }

/-- The input that a number may be taken from. -/
def slice (st : State) (max : ℕ) : List UInt8 :=
  st.input.take (min (st.pos + max) usizeMax - st.pos)

end State

/-- A text for `%s` and `%[`, with a zero behind it. -/
def takeText (spec : Spec) (inside : UInt8 → Bool) (st : State) : State ⊕ ℤ :=
  let text := (st.input.takeWhile inside).take spec.max
  if text = [] then .inr st.stop
  else if spec.suppress then .inl (st.advance text.length)
  else .inl ((st.put (.bytes (text ++ [0]))).advance text.length)

/-- One conversion: how far the call has come behind it, or what it returns. -/
def convert (reals : Reals) (spec : Spec) (conv : UInt8) (st : State) : Option (State ⊕ ℤ) :=
  let st := if conv = ascii 'c' ∨ conv = ascii '[' ∨ conv = ascii 'n' then st else st.skip
  if conv = ascii 'n' then
    some (.inl (if spec.suppress then st else st.storeInt st.pos spec.width))
  else if conv = ascii 'c' then do
    let n := if spec.max = usizeMax then 1 else spec.max
    let _ ← checkedAdd 64 st.pos n
    if st.input.length < n then some (.inr st.stop)
    else if spec.suppress then some (.inl (st.advance n))
    else some (.inl ((st.put (.bytes (st.input.take n))).advance n))
  else if conv = ascii 's' then some (takeText spec (fun b => ¬ isSpace b) st)
  else if conv = ascii '[' then
    some (takeText spec (fun b => setContains spec.set b ≠ spec.negated) st)
  else if conv = ascii 'd' ∨ conv = ascii 'i' ∨ conv = ascii 'u' ∨ conv = ascii 'o' ∨
      conv = ascii 'x' ∨ conv = ascii 'X' ∨ conv = ascii 'p' then
    let base : ℤ :=
      if conv = ascii 'o' then 8
      else if conv = ascii 'x' ∨ conv = ascii 'X' ∨ conv = ascii 'p' then 16
      else if conv = ascii 'i' then 0
      else 10
    let (value, used) := strtol (st.slice spec.max) base
    if used = 0 then some (.inr st.stop)
    else if spec.suppress then some (.inl (st.advance used))
    else
      some (.inl ((st.putInt value (if conv = ascii 'p' then .long else spec.width)).advance used))
  else if conv = ascii 'f' ∨ conv = ascii 'e' ∨ conv = ascii 'E' ∨ conv = ascii 'g' ∨
      conv = ascii 'G' ∨ conv = ascii 'a' then
    let (value, used) := strtod reals (st.slice spec.max)
    if used = 0 then some (.inr st.stop)
    else if spec.suppress then some (.inl (st.advance used))
    else if spec.width = .long ∨ spec.width = .longLong ∨ spec.width = .double then
      some (.inl ((st.put (.double value)).advance used))
    else some (.inl ((st.put (.float (reals.asFloat value))).advance used))
  -- an unknown letter ends the call
  else some (.inr st.result)

/-! ### Where a conversion ends -/

variable {fmt rest : List UInt8} {spec spec' : Spec}

theorem length_takeSuppress : (takeSuppress spec fmt).2.length ≤ fmt.length := by
  rw [takeSuppress]
  split
  · exact (List.tail_sublist fmt).length_le
  · exact Nat.le_refl _

theorem length_takeMax (h : takeMax spec fmt = some (spec', rest)) : rest.length ≤ fmt.length := by
  rw [takeMax] at h
  split at h
  · simp only [Option.bind_eq_bind, Option.bind_eq_some_iff, Prod.exists, Option.some.injEq,
      Prod.mk.injEq] at h
    obtain ⟨n, fmt', hnumber, -, rfl⟩ := h
    exact length_takeNumber hnumber
  · obtain ⟨-, rfl⟩ := Prod.mk.inj (Option.some.inj h)
    exact Nat.le_refl _

theorem length_takeModifier : (takeModifier spec fmt).2.length ≤ fmt.length := by
  fun_induction takeModifier spec fmt <;> simp_all <;> omega

theorem length_takeRanges {first : Bool} {set : List (UInt8 × UInt8)}
    (h : takeRanges first fmt = some (set, rest)) : rest.length ≤ fmt.length := by
  fun_induction takeRanges first fmt generalizing set with
  | case1 => cases h
  | case2 => cases h; exact Nat.zero_le _
  | case3 => cases h
  | case4 => cases h; exact Nat.le_succ _
  | case5 first c dash _ last fmt' _ ih =>
    obtain ⟨r, hr, heq⟩ := Option.map_eq_some_iff.mp h
    cases heq
    exact (ih hr).trans (by simp only [List.length_cons]; omega)
  | case6 first c dash _ last fmt' _ ih =>
    obtain ⟨r, hr, heq⟩ := Option.map_eq_some_iff.mp h
    cases heq
    exact (ih hr).trans (Nat.le_succ _)
  | case7 first c dash _ ih =>
    obtain ⟨r, hr, heq⟩ := Option.map_eq_some_iff.mp h
    cases heq
    exact (ih hr).trans (Nat.le_succ _)

theorem length_parseSet (h : parseSet spec fmt = some (spec', rest)) :
    rest.length ≤ fmt.length := by
  simp only [parseSet, Option.bind_eq_bind, Option.bind_eq_some_iff, Prod.exists,
    Option.some.injEq, Prod.mk.injEq] at h
  obtain ⟨set, fmt', hranges, -, rfl⟩ := h
  refine (length_takeRanges hranges).trans ?_
  split
  · exact (List.tail_sublist fmt).length_le
  · exact Nat.le_refl _

/-- **A conversion ends** where the rest of the format begins. -/
theorem conversion_length {conv : UInt8} (h : conversion fmt = some (some (spec, conv, rest))) :
    rest.length < fmt.length := by
  simp only [conversion, Option.bind_eq_bind, Option.bind_eq_some_iff, Prod.exists] at h
  obtain ⟨s, f, hmax, h⟩ := h
  have hle : (takeModifier s f).2.length ≤ fmt.length :=
    length_takeModifier.trans ((length_takeMax hmax).trans length_takeSuppress)
  split at h
  · cases h
  · next c fmt' heq =>
    rw [heq] at hle
    refine Nat.lt_of_lt_of_le ?_ hle
    split at h
    · obtain ⟨r, hset, hr⟩ := Option.map_eq_some_iff.mp (Option.some.inj h)
      obtain ⟨-, hr⟩ := Prod.mk.inj hr
      obtain ⟨-, rfl⟩ := Prod.mk.inj hr
      exact Nat.lt_succ_of_le (length_parseSet hset)
    · obtain ⟨-, h⟩ := Prod.mk.inj (Option.some.inj (Option.some.inj h))
      obtain ⟨-, rfl⟩ := Prod.mk.inj h
      exact Nat.lt_succ_self _

/-- Match a format against the input: what is returned, and how far the call has come. -/
def run (reals : Reals) : List UInt8 → State → Option (ℤ × State)
  | [], st => some (st.result, st)
  | b :: fmt, st =>
    if isSpace b then run reals fmt st.skip
    else if b ≠ ascii '%' then
      if st.input = [] then some (st.stop, st)
      else if st.input.head? ≠ some b then some (st.assigned.toInt, st)
      else run reals fmt (st.advance 1)
    else if fmt = [] then some (st.result, st)
    else if fmt.head? = some (ascii '%') then
      if st.input.head? ≠ some (ascii '%') then some (st.stop, st)
      else run reals fmt.tail { st.advance 1 with seen := st.seen }
    else
      match _h : conversion fmt with
      | none => none
      | some none => some (st.result, st)
      | some (some (spec, conv, rest)) =>
        match convert reals spec conv st with
        | none => none
        | some (.inr returned) => some (returned, st)
        | some (.inl st) => run reals rest st
  termination_by fmt => fmt.length
  decreasing_by
    · exact Nat.lt_succ_self _
    · exact Nat.lt_succ_self _
    · exact Nat.lt_succ_of_le (List.tail_sublist _).length_le
    · exact Nat.lt_succ_of_lt (conversion_length _h)

/-- **One conversion** of a format. -/
theorem run_conversion {reals : Reals} {conv : UInt8} (hhead : fmt.head? ≠ some (ascii '%'))
    (hc : conversion fmt = some (some (spec, conv, rest))) (st : State) :
    run reals (ascii '%' :: fmt) st = (convert reals spec conv st).bind fun
      | .inr returned => some (returned, st)
      | .inl st => run reals rest st := by
  have hne : fmt ≠ [] := by
    rintro rfl
    cases hc
  rw [run, if_neg (by decide), if_neg (not_not.mpr rfl), if_neg hne, if_neg hhead]
  split
  · next hnone =>
    rw [hc] at hnone
    cases hnone
  · next hnil =>
    rw [hc] at hnil
    cases hnil
  · next heq =>
    rw [hc] at heq
    cases heq
    split
    · next h =>
      rw [h]
      rfl
    · next h =>
      rw [h]
      rfl
    · next h =>
      rw [h]
      rfl

/-- `scan`: the number of assignments, and what was stored where. -/
def scan (reals : Reals) (input fmt : List UInt8) (dests : Args) :
    Option (ℤ × List (BitVec 64 × Stored)) :=
  (run reals fmt ⟨input, 0, 0, false, dests, []⟩).map fun r => (r.1, r.2.stored)

end Scan

end StarOS
