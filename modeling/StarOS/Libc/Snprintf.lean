import Mathlib.Data.List.GetD
import StarOS.Libc.Format

/-!
# The engine of `printf` and its sinks

The engine sends its output to a sink byte by byte and counts the bytes on the way, since a sink
that truncates cannot say how many there were. `snprintf` gives it a buffer for a sink.

The arithmetic of floating-point numbers comes from outside (`Floats`); the engine takes its results
apart into digits.

## Main definitions

* `Format.Counter`
* `Format.Floats`, `Format.emitFloat` — `%f`
* `Format.emit` — the engine with a sink
* `Format.BufSink`, `Format.snprintf`

## Main results

* `Format.emit_eq` — every sink gets the same bytes, and they are counted
* `Format.snprintf_truncates`
-/

namespace StarOS

namespace Format

open Checked

/-! ### The engine with a sink -/

/-- Somewhere formatted bytes go. -/
class Sink (σ : Type) where
  push : σ → UInt8 → σ

/-- Wraps a sink to count bytes. -/
structure Counter (σ : Type) where
  inner : σ
  n : ℕ

variable {σ : Type} [Sink σ]

def Counter.push (out : Counter σ) (byte : UInt8) : Counter σ :=
  ⟨Sink.push out.inner byte, out.n + 1⟩

/-- Push one byte after the other. -/
def Counter.pushAll (out : Counter σ) (bytes : List UInt8) : Counter σ := bytes.foldl .push out

/-- Push the same byte `n` times. -/
def Counter.pushTimes (byte : UInt8) : ℕ → Counter σ → Counter σ
  | 0, out => out
  | n + 1, out => pushTimes byte n (out.push byte)

/-- Push something if a condition holds. -/
def Counter.when (out : Counter σ) (p : Prop) [Decidable p] (f : Counter σ → Counter σ) :
    Counter σ := if p then f out else out

/-- Emit `body`, which writes `len` bytes, inside the spec's width. -/
def emitPad (out : Counter σ) (spec : Spec) (len : ℕ) (body : Counter σ → Counter σ) : Counter σ :=
  let fill := spec.width - len
  if spec.left then .pushTimes (ascii ' ') fill (body out)
  else body (.pushTimes (ascii ' ') fill out)

/-- Emit an integer with the spec's flags applied. -/
def emitInteger (out : Counter σ) (spec : Spec) (value base : ℕ) (upper : Bool)
    (sign : Option UInt8) (hasPrefix : Bool) : Option (Counter σ) := do
  let buf ← digitLoop upper base 24 value
  let buf := if spec.precision = some 0 ∧ value = 0 then [] else buf
  let n := buf.length
  let zeros := spec.precision.getD 0 - n
  let prefixLen :=
    if hasPrefix ∧ value ≠ 0 then if base = 16 then 2 else if base = 8 then 1 else 0 else 0
  let body ← checkedAdd 64 n zeros
  let body ← checkedAdd 64 body prefixLen
  let body ← checkedAdd 64 body sign.toList.length
  let fill := spec.width - body
  let out := out.when (¬ spec.left ∧ ¬ spec.zero) (.pushTimes (ascii ' ') fill)
  let out := out.pushAll sign.toList
  let out := out.when (0 < prefixLen) fun out =>
    (out.push (ascii '0')).when (base = 16) (·.push (if upper then ascii 'X' else ascii 'x'))
  let out := out.when (¬ spec.left ∧ spec.zero ∧ spec.precision = none)
    (.pushTimes (ascii '0') fill)
  let out := Counter.pushTimes (ascii '0') zeros out
  let out := out.pushAll buf.reverse
  some (out.when spec.left (.pushTimes (ascii ' ') fill))

/-- The arithmetic on the magnitude of a floating-point number: whether it reaches the limit up to
which it is rendered digit for digit, its integer part, and the rounded product with a power of
ten. -/
structure Floats where
  large : BitVec 64 → Bool
  whole : BitVec 64 → ℕ
  scaled : ℕ → BitVec 64 → ℕ

def isNan (value : BitVec 64) : Bool :=
  value.toNat / 2 ^ 52 % 2 ^ 11 = 2 ^ 11 - 1 ∧ value.toNat % 2 ^ 52 ≠ 0

def isInfinite (value : BitVec 64) : Bool :=
  value.toNat / 2 ^ 52 % 2 ^ 11 = 2 ^ 11 - 1 ∧ value.toNat % 2 ^ 52 = 0

/-- The digits of an integer part, the least significant first, as far as there is room. -/
def fixedDigits : ℕ → ℕ → List UInt8
  | 0, _ => []
  | room + 1, v =>
    (ascii '0' + .ofNat (v % 10)) :: if v / 10 = 0 then [] else fixedDigits room (v / 10)

/-- Emit so many digits of a fraction. -/
def emitFraction : ℕ → ℕ → ℕ → Counter σ → Counter σ
  | 0, _, _, out => out
  | n + 1, scale, rest, out =>
    let scale := scale / 10
    emitFraction n scale (rest % scale) (out.push (ascii '0' + .ofNat (rest / scale)))

/-- Emit `sign whole [. frac]` inside the spec's width. -/
def emitFixed (out : Counter σ) (spec : Spec) (sign : Option UInt8) (whole frac precision : ℕ) :
    Counter σ :=
  let digits := fixedDigits 40 whole
  let body := digits.length + sign.toList.length + if 0 < precision then precision + 1 else 0
  let fill := spec.width - body
  let out := out.when (¬ spec.left ∧ ¬ spec.zero) (.pushTimes (ascii ' ') fill)
  let out := out.pushAll sign.toList
  let out := out.when (¬ spec.left ∧ spec.zero) (.pushTimes (ascii '0') fill)
  let out := out.pushAll digits.reverse
  let out := out.when (0 < precision) fun out =>
    emitFraction precision (10 ^ precision) frac (out.push (ascii '.'))
  out.when spec.left (.pushTimes (ascii ' ') fill)

/-- Emit `%f`. -/
def emitFloat (floats : Floats) (out : Counter σ) (spec : Spec) (value : BitVec 64) : Counter σ :=
  let precision := min (spec.precision.getD 6) 17
  let sign := if value.msb then some (ascii '-') else if spec.plus then some (ascii '+')
    else if spec.space then some (ascii ' ') else none
  if isNan value ∨ isInfinite value then
    let text := (if isNan value then "nan" else "inf").toList.map ascii
    let sign := if isNan value then [] else sign.toList
    emitPad out spec (text.length + sign.length) fun out => (out.pushAll sign).pushAll text
  else if floats.large value then emitFixed out spec sign (floats.whole value) 0 0
  else
    let scale := 10 ^ precision
    let scaled := floats.scaled precision value
    emitFixed out spec sign (scaled / scale) (scaled % scale) precision

/-- Emit what one conversion letter asks for; a letter that is not supported is emitted as it was
`written`. -/
def emitConversion (asBytes : BitVec 64 → List UInt8) (floats : Floats) (out : Counter σ)
    (spec : Spec) (conversion : UInt8) (written : List UInt8) (args : Args) :
      Option (Counter σ × Args) :=
  let len := spec.length.getD .int
  if conversion = ascii 'c' then
    let c := (args.int .int).toNat.toUInt8
    some (emitPad out spec 1 (·.push c), args.rest)
  else if conversion = ascii 's' then
    let bytes := if args 0 = 0 then "(null)".toList.map ascii else asBytes (args 0)
    let n := match spec.precision with
      | none => bytes.length
      | some p => min p bytes.length
    some (emitPad out spec n (·.pushAll (bytes.take n)), args.rest)
  else if conversion = ascii 'd' ∨ conversion = ascii 'i' then do
    let v := (args.int len).toInt
    let out ← emitInteger out spec v.natAbs 10 false (signOf spec v) false
    some (out, args.rest)
  else if conversion = ascii 'u' then do
    let out ← emitInteger out spec (args.uint len).toNat 10 false none false
    some (out, args.rest)
  else if conversion = ascii 'x' then do
    let out ← emitInteger out spec (args.uint len).toNat 16 false none spec.alt
    some (out, args.rest)
  else if conversion = ascii 'X' then do
    let out ← emitInteger out spec (args.uint len).toNat 16 true none spec.alt
    some (out, args.rest)
  else if conversion = ascii 'o' then do
    let out ← emitInteger out spec (args.uint len).toNat 8 false none spec.alt
    some (out, args.rest)
  else if conversion = ascii 'p' then do
    let out ← emitInteger out { spec with alt := true } (args 0).toNat 16 false none true
    some (out, args.rest)
  else if conversion = ascii 'f' ∨ conversion = ascii 'F' then
    some (emitFloat floats out spec (args 0), args.rest)
  else some (out.pushAll written, args)

/-- Format `fmt` into a sink, pulling arguments from `args`. -/
def emit (asBytes : BitVec 64 → List UInt8) (floats : Floats) : List UInt8 → Args → Counter σ →
    Option (Counter σ)
  | [], _, out => some out
  | b :: fmt, args, out =>
    if b ≠ ascii '%' then emit asBytes floats fmt args (out.push b)
    -- a `%` at the end is not a conversion
    else if fmt = [] then some (out.push (ascii '%'))
    else if fmt.head? = some (ascii '%') then emit asBytes floats fmt.tail args
        (out.push (ascii '%'))
    else
      match _h : directive fmt args with
      | none => none
      | some (_, [], _) => some out
      | some (spec, conversion :: rest, args) =>
        match emitConversion asBytes floats out spec conversion
          ((b :: fmt).take (fmt.length + 1 - rest.length)) args with
        | none => none
        | some (out, args) => emit asBytes floats rest args out
  termination_by fmt => fmt.length
  decreasing_by
    · exact Nat.lt_succ_self _
    · exact Nat.lt_succ_of_le (List.tail_sublist _).length_le
    · have hlen := directive_length _h
      rw [List.length_cons] at hlen ⊢
      omega

/-! ### What a sink gets -/

/-- An unbounded sink. -/
instance : Sink (List UInt8) := ⟨fun bytes byte => bytes ++ [byte]⟩

/-- What `%f` emits. -/
def floatText (floats : Floats) (spec : Spec) (value : BitVec 64) : List UInt8 :=
  (emitFloat floats (⟨[], 0⟩ : Counter (List UInt8)) spec value).inner

variable {out : Counter σ} {spec : Spec} {args : Args} {fmt : List UInt8}
  {asBytes : BitVec 64 → List UInt8} {floats : Floats}

theorem Counter.pushTimes_eq (byte : UInt8) (n : ℕ) :
    Counter.pushTimes byte n out = out.pushAll (List.replicate n byte) := by
  induction n generalizing out with
  | zero => rfl
  | succ n ih => exact ih

theorem Counter.pushAll_append (s t : List UInt8) :
    (out.pushAll s).pushAll t = out.pushAll (s ++ t) :=
  List.foldl_append.symm

theorem Counter.when_eq {p : Prop} [Decidable p] {f : Counter σ → Counter σ} {text : List UInt8}
    (hf : ∀ out, f out = out.pushAll text) : out.when p f =
      out.pushAll (if p then text else []) := by
  rw [when]
  split
  · exact hf out
  · rfl

theorem emitPad_eq {len : ℕ} {body : Counter σ → Counter σ} (text : List UInt8)
    (hlen : text.length = len) (hbody : ∀ out, body out = out.pushAll text) :
    emitPad out spec len body = out.pushAll (pad spec text) := by
  rw [emitPad, pad, hlen]
  rw [Counter.pushTimes_eq, Counter.pushTimes_eq, hbody, hbody, Counter.pushAll_append,
    Counter.pushAll_append]
  split <;> rfl

theorem emitInteger_eq {value base : ℕ} {upper : Bool} {sign : Option UInt8} {hasPrefix : Bool} :
    emitInteger out spec value base upper sign hasPrefix =
      (integer spec value base upper sign hasPrefix).map out.pushAll := by
  have hpfx : ∀ out : Counter σ, ((out.push (ascii '0')).when (base = 16)
      (·.push (if upper then ascii 'X' else ascii 'x'))) = out.pushAll (ascii '0' ::
        (if base = 16 then [if upper then ascii 'X' else ascii 'x'] else [])) := by
    intro out
    rw [Counter.when]
    split <;> rfl
  rw [emitInteger, integer]
  simp only [Option.bind_eq_bind, checkedAdd_bind]
  cases digitLoop upper base 24 value with
  | none => rfl
  | some buf =>
    simp only [Option.bind_some]
    generalize (if spec.precision = some 0 ∧ value = 0 then [] else buf) = buf
    generalize (if hasPrefix ∧ value ≠ 0 then if base = 16 then 2 else if base = 8 then 1 else 0
      else 0) = prefixLen
    generalize buf.length + (spec.precision.getD 0 - buf.length) + prefixLen +
      sign.toList.length = body
    by_cases hfit : body < 2 ^ 64
    · rw [if_pos hfit, if_pos hfit, Option.map_some,
        Counter.when_eq fun _ => Counter.pushTimes_eq _ _,
        Counter.when_eq fun _ => Counter.pushTimes_eq _ _,
        Counter.when_eq fun _ => Counter.pushTimes_eq _ _,
        Counter.when_eq hpfx, Counter.pushTimes_eq]
      simp only [Counter.pushAll_append, List.append_assoc]
      rfl
    · rw [if_neg hfit, if_neg hfit]
      rfl

/-- The texts of the engine's arguments. -/
abbrev sourceOf (asBytes : BitVec 64 → List UInt8) (floats : Floats) : Source :=
  ⟨asBytes, floatText floats⟩

theorem Counter.inner_pushAll (out : Counter (List UInt8)) (bytes : List UInt8) :
    (out.pushAll bytes).inner = out.inner ++ bytes := by
  induction bytes generalizing out with
  | nil => exact (List.append_nil _).symm
  | cons byte bytes ih =>
    show ((out.push byte).pushAll bytes).inner = _
    rw [ih]
    exact List.append_assoc _ _ _

theorem emitFraction_eq (n scale rest : ℕ) : ∃ text, ∀ {σ : Type} [Sink σ] (out : Counter σ),
    emitFraction n scale rest out = out.pushAll text := by
  induction n generalizing scale rest with
  | zero => exact ⟨[], fun _ => rfl⟩
  | succ n ih =>
    obtain ⟨text, htext⟩ := ih (scale / 10) (rest % (scale / 10))
    exact ⟨_ :: text, fun _ => htext _⟩

theorem emitFixed_eq (spec : Spec) (sign : Option UInt8) (whole frac precision : ℕ) :
    ∃ text, ∀ {σ : Type} [Sink σ] (out : Counter σ),
      emitFixed out spec sign whole frac precision = out.pushAll text := by
  obtain ⟨fraction, hfraction⟩ := emitFraction_eq precision (10 ^ precision) frac
  have hpoint : ∀ {σ : Type} [Sink σ] (out : Counter σ),
      emitFraction precision (10 ^ precision) frac (out.push (ascii '.')) =
        out.pushAll (ascii '.' :: fraction) := fun out => hfraction _
  apply Exists.intro
  intro σ _ out
  rw [emitFixed, Counter.when_eq fun _ => Counter.pushTimes_eq _ _,
    Counter.when_eq fun _ => Counter.pushTimes_eq _ _,
    Counter.when_eq fun _ => Counter.pushTimes_eq _ _, Counter.when_eq hpoint]
  rw [Counter.pushAll_append, Counter.pushAll_append, Counter.pushAll_append,
    Counter.pushAll_append, Counter.pushAll_append]

theorem emitFloat_eq (value : BitVec 64) :
    emitFloat floats out spec value = out.pushAll (floatText floats spec value) := by
  obtain ⟨text, htext⟩ : ∃ text, ∀ {σ : Type} [Sink σ] (out : Counter σ),
      emitFloat floats out spec value = out.pushAll text := by
    by_cases hfinite : isNan value ∨ isInfinite value
    · simp only [emitFloat, if_pos hfinite]
      exact ⟨_, fun _ => emitPad_eq (_ ++ _) (List.length_append.trans (Nat.add_comm _ _))
        fun _ => Counter.pushAll_append _ _⟩
    simp only [emitFloat, if_neg hfinite]
    by_cases hlarge : floats.large value
    · simp only [if_pos hlarge]
      exact emitFixed_eq _ _ _ _ _
    · simp only [if_neg hlarge]
      exact emitFixed_eq _ _ _ _ _
  rw [floatText, htext, htext, Counter.inner_pushAll]
  rfl

theorem emitConversion_eq (conversion : UInt8) (written : List UInt8) :
    emitConversion asBytes floats out spec conversion written args =
      (convert (sourceOf asBytes floats) spec conversion args).map fun r =>
        (out.pushAll (r.1.getD written), r.2) := by
  have hinteger : ∀ spec value base upper sign hasPrefix,
      (do
        let out ← emitInteger out spec value base upper sign hasPrefix
        some (out, args.rest)) =
      (do
        let text ← integer spec value base upper sign hasPrefix
        some (some text, args.rest)).map fun r : Option (List UInt8) × Args =>
          (out.pushAll (r.1.getD written), r.2) := by
    intro spec value base upper sign hasPrefix
    rw [emitInteger_eq]
    cases integer spec value base upper sign hasPrefix <;> rfl
  rw [emitConversion, convert]
  by_cases hc : conversion = ascii 'c'
  · rw [if_pos hc, if_pos hc]
    exact congrArg (fun out => some (out, args.rest)) (emitPad_eq [_] rfl fun _ => rfl)
  rw [if_neg hc, if_neg hc]
  by_cases hs : conversion = ascii 's'
  · rw [if_pos hs, if_pos hs]
    refine congrArg (fun out => some (out, args.rest)) (emitPad_eq _ ?_ fun _ => rfl)
    rw [List.length_take]
    refine Nat.min_eq_left ?_
    split
    · exact Nat.le_refl _
    · exact Nat.min_le_right _ _
  rw [if_neg hs, if_neg hs]
  by_cases hd : conversion = ascii 'd' ∨ conversion = ascii 'i'
  · rw [if_pos hd, if_pos hd]
    exact hinteger _ _ _ _ _ _
  rw [if_neg hd, if_neg hd]
  by_cases hu : conversion = ascii 'u'
  · rw [if_pos hu, if_pos hu]
    exact hinteger _ _ _ _ _ _
  rw [if_neg hu, if_neg hu]
  by_cases hx : conversion = ascii 'x'
  · rw [if_pos hx, if_pos hx]
    exact hinteger _ _ _ _ _ _
  rw [if_neg hx, if_neg hx]
  by_cases hX : conversion = ascii 'X'
  · rw [if_pos hX, if_pos hX]
    exact hinteger _ _ _ _ _ _
  rw [if_neg hX, if_neg hX]
  by_cases ho : conversion = ascii 'o'
  · rw [if_pos ho, if_pos ho]
    exact hinteger _ _ _ _ _ _
  rw [if_neg ho, if_neg ho]
  by_cases hp : conversion = ascii 'p'
  · rw [if_pos hp, if_pos hp]
    exact hinteger _ _ _ _ _ _
  rw [if_neg hp, if_neg hp]
  by_cases hf : conversion = ascii 'f' ∨ conversion = ascii 'F'
  · rw [if_pos hf, if_pos hf, emitFloat_eq]
    rfl
  · rw [if_neg hf, if_neg hf]
    rfl

/-- **Every sink gets the same bytes**, and they are counted. -/
theorem emit_eq (asBytes : BitVec 64 → List UInt8) (floats : Floats) (fmt : List UInt8)
    (args : Args) (out : Counter σ) : emit asBytes floats fmt args out =
      (format (sourceOf asBytes floats) fmt args).map out.pushAll := by
  fun_induction format (sourceOf asBytes floats) fmt args generalizing out with
  | case1 => rw [emit]; rfl
  | case2 args b fmt hb ih =>
    rw [emit, if_pos hb, ih, Option.map_map]
    rfl
  | case3 args b hb =>
    rw [emit, if_neg hb, if_pos rfl]
    rfl
  | case4 args b fmt hb hne hhead ih =>
    rw [emit, if_neg hb, if_neg hne, if_pos hhead, ih, Option.map_map]
    rfl
  | case5 args b fmt hb hne hhead hd =>
    rw [emit, if_neg hb, if_neg hne, if_neg hhead]
    split
    · rfl
    · next heq => rw [hd] at heq; cases heq
    · next heq => rw [hd] at heq; cases heq
  | case6 args b fmt hb hne hhead spec args' hd =>
    rw [emit, if_neg hb, if_neg hne, if_neg hhead]
    split
    · next heq => rw [hd] at heq; cases heq
    · rfl
    · next heq => rw [hd] at heq; cases heq
  | case7 args b fmt hb hne hhead spec conversion rest args' hd hc =>
    rw [emit, if_neg hb, if_neg hne, if_neg hhead]
    split
    · next heq => rw [hd] at heq; cases heq
    · next heq => rw [hd] at heq; cases heq
    · next heq =>
      rw [hd] at heq
      cases heq
      rw [emitConversion_eq, hc]
      rfl
  | case8 args b fmt hb hne hhead spec conversion rest args' hd text args'' hc ih =>
    rw [emit, if_neg hb, if_neg hne, if_neg hhead]
    split
    · next heq => rw [hd] at heq; cases heq
    · next heq => rw [hd] at heq; cases heq
    · next heq =>
      rw [hd] at heq
      cases heq
      rw [emitConversion_eq, hc, Option.map_some]
      dsimp only
      rw [ih, Option.map_map]
      refine congrArg (Option.map · _) (funext fun more => ?_)
      exact Counter.pushAll_append _ _

/-- What the engine sends to an unbounded sink. -/
def complete (asBytes : BitVec 64 → List UInt8) (floats : Floats) (fmt : List UInt8) (args : Args) :
    Option (List UInt8) :=
  (emit asBytes floats fmt args (⟨[], 0⟩ : Counter (List UInt8))).map Counter.inner

theorem complete_eq :
    complete asBytes floats fmt args = format (sourceOf asBytes floats) fmt args := by
  rw [complete, emit_eq, Option.map_map]
  have hid : (Counter.inner ∘ Counter.pushAll (⟨[], 0⟩ : Counter (List UInt8))) = id :=
    funext fun bytes => Counter.inner_pushAll _ _
  rw [hid, Option.map_id]
  rfl

theorem Counter.n_pushAll (bytes : List UInt8) : (out.pushAll bytes).n = out.n + bytes.length := by
  induction bytes generalizing out with
  | nil => rfl
  | cons byte bytes ih =>
    show ((out.push byte).pushAll bytes).n = _
    rw [ih]
    exact Nat.add_right_comm out.n 1 bytes.length

/-! ### A buffer for a sink -/

/-- A sink that writes into a buffer of `size` bytes at `buf` and counts everything. -/
structure BufSink where
  mem : ℕ → UInt8
  buf : ℕ
  size : ℕ
  written : ℕ

def BufSink.push (sink : BufSink) (byte : UInt8) : BufSink :=
  { sink with
    mem := if sink.written < sink.size then
      Function.update sink.mem (sink.buf + sink.written) byte else sink.mem
    written := sink.written + 1 }

instance : Sink BufSink := ⟨BufSink.push⟩

/-- Format into `size` bytes at `buf`: what is returned, and the memory. -/
def snprintf (asBytes : BitVec 64 → List UInt8) (floats : Floats) (mem : ℕ → UInt8)
    (buf size : ℕ) (fmt : List UInt8) (args : Args) : Option (ℤ × (ℕ → UInt8)) := do
  let out ← emit asBytes floats fmt args ⟨(⟨mem, buf, size, 0⟩ : BufSink), 0⟩
  let mem := if 0 < size then Function.update out.inner.mem (buf + min out.n (size - 1)) 0
    else out.inner.mem
  some ((BitVec.ofNat 32 out.n).toInt, mem)

theorem BufSink.mem_push (sink : BufSink) (byte : UInt8) (a : ℕ) : (sink.push byte).mem a =
    if sink.written < sink.size ∧ a = sink.buf + sink.written then byte else sink.mem a := by
  rw [push]
  by_cases hroom : sink.written < sink.size
  · simp only [hroom, true_and]
    exact Function.update_apply _ _ _ _
  · simp only [hroom, false_and]
    rfl

/-- What is written to a buffer. -/
theorem BufSink.mem_pushAll (out : Counter BufSink) (bytes : List UInt8) (a : ℕ) :
    (out.pushAll bytes).inner.mem a =
      if out.inner.buf + out.inner.written ≤ a ∧ a < out.inner.buf + out.inner.size then
        bytes.getD (a - (out.inner.buf + out.inner.written)) (out.inner.mem a)
      else out.inner.mem a := by
  obtain ⟨sink, n⟩ := out
  induction bytes generalizing sink n with
  | nil =>
    rw [List.getD_nil, ite_self]
    rfl
  | cons byte bytes ih =>
    have hnext := ih (sink.push byte) (n + 1)
    have hbuf : (sink.push byte).buf = sink.buf := rfl
    have hsize : (sink.push byte).size = sink.size := rfl
    have hwritten : (sink.push byte).written = sink.written + 1 := rfl
    rw [hbuf, hsize, hwritten, mem_push] at hnext
    refine hnext.trans ?_
    dsimp only
    by_cases ha : a = sink.buf + sink.written
    · subst ha
      rw [if_neg (by omega), Nat.sub_self, List.getD_cons_zero]
      exact if_congr (by omega) rfl rfl
    · rw [if_neg (fun h : _ ∧ _ => ha h.2)]
      by_cases hin : sink.buf + sink.written ≤ a ∧ a < sink.buf + sink.size
      · have hbehind : a - (sink.buf + sink.written) =
            a - (sink.buf + (sink.written + 1)) + 1 := by omega
        rw [if_pos (by omega), if_pos hin, hbehind, List.getD_cons_succ]
      · rw [if_neg (by omega), if_neg hin]

/-- **`snprintf` truncates.** It returns the length of the complete output whatever the size is;
the buffer holds as much of it as there is room for in front of a NUL, and no other byte changes. -/
theorem snprintf_truncates (asBytes : BitVec 64 → List UInt8) (floats : Floats) (fmt : List UInt8)
    (args : Args) {text : List UInt8} (h : complete asBytes floats fmt args = some text)
    (hlen : text.length < 2 ^ 31) (mem : ℕ → UInt8) (buf size : ℕ) :
    ∃ mem', snprintf asBytes floats mem buf size fmt args = some ((text.length : ℤ), mem') ∧
      (∀ i < min text.length (size - 1), mem' (buf + i) = text.getD i 0) ∧
      (0 < size → mem' (buf + min text.length (size - 1)) = 0) ∧
      ∀ a, a < buf ∨ buf + size ≤ a → mem' a = mem a := by
  rw [complete_eq] at h
  have hreturned : (BitVec.ofNat 32 text.length).toInt = text.length := by
    rw [BitVec.toInt_ofNat', Int.bmod_eq_of_le (by omega) (by omega)]
  obtain ⟨written, hwritten⟩ : ∃ written, written = Counter.pushAll
    ⟨(⟨mem, buf, size, 0⟩ : BufSink), 0⟩ text := ⟨_, rfl⟩
  have hn : written.n = text.length := by
    rw [hwritten, Counter.n_pushAll, Nat.zero_add]
  have hmem : ∀ a, written.inner.mem a =
      if buf ≤ a ∧ a < buf + size then text.getD (a - buf) (mem a) else mem a := by
    rw [hwritten]
    exact BufSink.mem_pushAll _ text
  rw [snprintf, emit_eq, h, Option.map_some, Option.bind_eq_bind, Option.bind_some, ← hwritten, hn,
    hreturned]
  refine ⟨_, rfl, fun i hi => ?_, fun hsize => ?_, fun a ha => ?_⟩
  · rw [if_pos (by omega), Function.update_of_ne (by omega), hmem, if_pos (by omega),
      Nat.add_sub_cancel_left, List.getD_eq_getElem _ _ (by omega),
      List.getD_eq_getElem _ _ (by omega)]
  · rw [if_pos hsize, Function.update_self]
  · have hout : written.inner.mem a = mem a := (hmem a).trans (if_neg (by omega))
    split
    · rw [Function.update_of_ne (by omega), hout]
    · exact hout

theorem snprintf_truncates_padded : ∃ mem', snprintf (fun _ => []) ⟨fun _ => false, fun _ => 0,
      fun _ _ => 0⟩ (fun _ => 1) 16 4 ("%5d|".toList.map ascii) (fun _ => 42) = some (6, mem') ∧
    (∀ i < min 6 (4 - 1), mem' (16 + i) = ("   42|".toList.map ascii).getD i 0) ∧
    (0 < 4 → mem' (16 + min 6 (4 - 1)) = 0) ∧ ∀ a, a < 16 ∨ 16 + 4 ≤ a → mem' a = 1 :=
  snprintf_truncates (fun _ => []) ⟨fun _ => false, fun _ => 0, fun _ _ => 0⟩
    ("%5d|".toList.map ascii) (fun _ => 42) (show complete _ _ _ _ =
      some ("   42|".toList.map ascii) by
      decide +kernel) (by decide) (fun _ => 1) 16 4

end Format

end StarOS
