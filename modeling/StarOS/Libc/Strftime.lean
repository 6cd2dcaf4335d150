import StarOS.Libc.Calendar
import StarOS.Libc.Format

/-!
# Times in words

`strftime` copies a format to a buffer and puts a field of a time for every conversion. What does
not fit ends the call without a length, and a buffer is never written behind its end.

## Main definitions

* `Time.pieces` — what a conversion appends, one piece after the other
* `Time.strftime`
* `Time.expansion` — what a format stands for, however long it is

## Main results

* `Time.strftime_eq` — the buffer begins with the expansion, if that fits
* `Time.expansion_append` — formats are expanded one behind the other
* `Time.strftime_exact`
-/

namespace StarOS

namespace Time

/-- The bytes of a text. -/
def bytes (text : String) : List UInt8 := text.toList.map ascii

def dayNames : List String :=
  ["Sunday", "Monday", "Tuesday", "Wednesday", "Thursday", "Friday", "Saturday"]

def monthNames : List String :=
  ["January", "February", "March", "April", "May", "June", "July", "August", "September", "October",
    "November", "December"]

/-- An index that cannot leave its table. -/
def wrap (value : BitVec 32) (len : ℕ) : ℕ := (value.toInt % len).toNat

/-- The 12-hour clock, where midnight is 12 rather than 0. -/
def hour12 (hour : BitVec 32) : ℤ :=
  let h := hour.toInt.tmod 12
  if h = 0 then 12 else h

/-- The decimal digits of an integer, the least significant first, as far as there is room. -/
def decimal : ℕ → ℕ → List UInt8
  | 0, _ => []
  | room + 1, v => (ascii '0' + .ofNat (v % 10)) :: if v / 10 = 0 then [] else decimal room (v / 10)

/-- A number, padded to `width`. -/
def number (value : ℤ) (width : ℕ) (pad : UInt8) : List UInt8 :=
  let digits := decimal 20 value.natAbs
  let sign := if value < 0 then [ascii '-'] else []
  sign ++ List.replicate (width - (digits.length + sign.length)) pad ++ digits.reverse

/-- What a conversion that needs no second count appends. -/
def fields (tm : Tm) (conv : UInt8) : List (List UInt8) :=
  let year := tm.tm_year.toInt + 1900
  let mon := tm.tm_mon.toInt + 1
  let mday := tm.tm_mday.toInt
  let hour := tm.tm_hour.toInt
  let min := tm.tm_min.toInt
  let sec := tm.tm_sec.toInt
  if conv = ascii '%' then [bytes "%"]
  else if conv = ascii 'n' then [bytes "\n"]
  else if conv = ascii 't' then [bytes "\t"]
  else if conv = ascii 'a' then [(bytes (dayNames.getD (wrap tm.tm_wday 7) "")).take 3]
  else if conv = ascii 'A' then [bytes (dayNames.getD (wrap tm.tm_wday 7) "")]
  else if conv = ascii 'b' ∨ conv = ascii 'h' then
    [(bytes (monthNames.getD (wrap tm.tm_mon 12) "")).take 3]
  else if conv = ascii 'B' then [bytes (monthNames.getD (wrap tm.tm_mon 12) "")]
  else if conv = ascii 'C' then [number (year.tdiv 100) 2 (ascii '0')]
  else if conv = ascii 'd' then [number mday 2 (ascii '0')]
  else if conv = ascii 'e' then [number mday 2 (ascii ' ')]
  else if conv = ascii 'H' then [number hour 2 (ascii '0')]
  else if conv = ascii 'I' then [number (hour12 tm.tm_hour) 2 (ascii '0')]
  else if conv = ascii 'j' then [number (tm.tm_yday.toInt + 1) 3 (ascii '0')]
  else if conv = ascii 'm' then [number mon 2 (ascii '0')]
  else if conv = ascii 'M' then [number min 2 (ascii '0')]
  else if conv = ascii 'p' then [if hour < 12 then bytes "AM" else bytes "PM"]
  else if conv = ascii 'S' then [number sec 2 (ascii '0')]
  else if conv = ascii 'u' then
    [number (if tm.tm_wday = 0 then 7 else tm.tm_wday.toInt) 1 (ascii '0')]
  else if conv = ascii 'w' then [number tm.tm_wday.toInt 1 (ascii '0')]
  else if conv = ascii 'y' then [number (year % 100) 2 (ascii '0')]
  else if conv = ascii 'Y' then [number year 1 (ascii '0')]
  else if conv = ascii 'Z' then [bytes "UTC"]
  else if conv = ascii 'z' then [bytes "+0000"]
  -- the composite conversions
  else if conv = ascii 'D' then [number mon 2 (ascii '0'), bytes "/", number mday 2 (ascii '0'),
    bytes "/", number (year % 100) 2 (ascii '0')]
  else if conv = ascii 'F' then [number year 4 (ascii '0'), bytes "-", number mon 2 (ascii '0'),
    bytes "-", number mday 2 (ascii '0')]
  else if conv = ascii 'R' then [number hour 2 (ascii '0'), bytes ":", number min 2 (ascii '0')]
  else if conv = ascii 'T' then [number hour 2 (ascii '0'), bytes ":", number min 2 (ascii '0'),
    bytes ":", number sec 2 (ascii '0')]
  -- an unknown conversion is copied
  else [bytes "%", [conv]]

/-- What a conversion appends, one piece after the other. -/
def pieces (tm : Tm) (conv : UInt8) : Option (List (List UInt8)) :=
  if conv = ascii 's' then (epochFromTm tm).map fun seconds => [number seconds 1 (ascii '0')]
  else some (fields tm conv)

/-- A buffer, and how much of it is written. -/
structure Out where
  buf : List UInt8
  n : ℕ

/-- Append bytes, or report that they do not fit. -/
def Out.push (out : Out) (text : List UInt8) : Option Out :=
  if out.n + text.length > out.buf.length then none
  else some ⟨out.buf.take out.n ++ text ++ out.buf.drop (out.n + text.length), out.n + text.length⟩

/-- Append one piece after the other, until one does not fit. -/
def Out.pushAll (out : Out) (texts : List (List UInt8)) : Option Out := texts.foldlM Out.push out

/-- Format a time behind what is written. The inner result is `none` where something did not
fit. -/
def strftime (tm : Tm) : List UInt8 → Out → Option (Option Out)
  | [], out => some (some out)
  | [c], out => if c ≠ ascii '%' then some (out.push [c]) else some (some out)
  | c :: conv :: format, out =>
    if c ≠ ascii '%' then
      match out.push [c] with
      | none => some none
      | some out => strftime tm (conv :: format) out
    else do
      let texts ← pieces tm conv
      match out.pushAll texts with
      | none => some none
      | some out => strftime tm format out

/-! ### What a format stands for -/

/-- What a format stands for, however long it is. -/
def expansion (tm : Tm) : List UInt8 → Option (List UInt8)
  | [] => some []
  | [c] => some (if c ≠ ascii '%' then [c] else [])
  | c :: conv :: format =>
    if c ≠ ascii '%' then (expansion tm (conv :: format)).map (c :: ·)
    else do
      let texts ← pieces tm conv
      (expansion tm format).map (texts.flatten ++ ·)

/-- A format that does not end in a conversion. -/
def EndsOutside : List UInt8 → Prop
  | [] => True
  | [c] => c ≠ ascii '%'
  | c :: conv :: format => if c ≠ ascii '%' then EndsOutside (conv :: format) else EndsOutside
      format

variable {tm : Tm} {f g : List UInt8}

/-- **Formats are expanded** one behind the other. -/
theorem expansion_append (hf : EndsOutside f) : expansion tm (f ++ g) =
    (expansion tm f).bind fun s => (expansion tm g).map (s ++ ·) := by
  fun_induction EndsOutside f with
  | case1 => exact Option.map_id'.symm
  | case2 c =>
    cases g with
    | nil => simp [expansion, hf]
    | cons d g => simp [expansion, hf]
  | case3 c conv f hc ih =>
    rw [List.cons_append, List.cons_append, expansion, if_pos hc, expansion, if_pos hc,
      ← List.cons_append, ih hf]
    cases expansion tm (conv :: f) with
    | none => rfl
    | some s => exact Option.map_map ..
  | case4 c conv f hc ih =>
    rw [List.cons_append, List.cons_append, expansion, if_neg hc, expansion, if_neg hc, ih hf]
    cases pieces tm conv with
    | none => rfl
    | some texts =>
      cases expansion tm f with
      | none => rfl
      | some s =>
        show ((expansion tm g).map (s ++ ·)).map (texts.flatten ++ ·) =
          (expansion tm g).map ((texts.flatten ++ s) ++ ·)
        rw [Option.map_map]
        exact congrArg (Option.map · _) (funext fun t => (List.append_assoc _ _ _).symm)

/-- Nothing overflows. -/
theorem exists_pieces (tm : Tm) (conv : UInt8) : ∃ texts, pieces tm conv = some texts := by
  rw [pieces]
  split
  · rw [(epochFromTm_eq tm).1]
    exact ⟨_, rfl⟩
  · exact ⟨_, rfl⟩

theorem exists_expansion (tm : Tm) (f : List UInt8) : ∃ s, expansion tm f = some s := by
  fun_induction expansion tm f with
  | case1 => exact ⟨_, rfl⟩
  | case2 => exact ⟨_, rfl⟩
  | case3 c conv f hc ih =>
    obtain ⟨s, hs⟩ := ih
    exact ⟨_, by rw [hs]; rfl⟩
  | case4 c conv f hc ih =>
    obtain ⟨s, hs⟩ := ih
    obtain ⟨texts, htexts⟩ := exists_pieces tm conv
    exact ⟨_, by rw [htexts, hs]; rfl⟩

/-! ### What the buffer holds -/

/-- What is written if a text is appended that fits. -/
def Out.append (out : Out) (text : List UInt8) : Out :=
  ⟨out.buf.take out.n ++ text ++ out.buf.drop (out.n + text.length), out.n + text.length⟩

theorem Out.push_eq (out : Out) (text : List UInt8) : out.push text =
    if out.n + text.length ≤ out.buf.length then some (out.append text) else none := by
  rw [push, append]
  split_ifs <;> first | rfl | omega

theorem Out.append_nil {out : Out} : out.append [] = out := by
  simp [append]

theorem Out.append_append {out : Out} {s t : List UInt8}
    (h : out.n + s.length ≤ out.buf.length) : (out.append s).append t = out.append (s ++ t) := by
  have hlen : (out.buf.take out.n ++ s).length = out.n + s.length := by
    rw [List.length_append, List.length_take]
    omega
  have htake : (out.buf.take out.n ++ s ++ out.buf.drop (out.n + s.length)).take
      (out.n + s.length) = out.buf.take out.n ++ s := by
    rw [← hlen, List.take_left]
  have hdrop : (out.buf.take out.n ++ s ++ out.buf.drop (out.n + s.length)).drop
      (out.n + s.length + t.length) = out.buf.drop (out.n + (s ++ t).length) := by
    rw [← List.drop_drop, ← hlen, List.drop_left, hlen, List.drop_drop, List.length_append,
      Nat.add_assoc]
  rw [append, append, append, htake, hdrop, List.append_assoc (List.take _ _), List.length_append,
    Nat.add_assoc]

theorem Out.length_append {out : Out} {s : List UInt8} (h : out.n + s.length ≤ out.buf.length) :
    (out.append s).buf.length = out.buf.length := by
  simp only [append, List.length_append, List.length_take, List.length_drop]
  omega

theorem Out.le_of_push {out out' : Out} {s : List UInt8} (h : out.push s = some out') :
    out'.n ≤ out'.buf.length := by
  rw [push_eq] at h
  split at h
  · next hfit =>
    obtain rfl := Option.some.inj h
    rw [length_append hfit]
    exact hfit
  · cases h

/-- Texts are appended one behind the other. -/
theorem Out.append_bind {out : Out} {s t : List UInt8} {f : Out → Option Out}
    (hf : ∀ out : Out, out.n ≤ out.buf.length → f out =
      if out.n + t.length ≤ out.buf.length then some (out.append t) else none) :
    (out.push s).bind f =
      if out.n + (s ++ t).length ≤ out.buf.length then some (out.append (s ++ t)) else none := by
  rw [push_eq, List.length_append]
  by_cases hs : out.n + s.length ≤ out.buf.length
  · have hn' : (out.append s).n = out.n + s.length := rfl
    rw [if_pos hs, Option.bind_some, hf _ (by rw [length_append hs]; exact hs),
      length_append hs, append_append hs, hn', Nat.add_assoc]
  · rw [if_neg hs, if_neg (by omega)]
    rfl

theorem Out.pushAll_eq {out : Out} (hn : out.n ≤ out.buf.length) (texts : List (List UInt8)) :
    out.pushAll texts = if out.n + texts.flatten.length ≤ out.buf.length then
      some (out.append texts.flatten) else none := by
  induction texts generalizing out with
  | nil =>
    rw [List.flatten_nil, append_nil]
    exact (if_pos hn).symm
  | cons text texts ih =>
    rw [List.flatten_cons, ← append_bind fun out hn => ih hn]
    rfl

/-- **The buffer begins with the expansion**, if that fits. -/
theorem strftime_eq {s : List UInt8} (hs : expansion tm f = some s) {out : Out}
    (hn : out.n ≤ out.buf.length) : strftime tm f out =
      some (if out.n + s.length ≤ out.buf.length then some (out.append s) else none) := by
  fun_induction expansion tm f generalizing out s with
  | case1 =>
    obtain rfl := Option.some.inj hs
    rw [Out.append_nil]
    exact congrArg some (if_pos hn).symm
  | case2 c =>
    obtain rfl := Option.some.inj hs
    rw [strftime]
    split
    · rw [Out.push_eq]
    · rw [Out.append_nil]
      exact congrArg some (if_pos hn).symm
  | case3 c conv f hc ih =>
    obtain ⟨t, ht, rfl⟩ := Option.map_eq_some_iff.mp hs
    rw [strftime, if_pos hc, show c :: t = [c] ++ t from rfl, ← Out.append_bind fun out _ => rfl]
    cases hpush : out.push [c] with
    | none => rfl
    | some out' => exact ih ht (Out.le_of_push hpush)
  | case4 c conv f hc ih =>
    obtain ⟨texts, htexts, hs⟩ := Option.bind_eq_some_iff.mp hs
    obtain ⟨t, ht, rfl⟩ := Option.map_eq_some_iff.mp hs
    rw [strftime, if_neg hc, htexts, Option.bind_eq_bind, Option.bind_some, List.length_append,
      Out.pushAll_eq hn]
    by_cases hfit : out.n + texts.flatten.length ≤ out.buf.length
    · have hlen := Out.length_append hfit
      have hn' : (out.append texts.flatten).n = out.n + texts.flatten.length := rfl
      rw [if_pos hfit]
      dsimp only
      rw [ih ht (by rw [hlen]; exact hfit), hlen, hn', Out.append_append hfit, Nat.add_assoc]
    · rw [if_neg hfit, if_neg (by omega)]

/-! ### Composite conversions -/

theorem lt_length_decimal {k room v : ℕ} (h : 10 ^ k ≤ v) (hroom : k < room) :
    k < (decimal room v).length := by
  induction k generalizing room v with
  | zero =>
    obtain ⟨room, rfl⟩ := Nat.exists_eq_succ_of_ne_zero hroom.ne'
    exact Nat.succ_pos _
  | succ k ih =>
    obtain ⟨room, rfl⟩ := Nat.exists_eq_succ_of_ne_zero (Nat.ne_zero_of_lt hroom)
    have hdiv : 10 ^ k ≤ v / 10 := (Nat.le_div_iff_mul_le (by decide)).mpr h
    have hpos : 0 < 10 ^ k := Nat.pow_pos (by decide)
    rw [decimal, if_neg (by omega), List.length_cons]
    exact Nat.succ_lt_succ (ih hdiv (Nat.lt_of_succ_lt_succ hroom))

theorem length_decimal_le {k room v : ℕ} (h : v < 10 ^ (k + 1)) :
    (decimal room v).length ≤ k + 1 := by
  induction k generalizing room v with
  | zero =>
    cases room with
    | zero => exact Nat.zero_le _
    | succ room =>
      rw [decimal, if_pos (by omega)]
      exact Nat.le_refl _
  | succ k ih =>
    cases room with
    | zero => exact Nat.zero_le _
    | succ room =>
      have hdiv : v / 10 < 10 ^ (k + 1) := Nat.div_lt_of_lt_mul (by rwa [Nat.pow_succ'] at h)
      rw [decimal]
      split
      · exact Nat.succ_le_succ (Nat.zero_le _)
      · exact Nat.succ_le_succ (ih hdiv)

/-- Where a year is as wide as four places. -/
theorem number_four (year : ℤ) :
    number year 4 (ascii '0') = number year 1 (ascii '0') ↔ ¬ (-99 ≤ year ∧ year ≤ 999) := by
  have hone := @lt_length_decimal 0 20 year.natAbs
  have hthree := @length_decimal_le 2 20 year.natAbs
  have hfour := @lt_length_decimal 3 20 year.natAbs
  have htwo := @length_decimal_le 1 20 year.natAbs
  have hlong := @lt_length_decimal 2 20 year.natAbs
  have hlength : ∀ width, (number year width (ascii '0')).length = (if year < 0 then 1 else 0) +
      (width - ((decimal 20 year.natAbs).length + if year < 0 then 1 else 0)) +
        (decimal 20 year.natAbs).length := by
    intro width
    rw [number]
    split
    · simp
      omega
    · simp
  refine ⟨fun h hin => ?_, fun h => ?_⟩
  · have hlen := congrArg List.length h
    rw [hlength, hlength] at hlen
    split at hlen <;> omega
  · have hwide : 4 - ((decimal 20 year.natAbs).length + (if year < 0 then [ascii '-'] else
        []).length) = 1 - ((decimal 20 year.natAbs).length +
          (if year < 0 then [ascii '-'] else []).length) := by
      split
      · rw [List.length_singleton]
        omega
      · rw [List.length_nil]
        omega
    rw [number, number, hwide]

/-- What `strftime` is to do with a time: a format is expanded if there is room, formats are
expanded one behind the other, and a composite conversion is what it is made up of. -/
structure Lawful (tm : Tm) : Prop where
  room : ∀ f, ∃ s, expansion tm f = some s ∧ ∀ buf, strftime tm f ⟨buf, 0⟩ = some
    (if s.length ≤ buf.length then some ⟨s ++ buf.drop s.length, s.length⟩ else none)
  append : ∀ f g, EndsOutside f → expansion tm (f ++ g) =
    (expansion tm f).bind fun s => (expansion tm g).map (s ++ ·)
  date : expansion tm (bytes "%D") = expansion tm (bytes "%m/%d/%y")
  day : expansion tm (bytes "%F") = expansion tm (bytes "%Y-%m-%d")
  clock : expansion tm (bytes "%R") = expansion tm (bytes "%H:%M")
  time : expansion tm (bytes "%T") = expansion tm (bytes "%H:%M:%S")

theorem expansion_char {c : UInt8} (hc : c ≠ ascii '%') (f : List UInt8) :
    expansion tm (c :: f) = (expansion tm f).map (c :: ·) := by
  cases f with
  | nil => exact congrArg some (if_pos hc)
  | cons d f => rw [expansion, if_pos hc]

theorem expansion_field {conv : UInt8} {texts : List (List UInt8)}
    (h : pieces tm conv = some texts) (f : List UInt8) :
    expansion tm (ascii '%' :: conv :: f) = (expansion tm f).map (texts.flatten ++ ·) := by
  rw [expansion, if_neg (fun hne => hne rfl), h]
  rfl

/-- Conversions with a character between each two of them. -/
theorem expansion_three {a b c x : UInt8} {s t u : List UInt8} (hx : x ≠ ascii '%')
    (ha : pieces tm a = some [s]) (hb : pieces tm b = some [t]) (hc : pieces tm c = some [u]) :
    expansion tm [ascii '%', a, x, ascii '%', b, x, ascii '%', c] =
      some (s ++ x :: (t ++ x :: u)) := by
  rw [expansion_field ha, expansion_char hx, expansion_field hb, expansion_char hx,
    expansion_field hc, expansion]
  simp

theorem expansion_composite {a x : UInt8} {s t u : List UInt8}
    (ha : pieces tm a = some [s, [x], t, [x], u]) :
    expansion tm [ascii '%', a] = some (s ++ x :: (t ++ x :: u)) := by
  rw [expansion_field ha, expansion]
  simp

theorem expansion_date (tm : Tm) : expansion tm (bytes "%D") = expansion tm (bytes "%m/%d/%y") :=
  (expansion_composite rfl).trans (expansion_three (by decide) rfl rfl rfl).symm

theorem expansion_time (tm : Tm) : expansion tm (bytes "%T") = expansion tm (bytes "%H:%M:%S") :=
  (expansion_composite rfl).trans (expansion_three (by decide) rfl rfl rfl).symm

theorem expansion_clock (tm : Tm) : expansion tm (bytes "%R") = expansion tm (bytes "%H:%M") := by
  have htwo : ∀ {a b c x : UInt8} {s t : List UInt8}, x ≠ ascii '%' →
      pieces tm a = some [s, [x], t] → pieces tm b = some [s] → pieces tm c = some [t] →
      expansion tm [ascii '%', a] = expansion tm [ascii '%', b, x, ascii '%', c] := by
    intro a b c x s t hx ha hb hc
    rw [expansion_field ha, expansion_field hb, expansion_char hx, expansion_field hc, expansion]
    simp
  exact htwo (by decide) rfl rfl rfl

theorem expansion_day (tm : Tm) : expansion tm (bytes "%F") = expansion tm (bytes "%Y-%m-%d") ↔
    ¬ (-99 ≤ tm.tm_year.toInt + 1900 ∧ tm.tm_year.toInt + 1900 ≤ 999) := by
  have hshort : expansion tm (bytes "%F") = some (number (tm.tm_year.toInt + 1900) 4 (ascii '0') ++
      ascii '-' :: (number (tm.tm_mon.toInt + 1) 2 (ascii '0') ++
        ascii '-' :: number tm.tm_mday.toInt 2 (ascii '0'))) := expansion_composite rfl
  have hlong : expansion tm (bytes "%Y-%m-%d") =
      some (number (tm.tm_year.toInt + 1900) 1 (ascii '0') ++
        ascii '-' :: (number (tm.tm_mon.toInt + 1) 2 (ascii '0') ++
          ascii '-' :: number tm.tm_mday.toInt 2 (ascii '0'))) :=
    expansion_three (by decide) rfl rfl rfl
  rw [hshort, hlong, Option.some_inj, List.append_left_inj]
  exact number_four _

/-- **`strftime` is lawful** where a year is at least four places wide: only `%F` asks for so
many. -/
theorem strftime_exact (tm : Tm) :
    Lawful tm ↔ ¬ (-99 ≤ tm.tm_year.toInt + 1900 ∧ tm.tm_year.toInt + 1900 ≤ 999) := by
  refine ⟨fun h => (expansion_day tm).mp h.day, fun h => ?_⟩
  constructor
  case room =>
    intro f
    obtain ⟨s, hs⟩ := exists_expansion tm f
    refine ⟨s, hs, fun buf => ?_⟩
    rw [strftime_eq hs (Nat.zero_le _), Nat.zero_add, Out.append, List.take_zero, List.nil_append,
      Nat.zero_add]
  case append => exact fun f g hf => expansion_append hf
  case date => exact expansion_date tm
  case day => exact (expansion_day tm).mpr h
  case clock => exact expansion_clock tm
  case time => exact expansion_time tm

/-- The year 999 of a time that is otherwise zero. -/
theorem strftime_pads : ¬ ∀ tm : Tm,
    expansion tm (bytes "%F") = expansion tm (bytes "%Y-%m-%d") := by
  intro h
  refine (expansion_day ⟨0, 0, 0, 0, 0, -901, 0, 0, 0, 0, 0⟩).mp (h _) ?_
  decide

end Time

end StarOS
