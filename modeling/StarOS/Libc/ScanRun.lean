import StarOS.Libc.Scan

/-!
# What a scan consumes and stores

Each conversion is told by what it takes: how many bytes of the input, and which value. That depends
on the conversion, on its width and on the input from the place on where it looks, and on nothing
else: not on what was stored before, nor on whether the value is asked for.

## Main definitions

* `Scan.takes` — what a conversion takes
* `Scan.track` — the conversions of a call, and how far it comes
* `Scan.Obeys` — what is asked of one conversion

## Main results

* `Scan.convert_eq` — a conversion, by what it takes
* `Scan.track_tracked`
* `Scan.run_ends` — a call ends, where its conversions do
-/

namespace StarOS

namespace Scan

open Checked Format

variable {reals : Reals} {spec : Spec} {conv : UInt8} {st st' : State} {n : ℕ} {v : Stored}

/-! ### What a conversion takes -/

/-- Where a conversion looks: behind the space, for most of them. -/
def State.look (st : State) (conv : UInt8) : State :=
  if conv = ascii 'c' ∨ conv = ascii '[' ∨ conv = ascii 'n' then st else st.skip

/-- A value handed over to the next destination. What stores the count of bytes does not count. -/
def State.give (st : State) (conv : UInt8) (v : Stored) : State :=
  { st with
    assigned := if conv = ascii 'n' then st.assigned else st.assigned + 1
    dests := st.dests.rest
    stored := st.stored ++ [(st.dests 0, v)] }

/-- A value that was taken from `n` bytes of the input, stored unless it is not asked for. -/
def State.took (st : State) (spec : Spec) (conv : UInt8) (n : ℕ) (v : Stored) : State :=
  let given := if spec.suppress then st else st.give conv v
  if conv = ascii 'n' then given else given.advance n

/-- The width of a conversion, one byte if there is none. -/
def Spec.room (spec : Spec) : ℕ := if spec.max = usizeMax then 1 else spec.max

/-- The base of a number. -/
def baseOf (conv : UInt8) : ℤ :=
  if conv = ascii 'o' then 8
  else if conv = ascii 'x' ∨ conv = ascii 'X' ∨ conv = ascii 'p' then 16
  else if conv = ascii 'i' then 0
  else 10

/-- What a text conversion takes. -/
def takesText (spec : Spec) (inside : UInt8 → Bool) (input : List UInt8) : Option (ℕ × Stored) :=
  let text := (input.takeWhile inside).take spec.max
  if text = [] then none else some (text.length, .bytes (text ++ [0]))

/-- How many bytes a conversion takes and which value they are, if it takes any. -/
def takes (reals : Reals) (spec : Spec) (conv : UInt8) (st : State) :
    Option (Option (ℕ × Stored)) :=
  if conv = ascii 'n' then some (some (0, .int spec.width.bits (.ofInt spec.width.bits st.pos)))
  else if conv = ascii 'c' then do
    let _ ← checkedAdd 64 st.pos spec.room
    if st.input.length < spec.room then some none
    else some (some (spec.room, .bytes (st.input.take spec.room)))
  else if conv = ascii 's' then some (takesText spec (fun b => ¬ isSpace b) st.input)
  else if conv = ascii '[' then
    some (takesText spec (fun b => setContains spec.set b ≠ spec.negated) st.input)
  else if conv = ascii 'd' ∨ conv = ascii 'i' ∨ conv = ascii 'u' ∨ conv = ascii 'o' ∨
      conv = ascii 'x' ∨ conv = ascii 'X' ∨ conv = ascii 'p' then
    let r := strtol (st.slice spec.max) (baseOf conv)
    let bits := (if conv = ascii 'p' then Width.long else spec.width).bits
    if r.2 = 0 then some none else some (some (r.2, .int bits (.ofInt bits r.1)))
  else if conv = ascii 'f' ∨ conv = ascii 'e' ∨ conv = ascii 'E' ∨ conv = ascii 'g' ∨
      conv = ascii 'G' ∨ conv = ascii 'a' then
    let r := strtod reals (st.slice spec.max)
    if r.2 = 0 then some none
    else if spec.width = .long ∨ spec.width = .longLong ∨ spec.width = .double then
      some (some (r.2, .double r.1))
    else some (some (r.2, .float (reals.asFloat r.1)))
  else some none

/-- The letters of the conversions. -/
def known (conv : UInt8) : Bool :=
  conv ∈ ['n', 'c', 's', '[', 'd', 'i', 'u', 'o', 'x', 'X', 'p', 'f', 'e', 'E', 'g', 'G', 'a'].map
    ascii

/-- What a conversion ends with, by what it takes. -/
def converted (spec : Spec) (conv : UInt8) (st : State) : Option (ℕ × Stored) → State ⊕ ℤ
  | some (n, v) => .inl (st.took spec conv n v)
  | none => .inr (if known conv then st.stop else st.result)

theorem look_dests (st : State) (conv : UInt8) : (st.look conv).dests = st.dests := by
  rw [State.look]
  split <;> rfl

theorem took_of_suppress (hn : conv ≠ ascii 'n') (hs : spec.suppress = true) :
    st.took spec conv n v = st.advance n := by
  dsimp only [State.took]
  rw [if_neg hn, if_pos hs]

theorem took_of_not_suppress (hn : conv ≠ ascii 'n') (hs : spec.suppress = false) :
    st.took spec conv n v = (st.put v).advance n := by
  dsimp only [State.took]
  rw [if_neg hn, if_neg (by rw [hs]; exact Bool.false_ne_true), State.give, if_neg hn]
  rfl

theorem putInt_eq {value : ℤ} {width : Width} (hdest : st.dests 0 ≠ 0) :
    st.putInt value width = st.put (.int width.bits (.ofInt width.bits value)) := by
  rw [State.putInt, State.storeInt, if_neg hdest]
  rfl

theorem takeText_eq {inside : UInt8 → Bool} (hn : conv ≠ ascii 'n') (hknown : known conv = true) :
    takeText spec inside st = converted spec conv st (takesText spec inside st.input) := by
  dsimp only [takeText, takesText]
  split
  · rw [converted, if_pos hknown]
  · rw [converted]
    split
    · next hs => rw [took_of_suppress hn hs]
    · next hs => rw [took_of_not_suppress hn ((Bool.not_eq_true _).mp hs)]

/-- What is stored if it is asked for. -/
theorem stored_eq (hn : conv ≠ ascii 'n') :
    (if spec.suppress then some (.inl (st.advance n)) else some (.inl ((st.put v).advance n)) :
      Option (State ⊕ ℤ)) = some (converted spec conv st (some (n, v))) := by
  rw [converted]
  split
  · next hs => rw [took_of_suppress hn hs]
  · next hs => rw [took_of_not_suppress hn ((Bool.not_eq_true _).mp hs)]

/-- **A conversion, by what it takes.** -/
theorem convert_eq (hdest : st.dests 0 ≠ 0) :
    convert reals spec conv st =
      (takes reals spec conv (st.look conv)).map (converted spec conv (st.look conv)) := by
  have hdest' : (st.look conv).dests 0 ≠ 0 := by rwa [look_dests]
  have hlook : (if conv = ascii 'c' ∨ conv = ascii '[' ∨ conv = ascii 'n' then st else st.skip) =
      st.look conv := rfl
  have hstop : known conv = true → ∀ s : State,
      some (Sum.inr s.stop) = some (converted spec conv s none) := fun hknown s => by
    rw [converted, if_pos hknown]
  dsimp only [convert, takes]
  rw [hlook]
  generalize st.look conv = s at hdest'
  by_cases hn : conv = ascii 'n'
  · rw [if_pos hn, if_pos hn, Option.map_some, converted]
    dsimp only [State.took]
    rw [if_pos hn, State.give, if_pos hn, State.storeInt, if_neg hdest']
  rw [if_neg hn, if_neg hn]
  by_cases hc : conv = ascii 'c'
  · have hknown : known conv = true := by rw [hc]; decide
    rw [if_pos hc, if_pos hc, show (if spec.max = usizeMax then 1 else spec.max) =
      spec.room from rfl]
    generalize spec.room = n
    cases checkedAdd 64 s.pos n with
    | none => rfl
    | some sum =>
      rw [Option.bind_eq_bind, Option.bind_some, Option.bind_eq_bind, Option.bind_some]
      split
      · exact hstop hknown s
      · exact stored_eq hn
  rw [if_neg hc, if_neg hc]
  by_cases hs : conv = ascii 's'
  · rw [if_pos hs, if_pos hs, Option.map_some, takeText_eq hn (by rw [hs]; decide)]
  rw [if_neg hs, if_neg hs]
  by_cases hset : conv = ascii '['
  · rw [if_pos hset, if_pos hset, Option.map_some, takeText_eq hn (by rw [hset]; decide)]
  rw [if_neg hset, if_neg hset]
  by_cases hint : conv = ascii 'd' ∨ conv = ascii 'i' ∨ conv = ascii 'u' ∨ conv = ascii 'o' ∨
      conv = ascii 'x' ∨ conv = ascii 'X' ∨ conv = ascii 'p'
  · have hknown : known conv = true := by
      rcases hint with h | h | h | h | h | h | h
      all_goals rw [h]; decide
    rw [if_pos hint, if_pos hint, show (if conv = ascii 'o' then (8 : ℤ)
      else if conv = ascii 'x' ∨ conv = ascii 'X' ∨ conv = ascii 'p' then 16
      else if conv = ascii 'i' then 0 else 10) = baseOf conv from rfl]
    split
    · exact hstop hknown s
    · rw [putInt_eq hdest']
      exact stored_eq hn
  rw [if_neg hint, if_neg hint]
  by_cases hreal : conv = ascii 'f' ∨ conv = ascii 'e' ∨ conv = ascii 'E' ∨ conv = ascii 'g' ∨
      conv = ascii 'G' ∨ conv = ascii 'a'
  · have hknown : known conv = true := by
      rcases hreal with h | h | h | h | h | h
      all_goals rw [h]; decide
    rw [if_pos hreal, if_pos hreal]
    split
    · exact hstop hknown s
    · by_cases hwide : spec.width = .long ∨ spec.width = .longLong ∨ spec.width = .double
      · rw [if_pos hwide, if_pos hwide]
        exact stored_eq hn
      · rw [if_neg hwide, if_neg hwide]
        exact stored_eq hn
  rw [if_neg hreal, if_neg hreal, Option.map_some, converted, if_neg ?_]
  intro hknown
  have hmem := of_decide_eq_true hknown
  simp only [List.map_cons, List.map_nil, List.mem_cons, List.not_mem_nil, or_false] at hmem
  grind

/-- What is taken is in the input, no longer than the width allows, and text is stored as it was
taken. -/
structure Sound (spec : Spec) (conv : UInt8) (input : List UInt8) (n : ℕ) (v : Stored) : Prop where
  length : n ≤ input.length
  width : n ≤ spec.max
  text : conv = ascii 's' ∨ conv = ascii '[' → v = .bytes (input.take n ++ [0])
  char : conv = ascii 'c' → v = .bytes (input.take n)

theorem length_slice_le (st : State) (max : ℕ) :
    (st.slice max).length ≤ st.input.length ∧ (st.slice max).length ≤ max := by
  rw [State.slice, List.length_take]
  omega

theorem strtol_snd_le (s : List UInt8) (base : ℤ) : (strtol s base).2 ≤ s.length := by
  rw [strtol]
  split
  · exact Nat.zero_le _
  · exact Nat.sub_le _ _

theorem strtod_snd_le (reals : Reals) (s : List UInt8) : (strtod reals s).2 ≤ s.length := by
  rw [strtod]
  split
  · exact Nat.zero_le _
  · exact Nat.sub_le _ _

theorem takesText_sound {inside : UInt8 → Bool} {input : List UInt8}
    (h : takesText spec inside input = some (n, v)) :
    n ≤ input.length ∧ n ≤ spec.max ∧ v = .bytes (input.take n ++ [0]) := by
  dsimp only [takesText] at h
  split at h
  · cases h
  · cases h
    have hpre : (input.takeWhile inside).take spec.max <+: input :=
      (List.take_prefix _ _).trans (List.takeWhile_prefix _)
    refine ⟨hpre.length_le, List.length_take_le .., ?_⟩
    rw [← List.prefix_iff_eq_take.mp hpre]

/-- What is no text is not stored as it is. -/
theorem Sound.of_number {input : List UInt8} (hlen : n ≤ input.length) (hmax : n ≤ spec.max)
    (hs : conv ≠ ascii 's') (hset : conv ≠ ascii '[') (hc : conv ≠ ascii 'c') :
    Sound spec conv input n v :=
  ⟨hlen, hmax, fun h => (h.elim hs hset).elim, fun h => (hc h).elim⟩

theorem Sound.of_text {inside : UInt8 → Bool} {input : List UInt8} (hc : conv ≠ ascii 'c')
    (h : takesText spec inside input = some (n, v)) : Sound spec conv input n v := by
  obtain ⟨hlen, hmax, htext⟩ := takesText_sound h
  exact ⟨hlen, hmax, fun _ => htext, fun h => (hc h).elim⟩

/-- **What a conversion takes.** -/
theorem takes_sound (h : takes reals spec conv st = some (some (n, v))) :
    Sound spec conv st.input n v := by
  obtain ⟨hinput, hmax⟩ := length_slice_le st spec.max
  dsimp only [takes] at h
  split at h
  · next hn =>
    cases h
    refine .of_number (Nat.zero_le _) (Nat.zero_le _) ?_ ?_ ?_
    all_goals rw [hn]; decide
  split at h
  · next hc =>
    simp only [Option.bind_eq_bind, Option.bind_eq_some_iff] at h
    obtain ⟨sum, -, h⟩ := h
    split at h
    · cases h
    · next hlen =>
      cases h
      refine ⟨Nat.not_lt.mp hlen, ?_, ?_, fun _ => rfl⟩
      · rw [Spec.room]
        split
        · next hmax =>
          rw [hmax]
          decide
        · exact Nat.le_refl _
      · rintro (hs | hset)
        · exact absurd (hc.symm.trans hs) (by decide)
        · exact absurd (hc.symm.trans hset) (by decide)
  next hn hc =>
  split at h
  · exact .of_text hc (Option.some.inj h)
  next hs =>
  split at h
  · exact .of_text hc (Option.some.inj h)
  next hset =>
  split at h
  · have hused := strtol_snd_le (st.slice spec.max) (baseOf conv)
    split at h
    · cases h
    · cases h
      exact .of_number (hused.trans hinput) (hused.trans hmax) hs hset hc
  split at h
  · have hused := strtod_snd_le reals (st.slice spec.max)
    split at h
    · cases h
    · split at h
      · cases h
        exact .of_number (hused.trans hinput) (hused.trans hmax) hs hset hc
      · cases h
        exact .of_number (hused.trans hinput) (hused.trans hmax) hs hset hc
  · cases h

/-- What stores the count of bytes takes none. -/
theorem takes_n (h : takes reals spec (ascii 'n') st = some (some (n, v))) : n = 0 := by
  cases h
  rfl

/-- What is taken does not depend on what was assigned, nor on whether the value is asked for. -/
theorem takes_congr (hinput : st'.input = st.input) (hpos : st'.pos = st.pos) (suppress : Bool) :
    takes reals { spec with suppress } conv st' = takes reals spec conv st := by
  rw [takes, takes, State.slice, State.slice, hinput, hpos]
  rfl

theorem takes_isSome (h : st.pos + spec.room ≤ usizeMax) :
    (takes reals spec conv st).isSome = true := by
  rw [takes]
  split
  · rfl
  split
  · have hadd : checkedAdd 64 st.pos spec.room = some (st.pos + spec.room) :=
      if_pos (Nat.lt_succ_of_le h)
    rw [hadd]
    dsimp only [Option.bind_eq_bind, Option.bind_some]
    split <;> rfl
  split
  · rfl
  split
  · rfl
  split
  · dsimp only
    split <;> rfl
  split
  · dsimp only
    split
    · rfl
    · split <;> rfl
  · rfl

/-! ### The conversions of a call -/

/-- One conversion: how far the call has come before and behind it. -/
structure Made where
  spec : Spec
  conv : UInt8
  before : State
  after : State

/-- The conversions that a call makes, and how far it comes. -/
def track (reals : Reals) : List UInt8 → State → List Made × State
  | [], st => ([], st)
  | b :: fmt, st =>
    if isSpace b then track reals fmt st.skip
    else if b ≠ ascii '%' then
      if st.input.head? = some b then track reals fmt (st.advance 1) else ([], st)
    else if fmt.head? = some (ascii '%') then
      if st.input.head? = some (ascii '%') then
        track reals fmt.tail { st.advance 1 with seen := st.seen }
      else ([], st)
    else
      match _h : conversion fmt with
      | some (some (spec, conv, rest)) =>
        match convert reals spec conv st with
        | some (.inl st') =>
          (⟨spec, conv, st, st'⟩ :: (track reals rest st').1, (track reals rest st').2)
        | _ => ([], st.look conv)
      | _ => ([], st)
  termination_by fmt => fmt.length
  decreasing_by
    · exact Nat.lt_succ_self _
    · exact Nat.lt_succ_self _
    · exact Nat.lt_succ_of_le (List.tail_sublist _).length_le
    · exact Nat.lt_succ_of_lt (conversion_length _h)

theorem percent_not_space : isSpace (ascii '%') = false := by decide

theorem track_made {fmt rest : List UInt8} (hhead : fmt.head? ≠ some (ascii '%'))
    (h : conversion fmt = some (some (spec, conv, rest)))
    (hconvert : convert reals spec conv st = some (.inl st')) :
    track reals (ascii '%' :: fmt) st =
      (⟨spec, conv, st, st'⟩ :: (track reals rest st').1, (track reals rest st').2) := by
  rw [track, if_neg (by decide), if_neg (by decide), if_neg hhead]
  split
  · next heq =>
    rw [h] at heq
    cases heq
    rw [hconvert]
  · next hno => exact absurd h (hno _ _ _)

theorem track_stop {fmt rest : List UInt8} (hhead : fmt.head? ≠ some (ascii '%'))
    (h : conversion fmt = some (some (spec, conv, rest)))
    (hno : ∀ st', convert reals spec conv st ≠ some (.inl st')) :
    track reals (ascii '%' :: fmt) st = ([], st.look conv) := by
  rw [track, if_neg (by decide), if_neg (by decide), if_neg hhead]
  split
  · next heq =>
    rw [h] at heq
    cases heq
    split
    · next hmade => exact absurd hmade (hno _)
    · rfl
  · next hother => exact absurd h (hother _ _ _)

theorem track_end {fmt : List UInt8} (hhead : fmt.head? ≠ some (ascii '%'))
    (hno : ∀ r, conversion fmt ≠ some (some r)) (st : State) :
    track reals (ascii '%' :: fmt) st = ([], st) := by
  rw [track, if_neg (by decide), if_neg (by decide), if_neg hhead]
  split
  · next heq => exact absurd heq (hno _)
  · rfl

theorem track_literal {fmt : List UInt8} {b : UInt8} (hb : b ≠ ascii '%') (st : State) :
    track reals (b :: fmt) st =
      if isSpace b then track reals fmt st.skip
      else if st.input.head? = some b then track reals fmt (st.advance 1) else ([], st) := by
  rw [track, if_pos hb]

theorem track_percent (fmt : List UInt8) (st : State) :
    track reals (ascii '%' :: ascii '%' :: fmt) st =
      if st.input.head? = some (ascii '%') then
        track reals fmt { st.advance 1 with seen := st.seen }
      else ([], st) := by
  rw [track, if_neg (by decide), if_neg (by decide),
    if_pos (show (ascii '%' :: fmt).head? = some (ascii '%') from rfl)]
  rfl

/-! ### What a call comes to -/

variable {input fmt rest : List UInt8} {spec' : Spec}

/-- The widths in a format, added to the length of the input, are numbers that the machine has. -/
def WidthsFit (len : ℕ) : List UInt8 → Prop
  | [] => True
  | b :: fmt =>
    if b ≠ ascii '%' then WidthsFit len fmt
    else if fmt.head? = some (ascii '%') then WidthsFit len fmt.tail
    else
      match _h : conversion fmt with
      | none => False
      | some none => True
      | some (some (spec, _, rest)) => len + spec.room ≤ usizeMax ∧ WidthsFit len rest
  termination_by fmt => fmt.length
  decreasing_by
    · exact Nat.lt_succ_self _
    · exact Nat.lt_succ_of_le (List.tail_sublist _).length_le
    · exact Nat.lt_succ_of_lt (conversion_length _h)

theorem drop_takeWhile (p : UInt8 → Bool) (l : List UInt8) :
    l.drop (l.takeWhile p).length = l.dropWhile p := by
  have hsplit : (l.takeWhile p ++ l.dropWhile p).drop (l.takeWhile p).length = l.dropWhile p :=
    List.drop_left
  rwa [List.takeWhile_append_dropWhile] at hsplit

/-- A place in the input, with somewhere to put a value. -/
structure Reached (input : List UInt8) (st : State) : Prop where
  behind : st.input = input.drop st.pos
  inside : st.pos ≤ input.length
  valid : ∀ i, st.dests i ≠ 0

namespace Reached

theorem skip (h : Reached input st) : Reached input st.skip := by
  have hlen : (st.input.takeWhile isSpace).length ≤ st.input.length :=
    (List.takeWhile_prefix _).length_le
  refine ⟨?_, ?_, h.valid⟩
  · show st.input.dropWhile isSpace = input.drop (st.pos + (st.input.takeWhile isSpace).length)
    rw [← List.drop_drop, ← h.behind, drop_takeWhile]
  · rw [h.behind, List.length_drop] at hlen
    have hpos := h.inside
    show st.pos + (st.input.takeWhile isSpace).length ≤ input.length
    rw [h.behind]
    omega

theorem advance (h : Reached input st) (hn : n ≤ st.input.length) :
    Reached input (st.advance n) := by
  refine ⟨?_, ?_, h.valid⟩
  · show st.input.drop n = input.drop (st.pos + n)
    rw [h.behind, List.drop_drop]
  · rw [h.behind, List.length_drop] at hn
    have hpos := h.inside
    show st.pos + n ≤ input.length
    omega

theorem look (h : Reached input st) (conv : UInt8) : Reached input (st.look conv) := by
  rw [State.look]
  split
  · exact h
  · exact h.skip

theorem give (h : Reached input st) (conv : UInt8) (v : Stored) : Reached input (st.give conv v) :=
  ⟨h.behind, h.inside, fun i => h.valid (i + 1)⟩

theorem took (h : Reached input st) (hn : n ≤ st.input.length) :
    Reached input (st.took spec conv n v) := by
  have hgiven : Reached input (if spec.suppress then st else st.give conv v) := by
    split
    · exact h
    · exact h.give conv v
  have hsame : (if spec.suppress then st else st.give conv v).input = st.input := by
    split <;> rfl
  dsimp only [State.took]
  split
  · exact hgiven
  · refine hgiven.advance ?_
    rwa [hsame]

end Reached

/-! ### The conversions and the result -/

/-- What a conversion stored. -/
def Made.stored (m : Made) : List (BitVec 64 × Stored) := m.after.stored.drop m.before.stored.length

/-- A conversion that counts. -/
def Made.counts (m : Made) : Bool := !m.spec.suppress && m.conv ≠ ascii 'n'

/-- What a conversion did: it skipped space, unless it takes the input as it comes, took as many
bytes as its width allows at most, and stored the value if it was asked for. -/
structure Obeys (input : List UInt8) (m : Made) : Prop where
  before : Reached input m.before
  after : Reached input m.after
  took : ∃ n v, Sound m.spec m.conv (m.before.look m.conv).input n v ∧
    (m.conv = ascii 'n' → n = 0) ∧ m.after.input = (m.before.look m.conv).input.drop n ∧
    m.after.stored = m.before.stored ++ if m.spec.suppress then [] else [(m.before.dests 0, v)]
  assigned : m.after.assigned = m.before.assigned + if m.counts then 1 else 0

theorem look_stored (st : State) (conv : UInt8) :
    (st.look conv).stored = st.stored ∧ (st.look conv).assigned = st.assigned := by
  rw [State.look]
  split
  · exact ⟨rfl, rfl⟩
  · exact ⟨rfl, rfl⟩

/-- What is behind a value that was taken. -/
theorem took_fields (st : State) (spec : Spec) (hn : conv = ascii 'n' → n = 0) (v : Stored) :
    (st.took spec conv n v).input = st.input.drop n ∧
      (st.took spec conv n v).stored =
        st.stored ++ (if spec.suppress then [] else [(st.dests 0, v)]) ∧
      (st.took spec conv n v).assigned =
        st.assigned + if !spec.suppress && conv ≠ ascii 'n' then 1 else 0 := by
  dsimp only [State.took]
  by_cases hs : spec.suppress = true
  · rw [if_pos hs, if_pos hs, hs]
    by_cases hc : conv = ascii 'n'
    · rw [if_pos hc, hn hc]
      exact ⟨rfl, (List.append_nil _).symm, (BitVec.add_zero _).symm⟩
    · rw [if_neg hc]
      exact ⟨rfl, (List.append_nil _).symm, (BitVec.add_zero _).symm⟩
  · have hfalse := (Bool.not_eq_true _).mp hs
    rw [if_neg hs, if_neg hs, hfalse]
    by_cases hc : conv = ascii 'n'
    · rw [if_pos hc, hn hc, State.give, if_pos hc]
      refine ⟨rfl, rfl, ?_⟩
      simp [hc]
    · rw [if_neg hc, State.give, if_neg hc]
      refine ⟨rfl, rfl, ?_⟩
      simp [hc, State.advance]

/-- **What a conversion did.** -/
theorem obeys_of_convert (hst : Reached input st)
    (h : convert reals spec conv st = some (.inl st')) : Obeys input ⟨spec, conv, st, st'⟩ := by
  rw [convert_eq (hst.valid 0), Option.map_eq_some_iff] at h
  obtain ⟨taken, htakes, h⟩ := h
  cases taken with
  | none => cases h
  | some p =>
    obtain ⟨n, v⟩ := p
    cases h
    have hsound := takes_sound htakes
    have hn : conv = ascii 'n' → n = 0 := by
      rintro rfl
      exact takes_n htakes
    obtain ⟨hinput, hstored, hassigned⟩ := took_fields (st.look conv) spec hn v
    rw [(look_stored st conv).1, look_dests] at hstored
    rw [(look_stored st conv).2] at hassigned
    exact ⟨hst, (hst.look conv).took hsound.length, ⟨n, v, hsound, hn, hinput, hstored⟩, hassigned⟩

/-- What the conversions of a call come to. -/
structure Tracked (input : List UInt8) (st : State) (t : List Made × State) : Prop where
  obeys : ∀ m ∈ t.1, Obeys input m
  reached : Reached input t.2
  assigned : t.2.assigned = st.assigned + .ofNat 32 (t.1.countP Made.counts)
  stored : t.2.stored = st.stored ++ t.1.flatMap Made.stored

theorem Tracked.nil (h : Reached input st') (hassigned : st'.assigned = st.assigned)
    (hstored : st'.stored = st.stored) : Tracked input st ([], st') :=
  ⟨fun m hm => absurd hm List.not_mem_nil, h, hassigned.trans (BitVec.add_zero _).symm,
    by rw [hstored]; simp⟩

theorem Tracked.of_same {t : List Made × State} (h : Tracked input st' t)
    (hassigned : st'.assigned = st.assigned) (hstored : st'.stored = st.stored) :
    Tracked input st t :=
  ⟨h.obeys, h.reached, by rw [h.assigned, hassigned], by rw [h.stored, hstored]⟩

/-- **One more conversion** in front. -/
theorem Tracked.cons {t : List Made × State} (hm : Obeys input ⟨spec, conv, st, st'⟩)
    (h : Tracked input st' t) : Tracked input st (⟨spec, conv, st, st'⟩ :: t.1, t.2) := by
  have hassigned := hm.assigned
  obtain ⟨n, v, -, -, -, hstored⟩ := hm.took
  dsimp only at hassigned hstored
  refine ⟨List.forall_mem_cons.mpr ⟨hm, h.obeys⟩, h.reached, ?_, ?_⟩
  · rw [h.assigned, hassigned, List.countP_cons, BitVec.add_assoc, Nat.add_comm, BitVec.ofNat_add]
    split
    · rfl
    · rfl
  · rw [h.stored, List.flatMap_cons, ← List.append_assoc, hstored]
    congr 1
    rw [Made.stored]
    dsimp only
    rw [hstored, List.drop_left]

/-- A byte in front is there. -/
theorem one_le_of_head? {b : UInt8} (h : input.head? = some b) : 1 ≤ input.length := by
  cases input with
  | nil => cases h
  | cons c input => exact Nat.succ_le_succ (Nat.zero_le _)

/-- **The conversions of a call** all obey, and what they assigned and stored is what was assigned
and stored. -/
theorem track_tracked (hst : Reached input st) :
    Tracked input st (track reals fmt st) := by
  fun_induction track reals fmt st with
  | case1 => exact .nil hst rfl rfl
  | case2 b fmt st _ ih => exact (ih hst.skip).of_same rfl rfl
  | case3 b fmt st _ _ hhead ih =>
    exact (ih (hst.advance (one_le_of_head? hhead))).of_same rfl rfl
  | case4 => exact .nil hst rfl rfl
  | case5 b fmt st _ _ _ hhead ih =>
    have h := hst.advance (one_le_of_head? hhead)
    exact (ih ⟨h.behind, h.inside, h.valid⟩).of_same rfl rfl
  | case6 => exact .nil hst rfl rfl
  | case7 b fmt st _ _ _ spec conv rest _ st' hconvert ih =>
    have hm := obeys_of_convert hst hconvert
    exact (ih hm.after).cons hm
  | case8 b fmt st _ _ _ spec conv =>
    exact .nil (hst.look conv) (look_stored st conv).2 (look_stored st conv).1
  | case9 => exact .nil hst rfl rfl

/-- What is returned where a call ends, unless the count has come round: how many values were
assigned, or that the input ended before the first one. -/
def Ends (st : State) (r : ℤ) : Prop :=
  0 ≤ st.assigned.toInt → r = st.assigned.toInt ∨ r = -1 ∧ st.assigned = 0 ∧ st.input = []

theorem ends_stop (st : State) : Ends st st.stop := by
  intro hcount
  rw [State.stop]
  split
  · exact .inl rfl
  · next hzero =>
    have hassigned : st.assigned = 0 :=
      BitVec.eq_of_toInt_eq (Int.le_antisymm (not_lt.mp hzero) hcount)
    split
    · next hnil => exact .inr ⟨rfl, hassigned, hnil⟩
    · exact .inl (by rw [hassigned]; rfl)

theorem ends_result (st : State) : Ends st st.result := by
  intro _
  rw [State.result]
  split
  · next h => exact .inr ⟨rfl, h.1, h.2.2⟩
  · exact .inl rfl

/-- A conversion that takes nothing ends the call behind the space it skipped. -/
theorem ends_of_convert {r : ℤ} (hst : Reached input st)
    (h : convert reals spec conv st = some (.inr r)) : Ends (st.look conv) r := by
  rw [convert_eq (hst.valid 0), Option.map_eq_some_iff] at h
  obtain ⟨taken, -, h⟩ := h
  cases taken with
  | some p => cases h
  | none =>
    cases h
    split
    · exact ends_stop _
    · exact ends_result _

theorem convert_isSome (hst : Reached input st) (hfit : input.length + spec.room ≤ usizeMax) :
    convert reals spec conv st ≠ none := by
  have hlook := (hst.look conv).inside
  have htakes : (takes reals spec conv (st.look conv)).isSome = true := takes_isSome (by omega)
  rw [convert_eq (hst.valid 0)]
  intro hnone
  rw [Option.map_eq_none_iff] at hnone
  rw [hnone] at htakes
  cases htakes

/-- The widths behind a conversion. -/
theorem widthsFit_conversion {len : ℕ} (hhead : fmt.head? ≠ some (ascii '%'))
    (hfit : WidthsFit len (ascii '%' :: fmt)) :
    conversion fmt = some none ∨ ∃ spec conv rest,
      conversion fmt = some (some (spec, conv, rest)) ∧ len + spec.room ≤ usizeMax ∧
        WidthsFit len rest := by
  rw [WidthsFit, if_neg (by decide), if_neg hhead] at hfit
  split at hfit
  · exact hfit.elim
  · next h => exact .inl h
  · next spec conv rest h => exact .inr ⟨spec, conv, rest, h, hfit⟩

theorem widthsFit_literal {len : ℕ} {b : UInt8} (hb : b ≠ ascii '%')
    (hfit : WidthsFit len (b :: fmt)) : WidthsFit len fmt := by
  rwa [WidthsFit, if_pos hb] at hfit

/-- **What a call returns**: it ends where its conversions do. -/
theorem run_ends (hst : Reached input st) (hfit : WidthsFit input.length fmt) :
    ∃ r, run reals fmt st = some r ∧ Ends (track reals fmt st).2 r.1 ∧
      r.2.stored = (track reals fmt st).2.stored := by
  fun_induction track reals fmt st with
  | case1 =>
    rw [run]
    exact ⟨_, rfl, ends_result _, rfl⟩
  | case2 b fmt st hb ih =>
    rw [run, if_pos hb]
    refine ih hst.skip (widthsFit_literal ?_ hfit)
    rintro rfl
    rw [percent_not_space] at hb
    cases hb
  | case3 b fmt st hb hpercent hhead ih =>
    rw [run, if_neg hb, if_pos hpercent, if_neg ?_, if_neg (not_not.mpr hhead)]
    · exact ih (hst.advance (one_le_of_head? hhead)) (widthsFit_literal hpercent hfit)
    · intro hnil
      rw [hnil] at hhead
      cases hhead
  | case4 b fmt st hb hpercent hhead =>
    rw [run, if_neg hb, if_pos hpercent, if_pos hhead]
    split
    · exact ⟨_, rfl, ends_stop st, rfl⟩
    · exact ⟨_, rfl, fun _ => .inl rfl, rfl⟩
  | case5 b fmt st hb hpercent hfmt hhead ih =>
    have hne : fmt ≠ [] := by
      rintro rfl
      cases hfmt
    have h := hst.advance (one_le_of_head? hhead)
    rw [WidthsFit, if_neg hpercent, if_pos hfmt] at hfit
    rw [run, if_neg hb, if_neg hpercent, if_neg hne, if_pos hfmt, if_neg (not_not.mpr hhead)]
    exact ih ⟨h.behind, h.inside, h.valid⟩ hfit
  | case6 b fmt st hb hpercent hfmt hhead =>
    have hne : fmt ≠ [] := by
      rintro rfl
      cases hfmt
    rw [run, if_neg hb, if_neg hpercent, if_neg hne, if_pos hfmt, if_pos hhead]
    exact ⟨_, rfl, ends_stop st, rfl⟩
  | case7 b fmt st hb hpercent hhead spec conv rest h st' hconvert ih =>
    obtain rfl := not_not.mp hpercent
    have hm := obeys_of_convert hst hconvert
    rw [run_conversion hhead h, hconvert, Option.bind_some]
    obtain hend | ⟨spec', conv', rest', h', -, hrest⟩ := widthsFit_conversion hhead hfit
    · rw [h] at hend
      cases hend
    · rw [h] at h'
      cases h'
      exact ih hm.after hrest
  | case8 b fmt st hb hpercent hhead spec conv rest h hno =>
    obtain rfl := not_not.mp hpercent
    rw [run_conversion hhead h]
    obtain hend | ⟨spec', conv', rest', h', hroom, -⟩ := widthsFit_conversion hhead hfit
    · rw [h] at hend
      cases hend
    · rw [h] at h'
      cases h'
      cases hconvert : convert reals spec conv st with
      | none => exact absurd hconvert (convert_isSome hst hroom)
      | some taken =>
        cases taken with
        | inl st' => exact (hno st' hconvert).elim
        | inr r => exact ⟨_, rfl, ends_of_convert hst hconvert, (look_stored st conv).1.symm⟩
  | case9 b fmt st hb hpercent hhead hno =>
    obtain rfl := not_not.mp hpercent
    obtain hend | ⟨spec, conv, rest, h, -⟩ := widthsFit_conversion hhead hfit
    · rw [run, if_neg hb, if_neg hpercent, if_neg hhead]
      split
      · exact ⟨_, rfl, ends_result st, rfl⟩
      · split
        · next heq =>
          rw [hend] at heq
          cases heq
        · exact ⟨_, rfl, ends_result st, rfl⟩
        · next heq =>
          rw [hend] at heq
          cases heq
    · exact (hno spec conv rest h).elim

end Scan

end StarOS
