import StarOS.Libc.ScanRun

/-!
# Scans, and formats with stars

A conversion is told from its own text, whatever stands behind it. A star in front of it changes
nothing but that the value is not stored, so a format with stars added makes a call take what it
took.

## Main definitions

* `Scan.Starred` — a format with stars added
* `Scan.SameCourse` — two calls that take the same
* `Scan.Lawful` — what is asked of a scan

## Main results

* `Scan.conversion_local`
* `Scan.sameCourse_of_starred`
* `Scan.scan_exact`
-/

namespace StarOS

namespace Scan

open Checked Format

variable {reals : Reals} {spec spec' : Spec} {conv : UInt8} {st st' : State} {n : ℕ} {v : Stored}
  {input fmt rest : List UInt8}

/-! ### A conversion is told from its own text -/

/-- What a part of a conversion takes off a format does not depend on what stands behind the next
byte. -/
def Local {α : Type} (f : List UInt8 → Option (α × List UInt8)) : Prop :=
  ∀ {fmt rest a}, f fmt = some (a, rest) → rest ≠ [] →
    ∃ t, fmt = t ++ rest ∧ ∀ z, z.head? = rest.head? → f (t ++ z) = some (a, z)

theorem head?_append_congr {t z : List UInt8} (h : z.head? = rest.head?) :
    (t ++ z).head? = (t ++ rest).head? := by
  rw [List.head?_append, List.head?_append, h]

theorem local_takeNumber (n : ℕ) : Local (takeNumber n) := by
  intro fmt rest a h hne
  induction fmt generalizing n with
  | nil =>
    rw [takeNumber] at h
    cases h
    exact absurd rfl hne
  | cons b fmt ih =>
    rw [takeNumber] at h
    split at h
    · next hdigit =>
      simp only [Option.bind_eq_bind, Option.bind_eq_some_iff] at h
      obtain ⟨m, hm, k, hk, h⟩ := h
      obtain ⟨t, rfl, ht⟩ := ih k h
      refine ⟨b :: t, rfl, fun z hz => ?_⟩
      rw [List.cons_append, takeNumber, if_pos hdigit, hm]
      dsimp only [Option.bind_eq_bind, Option.bind_some]
      rw [hk]
      exact ht z hz
    · next hdigit =>
      cases h
      refine ⟨[], rfl, fun z hz => ?_⟩
      cases z with
      | nil => cases hz
      | cons c z =>
        obtain rfl : c = b := Option.some.inj hz
        rw [List.nil_append, takeNumber, if_neg hdigit]

theorem local_takeMax (spec : Spec) : Local (takeMax spec) := by
  intro fmt rest a h hne
  rw [takeMax] at h
  split at h
  · next hdigit =>
    simp only [Option.bind_eq_bind, Option.bind_eq_some_iff, Prod.exists, Option.some.injEq,
      Prod.mk.injEq] at h
    obtain ⟨max, after, hnumber, rfl, rfl⟩ := h
    obtain ⟨t, rfl, ht⟩ := local_takeNumber 0 hnumber hne
    refine ⟨t, rfl, fun z hz => ?_⟩
    rw [takeMax, if_pos (by rwa [head?_append_congr hz]), ht z hz]
    rfl
  · next hdigit =>
    cases h
    refine ⟨[], rfl, fun z hz => ?_⟩
    rw [takeMax, if_neg (by rwa [List.nil_append, hz])]
    rfl

theorem local_takeModifier (spec : Spec) : Local fun fmt => some (takeModifier spec fmt) := by
  intro fmt rest a h hne
  dsimp only at h ⊢
  fun_induction takeModifier spec fmt with
  | case1 =>
    cases h
    exact absurd rfl hne
  | case2 spec fmt ih =>
    obtain ⟨t, rfl, ht⟩ := ih h
    refine ⟨ascii 'h' :: t, rfl, fun z hz => ?_⟩
    rw [List.cons_append, takeModifier, if_pos rfl]
    exact ht z hz
  | case3 spec fmt hh ih =>
    obtain ⟨t, rfl, ht⟩ := ih h
    refine ⟨ascii 'l' :: t, rfl, fun z hz => ?_⟩
    rw [List.cons_append, takeModifier, if_neg hh, if_pos rfl]
    exact ht z hz
  | case4 spec fmt hh hl ih =>
    obtain ⟨t, rfl, ht⟩ := ih h
    refine ⟨ascii 'z' :: t, rfl, fun z hhead => ?_⟩
    rw [List.cons_append, takeModifier, if_neg hh, if_neg hl, if_pos rfl]
    exact ht z hhead
  | case5 spec b fmt hh hl hz hj ih =>
    obtain ⟨t, rfl, ht⟩ := ih h
    refine ⟨b :: t, rfl, fun z hhead => ?_⟩
    rw [List.cons_append, takeModifier, if_neg hh, if_neg hl, if_neg hz, if_pos hj]
    exact ht z hhead
  | case6 spec fmt hh hl hz hj ih =>
    obtain ⟨t, rfl, ht⟩ := ih h
    refine ⟨ascii 'L' :: t, rfl, fun z hhead => ?_⟩
    rw [List.cons_append, takeModifier, if_neg hh, if_neg hl, if_neg hz, if_neg hj, if_pos rfl]
    exact ht z hhead
  | case7 spec b fmt hh hl hz hj hL =>
    cases h
    refine ⟨[], rfl, fun z hhead => ?_⟩
    cases z with
    | nil => cases hhead
    | cons c z =>
      obtain rfl : c = b := Option.some.inj hhead
      rw [List.nil_append, takeModifier, if_neg hh, if_neg hl, if_neg hz, if_neg hj, if_neg hL]

theorem takeRanges_bracket {first : Bool} {c : UInt8} (h : c = ascii ']' ∧ ¬ first)
    (z : List UInt8) : takeRanges first (c :: z) = some ([], z) := by
  rcases z with - | ⟨d, - | ⟨e, z⟩⟩
  · rw [takeRanges.eq_2, if_pos h]
  · rw [takeRanges.eq_4, if_pos h]
  · rw [takeRanges.eq_3, if_pos h]

theorem takeRanges_range {first : Bool} {c dash last : UInt8} (h : ¬ (c = ascii ']' ∧ ¬ first))
    (hrange : dash = ascii '-' ∧ last ≠ ascii ']') (z : List UInt8) :
    takeRanges first (c :: dash :: last :: z) =
      (takeRanges false z).map fun r => ((c, last) :: r.1, r.2) := by
  rw [takeRanges.eq_3, if_neg h]
  exact if_pos hrange

/-- One byte, with a dash behind it at most if that is the last. -/
theorem takeRanges_one {first : Bool} {c dash : UInt8} {z : List UInt8}
    (h : ¬ (c = ascii ']' ∧ ¬ first))
    (hone : ∀ last ∈ z.head?, ¬ (dash = ascii '-' ∧ last ≠ ascii ']')) :
    takeRanges first (c :: dash :: z) =
      (takeRanges false (dash :: z)).map fun r => ((c, c) :: r.1, r.2) := by
  cases z with
  | nil => rw [takeRanges.eq_4, if_neg h]
  | cons last z =>
    rw [takeRanges.eq_3, if_neg h]
    exact if_neg (hone last rfl)

theorem takeRanges_behind {first : Bool} {c : UInt8} {t : List UInt8} {set : List (UInt8 × UInt8)}
    (h : ¬ (c = ascii ']' ∧ ¬ first)) (ht : ∀ z, takeRanges false (t ++ z) = some (set, z))
    (hone : ∀ dash last t', t = dash :: last :: t' → ¬ (dash = ascii '-' ∧ last ≠ ascii ']'))
    (z : List UInt8) : takeRanges first (c :: (t ++ z)) = some ((c, c) :: set, z) := by
  cases t with
  | nil =>
    have hnil := ht []
    rw [List.append_nil, takeRanges.eq_1] at hnil
    cases hnil
  | cons dash t =>
    rw [List.cons_append, takeRanges_one h, ← List.cons_append, ht z]
    · rfl
    · cases t with
      | nil =>
        have hlast := ht []
        rw [List.append_nil, takeRanges.eq_2] at hlast
        split at hlast
        · next hbracket =>
          intro last _ hrange
          exact absurd (hbracket.1.symm.trans hrange.1) (by decide)
        · cases hlast
      | cons last t =>
        intro e he
        cases he
        exact hone dash last t rfl

/-- A set ends with its bracket. -/
theorem local_takeRanges {first : Bool} {set : List (UInt8 × UInt8)}
    (h : takeRanges first fmt = some (set, rest)) :
    ∃ t, fmt = t ++ rest ∧ ∀ z, takeRanges first (t ++ z) = some (set, z) := by
  fun_induction takeRanges first fmt generalizing set with
  | case1 => cases h
  | case2 first c hend =>
    cases h
    exact ⟨[c], rfl, takeRanges_bracket hend⟩
  | case3 => cases h
  | case4 first c dash fmt hend =>
    cases h
    exact ⟨[c], rfl, takeRanges_bracket hend⟩
  | case5 first c dash hend last fmt' hrange ih =>
    obtain ⟨r, hr, heq⟩ := Option.map_eq_some_iff.mp h
    cases heq
    obtain ⟨t, rfl, ht⟩ := ih hr
    refine ⟨c :: dash :: last :: t, rfl, fun z => ?_⟩
    rw [List.cons_append, List.cons_append, List.cons_append, takeRanges_range hend hrange, ht z]
    rfl
  | case6 first c dash hend last fmt' hrange ih =>
    obtain ⟨r, hr, heq⟩ := Option.map_eq_some_iff.mp h
    cases heq
    obtain ⟨t, ht', ht⟩ := ih hr
    refine ⟨c :: t, congrArg (c :: ·) ht', takeRanges_behind hend ht fun d e t' heq => ?_⟩
    rw [heq] at ht'
    cases ht'
    exact hrange
  | case7 first c dash hend ih =>
    obtain ⟨r, hr, heq⟩ := Option.map_eq_some_iff.mp h
    cases heq
    obtain ⟨t, ht', ht⟩ := ih hr
    refine ⟨c :: t, congrArg (c :: ·) ht', takeRanges_behind hend ht fun d e t' heq => ?_⟩
    rw [heq] at ht'
    cases ht'

/-- A conversion behind its star. -/
def conversionFrom (spec : Spec) (fmt : List UInt8) : Option (Option (Spec × UInt8 × List UInt8)) :=
  (takeMax spec fmt).bind fun r =>
    match (takeModifier r.1 r.2).2 with
    | [] => some none
    | c :: fmt =>
      if c = ascii '[' then
        some ((parseSet (takeModifier r.1 r.2).1 fmt).map fun r => (r.1, c, r.2))
      else some (some ((takeModifier r.1 r.2).1, c, fmt))

theorem conversion_eq (fmt : List UInt8) :
    conversion fmt = conversionFrom (takeSuppress {} fmt).1 (takeSuppress {} fmt).2 := rfl

theorem local_parseSet (h : parseSet spec fmt = some (spec', rest)) :
    ∃ t, fmt = t ++ rest ∧ ∀ z, parseSet spec (t ++ z) = some (spec', z) := by
  simp only [parseSet, Option.bind_eq_bind, Option.bind_eq_some_iff, Prod.exists,
    Option.some.injEq, Prod.mk.injEq] at h
  obtain ⟨set, after, hranges, rfl, rfl⟩ := h
  by_cases hneg : fmt.head? = some (ascii '^')
  · rw [decide_eq_true hneg, if_pos rfl] at hranges
    obtain ⟨t, ht, hall⟩ := local_takeRanges hranges
    cases fmt with
    | nil => cases hneg
    | cons b fmt =>
      refine ⟨b :: t, congrArg (b :: ·) ht, fun z => ?_⟩
      have hneg' : (b :: (t ++ z)).head? = some (ascii '^') := hneg
      rw [List.cons_append, parseSet, decide_eq_true hneg', decide_eq_true hneg]
      dsimp only [List.tail_cons]
      rw [if_pos rfl, hall z]
      rfl
  · rw [decide_eq_false hneg, if_neg Bool.false_ne_true] at hranges
    obtain ⟨t, rfl, hall⟩ := local_takeRanges hranges
    refine ⟨t, rfl, fun z => ?_⟩
    have hneg' : (t ++ z).head? ≠ some (ascii '^') := by
      cases t with
      | nil =>
        have hnil := hall []
        rw [List.append_nil, takeRanges.eq_1] at hnil
        cases hnil
      | cons b t => exact hneg
    rw [parseSet, decide_eq_false hneg', decide_eq_false hneg]
    rw [if_neg Bool.false_ne_true, hall z]
    rfl

theorem local_conversionFrom (hfrom : conversionFrom spec fmt = some (some (spec', conv, rest))) :
    ∃ t, fmt = t ++ rest ∧ t ≠ [] ∧
      ∀ z, conversionFrom spec (t ++ z) = some (some (spec', conv, z)) := by
  obtain ⟨⟨spec₁, fmt₁⟩, hmax, h⟩ := Option.bind_eq_some_iff.mp hfrom
  obtain ⟨spec₂, fmt₂, hmod⟩ : ∃ spec₂ fmt₂, takeModifier spec₁ fmt₁ = (spec₂, fmt₂) := ⟨_, _, rfl⟩
  dsimp only at h
  rw [hmod] at h
  cases fmt₂ with
  | nil => cases h
  | cons c fmt₂ =>
    obtain ⟨t₂, rfl, hall₂⟩ := local_takeModifier spec₁ (congrArg some hmod) (List.cons_ne_nil _ _)
    obtain ⟨t₁, rfl, hall₁⟩ := local_takeMax spec hmax
      (List.append_ne_nil_of_right_ne_nil _ (List.cons_ne_nil _ _))
    -- the text up to the letter, and what the letter is followed by
    have hall : ∀ z, conversionFrom spec (t₁ ++ (t₂ ++ c :: z)) =
        if c = ascii '[' then some ((parseSet spec₂ z).map fun r => (r.1, c, r.2))
        else some (some (spec₂, c, z)) := by
      intro z
      have hmod' := Option.some.inj (hall₂ (c :: z) rfl)
      rw [conversionFrom, hall₁ (t₂ ++ c :: z) (head?_append_congr rfl), Option.bind_some]
      dsimp only
      rw [hmod']
    have h := (hall fmt₂).symm.trans hfrom
    by_cases hset : c = ascii '['
    · rw [if_pos hset] at h
      obtain ⟨r, hparse, heq⟩ := Option.map_eq_some_iff.mp (Option.some.inj h)
      obtain ⟨hspec, heq⟩ := Prod.mk.inj heq
      obtain ⟨rfl, hrest⟩ := Prod.mk.inj heq
      obtain ⟨t₃, ht₃, hall₃⟩ := local_parseSet (hparse.trans (congrArg some (Prod.eta r).symm))
      refine ⟨t₁ ++ (t₂ ++ c :: t₃), ?_, ?_, fun z => ?_⟩
      · rw [ht₃, hrest]
        simp
      · simp
      · have hz := hall (t₃ ++ z)
        rw [if_pos hset, hall₃ z, hspec] at hz
        rw [List.append_assoc, List.append_assoc, List.cons_append, hz]
        rfl
    · rw [if_neg hset] at h
      cases h
      refine ⟨t₁ ++ (t₂ ++ [conv]), ?_, ?_, fun z => ?_⟩
      · simp
      · simp
      · have hz := hall z
        rw [if_neg hset] at hz
        rw [List.append_assoc, List.append_assoc, List.singleton_append, hz]

/-- A star changes nothing else. -/
theorem takeModifier_suppress (spec : Spec) (suppress : Bool) (fmt : List UInt8) :
    takeModifier { spec with suppress } fmt =
      ({ (takeModifier spec fmt).1 with suppress }, (takeModifier spec fmt).2) := by
  fun_induction takeModifier spec fmt with
  | case1 => rfl
  | case2 spec fmt ih =>
    rw [takeModifier, if_pos rfl]
    exact ih
  | case3 spec fmt hh ih =>
    rw [takeModifier, if_neg hh, if_pos rfl]
    exact ih
  | case4 spec fmt hh hl ih =>
    rw [takeModifier, if_neg hh, if_neg hl, if_pos rfl]
    exact ih
  | case5 spec b fmt hh hl hz hj ih =>
    rw [takeModifier, if_neg hh, if_neg hl, if_neg hz, if_pos hj]
    exact ih
  | case6 spec fmt hh hl hz hj ih =>
    rw [takeModifier, if_neg hh, if_neg hl, if_neg hz, if_neg hj, if_pos rfl]
    exact ih
  | case7 spec b fmt hh hl hz hj hL =>
    rw [takeModifier, if_neg hh, if_neg hl, if_neg hz, if_neg hj, if_neg hL]

theorem takeMax_suppress (spec : Spec) (suppress : Bool) (fmt : List UInt8) :
    takeMax { spec with suppress } fmt =
      (takeMax spec fmt).map fun r => ({ r.1 with suppress }, r.2) := by
  rw [takeMax, takeMax]
  split
  · cases takeNumber 0 fmt with
    | none => rfl
    | some r => rfl
  · rfl

theorem parseSet_suppress (spec : Spec) (suppress : Bool) (fmt : List UInt8) :
    parseSet { spec with suppress } fmt =
      (parseSet spec fmt).map fun r => ({ r.1 with suppress }, r.2) := by
  dsimp only [parseSet]
  cases takeRanges true (if decide (fmt.head? = some (ascii '^')) then fmt.tail else fmt) with
  | none => rfl
  | some r => rfl

theorem conversionFrom_suppress (suppress : Bool)
    (h : conversionFrom spec fmt = some (some (spec', conv, rest))) :
    conversionFrom { spec with suppress } fmt =
      some (some ({ spec' with suppress }, conv, rest)) := by
  obtain ⟨r, hmax, hr⟩ := Option.bind_eq_some_iff.mp h
  rw [conversionFrom, takeMax_suppress, hmax, Option.map_some, Option.bind_some]
  dsimp only
  rw [takeModifier_suppress]
  dsimp only at hr ⊢
  split at hr
  · cases hr
  · next c fmt' hfmt =>
    split at hr
    · next hset =>
      rw [if_pos hset, parseSet_suppress]
      obtain ⟨p, hparse, heq⟩ := Option.map_eq_some_iff.mp (Option.some.inj hr)
      rw [hparse]
      cases heq
      rfl
    · next hset =>
      rw [if_neg hset]
      cases hr
      rfl

theorem conversion_star (fmt : List UInt8) :
    conversion (ascii '*' :: fmt) = conversionFrom { suppress := true } fmt := by
  rw [conversion_eq, takeSuppress,
    if_pos (show (ascii '*' :: fmt).head? = some (ascii '*') from rfl)]
  rfl

theorem conversion_of_no_star (h : fmt.head? ≠ some (ascii '*')) :
    conversion fmt = conversionFrom {} fmt := by
  rw [conversion_eq, takeSuppress, if_neg h]

/-- **A conversion is told from its own text**, whatever stands behind it. -/
theorem conversion_local (h : conversion fmt = some (some (spec, conv, rest))) :
    ∃ t, fmt = t ++ rest ∧ t ≠ [] ∧
      ∀ z, conversion (t ++ z) = some (some (spec, conv, z)) := by
  by_cases hstar : fmt.head? = some (ascii '*')
  · cases fmt with
    | nil => cases hstar
    | cons b fmt =>
      obtain rfl : b = ascii '*' := Option.some.inj hstar
      rw [conversion_star] at h
      obtain ⟨t, rfl, -, hall⟩ := local_conversionFrom h
      refine ⟨ascii '*' :: t, rfl, List.cons_ne_nil _ _, fun z => ?_⟩
      rw [List.cons_append, conversion_star]
      exact hall z
  · rw [conversion_of_no_star hstar] at h
    obtain ⟨t, rfl, hne, hall⟩ := local_conversionFrom h
    refine ⟨t, rfl, hne, fun z => ?_⟩
    rw [conversion_of_no_star ?_]
    · exact hall z
    · cases t with
      | nil => exact absurd rfl hne
      | cons b t => exact hstar

/-- A star in front of a conversion changes nothing else. -/
theorem conversion_starred (hstar : fmt.head? ≠ some (ascii '*'))
    (h : conversion fmt = some (some (spec, conv, rest))) :
    spec.suppress = false ∧ conversion (ascii '*' :: fmt) =
      some (some ({ spec with suppress := true }, conv, rest)) := by
  rw [conversion_of_no_star hstar] at h
  refine ⟨?_, ?_⟩
  · have hself := conversionFrom_suppress false h
    rw [h] at hself
    exact congrArg Spec.suppress (Prod.mk.inj (Option.some.inj (Option.some.inj hself))).1
  · rw [conversion_star]
    exact conversionFrom_suppress true h

/-! ### Stars -/

/-- A star was added to some of the conversions of a format. -/
inductive Starred : List UInt8 → List UInt8 → Prop
  | same (fmt : List UInt8) : Starred fmt fmt
  | literal {b : UInt8} {fmt fmt' : List UInt8} (hb : b ≠ ascii '%') (h : Starred fmt fmt') :
    Starred (b :: fmt) (b :: fmt')
  | percent {fmt fmt' : List UInt8} (h : Starred fmt fmt') :
    Starred (ascii '%' :: ascii '%' :: fmt) (ascii '%' :: ascii '%' :: fmt')
  | conversion {spec : Spec} {conv : UInt8} {t fmt fmt' : List UInt8}
    (hhead : t.head? ≠ some (ascii '%')) (ht : Scan.conversion (t ++ fmt) =
      some (some (spec, conv, fmt)))
    (h : Starred fmt fmt') : Starred (ascii '%' :: (t ++ fmt)) (ascii '%' :: (t ++ fmt'))
  | star {spec : Spec} {conv : UInt8} {t fmt fmt' : List UInt8}
    (hhead : t.head? ≠ some (ascii '%')) (hstar : t.head? ≠ some (ascii '*'))
    (ht : Scan.conversion (t ++ fmt) = some (some (spec, conv, fmt))) (h : Starred fmt fmt') :
    Starred (ascii '%' :: (t ++ fmt)) (ascii '%' :: ascii '*' :: (t ++ fmt'))

/-- Two conversions that take the same, and store the same if both are asked to. -/
structure Alike (m m' : Made) : Prop where
  spec : m'.spec = { m.spec with suppress := m'.spec.suppress }
  conv : m'.conv = m.conv
  before : m'.before.input = m.before.input
  after : m'.after.input = m.after.input
  stored : m'.spec.suppress = m.spec.suppress → m'.stored.map Prod.snd = m.stored.map Prod.snd

/-- Two calls that make the same conversions and come equally far. -/
def SameCourse (t t' : List Made × State) : Prop :=
  List.Forall₂ Alike t.1 t'.1 ∧ t'.2.input = t.2.input

/-- Two calls that have come equally far. -/
structure Abreast (st st' : State) : Prop where
  input : st'.input = st.input
  pos : st'.pos = st.pos
  valid : ∀ i, st.dests i ≠ 0
  valid' : ∀ i, st'.dests i ≠ 0

theorem Abreast.skip (h : Abreast st st') : Abreast st.skip st'.skip := by
  refine ⟨?_, ?_, h.valid, h.valid'⟩
  · rw [State.skip, State.skip, h.input]
  · rw [State.skip, State.skip, h.input, h.pos]

theorem Abreast.look (h : Abreast st st') (conv : UInt8) :
    Abreast (st.look conv) (st'.look conv) := by
  rw [State.look, State.look]
  split
  · exact h
  · exact h.skip

theorem Abreast.advance (h : Abreast st st') (n : ℕ) : Abreast (st.advance n) (st'.advance n) := by
  refine ⟨?_, ?_, h.valid, h.valid'⟩
  · rw [State.advance, State.advance, h.input]
  · rw [State.advance, State.advance, h.pos]

theorem Abreast.took (h : Abreast st st') (spec : Spec) (suppress : Bool) (conv : UInt8) (n : ℕ)
    (v : Stored) :
    Abreast (st.took spec conv n v) (st'.took { spec with suppress } conv n v) := by
  have hgiven : ∀ {st : State} (b : Bool), (∀ i, st.dests i ≠ 0) →
      (if b then st else st.give conv v).input = st.input ∧
        (if b then st else st.give conv v).pos = st.pos ∧
          ∀ i, (if b then st else st.give conv v).dests i ≠ 0 := by
    intro st b hvalid
    cases b with
    | true => exact ⟨rfl, rfl, hvalid⟩
    | false => exact ⟨rfl, rfl, fun i => hvalid (i + 1)⟩
  obtain ⟨hinput, hpos, hvalid⟩ := hgiven spec.suppress h.valid
  obtain ⟨hinput', hpos', hvalid'⟩ := hgiven suppress h.valid'
  have hall : Abreast (if spec.suppress then st else st.give conv v)
      (if suppress then st' else st'.give conv v) :=
    ⟨by rw [hinput, hinput', h.input], by rw [hpos, hpos', h.pos], hvalid, hvalid'⟩
  dsimp only [State.took]
  split
  · exact hall
  · exact hall.advance n

/-- **A conversion of two calls** that have come equally far: both take the same, or nothing. -/
theorem convert_alike (reals : Reals) (h : Abreast st st') (spec : Spec) (suppress : Bool)
    (conv : UInt8) :
    (∃ st₁ st₁', convert reals spec conv st = some (.inl st₁) ∧
      convert reals { spec with suppress } conv st' = some (.inl st₁') ∧ Abreast st₁ st₁' ∧
      Alike ⟨spec, conv, st, st₁⟩ ⟨{ spec with suppress }, conv, st', st₁'⟩) ∨
    (∀ st₁, convert reals spec conv st ≠ some (.inl st₁)) ∧
      ∀ st₁', convert reals { spec with suppress } conv st' ≠ some (.inl st₁') := by
  have hlook := h.look conv
  rw [convert_eq (h.valid 0), convert_eq (h.valid' 0), takes_congr hlook.input hlook.pos]
  cases htakes : takes reals spec conv (st.look conv) with
  | none =>
    refine .inr ⟨fun st₁ hmade => ?_, fun st₁' hmade => ?_⟩
    all_goals cases hmade
  | some taken =>
    cases taken with
    | none =>
      refine .inr ⟨fun st₁ hmade => ?_, fun st₁' hmade => ?_⟩
      all_goals cases hmade
    | some p =>
      obtain ⟨n, v⟩ := p
      have hn : conv = ascii 'n' → n = 0 := by
        rintro rfl
        exact takes_n htakes
      have htook := hlook.took spec suppress conv n v
      refine .inl ⟨_, _, rfl, rfl, htook, rfl, rfl, h.input, htook.input, fun hsame => ?_⟩
      obtain ⟨-, hstored, -⟩ := took_fields (st.look conv) spec hn v
      obtain ⟨-, hstored', -⟩ := took_fields (st'.look conv) { spec with suppress } hn v
      dsimp only at hsame hstored'
      rw [Made.stored, Made.stored]
      dsimp only
      rw [hstored, hstored', (look_stored st conv).1, (look_stored st' conv).1, List.drop_left,
        List.drop_left, hsame]
      split <;> rfl

theorem sameCourse_conversion {fmt' rest' : List UInt8} (suppress : Bool) (hab : Abreast st st')
    (hhead : fmt.head? ≠ some (ascii '%')) (hhead' : fmt'.head? ≠ some (ascii '%'))
    (h : conversion fmt = some (some (spec, conv, rest)))
    (h' : conversion fmt' = some (some ({ spec with suppress }, conv, rest')))
    (ih : ∀ st₁ st₁', Abreast st₁ st₁' → SameCourse (track reals rest st₁)
      (track reals rest' st₁')) :
    SameCourse (track reals (ascii '%' :: fmt) st) (track reals (ascii '%' :: fmt') st') := by
  obtain ⟨st₁, st₁', hconvert, hconvert', hab₁, halike⟩ | ⟨hno, hno'⟩ :=
    convert_alike reals hab spec suppress conv
  · rw [track_made hhead h hconvert, track_made hhead' h' hconvert']
    obtain ⟨hall, hinput⟩ := ih st₁ st₁' hab₁
    exact ⟨.cons halike hall, hinput⟩
  · rw [track_stop hhead h hno, track_stop hhead' h' hno']
    exact ⟨.nil, (hab.look conv).input⟩

theorem sameCourse_literal {b : UInt8} {fmt' : List UInt8} (hb : b ≠ ascii '%')
    (hab : Abreast st st')
    (ih : ∀ st₁ st₁', Abreast st₁ st₁' → SameCourse (track reals fmt st₁) (track reals fmt' st₁')) :
    SameCourse (track reals (b :: fmt) st) (track reals (b :: fmt') st') := by
  rw [track_literal hb, track_literal hb, hab.input]
  split
  · exact ih _ _ hab.skip
  · split
    · exact ih _ _ (hab.advance 1)
    · exact ⟨.nil, hab.input⟩

theorem sameCourse_percent {fmt' : List UInt8} (hab : Abreast st st')
    (ih : ∀ st₁ st₁', Abreast st₁ st₁' → SameCourse (track reals fmt st₁) (track reals fmt' st₁')) :
    SameCourse (track reals (ascii '%' :: ascii '%' :: fmt) st)
      (track reals (ascii '%' :: ascii '%' :: fmt') st') := by
  rw [track_percent, track_percent, hab.input]
  have hnext := hab.advance 1
  split
  · exact ih _ _ ⟨hnext.input, hnext.pos, hnext.valid, hnext.valid'⟩
  · exact ⟨.nil, hab.input⟩

/-- **One format** from two places. -/
theorem sameCourse_self (fmt : List UInt8) (hab : Abreast st st') :
    SameCourse (track reals fmt st) (track reals fmt st') := by
  induction hlen : fmt.length using Nat.strong_induction_on generalizing fmt st st' with
  | _ len ih =>
    subst hlen
    have hless : ∀ fmt₁ : List UInt8, fmt₁.length < fmt.length → ∀ st₁ st₁', Abreast st₁ st₁' →
        SameCourse (track reals fmt₁ st₁) (track reals fmt₁ st₁') :=
      fun fmt₁ hlt st₁ st₁' h => ih _ hlt fmt₁ h rfl
    cases fmt with
    | nil =>
      rw [track, track]
      exact ⟨.nil, hab.input⟩
    | cons b fmt =>
      by_cases hb : b ≠ ascii '%'
      · exact sameCourse_literal hb hab (hless fmt (Nat.lt_succ_self _))
      obtain rfl := not_not.mp hb
      by_cases hhead : fmt.head? = some (ascii '%')
      · cases fmt with
        | nil => cases hhead
        | cons b fmt =>
          obtain rfl : b = ascii '%' := Option.some.inj hhead
          exact sameCourse_percent hab (hless fmt (by simp))
      · by_cases hconv : ∃ r, conversion fmt = some (some r)
        · obtain ⟨⟨spec, conv, rest⟩, h⟩ := hconv
          have hlt := conversion_length h
          exact sameCourse_conversion spec.suppress hab hhead hhead h h
            (hless rest (Nat.lt_succ_of_lt hlt))
        · have hno : ∀ r, conversion fmt ≠ some (some r) := fun r h => hconv ⟨r, h⟩
          rw [track_end hhead hno, track_end hhead hno]
          exact ⟨.nil, hab.input⟩

theorem head?_append_of_ne_nil {t : List UInt8} (ht : t ≠ []) (z : List UInt8) :
    (t ++ z).head? = t.head? := by
  cases t with
  | nil => exact absurd rfl ht
  | cons b t => rfl

/-- **Stars change nothing else**: the conversions take what they took, and store what they stored
unless they are the ones that were told not to. -/
theorem sameCourse_of_starred {fmt' : List UInt8} (h : Starred fmt fmt') (hab : Abreast st st') :
    SameCourse (track reals fmt st) (track reals fmt' st') := by
  induction h generalizing st st' with
  | same fmt => exact sameCourse_self fmt hab
  | literal hb h ih => exact sameCourse_literal hb hab fun st₁ st₁' => ih
  | percent h ih => exact sameCourse_percent hab fun st₁ st₁' => ih
  | @conversion spec conv t fmt fmt' hhead ht h ih =>
    obtain ⟨t', heq, hne, hall⟩ := conversion_local ht
    obtain rfl := List.append_cancel_right heq
    have hhead' : ∀ z, (t ++ z).head? ≠ some (ascii '%') := by
      intro z
      rwa [head?_append_of_ne_nil hne]
    exact sameCourse_conversion spec.suppress hab (hhead' _) (hhead' _) ht (hall fmt')
      fun st₁ st₁' => ih
  | @star spec conv t fmt fmt' hhead hstar ht h ih =>
    obtain ⟨t', heq, hne, hall⟩ := conversion_local ht
    obtain rfl := List.append_cancel_right heq
    have hhead' : (t ++ fmt).head? ≠ some (ascii '%') := by
      rwa [head?_append_of_ne_nil hne]
    have hstar' : (t ++ fmt').head? ≠ some (ascii '*') := by
      rwa [head?_append_of_ne_nil hne]
    refine sameCourse_conversion true hab hhead' ?_ ht
      (conversion_starred hstar' (hall fmt')).2 fun st₁ st₁' => ih
    rw [List.head?_cons]
    decide

/-! ### What a scan comes to -/

/-- Nothing read yet. -/
def start (input : List UInt8) (dests : Args) : State := ⟨input, 0, 0, false, dests, []⟩

/-- What is asked of a scan. -/
structure Lawful (reals : Reals) (input fmt : List UInt8) (dests : Args)
    (r : ℤ × List (BitVec 64 × Stored)) : Prop where
  conversions : ∀ m ∈ (track reals fmt (start input dests)).1, Obeys input m
  stored : r.2 = (track reals fmt (start input dests)).1.flatMap Made.stored
  /-- How many conversions counted, or -1 if none did and the input is used up. -/
  value : (track reals fmt (start input dests)).1.countP Made.counts < 2 ^ 31 →
    r.1 = (track reals fmt (start input dests)).1.countP Made.counts ∨
      r.1 = -1 ∧ (track reals fmt (start input dests)).1.countP Made.counts = 0 ∧
        (track reals fmt (start input dests)).2.input = []
  star : ∀ fmt' dests', Starred fmt fmt' → (∀ i, dests' i ≠ 0) →
    SameCourse (track reals fmt (start input dests)) (track reals fmt' (start input dests'))

/-- A count that has not come round. -/
theorem toInt_ofNat_of_lt {k : ℕ} (hk : k < 2 ^ 31) : (BitVec.ofNat 32 k).toInt = k := by
  have hnat : (BitVec.ofNat 32 k).toNat = k := Nat.mod_eq_of_lt (hk.trans (by decide))
  rw [BitVec.toInt_eq_toNat_of_lt (by rw [hnat]; omega), hnat]

theorem scan_of_run {dests : Args} {r : ℤ} (h : run reals fmt (start input dests) = some (r, st)) :
    scan reals input fmt dests = some (r, st.stored) := by
  rw [scan, show (⟨input, 0, 0, false, dests, []⟩ : State) = start input dests from rfl, h]
  rfl

/-- **A scan ends**, and does what is asked of it. -/
theorem scan_exact (reals : Reals) (input fmt : List UInt8) {dests : Args}
    (hdests : ∀ i, dests i ≠ 0) (hfit : WidthsFit input.length fmt) :
    ∃ r, scan reals input fmt dests = some r ∧ Lawful reals input fmt dests r := by
  have hstart : Reached input (start input dests) := ⟨rfl, Nat.zero_le _, hdests⟩
  have htracked : Tracked input (start input dests) (track reals fmt (start input dests)) :=
    track_tracked hstart
  obtain ⟨⟨r, st⟩, hrun, hends, hstored⟩ := run_ends hstart hfit
  have hassigned : (track reals fmt (start input dests)).2.assigned =
      .ofNat 32 ((track reals fmt (start input dests)).1.countP Made.counts) :=
    htracked.assigned.trans (BitVec.zero_add _)
  refine ⟨(r, st.stored), scan_of_run hrun, htracked.obeys, ?_, fun hcount => ?_,
    fun fmt' dests' hstar hdests' => ?_⟩
  · exact hstored.trans (htracked.stored.trans (List.nil_append _))
  · have hvalue := toInt_ofNat_of_lt hcount
    rw [Ends, hassigned, hvalue] at hends
    refine (hends (Int.natCast_nonneg _)).imp_right fun ⟨hr, hzero, hnil⟩ => ⟨hr, ?_, hnil⟩
    rw [hzero] at hvalue
    exact Int.natCast_eq_zero.mp hvalue.symm
  · exact sameCourse_of_starred hstar ⟨rfl, rfl, hdests, hdests'⟩

theorem widthsFit_of_conversion {len : ℕ} (hhead : fmt.head? ≠ some (ascii '%'))
    (h : conversion fmt = some (some (spec, conv, rest))) (hroom : len + spec.room ≤ usizeMax)
    (hrest : WidthsFit len rest) : WidthsFit len (ascii '%' :: fmt) := by
  rw [WidthsFit, if_neg (by decide), if_neg hhead]
  split
  · next heq =>
    rw [h] at heq
    cases heq
  · trivial
  · next heq =>
    rw [h] at heq
    cases heq
    exact ⟨hroom, hrest⟩

theorem widthsFit_nil (len : ℕ) : WidthsFit len [] := by
  rw [WidthsFit]
  trivial

/-- Where every number is zero. -/
def zeros : Reals := ⟨fun _ => 0, fun _ => 0⟩

theorem conversion_letters (t : List UInt8) :
    conversion ([ascii '*', ascii '[', ascii 'a', ascii '-', ascii 'z', ascii ']'] ++ t) =
      some (some ({ suppress := true, set := [(ascii 'a', ascii 'z')] }, ascii '[', t)) := by
  have hranges : takeRanges true (ascii 'a' :: ascii '-' :: ascii 'z' :: ascii ']' :: t) =
      some ([(ascii 'a', ascii 'z')], t) := by
    rw [takeRanges_range (by decide) (by decide), takeRanges_bracket (by decide)]
    rfl
  show some (((takeRanges true (ascii 'a' :: ascii '-' :: ascii 'z' :: ascii ']' :: t)).bind
    _).map _) = _
  rw [hranges]
  rfl

/-- `%2d%*[a-z]%3d` takes two digits, letters that are not stored, and the number behind them. -/
theorem scan_exact_record :
    let input := ['1', '2', 'a', 'b', '3', '4'].map ascii
    let fmt := ['%', '2', 'd', '%', '*', '[', 'a', '-', 'z', ']', '%', '3', 'd'].map ascii
    ∃ r, scan zeros input fmt (fun _ => 1) = some r ∧ Lawful zeros input fmt (fun _ => 1) r ∧
      r = (2, [(1, .int 32 12), (1, .int 32 34)]) := by
  intro input fmt
  have htwo : conversion (['2', 'd', '%', '*', '[', 'a', '-', 'z', ']', '%', '3', 'd'].map ascii) =
      some (some ({ max := 2 }, ascii 'd',
        ['%', '*', '[', 'a', '-', 'z', ']', '%', '3', 'd'].map ascii)) := rfl
  have hset := conversion_letters (['%', '3', 'd'].map ascii)
  have hlast : conversion (['3', 'd'].map ascii) = some (some ({ max := 3 }, ascii 'd', [])) := rfl
  have hfit : WidthsFit input.length fmt :=
    widthsFit_of_conversion (by decide) htwo (by decide)
      (widthsFit_of_conversion (by decide) hset (by decide)
        (widthsFit_of_conversion (by decide) hlast (by decide) (widthsFit_nil _)))
  obtain ⟨r, hscan, hlawful⟩ := @scan_exact zeros input fmt (fun _ => 1)
    (fun _ => (by decide : (1 : BitVec 64) ≠ 0)) hfit
  refine ⟨r, hscan, hlawful, ?_⟩
  have hrun : run zeros fmt (start input fun _ => 1) =
      some (2, ⟨[], 6, 2, true, fun _ => 1, [(1, .int 32 12), (1, .int 32 34)]⟩) := by
    have hfirst : convert zeros { max := 2 } (ascii 'd') (start input fun _ => 1) =
      some (.inl ⟨input.drop 2, 2, 1, true, fun _ => 1, [(1, .int 32 12)]⟩) := rfl
    have hletters : convert zeros { suppress := true, set := [(ascii 'a', ascii 'z')] } (ascii '[')
        ⟨input.drop 2, 2, 1, true, fun _ => 1, [(1, .int 32 12)]⟩ =
      some (.inl ⟨input.drop 4, 4, 1, true, fun _ => 1, [(1, .int 32 12)]⟩) := rfl
    have hsecond : convert zeros { max := 3 } (ascii 'd')
        ⟨input.drop 4, 4, 1, true, fun _ => 1, [(1, .int 32 12)]⟩ =
      some (.inl ⟨[], 6, 2, true, fun _ => 1, [(1, .int 32 12), (1, .int 32 34)]⟩) := rfl
    refine (run_conversion (by decide) htwo _).trans ?_
    rw [hfirst, Option.bind_some]
    refine (run_conversion (by decide) hset _).trans ?_
    rw [hletters, Option.bind_some]
    refine (run_conversion (by decide) hlast _).trans ?_
    rw [hsecond, Option.bind_some]
    show run zeros [] _ = _
    rw [run]
    rfl
  exact Option.some.inj (hscan.symm.trans (scan_of_run hrun))

/-- What `%n` stores does not keep the result from being -1. -/
theorem stores_uncounted : scan zeros [] [ascii '%', ascii 'n', ascii '%', ascii 'd'] (fun _ => 1) =
    some (-1, [(1, .int 32 0)]) := by
  have hcount : conversion [ascii 'n', ascii '%', ascii 'd'] =
      some (some ({}, ascii 'n', [ascii '%', ascii 'd'])) := rfl
  have hlast : conversion [ascii 'd'] = some (some ({}, ascii 'd', [])) := rfl
  have hn : convert zeros {} (ascii 'n') (start [] fun _ => 1) =
      some (.inl ⟨[], 0, 0, false, fun _ => 1, [(1, .int 32 0)]⟩) := rfl
  have hd : convert zeros {} (ascii 'd') ⟨[], 0, 0, false, fun _ => 1, [(1, .int 32 0)]⟩ =
      some (.inr (-1)) := rfl
  have hrun : run zeros [ascii '%', ascii 'n', ascii '%', ascii 'd'] (start [] fun _ => 1) =
      some (-1, ⟨[], 0, 0, false, fun _ => 1, [(1, .int 32 0)]⟩) := by
    rw [run_conversion (by decide) hcount, hn, Option.bind_some]
    dsimp only
    rw [run_conversion (by decide) hlast, hd]
    rfl
  exact scan_of_run hrun

/-- As many `%0c` as that. -/
def noChars : ℕ → List UInt8
  | 0 => []
  | k + 1 => ascii '%' :: ascii '0' :: ascii 'c' :: noChars k

theorem head?_noChars (k : ℕ) : (ascii '0' :: ascii 'c' :: noChars k).head? ≠ some (ascii '%') := by
  rw [List.head?_cons]
  decide

theorem conversion_noChars (k : ℕ) : conversion (ascii '0' :: ascii 'c' :: noChars k) =
    some (some ({ max := 0 }, ascii 'c', noChars k)) := rfl

theorem widthsFit_noChars (k : ℕ) : WidthsFit 1 (noChars k) := by
  induction k with
  | zero => exact widthsFit_nil 1
  | succ k ih =>
    exact widthsFit_of_conversion (head?_noChars k) (conversion_noChars k) (by decide) ih

/-- Each of them counts, and takes nothing. -/
theorem countP_noChars (k : ℕ) (hpos : st.pos = 0) :
    (track reals (noChars k) st).1.countP Made.counts = k ∧
      (track reals (noChars k) st).2.input = st.input := by
  induction k generalizing st with
  | zero =>
    rw [noChars, track]
    exact ⟨rfl, rfl⟩
  | succ k ih =>
    have hconvert : convert reals { max := 0 } (ascii 'c') st =
        some (.inl ((st.put (.bytes [])).advance 0)) := by
      obtain ⟨input, pos, assigned, seen, dests, stored⟩ := st
      obtain rfl : pos = 0 := hpos
      rfl
    obtain ⟨hcount, hinput⟩ := @ih ((st.put (.bytes [])).advance 0) hpos
    rw [noChars, track_made (head?_noChars k) (conversion_noChars k) hconvert]
    refine ⟨?_, hinput⟩
    rw [List.countP_cons_of_pos rfl, hcount]

/-- The count of assignments comes round. -/
theorem count_comes_round {k : ℕ} (hk : BitVec.ofNat 32 k = 0) :
    ∃ r, scan zeros [ascii 'a'] (noChars k) (fun _ => 1) = some r ∧ r.1 = 0 := by
  have hstart : Reached [ascii 'a'] (start [ascii 'a'] fun _ => 1) :=
    ⟨rfl, Nat.zero_le _, fun i => (by decide : (1 : BitVec 64) ≠ 0)⟩
  have htracked : Tracked [ascii 'a'] (start [ascii 'a'] fun _ => 1)
      (track zeros (noChars k) (start [ascii 'a'] fun _ => 1)) := track_tracked hstart
  obtain ⟨⟨r, st⟩, hrun, hends, -⟩ := run_ends hstart (widthsFit_noChars k)
  obtain ⟨hcount, hinput⟩ :
      (track zeros (noChars k) (start [ascii 'a'] fun _ => 1)).1.countP Made.counts = k ∧
        (track zeros (noChars k) (start [ascii 'a'] fun _ => 1)).2.input = [ascii 'a'] :=
    countP_noChars k rfl
  have hzero : (track zeros (noChars k) (start [ascii 'a'] fun _ => 1)).2.assigned = 0 := by
    rw [htracked.assigned, hcount, hk]
    rfl
  refine ⟨(r, st.stored), scan_of_run hrun, ?_⟩
  obtain hr | ⟨-, -, hnil⟩ := hends (by rw [hzero]; decide)
  · rw [hzero] at hr
    exact hr
  · rw [hinput] at hnil
    cases hnil

/-- Neither the result of -1 nor the one of 0 is what it is said to be: what `%n` stores does not
count, and the count comes round. -/
theorem result_uncounted :
    (∃ (input fmt : List UInt8) (dests : Args), (∀ i, dests i ≠ 0) ∧ WidthsFit input.length fmt ∧
      ∃ r, scan zeros input fmt dests = some r ∧ r.1 = -1 ∧ r.2 ≠ []) ∧
    ∃ (input fmt : List UInt8) (dests : Args), (∀ i, dests i ≠ 0) ∧ WidthsFit input.length fmt ∧
      ∃ r, scan zeros input fmt dests = some r ∧ r.1 = 0 ∧
        (track zeros fmt (start input dests)).1.countP Made.counts = 2 ^ 32 := by
  have hone : (1 : BitVec 64) ≠ 0 := by decide
  have hlast : conversion [ascii 'd'] = some (some ({}, ascii 'd', [])) := rfl
  have hfit : WidthsFit 0 [ascii '%', ascii 'd'] :=
    widthsFit_of_conversion (by decide) hlast (by decide) (widthsFit_nil 0)
  have hcount : conversion [ascii 'n', ascii '%', ascii 'd'] =
      some (some ({}, ascii 'n', [ascii '%', ascii 'd'])) := rfl
  obtain ⟨r, hscan, hr⟩ := count_comes_round (show BitVec.ofNat 32 (2 ^ 32) = 0 by decide)
  refine ⟨⟨[], _, fun _ => 1, fun _ => hone, ?_, _, stores_uncounted, rfl, List.cons_ne_nil _ _⟩,
    [ascii 'a'], _, fun _ => 1, fun _ => hone, widthsFit_noChars _, r, hscan, hr,
    (countP_noChars _ rfl).1⟩
  exact widthsFit_of_conversion (by decide) hcount (by decide) hfit

end Scan

end StarOS
