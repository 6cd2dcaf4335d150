import Mathlib.Algebra.Group.Nat.Defs
import Mathlib.Data.List.Induction
import StarOS.Lib.FirstMax

/-!
# Physical regions

What firmware calls memory has holes in it: the kernel itself, the device tree, what firmware keeps
for itself. `largest_free` answers with the longest run of a bank that no exclusion touches. It
scans from the left: from the cursor, what is in the way first ends a gap, and the cursor moves
past it. Exclusions may overlap, lie outside the bank, and be empty.

## Main definitions

* `PhysRegion`, with `pageAlignInward`
* `largestFree`
* `FreeIn`, `Largest` — what it should answer

## Main results

* `largestFree_eq_some` — it answers the first of the longest free runs
* `largestFree_eq_none` — it answers none when there is no free run
* `largestFree_exact`
-/

namespace StarOS

/-- `u64::MAX` -/
@[irreducible] def u64Max : ℕ := 2 ^ 64 - 1

/-- A half-open range of physical addresses: `limit` is one past the last. -/
structure PhysRegion where
  start : ℕ
  limit : ℕ
  deriving DecidableEq, Repr

namespace PhysRegion

/-- A range from `start` covering `len` bytes, which saturates. -/
def new (start len : ℕ) : PhysRegion := ⟨start, min (start + len) u64Max⟩

/-- Length in bytes, zero for an empty or inverted range. -/
def len (r : PhysRegion) : ℕ := r.limit - r.start

/-- Whether the range covers no bytes. -/
def isEmpty (r : PhysRegion) : Bool := decide (r.limit ≤ r.start)

/-- Shrink to page boundaries. A range that leaves nothing whole is empty, as is one whose start
cannot be rounded up. -/
def pageAlignInward (r : PhysRegion) (page : ℕ) : PhysRegion :=
  if r.start + (page - 1) ≤ u64Max then
    -- `v & !(page - 1)` for a page that is a power of two
    let start := (r.start + (page - 1)) / page * page
    let limit := r.limit / page * page
    if limit ≤ start then ⟨0, 0⟩ else ⟨start, limit⟩
  else ⟨0, 0⟩

instance : Membership ℕ PhysRegion := ⟨fun r x => r.start ≤ x ∧ x < r.limit⟩

variable {r r' : PhysRegion} {page x : ℕ}

theorem mem_iff : x ∈ r ↔ r.start ≤ x ∧ x < r.limit := Iff.rfl

/-- The two ranges share no byte. -/
def Disjoint (r r' : PhysRegion) : Prop := ∀ x ∈ r, x ∉ r'

theorem isEmpty_eq_true : r.isEmpty = true ↔ r.limit ≤ r.start := decide_eq_true_iff

theorem isEmpty_eq_false : r.isEmpty = false ↔ r.start < r.limit := by
  rw [isEmpty, decide_eq_false_iff_not, Nat.not_le]

/-- Ranges that are not empty are disjoint when one ends before the other starts. -/
theorem disjoint_iff (hr : r.start < r.limit) (hr' : r'.start < r'.limit) :
    r.Disjoint r' ↔ r'.limit ≤ r.start ∨ r.limit ≤ r'.start := by
  constructor
  · intro h
    by_contra hmeet
    have hin := h (max r.start r'.start) (mem_iff.mpr (by omega))
    exact hin (mem_iff.mpr (by omega))
  · intro h x hx hx'
    obtain ⟨hlow, hhigh⟩ := mem_iff.mp hx
    obtain ⟨hlow', hhigh'⟩ := mem_iff.mp hx'
    omega

/-- A range that is empty meets nothing. -/
theorem disjoint_of_isEmpty (h : r'.isEmpty = true) : r.Disjoint r' := by
  intro x _ hx
  obtain ⟨hlow, hhigh⟩ := mem_iff.mp hx
  have hempty := isEmpty_eq_true.mp h
  omega

/-- What is left after shrinking starts and ends on a page, and was offered. -/
theorem pageAlignInward_spec (hpage : 0 < page) (r : PhysRegion) :
    (r.pageAlignInward page).start % page = 0 ∧ (r.pageAlignInward page).limit % page = 0 ∧
      ∀ x ∈ r.pageAlignInward page, x ∈ r := by
  rw [pageAlignInward]
  have hzero : (0 : ℕ) % page = 0 ∧ (0 : ℕ) % page = 0 ∧ ∀ x ∈ (⟨0, 0⟩ : PhysRegion), x ∈ r :=
    ⟨Nat.zero_mod _, Nat.zero_mod _, fun x hx => absurd (mem_iff.mp hx).2 (Nat.not_lt_zero x)⟩
  split
  · dsimp only
    split
    · exact hzero
    · refine ⟨Nat.mul_mod_left _ _, Nat.mul_mod_left _ _, fun x hx => ?_⟩
      obtain ⟨hlow, hhigh⟩ := mem_iff.mp hx
      dsimp only at hlow hhigh
      have hup := Nat.div_add_mod (r.start + (page - 1)) page
      have hrem := Nat.mod_lt (r.start + (page - 1)) hpage
      have hdown := Nat.div_mul_le_self r.limit page
      rw [Nat.mul_comm] at hup
      exact mem_iff.mpr ⟨by omega, by omega⟩
  · exact hzero

end PhysRegion

/-! ### The scan -/

/-- Whether an exclusion is in the way at or after `cursor`. -/
def blocks (bank : PhysRegion) (cursor : ℕ) (ex : PhysRegion) : Bool :=
  !(ex.isEmpty || decide (ex.limit ≤ cursor) || decide (bank.limit ≤ ex.start))

/-- The part of an exclusion at or after `cursor`. -/
def clip (cursor : ℕ) (ex : PhysRegion) : PhysRegion := ⟨max ex.start cursor, max ex.limit cursor⟩

/-- One round of the search for what blocks soonest. -/
def soonest (bank : PhysRegion) (cursor : ℕ) (blocker : Option PhysRegion) (ex : PhysRegion) :
    Option PhysRegion :=
  if blocks bank cursor ex then
    match blocker with
    | none => some (clip cursor ex)
    | some b => if (clip cursor ex).start < b.start then some (clip cursor ex) else some b
  else blocker

/-- What blocks soonest at or after `cursor`. -/
def blocker (bank : PhysRegion) (exclusions : List PhysRegion) (cursor : ℕ) : Option PhysRegion :=
  exclusions.foldl (soonest bank cursor) none

/-- The gap at `cursor`, and where to resume. -/
def gapAt (bank : PhysRegion) (exclusions : List PhysRegion) (cursor : ℕ) : PhysRegion × ℕ :=
  match blocker bank exclusions cursor with
  | none => (⟨cursor, bank.limit⟩, bank.limit)
  | some b => (⟨cursor, b.start⟩, b.limit)

/-- The better of the best so far and a gap. -/
def better (best : Option PhysRegion) (gap : PhysRegion) : Option PhysRegion :=
  match best with
  | none => if gap.isEmpty then none else some gap
  | some w => if !gap.isEmpty && decide (w.len < gap.len) then some gap else some w

section

variable {bank b ex : PhysRegion} {exclusions : List PhysRegion} {cursor : ℕ}

theorem blocks_eq_true : blocks bank cursor ex = true ↔
    ex.start < ex.limit ∧ cursor < ex.limit ∧ ex.start < bank.limit := by
  rw [blocks, Bool.not_eq_true', Bool.or_eq_false_iff, Bool.or_eq_false_iff,
    PhysRegion.isEmpty_eq_false, decide_eq_false_iff_not, decide_eq_false_iff_not, Nat.not_le,
        Nat.not_le, and_assoc]

/-- The search ends with an exclusion that is in the way, and none is sooner. -/
theorem blocker_spec (bank : PhysRegion) (exclusions : List PhysRegion) (cursor : ℕ) :
    match blocker bank exclusions cursor with
    | none => ∀ ex ∈ exclusions, blocks bank cursor ex = false
    | some b => (∃ ex ∈ exclusions, blocks bank cursor ex = true ∧ b = clip cursor ex) ∧
      ∀ ex ∈ exclusions, blocks bank cursor ex = true → b.start ≤ (clip cursor ex).start := by
  induction exclusions using List.reverseRecOn with
  | nil => exact fun ex hex => absurd hex List.not_mem_nil
  | append_singleton done e ih =>
    have hstep : blocker bank (done ++ [e]) cursor =
        soonest bank cursor (blocker bank done cursor) e := List.foldl_append
    have hself : e ∈ done ++ [e] := List.mem_append_right _ (List.mem_singleton_self e)
    rw [hstep]
    cases hblocks : blocks bank cursor e with
    | false =>
      have hsame : soonest bank cursor (blocker bank done cursor) e = blocker bank done cursor :=
        if_neg (by rw [hblocks]; exact Bool.false_ne_true)
      rw [hsame]
      cases hdone : blocker bank done cursor with
      | none =>
        rw [hdone] at ih
        intro ex hex
        rcases List.mem_append.mp hex with hex | hex
        · exact ih ex hex
        · rw [List.mem_singleton.mp hex]
          exact hblocks
      | some b =>
        rw [hdone] at ih
        obtain ⟨⟨ex, hex, hin, heq⟩, hmin⟩ := ih
        refine ⟨⟨ex, List.mem_append_left _ hex, hin, heq⟩, fun ex' hex' hin' => ?_⟩
        rcases List.mem_append.mp hex' with hex' | hex'
        · exact hmin ex' hex' hin'
        · rw [List.mem_singleton.mp hex', hblocks] at hin'
          cases hin'
    | true =>
      cases hdone : blocker bank done cursor with
      | none =>
        rw [hdone] at ih
        rw [soonest, if_pos hblocks]
        refine ⟨⟨e, hself, hblocks, rfl⟩, fun ex hex hin => ?_⟩
        rcases List.mem_append.mp hex with hex | hex
        · rw [ih ex hex] at hin
          cases hin
        · exact Nat.le_of_eq (by rw [List.mem_singleton.mp hex])
      | some b =>
        rw [hdone] at ih
        obtain ⟨⟨ex, hex, hin, heq⟩, hmin⟩ := ih
        rw [soonest, if_pos hblocks]
        by_cases hsooner : (clip cursor e).start < b.start
        · rw [if_pos hsooner]
          refine ⟨⟨e, hself, hblocks, rfl⟩, fun ex' hex' hin' => ?_⟩
          rcases List.mem_append.mp hex' with hex' | hex'
          · exact Nat.le_trans (Nat.le_of_lt hsooner) (hmin ex' hex' hin')
          · exact Nat.le_of_eq (by rw [List.mem_singleton.mp hex'])
        · rw [if_neg hsooner]
          refine ⟨⟨ex, List.mem_append_left _ hex, hin, heq⟩, fun ex' hex' hin' => ?_⟩
          rcases List.mem_append.mp hex' with hex' | hex'
          · exact hmin ex' hex' hin'
          · rw [List.mem_singleton.mp hex']
            exact Nat.not_lt.mp hsooner

/-- The cursor moves on. -/
theorem cursor_lt_gapAt (exclusions : List PhysRegion) (h : cursor < bank.limit) :
    cursor < (gapAt bank exclusions cursor).2 := by
  have hspec := blocker_spec bank exclusions cursor
  rw [gapAt]
  cases hb : blocker bank exclusions cursor with
  | none => exact h
  | some b =>
    rw [hb] at hspec
    obtain ⟨⟨ex, -, hin, rfl⟩, -⟩ := hspec
    exact Nat.lt_of_lt_of_le (blocks_eq_true.mp hin).2.1 (Nat.le_max_left _ _)

end

/-- The scan from `cursor` on. -/
def scan (bank : PhysRegion) (exclusions : List PhysRegion) (cursor : ℕ)
    (best : Option PhysRegion) : Option PhysRegion :=
  if _h : cursor < bank.limit then
    scan bank exclusions (gapAt bank exclusions cursor).2
      (better best (gapAt bank exclusions cursor).1)
  else best
termination_by bank.limit - cursor
decreasing_by
  have := cursor_lt_gapAt exclusions _h
  omega

/-- The largest contiguous part of `bank` that no region in `exclusions` touches. -/
def largestFree (bank : PhysRegion) (exclusions : List PhysRegion) : Option PhysRegion :=
  (scan bank exclusions bank.start none).filter fun r => !r.isEmpty

/-! ### What it answers -/

/-- A run of the bank that no exclusion touches. -/
structure FreeIn (bank : PhysRegion) (exclusions : List PhysRegion) (g : PhysRegion) : Prop where
  nonempty : g.start < g.limit
  inside : ∀ x ∈ g, x ∈ bank
  apart : ∀ ex ∈ exclusions, g.Disjoint ex

/-- The first of the longest. -/
def Largest (bank : PhysRegion) (exclusions : List PhysRegion) : PhysRegion → Prop :=
  FirstMax (FreeIn bank exclusions) PhysRegion.len PhysRegion.start

section

variable {bank g ex : PhysRegion} {exclusions : List PhysRegion} {cursor : ℕ}
  {best : Option PhysRegion}

theorem FreeIn.bounds (h : FreeIn bank exclusions g) :
    bank.start ≤ g.start ∧ g.limit ≤ bank.limit := by
  have hpos := h.nonempty
  have hlow := PhysRegion.mem_iff.mp
    (h.inside g.start (PhysRegion.mem_iff.mpr ⟨Nat.le_refl _, hpos⟩))
  have hhigh := PhysRegion.mem_iff.mp
    (h.inside (g.limit - 1) (PhysRegion.mem_iff.mpr ⟨by omega, by omega⟩))
  omega

/-- **The gap at the cursor** is free, and nothing else that is free starts before the scan
resumes. -/
theorem gapAt_spec (exclusions : List PhysRegion) (hcursor : cursor < bank.limit)
    (hbank : bank.start ≤ cursor) :
    (gapAt bank exclusions cursor).1.start = cursor ∧
    ((gapAt bank exclusions cursor).1.isEmpty = false →
      FreeIn bank exclusions (gapAt bank exclusions cursor).1) ∧
    ∀ g, FreeIn bank exclusions g → cursor ≤ g.start →
      g.start < (gapAt bank exclusions cursor).2 →
      g.limit ≤ (gapAt bank exclusions cursor).1.limit := by
  have hspec := blocker_spec bank exclusions cursor
  rw [gapAt]
  cases hb : blocker bank exclusions cursor with
  | none =>
    rw [hb] at hspec
    dsimp only at hspec ⊢
    refine ⟨rfl, fun _ => ⟨hcursor, fun x hx => ?_, fun ex hex x hx hin => ?_⟩,
      fun g hg _ _ => hg.bounds.2⟩
    · obtain ⟨hlow, hhigh⟩ := PhysRegion.mem_iff.mp hx
      exact PhysRegion.mem_iff.mpr ⟨Nat.le_trans hbank hlow, hhigh⟩
    · obtain ⟨hlow, hhigh⟩ := PhysRegion.mem_iff.mp hx
      obtain ⟨hlow', hhigh'⟩ := PhysRegion.mem_iff.mp hin
      dsimp only at hlow hhigh
      have hblocks := hspec ex hex
      rw [blocks_eq_true.mpr ⟨by omega, by omega, by omega⟩] at hblocks
      cases hblocks
  | some b =>
    rw [hb] at hspec
    obtain ⟨⟨ex, hex, hin, rfl⟩, hmin⟩ := hspec
    obtain ⟨hne, hpast, hbefore⟩ := blocks_eq_true.mp hin
    have hclip : (clip cursor ex).start = max ex.start cursor ∧
        (clip cursor ex).limit = max ex.limit cursor := ⟨rfl, rfl⟩
    dsimp only
    refine ⟨rfl, fun hgap => ⟨PhysRegion.isEmpty_eq_false.mp hgap, fun x hx => ?_,
      fun ex' hex' x hx hin' => ?_⟩, fun g hg hlow hhigh => ?_⟩
    · obtain ⟨hlow, hhigh⟩ := PhysRegion.mem_iff.mp hx
      dsimp only at hlow hhigh
      exact PhysRegion.mem_iff.mpr ⟨Nat.le_trans hbank hlow, by omega⟩
    · obtain ⟨hlow, hhigh⟩ := PhysRegion.mem_iff.mp hx
      obtain ⟨hlow', hhigh'⟩ := PhysRegion.mem_iff.mp hin'
      dsimp only at hlow hhigh
      -- it would have blocked sooner
      have hle := hmin ex' hex' (blocks_eq_true.mpr ⟨by omega, by omega, by omega⟩)
      have hclip' : (clip cursor ex').start = max ex'.start cursor := rfl
      omega
    · have hpos := hg.nonempty
      have happart := (PhysRegion.disjoint_iff hpos hne).mp (hg.apart ex hex)
      omega

/-- Two free runs of one length that start together are one. -/
theorem FreeIn.inj (g g' : PhysRegion) (hg : FreeIn bank exclusions g)
    (hg' : FreeIn bank exclusions g') (hlen : g.len = g'.len) (hstart : g.start = g'.start) :
      g = g' := by
  have hpos := hg.nonempty
  have hpos' := hg'.nonempty
  rw [PhysRegion.len, PhysRegion.len] at hlen
  obtain ⟨start, limit⟩ := g
  obtain ⟨start', limit'⟩ := g'
  dsimp only at hlen hstart hpos hpos'
  obtain rfl := hstart
  obtain rfl : limit = limit' := by omega
  rfl

theorem better_eq (best : Option PhysRegion) (gap : PhysRegion) :
    better best gap =
      FirstMax.pick PhysRegion.len best (if gap.isEmpty then none else some gap) := by
  cases best with
  | none => rfl
  | some w =>
    rw [better]
    cases gap.isEmpty with
    | true => rfl
    | false =>
      rw [Bool.not_false, Bool.true_and, if_neg Bool.false_ne_true, FirstMax.pick]
      by_cases hlt : w.len < gap.len
      · rw [if_pos hlt, if_pos (decide_eq_true hlt)]
      · rw [if_neg hlt, if_neg (by rw [decide_eq_true_eq]; exact hlt)]

/-- **The scan keeps the best of the runs it has passed.** -/
theorem scan_spec (hbank : bank.start ≤ cursor)
    (hbest : FirstMax.Best (fun g => FreeIn bank exclusions g ∧ g.start < cursor) PhysRegion.len
      PhysRegion.start best) :
    FirstMax.Best (FreeIn bank exclusions) PhysRegion.len PhysRegion.start
      (scan bank exclusions cursor best) := by
  induction cursor, best using scan.induct bank exclusions with
  | case1 cursor best hcursor ih =>
    obtain ⟨hstart, hfree, hlast⟩ := gapAt_spec exclusions hcursor hbank
    have hnext := cursor_lt_gapAt exclusions hcursor
    rw [scan, dif_pos hcursor]
    refine ih (Nat.le_trans hbank (Nat.le_of_lt hnext)) ?_
    rw [better_eq]
    -- of the runs that start in the gap, the gap is the longest
    have hgap : FirstMax.Best (fun g => FreeIn bank exclusions g ∧ cursor ≤ g.start ∧
        g.start < (gapAt bank exclusions cursor).2) PhysRegion.len PhysRegion.start
        (if (gapAt bank exclusions cursor).1.isEmpty then none
          else some (gapAt bank exclusions cursor).1) := by
      split
      · next hempty =>
        rintro g ⟨hg, hlow, hhigh⟩
        have hlimit := hlast g hg hlow hhigh
        have hpos := hg.nonempty
        have hnone := PhysRegion.isEmpty_eq_true.mp hempty
        omega
      · next hne =>
        have hfree := hfree (Bool.eq_false_iff.mpr hne)
        have hpos := hfree.nonempty
        refine ⟨⟨hfree, Nat.le_of_eq hstart.symm, by omega⟩, ?_, ?_⟩
        · rintro g ⟨hg, hlow, hhigh⟩
          have hlimit := hlast g hg hlow hhigh
          rw [PhysRegion.len, PhysRegion.len]
          omega
        · rintro g ⟨-, hlow, -⟩ -
          rw [hstart]
          exact hlow
    refine hbest.pick hgap ?_ ?_
    · rintro g g' ⟨-, hlow⟩ ⟨-, hhigh, -⟩
      exact Nat.le_trans (Nat.le_of_lt hlow) hhigh
    · intro g
      constructor
      · rintro ⟨hg, hlt⟩
        by_cases hlow : g.start < cursor
        · exact .inl ⟨hg, hlow⟩
        · exact .inr ⟨hg, Nat.not_lt.mp hlow, hlt⟩
      · rintro (⟨hg, hlow⟩ | ⟨hg, -, hlt⟩)
        · exact ⟨hg, Nat.lt_trans hlow hnext⟩
        · exact ⟨hg, hlt⟩
  | case2 cursor best hcursor =>
    rw [scan, dif_neg hcursor]
    refine hbest.congr fun g => ⟨fun hg => hg.1, fun hg => ⟨hg, ?_⟩⟩
    have hlimit := hg.bounds.2
    have hpos := hg.nonempty
    omega

theorem best_largestFree (bank : PhysRegion) (exclusions : List PhysRegion) :
    FirstMax.Best (FreeIn bank exclusions) PhysRegion.len PhysRegion.start
      (largestFree bank exclusions) := by
  have hscan : FirstMax.Best (FreeIn bank exclusions) PhysRegion.len PhysRegion.start
      (scan bank exclusions bank.start none) := by
    refine scan_spec (Nat.le_refl _) ?_
    rintro g ⟨hg, hlt⟩
    have hlow := hg.bounds.1
    omega
  rw [largestFree]
  cases hs : scan bank exclusions bank.start none with
  | none =>
    rw [hs] at hscan
    exact hscan
  | some g =>
    rw [hs] at hscan
    have hkeep : (!g.isEmpty) = true := by
      rw [PhysRegion.isEmpty_eq_false.mpr hscan.holds.nonempty]
      rfl
    rw [Option.filter_some, if_pos hkeep]
    exact hscan

/-- **`largest_free` answers the first of the longest free runs.** -/
theorem largestFree_eq_some : largestFree bank exclusions = some g ↔ Largest bank exclusions g :=
  (best_largestFree bank exclusions).eq_some_iff FreeIn.inj

/-- It answers none when there is no free run. -/
theorem largestFree_eq_none :
    largestFree bank exclusions = none ↔ ∀ g, ¬ FreeIn bank exclusions g :=
  (best_largestFree bank exclusions).eq_none_iff

/-- A byte of the bank that no exclusion covers is a free run by itself. -/
theorem FreeIn.of_uncovered {x : ℕ} (hx : x ∈ bank) (h : ∀ ex ∈ exclusions, x ∉ ex) :
    FreeIn bank exclusions ⟨x, x + 1⟩ := by
  have honly : ∀ y ∈ (⟨x, x + 1⟩ : PhysRegion), y = x := by
    intro y hy
    obtain ⟨hlow, hhigh⟩ := PhysRegion.mem_iff.mp hy
    exact Nat.le_antisymm (Nat.le_of_lt_succ hhigh) hlow
  refine ⟨Nat.lt_succ_self x, fun y hy => ?_, fun ex hex y hy hin => ?_⟩
  · rw [honly y hy]
    exact hx
  · rw [honly y hy] at hin
    exact h ex hex hin

/-- **`largest_free` is exact.** Its answer is free, nothing free in the bank is longer, and it has
none only where the exclusions cover the bank. Empty exclusions do not count. -/
theorem largestFree_exact (bank : PhysRegion) (exclusions : List PhysRegion) :
    (∀ g, largestFree bank exclusions = some g →
      (bank.start ≤ g.start ∧ g.start < g.limit ∧ g.limit ≤ bank.limit) ∧
      (∀ ex ∈ exclusions, ex.isEmpty = false → g.Disjoint ex) ∧
      ∀ g' : PhysRegion, (∀ x ∈ g', x ∈ bank) →
        (∀ ex ∈ exclusions, ex.isEmpty = false → g'.Disjoint ex) → g'.len ≤ g.len) ∧
    (largestFree bank exclusions = none ↔
      ∀ x ∈ bank, ∃ ex ∈ exclusions, ex.isEmpty = false ∧ x ∈ ex) := by
  refine ⟨fun g hg => ?_, largestFree_eq_none.trans ⟨fun hnone x hx => ?_, fun hcover g hg => ?_⟩⟩
  · have hlargest := largestFree_eq_some.mp hg
    have hbounds := hlargest.holds.bounds
    refine ⟨⟨hbounds.1, hlargest.holds.nonempty, hbounds.2⟩,
      fun ex hex _ => hlargest.holds.apart ex hex, fun g' hin hapart => ?_⟩
    cases hempty : g'.isEmpty with
    | true =>
      have hle := PhysRegion.isEmpty_eq_true.mp hempty
      rw [PhysRegion.len, Nat.sub_eq_zero_of_le hle]
      exact Nat.zero_le _
    | false =>
      refine hlargest.largest g' ⟨PhysRegion.isEmpty_eq_false.mp hempty, hin, fun ex hex => ?_⟩
      cases hex' : ex.isEmpty with
      | true => exact PhysRegion.disjoint_of_isEmpty hex'
      | false => exact hapart ex hex hex'
  · by_contra hno
    refine hnone _ (FreeIn.of_uncovered hx fun ex hex hin => hno ⟨ex, hex, ?_, hin⟩)
    obtain ⟨hlow, hhigh⟩ := PhysRegion.mem_iff.mp hin
    exact PhysRegion.isEmpty_eq_false.mpr (Nat.lt_of_le_of_lt hlow hhigh)
  · have hstart := PhysRegion.mem_iff.mpr ⟨Nat.le_refl g.start, hg.nonempty⟩
    obtain ⟨ex, hex, -, hin⟩ := hcover g.start (hg.inside _ hstart)
    exact hg.apart ex hex _ hstart hin

end

end StarOS
