import Mathlib.Order.BourbakiWitt
import Mathlib.Order.CompletePartialOrder
import Mathlib.Order.Interval.Set.Disjoint
import Mathlib.Tactic.Common

/-!
# Cursors kept in copies

Ranges are handed out one after another by moving a cursor up: a new range starts where the cursor
stands, so it is clear of every range that ends there or before.

When there are several copies of the cursor, a new range starts at the highest. What makes that
sound is `Covered`: whatever was handed out, some copy has got past it. Giving a new holder any
copy at all keeps it, and so does every copy moving to the end of the new range; taking a copy
away keeps it only when another is as high.

## Main definitions

* `Cursor.Covered`

## Main results

* `Cursor.Covered.disjoint` — a range handed out at the highest copy is clear of the others
* `Cursor.Covered.advance`, `Cursor.Covered.of_le` — what keeps it
-/

namespace Cursor

variable {α : Type*} [LinearOrder α] {given : List (α × α)} {copies copies' : List α} {top next : α}

/-- A range that starts where the cursor stands is clear of what ended before. -/
theorem disjoint_of_le {a b : α} (h : b ≤ top) : Disjoint (Set.Ico a b) (Set.Ico top next) :=
  Set.Ico_disjoint_Ico.mpr ((min_le_left _ _).trans (h.trans (le_max_right _ _)))

/-- Whatever range was handed out, some copy of the cursor has got past it, if there is any. -/
def Covered (given : List (α × α)) (copies : List α) : Prop :=
  ∀ g ∈ given, copies ≠ [] → ∃ c ∈ copies, g.2 ≤ c

theorem Covered.disjoint (h : Covered given copies) (htop : top ∈ copies)
    (hmax : ∀ c ∈ copies, c ≤ top) {g : α × α} (hg : g ∈ given) :
    Disjoint (Set.Ico g.1 g.2) (Set.Ico top next) := by
  obtain ⟨c, hc, hle⟩ := h g hg (List.ne_nil_of_mem htop)
  exact disjoint_of_le (hle.trans (hmax c hc))

/-- Every copy moves to the end of the range handed out. -/
theorem Covered.advance (h : Covered given copies) (htop : top ∈ copies)
    (hmax : ∀ c ∈ copies, c ≤ top) (hle : top ≤ next) (hnext : ∀ c ∈ copies', c = next) :
    Covered ((top, next) :: given) copies' := by
  intro g hg hne
  obtain ⟨c, hc⟩ := List.exists_mem_of_ne_nil _ hne
  obtain rfl := hnext c hc
  refine ⟨c, hc, ?_⟩
  rcases List.mem_cons.mp hg with rfl | hg
  · exact le_refl _
  · obtain ⟨c', hc', hgc⟩ := h g hg (List.ne_nil_of_mem htop)
    exact (hgc.trans (hmax c' hc')).trans hle

/-- The copies change, and each that was there has one as high in its place. -/
theorem Covered.of_le (h : Covered given copies)
    (hle : copies' ≠ [] → copies ≠ [] ∧ ∀ c ∈ copies, ∃ c' ∈ copies', c ≤ c') :
    Covered given copies' := by
  intro g hg hne
  obtain ⟨hcopies, hle⟩ := hle hne
  obtain ⟨c, hc, hgc⟩ := h g hg hcopies
  obtain ⟨c', hc', hcc'⟩ := hle c hc
  exact ⟨c', hc', hgc.trans hcc'⟩

end Cursor
