import Mathlib.Order.Interval.Set.Nat
import Mathlib.Tactic.Common

/-!
# Patches

A map that is changed a few places at a time is what it was at first with every change laid over
it, the newest on top. A patch is one change: what it leaves at each place it touches.

A history is a list of acts, newest first, of which some are patches. `Since a S` says of a
history that the act `a` is in it, and that nothing after it has touched any place of `S`; there
the map shows what `a` left.

## Main definitions

* `Patch`, `Patch.apply`, `Patch.run`, `Patch.replay`
* `Patch.Since`

## Main results

* `Patch.replay_of_since` — the last act on a place decides what it shows
-/

/-- What a change leaves at each place, and `none` where it leaves what there was. -/
abbrev Patch (ι β : Type*) := ι → Option β

namespace Patch

variable {ι β α : Type*}

/-- The map with a change laid over it. -/
def apply (p : Patch ι β) (m : ι → β) : ι → β := fun i => (p i).getD (m i)

theorem apply_of_none {p : Patch ι β} {i : ι} (h : p i = none) (m : ι → β) :
    p.apply m i = m i := by
  rw [apply, h, Option.getD_none]

theorem apply_of_some {p : Patch ι β} {i : ι} {x : β} (h : p i = some x) (m : ι → β) :
    p.apply m i = x := by
  rw [apply, h, Option.getD_some]

/-! ### Consecutive places -/

/-- The places from `start` on, one for each element of a list. -/
def run (start : ℕ) (xs : List β) : Patch ℕ β := fun i => if start ≤ i then xs[i - start]? else none

theorem run_add (start : ℕ) (xs : List β) (i : ℕ) : run start xs (start + i) = xs[i]? := by
  rw [run, if_pos (Nat.le_add_right _ _), Nat.add_sub_cancel_left]

/-! ### Histories -/

/-- A map at first, with a history of changes laid over it. -/
def replay (of : α → Patch ι β) (m : ι → β) : List α → ι → β
  | [] => m
  | a :: log => (of a).apply (replay of m log)

/-- The act `a` is in the history, and no later one has touched a place of `S`. -/
def Since (of : α → Patch ι β) (a : α) (S : Set ι) : List α → Prop
  | [] => False
  | b :: log => b = a ∨ (∀ i ∈ S, of b i = none) ∧ Since of a S log

theorem mem_of_since {of : α → Patch ι β} {a : α} {S : Set ι} {log : List α}
    (h : Since of a S log) : a ∈ log := by
  induction log with
  | nil => exact h.elim
  | cons b log ih =>
    obtain rfl | ⟨-, h⟩ := h
    · exact List.mem_cons_self ..
    · exact List.mem_cons_of_mem _ (ih h)

/-- **The last act on a place decides what it shows.** -/
theorem replay_of_since {of : α → Patch ι β} {a : α} {S : Set ι} {log : List α}
    (h : Since of a S log) (m : ι → β) {i : ι} (hi : i ∈ S) {x : β} (hx : of a i = some x) :
    replay of m log i = x := by
  induction log with
  | nil => exact h.elim
  | cons b log ih =>
    rw [replay]
    obtain rfl | ⟨hb, h⟩ := h
    · exact apply_of_some hx _
    · exact (apply_of_none (hb i hi) _).trans (ih h)

end Patch
