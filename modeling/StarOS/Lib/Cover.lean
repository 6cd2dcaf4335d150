import Mathlib.Data.Finset.Card

/-!
# Counting those who will come

There are at least as many things of one kind as a number says. Which ones they are changes all the
time; the number is covered as long as each step that raises it brings one more, and none is lost
without lowering it.

## Main definitions

* `Covers` — as many different things satisfy a predicate

## Main results

* `Covers.add`, `Covers.lose`, `Covers.swap` — what steps do to it
* `Covers.eq_zero` — nobody covers nothing else
-/

variable {α : Type*} {P Q : α → Prop} {k n : ℕ} {a b : α}

/-- At least `k` different things satisfy `P`. -/
def Covers (P : α → Prop) (k : ℕ) : Prop := ∃ s : Finset α, (∀ a ∈ s, P a) ∧ k ≤ s.card

namespace Covers

theorem zero : Covers P 0 := ⟨∅, by simp, Nat.zero_le _⟩

theorem mono (h : Covers P k) (hPQ : ∀ a, P a → Q a) : Covers Q k :=
  let ⟨s, hs, hk⟩ := h
  ⟨s, fun a ha => hPQ a (hs a ha), hk⟩

theorem of_le (h : Covers P k) (hn : n ≤ k) : Covers P n :=
  let ⟨s, hs, hk⟩ := h
  ⟨s, hs, hn.trans hk⟩

/-- Nobody covers nothing else. -/
theorem eq_zero (h : Covers P k) (hP : ∀ a, ¬ P a) : k = 0 := by
  obtain ⟨s, hs, hk⟩ := h
  obtain rfl : s = ∅ := Finset.eq_empty_of_forall_notMem fun a ha => hP a (hs a ha)
  simpa using hk

section Steps

variable [DecidableEq α]

/-- One more comes. -/
theorem add (h : Covers P k) (ha : ¬ P a) (hQ : Q a) (hPQ : ∀ b, P b → Q b) : Covers Q (k + 1) := by
  obtain ⟨s, hs, hk⟩ := h
  refine ⟨insert a s, fun b hb => ?_, ?_⟩
  · obtain rfl | hb := Finset.mem_insert.mp hb
    · exact hQ
    · exact hPQ b (hs b hb)
  · rw [Finset.card_insert_of_notMem fun hmem => ha (hs a hmem)]
    omega

/-- One is lost. -/
theorem lose (h : Covers P k) (hPQ : ∀ b, b ≠ a → P b → Q b) : Covers Q (k - 1) := by
  obtain ⟨s, hs, hk⟩ := h
  refine ⟨s.erase a, fun b hb => ?_, ?_⟩
  · obtain ⟨hba, hb⟩ := Finset.mem_erase.mp hb
    exact hPQ b hba (hs b hb)
  · have := Finset.pred_card_le_card_erase (s := s) (a := a)
    omega

/-- One is lost, and another comes in its place. -/
theorem swap (h : Covers P k) (hb : ¬ P b) (hQ : Q b) (hPQ : ∀ c, c ≠ a → P c → Q c) :
    Covers Q k := by
  obtain _ | k := k
  · exact zero
  · have hlost : Covers (fun c => P c ∧ c ≠ a) k := h.lose (a := a) fun c hc hP => ⟨hP, hc⟩
    exact hlost.add (fun hP => hb hP.1) hQ fun c hc => hPQ c hc.2 hc.1

end Steps

end Covers
