import Mathlib.Data.Nat.Notation
import Mathlib.Tactic.Common

/-!
# The first of the largest

A search that keeps the best so far, and replaces it only by something strictly better, ends with
the first of the largest. The candidates are whatever satisfies a predicate; `size` is what is
compared, and `pos` the order in which they are met.

## Main definitions

* `FirstMax` — the first of the largest
* `FirstMax.Best` — the best so far, if there is one
* `FirstMax.pick` — one round of the search

## Main results

* `FirstMax.Best.pick` — a round extends the search to the candidates met in it
* `FirstMax.unique`
-/

namespace StarOS

variable {α : Type*} {P Q R : α → Prop} {size pos : α → ℕ} {a b : α}

/-- `a` is the first of the largest that satisfy `P`. -/
structure FirstMax (P : α → Prop) (size pos : α → ℕ) (a : α) : Prop where
  holds : P a
  largest : ∀ b, P b → size b ≤ size a
  first : ∀ b, P b → size b = size a → pos a ≤ pos b

namespace FirstMax

/-- There is one, where nothing of one size is met twice in one place. -/
theorem unique (hinj : ∀ a b, P a → P b → size a = size b → pos a = pos b → a = b)
    (ha : FirstMax P size pos a) (hb : FirstMax P size pos b) : a = b := by
  have hsize : size a = size b := Nat.le_antisymm (hb.largest a ha.holds) (ha.largest b hb.holds)
  have hpos : pos a = pos b :=
    Nat.le_antisymm (ha.first b hb.holds hsize.symm) (hb.first a ha.holds hsize)
  exact hinj a b ha.holds hb.holds hsize hpos

/-- The best so far: none if nothing satisfies `P`. -/
def Best (P : α → Prop) (size pos : α → ℕ) : Option α → Prop
  | none => ∀ a, ¬ P a
  | some a => FirstMax P size pos a

/-- Replace the best so far by something larger. -/
def pick (size : α → ℕ) : Option α → Option α → Option α
  | none, b => b
  | some a, none => some a
  | some a, some b => if size a < size b then some b else some a

namespace Best

variable {o o' : Option α}

/-- **One round**: what is met in it comes after everything met before. -/
theorem pick (ho : Best P size pos o) (ho' : Best Q size pos o')
    (hlater : ∀ a b, P a → Q b → pos a ≤ pos b) (hR : ∀ a, R a ↔ P a ∨ Q a) :
    Best R size pos (FirstMax.pick size o o') := by
  cases o with
  | none =>
    have hQ : ∀ a, R a ↔ Q a := fun a => (hR a).trans (or_iff_right (ho a))
    rw [show R = Q from funext fun a => propext (hQ a)]
    exact ho'
  | some a =>
    cases o' with
    | none =>
      have hP : ∀ a, R a ↔ P a := fun a => (hR a).trans (or_iff_left (ho' a))
      rw [show R = P from funext fun a => propext (hP a)]
      exact ho
    | some b =>
      rw [FirstMax.pick]
      split
      · next hlt =>
        refine ⟨(hR b).mpr (.inr ho'.holds), fun c hc => ?_, fun c hc hsize => ?_⟩
        · rcases (hR c).mp hc with hc | hc
          · exact Nat.le_trans (ho.largest c hc) (Nat.le_of_lt hlt)
          · exact ho'.largest c hc
        · rcases (hR c).mp hc with hc | hc
          · have hle := ho.largest c hc
            omega
          · exact ho'.first c hc hsize
      · next hge =>
        refine ⟨(hR a).mpr (.inl ho.holds), fun c hc => ?_, fun c hc hsize => ?_⟩
        · rcases (hR c).mp hc with hc | hc
          · exact ho.largest c hc
          · exact Nat.le_trans (ho'.largest c hc) (Nat.not_lt.mp hge)
        · rcases (hR c).mp hc with hc | hc
          · exact ho.first c hc hsize
          · exact hlater a c ho.holds hc

theorem congr (h : ∀ a, P a ↔ Q a) (ho : Best P size pos o) : Best Q size pos o := by
  rwa [← show P = Q from funext fun a => propext (h a)]

/-- Where there is one, the search has found it. -/
theorem eq_some_iff (hinj : ∀ a b, P a → P b → size a = size b → pos a = pos b → a = b)
    (ho : Best P size pos o) : o = some a ↔ FirstMax P size pos a := by
  cases o with
  | none =>
    constructor
    · intro h
      cases h
    · intro h
      exact absurd h.holds (ho a)
  | some b =>
    constructor
    · intro h
      obtain rfl := Option.some.inj h
      exact ho
    · intro h
      rw [unique hinj h ho]

/-- It has found nothing exactly if there is nothing. -/
theorem eq_none_iff (ho : Best P size pos o) : o = none ↔ ∀ a, ¬ P a := by
  cases o with
  | none => exact iff_of_true rfl ho
  | some b =>
    refine iff_of_false ?_ fun h => h b ho.holds
    intro h
    cases h

end Best

end FirstMax

end StarOS
