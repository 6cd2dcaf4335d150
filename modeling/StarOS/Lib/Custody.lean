import Mathlib.Data.Multiset.ZeroCons
import Mathlib.Order.BooleanAlgebra.Set
import Mathlib.Tactic.Common

/-!
# Custody: tokens that are always in exactly one place

Things that must be neither lost nor doubled — a message on its way, a waiter standing in a queue,
a frame of memory — are *tokens*, and the data structures that can hold one are *places*. A ledger
says which tokens each place holds, and it is exact for a set of tokens when every one of them is
in one place, once, and no place holds anything else.

A step of a system moves tokens one at a time. The three rules below say what each elementary
move does to exactness, so a proof that a step loses nothing only has to name the moves it makes.

## Main results

* `Ledger.Exact.mint`, `Ledger.Exact.burn`, `Ledger.Exact.move`
* `Ledger.Exact.place_unique` — a token is held in one place
-/

/-- Which tokens each place holds. -/
abbrev Ledger (π τ : Type*) := π → Multiset τ

namespace Ledger

variable {π τ : Type*} {h h' : Ledger π τ} {S : Set τ} {x : τ} {p q : π}

/-- Every token of `S` is in exactly one place, once, and no place holds anything else. -/
structure Exact (h : Ledger π τ) (S : Set τ) : Prop where
  /-- No place holds a token twice. -/
  nodup : ∀ p, (h p).Nodup
  /-- No two places hold the same token. -/
  unique : ∀ p q x, x ∈ h p → x ∈ h q → p = q
  /-- The tokens held are those of `S`. -/
  total : ∀ x, x ∈ S ↔ ∃ p, x ∈ h p

/-- The ledger in which nothing is held. -/
theorem exact_empty (hh : ∀ p, h p = 0) : Exact h ∅ where
  nodup p := by simp [hh]
  unique p q x hx := by simp [hh] at hx
  total x := by simp [hh]

namespace Exact

theorem mem (e : Exact h S) (hx : x ∈ h p) : x ∈ S := (e.total x).mpr ⟨p, hx⟩

theorem place_unique (e : Exact h S) (hp : x ∈ h p) (hq : x ∈ h q) : p = q := e.unique p q x hp hq

theorem not_mem_of_ne (e : Exact h S) (hp : x ∈ h p) (hpq : q ≠ p) : x ∉ h q :=
  fun hq => hpq (e.place_unique hq hp)

/-- A token is held once or not at all. -/
theorem not_mem_of_cons (e : Exact h S) {m : Multiset τ} (hm : h p = x ::ₘ m) : x ∉ m := by
  have := e.nodup p
  rw [hm] at this
  exact (Multiset.nodup_cons.mp this).1

theorem congr (e : Exact h S) (hh : ∀ p, h' p = h p) : Exact h' S := by
  rwa [show h' = h from funext hh]

/-- **A new token enters at one place.** -/
theorem mint (e : Exact h S) (hx : x ∉ S) (hp : h' p = x ::ₘ h p)
    (hne : ∀ q, q ≠ p → h' q = h q) : Exact h' (insert x S) where
  nodup q := by
    rcases eq_or_ne q p with rfl | hq
    · rw [hp]
      exact Multiset.nodup_cons.mpr ⟨fun hm => hx (e.mem hm), e.nodup q⟩
    · rw [hne q hq]
      exact e.nodup q
  unique a b y ha hb := by
    have key : ∀ c, y ∈ h' c → y = x ∧ c = p ∨ y ∈ h c := by
      intro c hc
      rcases eq_or_ne c p with rfl | hcp
      · rw [hp, Multiset.mem_cons] at hc
        exact hc.imp (fun hy => ⟨hy, rfl⟩) id
      · rw [hne c hcp] at hc
        exact .inr hc
    rcases key a ha with ⟨rfl, rfl⟩ | ha' <;> rcases key b hb with ⟨hy, rfl⟩ | hb'
    · rfl
    · exact absurd (e.mem hb') hx
    · exact absurd (e.mem ha') (hy ▸ hx)
    · exact e.place_unique ha' hb'
  total y := by
    rw [Set.mem_insert_iff, e.total y]
    constructor
    · rintro (rfl | ⟨q, hq⟩)
      · exact ⟨p, by rw [hp]; exact Multiset.mem_cons_self _ _⟩
      · rcases eq_or_ne q p with rfl | hqp
        · exact ⟨q, by rw [hp]; exact Multiset.mem_cons_of_mem hq⟩
        · exact ⟨q, by rwa [hne q hqp]⟩
    · rintro ⟨q, hq⟩
      rcases eq_or_ne q p with rfl | hqp
      · rw [hp, Multiset.mem_cons] at hq
        exact hq.imp id fun hm => ⟨q, hm⟩
      · exact .inr ⟨q, by rwa [hne q hqp] at hq⟩

/-- **A token leaves the ledger.** -/
theorem burn (e : Exact h S) (hp : h p = x ::ₘ h' p) (hne : ∀ q, q ≠ p → h' q = h q) :
    Exact h' (S \ {x}) := by
  have hsub : ∀ q y, y ∈ h' q → y ∈ h q ∧ y ≠ x := by
    intro q y hy
    rcases eq_or_ne q p with rfl | hqp
    · refine ⟨by rw [hp]; exact Multiset.mem_cons_of_mem hy, ?_⟩
      rintro rfl
      exact e.not_mem_of_cons hp hy
    · rw [hne q hqp] at hy
      refine ⟨hy, ?_⟩
      rintro rfl
      exact e.not_mem_of_ne (p := p) (by rw [hp]; exact Multiset.mem_cons_self _ _) hqp hy
  constructor
  · intro q
    rcases eq_or_ne q p with rfl | hqp
    · have := e.nodup q
      rw [hp] at this
      exact (Multiset.nodup_cons.mp this).2
    · rw [hne q hqp]
      exact e.nodup q
  · intro a b y ha hb
    exact e.place_unique (hsub a y ha).1 (hsub b y hb).1
  · intro y
    rw [Set.mem_sdiff, Set.mem_singleton_iff, e.total y]
    constructor
    · rintro ⟨⟨q, hq⟩, hy⟩
      rcases eq_or_ne q p with rfl | hqp
      · rw [hp, Multiset.mem_cons] at hq
        exact ⟨q, hq.resolve_left hy⟩
      · exact ⟨q, by rwa [hne q hqp]⟩
    · rintro ⟨q, hq⟩
      exact ⟨⟨q, (hsub q y hq).1⟩, (hsub q y hq).2⟩

/-- **A token moves** from `p` to `q`. -/
theorem move (e : Exact h S) (hpq : p ≠ q) (hp : h p = x ::ₘ h' p) (hq : h' q = x ::ₘ h q)
    (hne : ∀ r, r ≠ p → r ≠ q → h' r = h r) : Exact h' S := by
  classical
  -- the ledger with the token in the mover's hands
  have hburn : Exact (Function.update h p (h' p)) (S \ {x}) := by
    refine e.burn (p := p) (by simpa using hp) fun r hr => ?_
    exact Function.update_of_ne hr _ _
  have hx : x ∈ S := e.mem (p := p) (by rw [hp]; exact Multiset.mem_cons_self _ _)
  have hmint : Exact h' (insert x (S \ {x})) := by
    refine hburn.mint (p := q) (fun hm => hm.2 rfl) ?_ fun r hr => ?_
    · rw [hq, Function.update_of_ne hpq.symm]
    · rcases eq_or_ne r p with rfl | hrp
      · rw [Function.update_self]
      · rw [Function.update_of_ne hrp, hne r hrp hr]
  rwa [Set.insert_sdiff_singleton, Set.insert_eq_of_mem hx] at hmint

end Exact

end Ledger
