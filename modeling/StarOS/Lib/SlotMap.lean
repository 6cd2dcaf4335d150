import Mathlib.Data.List.Basic
import Mathlib.Logic.Function.Basic
import Mathlib.Tactic.Common

/-!
# Tables that stand for maps

A table whose first `count` slots are full, in no order, with distinct keys, stands for a partial map.
An entry is looked for from the start of the table; it is replaced in place, added behind the last,
and removed by moving the last entry into the hole.

## Main definitions

* `SlotMap.find` — the slot of a key
* `SlotMap.Stands` — the table stands for the map

## Main results

* `SlotMap.Stands.lookup` — what is found is what the map has
* `SlotMap.Stands.replace`, `SlotMap.Stands.add`, `SlotMap.Stands.remove`
-/

namespace SlotMap

variable {α κ β : Type*} {key : α → κ} {val : α → β} {slots slots' : ℕ → Option α}
  {count : ℕ} {m : κ → Option β} {i : ℕ} {k : κ} {a b : α}

/-- The table stands for the map. -/
structure Stands (key : α → κ) (val : α → β) (slots : ℕ → Option α) (count : ℕ)
    (m : κ → Option β) : Prop where
  full : ∀ i < count, ∃ a, slots i = some a
  distinct : ∀ i < count, ∀ j < count, ∀ a b, slots i = some a → slots j = some b →
    key a = key b → i = j
  holds : ∀ i < count, ∀ a, slots i = some a → m (key a) = some (val a)
  only : ∀ k, m k ≠ none → ∃ i < count, ∃ a, slots i = some a ∧ key a = k

theorem Stands.clear : Stands key val slots 0 fun _ => none :=
  ⟨fun i hi => absurd hi (Nat.not_lt_zero i), fun i hi => absurd hi (Nat.not_lt_zero i),
    fun i hi => absurd hi (Nat.not_lt_zero i), fun _ h => absurd rfl h⟩

/-- Only the slots in use matter, and what their entries are. -/
theorem Stands.congr (h : Stands key val slots count m) {key' : α → κ} {val' : α → β}
    (hslots : ∀ i < count, slots' i = slots i)
    (hentry : ∀ i < count, ∀ a, slots i = some a → key' a = key a ∧ val' a = val a) :
    Stands key' val' slots' count m := by
  refine ⟨fun i hi => ?_, fun i hi j hj a b ha hb hab => ?_, fun i hi a ha => ?_, fun k hk => ?_⟩
  · rw [hslots i hi]
    exact h.full i hi
  · rw [hslots i hi] at ha
    rw [hslots j hj] at hb
    rw [(hentry i hi a ha).1, (hentry j hj b hb).1] at hab
    exact h.distinct i hi j hj a b ha hb hab
  · rw [hslots i hi] at ha
    rw [(hentry i hi a ha).1, (hentry i hi a ha).2]
    exact h.holds i hi a ha
  · obtain ⟨i, hi, a, ha, rfl⟩ := h.only k hk
    exact ⟨i, hi, a, (hslots i hi).trans ha, (hentry i hi a ha).1⟩

variable [DecidableEq κ]

/-- The first slot that has the key. -/
def find (key : α → κ) (slots : ℕ → Option α) (count : ℕ) (k : κ) : Option ℕ :=
  (List.range count).find? fun i => (slots i).any fun a => key a = k

theorem find_eq_some (h : find key slots count k = some i) :
    i < count ∧ ∃ a, slots i = some a ∧ key a = k := by
  rw [find] at h
  have hmem := List.mem_range.mp (List.mem_of_find?_eq_some h)
  have hp : (slots i).any (fun a => decide (key a = k)) = true := by
    simpa using List.find?_some h
  obtain ⟨a, ha, hk⟩ := (Option.any_eq_true _ _).mp hp
  exact ⟨hmem, a, ha, of_decide_eq_true hk⟩

theorem find_eq_none : find key slots count k = none ↔
    ∀ i < count, ∀ a, slots i = some a → key a ≠ k := by
  rw [find, List.find?_range_eq_none]
  refine forall₂_congr fun i _ => ⟨fun h a ha hk => ?_, fun h => ?_⟩
  · rw [ha, Option.any_some, decide_eq_true hk] at h
    cases h
  · cases hs : slots i with
    | none => rfl
    | some a =>
      rw [Option.any_some, decide_eq_false (h a hs)]
      rfl

namespace Stands

variable (h : Stands key val slots count m)
include h

theorem find_eq_none_iff : find key slots count k = none ↔ m k = none := by
  rw [find_eq_none]
  constructor
  · intro hno
    by_contra hk
    obtain ⟨i, hi, a, ha, heq⟩ := h.only k hk
    exact hno i hi a ha heq
  · rintro hk i hi a ha rfl
    rw [h.holds i hi a ha] at hk
    cases hk

/-- **What is found is what the map has.** -/
theorem lookup (k : κ) :
    ((find key slots count k).bind fun i => (slots i).map val) = m k := by
  cases hfind : find key slots count k with
  | none => exact (h.find_eq_none_iff.mp hfind).symm
  | some i =>
    obtain ⟨hi, a, ha, rfl⟩ := find_eq_some hfind
    rw [Option.bind_some, ha, Option.map_some, h.holds i hi a ha]

/-- **An entry is replaced** by one of the same key. -/
theorem replace (hi : i < count) (ha : slots i = some a) (hkey : key b = key a) :
    Stands key val (Function.update slots i (some b)) count
      (Function.update m (key b) (some (val b))) := by
  have hslot : ∀ j c, Function.update slots i (some b) j = some c →
      j = i ∧ c = b ∨ j ≠ i ∧ slots j = some c := by
    intro j c hc
    obtain rfl | hne := eq_or_ne j i
    · rw [Function.update_self] at hc
      exact .inl ⟨rfl, (Option.some.inj hc).symm⟩
    · rw [Function.update_of_ne hne] at hc
      exact .inr ⟨hne, hc⟩
  refine ⟨fun j hj => ?_, fun j hj l hl c d hc hd hcd => ?_, fun j hj c hc => ?_, fun k hk => ?_⟩
  · obtain rfl | hne := eq_or_ne j i
    · exact ⟨b, Function.update_self ..⟩
    · rw [Function.update_of_ne hne]
      exact h.full j hj
  · obtain ⟨rfl, rfl⟩ | ⟨-, hc'⟩ := hslot j c hc
    · obtain ⟨rfl, rfl⟩ | ⟨-, hd'⟩ := hslot l d hd
      · rfl
      · exact h.distinct j hj l hl a d ha hd' (hkey.symm.trans hcd)
    · obtain ⟨rfl, rfl⟩ | ⟨-, hd'⟩ := hslot l d hd
      · exact h.distinct j hj l hl c a hc' ha (hcd.trans hkey)
      · exact h.distinct j hj l hl c d hc' hd' hcd
  · obtain ⟨rfl, rfl⟩ | ⟨hne, hc⟩ := hslot j c hc
    · exact Function.update_self ..
    · rw [Function.update_of_ne]
      · exact h.holds j hj c hc
      · exact fun heq => hne (h.distinct j hj i hi c a hc ha (heq.trans hkey))
  · obtain rfl | hne := eq_or_ne k (key b)
    · exact ⟨i, hi, b, Function.update_self .., rfl⟩
    · rw [Function.update_of_ne hne] at hk
      obtain ⟨j, hj, c, hc, rfl⟩ := h.only k hk
      refine ⟨j, hj, c, ?_, rfl⟩
      rw [Function.update_of_ne]
      · exact hc
      · rintro rfl
        rw [ha] at hc
        obtain rfl := Option.some.inj hc
        exact hne hkey.symm

/-- **An entry is added** behind the last. -/
theorem add (hnew : find key slots count (key b) = none) :
    Stands key val (Function.update slots count (some b)) (count + 1)
      (Function.update m (key b) (some (val b))) := by
  have hno := find_eq_none.mp hnew
  have hslot : ∀ j < count + 1, ∀ c, Function.update slots count (some b) j = some c →
      j = count ∧ c = b ∨ j < count ∧ slots j = some c := by
    intro j hj c hc
    obtain rfl | hne := eq_or_ne j count
    · rw [Function.update_self] at hc
      exact .inl ⟨rfl, (Option.some.inj hc).symm⟩
    · rw [Function.update_of_ne hne] at hc
      exact .inr ⟨by omega, hc⟩
  refine ⟨fun j hj => ?_, fun j hj l hl c d hc hd hcd => ?_, fun j hj c hc => ?_, fun k hk => ?_⟩
  · obtain rfl | hne := eq_or_ne j count
    · exact ⟨b, Function.update_self ..⟩
    · rw [Function.update_of_ne hne]
      exact h.full j (by omega)
  · obtain ⟨rfl, rfl⟩ | ⟨hj', hc'⟩ := hslot j hj c hc
    · obtain ⟨rfl, rfl⟩ | ⟨hl', hd'⟩ := hslot l hl d hd
      · rfl
      · exact absurd hcd.symm (hno l hl' d hd')
    · obtain ⟨rfl, rfl⟩ | ⟨hl', hd'⟩ := hslot l hl d hd
      · exact absurd hcd (hno j hj' c hc')
      · exact h.distinct j hj' l hl' c d hc' hd' hcd
  · obtain ⟨rfl, rfl⟩ | ⟨hj, hc⟩ := hslot j hj c hc
    · exact Function.update_self ..
    · rw [Function.update_of_ne (hno j hj c hc)]
      exact h.holds j hj c hc
  · obtain rfl | hne := eq_or_ne k (key b)
    · exact ⟨count, Nat.lt_succ_self count, b, Function.update_self .., rfl⟩
    · rw [Function.update_of_ne hne] at hk
      obtain ⟨j, hj, c, hc, rfl⟩ := h.only k hk
      exact ⟨j, Nat.lt_succ_of_lt hj, c, by rw [Function.update_of_ne (Nat.ne_of_lt hj), hc], rfl⟩

/-- **An entry is removed**, and the last one moves into the hole. -/
theorem remove (hi : i < count) (ha : slots i = some a) :
    Stands key val (Function.update slots i (slots (count - 1))) (count - 1)
      (Function.update m (key a) none) := by
  -- where an entry of the new table stood in the old one
  have hslot : ∀ j < count - 1, ∀ c, Function.update slots i (slots (count - 1)) j = some c →
      ∃ l < count, slots l = some c ∧ l ≠ i ∧ l = if j = i then count - 1 else j := by
    intro j hj c hc
    obtain rfl | hne := eq_or_ne j i
    · rw [Function.update_self] at hc
      exact ⟨count - 1, by omega, hc, by omega, (if_pos rfl).symm⟩
    · rw [Function.update_of_ne hne] at hc
      exact ⟨j, by omega, hc, hne, (if_neg hne).symm⟩
  refine ⟨fun j hj => ?_, fun j hj l hl c d hc hd hcd => ?_, fun j hj c hc => ?_, fun k hk => ?_⟩
  · obtain rfl | hne := eq_or_ne j i
    · rw [Function.update_self]
      exact h.full _ (by omega)
    · rw [Function.update_of_ne hne]
      exact h.full j (by omega)
  · obtain ⟨j', hj', hc, -, hj''⟩ := hslot j hj c hc
    obtain ⟨l', hl', hd, -, hl''⟩ := hslot l hl d hd
    have hsame := h.distinct j' hj' l' hl' c d hc hd hcd
    rw [hj'', hl''] at hsame
    split_ifs at hsame <;> omega
  · obtain ⟨j', hj', hc, hne, -⟩ := hslot j hj c hc
    rw [Function.update_of_ne]
    · exact h.holds j' hj' c hc
    · exact fun heq => hne (h.distinct j' hj' i hi c a hc ha heq)
  · obtain rfl | hne := eq_or_ne k (key a)
    · rw [Function.update_self] at hk
      exact absurd rfl hk
    · rw [Function.update_of_ne hne] at hk
      obtain ⟨j, hj, c, hc, rfl⟩ := h.only k hk
      have hji : j ≠ i := by
        rintro rfl
        rw [ha] at hc
        obtain rfl := Option.some.inj hc
        exact hne rfl
      obtain hlast | hbefore := Nat.eq_or_lt_of_le (Nat.le_sub_one_of_lt hj)
      · refine ⟨i, by omega, c, ?_, rfl⟩
        rw [Function.update_self, ← hlast, hc]
      · exact ⟨j, hbefore, c, by rw [Function.update_of_ne hji, hc], rfl⟩

end Stands

end SlotMap
