import Mathlib.Data.List.Basic
import Mathlib.Data.Prod.Lex
import Mathlib.Tactic.Common

/-!
# Searches that prefer

A search that answers the least of what it may answer, in some order, and searches built from it:
one that takes what is preferred and falls back on the rest, and one that goes through bands in
order. Each is again the search for the least, in the lexicographic order.

## Main definitions

* `Least` — what a search for the least answers

## Main results

* `Least.eq_some_iff` — it answers one thing only
* `Least.find?`, `Least.or`, `Least.findSome?`
-/

variable {α β κ : Type*}

/-- What a search for the least answers: nothing where there is nothing to find. -/
def Least [LE κ] (P : α → Prop) (key : α → κ) : Option α → Prop
  | none => ∀ a, ¬ P a
  | some a => P a ∧ ∀ b, P b → key a ≤ key b

namespace Least

variable {P Q : α → Prop} {key : α → κ} {o o' : Option α} {a : α}

theorem congr [LE κ] (h : ∀ a, P a ↔ Q a) (ho : Least P key o) : Least Q key o := by
  cases o with
  | none => exact fun a hq => ho a ((h a).mpr hq)
  | some a => exact ⟨(h a).mp ho.1, fun b hb => ho.2 b ((h b).mpr hb)⟩

theorem congr_key [LE κ] {key' : α → κ} (h : ∀ a, P a → key a = key' a) (ho : Least P key o) :
    Least P key' o := by
  cases o with
  | none => exact ho
  | some a =>
    refine ⟨ho.1, fun b hb => ?_⟩
    rw [← h a ho.1, ← h b hb]
    exact ho.2 b hb

/-- Where no two candidates have one key, the search answers one thing only. -/
theorem eq_some_iff [PartialOrder κ] (hinj : ∀ a b, P a → P b → key a = key b → a = b)
    (ho : Least P key o) : o = some a ↔ P a ∧ ∀ b, P b → key a ≤ key b := by
  constructor
  · rintro rfl
    exact ho
  · rintro ⟨ha, hleast⟩
    cases o with
    | none => exact (ho a ha).elim
    | some b => rw [hinj b a ho.1 ha (le_antisymm (ho.2 a ha) (hleast b ho.1))]

/-- A scan of a list finds what stands first. -/
theorem find? [Preorder κ] {l : List α} {p : α → Bool} (hl : l.Pairwise fun a b => key a < key b) :
    Least (fun a => a ∈ l ∧ p a = true) key (l.find? p) := by
  induction l with
  | nil => exact fun a ha => List.not_mem_nil ha.1
  | cons x l ih =>
    obtain ⟨hx, hl⟩ := List.pairwise_cons.mp hl
    cases hp : p x with
    | true =>
      rw [List.find?_cons_of_pos hp]
      refine ⟨⟨List.mem_cons_self, hp⟩, fun b hb => ?_⟩
      obtain rfl | hmem := List.mem_cons.mp hb.1
      · exact le_refl _
      · exact le_of_lt (hx b hmem)
    | false =>
      have hne : ¬ p x = true := by
        rw [hp]
        exact Bool.false_ne_true
      rw [List.find?_cons_of_neg hne]
      refine (ih hl).congr fun a => ⟨fun h => ⟨List.mem_cons_of_mem _ h.1, h.2⟩, fun h => ?_⟩
      obtain rfl | hmem := List.mem_cons.mp h.1
      · exact (hne h.2).elim
      · exact ⟨hmem, h.2⟩

/-- **What is preferred comes first**, and the rest only where nothing is. -/
theorem or [PartialOrder κ] {s : α → Bool} (ho : Least (fun a => P a ∧ s a = true) key o)
    (ho' : Least P key o') :
    Least P (fun a => toLex (if s a then 0 else 1, key a) : α → ℕ ×ₗ κ) (o.or o') := by
  cases o with
  | some a =>
    rw [Option.some_or]
    obtain ⟨⟨ha, hs⟩, hleast⟩ := ho
    refine ⟨ha, fun b hb => ?_⟩
    rw [Prod.Lex.toLex_le_toLex, if_pos hs]
    cases hsb : s b with
    | true => exact .inr ⟨rfl, hleast b ⟨hb, hsb⟩⟩
    | false => exact .inl Nat.zero_lt_one
  | none =>
    rw [Option.none_or]
    have hno : ∀ b, P b → s b = false := fun b hb => by
      rw [← Bool.not_eq_true]
      exact fun hs => ho b ⟨hb, hs⟩
    cases o' with
    | none => exact ho'
    | some a =>
      refine ⟨ho'.1, fun b hb => ?_⟩
      rw [Prod.Lex.toLex_le_toLex, hno a ho'.1, hno b hb]
      exact .inr ⟨rfl, ho'.2 b hb⟩

/-- **Bands are gone through in order**, and each is searched for its least. -/
theorem findSome? [DecidableEq β] [PartialOrder κ] {bands : List β} {band : α → β}
    {scan : β → Option α} (h : ∀ b ∈ bands, Least (fun a => P a ∧ band a = b) key (scan b))
    (hall : ∀ a, P a → band a ∈ bands) :
    Least P (fun a => toLex (bands.idxOf (band a), key a) : α → ℕ ×ₗ κ)
      (bands.findSome? scan) := by
  induction bands with
  | nil => exact fun a ha => List.not_mem_nil (hall a ha)
  | cons b bands ih =>
    have hb := h b List.mem_cons_self
    rw [List.findSome?_cons]
    cases hscan : scan b with
    | some a =>
      rw [hscan] at hb
      obtain ⟨⟨ha, rfl⟩, hleast⟩ := hb
      refine ⟨ha, fun c hc => ?_⟩
      rw [Prod.Lex.toLex_le_toLex, List.idxOf_cons_self]
      by_cases hband : band c = band a
      · rw [hband, List.idxOf_cons_self]
        exact .inr ⟨rfl, hleast c ⟨hc, hband⟩⟩
      · rw [List.idxOf_cons_ne _ (Ne.symm hband)]
        exact .inl (Nat.succ_pos _)
    | none =>
      rw [hscan] at hb
      have hne : ∀ c, P c → band c ≠ b := fun c hc hband => hb c ⟨hc, hband⟩
      have hrest := ih (fun b hmem => h b (List.mem_cons_of_mem _ hmem)) fun c hc =>
        (List.mem_cons.mp (hall c hc)).resolve_left (hne c hc)
      dsimp only
      cases hfound : bands.findSome? scan with
      | none =>
        rw [hfound] at hrest
        exact hrest
      | some a =>
        rw [hfound] at hrest
        refine ⟨hrest.1, fun c hc => ?_⟩
        have hle := hrest.2 c hc
        rw [Prod.Lex.toLex_le_toLex] at hle ⊢
        rw [List.idxOf_cons_ne _ (hne a hrest.1).symm, List.idxOf_cons_ne _ (hne c hc).symm]
        exact hle.imp Nat.succ_lt_succ fun h => ⟨congrArg Nat.succ h.1, h.2⟩

end Least
