import Mathlib.Data.List.Nodup
import Mathlib.Data.List.Perm.Subperm
import Mathlib.Tactic.Common

/-!
# Keeping the first of each kind

A filter over a stream that keeps the first element of each class and drops the later ones, and
keeps everything that is in no class. The classes already met are remembered in a list of bounded
length: once it is full, new classes are not remembered.

## Main definitions

* `Firsts.run`

## Main results

* `Firsts.covers` — every class is met among what is kept
* `Firsts.nodup` — if the list does not get full, once only
-/

namespace Firsts

variable {α γ : Type*} [DecidableEq γ] {tag : α → Option γ} {cap : ℕ} {seen : List γ} {as : List α}
  {a : α} {c : γ}

/-- Remember a class if there is room. -/
def remember (cap : ℕ) (seen : List γ) (c : γ) : List γ :=
  if seen.length < cap then seen ++ [c] else seen

/-- What is kept of a stream. -/
def run (tag : α → Option γ) (cap : ℕ) : List γ → List α → List α
  | _, [] => []
  | seen, a :: as =>
    match tag a with
    | none => a :: run tag cap seen as
    | some c => if c ∈ seen then run tag cap seen as else a :: run tag cap (remember cap seen c) as

theorem run_cons_none (h : tag a = none) :
    run tag cap seen (a :: as) = a :: run tag cap seen as := by
  rw [run, h]

theorem run_cons_mem (h : tag a = some c) (hc : c ∈ seen) :
    run tag cap seen (a :: as) = run tag cap seen as := by
  rw [run, h]
  exact if_pos hc

theorem run_cons_new (h : tag a = some c) (hc : c ∉ seen) :
    run tag cap seen (a :: as) = a :: run tag cap (remember cap seen c) as := by
  rw [run, h]
  exact if_neg hc

theorem run_sublist (tag : α → Option γ) (cap : ℕ) (seen : List γ) (as : List α) :
    (run tag cap seen as).Sublist as := by
  induction as generalizing seen with
  | nil => exact .refl _
  | cons a as ih =>
    cases h : tag a with
    | none =>
      rw [run_cons_none h]
      exact (ih seen).cons_cons a
    | some c =>
      by_cases hc : c ∈ seen
      · rw [run_cons_mem h hc]
        exact (ih seen).cons a
      · rw [run_cons_new h hc]
        exact (ih _).cons_cons a

/-- What is in no class is all kept. -/
theorem filter_run (p : α → Bool) (hp : ∀ a, p a = true → tag a = none) :
    (run tag cap seen as).filter p = as.filter p := by
  induction as generalizing seen with
  | nil => rfl
  | cons a as ih =>
    cases h : tag a with
    | none => rw [run_cons_none h, List.filter_cons, List.filter_cons, ih]
    | some c =>
      have hno : p a ≠ true := by
        intro hpa
        rw [hp a hpa] at h
        cases h
      by_cases hc : c ∈ seen
      · rw [run_cons_mem h hc, List.filter_cons_of_neg hno, ih]
      · rw [run_cons_new h hc, List.filter_cons_of_neg hno, List.filter_cons_of_neg hno, ih]

/-- **Every class is met among what is kept**, if it was not remembered before. -/
theorem covers (cap : ℕ) (seen : List γ) (ha : a ∈ as) (h : tag a = some c) :
    c ∈ seen ∨ ∃ b ∈ run tag cap seen as, tag b = some c := by
  induction as generalizing seen with
  | nil => cases ha
  | cons b as ih =>
    cases hb : tag b with
    | none =>
      rw [run_cons_none hb]
      obtain rfl | ha := List.mem_cons.mp ha
      · rw [h] at hb
        cases hb
      · exact (ih seen ha).imp_right fun ⟨d, hd, hc⟩ => ⟨d, List.mem_cons_of_mem _ hd, hc⟩
    | some c' =>
      by_cases hc' : c' ∈ seen
      · rw [run_cons_mem hb hc']
        obtain rfl | ha := List.mem_cons.mp ha
        · rw [h] at hb
          exact .inl (Option.some.inj hb ▸ hc')
        · exact ih seen ha
      · rw [run_cons_new hb hc']
        obtain rfl | ha := List.mem_cons.mp ha
        · exact .inr ⟨a, List.mem_cons_self, h⟩
        obtain hmem | ⟨d, hd, hc⟩ := ih (remember cap seen c') ha
        · obtain hmem | rfl : c ∈ seen ∨ c = c' := by
            rw [remember] at hmem
            split at hmem
            · simpa using hmem
            · exact .inl hmem
          · exact .inl hmem
          · exact .inr ⟨b, List.mem_cons_self, hb⟩
        · exact .inr ⟨d, List.mem_cons_of_mem _ hd, hc⟩

/-- **What is kept is of distinct classes** if there are no more classes than can be remembered. -/
theorem nodup (cs : List γ) (hcap : cs.length ≤ cap)
    (hcs : ∀ a ∈ as, ∀ c, tag a = some c → c ∈ cs) (hseen : seen.Nodup) (hsub : seen ⊆ cs) :
    ((run tag cap seen as).filterMap tag).Nodup ∧
      ∀ c ∈ (run tag cap seen as).filterMap tag, c ∉ seen := by
  induction as generalizing seen with
  | nil => exact ⟨List.nodup_nil, fun c hc => absurd hc List.not_mem_nil⟩
  | cons a as ih =>
    have hcs' : ∀ a ∈ as, ∀ c, tag a = some c → c ∈ cs :=
      fun b hb => hcs b (List.mem_cons_of_mem _ hb)
    cases h : tag a with
    | none =>
      rw [run_cons_none h, List.filterMap_cons_none h]
      exact ih hcs' hseen hsub
    | some c =>
      have hc := hcs a List.mem_cons_self c h
      by_cases hmem : c ∈ seen
      · rw [run_cons_mem h hmem]
        exact ih hcs' hseen hsub
      · -- the class is new, so there is room to remember it
        have hall : (seen ++ [c]).Nodup :=
          List.nodup_append.mpr ⟨hseen, List.nodup_singleton c, by
            rintro d hd e he rfl
            exact hmem (List.mem_singleton.mp he ▸ hd)⟩
        have hsub' : seen ++ [c] ⊆ cs :=
          List.append_subset.mpr ⟨hsub, by simpa using hc⟩
        have hlen := (List.subperm_of_subset hall hsub').length_le
        rw [List.length_append, List.length_singleton] at hlen
        have hroom : remember cap seen c = seen ++ [c] := if_pos (by omega)
        obtain ⟨hnodup, hnew⟩ := ih hcs' hall hsub'
        rw [run_cons_new h hmem, List.filterMap_cons_some h, hroom]
        refine ⟨List.nodup_cons.mpr ⟨fun hdup => hnew c hdup (by simp), hnodup⟩, fun d hd => ?_⟩
        obtain rfl | hd := List.mem_cons.mp hd
        · exact hmem
        · exact fun hds => hnew d hd (List.mem_append_left _ hds)

end Firsts
