import Mathlib.Data.List.Nodup
import Mathlib.Tactic.Common

/-!
# Lists of holders

Each member of a list holds some things, and what the list holds is all of them together. A member
may be replaced by another or leave; what it held is then exchanged for what the other holds. The
order in which things are held says nothing, so everything here is up to permutation.

## Main definitions

* `Holders.put` — a member is replaced, or leaves

## Main results

* `Holders.put_perm` — what that does to the things that are held
* `Holders.nodup_put` — things held once are held once
-/

namespace Holders

variable {α β : Type*} {l : List α} {a b c : α} {i : ℕ} {g : α → List β} {x : β}

/-- A member is replaced by another. -/
theorem set_perm (ha : l[i]? = some a) (g : α → List β) (b : α) :
    (g a ++ (l.set i b).flatMap g).Perm (g b ++ l.flatMap g) := by
  induction l generalizing i with
  | nil => cases ha
  | cons c l ih =>
    cases i with
    | zero =>
      obtain rfl := Option.some.inj ha
      rw [List.set_cons_zero, List.flatMap_cons, List.flatMap_cons, ← List.append_assoc,
        ← List.append_assoc]
      exact List.perm_append_comm.append_right _
    | succ i =>
      rw [List.set_cons_succ, List.flatMap_cons, List.flatMap_cons]
      exact (List.perm_append_comm_assoc _ _ _).trans
        (((ih ha).append_left (g c)).trans (List.perm_append_comm_assoc _ _ _))

/-- A member leaves. -/
theorem eraseIdx_perm (ha : l[i]? = some a) (g : α → List β) :
    (g a ++ (l.eraseIdx i).flatMap g).Perm (l.flatMap g) := by
  induction l generalizing i with
  | nil => cases ha
  | cons c l ih =>
    cases i with
    | zero =>
      obtain rfl := Option.some.inj ha
      exact .refl _
    | succ i =>
      rw [List.eraseIdx_cons_succ, List.flatMap_cons, List.flatMap_cons]
      exact (List.perm_append_comm_assoc _ _ _).trans ((ih ha).append_left (g c))

/-- The member at `i` is replaced by another, or leaves. -/
def put (l : List α) (i : ℕ) : Option α → List α
  | some b => l.set i b
  | none => l.eraseIdx i

/-- **What a member held is exchanged for what the other holds.** -/
theorem put_perm (ha : l[i]? = some a) (g : α → List β) (b : Option α) :
    (g a ++ (put l i b).flatMap g).Perm (b.elim [] g ++ l.flatMap g) := by
  cases b with
  | some b => exact set_perm ha g b
  | none => exact eraseIdx_perm ha g

theorem mem_put {b : Option α} (hc : c ∈ put l i b) : c ∈ l ∨ b = some c := by
  cases b with
  | some b =>
    rcases List.mem_or_eq_of_mem_set hc with hc | rfl
    · exact .inl hc
    · exact .inr rfl
  | none => exact .inl (List.mem_of_mem_eraseIdx hc)

/-- **Things held once are held once** after an exchange that brings nothing new. -/
theorem nodup_put (ha : l[i]? = some a) (hnodup : (l.flatMap g).Nodup) {b : Option α}
    (hb : (b.elim [] g).Sublist (g a)) :
    ((put l i b).flatMap g).Nodup ∧
      ∀ x ∈ g a, x ∉ b.elim [] g → x ∉ (put l i b).flatMap g := by
  obtain ⟨rest, hrest⟩ : ∃ rest, (l.flatMap g).Perm (g a ++ rest) :=
    ⟨_, (eraseIdx_perm ha g).symm⟩
  have hall := hrest.nodup_iff.mp hnodup
  have hput : ((put l i b).flatMap g).Perm (b.elim [] g ++ rest) := by
    refine (List.perm_append_left_iff (g a)).mp ((put_perm ha g b).trans ?_)
    exact (hrest.append_left _).trans (List.perm_append_comm_assoc _ _ _)
  refine ⟨hput.nodup_iff.mpr (hall.sublist (hb.append_right rest)), fun x hx hnot hin => ?_⟩
  rcases List.mem_append.mp (hput.mem_iff.mp hin) with hin | hin
  · exact hnot hin
  · exact (List.nodup_append.mp hall).2.2 x hx x hin rfl

end Holders
