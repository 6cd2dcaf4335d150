import Mathlib.Algebra.Group.Nat.Defs
import Mathlib.Data.Fin.Basic
import Mathlib.Data.Nat.ModEq
import Mathlib.Logic.Function.Basic
import Mathlib.Tactic.Common

/-!
# Rings with free-running counters

A ring of `cap` entries whose head and tail are machine words that are only ever counted up. The
entry of a count is its remainder, and since the capacity divides the number of words nothing
happens when a counter wraps.

## Main definitions

* `WrapRing.place` — the entry of a count
* `WrapRing.store`, `WrapRing.load` — a list written to and read from successive entries
* `WrapRing.Holds` — the entries from a count on are a list

## Main results

* `WrapRing.load_store` — what was written is read
* `WrapRing.load_store_of_before` — and what stands before it stays
* `WrapRing.load_add`
* `WrapRing.holds_cons`, `WrapRing.Holds.concat` — reading and writing one entry
-/

namespace WrapRing

variable {α : Type*} {cap w : ℕ} [NeZero cap]

/-- The entry of a count. -/
def place (count : BitVec w) : Fin cap := Fin.ofNat cap count.toNat

/-- Write a list from a count on. -/
def store (slots : Fin cap → α) (count : BitVec w) : List α → Fin cap → α
  | [] => slots
  | x :: xs => store (Function.update slots (place count) x) (count + 1) xs

/-- Read `n` entries from a count on. -/
def load (slots : Fin cap → α) (count : BitVec w) : ℕ → List α
  | 0 => []
  | n + 1 => slots (place count) :: load slots (count + 1) n

variable {slots slots' : Fin cap → α} {count : BitVec w} {xs : List α} {m n : ℕ}

@[simp] theorem length_load (slots : Fin cap → α) (count : BitVec w) (n : ℕ) :
    (load slots count n).length = n := by
  induction n generalizing count with
  | zero => rfl
  | succ n ih => rw [load, List.length_cons, ih]

theorem add_one_add (count : BitVec w) (n : ℕ) :
    count + 1 + .ofNat w n = count + .ofNat w (n + 1) := by
  show count + .ofNat w 1 + .ofNat w n = _
  rw [BitVec.add_assoc, BitVec.ofNat_add_ofNat, Nat.add_comm]

/-- Reading on from where one stopped. -/
theorem load_add (slots : Fin cap → α) (count : BitVec w) (m n : ℕ) :
    load slots count (m + n) = load slots count m ++ load slots (count + .ofNat w m) n := by
  induction m generalizing count with
  | zero => rw [Nat.zero_add, BitVec.add_zero]; rfl
  | succ m ih => rw [Nat.succ_add, load, load, ih, add_one_add, List.cons_append]

theorem load_congr (h : ∀ k < n, slots (place (count + .ofNat w k)) =
    slots' (place (count + .ofNat w k))) : load slots count n = load slots' count n := by
  induction n generalizing count with
  | zero => rfl
  | succ n ih =>
    have hfirst := h 0 (Nat.succ_pos n)
    rw [BitVec.add_zero] at hfirst
    rw [load, load, hfirst, ih fun k hk => ?_]
    rw [add_one_add]
    exact h (k + 1) (Nat.succ_lt_succ hk)

/-- A list leaves the other entries alone. -/
theorem store_of_ne {j : Fin cap} (h : ∀ k < xs.length, place (count + .ofNat w k) ≠ j) :
    store slots count xs j = slots j := by
  induction xs generalizing slots count with
  | nil => rfl
  | cons x xs ih =>
    have hfirst := h 0 (Nat.succ_pos _)
    rw [BitVec.add_zero] at hfirst
    rw [store, ih fun k hk => ?_, Function.update_of_ne hfirst.symm]
    rw [add_one_add]
    exact h (k + 1) (Nat.succ_lt_succ hk)

section

variable (hdvd : cap ∣ 2 ^ w)
include hdvd

/-- The entries of counts that are less than the capacity apart are different. -/
theorem place_injective (hm : m < cap) (hn : n < cap)
    (h : (place (count + .ofNat w m) : Fin cap) = place (count + .ofNat w n)) : m = n := by
  have hmod : ∀ k, (count + .ofNat w k).toNat % cap = (count.toNat + k) % cap := by
    intro k
    rw [BitVec.toNat_add, BitVec.toNat_ofNat, Nat.add_mod_mod, Nat.mod_mod_of_dvd _ hdvd]
  have hval := congrArg Fin.val h
  simp only [place, Fin.val_ofNat, hmod] at hval
  have hmn : m ≡ n [MOD cap] := Nat.ModEq.add_left_cancel' count.toNat hval
  rwa [Nat.ModEq, Nat.mod_eq_of_lt hm, Nat.mod_eq_of_lt hn] at hmn

/-- **What was written is read.** -/
theorem load_store (hlen : xs.length ≤ cap) :
    load (store slots count xs) count xs.length = xs := by
  induction xs generalizing slots count with
  | nil => rfl
  | cons x xs ih =>
    rw [List.length_cons] at hlen ⊢
    rw [store, load, ih (by omega), store_of_ne, Function.update_self]
    intro k hk heq
    rw [add_one_add] at heq
    have hzero : (place count : Fin cap) = place (count + .ofNat w 0) := by
      rw [BitVec.add_zero]
    exact absurd (place_injective hdvd (by omega) (by omega) (heq.trans hzero)) (Nat.succ_ne_zero k)

/-- **What stands before it stays**, as long as both fit in the ring. -/
theorem load_store_of_before (hlen : n + xs.length ≤ cap) :
    load (store slots (count + .ofNat w n) xs) count n = load slots count n := by
  refine load_congr fun k hk => store_of_ne fun j hj heq => ?_
  rw [BitVec.add_assoc, BitVec.ofNat_add_ofNat] at heq
  have hjk := place_injective hdvd (by omega) (by omega) heq
  omega

end

/-! ### Queues in a ring -/

/-- The entries from a count on are these. -/
def Holds (slots : Fin cap → α) (count : BitVec w) (xs : List α) : Prop :=
  load slots count xs.length = xs

@[simp] theorem holds_nil : Holds slots count [] := rfl

theorem holds_cons {x : α} :
    Holds slots count (x :: xs) ↔ slots (place count) = x ∧ Holds slots (count + 1) xs := by
  rw [Holds, List.length_cons, load, List.cons.injEq, Holds]

/-- The entry of a count, when the counts start at zero. -/
theorem place_ofNat (hdvd : cap ∣ 2 ^ w) (n : ℕ) :
    (place (.ofNat w n) : Fin cap) = Fin.ofNat cap n := by
  rw [place, BitVec.toNat_ofNat]
  exact Fin.ext (Nat.mod_mod_of_dvd n hdvd)

/-- **Writing an entry** behind those that are held. -/
theorem Holds.concat (hdvd : cap ∣ 2 ^ w) (h : Holds slots count xs) (hlen : xs.length < cap)
    (x : α) :
    Holds (Function.update slots (place (count + .ofNat w xs.length)) x) count (xs ++ [x]) := by
  have hbefore : load (store slots (count + .ofNat w xs.length) [x]) count xs.length =
      load slots count xs.length := load_store_of_before hdvd hlen
  rw [Holds, List.length_append, load_add]
  refine congrArg₂ (· ++ ·) (hbefore.trans h) ?_
  rw [List.length_singleton, load, load, Function.update_self]

end WrapRing
