import Mathlib.Data.BitVec
import Mathlib.Tactic.Common

/-!
# Tickets

Two counters hand out turns: who comes takes the next number, and the one whose number is served has
the turn. The counters are machine words and wrap around. As long as fewer stand in line than there
are numbers, the numbers of those in line are distinct, and exactly the first has the turn.

## Main definitions

* `Tickets`, `Tickets.Line`

## Main results

* `Tickets.Line.take`, `Tickets.Line.serve` — who comes is last, who goes was first
* `Tickets.Line.first` — the number that is served is the first in line
-/

/-- The next number to hand out and the number that is served. -/
structure Tickets (w : ℕ) where
  next : BitVec w
  serving : BitVec w
  deriving DecidableEq

namespace Tickets

variable {w : ℕ} {d : Tickets w} {row : List (BitVec w)} {t : BitVec w}

/-- These are the numbers of those in line, the first of them being served. -/
structure Line (d : Tickets w) (row : List (BitVec w)) : Prop where
  short : row.length < 2 ^ w
  next_eq : d.next = d.serving + BitVec.ofNat w row.length
  number : ∀ i (h : i < row.length), row[i] = d.serving + BitVec.ofNat w i

theorem line_nil (h : d.next = d.serving) : d.Line [] where
  short := Nat.two_pow_pos w
  next_eq := by simpa using h
  number i hi := absurd hi (Nat.not_lt_zero _)

/-- **Who comes** stands last. -/
theorem Line.take (h : d.Line row) (hroom : row.length + 1 < 2 ^ w) :
    ({ d with next := d.next + 1#w } : Tickets w).Line (row ++ [d.next]) where
  short := by simpa using hroom
  next_eq := by
    show d.next + 1#w = d.serving + BitVec.ofNat w (row ++ [d.next]).length
    rw [h.next_eq, List.length_append, List.length_singleton, BitVec.add_assoc, BitVec.ofNat_add]
  number i hi := by
    rw [List.length_append, List.length_singleton] at hi
    rcases Nat.lt_succ_iff_lt_or_eq.mp hi with hlt | rfl
    · rw [List.getElem_append_left hlt]
      exact h.number i hlt
    · rw [List.getElem_append_right le_rfl]
      simpa using h.next_eq

/-- **Who goes** was first, and all others are one nearer. -/
theorem Line.serve (h : d.Line (t :: row)) :
    ({ d with serving := d.serving + 1#w } : Tickets w).Line row where
  short := (Nat.lt_succ_self _).trans h.short
  next_eq := by
    show d.next = d.serving + 1#w + BitVec.ofNat w row.length
    rw [h.next_eq, List.length_cons, BitVec.add_assoc, Nat.add_comm row.length, BitVec.ofNat_add]
  number i hi := by
    show row[i] = d.serving + 1#w + BitVec.ofNat w i
    have hnum := h.number (i + 1) (Nat.succ_lt_succ hi)
    rw [List.getElem_cons_succ] at hnum
    rw [hnum, BitVec.add_assoc, Nat.add_comm i, BitVec.ofNat_add]

/-- **Exactly the first** has the number that is served. -/
theorem Line.first (h : d.Line row) {i : ℕ} (hi : i < row.length) :
    row[i] = d.serving ↔ i = 0 := by
  have hlt : i < 2 ^ w := hi.trans h.short
  rw [h.number i hi]
  constructor
  · intro heq
    have hzero : BitVec.ofNat w i = 0 := by simpa using heq
    have hnat := congrArg BitVec.toNat hzero
    rwa [BitVec.toNat_ofNat, Nat.mod_eq_of_lt hlt] at hnat
  · rintro rfl
    simp

end Tickets
