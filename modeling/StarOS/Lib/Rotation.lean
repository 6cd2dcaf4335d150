import Mathlib.Data.List.Find
import Mathlib.Tactic.Common

/-!
# Round robin

A table of `n` slots is scanned from just after the slot last served, round to the slot before it.
A waiting slot is served in turn: each service of another slot, were the waiting one due as well,
brings its turn nearer. The table may grow at its end meanwhile, so turns are counted in any `N`
the table stays within.

## Main definitions

* `Rotation.order` — the slots, in the order of a scan
* `Rotation.turn` — how many places a slot is away from the one last served

## Main results

* `Rotation.find?_order_eq_some` — a scan finds the slot nearest in turn
* `Rotation.turn_lt` — a slot served before another leaves it nearer
-/

namespace Rotation

variable {n N origin i j : ℕ} {p q : ℕ → Bool}

/-- The slots of a table of `n`, from just after `origin` round to just before it. -/
def order (n origin : ℕ) : List ℕ := (List.range' 1 (n - 1)).map fun off => (origin + off) % n

/-- How many places slot `i` is away from `origin`, going round a table of `n`. -/
def turn (n origin i : ℕ) : ℕ := if origin < i then i - origin else n - origin + i

theorem turn_of_lt (h : origin < i) : turn n origin i = i - origin := if_pos h

theorem turn_of_le (h : i ≤ origin) : turn n origin i = n - origin + i :=
  if_neg (Nat.not_lt.mpr h)

theorem turn_pos (ho : origin < n) : 0 < turn n origin i := by
  rw [turn]
  split <;> omega

/-- The place a number of steps away is that many away. -/
theorem turn_mod {off : ℕ} (ho : origin < n) (hoff : 1 ≤ off) (hlt : off < n) :
    turn n origin ((origin + off) % n) = off := by
  rcases Nat.lt_or_ge (origin + off) n with hsum | hsum
  · rw [Nat.mod_eq_of_lt hsum, turn_of_lt (by omega)]
    omega
  · rw [Nat.mod_eq_sub_mod hsum, Nat.mod_eq_of_lt (by omega), turn_of_le (by omega)]
    omega

theorem mod_turn (ho : origin < n) (hi : i < n) : (origin + turn n origin i) % n = i := by
  rcases Nat.lt_or_ge origin i with h | h
  · rw [turn_of_lt h, show origin + (i - origin) = i by omega, Nat.mod_eq_of_lt hi]
  · rw [turn_of_le h, show origin + (n - origin + i) = i + n by omega, Nat.add_mod_right,
      Nat.mod_eq_of_lt hi]

theorem turn_lt_size (hi : i < n) (hne : i ≠ origin) : turn n origin i < n := by
  rw [turn]
  split <;> omega

theorem turn_le_size (ho : origin < n) (hi : i < n) : turn n origin i ≤ n := by
  rw [turn]
  split <;> omega

/-- A scan passes every slot but the one it starts from. -/
theorem mem_order (ho : origin < n) : i ∈ order n origin ↔ i < n ∧ i ≠ origin := by
  rw [order, List.mem_map]
  constructor
  · rintro ⟨off, hoff, rfl⟩
    rw [List.mem_range'_1] at hoff
    refine ⟨Nat.mod_lt _ (Nat.zero_lt_of_lt ho), fun heq => ?_⟩
    have hturn := turn_mod ho hoff.1 (by omega)
    rw [heq, turn_of_le (Nat.le_refl origin)] at hturn
    omega
  · rintro ⟨hi, hne⟩
    refine ⟨turn n origin i, ?_, mod_turn ho hi⟩
    have hpos := turn_pos (i := i) ho
    have hlt := turn_lt_size hi hne
    rw [List.mem_range'_1]
    omega

/-- A scan passes the slots in turn. -/
theorem pairwise_order (ho : origin < n) :
    (order n origin).Pairwise fun i j => turn n origin i < turn n origin j := by
  rw [order, List.pairwise_map]
  refine List.Pairwise.imp_of_mem (fun hi hj hlt => ?_) List.pairwise_lt_range'
  rw [List.mem_range'_1] at hi hj
  rwa [turn_mod ho hi.1 (by omega), turn_mod ho hj.1 (by omega)]

theorem turn_eq_mod (ho : origin < n) (hi : i < n) (hne : i ≠ origin) :
    turn n origin i = (i + n - origin) % n := by
  rcases Nat.lt_or_gt_of_ne hne with hlt | hlt
  · rw [turn_of_le (Nat.le_of_lt hlt), Nat.mod_eq_of_lt (by omega)]
    omega
  · rw [turn_of_lt hlt, show i + n - origin = i - origin + n by omega, Nat.add_mod_right,
      Nat.mod_eq_of_lt (by omega)]

theorem find?_order_eq_none (ho : origin < n) :
    (order n origin).find? p = none ↔ ∀ i < n, i ≠ origin → p i = false := by
  simp only [List.find?_eq_none, mem_order ho, Bool.not_eq_true, and_imp]

/-- **A scan finds the slot nearest in turn**, of those it looks for. -/
theorem find?_order_eq_some (ho : origin < n) :
    (order n origin).find? p = some i ↔ i < n ∧ i ≠ origin ∧ p i = true ∧
      ∀ j < n, j ≠ origin → p j = true → turn n origin i ≤ turn n origin j := by
  constructor
  · intro h
    have hmem := (mem_order ho).mp (List.mem_of_find?_eq_some h)
    refine ⟨hmem.1, hmem.2, List.find?_some h, fun j hj hne hp => ?_⟩
    rw [order, List.find?_map, Option.map_eq_some_iff] at h
    obtain ⟨off, hfind, rfl⟩ := h
    obtain ⟨-, hoff, hbefore⟩ := List.find?_range'_eq_some.mp hfind
    rw [List.mem_range'_1] at hoff
    rw [turn_mod ho hoff.1 (by omega)]
    by_contra hlt
    have := hbefore (turn n origin j) (turn_pos ho) (Nat.not_le.mp hlt)
    simp [mod_turn ho hj, hp] at this
  · rintro ⟨hi, hne, hp, hnear⟩
    have hpos := turn_pos (i := i) ho
    have hsize := turn_lt_size hi hne
    rw [order, List.find?_map, Option.map_eq_some_iff]
    refine ⟨turn n origin i, List.find?_range'_eq_some.mpr ⟨?_, ?_, fun off h1 hlt => ?_⟩,
      mod_turn ho hi⟩
    · simpa [mod_turn ho hi] using hp
    · rw [List.mem_range'_1]
      omega
    · -- a place nearer than the first one found holds nothing looked for
      by_contra hfound
      have hoff : turn n origin ((origin + off) % n) = off := turn_mod ho h1 (by omega)
      have hmem : (origin + off) % n ∈ order n origin :=
        List.mem_map.mpr ⟨off, List.mem_range'_1.mpr (by omega), rfl⟩
      obtain ⟨hlt', hne'⟩ := (mem_order ho).mp hmem
      have := hnear _ hlt' hne' (by simpa using hfound)
      omega

/-- Two scans agree that agree on every slot they pass. -/
theorem find?_order_congr (ho : origin < n) (h : ∀ i < n, i ≠ origin → p i = q i) :
    (order n origin).find? p = (order n origin).find? q := by
  refine Option.ext fun i => ?_
  simp only [find?_order_eq_some ho]
  refine and_congr_right fun hi => and_congr_right fun hne => ?_
  rw [h i hi hne]
  refine and_congr_right fun _ => forall₂_congr fun j hj => forall_congr' fun hne' => ?_
  rw [h j hj hne']

/-- **A slot served before another leaves it nearer**, in any table size the table has not
outgrown. -/
theorem turn_lt (ho : origin < n) (hN : n ≤ N) (hi : i < n) (hj : j < n) (hij : i ≠ j)
    (h : turn n origin i ≤ turn n origin j) :
    turn N i j < turn N origin j := by
  rw [turn, turn] at h ⊢
  split_ifs at h ⊢ <;> omega

end Rotation
