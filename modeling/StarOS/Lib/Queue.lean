import Mathlib.Data.Nat.ModEq
import Mathlib.Tactic.Common

/-!
# Bounded queues: a ring buffer and an array with a count

Two ways a program keeps a first-in first-out queue of at most `cap` entries in a fixed array.

A `RingBuffer` keeps a head index and a length and lets the contents wrap around the end of the
array. A `BoundedQueue` is an array with a count, whose removal shifts everything behind it one
place down, so its contents are simply a list that never grows past `cap`.

What a client needs of either is that it is a queue: `RingBuffer.toList` is the contents in order,
and each operation is stated by what it does to that list.

## Main results

* `RingBuffer.toList_push`, `RingBuffer.toList_pop` — a ring is a queue, wherever its head stands
* `BoundedQueue.push_eq_some`, `BoundedQueue.pop_eq_some`
-/

/-- A ring buffer of capacity `cap`. Slots outside the `len` entries from `head` on hold whatever
was left in them. -/
structure RingBuffer (α : Type*) (cap : ℕ) where
  /-- The backing array. -/
  slots : ℕ → α
  /-- Where the oldest entry stands. -/
  head : ℕ
  /-- How many entries there are. -/
  len : ℕ
  /-- The head is an index of the array. -/
  head_lt : head < cap
  /-- There are no more entries than slots. -/
  len_le : len ≤ cap

namespace RingBuffer

variable {α : Type*} {cap : ℕ}

/-- The ring with nothing in it. -/
def empty (x : α) (h : 0 < cap) : RingBuffer α cap where
  slots _ := x
  head := 0
  len := 0
  head_lt := h
  len_le := Nat.zero_le _

/-- Append at the tail, or `none` when the ring is full. -/
def push (r : RingBuffer α cap) (x : α) : Option (RingBuffer α cap) :=
  if h : r.len = cap then none
  else some
    { r with
      slots := Function.update r.slots ((r.head + r.len) % cap) x
      len := r.len + 1
      len_le := Nat.lt_of_le_of_ne r.len_le h }

/-- Take from the head, or `none` when the ring is empty. -/
def pop (r : RingBuffer α cap) : Option (α × RingBuffer α cap) :=
  if r.len = 0 then none
  else some (r.slots r.head,
    { r with
      head := (r.head + 1) % cap
      len := r.len - 1
      head_lt := Nat.mod_lt _ (Nat.lt_of_le_of_lt (Nat.zero_le _) r.head_lt)
      len_le := (Nat.sub_le _ _).trans r.len_le })

/-- The contents, oldest first. -/
def toList (r : RingBuffer α cap) : List α :=
  (List.range r.len).map fun i => r.slots ((r.head + i) % cap)

@[simp] theorem toList_empty (x : α) (h : 0 < cap) : (empty x h : RingBuffer α cap).toList = [] := rfl

@[simp] theorem length_toList (r : RingBuffer α cap) : r.toList.length = r.len := by simp [toList]

theorem toList_eq_nil {r : RingBuffer α cap} : r.toList = [] ↔ r.len = 0 := by
  rw [← List.length_eq_zero_iff, length_toList]

theorem push_eq_none {r : RingBuffer α cap} {x : α} : r.push x = none ↔ r.toList.length = cap := by
  simp [push]

theorem length_toList_le (r : RingBuffer α cap) : r.toList.length ≤ cap := by
  rw [length_toList]
  exact r.len_le

/-- Distinct offsets below the capacity stand in distinct slots. -/
theorem offset_injective {head i j : ℕ} (hi : i < cap) (hj : j < cap)
    (h : (head + i) % cap = (head + j) % cap) : i = j := by
  have := (Nat.ModEq.add_left_cancel' head h : i ≡ j [MOD cap])
  rwa [Nat.ModEq, Nat.mod_eq_of_lt hi, Nat.mod_eq_of_lt hj] at this

/-- **Pushing appends**, wherever the tail wraps to. -/
theorem toList_push {r r' : RingBuffer α cap} {x : α} (h : r.push x = some r') :
    r'.toList = r.toList ++ [x] := by
  simp only [push] at h
  split at h
  · simp at h
  · next hne =>
    obtain rfl := Option.some.inj h
    have hlt : r.len < cap := Nat.lt_of_le_of_ne r.len_le hne
    simp only [toList, List.range_succ, List.map_append, List.map_cons, List.map_nil,
      Function.update_self]
    congr 1
    refine List.map_congr_left fun i hi => ?_
    -- an occupied slot is not the one the new entry goes to
    rw [Function.update_of_ne]
    intro hs
    have hi' := List.mem_range.mp hi
    have := offset_injective (hi'.trans hlt) hlt hs
    omega

/-- **Popping takes the head.** -/
theorem toList_pop {r r' : RingBuffer α cap} {x : α} (h : r.pop = some (x, r')) :
    r.toList = x :: r'.toList := by
  simp only [pop] at h
  split at h
  · simp at h
  · next hne =>
    obtain ⟨rfl, rfl⟩ := Prod.mk.inj (Option.some.inj h)
    obtain ⟨n, hn⟩ := Nat.exists_eq_succ_of_ne_zero hne
    simp only [toList, hn, Nat.succ_eq_add_one, List.range_succ_eq_map, List.map_cons,
      List.map_map, Nat.add_zero, Nat.mod_eq_of_lt r.head_lt, Nat.add_sub_cancel]
    congr 1
    refine List.map_congr_left fun i _ => ?_
    simp only [Function.comp_apply, Nat.mod_add_mod]
    congr 2
    omega

theorem pop_eq_none {r : RingBuffer α cap} : r.pop = none ↔ r.toList = [] := by
  simp [pop, toList_eq_nil]

end RingBuffer

/-- A queue kept in an array with a count: a list of at most `cap` entries. -/
structure BoundedQueue (α : Type*) (cap : ℕ) where
  /-- The entries, oldest first. -/
  items : List α
  /-- They fit. -/
  fits : items.length ≤ cap

namespace BoundedQueue

variable {α : Type*} {cap : ℕ}

/-- The queue with nothing in it. -/
def empty : BoundedQueue α cap := ⟨[], Nat.zero_le _⟩

/-- Append, or `none` when the array is full. -/
def push (b : BoundedQueue α cap) (x : α) : Option (BoundedQueue α cap) :=
  if h : b.items.length = cap then none
  else some ⟨b.items ++ [x], by
    have := b.fits
    simp only [List.length_append, List.length_singleton]
    omega⟩

/-- Take the first entry, shifting the rest down, or `none` when there is none. -/
def pop (b : BoundedQueue α cap) : Option (α × BoundedQueue α cap) :=
  match h : b.items with
  | [] => none
  | x :: xs => some (x, ⟨xs, by have := b.fits; simp only [h, List.length_cons] at this; omega⟩)

/-- Remove the first entry equal to `x`, shifting the rest down. -/
def remove [DecidableEq α] (b : BoundedQueue α cap) (x : α) : BoundedQueue α cap :=
  ⟨b.items.erase x, (List.length_erase_le ..).trans b.fits⟩

@[simp] theorem items_empty : (empty : BoundedQueue α cap).items = [] := rfl

@[simp] theorem items_remove [DecidableEq α] (b : BoundedQueue α cap) (x : α) :
    (b.remove x).items = b.items.erase x := rfl

theorem push_eq_some {b b' : BoundedQueue α cap} {x : α} (h : b.push x = some b') :
    b'.items = b.items ++ [x] := by
  simp only [push] at h
  split at h
  · simp at h
  · exact (Option.some.inj h) ▸ rfl

theorem push_eq_none {b : BoundedQueue α cap} {x : α} (h : b.push x = none) :
    b.items.length = cap := by
  rw [push] at h
  split at h
  · assumption
  · cases h

theorem pop_eq_some {b b' : BoundedQueue α cap} {x : α} (h : b.pop = some (x, b')) :
    b.items = x :: b'.items := by
  rw [pop] at h
  split at h
  · simp at h
  · next y ys hy =>
    obtain ⟨rfl, rfl⟩ := Prod.mk.inj (Option.some.inj h)
    exact hy

theorem pop_eq_none {b : BoundedQueue α cap} (h : b.pop = none) : b.items = [] := by
  rw [pop] at h
  split at h
  · assumption
  · simp at h

end BoundedQueue
