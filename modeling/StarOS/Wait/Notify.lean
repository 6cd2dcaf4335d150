import Mathlib.Algebra.Group.Nat.Defs
import Mathlib.Logic.Function.Basic
import StarOS.Abi

/-!
# Notifications

A notification is a count of signals nobody has consumed, and the one task that waits for the
next. A task may wait on several at once; it registers on all of them, and takes itself off all of
them when it wakes.

## Main definitions

* `Notifications` — the table, with `create`, `signal`, `register`, `deregister`, `consumeReady`

## Main results

* `Notifications.consumeReady_eq_some`, `Notifications.consumeReady_eq_none`
-/

namespace StarOS

/-- `u32::MAX`, where a pending count saturates. -/
def u32Max : ℕ := 2 ^ 32 - 1

/-- Whether the slot is in use, how many signals are pending, and who is blocked on it. -/
structure Notification where
  used : Bool
  pending : ℕ
  waiter : Option TaskId
  deriving DecidableEq, Repr

/-- A slot that has never been handed out. -/
def Notification.unused : Notification := ⟨false, 0, none⟩

/-- A slot just handed out. -/
def Notification.fresh : Notification := ⟨true, 0, none⟩

/-- Count one signal, saturating, and forget the waiter. -/
def Notification.signal (s : Notification) : Notification :=
  { s with pending := min (s.pending + 1) u32Max, waiter := none }

/-- Consume one signal. -/
def Notification.consume (s : Notification) : Notification := { s with pending := s.pending - 1 }

/-- The notification table: `len` slots, and nothing in use beyond them. -/
structure Notifications where
  len : ℕ
  slot : ℕ → Notification

namespace Notifications

/-- The table at boot. -/
def empty : Notifications := ⟨0, fun _ => .unused⟩

/-- Allocate a notification: the first slot not in use, or a new one. -/
def create (n : Notifications) : ℕ × Notifications :=
  match (List.range n.len).find? fun i => !(n.slot i).used with
  | some i => (i, { n with slot := Function.update n.slot i .fresh })
  | none => (n.len, ⟨n.len + 1, Function.update n.slot n.len .fresh⟩)

/-- Whether `create` finds a slot, `room` being whether the heap has room for a new one. -/
def canCreate (n : Notifications) (room : Bool) : Bool :=
  room || (List.range n.len).any fun i => !(n.slot i).used

/-- Count a signal on a live slot and take its waiter. -/
def signal (n : Notifications) (id : ℕ) : Option TaskId × Notifications :=
  if (n.slot id).used then
    ((n.slot id).waiter, { n with slot := Function.update n.slot id (n.slot id).signal })
  else (none, n)

/-- Make `me` the waiter of every live slot of `ids`. -/
def register (n : Notifications) (me : TaskId) (ids : List ℕ) : Notifications :=
  { n with
    slot := fun id =>
      if id ∈ ids ∧ (n.slot id).used then { n.slot id with waiter := some me } else n.slot id }

/-- Take `me` off every slot of `ids` it is the waiter of. -/
def deregister (n : Notifications) (me : TaskId) (ids : List ℕ) : Notifications :=
  { n with
    slot := fun id =>
      if id ∈ ids ∧ (n.slot id).waiter = some me then { n.slot id with waiter := none }
      else n.slot id }

/-- Whether a slot has a signal to consume. -/
def ready (n : Notifications) (id : ℕ) : Bool := (n.slot id).used && decide (0 < (n.slot id).pending)

/-- Consume one pending signal of the first ready slot of `ids`, answering with its index and with
the slot. -/
def consumeReady (n : Notifications) (ids : List ℕ) : Option (ℕ × ℕ × Notifications) :=
  match ids.findIdx? n.ready with
  | some index =>
    let id := ids.getD index 0
    some (index, id, { n with slot := Function.update n.slot id (n.slot id).consume })
  | none => none

/-! ### What the operations do -/

section Registration

variable (n : Notifications) (me : TaskId) (ids : List ℕ) (id : ℕ)

@[simp] theorem used_register : ((n.register me ids).slot id).used = (n.slot id).used := by
  simp only [register]
  split <;> rfl

@[simp] theorem pending_register : ((n.register me ids).slot id).pending = (n.slot id).pending := by
  simp only [register]
  split <;> rfl

@[simp] theorem used_deregister : ((n.deregister me ids).slot id).used = (n.slot id).used := by
  simp only [deregister]
  split <;> rfl

@[simp] theorem pending_deregister :
    ((n.deregister me ids).slot id).pending = (n.slot id).pending := by
  simp only [deregister]
  split <;> rfl

/-- Only the task that takes itself off stops being a waiter. -/
theorem waiter_deregister {n : Notifications} {me t : TaskId} (ids : List ℕ) {id : ℕ}
    (h : (n.slot id).waiter = some t) (hne : t ≠ me) :
    ((n.deregister me ids).slot id).waiter = some t := by
  simp only [deregister]
  split
  · next hm => exact absurd (Option.some.inj (h.symm.trans hm.2)) hne
  · exact h

end Registration

@[simp] theorem len_signal (n : Notifications) (id : ℕ) : (n.signal id).2.len = n.len := by
  unfold signal
  split <;> rfl

@[simp] theorem used_signal (n : Notifications) (id i : ℕ) :
    ((n.signal id).2.slot i).used = (n.slot i).used := by
  unfold signal
  split
  · rcases eq_or_ne i id with rfl | hne
    · simp [Notification.signal]
    · simp [hne]
  · rfl

theorem create_eq {n n' : Notifications} {id : ℕ} (hn : ∀ i, n.len ≤ i → (n.slot i).used = false)
    (h : n.create = (id, n')) :
    (n.slot id).used = false ∧ n'.slot = Function.update n.slot id .fresh ∧
      ∀ i, n'.len ≤ i → (n'.slot i).used = false := by
  unfold create at h
  split at h
  · next i hf =>
    obtain ⟨rfl, rfl⟩ := Prod.mk.inj h
    have hi := List.mem_range.mp (List.mem_of_find?_eq_some hf)
    refine ⟨by simpa using List.find?_some hf, rfl, fun j hj => ?_⟩
    simp only [Function.update_of_ne (show j ≠ i by rintro rfl; exact absurd hi (Nat.not_lt.mpr hj))]
    exact hn j hj
  · obtain ⟨rfl, rfl⟩ := Prod.mk.inj h
    refine ⟨hn _ (Nat.le_refl _), rfl, fun j hj => ?_⟩
    simp only [Function.update_of_ne (show j ≠ n.len by rintro rfl; exact Nat.not_succ_le_self _ hj)]
    exact hn j (Nat.le_of_succ_le hj)

theorem consumeReady_eq_some {n n' : Notifications} {ids : List ℕ} {index id : ℕ}
    (h : n.consumeReady ids = some (index, id, n')) :
    ids[index]? = some id ∧ (n.slot id).used = true ∧ 0 < (n.slot id).pending ∧
      n' = { n with slot := Function.update n.slot id (n.slot id).consume } := by
  unfold consumeReady at h
  split at h
  · next i hf =>
    simp only [Option.some.injEq, Prod.mk.injEq] at h
    obtain ⟨rfl, rfl, rfl⟩ := h
    obtain ⟨hlt, hready, -⟩ := List.findIdx?_eq_some_iff_getElem.mp hf
    have hget : ids[i]? = some ids[i] := List.getElem?_eq_getElem hlt
    simp only [List.getD_eq_getElem?_getD, hget, Option.getD_some]
    simp only [ready, Bool.and_eq_true, decide_eq_true_eq] at hready
    exact ⟨trivial, hready.1, hready.2, trivial⟩
  · simp at h

theorem used_consumeReady {n n' : Notifications} {ids : List ℕ} {index id : ℕ}
    (h : n.consumeReady ids = some (index, id, n')) :
    n'.len = n.len ∧ ∀ i, (n'.slot i).used = (n.slot i).used := by
  obtain ⟨-, -, -, rfl⟩ := consumeReady_eq_some h
  refine ⟨rfl, fun i => ?_⟩
  rcases eq_or_ne i id with rfl | hne
  · simp [Notification.consume]
  · simp [hne]

theorem consumeReady_eq_none {n : Notifications} {ids : List ℕ} (h : n.consumeReady ids = none)
    {id : ℕ} (hid : id ∈ ids) (hu : (n.slot id).used = true) : (n.slot id).pending = 0 := by
  unfold consumeReady at h
  split at h
  · simp at h
  · next hf =>
    have := List.findIdx?_eq_none_iff.mp hf id hid
    simpa [ready, hu] using this

end Notifications

end StarOS
