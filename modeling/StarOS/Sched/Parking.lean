import Mathlib.Data.Nat.Notation
import Mathlib.Tactic.Common

/-!
# Parking and waking

A task that has to wait puts itself in a wait queue under that queue's lock, drops it, and parks
under the scheduler's. Whoever wakes it may find it parked, and makes it runnable; or still on its
way, and leaves a flag for the park to find. This file has the part of a task those paths touch,
and the functions of the scheduler that touch it.

## Main definitions

* `Parking` — the state, the mailbox and the flag
* `Parking.park`, `Parking.unblock`, `Parking.deliver`, `Parking.wakeExpired`

## Main results

* `Parking.parked_unblock`, `Parking.parked_deliver` — which wakes free which parks: a delivery
  does not free a task that is parked against a deadline
-/

namespace StarOS

/-- Lifecycle state of a task slot. -/
inductive State
  /-- Runnable but not currently on a CPU. -/
  | ready
  /-- Currently executing. -/
  | running
  /-- Waiting for an event. -/
  | blocked
  /-- Waiting for a time. -/
  | sleeping (untilNs : ℕ)
  /-- Finished. -/
  | dead
  deriving DecidableEq, Repr

/-- Not schedulable until something wakes it. -/
def State.parked : State → Bool
  | .blocked | .sleeping _ => true
  | .ready | .running | .dead => false

/-- What parking and waking touch of a task. -/
structure Parking (α : Type*) where
  state : State
  /-- The message a sender left for this task. -/
  mailbox : Option α
  /-- A wake-up that arrived before this task managed to park. -/
  wakePending : Bool
  deriving DecidableEq

namespace Parking

variable {α : Type*}

/-- A task just spawned. -/
def fresh : Parking α := ⟨.ready, none, false⟩

/-- A slot of the task table nothing has been spawned in. -/
def unborn : Parking α := ⟨.dead, none, false⟩

/-- `park_and_switch`, as far as the task that parks is concerned: a recorded wake-up is consumed
instead. -/
def park (p : Parking α) (parked : State) : Parking α :=
  if p.wakePending then { p with wakePending := false } else { p with state := parked }

/-- Make a blocked task runnable, or record the wake-up if it is not parked. -/
def unblock (p : Parking α) : Parking α :=
  match p.state with
  | .blocked | .sleeping _ => { p with state := .ready }
  | _ => { p with wakePending := true }

/-- Leave a message and make a blocked receiver runnable, or record the wake-up if it is not
`Blocked`. -/
def deliver (p : Parking α) (km : α) : Parking α :=
  if p.state = .blocked then { p with mailbox := some km, state := .ready }
  else { p with mailbox := some km, wakePending := true }

/-- What `wake_expired` does to one task at time `now`. -/
def wakeExpired (p : Parking α) (now : ℕ) : Parking α :=
  match p.state with
  | .sleeping untilNs => if untilNs ≤ now then { p with state := .ready } else p
  | _ => p

/-- `take_mailbox`: what is left once the mailbox has been taken from. -/
def takeMailbox (p : Parking α) : Parking α := { p with mailbox := none }

@[simp] theorem mailbox_park (p : Parking α) (s : State) : (p.park s).mailbox = p.mailbox := by
  unfold park
  split <;> rfl

@[simp] theorem mailbox_unblock (p : Parking α) : p.unblock.mailbox = p.mailbox := by
  unfold unblock
  split <;> rfl

@[simp] theorem mailbox_deliver (p : Parking α) (km : α) : (p.deliver km).mailbox = some km := by
  unfold deliver
  split <;> rfl

@[simp] theorem mailbox_wakeExpired (p : Parking α) (now : ℕ) :
    (p.wakeExpired now).mailbox = p.mailbox := by
  unfold wakeExpired
  split
  · split <;> rfl
  · rfl

@[simp] theorem wakePending_wakeExpired (p : Parking α) (now : ℕ) :
    (p.wakeExpired now).wakePending = p.wakePending := by
  unfold wakeExpired
  split
  · split <;> rfl
  · rfl

/-- An `unblock` frees a parked task, however it is parked. -/
@[simp] theorem parked_unblock (p : Parking α) : p.unblock.state.parked = false := by
  unfold unblock
  cases p.state <;> simp [State.parked]

/-- An `unblock` leaves its mark on a task that is not parked. -/
theorem wakePending_unblock {p : Parking α} (h : p.state.parked = false) :
    p.unblock.wakePending = true := by
  unfold unblock
  cases hs : p.state <;> simp_all [State.parked]

/-- A delivery frees a `Blocked` task only: one parked against a deadline stays parked. -/
@[simp] theorem parked_deliver (p : Parking α) (km : α) :
    (p.deliver km).state.parked = (p.state.parked && decide (p.state ≠ .blocked)) := by
  unfold deliver
  cases p.state <;> simp [State.parked]

/-- A delivery leaves its mark on every task it does not free. -/
theorem wakePending_deliver {p : Parking α} (h : p.state ≠ .blocked) (km : α) :
    (p.deliver km).wakePending = true := by
  simp [deliver, h]

/-- The clock only frees sleepers whose deadline has passed. -/
theorem parked_wakeExpired {p : Parking α} {now : ℕ} (h : p.state.parked = true) :
    (p.wakeExpired now).state.parked = true ∨ ∃ u, p.state = .sleeping u ∧ u ≤ now := by
  unfold wakeExpired
  split
  · next u hs =>
    split
    · exact .inr ⟨u, hs, ‹_›⟩
    · exact .inl h
  · exact .inl h

/-- What is still parked after the clock was looked at is parked as before. -/
theorem state_wakeExpired {p : Parking α} {now : ℕ}
    (h : (p.wakeExpired now).state.parked = true) : (p.wakeExpired now).state = p.state := by
  revert h
  unfold wakeExpired
  split
  · split <;> simp [State.parked]
  · simp

/-- What is still parked after a delivery is parked as before. -/
theorem state_deliver {p : Parking α} {km : α} (h : (p.deliver km).state.parked = true) :
    (p.deliver km).state = p.state := by
  revert h
  unfold deliver
  split <;> simp [State.parked]

theorem not_parked_wakeExpired {p : Parking α} {now : ℕ} (h : p.state.parked = false) :
    p.wakeExpired now = p := by
  unfold wakeExpired
  cases hs : p.state <;> simp_all [State.parked]

end Parking

end StarOS
