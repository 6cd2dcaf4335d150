import Mathlib.Data.Nat.Notation
import Mathlib.Tactic.Common

/-!
# Interrupt lines

A driver registers for an interrupt line: the line is bound to a notification, and enabled at the
controller. Whether the heap has room for another binding and whether the controller accepts the
line are arguments.

## Main definitions

* `Irq.register`, `Irq.lookup`
* `Irq.canRegister` — when a registration succeeds
-/

namespace StarOS

namespace Irq

/-- A registered interrupt→notification binding. -/
structure Binding where
  intid : BitVec 32
  notif : ℕ
  deriving DecidableEq, Repr

/-- Bind `intid` to `notif` and enable the line. The binding stays when the controller refuses. -/
def register (table : List Binding) (room enabled : Bool) (intid : BitVec 32) (notif : ℕ) :
    Bool × List Binding :=
  if table.any (·.intid = intid) then (false, table)
  else if room then (enabled, table ++ [⟨intid, notif⟩])
  else (false, table)

/-- The notification bound to a line. -/
def lookup (table : List Binding) (intid : BitVec 32) : Option ℕ :=
  (table.find? (·.intid = intid)).map (·.notif)

/-- The line is free, there is room for a binding, and the controller accepts the line. -/
def canRegister (table : List Binding) (room enabled : Bool) (intid : BitVec 32) : Bool :=
  !table.any (·.intid = intid) && room && enabled

theorem register_fst (table : List Binding) (room enabled : Bool) (intid : BitVec 32)
    (notif : ℕ) :
    (register table room enabled intid notif).1 = canRegister table room enabled intid := by
  rw [register, canRegister]
  cases table.any (·.intid = intid) <;> cases room <;> rfl

end Irq

end StarOS
