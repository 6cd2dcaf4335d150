import StarOS.Abi
import StarOS.Kernel.Object

/-!
# Capabilities

A capability is a right and a reference into the object table. A task names the ones it holds by
handles, which are indices into its own table, so a handle means nothing in anyone else's hands.

## Main definitions

* `Cap`, `CapTable`, `CapTable.install`, `CapTable.resolveCap`
* `KMessage` — a message with the capability it transfers already resolved

## Main results

* `CapTable.install_isSome` — when a capability can be installed
* `CapTable.mem_install` — what a table holds after a capability is installed
-/

namespace StarOS

/-- A single capability: which object it refers to and what the holder may do. -/
inductive Cap
  /-- An endpoint, with the directions permitted. -/
  | endpoint (obj : ObjectRef) (send recv : Bool)
  /-- The right to map one device MMIO page. -/
  | device (obj : ObjectRef)
  /-- A notification the holder may wait on and signal. -/
  | notification (obj : ObjectRef)
  /-- The right to register for and acknowledge one interrupt line. -/
  | irq (obj : ObjectRef)
  /-- The right to mint device and interrupt capabilities. -/
  | deviceAuthority (obj : ObjectRef)
  /-- The right to map a shared-memory buffer. -/
  | shared (obj : ObjectRef)
  /-- The right to map a DMA buffer. -/
  | dma (obj : ObjectRef)
  /-- The right to choose which buffer the display scans out. -/
  | scanout (obj : ObjectRef)
  deriving DecidableEq, Repr

/-- The object this capability refers to, whatever its kind. -/
def Cap.object : Cap → ObjectRef
  | .endpoint obj _ _ | .device obj | .notification obj | .irq obj | .deviceAuthority obj
  | .shared obj | .dma obj | .scanout obj => obj

/-- A task's capability table, indexed by handle. Index 0 is the null handle and stays empty. -/
abbrev CapTable := List (Option Cap)

/-- A capability table granting nothing. -/
def emptyCaps : CapTable := [none]

/-- Install `cap` at the lowest free handle from 1 on, growing the table if every handle is taken
and the heap has room. -/
def CapTable.install (room : Bool) (table : CapTable) (cap : Cap) : Option (Handle × CapTable) :=
  match (table.drop 1).findIdx? Option.isNone with
  | some free => some (BitVec.ofNat 32 (free + 1), table.set (free + 1) (some cap))
  | none => if room then some (BitVec.ofNat 32 table.length, table ++ [some cap]) else none

/-- The capability a handle names. The null handle, an empty slot and a handle past the end of the
table name nothing. -/
def CapTable.resolveCap (table : CapTable) (handle : Handle) : Option Cap :=
  if handle = .null then none else table[handle.toNat]?.join

namespace CapTable

variable {table table' : CapTable} {cap c : Cap} {handle : Handle} {room : Bool}

/-- Whether `install` finds a handle, `room` being whether the heap has room for a new one. -/
def canInstall (room : Bool) (table : CapTable) : Bool :=
  (table.drop 1).any Option.isNone || room

/-- Which capability is installed makes no difference. -/
theorem install_isSome (room : Bool) (table : CapTable) (cap : Cap) :
    (table.install room cap).isSome = table.canInstall room := by
  rw [install, canInstall, ← List.findIdx?_isSome]
  cases (table.drop 1).findIdx? Option.isNone with
  | some free => rfl
  | none => cases room <;> rfl

/-- Whatever resolves is in the table. -/
theorem mem_of_resolveCap (h : table.resolveCap handle = some c) : some c ∈ table := by
  rw [resolveCap] at h
  split at h
  · cases h
  · exact List.mem_of_getElem? (Option.join_eq_some_iff.mp h)

/-- An installation adds the capability installed, and no other. -/
theorem mem_install (h : table.install room cap = some (handle, table')) (hc : some c ∈ table') :
    some c ∈ table ∨ c = cap := by
  rw [install] at h
  split at h
  · obtain ⟨-, rfl⟩ := Prod.mk.inj (Option.some.inj h)
    obtain hc | hc := List.mem_or_eq_of_mem_set hc
    · exact .inl hc
    · exact .inr (Option.some.inj hc)
  · split at h
    · obtain ⟨-, rfl⟩ := Prod.mk.inj (Option.some.inj h)
      simpa using hc
    · cases h

end CapTable

/-- A message as the kernel carries it: the capability it transfers, if any, is already resolved
from the sender's table. -/
structure KMessage where
  /-- What is delivered to the receiver's buffer. -/
  msg : Message
  /-- The capability to install in the receiver's table. -/
  cap : Option Cap
  deriving DecidableEq, Repr

/-- What a slot that holds no message holds. -/
def KMessage.empty : KMessage := ⟨.new 0, none⟩

end StarOS
