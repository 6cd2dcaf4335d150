import Mathlib.Algebra.GroupWithZero.Nat
import Mathlib.Data.Int.Notation
import Mathlib.Tactic.Common

/-!
# The kernel's interface

What the kernel and its callers agree on: handles, error codes, and the message that travels
between them.

## Main definitions

* `Handle`, `KError`, `Message`
* `TaskId` — a slot of the scheduler's task table
* `CpuId` — a core
-/

namespace StarOS

/-- A task, by its slot in the task table. -/
abbrev TaskId := ℕ

/-- A core, by its index. -/
abbrev CpuId := ℕ

/-- A reference to a kernel object in the caller's own capability table. -/
abbrev Handle := BitVec 32

/-- The reserved null handle. -/
def Handle.null : Handle := 0

/-- What a system call that fails answers. -/
inductive KError
  /-- A supplied argument was outside its permitted range. -/
  | invalidArgument
  /-- The named capability handle does not exist in the caller's space. -/
  | badHandle
  /-- The caller lacks the rights required for this operation. -/
  | permissionDenied
  /-- A resource was exhausted. -/
  | outOfResources
  /-- The operation would block and non-blocking behaviour was requested. -/
  | wouldBlock
  /-- The requested syscall number is not implemented. -/
  | noSuchSyscall
  /-- The operation is meaningful but this machine cannot do it. -/
  | notSupported
  deriving DecidableEq, Repr

/-- The raw register value used to signal this error from a syscall. -/
def KError.asRaw : KError → ℤ
  | .invalidArgument => -1
  | .badHandle => -2
  | .permissionDenied => -3
  | .outOfResources => -4
  | .wouldBlock => -5
  | .noSuchSyscall => -6
  | .notSupported => -7

/-- The number of inline data words carried by a message. -/
def messageWords : ℕ := 4

instance : NeZero messageWords := ⟨by decide⟩

/-- A fixed-size IPC message. -/
structure Message where
  /-- Caller-defined tag identifying the request. -/
  tag : BitVec 64
  /-- Inline payload words. -/
  words : Vector (BitVec 64) messageWords
  /-- An optional capability transferred alongside the message. -/
  cap : Handle
  deriving DecidableEq, Repr

/-- A tagged message with no inline data and no capability. -/
def Message.new (tag : BitVec 64) : Message := ⟨tag, .replicate messageWords 0, .null⟩

/-- The first three words of a message, the last of which is zero. -/
abbrev Message.three (a b c : BitVec 64) : Vector (BitVec 64) messageWords := #v[a, b, c, 0]

end StarOS
