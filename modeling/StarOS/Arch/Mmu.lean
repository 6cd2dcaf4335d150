import Mathlib.Data.Nat.Bitwise

/-!
# Descriptors

The 64-bit words of a translation table: what bits a page of each kind is mapped with, and the
tests made of a descriptor read back. An address goes into a descriptor as it is, whatever bits it
has set.
-/

namespace StarOS

namespace Mmu

/-- Size of a page. -/
def page4K : ℕ := 0x1000

/-- Table entry (points to the next level). -/
def descTable : ℕ := 0b11

/-- Page entry at level 3. -/
def descPage : ℕ := 0b11

/-- Access flag. -/
def af : ℕ := 1 <<< 10

def shInner : ℕ := 0b11 <<< 8

/-- Read/write at EL1 and EL0. -/
def apRwEl0 : ℕ := 0b01 <<< 6

/-- Read-only at EL1 and EL0. -/
def apRoEl0 : ℕ := 0b11 <<< 6

/-- Privileged execute-never. -/
def pxn : ℕ := 1 <<< 53

/-- Unprivileged execute-never. -/
def uxn : ℕ := 1 <<< 54

def attrNormal : ℕ := 0

def attrDevice : ℕ := 1 <<< 2

def attrNormalNc : ℕ := 3 <<< 2

/-- This entry means anything at all. -/
def descValid : ℕ := 1 <<< 0

/-- The two-bit type field every descriptor starts with. -/
def descKind : ℕ := 0b11

/-- The output address a descriptor carries. -/
def addrMask : ℕ := 0x0000FFFFFFFFF000

/-- Marks a leaf whose frame belongs to the address space that mapped it. -/
def swOwned : ℕ := 1 <<< 55

def apMask : ℕ := 0b11 <<< 6

def userTextPage (pa : ℕ) : ℕ := pa ||| descPage ||| af ||| shInner ||| apRoEl0 ||| attrNormal ||| pxn

def userRoPage (pa : ℕ) : ℕ :=
  pa ||| descPage ||| af ||| shInner ||| apRoEl0 ||| attrNormal ||| pxn ||| uxn

def userDataPage (pa : ℕ) : ℕ :=
  pa ||| descPage ||| af ||| shInner ||| apRwEl0 ||| attrNormal ||| pxn ||| uxn

def userDevicePage (pa : ℕ) : ℕ := pa ||| descPage ||| af ||| apRwEl0 ||| attrDevice ||| pxn ||| uxn

def userDmaPage (pa : ℕ) : ℕ :=
  pa ||| descPage ||| af ||| shInner ||| apRwEl0 ||| attrNormalNc ||| pxn ||| uxn

/-- Whether EL0 may read through this leaf descriptor. -/
def userReadable (desc : ℕ) : Bool :=
  decide (desc &&& descValid ≠ 0) && decide (desc &&& (1 <<< 6) ≠ 0)

/-- Whether EL0 may write through it. -/
def userWritable (desc : ℕ) : Bool :=
  decide (desc &&& descValid ≠ 0) && decide (desc &&& apMask = apRwEl0)

end Mmu

end StarOS
