import Mathlib.Logic.Function.Basic
import StarOS.Arch.Mmu

/-!
# Address spaces

A space is four levels of tables in physical memory, made as they are needed out of frames from a
pool. A leaf that carries `swOwned` is a page whose frame the space took from the pool; the others
map frames that belong to an object or to hardware. Nothing else records what a space owns, so
`destroy` walks the tables.

## What is not here

The translation buffer is not modelled, nor the instruction cache; the linear map, through which
tables are read and written, takes a physical address to itself.

## Main definitions

* `AddressSpace`, with `new`, `mapPage`, `lookup`, `userRangeOk`, `unmap`, `destroy`
-/

namespace StarOS

open Mmu

/-- Physical memory: the word at each multiple of 8. -/
abbrev Mem := ℕ → ℕ

/-- A pool of frames. -/
class FrameAllocator (A : Type) where
  /-- Allocate one physical frame, or `none` when memory is exhausted. -/
  allocate : A → Option ℕ × A
  /-- Return a previously allocated frame to the pool. -/
  free : A → ℕ → A

/-- Memory, and the pool its frames come from. -/
structure Phys (A : Type) where
  mem : Mem
  alloc : A

def userBase : ℕ := 0x80000000

def userImageEnd : ℕ := 0xC0000000

def userHeapBase : ℕ := 0x100000000

def userHeapEnd : ℕ := 0x200000000

def userDataVa : ℕ := 0x400000000

def userDmaVa : ℕ := 0x700000000

def userStackTop : ℕ := 0x800000000

/-- How many stack pages a fresh space is given. -/
def userStackPages : ℕ := 1

/-- How far the stack may grow, in pages. -/
def userStackMaxPages : ℕ := 256

def userStackLimit : ℕ := userStackTop - userStackMaxPages * page4K

/-- Segment is executable. -/
def pfX : ℕ := 1

/-- Segment is writable. -/
def pfW : ℕ := 2

/-- Descriptors in a translation table. -/
abbrev entries : ℕ := 512

/-- The level whose descriptors map pages. -/
def leafLevel : ℕ := 3

theorem index_lt (va level : ℕ) : (va >>> (39 - 9 * level)) &&& 0x1ff < entries :=
  Nat.lt_of_le_of_lt Nat.and_le_right (by decide)

/-- Index into the level-`level` table for `va`. -/
def tableIndex (va level : ℕ) : Fin entries :=
  ⟨(va >>> (39 - 9 * level)) &&& 0x1ff, index_lt va level⟩

/-- A user process address space. -/
structure AddressSpace where
  /-- Physical address of the level-0 table. -/
  root : ℕ
  /-- Physical frame backing `userDataVa`. -/
  dataPhys : ℕ
  /-- Where to enter the program. -/
  entry : ℕ
  /-- Next free address of the anonymous region. -/
  heapNext : ℕ
  deriving DecidableEq, Repr

/-- Read a descriptor. -/
def readEntry (m : Mem) (table : ℕ) (index : Fin entries) : ℕ := m (table + 8 * index)

/-- Write a descriptor. -/
def writeEntry (m : Mem) (table : ℕ) (index : Fin entries) (desc : ℕ) : Mem :=
  Function.update m (table + 8 * index) desc

/-- Zero the slots of a frame. -/
def zeroFrame (m : Mem) (phys : ℕ) : Mem :=
  fun addr => if phys ≤ addr ∧ addr < phys + 8 * entries then 0 else m addr

section

variable {A : Type} [FrameAllocator A]

/-- Allocate one frame and zero it for use as a table. -/
def allocTable (p : Phys A) : Option ℕ × Phys A :=
  match FrameAllocator.allocate p.alloc with
  | (none, alloc) => (none, { p with alloc })
  | (some frame, alloc) => (some frame, ⟨zeroFrame p.mem frame, alloc⟩)

/-- Give a frame back. -/
def freeFrame (p : Phys A) (frame : ℕ) : Phys A :=
  { p with alloc := FrameAllocator.free p.alloc frame }

/-- `for i in 0..n`, left with `false` by the first round that fails. -/
def forPages {S : Type} (step : ℕ → S → Bool × S) : ℕ → ℕ → S → Bool × S
  | 0, _, s => (true, s)
  | n + 1, i, s =>
    match step i s with
    | (false, s) => (false, s)
    | (true, s) => forPages step n (i + 1) s

namespace AddressSpace

/-- The loop of `leafTable`, from a table down. -/
def leafTableFrom (va : ℕ) : List ℕ → ℕ → Phys A → Option ℕ × Phys A
  | [], table, p => (some table, p)
  | level :: levels, table, p =>
    let index := tableIndex va level
    let desc := readEntry p.mem table index
    if desc &&& descValid = 0 then
      match allocTable p with
      | (none, p) => (none, p)
      | (some next, p) =>
        leafTableFrom va levels next { p with mem := writeEntry p.mem table index (next ||| descTable) }
    else leafTableFrom va levels (desc &&& addrMask) p

/-- Walk down to the level-3 table covering `va`, creating any table missing on the way. -/
def leafTable (space : AddressSpace) (va : ℕ) (p : Phys A) : Option ℕ × Phys A :=
  leafTableFrom va (List.range leafLevel) space.root p

/-- Install `desc` as the mapping of `va`. -/
def mapPage (space : AddressSpace) (va desc : ℕ) (p : Phys A) : Bool × Phys A :=
  match space.leafTable va p with
  | (none, p) => (false, p)
  | (some leaf, p) => (true, { p with mem := writeEntry p.mem leaf (tableIndex va leafLevel) desc })

/-- The loop of `existingLeafTable` and of `lookup`, from a table down. -/
def existingFrom (m : Mem) (va : ℕ) : List ℕ → ℕ → Option ℕ
  | [], table => some table
  | level :: levels, table =>
    let desc := readEntry m table (tableIndex va level)
    if desc &&& descKind ≠ descTable then none
    else existingFrom m va levels (desc &&& addrMask)

/-- The level-3 table that already maps `va`. -/
def existingLeafTable (space : AddressSpace) (m : Mem) (va : ℕ) : Option ℕ :=
  existingFrom m va (List.range leafLevel) space.root

/-- The leaf descriptor mapping `va`, or `none` if nothing does. -/
def lookup (space : AddressSpace) (m : Mem) (va : ℕ) : Option ℕ :=
  match existingFrom m va (List.range leafLevel) space.root with
  | none => none
  | some table =>
    let desc := readEntry m table (tableIndex va leafLevel)
    if desc &&& descValid ≠ 0 then some desc else none

/-- The loop of `userRangeOk`, or `none` if it goes around more often than that. -/
def rangeLoop (space : AddressSpace) (m : Mem) (limit : ℕ) (write : Bool) : ℕ → ℕ → Option Bool
  | 0, _ => none
  | fuel + 1, page =>
    if page < limit then
      match space.lookup m page with
      | none => some false
      | some desc =>
        if !userReadable desc || (write && !userWritable desc) then some false
        else rangeLoop space m limit write fuel ((page + page4K) % 2 ^ 64)
    else some true

/-- Whether EL0 may read, and write if asked, every byte of the range. -/
def userRangeOk (space : AddressSpace) (m : Mem) (fuel va len : ℕ) (write : Bool) : Option Bool :=
  if 2 ^ 64 ≤ va + len then some false
  else if len = 0 then some true
  else space.rangeLoop m (va + len) write fuel (va &&& (2 ^ 64 - page4K))

/-- One round of `unmap`, and how many pages it unmapped. -/
def unmapPage (space : AddressSpace) (va : ℕ) (i : ℕ) (s : ℕ × Phys A) : ℕ × Phys A :=
  let page := (va + i * page4K) % 2 ^ 64
  match space.existingLeafTable s.2.mem page with
  | none => s
  | some leaf =>
    let index := tableIndex page leafLevel
    let desc := readEntry s.2.mem leaf index
    if desc &&& descValid = 0 then s
    else
      let p : Phys A := { s.2 with mem := writeEntry s.2.mem leaf index 0 }
      (s.1 + 1, if desc &&& swOwned ≠ 0 then freeFrame p (desc &&& addrMask) else p)

/-- Unmap pages, and how many were mapped. -/
def unmap (space : AddressSpace) (va pages : ℕ) (p : Phys A) : ℕ × Phys A :=
  (List.range pages).foldl (fun s i => space.unmapPage va i s) (0, p)

/-- Free the sub-tree at a table, then the table itself; `below` is how many levels are left. -/
def freeTable : ℕ → ℕ → Phys A → Phys A
  | 0, table, p =>
    let p := (List.finRange entries).foldl (fun p index =>
      let desc := readEntry p.mem table index
      if desc &&& descValid = 0 then p
      else if desc &&& swOwned ≠ 0 then freeFrame p (desc &&& addrMask)
      else p) p
    freeFrame p table
  | below + 1, table, p =>
    let p := (List.finRange entries).foldl (fun p index =>
      let desc := readEntry p.mem table index
      if desc &&& descValid = 0 then p
      else freeTable below (desc &&& addrMask) p) p
    freeFrame p table

/-- Give back every frame the space owns. -/
def destroy (space : AddressSpace) (p : Phys A) : Phys A := freeTable leafLevel space.root p

/-- Allocate a zeroed frame and map it at `va` as a page the space owns. -/
def mapFresh (space : AddressSpace) (va : ℕ) (p : Phys A) : Option ℕ × Phys A :=
  match allocTable p with
  | (none, p) => (none, p)
  | (some frame, p) =>
    match space.mapPage va (userDataPage frame ||| swOwned) p with
    | (false, p) => (none, freeFrame p frame)
    | (true, p) => (some frame, p)

/-- Map the pages every space gets. -/
def populate (space : AddressSpace) (p : Phys A) : Option AddressSpace × Phys A :=
  match space.mapFresh userDataVa p with
  | (none, p) => (none, p)
  | (some data, p) =>
    match forPages (fun i p =>
        let (frame, p) := space.mapFresh (userStackTop - (i + 1) * page4K) p
        (frame.isSome, p)) userStackPages 0 p with
    | (false, p) => (none, p)
    | (true, p) => (some { space with dataPhys := data }, p)

/-- Build a space with no code. -/
def new (p : Phys A) : Option AddressSpace × Phys A :=
  match allocTable p with
  | (none, p) => (none, p)
  | (some root, p) =>
    match populate ⟨root, 0, 0, userHeapBase⟩ p with
    | (some space, p) => (some space, p)
    | (none, p) => (none, freeTable leafLevel root p)

/-- Grow the stack to cover a faulting address. -/
def growStack (space : AddressSpace) (far : ℕ) (p : Phys A) : Bool × Phys A :=
  let va := far &&& (2 ^ 64 - page4K)
  if !(decide (userStackLimit ≤ va) && decide (va < userStackTop)) then (false, p)
  else if (space.lookup p.mem va).isSome then (false, p)
  else
    let (frame, p) := space.mapFresh va p
    (frame.isSome, p)

/-- Take `pages` of address space from the anonymous region. -/
def reserveAnon (space : AddressSpace) (pages : ℕ) : Option ℕ × AddressSpace :=
  if pages = 0 then (none, space)
  else
    let first := space.heapNext
    let bytes := pages * page4K
    if 2 ^ 64 ≤ bytes ∨ 2 ^ 64 ≤ first + bytes then (none, space)
    else if userHeapEnd < first + bytes then (none, space)
    else (some first, { space with heapNext := first + bytes })

/-- Map fresh frames at `va`. -/
def mapAnonAt (space : AddressSpace) (va pages : ℕ) (p : Phys A) : Bool × Phys A :=
  forPages (fun i p =>
    let (frame, p) := space.mapFresh ((va + i * page4K) % 2 ^ 64) p
    (frame.isSome, p)) pages 0 p

/-- The words `fill` leaves in a frame, the segment's bytes being produced a page at a time: `none`
where it aborts the load. -/
abbrev Fill := ℕ → Option (Fin entries → ℕ)

/-- Overlay a frame with the words of a page. -/
def overlay (m : Mem) (frame : ℕ) (words : Fin entries → ℕ) : Mem :=
  fun addr => if h : frame ≤ addr ∧ addr < frame + 8 * entries then
    words ⟨(addr - frame) / 8, by omega⟩ else m addr

/-- The descriptor of a segment's page. -/
def segmentPage (flags frame : ℕ) : ℕ :=
  if flags &&& pfX ≠ 0 then userTextPage frame
  else if flags &&& pfW ≠ 0 then userDataPage frame
  else userRoPage frame

/-- One round of `mapSegmentWith`. -/
def mapSegmentPage (space : AddressSpace) (vaddr filesz flags : ℕ) (fill : Fill) (i : ℕ)
    (p : Phys A) : Bool × Phys A :=
  let va := (vaddr + i * page4K) % 2 ^ 64
  if !(decide (userBase ≤ va) && decide (va < userImageEnd)) then (false, p)
  else
    match allocTable p with
    | (none, p) => (false, p)
    | (some frame, p) =>
      let start := i * page4K
      match if start < filesz then (fill start).map (overlay p.mem frame) else some p.mem with
      | none => (false, freeFrame p frame)
      | some mem =>
        match space.mapPage va (segmentPage flags frame ||| swOwned) { p with mem } with
        | (false, p) => (false, freeFrame p frame)
        | (true, p) => (true, p)

/-- Load one segment, its bytes produced by `fill`. -/
def mapSegmentWith (space : AddressSpace) (vaddr filesz memsz flags : ℕ) (fill : Fill)
    (p : Phys A) : Bool × Phys A :=
  if vaddr % page4K ≠ 0 ∨ memsz < filesz then (false, p)
  else
    forPages (space.mapSegmentPage vaddr filesz flags fill) ((memsz + page4K - 1) / page4K) 0 p

/-- One page after another, at addresses and with descriptors that depend on which it is. -/
def mapRun (space : AddressSpace) (va desc : ℕ → ℕ) (pages : ℕ) (p : Phys A) : Bool × Phys A :=
  forPages (fun i p => space.mapPage (va i) (desc i) p) pages 0 p

/-- Map the frames of a shared-memory object at `base`. -/
def mapShared (space : AddressSpace) (base : ℕ) (frames : List ℕ) (p : Phys A) :
    Option ℕ × Phys A :=
  let (ok, p) := space.mapRun (fun i => (base + i * page4K) % 2 ^ 64)
    (fun i => userDataPage (frames.getD i 0)) frames.length p
  (if ok then some base else none, p)

/-- Map a physically contiguous buffer. -/
def mapDma (space : AddressSpace) (phys pages : ℕ) (p : Phys A) : Option ℕ × Phys A :=
  let (ok, p) := space.mapRun (fun i => userDmaVa + i * page4K)
    (fun i => userDmaPage ((phys + i * page4K) % 2 ^ 64)) pages p
  (if ok then some userDmaVa else none, p)

/-- Map the page of a device at `base`, and where the device is in it. -/
def mapDevice (space : AddressSpace) (base devPhys : ℕ) (p : Phys A) : Option ℕ × Phys A :=
  let pageOff := devPhys &&& (page4K - 1)
  let page := devPhys - pageOff
  match space.mapPage base (userDevicePage page) p with
  | (false, p) => (none, p)
  | (true, p) => (some (base + pageOff), p)

end AddressSpace

end

end StarOS
