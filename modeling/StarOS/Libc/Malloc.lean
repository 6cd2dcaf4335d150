import StarOS.Lib.Checked
import StarOS.Lib.FreeList
import StarOS.Lib.TwoWay
import StarOS.Lib.Bits
import StarOS.Libc.Primitives

/-!
# The heap of a process

`malloc` and its family, over whole pages that the kernel maps. Every block of every region stands
in a list with two links: a header, and behind it the payload. Allocation takes the first free block
with room, and cuts off what is left of it; a block that is freed is made one with its neighbours in
the list where they are free and touch it.

Headers and payloads are bytes of the same memory, and the program writes to its payloads as it
likes. Addresses are numbers, and null is zero. Sizes are of 64 bits, and a computation that leaves
them stops the code. What the page source answers is an argument of the calls that may ask it.

## Main definitions

* `Malloc.Heap` — the memory, the ends of the list, the counters, and the regions mapped
* `Malloc.allocAligned`, `Malloc.free`, `Malloc.realloc`, `Malloc.calloc`
* `Malloc.Shows` — what the code has made of the headers so far

## Main results

* `Malloc.Shows.write` — what writing one header leaves of the others, from which the rules for each
  field follow
-/

namespace StarOS

namespace Malloc

open Checked

/-- `ALIGN`, and `HEADER`, a multiple of it. -/
def minAlign : ℕ := 16

def header : ℕ := 32

/-- What is asked for when the list cannot satisfy a request. -/
def growBytes : ℕ := 64 * 1024

/-- `KernelPages::page_size` -/
def pageSize : ℕ := 4096

structure Heap where
  memory : ByteMemory
  /-- The regions the source has mapped. -/
  source : List Block
  head : ℕ
  tail : ℕ
  liveBytes : ℕ
  liveBlocks : ℕ

/-- Nothing gives up: a call that cannot answer returns null. -/
abbrev Code := Checked Heap Empty

namespace Heap

variable (h : Heap)

/-! The four fields of a `Block`, the last a byte. -/

def size (block : ℕ) : ℕ := (h.memory.readDouble block).toNat

def prev (block : ℕ) : ℕ := (h.memory.readDouble (block + 8)).toNat

def next (block : ℕ) : ℕ := (h.memory.readDouble (block + 16)).toNat

def isFree (block : ℕ) : Bool := h.memory (block + 24) != 0

def setSize (block n : ℕ) : Heap := { h with memory := h.memory.writeDouble block (.ofNat 64 n) }

def setPrev (block p : ℕ) : Heap :=
  { h with memory := h.memory.writeDouble (block + 8) (.ofNat 64 p) }

def setNext (block n : ℕ) : Heap :=
  { h with memory := h.memory.writeDouble (block + 16) (.ofNat 64 n) }

def setFree (block : ℕ) (b : Bool) : Heap :=
  { h with memory := Function.update h.memory (block + 24) (if b then 1 else 0) }

/-- What comes before a block, or the last block where there is none, and the other way round. -/
def setPrevOrTail (block p : ℕ) : Heap :=
  if block ≠ 0 then h.setPrev block p else { h with tail := p }

def setNextOrHead (block n : ℕ) : Heap :=
  if block = 0 then { h with head := n } else h.setNext block n

end Heap

/-- `round_up` -/
def roundUp (value multiple : ℕ) : Code ℕ := do
  let q ← divCeil 64 value multiple
  mul 64 q multiple

/-- The loop of `find_free`. -/
def findFrom (size : ℕ) : ℕ → ℕ → Code ℕ :=
  loop fun block => do
    let h ← get
    if block = 0 then return .inr 0
    else if h.isFree block ∧ size ≤ h.size block then return .inr block
    else return .inl (h.next block)

/-- There are fewer blocks than addresses. -/
def findFree (size : ℕ) : Code ℕ := do
  let h ← get
  findFrom size (2 ^ 64) h.head

def split (block firstSize : ℕ) : Code ℕ := do
  let h ← get
  let rest ← sub (h.size block) firstSize
  let rest ← sub rest header
  let second := block + header + firstSize
  modify fun h => h.setSize second rest
  modify fun h => h.setFree second true
  modify fun h => h.setPrev second block
  modify fun h => h.setNext second (h.next block)
  modify fun h => h.setPrevOrTail (h.next block) second
  modify fun h => h.setSize block firstSize
  modify fun h => h.setNext block second
  return second

def take (block want : ℕ) : Code Unit := do
  let h ← get
  let room ← add 64 want header
  let room ← add 64 room minAlign
  let _ ← if room ≤ h.size block then split block want else pure block
  modify fun h => h.setFree block false
  let h ← get
  let liveBytes ← add 64 h.liveBytes (h.size block)
  let liveBlocks ← add 64 h.liveBlocks 1
  modify fun h => { h with liveBytes, liveBlocks }

/-- Do these two blocks touch? -/
def Heap.adjacent (h : Heap) (first second : ℕ) : Prop := first + header + h.size first = second

instance (h : Heap) (first second : ℕ) : Decidable (h.adjacent first second) :=
  inferInstanceAs (Decidable (_ = _))

/-- `first` is made to hold `second`, which comes behind it. -/
def absorb (first second : ℕ) : Code Unit := do
  let h ← get
  let more ← add 64 header (h.size second)
  let size ← add 64 (h.size first) more
  modify fun h => h.setSize first size
  modify fun h => h.setNext first (h.next second)
  modify fun h => h.setPrevOrTail (h.next second) first

/-- One half of `coalesce`, where `neighbour` is the other of the two. -/
def merge (neighbour first second : ℕ) : Code Unit := do
  let h ← get
  if neighbour ≠ 0 ∧ h.isFree neighbour ∧ h.adjacent first second then absorb first second

def coalesce (block : ℕ) : Code Unit := do
  let h ← get
  let next := h.next block
  merge next block next
  let h ← get
  let prev := h.prev block
  merge prev prev block

/-- `Pages::map`: the source answers with the start of a region of `bytes`, or refuses. -/
def map (answer : ℕ → Option ℕ) (bytes : ℕ) : Code (Option ℕ) := do
  match answer bytes with
  | some base =>
    modify fun h => { h with source := h.source ++ [⟨base, bytes⟩] }
    return some base
  | none => return none

/-- A region is appended as one free block. -/
def grow (answer : ℕ → Option ℕ) (need : ℕ) : Code Bool := do
  let bytes ← roundUp (max need growBytes) pageSize
  match ← map answer bytes with
  | none => return false
  | some block =>
    let size ← sub bytes header
    modify fun h => h.setSize block size
    modify fun h => h.setFree block true
    modify fun h => h.setPrev block h.tail
    modify fun h => h.setNext block 0
    modify fun h => h.setNextOrHead h.tail block
    modify fun h => { h with tail := block }
    return true

/-- The first half of `alloc_aligned`: a free block with room, for which the source may be asked. -/
def findOrGrow (answer : ℕ → Option ℕ) (need : ℕ) : Code ℕ := do
  let block ← findFree need
  if block ≠ 0 then return block
  let room ← add 64 need header
  if ← grow answer room then findFree need else return 0

/-- The second half: the block is cut where its payload is aligned, and taken. -/
def takeAligned (block size align : ℕ) : Code ℕ := do
  let payload := block + header
  let aligned ← roundUp payload align
  if aligned ≠ payload then
    let gap ← sub aligned payload
    let gap ← sub gap header
    let block ← split block gap
    take block size
    return block + header
  else
    take block size
    return payload

/-- Room in front for a block of its own, where the payload may have to move. -/
def leading (align : ℕ) : Code ℕ :=
  if minAlign < align then add 64 align header else return 0

/-- `alloc_aligned`, of a size that is not zero. -/
def allocBlock (answer : ℕ → Option ℕ) (size align : ℕ) : Code ℕ := do
  let align := max align minAlign
  let size ← roundUp size minAlign
  let gap ← leading align
  let need ← add 64 size gap
  let block ← findOrGrow answer need
  if block = 0 then return 0
  takeAligned block size align

def allocAligned (answer : ℕ → Option ℕ) (size align : ℕ) : Code ℕ :=
  if size = 0 then allocBlock answer 1 align else allocBlock answer size align

def alloc (answer : ℕ → Option ℕ) (size : ℕ) : Code ℕ := allocAligned answer size minAlign

/-- The exported `aligned_alloc`. -/
def alignedAlloc (answer : ℕ → Option ℕ) (align size : ℕ) : Code ℕ := do
  if ¬ align.isPowerOfTwo then return 0
  allocAligned answer size align

def free (ptr : ℕ) : Code Unit := do
  if ptr = 0 then return ()
  let block := ptr - header
  modify fun h => h.setFree block true
  let h ← get
  let liveBytes ← sub h.liveBytes (h.size block)
  let liveBlocks ← sub h.liveBlocks 1
  modify fun h => { h with liveBytes, liveBlocks }
  coalesce block

def realloc (answer : ℕ → Option ℕ) (ptr size : ℕ) : Code ℕ := do
  if ptr = 0 then return ← alloc answer size
  if size = 0 then
    free ptr
    return 0
  let h ← get
  let old := h.size (ptr - header)
  if size ≤ old then return ptr
  let new ← alloc answer size
  if new = 0 then return 0
  modify fun h => { h with memory := (Primitives.memcpy h.memory new ptr old).1 }
  free ptr
  return new

/-- The exported `calloc`: nothing where the product does not fit. -/
def calloc (answer : ℕ → Option ℕ) (count size : ℕ) : Code ℕ := do
  match checkedMul 64 count size with
  | none => return 0
  | some total =>
    let p ← alloc answer total
    if p ≠ 0 then
      modify fun h => { h with memory := (Primitives.memset h.memory p 0 total).1 }
    return p

/-! ### What the list is to its code -/

/-- The links of the blocks, null standing for both ends of the list, their sizes and their
flags. -/
structure Listing where
  links : TwoWay ℕ
  size : ℕ → ℕ
  isFree : ℕ → Bool

namespace Listing

variable (v : Listing)

def setSize (b n : ℕ) : Listing := { v with size := Function.update v.size b n }

def setFree (b : ℕ) (f : Bool) : Listing := { v with isFree := Function.update v.isFree b f }

def setPrev (b p : ℕ) : Listing := { v with links := v.links.setPrev b p }

def setNext (b n : ℕ) : Listing := { v with links := v.links.setNext b n }

variable (b n : ℕ) (f : Bool)

@[simp] theorem setSize_links : (v.setSize b n).links = v.links := rfl

@[simp] theorem setFree_links : (v.setFree b f).links = v.links := rfl

@[simp] theorem setPrev_links : (v.setPrev b n).links = v.links.setPrev b n := rfl

@[simp] theorem setNext_links : (v.setNext b n).links = v.links.setNext b n := rfl

end Listing

namespace Heap

def links (h : Heap) : TwoWay ℕ where
  next b := if b = 0 then h.head else h.next b
  prev b := if b = 0 then h.tail else h.prev b

def listing (h : Heap) : Listing := ⟨h.links, h.size, h.isFree⟩

@[simp] theorem listing_links (h : Heap) : h.listing.links = h.links := rfl

end Heap

/-- The headers of the blocks `S` share no byte, and none is at null. -/
structure Apart (S : List ℕ) : Prop where
  pos : ∀ b ∈ S, 0 < b
  apart : ∀ b ∈ S, ∀ c ∈ S, b ≠ c → b + header ≤ c ∨ c + header ≤ b

/-- In `h` the blocks of `S` are as `v` has them, and of `h₀` nothing has changed but their headers
and the ends of the list. -/
structure Shows (S : List ℕ) (h₀ h : Heap) (v : Listing) : Prop where
  next : ∀ b ∈ 0 :: S, h.links.next b = v.links.next b
  prev : ∀ b ∈ 0 :: S, h.links.prev b = v.links.prev b
  size : ∀ b ∈ S, h.size b = v.size b
  isFree : ∀ b ∈ S, h.isFree b = v.isFree b
  kept : ∀ i, (∀ b ∈ S, i < b ∨ b + header ≤ i) → h.memory i = h₀.memory i
  source : h.source = h₀.source
  liveBytes : h.liveBytes = h₀.liveBytes
  liveBlocks : h.liveBlocks = h₀.liveBlocks

variable {S : List ℕ} {h h₀ h' : Heap} {v v' : Listing} {b c n p : ℕ} {m : ByteMemory}

theorem Shows.refl (S : List ℕ) (h : Heap) : Shows S h h h.listing :=
  ⟨fun _ _ => rfl, fun _ _ => rfl, fun _ _ => rfl, fun _ _ => rfl, fun _ _ => rfl, rfl, rfl, rfl⟩

theorem Shows.next_eq (hS : Apart S) (hs : Shows S h₀ h v) (hb : b ∈ S) :
    h.next b = v.links.next b := by
  rw [← hs.next b (List.mem_cons_of_mem _ hb)]
  exact (if_neg (hS.pos b hb).ne').symm

/-- **One header is written.** What it holds then is all there is to show. -/
theorem Shows.write (hS : Apart S) (hs : Shows S h₀ h v) (hb : b ∈ S)
    (hout : ∀ i, i < b ∨ b + header ≤ i → m i = h.memory i)
    (hlinks : ∀ c ≠ b, v'.links.next c = v.links.next c ∧ v'.links.prev c = v.links.prev c)
    (hrest : ∀ c ≠ b, v'.size c = v.size c ∧ v'.isFree c = v.isFree c)
    (hnext : { h with memory := m }.next b = v'.links.next b)
    (hprev : { h with memory := m }.prev b = v'.links.prev b)
    (hsize : { h with memory := m }.size b = v'.size b)
    (hfree : { h with memory := m }.isFree b = v'.isFree b) :
    Shows S h₀ { h with memory := m } v' := by
  have hpos := hS.pos b hb
  have hother : ∀ c ∈ S, c ≠ b → ∀ i, c ≤ i → i < c + header → m i = h.memory i := by
    intro c hc hne i hci hic
    have happart := hS.apart c hc b hb hne
    exact hout i (by omega)
  have hdouble : ∀ c ∈ S, c ≠ b → ∀ o, o + 8 ≤ header →
      m.readDouble (c + o) = h.memory.readDouble (c + o) := fun c hc hne o ho =>
    ByteMemory.readDouble_congr fun i _ _ => hother c hc hne i (by omega) (by omega)
  refine ⟨fun c hc => ?_, fun c hc => ?_, fun c hc => ?_, fun c hc => ?_, fun i hi => ?_,
    hs.source, hs.liveBytes, hs.liveBlocks⟩
  · rcases eq_or_ne c b with rfl | hne
    · exact (if_neg hpos.ne').trans hnext
    · rw [(hlinks c hne).1, ← hs.next c hc]
      rcases List.mem_cons.mp hc with rfl | hc
      · rfl
      · have hword := hdouble c hc hne 16 (by decide)
        have hnull := (hS.pos c hc).ne'
        simp only [Heap.links, Heap.next, if_neg hnull, hword]
  · rcases eq_or_ne c b with rfl | hne
    · exact (if_neg hpos.ne').trans hprev
    · rw [(hlinks c hne).2, ← hs.prev c hc]
      rcases List.mem_cons.mp hc with rfl | hc
      · rfl
      · have hword := hdouble c hc hne 8 (by decide)
        have hnull := (hS.pos c hc).ne'
        simp only [Heap.links, Heap.prev, if_neg hnull, hword]
  · rcases eq_or_ne c b with rfl | hne
    · exact hsize
    · rw [(hrest c hne).1, ← hs.size c hc]
      have hword := hdouble c hc hne 0 (by decide)
      simp only [Heap.size]
      rw [show c = c + 0 from rfl, hword]
  · rcases eq_or_ne c b with rfl | hne
    · exact hfree
    · rw [(hrest c hne).2, ← hs.isFree c hc]
      have hbyte := hother c hc hne (c + 24) (by omega) (by simp [header])
      simp only [Heap.isFree, hbyte]
  · rw [← hs.kept i hi]
    exact hout i (hi b hb)

theorem Shows.prev_eq (hS : Apart S) (hs : Shows S h₀ h v) (hb : b ∈ S) :
    h.prev b = v.links.prev b := by
  rw [← hs.prev b (List.mem_cons_of_mem _ hb)]
  exact (if_neg (hS.pos b hb).ne').symm

theorem readDouble_writeDouble_of_disjoint {a : ℕ} {w : BitVec 64} (ha : b + 8 ≤ a ∨ a + 8 ≤ b) :
    (m.writeDouble a w).readDouble b = m.readDouble b :=
  ByteMemory.readDouble_congr fun _ _ _ => ByteMemory.writeDouble_of_outside (by omega)

section Fields

variable (hS : Apart S) (hs : Shows S h₀ h v) (hb : b ∈ S)
include hS hs hb

theorem Shows.setSize (hn : n < 2 ^ 64) : Shows S h₀ (h.setSize b n) (v.setSize b n) := by
  have hnext := hs.next_eq hS hb
  have hprev := hs.prev_eq hS hb
  refine hs.write hS hb (fun i hi => ByteMemory.writeDouble_of_outside ?_) (fun c hc => ⟨rfl, rfl⟩)
    (fun c hc => ⟨Function.update_of_ne hc .., rfl⟩) ?_ ?_ ?_ ?_
  · simp only [header] at hi
    omega
  · exact (congrArg _ (readDouble_writeDouble_of_disjoint (by omega))).trans hnext
  · exact (congrArg _ (readDouble_writeDouble_of_disjoint (by omega))).trans hprev
  · simpa [Heap.size, Listing.setSize, ByteMemory.readDouble_writeDouble] using hn
  · have hbyte := ByteMemory.writeDouble_of_outside (m := h.memory) (a := b) (i := b + 24)
      (w := .ofNat 64 n) (by omega)
    exact (congrArg (· != 0) hbyte).trans (hs.isFree b hb)

theorem Shows.setPrev (hp : p < 2 ^ 64) : Shows S h₀ (h.setPrev b p) (v.setPrev b p) := by
  have hnext := hs.next_eq hS hb
  refine hs.write hS hb (fun i hi => ByteMemory.writeDouble_of_outside ?_)
    (fun c hc => ⟨rfl, Function.update_of_ne hc ..⟩) (fun c hc => ⟨rfl, rfl⟩) ?_ ?_ ?_ ?_
  · simp only [header] at hi
    omega
  · exact (congrArg _ (readDouble_writeDouble_of_disjoint (by omega))).trans hnext
  · simpa [Heap.prev, Listing.setPrev, TwoWay.setPrev, ByteMemory.readDouble_writeDouble] using hp
  · exact (congrArg _ (readDouble_writeDouble_of_disjoint (by omega))).trans (hs.size b hb)
  · have hbyte := ByteMemory.writeDouble_of_outside (m := h.memory) (a := b + 8) (i := b + 24)
      (w := .ofNat 64 p) (by omega)
    exact (congrArg (· != 0) hbyte).trans (hs.isFree b hb)

theorem Shows.setNext (hn : n < 2 ^ 64) : Shows S h₀ (h.setNext b n) (v.setNext b n) := by
  have hprev := hs.prev_eq hS hb
  refine hs.write hS hb (fun i hi => ByteMemory.writeDouble_of_outside ?_)
    (fun c hc => ⟨Function.update_of_ne hc .., rfl⟩) (fun c hc => ⟨rfl, rfl⟩) ?_ ?_ ?_ ?_
  · simp only [header] at hi
    omega
  · simpa [Heap.next, Listing.setNext, TwoWay.setNext, ByteMemory.readDouble_writeDouble] using hn
  · exact (congrArg _ (readDouble_writeDouble_of_disjoint (by omega))).trans hprev
  · exact (congrArg _ (readDouble_writeDouble_of_disjoint (by omega))).trans (hs.size b hb)
  · have hbyte := ByteMemory.writeDouble_of_outside (m := h.memory) (a := b + 16) (i := b + 24)
      (w := .ofNat 64 n) (by omega)
    exact (congrArg (· != 0) hbyte).trans (hs.isFree b hb)

theorem Shows.setFree (f : Bool) : Shows S h₀ (h.setFree b f) (v.setFree b f) := by
  have hnext := hs.next_eq hS hb
  have hprev := hs.prev_eq hS hb
  have hword : ∀ o, o + 8 ≤ 24 → (h.setFree b f).memory.readDouble (b + o) =
      h.memory.readDouble (b + o) := by
    intro o ho
    refine ByteMemory.readDouble_congr fun i _ hi => Function.update_of_ne ?_ ..
    omega
  refine hs.write hS hb (fun i hi => Function.update_of_ne ?_ ..) (fun c hc => ⟨rfl, rfl⟩)
    (fun c hc => ⟨rfl, Function.update_of_ne hc ..⟩) ?_ ?_ ?_ ?_
  · simp only [header] at hi
    omega
  · exact (congrArg _ (hword 16 (by decide))).trans hnext
  · exact (congrArg _ (hword 8 (by decide))).trans hprev
  · exact (congrArg _ (hword 0 (by decide))).trans (hs.size b hb)
  · simp only [Heap.isFree, Listing.setFree, Function.update_self]
    cases f <;> rfl

end Fields

/-- The last link of a list is kept where the list is. -/
theorem Shows.setPrevOrTail (hS : Apart S) (hs : Shows S h₀ h v) (hb : b ∈ 0 :: S)
    (hp : p < 2 ^ 64) : Shows S h₀ (h.setPrevOrTail b p) (v.setPrev b p) := by
  rw [Heap.setPrevOrTail]
  split
  case isTrue hne => exact hs.setPrev hS ((List.mem_cons.mp hb).resolve_left hne) hp
  case isFalse heq =>
    obtain rfl : b = 0 := not_not.mp heq
    refine ⟨hs.next, fun c hc => ?_, hs.size, hs.isFree, hs.kept, hs.source, hs.liveBytes,
      hs.liveBlocks⟩
    rcases eq_or_ne c 0 with rfl | hc'
    · exact (Function.update_self (0 : ℕ) p v.links.prev).symm
    · rw [Listing.setPrev, TwoWay.setPrev_prev_of_ne hc', ← hs.prev c hc]
      simp only [Heap.links, if_neg hc', Heap.prev]

theorem Shows.setNextOrHead (hS : Apart S) (hs : Shows S h₀ h v) (hb : b ∈ 0 :: S)
    (hn : n < 2 ^ 64) : Shows S h₀ (h.setNextOrHead b n) (v.setNext b n) := by
  rw [Heap.setNextOrHead]
  split
  case isFalse hne => exact hs.setNext hS ((List.mem_cons.mp hb).resolve_left hne) hn
  case isTrue heq =>
    subst heq
    refine ⟨fun c hc => ?_, hs.prev, hs.size, hs.isFree, hs.kept, hs.source, hs.liveBytes,
      hs.liveBlocks⟩
    rcases eq_or_ne c 0 with rfl | hc'
    · exact (Function.update_self (0 : ℕ) n v.links.next).symm
    · have hsame : (v.links.setNext 0 n).next c = v.links.next c := Function.update_of_ne hc' ..
      rw [Listing.setNext, hsame, ← hs.next c hc]
      simp only [Heap.links, if_neg hc', Heap.next]

end Malloc

end StarOS
