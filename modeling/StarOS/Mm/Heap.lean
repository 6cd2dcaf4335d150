import Mathlib.Data.List.TakeWhile
import StarOS.Lib.Bits
import StarOS.Lib.EventSystem
import StarOS.Lib.FreeList

/-!
# The kernel heap

A first-fit allocator over one region of memory. The free blocks, its holes, are linked in the
order of their addresses, each carrying its header in its own first bytes. Here the list is a
list.

Addresses are `usize`s and the arithmetic is that of the release build, which wraps. Where a sum
cannot leave the region it stays in, it is written without a modulus.

## Main definitions

* `Layout`, `Region` — what the callers promise
* `FreeListAllocator` with `alloc` and `dealloc`
* `heap` — any sequence of allocations and matching releases

## Main results

* `FreeListAllocator.fits_iff` — the test `alloc` makes of a hole is exact
* `heap_sound` — the invariant of the heap
-/

namespace StarOS

/-- What an allocation asks for. The two proofs are those `Layout` is built with. -/
structure Layout where
  size : ℕ
  align : ℕ
  pow : ∃ k, align = 2 ^ k
  /-- Rounded up to the alignment, the size does not exceed `isize::MAX`. -/
  fits : size + align ≤ 2 ^ 63
  deriving DecidableEq

/-- A free block: its header's address, and the whole block's length. -/
abbrev Hole := Block

/-- `size_of::<Hole>()` -/
def minBlock : ℕ := 16

/-- Memory the allocator may be handed. -/
structure Region extends Block where
  nonnull : 0 < addr
  aligned : minBlock ∣ addr
  granular : minBlock ∣ size
  room : minBlock ≤ size
  /-- An allocated object does not wrap around the end of the address space. -/
  fits : addr + size < 2 ^ 64

/-- Round `value` up to a multiple of `align`. -/
def alignUp (value align : ℕ) : ℕ := (value + align - 1) % 2 ^ 64 &&& (2 ^ 64 - 1 - (align - 1))

/-- The size of the block an allocation occupies. -/
def blockSize (layout : Layout) : ℕ := alignUp (max layout.size minBlock) minBlock

/-- An address-ordered free-list allocator. -/
structure FreeListAllocator where
  /-- The holes `head` leads to. -/
  holes : List Hole
  total : ℕ
  /-- Bytes handed out, in block sizes. -/
  used : ℕ
  peak : ℕ
  allocSteps : ℕ
  deallocSteps : ℕ
  calls : ℕ
  /-- How many allocations were refused. -/
  refused : ℕ
  deriving DecidableEq, Repr

namespace FreeListAllocator

/-- An allocator of no memory. -/
def new : FreeListAllocator := ⟨[], 0, 0, 0, 0, 0, 0, 0⟩

/-- Hand the allocator a region. -/
def init (a : FreeListAllocator) (r : Block) : FreeListAllocator :=
  { a with holes := [r], total := r.size }

/-- What is left in front of an allocation at `allocAddr`. -/
def frontPad (hole : Hole) (allocAddr : ℕ) : ℕ := (allocAddr + 2 ^ 64 - hole.addr) % 2 ^ 64

/-- The loop of `alloc`: how many holes it steps on, and if one of them fits, where the block is
and what becomes of the list. -/
def search (size align : ℕ) : List Hole → ℕ × Option (ℕ × List Hole)
  | [] => (0, none)
  | hole :: next =>
    let allocAddr := alignUp hole.addr align
    if (frontPad hole allocAddr + size) % 2 ^ 64 ≤ hole.size then
      let tailAddr := allocAddr + size
      let tailSize := hole.addr + hole.size - tailAddr
      let replacement := if 0 < tailSize then ⟨tailAddr, tailSize⟩ :: next else next
      let replacement :=
        if 0 < frontPad hole allocAddr then ⟨hole.addr, frontPad hole allocAddr⟩ :: replacement
        else replacement
      (1, some (allocAddr, replacement))
    else
      let (steps, found) := search size align next
      (steps + 1, found.map fun (addr, replacement) => (addr, hole :: replacement))

/-- Allocate for `layout`: first fit. -/
def alloc (a : FreeListAllocator) (layout : Layout) : Option ℕ × FreeListAllocator :=
  let size := blockSize layout
  let (steps, found) := search size (max layout.align minBlock) a.holes
  let a := { a with
    calls := (a.calls + 1) % 2 ^ 64
    allocSteps := (a.allocSteps + steps) % 2 ^ 64 }
  match found with
  | some (allocAddr, holes) =>
    (some allocAddr, { a with holes, used := a.used + size, peak := max a.peak (a.used + size) })
  | none => (none, { a with refused := a.refused + 1 })

/-- `hole` and its successors, the first merged into it if it follows immediately in memory. -/
def coalesce (hole : Hole) : List Hole → List Hole
  | [] => [hole]
  | next :: rest =>
    if hole.addr + hole.size = next.addr then ⟨hole.addr, hole.size + next.size⟩ :: rest
    else hole :: next :: rest

/-- Return the block at `addr`: behind the last hole below it, merged with its neighbours. -/
def dealloc (a : FreeListAllocator) (addr : ℕ) (layout : Layout) : FreeListAllocator :=
  let size := blockSize layout
  let below := a.holes.takeWhile fun hole => !decide (addr < hole.addr)
  let above := a.holes.dropWhile fun hole => !decide (addr < hole.addr)
  let node := coalesce ⟨addr, size⟩ above
  { a with
    holes := match below.getLast? with
      | some prev => below.dropLast ++ coalesce prev node
      | none => node
    used := a.used - size
    calls := (a.calls + 1) % 2 ^ 64
    deallocSteps := (a.deallocSteps + below.length + above.length.min 1) % 2 ^ 64 }

end FreeListAllocator

/-! ### Any sequence of calls -/

/-- The allocator, and what it has handed out and not got back. -/
structure HeapState where
  heap : FreeListAllocator
  live : List (ℕ × Layout)

inductive HeapEvent
  | alloc (layout : Layout)
  /-- With a pointer and the layout it was allocated with. -/
  | dealloc (addr : ℕ) (layout : Layout)

/-- The block an allocation occupies. -/
def liveBlock (b : ℕ × Layout) : Block := ⟨b.1, blockSize b.2⟩

namespace HeapState

/-- The effect of a call, if its caller may make it. -/
def next (s : HeapState) : HeapEvent → Option HeapState
  | .alloc layout =>
    let (ptr, heap) := s.heap.alloc layout
    some ⟨heap, (ptr.map (·, layout)).toList ++ s.live⟩
  | .dealloc addr layout =>
    if (addr, layout) ∈ s.live then
      some ⟨s.heap.dealloc addr layout, s.live.erase (addr, layout)⟩
    else none

end HeapState

/-- The heap over a region. -/
def heap (r : Region) : EventSystem HeapState HeapEvent where
  init s := s = ⟨FreeListAllocator.new.init r.toBlock, []⟩
  next := HeapState.next

/-! ### Rounding -/

section Rounding

variable {v k : ℕ}

theorem alignUp_eq (v : ℕ) (hk : k ≤ 64) :
    alignUp v (2 ^ k) = (v + 2 ^ k - 1) % 2 ^ 64 / 2 ^ k * 2 ^ k := by
  have hpos := Nat.two_pow_pos k
  have hmask : 2 ^ 64 - 1 - (2 ^ k - 1) = 2 ^ 64 - 2 ^ k := by omega
  rw [alignUp, hmask, Bits.and_not_low (Nat.mod_lt _ (Nat.two_pow_pos 64)) hk]

/-- Where the sum does not wrap, it is the least multiple at or above. -/
theorem alignUp_eq_of_lt (hk : k ≤ 64) (hv : v + 2 ^ k - 1 < 2 ^ 64) :
    alignUp v (2 ^ k) = (v + 2 ^ k - 1) / 2 ^ k * 2 ^ k := by
  rw [alignUp_eq v hk, Nat.mod_eq_of_lt hv]

/-- Where it wraps, there is no multiple at or above, and the answer is zero. -/
theorem alignUp_eq_zero (hk : k ≤ 63) (hv : v < 2 ^ 64) (hwrap : 2 ^ 64 ≤ v + 2 ^ k - 1) :
    alignUp v (2 ^ k) = 0 := by
  have hpow : (2 : ℕ) ^ k ≤ 2 ^ 63 := Nat.pow_le_pow_right (by decide) hk
  have hmod : (v + 2 ^ k - 1) % 2 ^ 64 < 2 ^ k := by omega
  rw [alignUp_eq v (by omega), Nat.div_eq_of_lt hmod, Nat.zero_mul]

/-- What `alloc` and `dealloc` both count. -/
theorem blockSize_spec (layout : Layout) :
    minBlock ∣ blockSize layout ∧ layout.size ≤ blockSize layout ∧ minBlock ≤ blockSize layout ∧
      blockSize layout ≤ 2 ^ 63 := by
  have hfits := layout.fits
  have hmin : minBlock = 2 ^ 4 := rfl
  have heq : blockSize layout = (max layout.size minBlock + 2 ^ 4 - 1) / 2 ^ 4 * 2 ^ 4 := by
    show alignUp (max layout.size minBlock) (2 ^ 4) = _
    exact alignUp_eq_of_lt (by decide) (by omega)
  obtain ⟨hdvd, hle, -⟩ := Bits.roundUp_spec (max layout.size minBlock) (m := 2 ^ 4) (by decide)
  have hmax : (max layout.size minBlock + 2 ^ 4 - 1) / 2 ^ 4 * 2 ^ 4 ≤ 2 ^ 63 :=
    Bits.roundUp_le (by decide) (by decide) (by omega)
  rw [heq]
  refine ⟨hdvd, ?_, ?_, hmax⟩ <;> omega

end Rounding

namespace FreeListAllocator

variable {a : FreeListAllocator} {layout : Layout} {hole : Hole} {holes holes' : List Hole}
  {r : Region} {addr : ℕ}

/-- A hole of the allocator: whole `minBlock`s, in the address space. -/
structure Granular (b : Block) : Prop where
  nonnull : 0 < b.addr
  aligned : minBlock ∣ b.addr
  granular : minBlock ∣ b.size
  fits : b.addr + b.size < 2 ^ 64

/-- The hole has room for the request, at an address the request may be given. -/
def Holds (hole : Hole) (layout : Layout) : Prop :=
  ∃ p, layout.align ∣ p ∧ hole.addr ≤ p ∧ p + blockSize layout ≤ hole.limit

/-- The alignment `alloc` works with. -/
theorem effective_align (layout : Layout) :
    ∃ k, k ≤ 63 ∧ max layout.align minBlock = 2 ^ k ∧ minBlock ∣ 2 ^ k ∧ layout.align ∣ 2 ^ k := by
  obtain ⟨k, hk⟩ := layout.pow
  have hfits := layout.fits
  have hk63 : k ≤ 63 := by
    by_contra hne
    have : (2 : ℕ) ^ 64 ≤ 2 ^ k := Nat.pow_le_pow_right (by decide) (by omega)
    omega
  have hmin : minBlock = 2 ^ 4 := rfl
  refine ⟨max k 4, by omega, ?_, ?_, ?_⟩
  · rw [hk, hmin]
    rcases Nat.le_total k 4 with h | h
    · rw [Nat.max_eq_right h, Nat.max_eq_right (Nat.pow_le_pow_right (by decide) h)]
    · rw [Nat.max_eq_left h, Nat.max_eq_left (Nat.pow_le_pow_right (by decide) h)]
  · rw [hmin]
    exact Nat.pow_dvd_pow 2 (Nat.le_max_right ..)
  · rw [hk]
    exact Nat.pow_dvd_pow 2 (Nat.le_max_left ..)

/-- Among the addresses a request may be given in a hole there is one aligned as `alloc` aligns. -/
theorem Holds.aligned {k : ℕ} (hg : Granular hole) (h : Holds hole layout)
    (hk : max layout.align minBlock = 2 ^ k) :
    ∃ p, 2 ^ k ∣ p ∧ hole.addr ≤ p ∧ p + blockSize layout ≤ hole.limit := by
  obtain ⟨p, hdvd, hle, hlim⟩ := h
  rw [← hk]
  rcases Nat.le_total minBlock layout.align with hmin | hmin
  · rw [Nat.max_eq_left hmin]
    exact ⟨p, hdvd, hle, hlim⟩
  · rw [Nat.max_eq_right hmin]
    obtain ⟨q, hq⟩ := hg.aligned
    refine ⟨p / minBlock * minBlock, Nat.dvd_mul_left _ _, ?_, ?_⟩
    · simp only [minBlock] at hq ⊢
      omega
    · have := Nat.div_mul_le_self p minBlock
      omega

/-- **The test `alloc` makes of a hole is exact**, and what it then hands out is aligned and lies
in the hole. -/
theorem fits_iff (hg : Granular hole) (layout : Layout) :
    let addr := alignUp hole.addr (max layout.align minBlock)
    ((frontPad hole addr + blockSize layout) % 2 ^ 64 ≤ hole.size ↔ Holds hole layout) ∧
      (Holds hole layout → layout.align ∣ addr ∧ minBlock ∣ addr ∧ hole.addr ≤ addr ∧
        addr + blockSize layout ≤ hole.limit ∧ frontPad hole addr = addr - hole.addr) := by
  intro addr
  obtain ⟨k, hk63, hk, hmin, hdvd⟩ := effective_align layout
  obtain ⟨-, -, hblock, hmax⟩ := blockSize_spec layout
  have hfits := hg.fits
  have hpow : (2 : ℕ) ^ k ≤ 2 ^ 63 := Nat.pow_le_pow_right (by decide) hk63
  have hpos := Nat.two_pow_pos k
  rcases Nat.lt_or_ge (hole.addr + 2 ^ k - 1) (2 ^ 64) with hlt | hwrap
  · have haddr : addr = (hole.addr + 2 ^ k - 1) / 2 ^ k * 2 ^ k := by
      rw [show addr = alignUp hole.addr (2 ^ k) by rw [← hk], alignUp_eq_of_lt (by omega) hlt]
    obtain ⟨hmul, hle, hstep⟩ := Bits.roundUp_spec hole.addr hpos
    rw [← haddr] at hmul hle hstep
    have hpad : frontPad hole addr = addr - hole.addr := by
      rw [frontPad]
      omega
    have hsum : (frontPad hole addr + blockSize layout) % 2 ^ 64 =
        addr - hole.addr + blockSize layout := by
      rw [hpad]
      exact Nat.mod_eq_of_lt (by omega)
    have hiff : (frontPad hole addr + blockSize layout) % 2 ^ 64 ≤ hole.size ↔
        Holds hole layout := by
      rw [hsum]
      constructor
      · intro h
        refine ⟨addr, hdvd.trans hmul, hle, ?_⟩
        rw [Block.limit]
        omega
      · intro h
        obtain ⟨p, hp, hpl, hplim⟩ := h.aligned hg hk
        have hleast := Bits.roundUp_le hpos hp hpl
        rw [← haddr] at hleast
        rw [Block.limit] at hplim
        omega
    refine ⟨hiff, fun h => ⟨hdvd.trans hmul, hmin.trans hmul, hle, ?_, hpad⟩⟩
    have h := hiff.mpr h
    rw [hsum] at h
    rw [Block.limit]
    omega
  · -- the hole is above the last multiple there is
    have haddr : addr = 0 := by
      rw [show addr = alignUp hole.addr (2 ^ k) by rw [← hk],
        alignUp_eq_zero hk63 (by omega) hwrap]
    have hnot : ¬ Holds hole layout := by
      intro h
      obtain ⟨p, ⟨q, rfl⟩, hpl, hplim⟩ := h.aligned hg hk
      rw [Block.limit] at hplim
      have h64 : (2 : ℕ) ^ 64 = 2 ^ k * 2 ^ (64 - k) := by
        rw [← Nat.pow_add, Nat.add_sub_cancel' (by omega)]
      have hq : q < 2 ^ (64 - k) := by
        by_contra hne
        have := Nat.mul_le_mul_left (2 ^ k) (Nat.le_of_not_lt hne)
        omega
      have := Nat.mul_le_mul_left (2 ^ k) (Nat.succ_le_of_lt hq)
      rw [Nat.mul_succ] at this
      omega
    refine ⟨⟨fun h => absurd h ?_, fun h => absurd h hnot⟩, fun h => absurd h hnot⟩
    have hnn := hg.nonnull
    rw [haddr, frontPad]
    omega

/-! ### Allocation -/

/-- What is left of a hole, as `alloc` writes it. -/
theorem replacement_eq {size : ℕ} {next : List Hole} (hpad : frontPad hole addr = addr - hole.addr) :
    (if 0 < frontPad hole addr then ⟨hole.addr, frontPad hole addr⟩ ::
        if 0 < hole.addr + hole.size - (addr + size) then
          (⟨addr + size, hole.addr + hole.size - (addr + size)⟩ : Hole) :: next else next
      else if 0 < hole.addr + hole.size - (addr + size) then
        ⟨addr + size, hole.addr + hole.size - (addr + size)⟩ :: next else next) =
      hole.without ⟨addr, size⟩ ++ next := by
  simp only [hpad, Block.without, Block.limit, Nat.sub_pos_iff_lt]
  by_cases hf : hole.addr < addr <;> by_cases ht : addr + size < hole.addr + hole.size <;>
    simp [hf, ht]

/-- What `alloc` finds: the first hole that can hold the request, and what it leaves of it. -/
theorem search_eq_some (hg : ∀ h ∈ holes, Granular h) {steps : ℕ}
    (h : search (blockSize layout) (max layout.align minBlock) holes = (steps, some (addr, holes'))) :
    ∃ l₁ hole l₂, holes = l₁ ++ hole :: l₂ ∧ Holds hole layout ∧
      addr = alignUp hole.addr (max layout.align minBlock) ∧
      holes' = l₁ ++ (hole.without ⟨addr, blockSize layout⟩ ++ l₂) := by
  induction holes generalizing steps holes' with
  | nil => simp [search] at h
  | cons hole next ih =>
    rw [search] at h
    split at h
    · next hfit =>
      simp only [Prod.mk.injEq, Option.some.injEq] at h
      obtain ⟨-, rfl, rfl⟩ := h
      obtain ⟨hiff, hspec⟩ := fits_iff (hg hole List.mem_cons_self) layout
      have hfit := hiff.mp hfit
      obtain ⟨-, -, -, -, hpad⟩ := hspec hfit
      exact ⟨[], hole, next, rfl, hfit, rfl, replacement_eq hpad⟩
    · simp only [Prod.mk.injEq, Option.map_eq_some_iff, Prod.exists] at h
      obtain ⟨-, addr', holes'', hfound, rfl, rfl⟩ := h
      obtain ⟨l₁, hole', l₂, rfl, hfit, haddr, rfl⟩ := ih
        (fun h hh => hg h (List.mem_cons_of_mem _ hh)) (Prod.ext rfl hfound)
      exact ⟨hole :: l₁, hole', l₂, rfl, hfit, haddr, rfl⟩

/-- It gives up only when no hole can hold the request. -/
theorem search_eq_none (hg : ∀ h ∈ holes, Granular h)
    (h : (search (blockSize layout) (max layout.align minBlock) holes).2 = none) :
    ∀ hole ∈ holes, ¬ Holds hole layout := by
  induction holes with
  | nil => simp
  | cons hole next ih =>
    rw [search] at h
    split at h
    · simp at h
    · next hfit =>
      simp only [Option.map_eq_none_iff] at h
      intro hole' hmem
      obtain rfl | hmem := List.mem_cons.mp hmem
      · exact fun hh => hfit ((fits_iff (hg _ List.mem_cons_self) layout).1.mpr hh)
      · exact ih (fun h hh => hg h (List.mem_cons_of_mem _ hh)) h hole' hmem

/-- `alloc` refuses exactly when the loop finds nothing. -/
theorem alloc_eq_none (h : (a.alloc layout).1 = none) :
    (search (blockSize layout) (max layout.align minBlock) a.holes).2 = none := by
  rw [alloc] at h
  generalize search (blockSize layout) (max layout.align minBlock) a.holes = found at h ⊢
  obtain ⟨steps, _ | found⟩ := found
  · rfl
  · cases h

/-! ### The invariant -/

theorem coalesce_eq (hole : Hole) (next : List Hole) : coalesce hole next = hole.glue next := by
  cases next <;> rfl

/-- The holes and the live blocks divide the region, and the numbers say so. -/
structure Sound (r : Region) (a : FreeListAllocator) (live : List (ℕ × Layout)) : Prop where
  arena : Arena r.toBlock a.holes (live.map liveBlock)
  granular : ∀ hole ∈ a.holes, Granular hole
  aligned : ∀ b ∈ live, b.2.align ∣ b.1 ∧ minBlock ∣ b.1
  total : a.total = r.size
  used : a.used = Block.room (live.map liveBlock)

variable {live : List (ℕ × Layout)}

theorem sound_init (r : Region) : Sound r (new.init r.toBlock) [] where
  arena := Arena.init (Nat.lt_of_lt_of_le (by decide) r.room)
  granular hole h := by
    obtain rfl := List.mem_singleton.mp h
    exact ⟨r.nonnull, r.aligned, r.granular, r.fits⟩
  aligned := by simp
  total := rfl
  used := rfl

/-- A block within the region is in the address space. -/
theorem granular_of_sub (r : Region) {b : Block} (hlow : r.addr ≤ b.addr) (hhigh : b.limit ≤ r.limit)
    (haddr : minBlock ∣ b.addr) (hsize : minBlock ∣ b.size) : Granular b where
  nonnull := Nat.lt_of_lt_of_le r.nonnull hlow
  aligned := haddr
  granular := hsize
  fits := Nat.lt_of_le_of_lt hhigh r.fits

/-- A piece of a granular hole around a granular block is granular. -/
theorem granular_without {b c : Block} (hg : Granular hole) (hb : minBlock ∣ b.addr)
    (hs : minBlock ∣ b.size) (hc : c ∈ hole.without b) : minBlock ∣ c.addr ∧ minBlock ∣ c.size := by
  have hlimit : minBlock ∣ b.limit := Nat.dvd_add hb hs
  obtain ⟨rfl, -⟩ | ⟨rfl, -⟩ := Block.mem_without hc
  · exact ⟨hg.aligned, Nat.dvd_sub hb hg.aligned⟩
  · exact ⟨hlimit, Nat.dvd_sub (Nat.dvd_add hg.aligned hg.granular) hlimit⟩

theorem Sound.alloc (h : Sound r a live) (layout : Layout) :
    Sound r (a.alloc layout).2 (((a.alloc layout).1.map (·, layout)).toList ++ live) := by
  rw [FreeListAllocator.alloc]
  generalize hsearch : search (blockSize layout) (max layout.align minBlock) a.holes = found
  obtain ⟨steps, _ | ⟨addr, holes'⟩⟩ := found
  · exact ⟨h.arena, h.granular, h.aligned, h.total, h.used⟩
  · obtain ⟨l₁, hole, l₂, hholes, hfit, haddr, rfl⟩ := search_eq_some h.granular hsearch
    have hmem : hole ∈ a.holes := by simp [hholes]
    have hg := h.granular hole hmem
    obtain ⟨hdvd, hmin, hle, hlim, -⟩ := (fits_iff hg layout).2 hfit
    rw [← haddr] at hdvd hmin hle hlim
    obtain ⟨hbdvd, -, hblock, -⟩ := blockSize_spec layout
    have harena : Arena r.toBlock (l₁ ++ (hole.without ⟨addr, blockSize layout⟩ ++ l₂))
        (liveBlock (addr, layout) :: live.map liveBlock) :=
      (hholes ▸ h.arena).carve (b := ⟨addr, blockSize layout⟩)
        (Nat.lt_of_lt_of_le (by decide) hblock) ⟨hle, hlim⟩
    constructor
    · exact harena
    · intro c hc
      obtain ⟨hlow, hhigh⟩ := harena.subset_of_mem_free hc
      have hold : c ∈ l₁ ∨ c ∈ l₂ → Granular c := fun hc => h.granular c (by
        rw [hholes, List.mem_append, List.mem_cons]
        tauto)
      obtain hc | hc := List.mem_append.mp hc
      · exact hold (.inl hc)
      · obtain hc | hc := List.mem_append.mp hc
        · obtain ⟨ha, hs⟩ := granular_without hg hmin hbdvd hc
          exact granular_of_sub r hlow hhigh ha hs
        · exact hold (.inr hc)
    · intro b hb
      obtain rfl | hb := List.mem_cons.mp hb
      · exact ⟨hdvd, hmin⟩
      · exact h.aligned b hb
    · exact h.total
    · show a.used + blockSize layout = Block.room (liveBlock (addr, layout) :: live.map liveBlock)
      rw [h.used, Block.room_cons]
      exact Nat.add_comm _ _

/-! ### Release -/

/-- The holes `dealloc` walks past. -/
def below (a : FreeListAllocator) (addr : ℕ) : List Hole :=
  a.holes.takeWhile fun hole => !decide (addr < hole.addr)

/-- The holes it does not. -/
def above (a : FreeListAllocator) (addr : ℕ) : List Hole :=
  a.holes.dropWhile fun hole => !decide (addr < hole.addr)

theorem below_append_above (a : FreeListAllocator) (addr : ℕ) :
    a.below addr ++ a.above addr = a.holes := List.takeWhile_append_dropWhile

theorem le_of_mem_below (h : hole ∈ a.below addr) : hole.addr ≤ addr := by
  simpa using List.mem_takeWhile_imp h

/-- The list is in order, so past the first hole above the address all are. -/
theorem le_of_mem_above (hs : Block.Spaced holes)
    (h : hole ∈ holes.dropWhile fun hole => !decide (addr < hole.addr)) : addr ≤ hole.addr := by
  induction holes with
  | nil => cases h
  | cons first rest ih =>
    obtain ⟨-, hgap, hrest⟩ := Block.spaced_cons.mp hs
    rw [List.dropWhile_cons] at h
    split at h
    · exact ih hrest h
    · next hfirst =>
      have hfirst : addr < first.addr := by simpa using hfirst
      obtain rfl | h := List.mem_cons.mp h
      · exact hfirst.le
      · have hgap := hgap hole h
        rw [Block.limit] at hgap
        omega

/-- What becomes of the list. -/
theorem holes_dealloc (a : FreeListAllocator) (addr : ℕ) (layout : Layout) :
    let node : Block := ⟨addr, blockSize layout⟩
    a.below addr = [] ∧ (a.dealloc addr layout).holes = node.glue (a.above addr) ∨
      ∃ l p, a.below addr = l ++ [p] ∧
        (a.dealloc addr layout).holes = l ++ p.glue (node.glue (a.above addr)) := by
  intro node
  have hholes : (a.dealloc addr layout).holes = match (a.below addr).getLast? with
      | some prev => (a.below addr).dropLast ++ coalesce prev (coalesce node (a.above addr))
      | none => coalesce node (a.above addr) := rfl
  simp only [hholes, coalesce_eq]
  cases hlast : (a.below addr).getLast? with
  | none => exact .inl ⟨List.getLast?_eq_none_iff.mp hlast, rfl⟩
  | some prev =>
    exact .inr ⟨_, prev, (List.dropLast_append_getLast? _ hlast).symm, rfl⟩

theorem Sound.dealloc (h : Sound r a live) (hmem : (addr, layout) ∈ live) :
    Sound r (a.dealloc addr layout) (live.erase (addr, layout)) := by
  have hperm := (List.perm_cons_erase hmem).map liveBlock
  obtain ⟨-, hmin⟩ := h.aligned _ hmem
  obtain ⟨hbdvd, -, -, -⟩ := blockSize_spec layout
  have hcases := holes_dealloc a addr layout
  have harena : Arena r.toBlock (a.dealloc addr layout).holes
      ((live.erase (addr, layout)).map liveBlock) := by
    have hsplit : Arena r.toBlock (a.below addr ++ a.above addr)
        (liveBlock (addr, layout) :: (live.erase (addr, layout)).map liveBlock) := by
      rw [below_append_above]
      exact h.arena.perm hperm
    exact hsplit.give (fun c => le_of_mem_below) (fun c => le_of_mem_above h.arena.spaced) hcases
  constructor
  · exact harena
  · intro c hc
    obtain ⟨hlow, hhigh⟩ := harena.subset_of_mem_free hc
    have hold : ∀ c, c ∈ a.below addr ∨ c ∈ a.above addr → minBlock ∣ c.addr ∧ minBlock ∣ c.size := by
      intro c hc
      have hg := h.granular c (by
        rw [← below_append_above a addr]
        exact List.mem_append.mpr hc)
      exact ⟨hg.aligned, hg.granular⟩
    have hnode : ∀ c ∈ (⟨addr, blockSize layout⟩ : Block).glue (a.above addr),
        minBlock ∣ c.addr ∧ minBlock ∣ c.size :=
      Block.forall_glue ⟨hmin, hbdvd⟩ (fun n hn => hold n (.inr hn))
        fun n hn => ⟨hmin, Nat.dvd_add hbdvd (hold n (.inr hn)).2⟩
    have hgran : minBlock ∣ c.addr ∧ minBlock ∣ c.size := by
      obtain ⟨-, heq⟩ | ⟨l, p, hbelow, heq⟩ := hcases
      · exact hnode c (heq ▸ hc)
      · have hp := hold p (.inl (by simp [hbelow]))
        rw [heq] at hc
        obtain hc | hc := List.mem_append.mp hc
        · exact hold c (.inl (by simp [hbelow, hc]))
        · exact Block.forall_glue (P := fun c => minBlock ∣ c.addr ∧ minBlock ∣ c.size) hp hnode
            (fun n hn => ⟨hp.1, Nat.dvd_add hp.2 (hnode n hn).2⟩) c hc
    exact granular_of_sub r hlow hhigh hgran.1 hgran.2
  · exact fun b hb => h.aligned b (List.mem_of_mem_erase hb)
  · exact h.total
  · have hroom : Block.room (live.map liveBlock) =
        Block.room (((addr, layout) :: live.erase (addr, layout)).map liveBlock) :=
      Block.room_perm hperm
    rw [List.map_cons, Block.room_cons] at hroom
    show a.used - blockSize layout = _
    rw [h.used, hroom]
    exact Nat.add_sub_cancel_left ..

end FreeListAllocator

open FreeListAllocator

/-- The invariant holds after any sequence of calls. -/
theorem sound_of_heap {r : Region} {s : HeapState} (h : (heap r).Reachable s) :
    Sound r s.heap s.live := by
  refine EventSystem.Reach.invariant (I := fun s => Sound r s.heap s.live) (fun s hs => ?_)
    (fun s e s' hi _ hn => ?_) h
  · rw [hs]
    exact sound_init r
  · cases e with
    | alloc layout =>
      rw [← Option.some.inj hn]
      exact hi.alloc layout
    | dealloc addr layout =>
      obtain ⟨hmem, hn⟩ := Option.ite_none_right_eq_some.mp hn
      rw [← Option.some.inj hn]
      exact hi.dealloc hmem

/-- **The heap loses nothing and hands nothing out twice.** After any sequence of allocations and
matching releases the holes are in the order of their addresses, no two of them touching, and each
is a positive multiple of `minBlock`; the bytes used and those of the holes add up to the region;
the live blocks lie in the region, aligned, clear of one another and of the holes; an allocation is
refused only when no hole can hold it; and with nothing live there is one hole, the region. -/
theorem heap_sound {r : Region} {s : HeapState} (h : (heap r).Reachable s) :
    (s.heap.holes.Pairwise (fun b c => b.limit < c.addr) ∧
      ∀ hole ∈ s.heap.holes, 0 < hole.size ∧ minBlock ∣ hole.size) ∧
    s.heap.used + Block.room s.heap.holes = s.heap.total ∧
    s.live.Pairwise (fun b c => (liveBlock b).Disjoint (liveBlock c)) ∧
    (∀ b ∈ s.live, b.2.align ∣ b.1 ∧ b.2.size ≤ (liveBlock b).size ∧
      (∀ x ∈ liveBlock b, x ∈ r.toBlock) ∧ ∀ hole ∈ s.heap.holes, (liveBlock b).Disjoint hole) ∧
    (∀ layout, (s.heap.alloc layout).1 = none → ∀ hole ∈ s.heap.holes, ¬ Holds hole layout) ∧
    (s.live = [] → s.heap.holes = [r.toBlock]) := by
  have hs := sound_of_heap h
  refine ⟨⟨hs.arena.spaced.apart, fun hole hh => ?_⟩, ?_, ?_, fun b hb => ?_, fun layout hnone => ?_,
    fun hnil => ?_⟩
  · exact ⟨hs.arena.spaced.pos hole hh, (hs.granular hole hh).granular⟩
  · rw [hs.used, hs.total]
    exact hs.arena.account
  · exact List.pairwise_map.mp hs.arena.apart
  · have hmem : liveBlock b ∈ s.live.map liveBlock := List.mem_map_of_mem hb
    refine ⟨(hs.aligned b hb).1, (blockSize_spec b.2).2.1, fun x hx => ?_, hs.arena.separate _ hmem⟩
    exact (hs.arena.cover x).mpr (.inr ⟨_, hmem, hx⟩)
  · exact search_eq_none hs.granular (alloc_eq_none hnone)
  · have harena := hs.arena
    rw [hnil] at harena
    exact harena.whole (Nat.lt_of_lt_of_le (by decide) r.room)

/-- A region of 4 KiB at 1 MiB. -/
def Region.sample : Region where
  addr := 0x100000
  size := 4096
  nonnull := by decide
  aligned := by decide
  granular := by decide
  room := by decide
  fits := by decide

/-- A hundred bytes, and sixty-four aligned to a kilobyte. -/
def Layout.samples : Layout × Layout :=
  (⟨100, 8, ⟨3, rfl⟩, by decide⟩, ⟨64, 1024, ⟨10, rfl⟩, by decide⟩)

/-- The two are taken and the first is given back: the heap is two holes around what is live. -/
theorem heap_sound_run : ∃ s,
    (heap .sample).run ⟨FreeListAllocator.new.init Region.sample.toBlock, []⟩
      [.alloc Layout.samples.1, .alloc Layout.samples.2,
        .dealloc 0x100000 Layout.samples.1] = some s ∧
      s.heap.holes = [⟨0x100000, 1024⟩, ⟨0x100440, 3008⟩] ∧
      s.heap.used + Block.room s.heap.holes = s.heap.total := by
  have hholes : ((heap .sample).run ⟨FreeListAllocator.new.init Region.sample.toBlock, []⟩
      [.alloc Layout.samples.1, .alloc Layout.samples.2,
        .dealloc 0x100000 Layout.samples.1]).map (fun s => s.heap.holes) =
      some [⟨0x100000, 1024⟩, ⟨0x100440, 3008⟩] := by decide
  obtain ⟨s, hrun, hholes⟩ := Option.map_eq_some_iff.mp hholes
  exact ⟨s, hrun, hholes, (heap_sound (.of_run _ rfl hrun)).2.1⟩

end StarOS
