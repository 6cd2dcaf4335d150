import Mathlib.Logic.Function.Basic
import StarOS.Abi
import StarOS.Lib.EventSystem
import StarOS.Lib.FreeList

/-!
# The frame allocator

Physical frames are handed out in runs of a power of two. A tree, kept in an array, records for
each node the largest run free below it, in a `u32`; node `i` has its halves at `2 * i + 1` and
`2 * i + 2`, and the frames themselves are the last level. Allocation walks down to a node of the
size asked for, release walks up from a leaf to the node that was handed out, and both then put
right what is recorded above.

What is recorded below a node that was handed out is left as it was.

## What is not here

A region lies in the address space, so the address of a frame never wraps; sums of addresses are
written without a modulus.

## Main definitions

* `BuddyFrameAllocator`, with `new`, `allocPages`, `freePages`
* `buddy` — any sequence of calls
-/

namespace StarOS

/-- Size of a base page or frame in bytes. -/
def pageSize : ℕ := 4096

/-- `n as u32` -/
def asU32 (n : ℕ) : ℕ := n % 2 ^ 32

/-- Largest power of two at most `n`, and 0 for 0. -/
def prevPowerOfTwo (n : ℕ) : ℕ := if n = 0 then 0 else 2 ^ n.log2

/-- `usize::next_power_of_two`, for a result that is a `usize`. -/
def nextPowerOfTwo (n : ℕ) : ℕ := if n ≤ 1 then 1 else 2 ^ ((n - 1).log2 + 1)

/-- `usize::is_power_of_two` -/
def isPowerOfTwo (n : ℕ) : Bool := decide (n ≠ 0) && decide (2 ^ n.log2 = n)

/-- A binary buddy frame allocator. -/
structure BuddyFrameAllocator where
  /-- Physical base address of frame 0. -/
  base : ℕ
  /-- Number of managed frames. -/
  frames : ℕ
  /-- Largest free run within each node's subtree. -/
  longest : ℕ → ℕ

namespace BuddyFrameAllocator

/-- `node_size` in the loop of `new`, when node `i` is pushed. -/
def nodeSizeAt (frames : ℕ) : ℕ → ℕ
  | 0 => 2 * frames / 2
  | i + 1 => if isPowerOfTwo (i + 2) then nodeSizeAt frames i / 2 else nodeSizeAt frames i

/-- Build an allocator over `[start, start + len)`, `reserve` being whether the heap has room for
an array of that many nodes. -/
def new (reserve : ℕ → Bool) (start len : ℕ) : Except KError BuddyFrameAllocator :=
  if start % pageSize ≠ 0 then .error .invalidArgument
  else
    let frames := prevPowerOfTwo (len / pageSize)
    if frames = 0 then .error .invalidArgument
    else
      let nodes := 2 * frames - 1
      if !reserve nodes then .error .outOfResources
      else .ok ⟨start, frames, fun i => if i < nodes then asU32 (nodeSizeAt frames i) else 0⟩

/-- How many times the whole can be halved. Each loop below goes around at most that often. -/
def levels (b : BuddyFrameAllocator) : ℕ := b.frames.log2

/-- The longest run of contiguous free frames. -/
def largestFreeRun (b : BuddyFrameAllocator) : ℕ := b.longest 0

/-- The walk down of `alloc_pages`, to a node of exactly `size`, by the tighter child that fits. -/
def descend (longest : ℕ → ℕ) (size : ℕ) : ℕ → ℕ → ℕ → ℕ × ℕ
  | 0, index, nodeSize => (index, nodeSize)
  | fuel + 1, index, nodeSize =>
    if nodeSize = size then (index, nodeSize)
    else
      let left := 2 * index + 1
      let right := 2 * index + 2
      let lfit := decide (size ≤ longest left)
      let rfit := decide (size ≤ longest right)
      let index := if lfit && (!rfit || decide (longest left ≤ longest right)) then left else right
      descend longest size fuel index (nodeSize / 2)

/-- The walk up that both end with: what is recorded at each node on the way, from the size of the
node and what is recorded at its halves. -/
def ascend (merge : ℕ → ℕ → ℕ → ℕ) : ℕ → (ℕ → ℕ) → ℕ → ℕ → ℕ → ℕ
  | 0, longest, _, _ => longest
  | fuel + 1, longest, index, nodeSize =>
    if index = 0 then longest
    else
      let index := (index - 1) / 2
      let nodeSize := 2 * nodeSize
      let left := longest (2 * index + 1)
      let right := longest (2 * index + 2)
      ascend merge fuel (Function.update longest index (merge nodeSize left right)) index nodeSize

/-- What `alloc_pages` records at a node. -/
def narrow (_nodeSize left right : ℕ) : ℕ := max left right

/-- What `free_pages` records at a node. -/
def merge (nodeSize left right : ℕ) : ℕ :=
  if left + right = nodeSize then asU32 nodeSize else asU32 (max left right)

/-- Allocate a run of `count` contiguous frames, rounded up to a power of two. -/
def allocPages (b : BuddyFrameAllocator) (count : ℕ) : Option ℕ × BuddyFrameAllocator :=
  let size := nextPowerOfTwo (max count 1)
  if b.longest 0 < size then (none, b)
  else
    let (index, nodeSize) := descend b.longest size b.levels 0 b.frames
    let offset := (index + 1) * nodeSize - b.frames
    let longest := ascend narrow b.levels (Function.update b.longest index 0) index nodeSize
    (some (b.base + offset * pageSize), { b with longest })

/-- The climb of `free_pages`, from a leaf to the node that was handed out. -/
def climb (longest : ℕ → ℕ) : ℕ → ℕ → ℕ → Option (ℕ × ℕ)
  | 0, _, _ => none
  | fuel + 1, index, nodeSize =>
    if longest index = 0 then some (index, nodeSize)
    else if index = 0 then none
    else climb longest fuel ((index - 1) / 2) (2 * nodeSize)

/-- Free a block: the one the frame at this address is in. -/
def freePages (b : BuddyFrameAllocator) (frame : ℕ) : BuddyFrameAllocator :=
  if frame < b.base then b
  else
    let offset := (frame - b.base) / pageSize
    if b.frames ≤ offset then b
    else
      match climb b.longest (b.levels + 1) (offset + b.frames - 1) 1 with
      | none => b
      | some (index, nodeSize) =>
        let longest := Function.update b.longest index (asU32 nodeSize)
        { b with longest := ascend merge b.levels longest index nodeSize }

end BuddyFrameAllocator

/-! ### Any sequence of calls -/

/-- The allocator, and the blocks handed out and not yet given back: the first frame of each, and
how many there are. -/
structure BuddyState where
  alloc : BuddyFrameAllocator
  live : List Block

inductive BuddyEvent
  | alloc (count : ℕ)
  /-- Of any address at all. -/
  | free (frame : ℕ)
  deriving DecidableEq, Repr

namespace BuddyState

/-- Whether an address is one of a block's. -/
def names (s : BuddyState) (frame : ℕ) (b : Block) : Bool :=
  decide (s.alloc.base ≤ frame) && decide (b.addr ≤ (frame - s.alloc.base) / pageSize) &&
    decide ((frame - s.alloc.base) / pageSize < b.limit)

/-- The effect of a call. A count whose next power of two is not a `usize` is not a call. -/
def next (s : BuddyState) : BuddyEvent → Option BuddyState
  | .alloc count =>
    if count ≤ 2 ^ 63 then
      some <| match s.alloc.allocPages count with
        | (some frame, alloc) =>
          ⟨alloc, ⟨(frame - s.alloc.base) / pageSize, nextPowerOfTwo (max count 1)⟩ :: s.live⟩
        | (none, alloc) => ⟨alloc, s.live⟩
    else none
  | .free frame => some ⟨s.alloc.freePages frame, s.live.filter fun b => !s.names frame b⟩

/-- A run of frames that a request of `size` frames may be given. -/
structure FreeRun (s : BuddyState) (size p : ℕ) : Prop where
  aligned : size ∣ p
  limit : p + size ≤ s.alloc.frames
  free : ∀ x, p ≤ x → x < p + size → ¬ Block.Cover s.live x

end BuddyState

/-- An allocator in use. -/
def buddy (b : BuddyFrameAllocator) : EventSystem BuddyState BuddyEvent where
  init s := s = ⟨b, []⟩
  next := BuddyState.next

/-! ### Powers of two -/

theorem prevPowerOfTwo_eq {n : ℕ} (hn : n ≠ 0) : prevPowerOfTwo n = 2 ^ n.log2 := if_neg hn

/-- The power of two a request is rounded up to. -/
theorem nextPowerOfTwo_spec (n : ℕ) :
    ∃ k, nextPowerOfTwo n = 2 ^ k ∧ n ≤ 2 ^ k ∧ ∀ j, n ≤ 2 ^ j → k ≤ j := by
  rw [nextPowerOfTwo]
  split
  · next h => exact ⟨0, rfl, h, fun _ _ => Nat.zero_le _⟩
  · next h =>
    have hne : n - 1 ≠ 0 := by omega
    have hlt : n - 1 < 2 ^ ((n - 1).log2 + 1) := Nat.lt_log2_self
    refine ⟨_, rfl, by omega, fun j hj => ?_⟩
    have hj : n - 1 < 2 ^ j := by omega
    exact (Nat.log2_lt hne).mpr hj

theorem isPowerOfTwo_eq_true {n : ℕ} : isPowerOfTwo n = true ↔ ∃ k, n = 2 ^ k := by
  rw [isPowerOfTwo, Bool.and_eq_true, decide_eq_true_eq, decide_eq_true_eq]
  constructor
  · rintro ⟨-, h⟩
    exact ⟨_, h.symm⟩
  · rintro ⟨k, rfl⟩
    exact ⟨(Nat.two_pow_pos k).ne', by rw [Nat.log2_two_pow]⟩

/-- The level of the next node is the same, unless it is the first of its level. -/
theorem log2_succ (n : ℕ) (hn : n ≠ 0) :
    (n + 1).log2 = if isPowerOfTwo (n + 1) then n.log2 + 1 else n.log2 := by
  have hlow := Nat.log2_self_le hn
  have hhigh : n < 2 ^ (n.log2 + 1) := Nat.lt_log2_self
  split
  · next h =>
    obtain ⟨k, hk⟩ := isPowerOfTwo_eq_true.mp h
    have hpow : n + 1 ≤ 2 ^ (n.log2 + 1) := hhigh
    have hgt : 2 ^ n.log2 < 2 ^ k := by omega
    have hle : 2 ^ k ≤ 2 ^ (n.log2 + 1) := by omega
    have h₁ := (Nat.pow_lt_pow_iff_right (a := 2) (by decide)).mp hgt
    have h₂ := (Nat.pow_le_pow_iff_right (a := 2) (by decide)).mp hle
    rw [hk, Nat.log2_two_pow]
    omega
  · next h =>
    refine (Nat.log2_eq_iff (by omega)).mpr ⟨by omega, ?_⟩
    refine Nat.lt_of_le_of_ne hhigh fun heq => h (isPowerOfTwo_eq_true.mpr ⟨_, heq⟩)

namespace BuddyFrameAllocator

/-- Each node starts as the size of its level. -/
theorem nodeSizeAt_eq (frames i : ℕ) : nodeSizeAt frames i = frames / 2 ^ (i + 1).log2 := by
  induction i with
  | zero =>
    rw [show Nat.log2 (0 + 1) = 0 by decide, nodeSizeAt, Nat.pow_zero, Nat.div_one]
    exact Nat.mul_div_cancel_left frames (by decide)
  | succ i ih =>
    rw [nodeSizeAt, ih, log2_succ (i + 1) (Nat.succ_ne_zero i)]
    split
    · rw [Nat.pow_succ, Nat.div_div_eq_div_mul]
    · rfl

/-- What `new` answers when it succeeds. -/
theorem new_eq_ok {reserve : ℕ → Bool} {start len : ℕ} {b : BuddyFrameAllocator}
    (h : new reserve start len = .ok b) :
    len / pageSize ≠ 0 ∧ b.base = start ∧ b.frames = 2 ^ (len / pageSize).log2 ∧
      ∀ i, b.longest i =
        if i < 2 * b.frames - 1 then asU32 (b.frames / 2 ^ (i + 1).log2) else 0 := by
  dsimp only [new] at h
  split at h
  · cases h
  · split at h
    · cases h
    · next hframes =>
      split at h
      · cases h
      · have hne : len / pageSize ≠ 0 := by
          intro h0
          exact hframes (by rw [prevPowerOfTwo, if_pos h0])
        obtain rfl := Except.ok.inj h
        refine ⟨hne, rfl, prevPowerOfTwo_eq hne, fun i => ?_⟩
        simp only [nodeSizeAt_eq]

end BuddyFrameAllocator

end StarOS
