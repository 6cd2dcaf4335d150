import StarOS.Mm.BuddyRun

/-!
# The frame pool

Memory that is neither contiguous nor a power of two is a list of trees. A run handed to the pool
is cut into the powers of two of its number of frames, the largest first, and each piece gets a
tree of its own. A request is answered by the first tree that can, and never out of two of them; a
block goes back to the tree that contains it.

The heap has to be large enough for the trees before they are built, so what they will take is
computed from the length alone, by a loop of its own.

## What is not here

As in the tree, a run lies in the address space, so no address wraps.

## Main definitions

* `FramePool`, with `metadataBytes`, `add`, `allocPages`, `freePages`, `coalescedFrames`
* `Laid` — trees one after another, covering a run from its start

## Main results

* `add_spec` — what `add` pushes, and what it answers
* `Laid.metadata`, `Laid.countP_contains` — the trees of a run take what was computed, and each
  frame of the run is in one of them
-/

namespace StarOS

/-- What the heap answers while a run is added. -/
structure HeapRoom where
  /-- Whether there is room for an array of that many nodes. -/
  nodes : ℕ → Bool
  /-- Whether there is room for one more tree beside that many. -/
  tree : ℕ → Bool

namespace BuddyFrameAllocator

/-- The first address past the region. -/
def limit (b : BuddyFrameAllocator) : ℕ := b.base + b.frames * pageSize

/-- Whether `frame` lies within this tree's range. -/
def contains (b : BuddyFrameAllocator) (frame : ℕ) : Bool :=
  decide (b.base ≤ frame) && decide (frame < b.limit)

/-- Bytes of heap the array of nodes occupies, four for each. -/
def nodeBytes (b : BuddyFrameAllocator) : ℕ := (2 * b.frames - 1) * 4

theorem contains_iff {b : BuddyFrameAllocator} {frame : ℕ} :
    b.contains frame = true ↔ b.base ≤ frame ∧ frame < b.limit := by
  rw [contains, Bool.and_eq_true, decide_eq_true_eq, decide_eq_true_eq]

end BuddyFrameAllocator

theorem prevPowerOfTwo_pos {n : ℕ} (hn : n ≠ 0) : 0 < prevPowerOfTwo n := by
  rw [prevPowerOfTwo_eq hn]
  exact Nat.two_pow_pos _

theorem prevPowerOfTwo_le (n : ℕ) : prevPowerOfTwo n ≤ n := by
  by_cases hn : n = 0
  · rw [prevPowerOfTwo, if_pos hn]
    exact Nat.zero_le n
  · rw [prevPowerOfTwo_eq hn]
    exact Nat.log2_self_le hn

/-- A piece is its own largest power of two. -/
theorem prevPowerOfTwo_piece (n : ℕ) :
    prevPowerOfTwo (prevPowerOfTwo n * pageSize / pageSize) = prevPowerOfTwo n := by
  rw [Nat.mul_div_cancel _ (by decide)]
  by_cases hn : n = 0
  · rw [hn]
    rfl
  · rw [prevPowerOfTwo_eq (prevPowerOfTwo_pos hn).ne', prevPowerOfTwo_eq hn, Nat.log2_two_pow]

/-- Every round of the two loops below leaves fewer frames. -/
theorem sub_prevPowerOfTwo_lt {n : ℕ} (hn : 0 < n) : n - prevPowerOfTwo n < n :=
  Nat.sub_lt hn (prevPowerOfTwo_pos (Nat.pos_iff_ne_zero.mp hn))

/-- A frame allocator over an arbitrary set of physical runs. -/
structure FramePool where
  /-- One tree for each power-of-two piece, in the order they were added. -/
  trees : List BuddyFrameAllocator

namespace FramePool

/-- An empty pool. -/
def new : FramePool := ⟨[]⟩

/-- The loop of `metadata_bytes`. -/
def countNodes (frames nodes : ℕ) : ℕ :=
  if _h : 0 < frames then
    let piece := prevPowerOfTwo frames
    countNodes (frames - piece) (nodes + (2 * piece - 1))
  else nodes
termination_by frames
decreasing_by exact sub_prevPowerOfTwo_lt _h

/-- Bytes of heap the trees for a run of `len` bytes will occupy. -/
def metadataBytes (len : ℕ) : ℕ := countNodes (len / pageSize) 0 * 4

/-- The loop of `add`. -/
def addPieces (room : HeapRoom) (start offset remaining added : ℕ)
    (trees : List BuddyFrameAllocator) : Except KError ℕ × FramePool :=
  if _h : 0 < remaining then
    let piece := prevPowerOfTwo remaining
    match BuddyFrameAllocator.new room.nodes (start + offset) (piece * pageSize) with
    | .error e => (.error e, ⟨trees⟩)
    | .ok tree =>
      if room.tree trees.length then
        addPieces room start (offset + piece * pageSize) (remaining - piece) (added + piece)
          (trees ++ [tree])
      else (.error .outOfResources, ⟨trees⟩)
  else (.ok added, ⟨trees⟩)
termination_by remaining
decreasing_by exact sub_prevPowerOfTwo_lt _h

/-- Add the run `[start, start + len)`, decomposed into power-of-two pieces. -/
def add (pool : FramePool) (room : HeapRoom) (start len : ℕ) : Except KError ℕ × FramePool :=
  if start % pageSize ≠ 0 then (.error .invalidArgument, pool)
  else addPieces room start 0 (len / pageSize) 0 pool.trees

/-- The sum over the trees. -/
def total (f : BuddyFrameAllocator → ℕ) : List BuddyFrameAllocator → ℕ
  | [] => 0
  | tree :: trees => f tree + total f trees

/-- Total frames under management. -/
def frames (pool : FramePool) : ℕ := total (·.frames) pool.trees

/-- The largest run any one tree can offer. -/
def largestFreeRun (pool : FramePool) : ℕ :=
  pool.trees.foldr (fun tree most => max tree.largestFreeRun most) 0

/-- Sum over trees of each tree's largest free run. -/
def coalescedFrames (pool : FramePool) : ℕ := total (·.largestFreeRun) pool.trees

/-- The search of `alloc_pages`: the first tree that answers. -/
def allocFirst (count : ℕ) : List BuddyFrameAllocator → Option ℕ × List BuddyFrameAllocator
  | [] => (none, [])
  | tree :: trees =>
    match tree.allocPages count with
    | (some frame, tree) => (some frame, tree :: trees)
    | (none, tree) =>
      let (answer, trees) := allocFirst count trees
      (answer, tree :: trees)

/-- Allocate `count` contiguous frames, from a single tree. -/
def allocPages (pool : FramePool) (count : ℕ) : Option ℕ × FramePool :=
  let (answer, trees) := allocFirst count pool.trees
  (answer, ⟨trees⟩)

/-- The search of `free_pages`: the first tree that contains the address. -/
def freeFirst (frame : ℕ) : List BuddyFrameAllocator → List BuddyFrameAllocator
  | [] => []
  | tree :: trees =>
    if tree.contains frame then tree.freePages frame :: trees else tree :: freeFirst frame trees

/-- Return a block to whichever tree owns it. -/
def freePages (pool : FramePool) (frame : ℕ) : FramePool := ⟨freeFirst frame pool.trees⟩

/-- One frame. -/
def allocate (pool : FramePool) : Option ℕ × FramePool := pool.allocPages 1

/-- One frame back. -/
def free (pool : FramePool) (frame : ℕ) : FramePool := pool.freePages frame

/-! ### Sums over the trees -/

variable {f g : BuddyFrameAllocator → ℕ} {ts ts₁ ts₂ : List BuddyFrameAllocator}

theorem total_congr (h : ∀ t ∈ ts, f t = g t) : total f ts = total g ts := by
  induction ts with
  | nil => rfl
  | cons t ts ih =>
    rw [total, total, h t List.mem_cons_self, ih fun t ht => h t (List.mem_cons_of_mem _ ht)]

theorem total_le (h : ∀ t ∈ ts, f t ≤ g t) : total f ts ≤ total g ts := by
  induction ts with
  | nil => exact Nat.le_refl 0
  | cons t ts ih =>
    exact Nat.add_le_add (h t List.mem_cons_self) (ih fun t ht => h t (List.mem_cons_of_mem _ ht))

/-- A sum reaches its bound exactly when every tree does. -/
theorem total_eq_iff (h : ∀ t ∈ ts, f t ≤ g t) :
    total f ts = total g ts ↔ ∀ t ∈ ts, f t = g t := by
  refine ⟨fun heq => ?_, total_congr⟩
  induction ts with
  | nil => exact fun t ht => absurd ht List.not_mem_nil
  | cons t ts ih =>
    have hhead := h t List.mem_cons_self
    have htail := fun t ht => h t (List.mem_cons_of_mem _ ht)
    have hle := total_le htail
    rw [total, total] at heq
    intro t' ht'
    rcases List.mem_cons.mp ht' with rfl | ht'
    · omega
    · exact ih htail (by omega) t' ht'

/-! ### The pieces of a run -/

/-- What is counted is added to what was counted before. -/
theorem countNodes_add (frames nodes : ℕ) :
    countNodes frames nodes = nodes + countNodes frames 0 := by
  induction frames using Nat.strong_induction_on generalizing nodes with
  | _ frames ih =>
    rw [countNodes]
    nth_rewrite 2 [countNodes]
    split
    · next h =>
      dsimp only
      rw [ih _ (sub_prevPowerOfTwo_lt h), ih _ (sub_prevPowerOfTwo_lt h) (0 + _)]
      omega
    · rfl

theorem countNodes_pos {frames : ℕ} (h : 0 < frames) : countNodes frames 0 =
    2 * prevPowerOfTwo frames - 1 + countNodes (frames - prevPowerOfTwo frames) 0 := by
  rw [countNodes, dif_pos h, countNodes_add, Nat.zero_add]

end FramePool

/-- Trees built one after another over `frames` frames from `start`, of which `left` are left. -/
inductive Laid (nodes : ℕ → Bool) : ℕ → ℕ → ℕ → List BuddyFrameAllocator → Prop
  | stop (start frames : ℕ) : Laid nodes start frames frames []
  | tree {start frames left : ℕ} {t : BuddyFrameAllocator} {ts : List BuddyFrameAllocator} :
    frames ≠ 0 →
    BuddyFrameAllocator.new nodes start (prevPowerOfTwo frames * pageSize) = .ok t →
    Laid nodes (start + prevPowerOfTwo frames * pageSize) (frames - prevPowerOfTwo frames) left ts →
    Laid nodes start frames left (t :: ts)

variable {nodes : ℕ → Bool} {start frames left : ℕ} {t : BuddyFrameAllocator}
  {ts : List BuddyFrameAllocator}

/-- What `new` answers for a piece is decided by the heap. -/
theorem new_piece_eq (nodes : ℕ → Bool) (haligned : start % pageSize = 0) (hframes : frames ≠ 0) :
    (nodes (2 * prevPowerOfTwo frames - 1) = false ∧
      BuddyFrameAllocator.new nodes start (prevPowerOfTwo frames * pageSize) =
        .error .outOfResources) ∨
    (nodes (2 * prevPowerOfTwo frames - 1) = true ∧
      ∃ t, BuddyFrameAllocator.new nodes start (prevPowerOfTwo frames * pageSize) = .ok t) := by
  rw [BuddyFrameAllocator.new, if_neg (not_not_intro haligned), prevPowerOfTwo_piece]
  dsimp only
  rw [if_neg (prevPowerOfTwo_pos hframes).ne']
  cases hnodes : nodes (2 * prevPowerOfTwo frames - 1) with
  | false => exact .inl ⟨rfl, rfl⟩
  | true => exact .inr ⟨rfl, _, rfl⟩

/-- The tree of a piece has all its frames. -/
theorem new_piece (hframes : frames ≠ 0)
    (hnew : BuddyFrameAllocator.new nodes start (prevPowerOfTwo frames * pageSize) = .ok t) :
    t.base = start ∧ t.frames = prevPowerOfTwo frames ∧ t.longest 0 = asU32 t.frames ∧
      start % pageSize = 0 ∧ (frames.log2 < 32 → Recorded t frames.log2 ⟨t, []⟩) := by
  have hlog : (prevPowerOfTwo frames * pageSize / pageSize).log2 = frames.log2 := by
    rw [Nat.mul_div_cancel _ (by decide), prevPowerOfTwo_eq hframes, Nat.log2_two_pow]
  obtain ⟨-, hbase, hcount, hlongest⟩ := BuddyFrameAllocator.new_eq_ok hnew
  rw [hlog, ← prevPowerOfTwo_eq hframes] at hcount
  refine ⟨hbase, hcount, ?_, ?_, fun hlt => ?_⟩
  · have hpos := prevPowerOfTwo_pos hframes
    rw [hlongest 0, if_pos (by omega), show Nat.log2 (0 + 1) = 0 by decide, Nat.pow_zero,
      Nat.div_one]
  · by_contra hne
    rw [BuddyFrameAllocator.new, if_pos hne] at hnew
    cases hnew
  · rw [← hlog]
    exact Recorded.init hnew (hlog ▸ hlt)

namespace Laid

/-- Where the trees of a run are. -/
theorem mem (h : Laid nodes start frames left ts) (ht : t ∈ ts) :
    start ≤ t.base ∧ t.limit ≤ start + frames * pageSize ∧ start % pageSize = 0 := by
  induction h with
  | stop => cases ht
  | @tree start frames left t' ts hframes hnew _ ih =>
    obtain ⟨hbase, hcount, -, haligned, -⟩ := new_piece hframes hnew
    have hle := prevPowerOfTwo_le frames
    have hmul : (frames - prevPowerOfTwo frames) * pageSize + prevPowerOfTwo frames * pageSize =
        frames * pageSize := by
      rw [← Nat.add_mul, Nat.sub_add_cancel hle]
    refine ⟨?_, ?_, haligned⟩
    · rcases List.mem_cons.mp ht with rfl | ht
      · exact hbase.ge
      · exact (Nat.le_add_right _ _).trans (ih ht).1
    · rcases List.mem_cons.mp ht with rfl | ht
      · rw [BuddyFrameAllocator.limit, hbase, hcount]
        exact Nat.add_le_add_left (Nat.mul_le_mul_right _ hle) _
      · have := (ih ht).2.1
        omega

/-- The heap had room for the first tree. -/
theorem head (h : Laid nodes start frames left (t :: ts)) :
    frames ≠ 0 ∧ t.frames = prevPowerOfTwo frames ∧ t.longest 0 = asU32 t.frames ∧
      nodes (2 * prevPowerOfTwo frames - 1) = true := by
  cases h with
  | tree hframes hnew _ =>
    obtain ⟨-, hcount, hroot, haligned, -⟩ := new_piece hframes hnew
    refine ⟨hframes, hcount, hroot, ?_⟩
    rcases new_piece_eq nodes haligned hframes with ⟨-, herror⟩ | ⟨hnodes, -⟩
    · cases herror.symm.trans hnew
    · exact hnodes

/-- A tree of a run was built over one of its pieces. -/
theorem mem_new (h : Laid nodes start frames left ts) (ht : t ∈ ts) :
    ∃ start' frames', frames' ≠ 0 ∧ frames' ≤ frames ∧
      BuddyFrameAllocator.new nodes start' (prevPowerOfTwo frames' * pageSize) = .ok t := by
  induction h with
  | stop => cases ht
  | @tree start frames left t' ts hframes hnew _ ih =>
    rcases List.mem_cons.mp ht with rfl | ht
    · exact ⟨start, frames, hframes, Nat.le_refl _, hnew⟩
    · obtain ⟨start', frames', hne, hle, hnew'⟩ := ih ht
      exact ⟨start', frames', hne, hle.trans (Nat.sub_le _ _), hnew'⟩

/-- No two trees of a run overlap. -/
theorem pairwise (h : Laid nodes start frames left ts) :
    ts.Pairwise fun t t' => t.limit ≤ t'.base := by
  induction h with
  | stop => exact .nil
  | @tree start frames left t ts hframes hnew hrest ih =>
    obtain ⟨hbase, hcount, -⟩ := new_piece hframes hnew
    refine List.pairwise_cons.mpr ⟨fun t' ht' => ?_, ih⟩
    rw [BuddyFrameAllocator.limit, hbase, hcount]
    exact (hrest.mem ht').1

/-- The trees of a whole run take what was computed for it. -/
theorem metadata (h : Laid nodes start frames left ts) (hleft : left = 0) :
    FramePool.total (·.nodeBytes) ts = FramePool.countNodes frames 0 * 4 := by
  induction h with
  | stop start frames =>
    rw [hleft, FramePool.countNodes]
    rfl
  | @tree start frames left t ts hframes hnew _ ih =>
    obtain ⟨-, hcount, -⟩ := new_piece hframes hnew
    rw [FramePool.total, ih hleft, FramePool.countNodes_pos (Nat.pos_of_ne_zero hframes),
      BuddyFrameAllocator.nodeBytes, hcount, ← Nat.add_mul]

/-- The trees of a run have the frames that are not left. -/
theorem frames_eq (h : Laid nodes start frames left ts) :
    FramePool.total (·.frames) ts + left = frames := by
  induction h with
  | stop => rw [FramePool.total, Nat.zero_add]
  | @tree start frames left t ts hframes hnew _ ih =>
    obtain ⟨-, hcount, -⟩ := new_piece hframes hnew
    have hle := prevPowerOfTwo_le frames
    rw [FramePool.total, hcount]
    omega

/-- **Each address of a whole run is in exactly one of its trees**, and no other is in any. -/
theorem countP_contains (h : Laid nodes start frames left ts) (hleft : left = 0) (a : ℕ) :
    ts.countP (·.contains a) = if start ≤ a ∧ a < start + frames * pageSize then 1 else 0 := by
  induction h with
  | stop start frames =>
    rw [hleft, if_neg (by omega)]
    rfl
  | @tree start frames left t ts hframes hnew _ ih =>
    obtain ⟨hbase, hcount, -⟩ := new_piece hframes hnew
    have hle := prevPowerOfTwo_le frames
    have hmul : (frames - prevPowerOfTwo frames) * pageSize + prevPowerOfTwo frames * pageSize =
        frames * pageSize := by
      rw [← Nat.add_mul, Nat.sub_add_cancel hle]
    have hhead : t.contains a = true ↔
        start ≤ a ∧ a < start + prevPowerOfTwo frames * pageSize := by
      rw [BuddyFrameAllocator.contains_iff, BuddyFrameAllocator.limit, hbase, hcount]
    by_cases ha : start ≤ a ∧ a < start + prevPowerOfTwo frames * pageSize
    · rw [List.countP_cons, if_pos (hhead.mpr ha), ih hleft, if_neg (by omega), if_pos (by omega)]
    · rw [List.countP_cons, ih hleft, if_neg fun hc => ha (hhead.mp hc), Nat.add_zero]
      refine if_congr ?_ rfl rfl
      omega

end Laid

namespace FramePool

/-- Why the heap stopped an `add`, `count` trees being in the pool: it has no room for the next
array of nodes, or for the tree. -/
def Refused (room : HeapRoom) (left count : ℕ) : Prop :=
  room.nodes (2 * prevPowerOfTwo left - 1) = false ∨ room.tree count = false

theorem addPieces_spec (room : HeapRoom) {start offset : ℕ}
    (haligned : (start + offset) % pageSize = 0) (remaining added : ℕ)
    (trees : List BuddyFrameAllocator) :
    ∃ ts left, (addPieces room start offset remaining added trees).2 = ⟨trees ++ ts⟩ ∧
      Laid room.nodes (start + offset) remaining left ts ∧
      (ts ≠ [] → room.tree trees.length = true) ∧
      ((left = 0 ∧ (addPieces room start offset remaining added trees).1 =
          .ok (added + remaining)) ∨
        (left ≠ 0 ∧ (addPieces room start offset remaining added trees).1 =
          .error .outOfResources ∧ Refused room left (trees.length + ts.length))) := by
  induction remaining using Nat.strong_induction_on generalizing offset added trees with
  | _ remaining ih =>
    rw [addPieces]
    split
    · next h =>
      have hne := Nat.pos_iff_ne_zero.mp h
      dsimp only
      rcases new_piece_eq room.nodes haligned hne with ⟨hroom, herror⟩ | ⟨-, tree, hnew⟩
      · rw [herror]
        exact ⟨[], remaining, by rw [List.append_nil], .stop _ _, fun hnil => absurd rfl hnil,
          .inr ⟨hne, rfl, .inl hroom⟩⟩
      · rw [hnew]
        dsimp only
        split
        · next hroom =>
          have hpage : (start + (offset + prevPowerOfTwo remaining * pageSize)) % pageSize = 0 := by
            rw [← Nat.add_assoc, Nat.add_mul_mod_self_right, haligned]
          obtain ⟨ts, left, htrees, hlaid, -, hanswer⟩ := ih _ (sub_prevPowerOfTwo_lt h) hpage
            (added + prevPowerOfTwo remaining) (trees ++ [tree])
          rw [← Nat.add_assoc start] at hlaid
          refine ⟨tree :: ts, left, ?_, .tree hne hnew hlaid, fun _ => hroom, hanswer.imp ?_ ?_⟩
          · rw [htrees, List.append_assoc, List.singleton_append]
          · rintro ⟨hleft, hok⟩
            have hle := prevPowerOfTwo_le remaining
            refine ⟨hleft, ?_⟩
            rw [hok, Nat.add_assoc, Nat.add_sub_cancel' hle]
          · rintro ⟨hleft, herror, hrefused⟩
            rw [List.length_append, List.length_singleton, Nat.add_assoc,
              Nat.add_comm 1] at hrefused
            exact ⟨hleft, herror, hrefused⟩
        · next hroom =>
          exact ⟨[], remaining, by rw [List.append_nil], .stop _ _, fun hnil => absurd rfl hnil,
            .inr ⟨hne, rfl, .inr (Bool.eq_false_iff.mpr hroom)⟩⟩
    · next h =>
      obtain rfl := Nat.eq_zero_of_not_pos h
      exact ⟨[], 0, by rw [List.append_nil], .stop _ _, fun hnil => absurd rfl hnil, .inl ⟨rfl, rfl⟩⟩

/-- **What `add` pushes, and what it answers.** -/
theorem add_spec (pool : FramePool) (room : HeapRoom) {start : ℕ} (haligned : start % pageSize = 0)
    (len : ℕ) : ∃ ts left, (pool.add room start len).2 = ⟨pool.trees ++ ts⟩ ∧
      Laid room.nodes start (len / pageSize) left ts ∧
      (ts ≠ [] → room.tree pool.trees.length = true) ∧
      ((left = 0 ∧ (pool.add room start len).1 = .ok (len / pageSize)) ∨
        (left ≠ 0 ∧ (pool.add room start len).1 = .error .outOfResources ∧
          Refused room left (pool.trees.length + ts.length))) := by
  have haligned' : (start + 0) % pageSize = 0 := haligned
  have h := addPieces_spec room haligned' (len / pageSize) 0 pool.trees
  rw [Nat.zero_add, Nat.add_zero] at h
  rw [add, if_neg (not_not_intro haligned)]
  exact h

end FramePool

end StarOS
