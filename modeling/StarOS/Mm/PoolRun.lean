import StarOS.Mm.Pool

/-!
# What the frame pool answers

The trees of a pool do not overlap, so a block belongs to one of them and goes back to that one.
The pool is what its trees are: with every tree shorter than `2 ^ 44` bytes each of them is recorded
exactly, and nothing is live exactly when every frame is in a run that was put together again. A
run of `2 ^ 44` bytes makes a tree whose root does not fit a `u32`.

## Main definitions

* `Built` — a pool made by any sequence of `add`, with what each was given and what it answered
* `framePool` — any sequence of calls
* `PoolCorrect` — what a pool is for

## Main results

* `parts_of_framePool` — each tree is recorded, after any sequence of calls
* `pool_correct_iff` — when a pool does what it is for
-/

namespace StarOS

open BuddyFrameAllocator

/-- An `add`: the heap and the pool it met, the run, what it answered and what it pushed. -/
structure Added where
  room : HeapRoom
  /-- The trees that were in the pool. -/
  before : ℕ
  start : ℕ
  len : ℕ
  answer : Except KError ℕ
  trees : List BuddyFrameAllocator

namespace Added

/-- Adding a run to a pool. -/
def of (pool : FramePool) (room : HeapRoom) (start len : ℕ) : Added :=
  let (answer, after) := pool.add room start len
  ⟨room, pool.trees.length, start, len, answer, after.trees.drop pool.trees.length⟩

/-- The two runs have no address in common. -/
def Apart (r r' : Added) : Prop := r.start + r.len ≤ r'.start ∨ r'.start + r'.len ≤ r.start

/-- Whether the heap has room for the first tree of the run. -/
def begun (r : Added) : Bool :=
  r.room.nodes (2 * prevPowerOfTwo (r.len / pageSize) - 1) && r.room.tree r.before

/-- What `add` is for. -/
structure Covered (r : Added) : Prop where
  /-- It answers the number of whole frames, its trees take what was computed for them, and each
  address of a whole frame is in exactly one of them, no other address in any. -/
  whole : ∀ count, r.answer = .ok count → count = r.len / pageSize ∧
    FramePool.total (·.nodeBytes) r.trees = FramePool.metadataBytes r.len ∧
    ∀ a, r.trees.countP (·.contains a) =
      if r.start ≤ a ∧ a < r.start + r.len / pageSize * pageSize then 1 else 0
  /-- It is refused only by the heap, the pieces that are left being too many. -/
  refused : ∀ e, r.answer = .error e → e = .outOfResources ∧
    ∃ left, left ≠ 0 ∧ FramePool.total (·.frames) r.trees + left = r.len / pageSize ∧
      FramePool.Refused r.room left (r.before + r.trees.length)

end Added

/-- A pool that was built by these calls, of runs that start on a page. -/
inductive Built : List Added → FramePool → Prop
  | new : Built [] .new
  | add {runs : List Added} {pool : FramePool} (room : HeapRoom) (start len : ℕ) :
    Built runs pool → start % pageSize = 0 →
    Built (runs ++ [.of pool room start len]) (pool.add room start len).2

/-! ### Any sequence of calls -/

/-- The pool, and the blocks handed out and not yet given back, by the numbers of their frames. -/
structure PoolState where
  pool : FramePool
  live : List Block

namespace PoolState

/-- The effect of a call. A count whose next power of two is not a `usize` is not a call. -/
def next (s : PoolState) : BuddyEvent → Option PoolState
  | .alloc count =>
    if count ≤ 2 ^ 63 then
      some <| match s.pool.allocPages count with
        | (some frame, pool) => ⟨pool, ⟨frame / pageSize, nextPowerOfTwo (max count 1)⟩ :: s.live⟩
        | (none, pool) => ⟨pool, s.live⟩
    else none
  | .free frame =>
    some ⟨s.pool.freePages frame, s.live.filter fun c => !decide (frame / pageSize ∈ c)⟩

end PoolState

/-- A pool in use. -/
def framePool (pool : FramePool) : EventSystem PoolState BuddyEvent where
  init s := s = ⟨pool, []⟩
  next := PoolState.next

/-- What a pool is for. -/
structure PoolCorrect (s : PoolState) : Prop where
  /-- No frame is in two blocks. -/
  disjoint : s.live.Pairwise Block.Disjoint
  /-- A block lies in one tree. -/
  inside : ∀ c ∈ s.live, ∃ t ∈ s.pool.trees,
    t.base / pageSize ≤ c.addr ∧ c.limit ≤ t.base / pageSize + t.frames
  /-- What the trees have as handed out is what is live. -/
  holds_iff : ∀ t ∈ s.pool.trees, ∀ x < t.frames,
    t.holds x ↔ Block.Cover s.live (t.base / pageSize + x)
  /-- A free reaches the tree that contains the address, and no other. -/
  routed : ∀ frame l t r, s.pool.trees = l ++ t :: r → t.contains frame →
    s.pool.freePages frame = ⟨l ++ t.freePages frame :: r⟩
  /-- A free of an address that is in no tree changes nothing. -/
  foreign : ∀ frame, (∀ t ∈ s.pool.trees, t.contains frame = false) →
    s.pool.freePages frame = s.pool
  /-- Freeing the base of a block frees that block. -/
  free_base : ∀ c ∈ s.live,
    (s.next (.free (c.addr * pageSize))).map (·.live) = some (s.live.erase c)
  /-- A request is answered exactly if the largest run any tree can offer is as large. -/
  fits : ∀ count ≤ 2 ^ 63, (s.pool.allocPages count).1.isSome ↔
    nextPowerOfTwo (max count 1) ≤ s.pool.largestFreeRun
  /-- Every frame is in a run that was put together exactly when no block is live. -/
  coalesced : s.pool.coalescedFrames = s.pool.frames ↔ s.live = []

/-! ### The trees of a pool -/

/-- The region of one tree ends before that of the other starts. -/
def BuddyFrameAllocator.Apart (t t' : BuddyFrameAllocator) : Prop :=
  t.limit ≤ t'.base ∨ t'.limit ≤ t.base

/-- The blocks of a tree, by the numbers of their frames. -/
def BuddyState.blocks (u : BuddyState) : List Block :=
  u.live.map (Block.shift (u.alloc.base / pageSize))

/-- A tree of the pool: it is recorded, and starts on a page. -/
structure Sound (u : BuddyState) : Prop where
  aligned : u.alloc.base % pageSize = 0
  recorded : ∃ h < 32, Recorded u.alloc h u

/-- A tree with nothing recorded at its root, and nothing handed out: it answers no request. -/
structure Closed (u : BuddyState) : Prop where
  aligned : u.alloc.base % pageSize = 0
  root : u.alloc.longest 0 = 0
  live : u.live = []

/-- A pool is its trees, and what is live is what is live in each of them. -/
structure Parts (us : List BuddyState) (s : PoolState) : Prop where
  trees : s.pool.trees = us.map (·.alloc)
  sound : ∀ u ∈ us, Sound u ∨ Closed u
  apart : us.Pairwise fun u v => u.alloc.Apart v.alloc
  live : s.live.Perm (us.flatMap (·.blocks))

/-- Whether a frame is one of the tree's, and not handed out. -/
def BuddyFrameAllocator.offers (t : BuddyFrameAllocator) (x : ℕ) : Bool :=
  decide (t.base / pageSize ≤ x) && decide (x < t.base / pageSize + t.frames) &&
    !t.holds (x - t.base / pageSize)

/-- The frames the trees have to give, handed out or not. -/
def Owned (us : List BuddyState) (x : ℕ) : Prop :=
  ∃ u ∈ us, u.alloc.base / pageSize ≤ x ∧ x < u.alloc.base / pageSize + u.alloc.frames ∧
    (Sound u ∨ u.alloc.offers x = true)

/-- The trees of a pool before a call and after it. -/
structure Follows (us us' : List BuddyState) : Prop where
  owned : ∀ x, Owned us' x ↔ Owned us x
  sound : (∀ u ∈ us, Sound u) → ∀ u ∈ us', Sound u

variable {pool : FramePool} {s s' : PoolState} {u u' v : BuddyState} {us l r : List BuddyState}
  {ts : List BuddyFrameAllocator} {t : BuddyFrameAllocator} {c : Block} {x frame count : ℕ}

/-- A tree that refuses is left as it was. -/
theorem allocPages_none (hnone : (t.allocPages count).1 = none) : (t.allocPages count).2 = t := by
  rw [BuddyFrameAllocator.allocPages] at hnone ⊢
  dsimp only at hnone ⊢
  split
  · rfl
  · next hfit =>
    rw [if_neg hfit] at hnone
    cases hnone

/-- A tree answers exactly if its largest run is as large. -/
theorem allocPages_isSome_iff (t : BuddyFrameAllocator) (count : ℕ) :
    (t.allocPages count).1.isSome ↔ nextPowerOfTwo (max count 1) ≤ t.largestFreeRun := by
  rw [BuddyFrameAllocator.allocPages, BuddyFrameAllocator.largestFreeRun]
  dsimp only
  split
  · next h => exact iff_of_false Bool.false_ne_true (Nat.not_le.mpr h)
  · next h => exact iff_of_true rfl (Nat.not_lt.mp h)

theorem allocFirst_cases (count : ℕ) (ts : List BuddyFrameAllocator) :
    (FramePool.allocFirst count ts = (none, ts) ∧ ∀ t ∈ ts, (t.allocPages count).1 = none) ∨
    ∃ l t r frame t', ts = l ++ t :: r ∧ t.allocPages count = (some frame, t') ∧
      FramePool.allocFirst count ts = (some frame, l ++ t' :: r) := by
  induction ts with
  | nil => exact .inl ⟨rfl, fun t ht => absurd ht List.not_mem_nil⟩
  | cons t ts ih =>
    rw [FramePool.allocFirst]
    rcases halloc : t.allocPages count with ⟨_ | frame, t'⟩
    · have ht' : t' = t := by
        have hnone : (t.allocPages count).1 = none := by rw [halloc]
        have hsame := allocPages_none hnone
        rw [halloc] at hsame
        exact hsame
      subst ht'
      rcases ih with ⟨heq, hnone⟩ | ⟨l, u, r, frame, u', rfl, hu, heq⟩
      · refine .inl ⟨by rw [heq], fun u hu => ?_⟩
        rcases List.mem_cons.mp hu with rfl | hu
        · rw [halloc]
        · exact hnone u hu
      · exact .inr ⟨t' :: l, u, r, frame, u', rfl, hu, by rw [heq]; rfl⟩
    · exact .inr ⟨[], t, ts, frame, t', rfl, halloc, rfl⟩

theorem freeFirst_cases (frame : ℕ) (ts : List BuddyFrameAllocator) :
    (FramePool.freeFirst frame ts = ts ∧ ∀ t ∈ ts, t.contains frame = false) ∨
    ∃ l t r, ts = l ++ t :: r ∧ t.contains frame = true ∧
      FramePool.freeFirst frame ts = l ++ t.freePages frame :: r := by
  induction ts with
  | nil => exact .inl ⟨rfl, fun t ht => absurd ht List.not_mem_nil⟩
  | cons t ts ih =>
    rw [FramePool.freeFirst]
    by_cases hin : t.contains frame = true
    · exact .inr ⟨[], t, ts, rfl, hin, if_pos hin⟩
    · rw [if_neg hin]
      rcases ih with ⟨heq, hnone⟩ | ⟨l, u, r, rfl, hu, heq⟩
      · refine .inl ⟨by rw [heq], fun u hu => ?_⟩
        rcases List.mem_cons.mp hu with rfl | hu
        · exact Bool.eq_false_iff.mpr hin
        · exact hnone u hu
      · exact .inr ⟨t :: l, u, r, rfl, hu, by rw [heq]; rfl⟩

/-- Two trees that are apart contain no address together. -/
theorem BuddyFrameAllocator.Apart.not_contains {t' : BuddyFrameAllocator} (h : t.Apart t')
    (ht : t.contains frame = true) : t'.contains frame = false := by
  rw [contains_iff] at ht
  rw [Bool.eq_false_iff, Ne, contains_iff]
  rcases h with h | h <;> omega

theorem BuddyFrameAllocator.Apart.symm {t' : BuddyFrameAllocator} (h : t.Apart t') : t'.Apart t :=
  Or.symm h

instance : Std.Symm fun u v : BuddyState => u.alloc.Apart v.alloc := ⟨fun _ _ h => h.symm⟩

theorem Recorded.rebase {b : BuddyFrameAllocator} {h : ℕ} (hr : Recorded b h u) :
    Recorded u.alloc h u := ⟨rfl, hr.frames, hr.tree, hr.rest⟩

/-- An address is in a tree that starts on a page exactly if its frame is. -/
theorem contains_iff_frame (haligned : t.base % pageSize = 0) : t.contains frame = true ↔
    t.base / pageSize ≤ frame / pageSize ∧
      frame / pageSize < t.base / pageSize + t.frames := by
  rw [BuddyFrameAllocator.contains_iff, BuddyFrameAllocator.limit]
  rw [pageSize] at haligned ⊢
  omega

namespace Sound

/-- A block of the tree lies in it. -/
theorem inside (hu : Sound u) (hc : c ∈ u.blocks) : u.alloc.base / pageSize ≤ c.addr ∧
    c.limit ≤ u.alloc.base / pageSize + u.alloc.frames ∧ 0 < c.size := by
  obtain ⟨h, -, hr⟩ := hu.recorded
  obtain ⟨d, hd, rfl⟩ := List.mem_map.mp hc
  obtain ⟨hlimit, k, hk, -⟩ := hr.inside hd
  have hpos := Nat.two_pow_pos k
  rw [← hr.frames] at hlimit
  simp only [Block.shift, Block.limit] at hlimit ⊢
  omega

/-- The frame of an address in a block of the tree is in the tree. -/
theorem contains_of_mem (hu : Sound u) (hc : c ∈ u.blocks) (hin : frame / pageSize ∈ c) :
    u.alloc.contains frame = true := by
  obtain ⟨hlow, hhigh, -⟩ := hu.inside hc
  obtain ⟨hge, hlt⟩ := Block.mem_iff.mp hin
  exact (contains_iff_frame hu.aligned).mpr ⟨by omega, by omega⟩

/-- Blocks of trees that are apart are disjoint. -/
theorem disjoint_of_apart (hu : Sound u) (hv : Sound v) (h : u.alloc.Apart v.alloc) {d : Block}
    (hc : c ∈ u.blocks) (hd : d ∈ v.blocks) : c.Disjoint d := by
  intro x hxc hxd
  have hx : x * pageSize / pageSize = x := Nat.mul_div_cancel x (by decide)
  rw [← hx] at hxc hxd
  have hin := hu.contains_of_mem hc hxc
  rw [h.symm.not_contains (hv.contains_of_mem hd hxd)] at hin
  cases hin

theorem cover_blocks (u : BuddyState) (x : ℕ) :
    Block.Cover u.blocks (u.alloc.base / pageSize + x) ↔ Block.Cover u.live x := by
  constructor
  · rintro ⟨c, hc, hx⟩
    obtain ⟨d, hd, rfl⟩ := List.mem_map.mp hc
    have hx := (Block.mem_shift.mp hx).2
    rw [Nat.add_sub_cancel_left] at hx
    exact ⟨d, hd, hx⟩
  · rintro ⟨d, hd, hx⟩
    refine ⟨d.shift _, List.mem_map_of_mem hd, Block.mem_shift.mpr ⟨Nat.le_add_right _ _, ?_⟩⟩
    rw [Nat.add_sub_cancel_left]
    exact hx

/-- A tree that hands out a block. -/
theorem alloc (hu : Sound u) (hcount : count ≤ 2 ^ 63)
    (halloc : u.alloc.allocPages count = (some frame, t)) :
    ∃ u', Sound u' ∧ u'.alloc = t ∧ t.base = u.alloc.base ∧ t.frames = u.alloc.frames ∧
      frame % pageSize = 0 ∧
      u'.blocks = ⟨frame / pageSize, nextPowerOfTwo (max count 1)⟩ :: u.blocks := by
  obtain ⟨h, hh, hr⟩ := hu.recorded
  have hn : u.next (.alloc count) = some
      ⟨t, ⟨(frame - u.alloc.base) / pageSize, nextPowerOfTwo (max count 1)⟩ :: u.live⟩ := by
    rw [BuddyState.next, if_pos hcount, halloc]
  have hr' := hr.alloc hn
  have hbase : t.base = u.alloc.base := hr'.base
  have hframes : t.frames = u.alloc.frames := hr'.frames.trans hr.frames.symm
  have hframe : frame ∈ (u.alloc.allocPages count).1 := by rw [halloc]; rfl
  obtain ⟨p, rfl, -⟩ := hr.given count hframe
  have haligned := hu.aligned
  refine ⟨_, ⟨hbase ▸ haligned, h, hh, hr'.rebase⟩, rfl, hbase, hframes, ?_, ?_⟩
  · rw [Nat.add_mul_mod_self_right, haligned]
  rw [BuddyState.blocks, List.map_cons]
  dsimp only
  rw [hbase]
  congr 1
  rw [Block.shift, Block.mk.injEq, Nat.add_sub_cancel_left]
  dsimp only
  rw [pageSize] at haligned ⊢
  omega

/-- The tree a block is given back to. -/
theorem free (hu : Sound u) (hin : u.alloc.contains frame = true) :
    ∃ u', Sound u' ∧ u'.alloc = u.alloc.freePages frame ∧ u'.alloc.base = u.alloc.base ∧
      u'.alloc.frames = u.alloc.frames ∧
      u'.blocks = u.blocks.filter fun c => !decide (frame / pageSize ∈ c) := by
  obtain ⟨h, hh, hr⟩ := hu.recorded
  have hn : u.next (.free frame) =
      some ⟨u.alloc.freePages frame, u.live.filter fun c => !u.names frame c⟩ := rfl
  have hr' := hr.free hh hn
  have hbase := hr'.base
  have haligned := hu.aligned
  obtain ⟨hle, -⟩ := BuddyFrameAllocator.contains_iff.mp hin
  refine ⟨_, ⟨hbase ▸ haligned, h, hh, hr'.rebase⟩, rfl, hbase,
    hr'.frames.trans hr.frames.symm, ?_⟩
  rw [BuddyState.blocks, BuddyState.blocks, List.filter_map, hbase]
  congr 1
  refine List.filter_congr fun c _ => ?_
  have hdiv : (frame - u.alloc.base) / pageSize = frame / pageSize - u.alloc.base / pageSize := by
    rw [pageSize] at haligned ⊢
    omega
  have hge : u.alloc.base / pageSize ≤ frame / pageSize := Nat.div_le_div_right hle
  rw [Function.comp_apply, Bool.eq_iff_iff, Bool.not_eq_true', Bool.not_eq_true',
    Bool.eq_false_iff, Ne, BuddyState.names_iff, decide_eq_false_iff_not, Block.mem_shift, hdiv]
  simp only [hle, hge, true_and]

/-- A tree is free as a whole exactly when none of its blocks is live. -/
theorem largestFreeRun_eq_iff (hu : Sound u) :
    u.alloc.largestFreeRun = u.alloc.frames ↔ u.blocks = [] := by
  obtain ⟨h, hh, hr⟩ := hu.recorded
  obtain ⟨t, ht, hrep, hp⟩ := hr.tree
  rw [largestFreeRun, hrep.eq_largest, hr.frames, Buddy.largest_eq_iff ht,
    Buddy.eq_free_iff (o := 0) ht, BuddyState.blocks, List.map_eq_nil_iff]
  constructor
  · intro hnil
    rw [hnil] at hp
    exact hp.symm.eq_nil
  · intro hnil
    rw [hnil] at hp
    exact hp.eq_nil

theorem largestFreeRun_le (hu : Sound u) : u.alloc.largestFreeRun ≤ u.alloc.frames := by
  obtain ⟨h, hh, hr⟩ := hu.recorded
  obtain ⟨t, ht, hrep, -⟩ := hr.tree
  rw [largestFreeRun, hrep.eq_largest, hr.frames]
  exact t.largest_le

end Sound

namespace Follows

theorem refl (us : List BuddyState) : Follows us us := ⟨fun _ => Iff.rfl, fun h => h⟩

theorem replace (hu : Sound u) (hu' : Sound u') (hbase : u'.alloc.base = u.alloc.base)
    (hframes : u'.alloc.frames = u.alloc.frames) : Follows (l ++ u :: r) (l ++ u' :: r) where
  owned := by
    intro x
    simp only [Owned, List.mem_append, List.mem_cons, or_and_right, exists_or, exists_eq_left, hbase,
      hframes, hu, hu', true_or]
  sound := by
    intro hall v hv
    rcases List.mem_append.mp hv with hv | hv
    · exact hall v (List.mem_append_left _ hv)
    · rcases List.mem_cons.mp hv with rfl | hv
      · exact hu'
      · exact hall v (List.mem_append_right _ (List.mem_cons_of_mem _ hv))

end Follows

namespace Parts

/-- Only a recorded tree has blocks. -/
theorem sound_of_mem (hp : Parts us s) (hu : u ∈ us) (hc : c ∈ u.blocks) : Sound u := by
  refine (hp.sound u hu).resolve_right fun hclosed => ?_
  rw [BuddyState.blocks, hclosed.live] at hc
  cases hc

/-- Only a recorded tree answers. -/
theorem sound_of_alloc (hp : Parts us s) (hu : u ∈ us)
    (halloc : u.alloc.allocPages count = (some frame, t)) : Sound u := by
  refine (hp.sound u hu).resolve_right fun hclosed => ?_
  obtain ⟨k, hk, -⟩ := nextPowerOfTwo_spec (max count 1)
  have hpos := Nat.two_pow_pos k
  rw [BuddyFrameAllocator.allocPages, hclosed.root, hk] at halloc
  dsimp only at halloc
  rw [if_pos hpos] at halloc
  cases halloc

theorem aligned (hp : Parts us s) (hu : u ∈ us) : u.alloc.base % pageSize = 0 := by
  rcases hp.sound u hu with hu | hu
  · exact hu.aligned
  · exact hu.aligned

/-- One of the trees is replaced by what a call made of it, and what is live with it. -/
theorem replace (hp : Parts (l ++ u :: r) s) (hu' : Sound u') (hbase : u'.alloc.base = u.alloc.base)
    (hframes : u'.alloc.frames = u.alloc.frames) {live : List Block}
    (hlive : live.Perm (l.flatMap (·.blocks) ++ u'.blocks ++ r.flatMap (·.blocks))) :
    Parts (l ++ u' :: r) ⟨⟨l.map (·.alloc) ++ u'.alloc :: r.map (·.alloc)⟩, live⟩ where
  trees := by rw [List.map_append, List.map_cons]
  sound := by
    intro v hv
    rcases List.mem_append.mp hv with hv | hv
    · exact hp.sound v (List.mem_append_left _ hv)
    · rcases List.mem_cons.mp hv with rfl | hv
      · exact .inl hu'
      · exact hp.sound v (List.mem_append_right _ (List.mem_cons_of_mem _ hv))
  apart := by
    have hlimit : u'.alloc.limit = u.alloc.limit := by
      rw [BuddyFrameAllocator.limit, BuddyFrameAllocator.limit, hbase, hframes]
    obtain ⟨hl, hur, hcross⟩ := List.pairwise_append.mp hp.apart
    obtain ⟨hu, hr⟩ := List.pairwise_cons.mp hur
    refine List.pairwise_append.mpr ⟨hl, List.pairwise_cons.mpr ⟨fun v hv => ?_, hr⟩,
      fun v hv w hw => ?_⟩
    · rw [BuddyFrameAllocator.Apart, hlimit, hbase]
      exact hu v hv
    · rcases List.mem_cons.mp hw with rfl | hw
      · rw [BuddyFrameAllocator.Apart, hlimit, hbase]
        exact hcross v hv u List.mem_cons_self
      · exact hcross v hv w (List.mem_cons_of_mem _ hw)
  live := by
    rw [List.flatMap_append, List.flatMap_cons, ← List.append_assoc]
    exact hlive

/-- A tree of the pool is that of one of the parts. -/
theorem split (hp : Parts us s) {l r : List BuddyFrameAllocator}
    (htrees : s.pool.trees = l ++ t :: r) : ∃ l' u r', us = l' ++ u :: r' ∧
      l'.map (·.alloc) = l ∧ u.alloc = t ∧ r'.map (·.alloc) = r := by
  obtain ⟨l', ur, rfl, hl, hur⟩ := List.map_eq_append_iff.mp (hp.trees ▸ htrees)
  obtain ⟨u, r', rfl, hu, hr⟩ := List.map_eq_cons_iff.mp hur
  exact ⟨l', u, r', rfl, hl, hu, hr⟩

theorem alloc (hp : Parts us s) (hn : s.next (.alloc count) = some s') :
    ∃ us', Parts us' s' ∧ Follows us us' := by
  obtain ⟨hcount, hn⟩ := Option.ite_none_right_eq_some.mp hn
  rw [FramePool.allocPages] at hn
  rcases allocFirst_cases count s.pool.trees with ⟨heq, -⟩ | ⟨l, t, r, frame, t', htrees, ht, heq⟩
  · rw [heq] at hn
    obtain rfl := Option.some.inj hn
    exact ⟨us, hp, .refl us⟩
  · obtain ⟨l', u, r', rfl, rfl, rfl, rfl⟩ := hp.split htrees
    have hu := hp.sound_of_alloc (u := u) (by simp) ht
    obtain ⟨u', hu', rfl, hbase, hframes, -, hblocks⟩ := hu.alloc hcount ht
    rw [heq] at hn
    obtain rfl := Option.some.inj hn
    refine ⟨l' ++ u' :: r', hp.replace hu' hbase hframes ?_, .replace hu hu' hbase hframes⟩
    have hlive := hp.live
    rw [List.flatMap_append, List.flatMap_cons] at hlive
    rw [hblocks, List.append_assoc, List.cons_append]
    exact (hlive.cons _).trans List.perm_middle.symm

/-- Nothing live outside a tree is named by an address in it. -/
theorem filter_blocks (hp : Parts us s) {vs : List BuddyState} (hvs : ∀ v ∈ vs, v ∈ us)
    (hout : ∀ v ∈ vs, v.alloc.contains frame = false) :
    (vs.flatMap (·.blocks)).filter (fun c => !decide (frame / pageSize ∈ c)) =
      vs.flatMap (·.blocks) := by
  refine List.filter_eq_self.mpr fun c hc => ?_
  obtain ⟨v, hv, hc⟩ := List.mem_flatMap.mp hc
  rw [Bool.not_eq_true', decide_eq_false_iff_not]
  intro hin
  have := (hp.sound_of_mem (hvs v hv) hc).contains_of_mem hc hin
  rw [hout v hv] at this
  cases this

/-- A free of an address, where the tree that contains it is recorded. -/
theorem free_of_sound (hp : Parts us s)
    (hsound : ∀ u ∈ us, u.alloc.contains frame = true → Sound u)
    (hn : s.next (.free frame) = some s') : ∃ us', Parts us' s' ∧ Follows us us' := by
  obtain rfl := Option.some.inj hn
  rw [FramePool.freePages]
  rcases freeFirst_cases frame s.pool.trees with ⟨heq, hout⟩ | ⟨l, t, r, htrees, hin, heq⟩
  · rw [heq]
    refine ⟨us, ⟨hp.trees, hp.sound, hp.apart, (hp.live.filter _).trans (List.Perm.of_eq ?_)⟩,
      .refl us⟩
    rw [hp.trees] at hout
    exact hp.filter_blocks (fun _ hv => hv) fun v hv => hout _ (List.mem_map_of_mem hv)
  · obtain ⟨l', u, r', rfl, rfl, rfl, rfl⟩ := hp.split htrees
    have hu := hsound u (by simp) hin
    obtain ⟨u', hu', halloc, hbase, hframes, hblocks⟩ := hu.free hin
    obtain ⟨-, hur, hcross⟩ := List.pairwise_append.mp hp.apart
    rw [heq, ← halloc]
    refine ⟨l' ++ u' :: r', hp.replace hu' hbase hframes ?_, .replace hu hu' hbase hframes⟩
    refine (hp.live.filter _).trans (List.Perm.of_eq ?_)
    rw [List.flatMap_append, List.flatMap_cons, List.filter_append, List.filter_append, ← hblocks,
      List.append_assoc]
    -- the other trees are apart from this one
    have hl : ∀ v ∈ l', v.alloc.contains frame = false := fun v hv =>
      (hcross v hv u List.mem_cons_self).symm.not_contains hin
    have hr : ∀ v ∈ r', v.alloc.contains frame = false := fun v hv =>
      ((List.pairwise_cons.mp hur).1 v hv).not_contains hin
    rw [hp.filter_blocks (fun v hv => by simp [hv]) hl,
      hp.filter_blocks (fun v hv => by simp [hv]) hr]

theorem free (hp : Parts us s) (hsound : ∀ u ∈ us, Sound u) (hn : s.next (.free frame) = some s') :
    ∃ us', Parts us' s' ∧ Follows us us' :=
  hp.free_of_sound (fun u hu _ => hsound u hu) hn

/-! ### What follows -/

theorem disjoint (hp : Parts us s) : s.live.Pairwise Block.Disjoint := by
  refine (hp.live.pairwise_iff Block.Disjoint.symm).mpr (List.pairwise_flatMap.mpr ⟨?_, ?_⟩)
  · intro u hu
    rcases hp.sound u hu with hu | hu
    · obtain ⟨h, -, hr⟩ := hu.recorded
      refine List.pairwise_map.mpr (hr.disjoint.imp fun {c d} hcd x hxc hxd => ?_)
      exact hcd _ (Block.mem_shift.mp hxc).2 (Block.mem_shift.mp hxd).2
    · rw [BuddyState.blocks, hu.live]
      exact .nil
  · refine hp.apart.imp_of_mem fun {u v} hu hv huv c hc d hd => ?_
    exact (hp.sound_of_mem hu hc).disjoint_of_apart (hp.sound_of_mem hv hd) huv hc hd

theorem mem_tree (hp : Parts us s) (ht : t ∈ s.pool.trees) : ∃ u ∈ us, u.alloc = t :=
  List.mem_map.mp (hp.trees ▸ ht)

theorem inside (hp : Parts us s) (hc : c ∈ s.live) : ∃ u ∈ us, c ∈ u.blocks :=
  List.mem_flatMap.mp (hp.live.mem_iff.mp hc)

/-- What is live in a tree is what is live among its frames. -/
theorem cover_iff (hp : Parts us s) (hu : u ∈ us) (hx : x < u.alloc.frames) :
    Block.Cover s.live (u.alloc.base / pageSize + x) ↔ Block.Cover u.live x := by
  rw [← Sound.cover_blocks]
  constructor
  · rintro ⟨c, hc, hin⟩
    obtain ⟨v, hv, hcv⟩ := hp.inside hc
    have haddr : (u.alloc.base / pageSize + x) * pageSize / pageSize =
        u.alloc.base / pageSize + x := Nat.mul_div_cancel _ (by decide)
    have huin : u.alloc.contains ((u.alloc.base / pageSize + x) * pageSize) = true := by
      rw [contains_iff_frame (hp.aligned hu), haddr]
      omega
    rw [← haddr] at hin
    have hvin := (hp.sound_of_mem hv hcv).contains_of_mem hcv hin
    rw [haddr] at hin
    by_cases heq : u = v
    · exact ⟨c, heq ▸ hcv, hin⟩
    · rw [(hp.apart.forall hu hv heq).not_contains huin] at hvin
      cases hvin
  · rintro ⟨c, hc, hin⟩
    exact ⟨c, hp.live.mem_iff.mpr (List.mem_flatMap.mpr ⟨u, hu, hc⟩), hin⟩

/-- **A free reaches the tree that contains the address.** -/
theorem routed (hp : Parts us s) {l r : List BuddyFrameAllocator} (htrees : s.pool.trees = l ++ t :: r)
    (hin : t.contains frame = true) : s.pool.freePages frame = ⟨l ++ t.freePages frame :: r⟩ := by
  have hapart : s.pool.trees.Pairwise BuddyFrameAllocator.Apart := by
    rw [hp.trees]
    exact List.pairwise_map.mpr hp.apart
  rw [htrees] at hapart
  have hl : ∀ t' ∈ l, t'.contains frame = false := fun t' ht' =>
    ((List.pairwise_append.mp hapart).2.2 t' ht' t List.mem_cons_self).symm.not_contains hin
  rw [FramePool.freePages, htrees]
  congr 1
  clear htrees hapart
  induction l with
  | nil => rw [List.nil_append, List.nil_append, FramePool.freeFirst, if_pos hin]
  | cons t' l ih =>
    rw [List.cons_append, FramePool.freeFirst, if_neg (Bool.eq_false_iff.mp (hl t' List.mem_cons_self)),
      ih fun t' ht' => hl t' (List.mem_cons_of_mem _ ht')]
    rfl

theorem foreign (s : PoolState) (hout : ∀ t ∈ s.pool.trees, t.contains frame = false) :
    s.pool.freePages frame = s.pool := by
  rw [FramePool.freePages]
  rcases freeFirst_cases frame s.pool.trees with ⟨heq, -⟩ | ⟨l, t, r, htrees, hin, -⟩
  · rw [heq]
  · rw [hout t (by rw [htrees]; simp)] at hin
    cases hin

/-- **Freeing the base of a block frees that block.** -/
theorem free_base (hp : Parts us s) (hc : c ∈ s.live) :
    (s.next (.free (c.addr * pageSize))).map (·.live) = some (s.live.erase c) := by
  have hmem : ∀ d ∈ s.live, d.addr ∈ d := by
    intro d hd
    obtain ⟨u, hu, hd⟩ := hp.inside hd
    obtain ⟨-, -, hpos⟩ := (hp.sound_of_mem hu hd).inside hd
    exact ⟨Nat.le_refl _, by rw [Block.limit]; omega⟩
  have hnodup : s.live.Nodup := hp.disjoint.imp_of_mem fun hd _ hde heq =>
    hde _ (hmem _ hd) (heq ▸ hmem _ hd)
  have hdiv : c.addr * pageSize / pageSize = c.addr := Nat.mul_div_cancel _ (by decide)
  rw [PoolState.next, Option.map_some, hdiv, hnodup.erase_eq_filter]
  congr 1
  refine List.filter_congr fun d hd => ?_
  rw [Bool.eq_iff_iff, Bool.not_eq_true', decide_eq_false_iff_not, bne_iff_ne]
  constructor
  · rintro hne rfl
    exact hne (hmem _ hd)
  · intro hne hin
    exact hp.disjoint.forall hd hc hne _ hin (hmem c hc)

theorem le_foldr_max {f : BuddyFrameAllocator → ℕ} {n : ℕ} (hn : 0 < n)
    (ts : List BuddyFrameAllocator) :
    n ≤ ts.foldr (fun t most => max (f t) most) 0 ↔ ∃ t ∈ ts, n ≤ f t := by
  induction ts with
  | nil =>
    rw [List.foldr_nil]
    refine iff_of_false (Nat.not_le.mpr hn) ?_
    rintro ⟨t, ht, -⟩
    cases ht
  | cons t ts ih => rw [List.foldr_cons, le_max_iff, ih, List.exists_mem_cons_iff]

theorem fits (s : PoolState) (count : ℕ) : (s.pool.allocPages count).1.isSome ↔
    nextPowerOfTwo (max count 1) ≤ s.pool.largestFreeRun := by
  obtain ⟨k, hk, -⟩ := nextPowerOfTwo_spec (max count 1)
  have hpos : 0 < nextPowerOfTwo (max count 1) := hk ▸ Nat.two_pow_pos k
  rw [FramePool.allocPages, FramePool.largestFreeRun, le_foldr_max hpos]
  rcases allocFirst_cases count s.pool.trees with ⟨heq, hnone⟩ | ⟨l, t, r, frame, t', htrees, ht, heq⟩
  · rw [heq]
    refine iff_of_false Bool.false_ne_true fun ⟨t, ht, hle⟩ => ?_
    have := (allocPages_isSome_iff t count).mpr hle
    rw [hnone t ht] at this
    cases this
  · rw [heq]
    refine iff_of_true rfl ⟨t, by rw [htrees]; simp, (allocPages_isSome_iff t count).mp ?_⟩
    rw [ht]
    rfl

/-- **Every frame is in a run that was put together exactly when no block is live.** -/
theorem coalesced (hp : Parts us s) (hsound : ∀ u ∈ us, Sound u) :
    s.pool.coalescedFrames = s.pool.frames ↔ s.live = [] := by
  have hle : ∀ t ∈ s.pool.trees, t.largestFreeRun ≤ t.frames := by
    intro t ht
    obtain ⟨u, hu, rfl⟩ := hp.mem_tree ht
    exact (hsound u hu).largestFreeRun_le
  rw [FramePool.coalescedFrames, FramePool.frames, FramePool.total_eq_iff hle]
  constructor
  · intro hall
    refine List.eq_nil_iff_forall_not_mem.mpr fun c hc => ?_
    obtain ⟨u, hu, hcu⟩ := hp.inside hc
    have hnil := (hsound u hu).largestFreeRun_eq_iff.mp
      (hall _ (by rw [hp.trees]; exact List.mem_map_of_mem hu))
    rw [hnil] at hcu
    cases hcu
  · intro hnil t ht
    obtain ⟨u, hu, rfl⟩ := hp.mem_tree ht
    refine (hsound u hu).largestFreeRun_eq_iff.mpr
      (List.eq_nil_iff_forall_not_mem.mpr fun c hc => ?_)
    have := hp.live.mem_iff.mpr (List.mem_flatMap.mpr ⟨u, hu, hc⟩)
    rw [hnil] at this
    cases this

theorem holds_iff (hp : Parts us s) (hu : u ∈ us) (hsound : Sound u) (hx : x < u.alloc.frames) :
    u.alloc.holds x ↔ Block.Cover s.live (u.alloc.base / pageSize + x) := by
  obtain ⟨h, hh, hr⟩ := hsound.recorded
  rw [hp.cover_iff hu hx]
  exact hr.holds_iff hh (hr.frames ▸ hx)

/-- **What the parts record is enough.** -/
theorem correct (hp : Parts us s) (hsound : ∀ u ∈ us, Sound u) : PoolCorrect s where
  disjoint := hp.disjoint
  inside := by
    intro c hc
    obtain ⟨u, hu, hcu⟩ := hp.inside hc
    obtain ⟨hlow, hhigh, -⟩ := (hsound u hu).inside hcu
    exact ⟨u.alloc, by rw [hp.trees]; exact List.mem_map_of_mem hu, hlow, hhigh⟩
  holds_iff := by
    intro t ht x hx
    obtain ⟨u, hu, rfl⟩ := hp.mem_tree ht
    exact hp.holds_iff hu (hsound u hu) hx
  routed := fun _ _ _ _ htrees hin => hp.routed htrees hin
  foreign := fun _ hout => foreign s hout
  free_base := fun _ hc => hp.free_base hc
  fits := fun count _ => fits s count
  coalesced := hp.coalesced hsound

end Parts

/-- Each tree is recorded, after any sequence of calls. -/
theorem parts_of_framePool (hp : ∃ us, Parts us ⟨pool, []⟩ ∧ ∀ u ∈ us, Sound u)
    (hs : (framePool pool).Reachable s) : ∃ us, Parts us s ∧ ∀ u ∈ us, Sound u := by
  refine EventSystem.Reach.invariant (I := fun s => ∃ us, Parts us s ∧ ∀ u ∈ us, Sound u)
    (fun s hs => ?_) (fun s e s' hi _ hn => ?_) hs
  · obtain rfl := hs
    exact hp
  · obtain ⟨us, hp, hsound⟩ := hi
    have hstep : ∃ us', Parts us' s' ∧ Follows us us' := by
      cases e with
      | alloc count => exact hp.alloc hn
      | free frame => exact hp.free hsound hn
    obtain ⟨us', hp', hfollows⟩ := hstep
    exact ⟨us', hp', hfollows.sound hsound⟩

/-! ### How a pool is built -/

variable {runs : List Added} {room : HeapRoom} {start len : ℕ}

/-- What is known of an `add` that was made. -/
structure Added.Made (r : Added) : Prop where
  laid : ∃ left, Laid r.room.nodes r.start (r.len / pageSize) left r.trees
  covered : r.Covered
  /-- There is a first tree where the run has a frame and the heap has room for one. -/
  begun : r.trees ≠ [] ↔ r.len / pageSize ≠ 0 ∧ r.begun = true

/-- What an `add` pushes, and that it is what `add` is for. -/
theorem Added.spec (pool : FramePool) (room : HeapRoom) (haligned : start % pageSize = 0) (len : ℕ) :
    (pool.add room start len).2 = ⟨pool.trees ++ (Added.of pool room start len).trees⟩ ∧
      (Added.of pool room start len).Made := by
  obtain ⟨ts, left, htrees, hlaid, hfirst, hanswer⟩ := FramePool.add_spec pool room haligned len
  have hts : (Added.of pool room start len).trees = ts := by
    rw [Added.of]
    dsimp only
    rw [htrees, List.drop_left]
  have hframes := hlaid.frames_eq
  refine ⟨by rw [hts, htrees], ⟨left, hts ▸ hlaid⟩, ⟨fun count hok => ?_, fun e herror => ?_⟩, ?_⟩
  · rcases hanswer with ⟨hleft, hok'⟩ | ⟨-, herror', -⟩
    · have hcount : Except.ok count = Except.ok (len / pageSize) := hok.symm.trans hok'
      obtain rfl := Except.ok.inj hcount
      rw [hts]
      exact ⟨rfl, hlaid.metadata hleft, hlaid.countP_contains hleft⟩
    · cases hok.symm.trans herror'
  · rcases hanswer with ⟨-, hok'⟩ | ⟨hleft, herror', hrefused⟩
    · cases herror.symm.trans hok'
    · obtain rfl := Except.error.inj (herror.symm.trans herror')
      refine ⟨rfl, left, hleft, ?_⟩
      rw [hts]
      exact ⟨hframes, hrefused⟩
  · rw [hts, Added.begun, Bool.and_eq_true]
    show ts ≠ [] ↔ len / pageSize ≠ 0 ∧ room.nodes (2 * prevPowerOfTwo (len / pageSize) - 1) = true ∧
      room.tree pool.trees.length = true
    constructor
    · intro hne
      obtain ⟨t, ts, rfl⟩ := List.exists_cons_of_ne_nil hne
      obtain ⟨hlen, -, -, hnodes⟩ := hlaid.head
      exact ⟨hlen, hnodes, hfirst hne⟩
    · rintro ⟨hlen, hnodes, htree⟩ rfl
      rw [FramePool.total, Nat.zero_add] at hframes
      rcases hanswer with ⟨hleft, -⟩ | ⟨-, -, hrefused⟩
      · exact hlen (hframes.symm.trans hleft)
      · rw [hframes] at hrefused
        rcases hrefused with hrefused | hrefused
        · cases hrefused.symm.trans hnodes
        · cases hrefused.symm.trans htree

namespace Built

/-- The trees of a pool are those that were pushed. -/
theorem trees_eq (hbuilt : Built runs pool) : pool.trees = runs.flatMap (·.trees) := by
  induction hbuilt with
  | new => rfl
  | @add runs pool room start len _ haligned ih =>
    rw [(Added.spec pool room haligned len).1, List.flatMap_append, List.flatMap_singleton, ← ih]

theorem made (hbuilt : Built runs pool) {r : Added} (hr : r ∈ runs) : r.Made := by
  induction hbuilt with
  | new => cases hr
  | @add runs pool room start len _ haligned ih =>
    rcases List.mem_append.mp hr with hr | hr
    · exact ih hr
    · rw [List.mem_singleton.mp hr]
      exact (Added.spec pool room haligned len).2

/-- A tree of the pool was built over a piece of one of the runs. -/
theorem mem_new (hbuilt : Built runs pool) (ht : t ∈ pool.trees) :
    ∃ r ∈ runs, t ∈ r.trees ∧ ∃ start frames, frames ≠ 0 ∧ frames ≤ r.len / pageSize ∧
      BuddyFrameAllocator.new r.room.nodes start (prevPowerOfTwo frames * pageSize) = .ok t := by
  rw [hbuilt.trees_eq] at ht
  obtain ⟨r, hr, ht⟩ := List.mem_flatMap.mp ht
  obtain ⟨left, hlaid⟩ := (hbuilt.made hr).laid
  exact ⟨r, hr, ht, hlaid.mem_new ht⟩

/-- A run with fewer than `2 ^ 32` frames has pieces that fit a `u32`. -/
theorem log2_lt {frames : ℕ} (hne : frames ≠ 0) (hle : frames ≤ len / pageSize)
    (hlen : len < 2 ^ 44) : frames.log2 < 32 :=
  (Nat.log2_lt hne).mpr (hle.trans_lt ((Nat.div_lt_iff_lt_mul (by decide)).mpr hlen))

/-- The trees of runs that are apart are apart. -/
theorem pairwise (hbuilt : Built runs pool) (hapart : runs.Pairwise Added.Apart) :
    pool.trees.Pairwise BuddyFrameAllocator.Apart := by
  rw [hbuilt.trees_eq]
  refine List.pairwise_flatMap.mpr ⟨fun r hr => ?_, hapart.imp_of_mem fun {r r'} hr hr' h => ?_⟩
  · obtain ⟨left, hlaid⟩ := (hbuilt.made hr).laid
    exact hlaid.pairwise.imp .inl
  · intro t ht t' ht'
    obtain ⟨left, hlaid⟩ := (hbuilt.made hr).laid
    obtain ⟨left', hlaid'⟩ := (hbuilt.made hr').laid
    obtain ⟨hlow, hhigh, -⟩ := hlaid.mem ht
    obtain ⟨hlow', hhigh', -⟩ := hlaid'.mem ht'
    have hlen := Nat.div_mul_le_self r.len pageSize
    have hlen' := Nat.div_mul_le_self r'.len pageSize
    rw [BuddyFrameAllocator.Apart]
    rw [Added.Apart] at h
    omega

/-- A new pool is made of parts. A tree of `2 ^ 32` frames or more has 0 recorded at its root. -/
theorem parts (hbuilt : Built runs pool) (hapart : runs.Pairwise Added.Apart) :
    Parts (pool.trees.map fun t => ⟨t, []⟩) ⟨pool, []⟩ where
  trees := by
    rw [List.map_map]
    exact (List.map_id _).symm
  sound := by
    intro u hu
    obtain ⟨t, ht, rfl⟩ := List.mem_map.mp hu
    obtain ⟨r, hr, htr, start, frames, hne, hle, hnew⟩ := hbuilt.mem_new ht
    obtain ⟨rfl, hcount, hroot, haligned, hrec⟩ := new_piece hne hnew
    by_cases hlog : frames.log2 < 32
    · exact .inl ⟨haligned, _, hlog, hrec hlog⟩
    · refine .inr ⟨haligned, ?_, rfl⟩
      rw [hroot, hcount, prevPowerOfTwo_eq hne]
      exact Nat.mod_eq_zero_of_dvd (Nat.pow_dvd_pow 2 (Nat.not_lt.mp hlog))
  apart := List.pairwise_map.mpr (hbuilt.pairwise hapart)
  live := by
    refine List.Perm.of_eq (List.flatMap_eq_nil_iff.mpr fun u hu => ?_).symm
    obtain ⟨t, -, rfl⟩ := List.mem_map.mp hu
    rfl

/-- **Each tree of a pool of runs shorter than `2 ^ 44` bytes is recorded.** -/
theorem sound (hbuilt : Built runs pool) (hlen : ∀ r ∈ runs, r.begun = true → r.len < 2 ^ 44) :
    ∀ u ∈ pool.trees.map fun t => (⟨t, []⟩ : BuddyState), Sound u := by
  intro u hu
  obtain ⟨t, ht, rfl⟩ := List.mem_map.mp hu
  obtain ⟨r, hr, htr, start, frames, hne, hle, hnew⟩ := hbuilt.mem_new ht
  have hbegun := ((hbuilt.made hr).begun.mp (List.ne_nil_of_mem htr)).2
  obtain ⟨rfl, -, -, haligned, hrec⟩ := new_piece hne hnew
  have hlog := log2_lt hne hle (hlen r hr hbegun)
  exact ⟨haligned, _, hlog, hrec hlog⟩

/-- No tree has more recorded at its root than it has frames, when it is new. -/
theorem largestFreeRun_le (hbuilt : Built runs pool) (ht : t ∈ pool.trees) :
    t.largestFreeRun ≤ t.frames := by
  obtain ⟨r, -, -, start, frames, hne, -, hnew⟩ := hbuilt.mem_new ht
  rw [largestFreeRun, (new_piece hne hnew).2.2.1]
  exact Nat.mod_le _ _

/-- **A run of `2 ^ 44` bytes has a tree that is free, and has nothing recorded as free.** -/
theorem coalesced_ne (hbuilt : Built runs pool) {r : Added} (hr : r ∈ runs)
    (hbegun : r.begun = true) (hlen : 2 ^ 44 ≤ r.len) : pool.coalescedFrames ≠ pool.frames := by
  have hframes : 2 ^ 32 ≤ r.len / pageSize := (Nat.le_div_iff_mul_le (by decide)).mpr hlen
  have hne : r.len / pageSize ≠ 0 := by omega
  obtain ⟨t, ts, htrees⟩ := List.exists_cons_of_ne_nil ((hbuilt.made hr).begun.mpr ⟨hne, hbegun⟩)
  obtain ⟨left, hlaid⟩ := (hbuilt.made hr).laid
  rw [htrees] at hlaid
  obtain ⟨-, hcount, hroot, -⟩ := hlaid.head
  have ht : t ∈ pool.trees := by
    rw [hbuilt.trees_eq]
    exact List.mem_flatMap.mpr ⟨r, hr, by rw [htrees]; exact List.mem_cons_self⟩
  intro heq
  have hwhole := (FramePool.total_eq_iff fun t ht => hbuilt.largestFreeRun_le ht).mp heq t ht
  have hzero : asU32 t.frames = 0 := by
    rw [hcount, prevPowerOfTwo_eq hne]
    exact Nat.mod_eq_zero_of_dvd (Nat.pow_dvd_pow 2 ((Nat.le_log2 hne).mpr hframes))
  have hpos := prevPowerOfTwo_pos hne
  rw [largestFreeRun, hroot, hzero] at hwhole
  omega

end Built

/-! ### When a pool is correct -/

/-- **A pool does what it is for exactly if every run it has trees for is shorter than `2 ^ 44`
bytes.** -/
theorem pool_correct_iff (hbuilt : Built runs pool) (hapart : runs.Pairwise Added.Apart) :
    (pool.trees = runs.flatMap (·.trees) ∧ (∀ r ∈ runs, r.Covered) ∧
      ∀ s, (framePool pool).Reachable s → PoolCorrect s) ↔
    ∀ r ∈ runs, r.begun = true → r.len < 2 ^ 44 := by
  constructor
  · rintro ⟨-, -, hcorrect⟩ r hr hbegun
    by_contra hlen
    exact hbuilt.coalesced_ne hr hbegun (Nat.not_lt.mp hlen)
      ((hcorrect ⟨pool, []⟩ (.init rfl)).coalesced.mpr rfl)
  · intro hlen
    refine ⟨hbuilt.trees_eq, fun r hr => (hbuilt.made hr).covered, fun s hs => ?_⟩
    obtain ⟨us, hp, hsound⟩ :=
      parts_of_framePool ⟨_, hbuilt.parts hapart, hbuilt.sound hlen⟩ hs
    exact hp.correct hsound

/-- Seven pages and five pages, in two places. -/
theorem pool_correct_iff_two : ∃ runs pool, Built runs pool ∧
    runs.map (fun r => (r.start, r.len)) = [(0x200000, 7 * pageSize), (0x40000000, 5 * pageSize)] ∧
    (∀ r ∈ runs, r.Covered) ∧ ∀ s, (framePool pool).Reachable s → PoolCorrect s := by
  have hlow := Built.new.add ⟨fun _ => true, fun _ => true⟩ 0x200000 (7 * pageSize) rfl
  have hbuilt := hlow.add ⟨fun _ => true, fun _ => true⟩ 0x40000000 (5 * pageSize) rfl
  obtain ⟨-, hcovered, hcorrect⟩ := (pool_correct_iff hbuilt
    (List.pairwise_pair.mpr (.inl (by decide)))).mpr fun r hr _ => by
      rcases List.mem_pair.mp hr with rfl | rfl <;> decide
  exact ⟨_, _, hbuilt, rfl, hcovered, hcorrect⟩

/-- Sixteen tebibytes with nothing live, and they do not count as put together. -/
theorem pool_not_correct : ¬ ∀ (runs : List Added) (pool : FramePool), Built runs pool →
    runs.Pairwise Added.Apart → ∀ s, (framePool pool).Reachable s → PoolCorrect s := by
  intro hall
  have hbuilt := Built.new.add ⟨fun _ => true, fun _ => true⟩ 0 (2 ^ 44) rfl
  have hcorrect := hall _ _ hbuilt (List.pairwise_singleton _ _) _ (.init rfl)
  exact hbuilt.coalesced_ne List.mem_cons_self rfl (Nat.le_refl _) (hcorrect.coalesced.mpr rfl)

end StarOS
