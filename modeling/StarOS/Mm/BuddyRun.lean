import StarOS.Mm.BuddyTree

/-!
# What the frame allocator answers

A tree of fewer than `2 ^ 32` frames is recorded exactly, in every state. From `2 ^ 32` frames on
the run recorded at the root of a free tree does not fit a `u32` and is recorded as 0: a region of
16 TiB is refused every allocation from the first.

## Main definitions

* `Correct` — what an allocator is for

## Main results

* `recorded_of_buddy` — some tree is recorded after any sequence of calls
* `buddy_correct_iff` — an allocator is correct exactly if its region is shorter than `2 ^ 44` bytes
-/

namespace StarOS

open BuddyFrameAllocator

/-- Whether the array has a frame as handed out: the climb from it finds the block it is in. -/
def BuddyFrameAllocator.holds (b : BuddyFrameAllocator) (x : ℕ) : Bool :=
  (climb b.longest (b.levels + 1) (x + b.frames - 1) 1).isSome

/-- What an allocator is for, `b` being how it started. -/
structure Correct (b : BuddyFrameAllocator) (s : BuddyState) : Prop where
  /-- No frame is in two blocks. -/
  disjoint : s.live.Pairwise Block.Disjoint
  /-- A block lies in the region, a power of two long and aligned to that. -/
  inside : ∀ c ∈ s.live, c.limit ≤ b.frames ∧ ∃ k, c.size = 2 ^ k ∧ 2 ^ k ∣ c.addr
  /-- A request is given what fits it. -/
  given : ∀ count ≤ 2 ^ 63, ∀ frame ∈ (s.alloc.allocPages count).1,
    ∃ p, frame = b.base + p * pageSize ∧ s.FreeRun (nextPowerOfTwo (max count 1)) p
  /-- A request is refused only when nothing fits it. -/
  fits : ∀ count ≤ 2 ^ 63, (s.alloc.allocPages count).1.isSome ↔
    ∃ p, s.FreeRun (nextPowerOfTwo (max count 1)) p
  /-- The largest run is a run that is free, if any is, and none is larger. -/
  largest_run : (s.alloc.largestFreeRun = 0 ∨
      ∃ k p, s.alloc.largestFreeRun = 2 ^ k ∧ s.FreeRun (2 ^ k) p) ∧
    ∀ k p, s.FreeRun (2 ^ k) p → 2 ^ k ≤ s.alloc.largestFreeRun
  /-- What the array has as handed out is what is live. -/
  holds_iff : ∀ x < b.frames, s.alloc.holds x ↔ Block.Cover s.live x
  /-- Freeing the base of a block frees that block. -/
  free_base : ∀ c ∈ s.live,
    (s.next (.free (b.base + c.addr * pageSize))).map (·.live) = some (s.live.erase c) ∧
    ∀ x < b.frames, (s.alloc.freePages (b.base + c.addr * pageSize)).holds x ↔
      s.alloc.holds x ∧ x ∉ c
  /-- Freeing an address that is in no block changes nothing. -/
  free_other : ∀ frame, (∀ c ∈ s.live, s.names frame c = false) → s.alloc.freePages frame = s.alloc
  /-- When everything is freed the tree is what it was. -/
  empty : s.live = [] → s.alloc = b

/-- What holds of the array and of the blocks that are live. -/
structure Recorded (b : BuddyFrameAllocator) (h : ℕ) (s : BuddyState) : Prop where
  base : s.alloc.base = b.base
  frames : s.alloc.frames = 2 ^ h
  tree : ∃ t : Buddy h, t.Whole ∧ Represents s.alloc.longest t 0 ∧ (t.blocks 0).Perm s.live
  /-- The array ends with the last frame. -/
  rest : ∀ j, ¬ Below 0 h j → s.alloc.longest j = 0

variable {b : BuddyFrameAllocator} {h k x : ℕ} {s s' : BuddyState} {t : Buddy h}

namespace BuddyState

theorem names_iff (frame : ℕ) (c : Block) :
    s.names frame c ↔ s.alloc.base ≤ frame ∧ (frame - s.alloc.base) / pageSize ∈ c := by
  simp [names, Block.mem_iff, and_assoc]

end BuddyState

theorem cover_perm {l₁ l₂ : List Block} (hp : l₁.Perm l₂) : Block.Cover l₁ x ↔ Block.Cover l₂ x := by
  simp only [Block.Cover, hp.mem_iff]

/-- The free runs are those of the tree. -/
theorem freeRun_iff (hframes : s.alloc.frames = 2 ^ h) (hp : (t.blocks 0).Perm s.live) (p : ℕ) :
    s.FreeRun (2 ^ k) p ↔ Buddy.FreeRun 0 t k p := by
  constructor
  · rintro ⟨haligned, hlimit, hfree⟩
    refine ⟨Nat.zero_le p, haligned, by omega, fun x hx hlt => ?_⟩
    rw [cover_perm hp]
    exact hfree x hx hlt
  · rintro ⟨-, haligned, hlimit, hfree⟩
    refine ⟨haligned, by omega, fun x hx hlt => ?_⟩
    rw [← cover_perm hp]
    exact hfree x hx hlt

namespace Recorded

theorem levels (r : Recorded b h s) : s.alloc.levels = h := by
  rw [BuddyFrameAllocator.levels, r.frames, Nat.log2_two_pow]

/-- Every size asked for is a power of two. -/
theorem size_eq (count : ℕ) : ∃ k, nextPowerOfTwo (max count 1) = 2 ^ k :=
  (nextPowerOfTwo_spec _).imp fun _ h => h.1

/-- What `allocPages` does in the tree. -/
theorem allocPages_spec (r : Recorded b h s) (ht : t.Whole)
    (hrep : Represents s.alloc.longest t 0) {count : ℕ}
    (hk : nextPowerOfTwo (max count 1) = 2 ^ k) :
    (t.largest < 2 ^ k ∧ s.alloc.allocPages count = (none, s.alloc)) ∨
    (2 ^ k ≤ t.largest ∧ k ≤ h ∧ ∃ longest,
      s.alloc.allocPages count =
        (some (b.base + (t.place k).1 * pageSize), ⟨b.base, 2 ^ h, longest⟩) ∧
      Represents longest (t.place k).2 0 ∧ ∀ j, ¬ Below 0 h j → longest j = s.alloc.longest j) := by
  rw [allocPages, hk, hrep.eq_largest]
  by_cases hlt : t.largest < 2 ^ k
  · exact .inl ⟨hlt, if_pos hlt⟩
  · have hfit := Nat.not_lt.mp hlt
    have hkh : k ≤ h :=
      (Nat.pow_le_pow_iff_right (a := 2) (by decide)).mp (hfit.trans t.largest_le)
    obtain ⟨j, d, longest, hdesc, hplace, hwalk⟩ := descend_spec ht hrep hkh hfit
    refine .inr ⟨hfit, hkh, longest, ?_, hwalk.represents, hwalk.frame⟩
    have hd : d ≤ h := by
      have := hwalk.height
      omega
    have hoffset : (j + 1) * 2 ^ k - 2 ^ h = (t.place k).1 := by omega
    rw [if_neg hlt, r.levels, r.frames, hdesc]
    dsimp only
    rw [hoffset, ascend_eq_rise _ hd hwalk.below, ← hwalk.eq, r.base]

/-- What `freePages` does in the tree. -/
theorem freePages_spec (r : Recorded b h s) (hh : h < 32) (ht : t.Whole)
    (hrep : Represents s.alloc.longest t 0) {frame : ℕ} (hbase : b.base ≤ frame)
    (hx : (frame - b.base) / pageSize < 2 ^ h) :
    (¬ Block.Cover (t.blocks 0) ((frame - b.base) / pageSize) ∧
      s.alloc.freePages frame = s.alloc) ∨
    (Block.Cover (t.blocks 0) ((frame - b.base) / pageSize) ∧ ∃ longest,
      s.alloc.freePages frame = ⟨b.base, 2 ^ h, longest⟩ ∧
      Represents longest (t.release ((frame - b.base) / pageSize)) 0 ∧
      ∀ j, ¬ Below 0 h j → longest j = s.alloc.longest j) := by
  have hleaf : (frame - b.base) / pageSize + 2 ^ h - 1 =
      (0 + 1) * 2 ^ h + (frame - b.base) / pageSize - 1 := by omega
  rw [freePages, r.base, if_neg (Nat.not_lt.mpr hbase)]
  dsimp only
  rw [r.frames, if_neg (Nat.not_le.mpr hx), r.levels, hleaf]
  rcases climb_spec ht hh hrep hx 0 with ⟨hc, j, k, d, longest, hclimb, hwalk⟩ | ⟨hc, hne, hclimb⟩
  · rw [Nat.zero_add] at hc
    refine .inr ⟨hc, longest, ?_, hwalk.represents, hwalk.frame⟩
    have hheight := hwalk.height
    have hlow : asU32 (2 ^ k) = 2 ^ k :=
      Nat.mod_eq_of_lt (Nat.pow_lt_pow_right (by decide) (by omega))
    have hclimb := hclimb 0
    rw [Nat.add_zero] at hclimb
    rw [hclimb]
    dsimp only
    rw [hlow, ascend_eq_rise _ (by omega) hwalk.below, ← hwalk.eq]
  · rw [Nat.zero_add] at hc
    refine .inl ⟨hc, ?_⟩
    rw [hclimb, climb, if_neg hne, if_pos rfl]

/-- An address outside the region is in no block. -/
theorem freePages_outside (r : Recorded b h s) {frame : ℕ}
    (hout : frame < b.base ∨ 2 ^ h ≤ (frame - b.base) / pageSize) :
    s.alloc.freePages frame = s.alloc := by
  rw [freePages, r.base, r.frames]
  rcases hout with hlt | hge
  · rw [if_pos hlt]
  · split
    · rfl
    · exact if_pos hge

theorem holds_iff_cover (r : Recorded b h s) (hh : h < 32) (ht : t.Whole)
    (hrep : Represents s.alloc.longest t 0) (hx : x < 2 ^ h) :
    s.alloc.holds x ↔ Block.Cover (t.blocks 0) x := by
  have hleaf : x + 2 ^ h - 1 = (0 + 1) * 2 ^ h + x - 1 := by omega
  rw [holds, r.levels, r.frames, hleaf]
  rcases climb_spec ht hh hrep hx 0 with ⟨hc, j, k, d, longest, hclimb, -⟩ | ⟨hc, hne, hclimb⟩
  · rw [Nat.zero_add] at hc
    have hclimb := hclimb 0
    rw [Nat.add_zero] at hclimb
    rw [hclimb]
    exact ⟨fun _ => hc, fun _ => rfl⟩
  · rw [Nat.zero_add] at hc
    rw [hclimb, climb, if_neg hne, if_pos rfl]
    exact iff_of_false Bool.false_ne_true hc

/-! ### One call -/

theorem alloc (r : Recorded b h s) {count : ℕ} (hn : s.next (.alloc count) = some s') :
    Recorded b h s' := by
  obtain ⟨t, ht, hrep, hp⟩ := r.tree
  obtain ⟨-, hn⟩ := Option.ite_none_right_eq_some.mp hn
  obtain ⟨k, hk⟩ := size_eq count
  rcases r.allocPages_spec ht hrep hk with ⟨-, heq⟩ | ⟨hfit, hkh, longest, heq, hrep', hframe⟩
  · rw [heq] at hn
    obtain rfl := Option.some.inj hn
    exact ⟨r.base, r.frames, ⟨t, ht, hrep, hp⟩, r.rest⟩
  · rw [heq, hk] at hn
    obtain rfl := Option.some.inj hn
    obtain ⟨ht', -, -, hp'⟩ := Buddy.place_spec ht hkh hfit 0
    refine ⟨rfl, rfl, ⟨_, ht', hrep', ?_⟩, fun j hj => (hframe j hj).trans (r.rest j hj)⟩
    have haddr : (b.base + (t.place k).1 * pageSize - s.alloc.base) / pageSize = (t.place k).1 := by
      rw [r.base, Nat.add_sub_cancel_left]
      exact Nat.mul_div_cancel _ (by decide)
    dsimp only
    rw [haddr]
    rw [Nat.zero_add] at hp'
    exact hp'.trans (hp.cons _)

theorem free (r : Recorded b h s) (hh : h < 32) {frame : ℕ} (hn : s.next (.free frame) = some s') :
    Recorded b h s' := by
  obtain ⟨t, ht, hrep, hp⟩ := r.tree
  obtain rfl := Option.some.inj hn
  have hinside : ∀ c ∈ s.live, c.limit ≤ 2 ^ h := fun c hc => by
    have := (Buddy.mem_blocks (hp.mem_iff.mpr hc)).2.1
    omega
  -- an address that names no block leaves both as they were
  have hsame : s.alloc.freePages frame = s.alloc → (∀ c ∈ s.live, s.names frame c = false) →
      Recorded b h ⟨s.alloc.freePages frame, s.live.filter fun c => !s.names frame c⟩ := by
    intro heq hnames
    rw [heq, List.filter_eq_self.mpr fun c hc => by rw [hnames c hc]; rfl]
    exact r
  by_cases hout : frame < b.base ∨ 2 ^ h ≤ (frame - b.base) / pageSize
  · refine hsame (r.freePages_outside hout) fun c hc => ?_
    rw [Bool.eq_false_iff, Ne, BuddyState.names_iff, r.base]
    rintro ⟨hle, -, hlt⟩
    have := hinside c hc
    omega
  · have hbase : b.base ≤ frame := by omega
    have hx : (frame - b.base) / pageSize < 2 ^ h := by omega
    rcases r.freePages_spec hh ht hrep hbase hx with ⟨hc, heq⟩ | ⟨-, longest, heq, hrep', hframe⟩
    · refine hsame heq fun c hmem => ?_
      rw [Bool.eq_false_iff, Ne, BuddyState.names_iff, r.base]
      rintro ⟨-, hin⟩
      exact hc ⟨c, hp.mem_iff.mpr hmem, hin⟩
    · rw [heq]
      refine ⟨rfl, rfl, ⟨_, Buddy.whole_release ht _, hrep', ?_⟩,
        fun j hj => (hframe j hj).trans (r.rest j hj)⟩
      rw [Buddy.blocks_release t 0 hx, Nat.zero_add]
      refine (hp.filter _).trans (List.Perm.of_eq (List.filter_congr fun c _ => ?_))
      simp [BuddyState.names, r.base, hbase]

/-- The array of a new allocator records a free tree. -/
theorem init {reserve : ℕ → Bool} {start len : ℕ} (hnew : new reserve start len = .ok b)
    (hh : (len / pageSize).log2 < 32) : Recorded b (len / pageSize).log2 ⟨b, []⟩ := by
  obtain ⟨-, -, hframes, hlongest⟩ := new_eq_ok hnew
  have hfree : ∀ d ≤ (len / pageSize).log2, ∀ j, (j + 1).log2 = (len / pageSize).log2 - d →
      b.longest j = 2 ^ d := by
    intro d hd j hj
    have hin : j < 2 * b.frames - 1 := by
      have hlt : j + 1 < 2 ^ ((j + 1).log2 + 1) := Nat.lt_log2_self
      have hle : 2 ^ ((j + 1).log2 + 1) ≤ 2 ^ ((len / pageSize).log2 + 1) :=
        Nat.pow_le_pow_right (by decide) (by omega)
      rw [Nat.pow_succ 2 (len / pageSize).log2] at hle
      omega
    rw [hlongest j, if_pos hin, hframes, hj, Nat.pow_div (by omega) (by decide),
      Nat.sub_sub_self hd]
    exact Nat.mod_eq_of_lt (Nat.pow_lt_pow_right (by decide) (by omega))
  have hfull : ∀ d ≤ (len / pageSize).log2, ∀ j, (j + 1).log2 = (len / pageSize).log2 - d →
      Full b.longest d j := by
    intro d
    induction d with
    | zero => exact fun _ _ _ => trivial
    | succ d ih =>
      intro hd j hj
      have hchild : ∀ c, c = 2 * j + 1 ∨ c = 2 * j + 2 →
          (c + 1).log2 = (len / pageSize).log2 - d := by
        intro c hc
        have hlow : 2 ^ (j + 1).log2 ≤ j + 1 := Nat.log2_self_le (Nat.succ_ne_zero j)
        have hhigh : j + 1 < 2 ^ ((j + 1).log2 + 1) := Nat.lt_log2_self
        have hlevel : (len / pageSize).log2 - d = (j + 1).log2 + 1 := by omega
        rw [hlevel]
        refine (Nat.log2_eq_iff (by omega)).mpr ⟨?_, ?_⟩
        · rw [Nat.pow_succ]
          omega
        · rw [Nat.pow_succ]
          omega
      have hl := hchild _ (.inl rfl)
      have hr := hchild _ (.inr rfl)
      exact ⟨⟨hfree d (by omega) _ hl, ih (by omega) _ hl⟩, hfree d (by omega) _ hr, ih (by omega) _ hr⟩
  refine ⟨rfl, hframes, ⟨.free, trivial, ⟨?_, ?_⟩, .nil⟩, fun j hj => ?_⟩
  · exact hfree _ (Nat.le_refl _) 0 (by rw [Nat.sub_self]; rfl)
  · exact hfull _ (Nat.le_refl _) 0 (by rw [Nat.sub_self]; rfl)
  · rw [below_root_iff, ← hframes] at hj
    show b.longest j = 0
    rw [hlongest j, if_neg hj]

/-! ### What follows -/

/-- When nothing is live the array is what it was. -/
theorem eq_of_nil (r₀ : Recorded b h ⟨b, []⟩) (r : Recorded b h s) (hnil : s.live = []) :
    s.alloc = b := by
  obtain ⟨t₀, ht₀, hrep₀, hp₀⟩ := r₀.tree
  obtain ⟨t, ht, hrep, hp⟩ := r.tree
  rw [hnil] at hp
  obtain rfl := (Buddy.eq_free_iff ht₀).mpr hp₀.eq_nil
  obtain rfl := (Buddy.eq_free_iff ht).mpr hp.eq_nil
  have hlongest : s.alloc.longest = b.longest := by
    funext j
    by_cases hj : Below 0 h j
    · exact Full.unique (hrep.1.trans hrep₀.1.symm) hrep.2 hrep₀.2 hj
    · rw [r.rest j hj]
      exact (r₀.rest j hj).symm
  have hbase := r.base
  have hframes : s.alloc.frames = b.frames := r.frames.trans r₀.frames.symm
  cases halloc : s.alloc
  rw [halloc] at hbase hframes hlongest
  subst hbase hframes hlongest
  rfl

theorem disjoint (r : Recorded b h s) : s.live.Pairwise Block.Disjoint := by
  obtain ⟨t, -, -, hp⟩ := r.tree
  exact (hp.pairwise_iff Block.Disjoint.symm).mp (t.disjoint_blocks 0)

theorem inside (r : Recorded b h s) {c : Block} (hc : c ∈ s.live) :
    c.limit ≤ 2 ^ h ∧ ∃ k, c.size = 2 ^ k ∧ 2 ^ k ∣ c.addr := by
  obtain ⟨t, -, -, hp⟩ := r.tree
  obtain ⟨-, hlim, hk⟩ := Buddy.mem_blocks (hp.mem_iff.mpr hc)
  exact ⟨by omega, hk⟩

/-- The first frame of a live block is one of its frames. -/
theorem addr_mem (r : Recorded b h s) {c : Block} (hc : c ∈ s.live) : c.addr ∈ c := by
  obtain ⟨-, k, hk, -⟩ := r.inside hc
  have hpos := Nat.two_pow_pos k
  exact ⟨Nat.le_refl _, by rw [Block.limit]; omega⟩

theorem holds_iff (r : Recorded b h s) (hh : h < 32) (hx : x < 2 ^ h) :
    s.alloc.holds x ↔ Block.Cover s.live x := by
  obtain ⟨t, ht, hrep, hp⟩ := r.tree
  exact (r.holds_iff_cover hh ht hrep hx).trans (cover_perm hp)

/-- A request fits exactly if the largest run recorded is as large. -/
theorem fits_iff_freeRun (r : Recorded b h s) (k : ℕ) :
    2 ^ k ≤ s.alloc.largestFreeRun ↔ ∃ p, s.FreeRun (2 ^ k) p := by
  obtain ⟨t, ht, hrep, hp⟩ := r.tree
  rw [largestFreeRun, hrep.eq_largest, Buddy.le_largest_iff (o := 0) ht]
  exact exists_congr fun p => (freeRun_iff r.frames hp p).symm

theorem largest_run (r : Recorded b h s) :
    s.alloc.largestFreeRun = 0 ∨
      ∃ k p, s.alloc.largestFreeRun = 2 ^ k ∧ s.FreeRun (2 ^ k) p := by
  obtain ⟨t, ht, hrep, hp⟩ := r.tree
  have hroot : s.alloc.largestFreeRun = t.largest := hrep.eq_largest
  rw [hroot]
  refine t.largest_eq.imp_right fun ⟨k, hk⟩ => ?_
  obtain ⟨p, hp⟩ := (r.fits_iff_freeRun k).mp (hk.ge.trans hroot.ge)
  exact ⟨k, p, hk, hp⟩

/-- A request is given a run that was free. -/
theorem given (r : Recorded b h s) (count : ℕ) {frame : ℕ}
    (hframe : frame ∈ (s.alloc.allocPages count).1) :
    ∃ p, frame = b.base + p * pageSize ∧ s.FreeRun (nextPowerOfTwo (max count 1)) p := by
  obtain ⟨t, ht, hrep, hp⟩ := r.tree
  obtain ⟨k, hk⟩ := size_eq count
  rcases r.allocPages_spec ht hrep hk with ⟨-, heq⟩ | ⟨hfit, hkh, longest, heq, -⟩
  · rw [heq] at hframe
    cases hframe
  · rw [heq] at hframe
    obtain rfl := Option.mem_some.mp hframe
    obtain ⟨-, hdvd, hlim, hplace⟩ := Buddy.place_spec ht hkh hfit 0
    rw [Nat.zero_add] at hplace
    have hpair := (hplace.pairwise_iff Block.Disjoint.symm).mp (Buddy.disjoint_blocks _ 0)
    rw [hk]
    refine ⟨_, rfl, (freeRun_iff r.frames hp _).mpr
      ⟨Nat.zero_le _, hdvd, by omega, fun x hx hlt => ?_⟩⟩
    rintro ⟨c, hc, hxc⟩
    exact (List.pairwise_cons.mp hpair).1 c hc x ⟨hx, hlt⟩ hxc

theorem isSome_iff (r : Recorded b h s) (count : ℕ) :
    (s.alloc.allocPages count).1.isSome ↔
      ∃ p, s.FreeRun (nextPowerOfTwo (max count 1)) p := by
  obtain ⟨t, ht, hrep, hp⟩ := r.tree
  obtain ⟨k, hk⟩ := size_eq count
  rw [hk, ← r.fits_iff_freeRun k, largestFreeRun, hrep.eq_largest]
  rcases r.allocPages_spec ht hrep hk with ⟨hlt, heq⟩ | ⟨hfit, -, longest, heq, -⟩
  · rw [heq]
    exact ⟨nofun, fun hle => absurd hle (Nat.not_le.mpr hlt)⟩
  · rw [heq]
    exact ⟨fun _ => hfit, fun _ => rfl⟩

/-- The base of a block is in no other. -/
theorem names_base (r : Recorded b h s) {c d : Block} (hc : c ∈ s.live) (hd : d ∈ s.live) :
    s.names (b.base + c.addr * pageSize) d = decide (d = c) := by
  have haddr : (b.base + c.addr * pageSize - b.base) / pageSize = c.addr := by
    rw [Nat.add_sub_cancel_left]
    exact Nat.mul_div_cancel _ (by decide)
  rw [Bool.eq_iff_iff, BuddyState.names_iff, r.base, haddr, decide_eq_true_eq]
  constructor
  · rintro ⟨-, hin⟩
    by_contra hne
    exact r.disjoint.forall hd hc hne c.addr hin (r.addr_mem hc)
  · rintro rfl
    exact ⟨Nat.le_add_right .., r.addr_mem hd⟩

/-- **Freeing the base of a block frees that block.** -/
theorem free_base (r : Recorded b h s) (hh : h < 32) {c : Block} (hc : c ∈ s.live) :
    (s.next (.free (b.base + c.addr * pageSize))).map (·.live) = some (s.live.erase c) ∧
    ∀ x < 2 ^ h, (s.alloc.freePages (b.base + c.addr * pageSize)).holds x ↔
      s.alloc.holds x ∧ x ∉ c := by
  have hnodup : s.live.Nodup := r.disjoint.imp_of_mem fun hd _ hde heq =>
    hde _ (r.addr_mem hd) (heq ▸ r.addr_mem hd)
  have herase : (s.live.filter fun d => !s.names (b.base + c.addr * pageSize) d) =
      s.live.erase c := by
    rw [hnodup.erase_eq_filter]
    refine List.filter_congr fun d hd => ?_
    rw [r.names_base hc hd]
    rfl
  refine ⟨congrArg some herase, fun x hx => ?_⟩
  have r' : Recorded b h ⟨s.alloc.freePages (b.base + c.addr * pageSize), s.live.erase c⟩ := by
    rw [← herase]
    exact r.free hh rfl
  rw [r.holds_iff hh hx]
  refine (r'.holds_iff hh hx).trans ?_
  constructor
  · rintro ⟨d, hd, hxd⟩
    obtain ⟨hne, hd⟩ := hnodup.mem_erase_iff.mp hd
    exact ⟨⟨d, hd, hxd⟩, fun hxc => r.disjoint.forall hd hc hne x hxd hxc⟩
  · rintro ⟨⟨d, hd, hxd⟩, hxc⟩
    refine ⟨d, hnodup.mem_erase_iff.mpr ⟨?_, hd⟩, hxd⟩
    rintro rfl
    exact hxc hxd

/-- **Freeing what is in no block changes nothing.** -/
theorem free_other (r : Recorded b h s) (hh : h < 32) {frame : ℕ}
    (hnames : ∀ c ∈ s.live, s.names frame c = false) : s.alloc.freePages frame = s.alloc := by
  by_cases hout : frame < b.base ∨ 2 ^ h ≤ (frame - b.base) / pageSize
  · exact r.freePages_outside hout
  · have hbase : b.base ≤ frame := by omega
    obtain ⟨t, ht, hrep, hp⟩ := r.tree
    rcases r.freePages_spec hh ht hrep hbase (by omega) with ⟨-, heq⟩ | ⟨⟨c, hc, hx⟩, -⟩
    · exact heq
    · have hname : s.names frame c = true :=
        (BuddyState.names_iff _ _).mpr (by rw [r.base]; exact ⟨hbase, hx⟩)
      rw [hnames c (hp.mem_iff.mp hc)] at hname
      cases hname

/-- **What is recorded is enough** for the allocator to do what it is for. -/
theorem correct (r₀ : Recorded b h ⟨b, []⟩) (r : Recorded b h s) (hh : h < 32) : Correct b s := by
  have hframes : b.frames = 2 ^ h := r₀.frames
  exact
    { disjoint := r.disjoint
      inside := fun c hc => hframes ▸ r.inside hc
      given := fun count _ frame hframe => r.given count hframe
      fits := fun count _ => r.isSome_iff count
      largest_run := ⟨r.largest_run, fun k p hrun => (r.fits_iff_freeRun k).mpr ⟨p, hrun⟩⟩
      holds_iff := fun x hx => r.holds_iff hh (hframes ▸ hx)
      free_base := fun c hc => hframes ▸ r.free_base hh hc
      free_other := fun frame hnames => r.free_other hh hnames
      empty := fun hnil => eq_of_nil r₀ r hnil }

end Recorded

/-! ### Any sequence of calls -/

/-- Some tree is recorded after any sequence of calls. -/
theorem recorded_of_buddy (r₀ : Recorded b h ⟨b, []⟩) (hh : h < 32) (hs : (buddy b).Reachable s) :
    Recorded b h s := by
  refine EventSystem.Reach.invariant (fun s hs => ?_) (fun s e s' hi _ hn => ?_) hs
  · obtain rfl := hs
    exact r₀
  · cases e with
    | alloc count => exact hi.alloc hn
    | free frame => exact hi.free hh hn

/-- A region of `2 ^ 44` bytes or more is refused its first frame. -/
theorem refused {reserve : ℕ → Bool} {start len : ℕ} (hnew : new reserve start len = .ok b)
    (hlen : 2 ^ 44 ≤ len) : (b.allocPages 1).1 = none ∧ (⟨b, []⟩ : BuddyState).FreeRun 1 0 := by
  obtain ⟨hne, -, hframes, hlongest⟩ := new_eq_ok hnew
  have hlog : 32 ≤ (len / pageSize).log2 := by
    refine (Nat.le_log2 hne).mpr ?_
    exact (Nat.le_div_iff_mul_le (by decide)).mpr hlen
  have hroot : b.longest 0 = 0 := by
    have hpos : 0 < 2 * b.frames - 1 := by
      have := Nat.two_pow_pos (len / pageSize).log2
      omega
    rw [hlongest 0, if_pos hpos, show Nat.log2 (0 + 1) = 0 by decide, Nat.pow_zero, Nat.div_one,
      hframes]
    exact Nat.mod_eq_zero_of_dvd (Nat.pow_dvd_pow 2 hlog)
  constructor
  · rw [allocPages, hroot]
    rfl
  · refine ⟨one_dvd 0, ?_, by simp⟩
    show 0 + 1 ≤ b.frames
    rw [hframes]
    exact Nat.one_le_two_pow

/-- **A frame allocator is correct exactly if its region is shorter than `2 ^ 44` bytes.** -/
theorem buddy_correct_iff {reserve : ℕ → Bool} {start len : ℕ}
    (hnew : new reserve start len = .ok b) :
    (∀ s, (buddy b).Reachable s → Correct b s) ↔ len < 2 ^ 44 := by
  constructor
  · intro hcorrect
    by_contra hlen
    obtain ⟨hnone, hrun⟩ := refused hnew (Nat.not_lt.mp hlen)
    have hsome := ((hcorrect ⟨b, []⟩ (.init rfl)).fits 1 (by decide)).mpr ⟨0, hrun⟩
    rw [hnone] at hsome
    cases hsome
  · intro hlen s hs
    have hne := (new_eq_ok hnew).1
    have hh : (len / pageSize).log2 < 32 :=
      (Nat.log2_lt hne).mpr ((Nat.div_lt_iff_lt_mul (by decide)).mpr hlen)
    have r₀ := Recorded.init hnew hh
    exact Recorded.correct r₀ (recorded_of_buddy r₀ hh hs) hh

/-- Five pages make a tree of four, and the allocator of it is correct in every state. -/
theorem buddy_correct_iff_pages :
    ∃ b, new (fun _ => true) 0x40000000 (5 * pageSize) = .ok b ∧ b.frames = 4 ∧
      ∀ s, (buddy b).Reachable s → Correct b s := by
  obtain ⟨b, hnew⟩ : ∃ b, new (fun _ => true) 0x40000000 (5 * pageSize) = .ok b := ⟨_, rfl⟩
  exact ⟨b, hnew, (new_eq_ok hnew).2.2.1, (buddy_correct_iff hnew).mpr (by decide)⟩

/-- Sixteen tebibytes, all of them free, and no frame to be had. -/
theorem buddy_not_correct : ¬ ∀ (reserve : ℕ → Bool) (start len : ℕ) (b : BuddyFrameAllocator),
    new reserve start len = .ok b → ∀ s, (buddy b).Reachable s → Correct b s := by
  intro hall
  obtain ⟨b, hnew⟩ : ∃ b, new (fun _ => true) 0 (2 ^ 44) = .ok b := ⟨_, rfl⟩
  obtain ⟨hnone, hrun⟩ := refused hnew (Nat.le_refl _)
  have hsome := ((hall _ _ _ b hnew ⟨b, []⟩ (.init rfl)).fits 1 (by decide)).mpr ⟨0, hrun⟩
  rw [hnone] at hsome
  cases hsome

end StarOS
