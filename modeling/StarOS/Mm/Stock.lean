import StarOS.Mm.PoolRun

/-!
# The frames of a pool

What the rest of the kernel needs of the pool: which frames are free, that an allocation takes
frames that were, and that giving back the base of a block frees that block and nothing else. It
holds of every pool, also of one with a tree too large to be recorded: such a tree answers nothing.

## Main definitions

* `FramePool.isFree` — whether a frame is free
* `Stock` — the blocks of a pool that are handed out

## Main results

* `Stock.allocPages_cases`, `Stock.allocate_cases`, `Stock.freePages`
-/

namespace StarOS

/-- Whether a frame of the pool is free. -/
def FramePool.isFree (pool : FramePool) (x : ℕ) : Bool := pool.trees.any (·.offers x)

/-- The blocks that are handed out, by the numbers of their frames. -/
def Stock (pool : FramePool) (live : List Block) : Prop := ∃ us, Parts us ⟨pool, live⟩

variable {pool : FramePool} {live live' : List Block} {us us' : List BuddyState} {s : PoolState}
  {c : Block} {x frame count : ℕ}

theorem BuddyFrameAllocator.offers_iff {t : BuddyFrameAllocator} : t.offers x = true ↔
    t.base / pageSize ≤ x ∧ x < t.base / pageSize + t.frames ∧
      t.holds (x - t.base / pageSize) = false := by
  rw [offers, Bool.and_eq_true, Bool.and_eq_true, decide_eq_true_eq, decide_eq_true_eq,
    Bool.not_eq_true', and_assoc]

/-- A frame is free exactly if it is a frame to be had and in no block. -/
theorem Parts.isFree_iff (hp : Parts us s) :
    s.pool.isFree x = true ↔ Owned us x ∧ ¬ Block.Cover s.live x := by
  have hrange : ∀ u ∈ us, u.alloc.base / pageSize ≤ x →
      x < u.alloc.base / pageSize + u.alloc.frames →
      (Block.Cover s.live x ↔ Block.Cover u.live (x - u.alloc.base / pageSize)) := by
    intro u hu hlow hhigh
    have hcover := hp.cover_iff (x := x - u.alloc.base / pageSize) hu (by omega)
    rwa [Nat.add_sub_cancel' hlow] at hcover
  have hholds : ∀ u ∈ us, Sound u → u.alloc.base / pageSize ≤ x →
      x < u.alloc.base / pageSize + u.alloc.frames →
      (u.alloc.holds (x - u.alloc.base / pageSize) = true ↔ Block.Cover s.live x) := by
    intro u hu hsound hlow hhigh
    have h := hp.holds_iff (x := x - u.alloc.base / pageSize) hu hsound (by omega)
    rwa [Nat.add_sub_cancel' hlow] at h
  rw [FramePool.isFree, List.any_eq_true, hp.trees]
  constructor
  · rintro ⟨t, ht, hoffers⟩
    obtain ⟨u, hu, rfl⟩ := List.mem_map.mp ht
    obtain ⟨hlow, hhigh, hnot⟩ := BuddyFrameAllocator.offers_iff.mp hoffers
    refine ⟨⟨u, hu, hlow, hhigh, .inr hoffers⟩, fun hcover => ?_⟩
    rcases hp.sound u hu with hsound | hclosed
    · rw [(hholds u hu hsound hlow hhigh).mpr hcover] at hnot
      cases hnot
    · rw [hrange u hu hlow hhigh, hclosed.live] at hcover
      exact Block.cover_nil hcover
  · rintro ⟨⟨u, hu, hlow, hhigh, hsound | hoffers⟩, hcover⟩
    · refine ⟨_, List.mem_map_of_mem hu, BuddyFrameAllocator.offers_iff.mpr ⟨hlow, hhigh, ?_⟩⟩
      rw [← hholds u hu hsound hlow hhigh] at hcover
      exact Bool.eq_false_iff.mpr hcover
    · exact ⟨_, List.mem_map_of_mem hu, hoffers⟩

/-- The frames of a block are frames to be had. -/
theorem Parts.owned_of_mem (hp : Parts us s) (hc : c ∈ s.live) (hx : x ∈ c) : Owned us x := by
  obtain ⟨u, hu, hcu⟩ := hp.inside hc
  have hsound := hp.sound_of_mem hu hcu
  obtain ⟨hlow, hhigh, -⟩ := hsound.inside hcu
  obtain ⟨hge, hlt⟩ := Block.mem_iff.mp hx
  exact ⟨u, hu, by omega, by omega, .inl hsound⟩

namespace Stock

/-- A new pool has nothing handed out. -/
theorem init {runs : List Added} (hbuilt : Built runs pool) (hapart : runs.Pairwise Added.Apart) :
    Stock pool [] := ⟨_, hbuilt.parts hapart⟩

theorem perm (h : Stock pool live) (hp : live.Perm live') : Stock pool live' := by
  obtain ⟨us, h⟩ := h
  exact ⟨us, h.trees, h.sound, h.apart, hp.symm.trans h.live⟩

theorem disjoint (h : Stock pool live) : live.Pairwise Block.Disjoint := h.choose_spec.disjoint

/-- No free frame is in a block. -/
theorem not_cover (h : Stock pool live) (hx : pool.isFree x = true) : ¬ Block.Cover live x := by
  obtain ⟨us, h⟩ := h
  exact (h.isFree_iff.mp hx).2

/-- **An allocation** changes nothing, or takes frames that were free. -/
theorem allocPages_cases (h : Stock pool live) (hcount : count ≤ 2 ^ 63) :
    pool.allocPages count = (none, pool) ∨
    ∃ frame pool', pool.allocPages count = (some frame, pool') ∧ frame % pageSize = 0 ∧
      Stock pool' (⟨frame / pageSize, nextPowerOfTwo (max count 1)⟩ :: live) ∧
      (∀ x ∈ (⟨frame / pageSize, nextPowerOfTwo (max count 1)⟩ : Block), pool.isFree x = true) ∧
      ∀ x, pool'.isFree x = true ↔ pool.isFree x = true ∧
        x ∉ (⟨frame / pageSize, nextPowerOfTwo (max count 1)⟩ : Block) := by
  obtain ⟨us, hp⟩ := h
  rcases allocFirst_cases count pool.trees with ⟨heq, -⟩ | ⟨l, t, r, frame, t', htrees, ht, heq⟩
  · refine .inl ?_
    rw [FramePool.allocPages, heq]
  · have halloc : pool.allocPages count = (some frame, ⟨l ++ t' :: r⟩) := by
      rw [FramePool.allocPages, heq]
    have hn : (⟨pool, live⟩ : PoolState).next (.alloc count) = some
        ⟨⟨l ++ t' :: r⟩, ⟨frame / pageSize, nextPowerOfTwo (max count 1)⟩ :: live⟩ := by
      rw [PoolState.next, if_pos hcount, halloc]
    obtain ⟨us', hp', hfollows⟩ := hp.alloc hn
    have hpage : frame % pageSize = 0 := by
      obtain ⟨l', u, r', rfl, rfl, rfl, rfl⟩ := hp.split htrees
      obtain ⟨-, -, -, -, -, hpage, -⟩ :=
        (hp.sound_of_alloc (u := u) (by simp) ht).alloc hcount ht
      exact hpage
    have hnot : ∀ x ∈ (⟨frame / pageSize, nextPowerOfTwo (max count 1)⟩ : Block),
        ¬ Block.Cover live x := by
      rintro x hx ⟨c, hc, hxc⟩
      exact (List.pairwise_cons.mp hp'.disjoint).1 c hc x hx hxc
    refine .inr ⟨frame, _, halloc, hpage, ⟨us', hp'⟩, fun x hx => ?_, fun x => ?_⟩
    · exact hp.isFree_iff.mpr ⟨(hfollows.owned x).mp (hp'.owned_of_mem List.mem_cons_self hx),
        hnot x hx⟩
    · have hfree := hp'.isFree_iff (x := x)
      have hfree₀ := hp.isFree_iff (x := x)
      dsimp only at hfree hfree₀
      rw [hfree, hfree₀, hfollows.owned, Block.cover_cons, not_or, and_assoc]
      exact and_congr_right fun _ => And.comm

/-- One frame. -/
theorem allocate_cases (h : Stock pool live) :
    pool.allocate = (none, pool) ∨
    ∃ frame pool', pool.allocate = (some frame, pool') ∧ frame % pageSize = 0 ∧
      Stock pool' (⟨frame / pageSize, 1⟩ :: live) ∧ pool.isFree (frame / pageSize) = true ∧
      ∀ x, pool'.isFree x = true ↔ pool.isFree x = true ∧ x ≠ frame / pageSize := by
  have hone : ∀ x p : ℕ, x ∈ (⟨p, 1⟩ : Block) ↔ x = p := by
    intro x p
    rw [Block.mem_iff, Block.limit]
    dsimp only
    omega
  have hcount : 1 ≤ 2 ^ 63 := by decide
  rcases h.allocPages_cases hcount with heq | ⟨frame, pool', heq, hpage, hs, hin, hx⟩
  · exact .inl heq
  · refine .inr ⟨frame, pool', heq, hpage, hs, hin _ ((hone _ _).mpr rfl), fun x => ?_⟩
    rw [hx]
    exact and_congr_right fun _ => not_congr (hone x _)

/-- **Giving back the base of a block** frees its frames and no others. -/
theorem freePages (h : Stock pool live) (hc : c ∈ live) :
    Stock (pool.freePages (c.addr * pageSize)) (live.erase c) ∧
    ∀ x, (pool.freePages (c.addr * pageSize)).isFree x = true ↔ pool.isFree x = true ∨ x ∈ c := by
  obtain ⟨us, hp⟩ := h
  have hdiv : c.addr * pageSize / pageSize = c.addr := Nat.mul_div_cancel _ (by decide)
  have hmem : c.addr ∈ c := by
    obtain ⟨u, hu, hcu⟩ := hp.inside hc
    obtain ⟨-, -, hpos⟩ := (hp.sound_of_mem hu hcu).inside hcu
    exact ⟨Nat.le_refl _, by rw [Block.limit]; omega⟩
  have hsound : ∀ u ∈ us, u.alloc.contains (c.addr * pageSize) = true → Sound u := by
    intro u hu hin
    obtain ⟨v, hv, hcv⟩ := hp.inside hc
    rw [← hdiv] at hmem
    have hvin := (hp.sound_of_mem hv hcv).contains_of_mem hcv hmem
    by_cases heq : u = v
    · exact heq ▸ hp.sound_of_mem hv hcv
    · rw [(hp.apart.forall hu hv heq).not_contains hin] at hvin
      cases hvin
  have hn : (⟨pool, live⟩ : PoolState).next (.free (c.addr * pageSize)) =
      some ⟨pool.freePages (c.addr * pageSize), live.erase c⟩ := by
    have hlive := hp.free_base hc
    rw [PoolState.next, Option.map_some] at hlive
    rw [PoolState.next]
    exact congrArg some (congrArg (PoolState.mk _) (Option.some.inj hlive))
  obtain ⟨us', hp', hfollows⟩ := hp.free_of_sound hsound hn
  refine ⟨⟨us', hp'⟩, fun x => ?_⟩
  have hfree := hp'.isFree_iff (x := x)
  have hfree₀ := hp.isFree_iff (x := x)
  dsimp only at hfree hfree₀
  have hsplit : Block.Cover live x ↔ x ∈ c ∨ Block.Cover (live.erase c) x := by
    rw [← Block.cover_cons]
    exact cover_perm (List.perm_cons_erase hc)
  have hnot : x ∈ c → ¬ Block.Cover (live.erase c) x := by
    rintro hx ⟨d, hd, hxd⟩
    have hpair := ((List.perm_cons_erase hc).pairwise_iff Block.Disjoint.symm).mp hp.disjoint
    exact (List.pairwise_cons.mp hpair).1 d hd x hx hxd
  rw [hfree, hfree₀, hfollows.owned, hsplit]
  constructor
  · rintro ⟨howned, hcover⟩
    by_cases hx : x ∈ c
    · exact .inr hx
    · exact .inl ⟨howned, fun h => h.elim hx hcover⟩
  · rintro (⟨howned, hcover⟩ | hx)
    · exact ⟨howned, fun h => hcover (.inr h)⟩
    · exact ⟨hp.owned_of_mem hc hx, hnot hx⟩

end Stock

end StarOS
