import StarOS.Shm.Table

/-!
# What an id of a shared buffer names

The table of shared buffers in use: runs are created and freed in any order, by ids that may name
nothing, while the rest of the kernel takes blocks from the pool and gives back those it holds.

A list that is empty is a slot that is free, so a run of no frames is an id that names nothing and
that the next request is answered with. Those who ask for a run refuse a request for none first.

## Main definitions

* `shmTable` — any sequence of calls
* `ShmCorrect` — what the table is for

## Main results

* `shm_correct` — the table does what it is for, where nobody asks for no frames
-/

namespace StarOS

/-- What an id names: how many frames were asked for, and which they are. -/
structure ShmEntry where
  id : ℕ
  pages : ℕ
  run : List ℕ

/-- The table; the blocks the rest of the kernel holds; and what the ids that were answered, and
not freed since, name. -/
structure ShmState where
  shm : Shm
  others : List Block
  named : List ShmEntry

inductive ShmEvent
  | create (pages : ℕ) (reserve grow : Bool)
  /-- Of any id at all. -/
  | free (id : ℕ)
  /-- The rest of the kernel takes a block. -/
  | take (count : ℕ)
  /-- The rest of the kernel gives back a block it holds. -/
  | give (c : Block)

namespace ShmState

/-- The effect of a call. -/
def next (s : ShmState) : ShmEvent → Option ShmState
  | .create pages reserve grow =>
    some <| match s.shm.create pages reserve grow with
      | (some id, shm) => ⟨shm, s.others, ⟨id, pages, shm.runs.getD id []⟩ :: s.named⟩
      | (none, shm) => ⟨shm, s.others, s.named⟩
  | .free id => some ⟨s.shm.free id, s.others, s.named.filter fun e => e.id ≠ id⟩
  | .take count =>
    if count ≤ 2 ^ 63 then
      some <| match s.shm.pool.allocPages count with
        | (some frame, pool) =>
          ⟨{ s.shm with pool }, ⟨frame / pageSize, nextPowerOfTwo (max count 1)⟩ :: s.others,
            s.named⟩
        | (none, pool) => ⟨{ s.shm with pool }, s.others, s.named⟩
    else none
  | .give c =>
    if c ∈ s.others then
      some ⟨{ s.shm with pool := s.shm.pool.freePages (c.addr * pageSize) }, s.others.erase c,
        s.named⟩
    else none

/-- A request for at least one frame. -/
def asks (_ : ShmState) : ShmEvent → Prop
  | .create pages _ _ => pages ≠ 0
  | _ => True

end ShmState

/-- The table in use, over a pool. -/
def shmTable (pool : FramePool) : EventSystem ShmState ShmEvent where
  init s := s = ⟨⟨[], pool⟩, [], []⟩
  next := ShmState.next

/-- What the table is for. -/
structure ShmCorrect (s : ShmState) : Prop where
  /-- An id that was answered names the run it was answered for, as long as was asked. -/
  named : ∀ e ∈ s.named, s.shm.withFrames e.id = some e.run ∧ e.run.length = e.pages
  /-- No two answers that were not freed are the same id. -/
  ids : (s.named.map (·.id)).Nodup
  /-- Every run that is recorded was answered. -/
  answered : ∀ id run, s.shm.withFrames id = some run → ∃ e ∈ s.named, e.id = id
  /-- A run names no frame twice, and no frame is in two runs. -/
  nodup : ∀ id run, s.shm.withFrames id = some run → (run.map (· / pageSize)).Nodup
  disjoint : ∀ id id' run run', s.shm.withFrames id = some run →
    s.shm.withFrames id' = some run' → id ≠ id' → ∀ f ∈ run, ∀ f' ∈ run', f / pageSize ≠ f' / pageSize
  /-- A frame of a run starts on a page; it is not free, nor held by anyone else. -/
  held : ∀ id run, s.shm.withFrames id = some run → ∀ f ∈ run, f % pageSize = 0 ∧
    s.shm.pool.isFree (f / pageSize) = false ∧ ¬ Block.Cover s.others (f / pageSize)
  /-- A run that is created is made of frames that were free. -/
  create_some : ∀ pages reserve grow id shm, s.shm.create pages reserve grow = (some id, shm) →
    ∃ run, s.shm.Created pages id run shm
  /-- A `create` that answers none leaves the free frames and the table as they were. -/
  create_none : ∀ pages reserve grow shm, s.shm.create pages reserve grow = (none, shm) →
    shm.runs = s.shm.runs ∧ ∀ x, shm.pool.isFree x = s.shm.pool.isFree x
  /-- Freeing an id frees the frames of its run and no others. -/
  free_run : ∀ id x, (s.shm.free id).pool.isFree x = true ↔ s.shm.pool.isFree x = true ∨
    ∃ f ∈ (s.shm.withFrames id).getD [], f / pageSize = x
  /-- Freeing it again frees nothing. -/
  free_again : ∀ id, (s.shm.free id).free id = s.shm.free id

/-- What holds of the table in every state. -/
structure ShmInv (s : ShmState) : Prop where
  backed : s.shm.Backed s.others
  named : ∀ e ∈ s.named, s.shm.withFrames e.id = some e.run ∧ e.run.length = e.pages
  ids : (s.named.map (·.id)).Nodup
  answered : ∀ id run, s.shm.withFrames id = some run → ∃ e ∈ s.named, e.id = id

variable {s s' : ShmState} {pool : FramePool}

namespace ShmInv

/-- A change of the pool that the rest of the kernel makes. -/
theorem ofPool (h : ShmInv s) {pool : FramePool} {others : List Block}
    (hstock : Stock pool (Shm.units s.shm.runs.flatten ++ others)) :
    ShmInv ⟨{ s.shm with pool }, others, s.named⟩ :=
  ⟨⟨hstock, h.backed.aligned⟩, h.named, h.ids, h.answered⟩

theorem create (h : ShmInv s) {pages : ℕ} (hpages : pages ≠ 0) {reserve grow : Bool}
    (hn : s.next (.create pages reserve grow) = some s') : ShmInv s' := by
  rcases Shm.create_cases h.backed pages reserve grow with
    ⟨id, run, shm, heq, hbacked, hcreated⟩ | ⟨shm, heq, hbacked, hruns, -⟩
  · rw [ShmState.next, heq] at hn
    obtain rfl := Option.some.inj hn
    have hne : run.isEmpty = false := by
      cases run with
      | nil => exact absurd hcreated.length.symm hpages
      | cons => rfl
    have hwith : ∀ id', shm.withFrames id' =
        if id = id' then some run else s.shm.withFrames id' := by
      intro id'
      rw [hcreated.withFrames, hne]
      rfl
    have hself : shm.withFrames id = some run := by rw [hwith, if_pos rfl]
    have hrun : shm.runs.getD id [] = run := by
      rw [List.getD_eq_getElem?_getD, (Shm.withFrames_eq_some.mp hself).1]
      rfl
    -- what is named already is not this id
    have hnew : ∀ e ∈ s.named, id ≠ e.id := by
      rintro e he rfl
      cases hcreated.fresh.symm.trans (h.named e he).1
    refine ⟨hbacked, fun e he => ?_, ?_, fun id' run' hrun' => ?_⟩
    · rcases List.mem_cons.mp he with rfl | he
      · exact ⟨by rw [hrun]; exact hself, by rw [hrun]; exact hcreated.length⟩
      · rw [hwith, if_neg (hnew e he)]
        exact h.named e he
    · refine List.nodup_cons.mpr ⟨fun hin => ?_, h.ids⟩
      obtain ⟨e, he, heq⟩ := List.mem_map.mp hin
      exact hnew e he heq.symm
    · rw [hwith] at hrun'
      by_cases hid : id = id'
      · exact ⟨_, List.mem_cons_self, hid⟩
      · rw [if_neg hid] at hrun'
        obtain ⟨e, he, heq⟩ := h.answered id' run' hrun'
        exact ⟨e, List.mem_cons_of_mem _ he, heq⟩
  · rw [ShmState.next, heq] at hn
    obtain rfl := Option.some.inj hn
    have hwith : ∀ id, shm.withFrames id = s.shm.withFrames id := fun id => by
      rw [Shm.withFrames, Shm.withFrames, hruns]
    exact ⟨hbacked, fun e he => by rw [hwith]; exact h.named e he, h.ids,
      fun id run hrun => h.answered id run (by rw [← hwith]; exact hrun)⟩

theorem free (h : ShmInv s) {id : ℕ} (hn : s.next (.free id) = some s') : ShmInv s' := by
  obtain rfl := Option.some.inj hn
  obtain ⟨hbacked, -, hwith, -⟩ := Shm.free_spec h.backed id
  refine ⟨hbacked, fun e he => ?_, ?_, fun id' run hrun => ?_⟩
  · obtain ⟨he, hne⟩ := List.mem_filter.mp he
    rw [hwith, if_neg (Ne.symm (of_decide_eq_true hne))]
    exact h.named e he
  · exact h.ids.sublist (List.filter_sublist.map _)
  · rw [hwith] at hrun
    by_cases hid : id = id'
    · rw [if_pos hid] at hrun
      cases hrun
    · rw [if_neg hid] at hrun
      obtain ⟨e, he, rfl⟩ := h.answered id' run hrun
      exact ⟨e, List.mem_filter.mpr ⟨he, decide_eq_true (Ne.symm hid)⟩, rfl⟩

theorem take (h : ShmInv s) {count : ℕ} (hn : s.next (.take count) = some s') : ShmInv s' := by
  obtain ⟨hcount, hn⟩ := Option.ite_none_right_eq_some.mp hn
  rcases h.backed.stock.allocPages_cases hcount with heq | ⟨frame, pool, heq, -, hstock, -⟩
  · rw [heq] at hn
    obtain rfl := Option.some.inj hn
    exact h
  · rw [heq] at hn
    obtain rfl := Option.some.inj hn
    exact h.ofPool (hstock.perm List.perm_middle.symm)

theorem give (h : ShmInv s) {c : Block} (hn : s.next (.give c) = some s') : ShmInv s' := by
  obtain ⟨hc, hn⟩ := Option.ite_none_right_eq_some.mp hn
  obtain rfl := Option.some.inj hn
  refine h.ofPool ?_
  have hperm : (Shm.units s.shm.runs.flatten ++ s.others).Perm
      (c :: (Shm.units s.shm.runs.flatten ++ s.others.erase c)) :=
    ((List.perm_cons_erase hc).append_left _).trans List.perm_middle
  have h := ((h.backed.stock.perm hperm).freePages List.mem_cons_self).1
  rwa [List.erase_cons_head] at h

/-- The frames that are recorded are in runs. -/
theorem mem_flatten {shm : Shm} {id : ℕ} {run : List ℕ} (hrun : shm.withFrames id = some run)
    {f : ℕ} (hf : f ∈ run) : f ∈ shm.runs.flatten :=
  List.mem_flatten.mpr ⟨run, List.mem_of_getElem? (Shm.withFrames_eq_some.mp hrun).1, hf⟩

/-- The frames of all runs are different frames. -/
theorem pairwise (h : ShmInv s) :
    (s.shm.runs.map fun run => run.map (· / pageSize)).flatten.Pairwise (· ≠ ·) := by
  have hpair := (List.pairwise_append.mp h.backed.stock.disjoint).1
  have hmap := List.pairwise_map.mp hpair
  rw [← List.map_flatten]
  refine List.pairwise_map.mpr (hmap.imp fun {f f'} hdisj heq => ?_)
  refine hdisj (f / pageSize) ?_ ?_
  · exact ⟨Nat.le_refl _, Nat.lt_succ_self _⟩
  · exact ⟨heq.ge, by rw [Block.limit, heq]; exact Nat.lt_succ_self _⟩

/-- **What is kept is enough.** -/
theorem correct (h : ShmInv s) : ShmCorrect s where
  named := h.named
  ids := h.ids
  answered := h.answered
  nodup := by
    intro id run hrun
    have hmem := List.mem_of_getElem? (Shm.withFrames_eq_some.mp hrun).1
    exact (List.pairwise_flatten.mp h.pairwise).1 _ (List.mem_map_of_mem hmem)
  disjoint := by
    intro id id' run run' hrun hrun' hne f hf f' hf' heq
    have hget := (Shm.withFrames_eq_some.mp hrun).1
    have hget' := (Shm.withFrames_eq_some.mp hrun').1
    obtain ⟨hid, rfl⟩ := List.getElem?_eq_some_iff.mp hget
    obtain ⟨hid', rfl⟩ := List.getElem?_eq_some_iff.mp hget'
    have hpair := List.pairwise_map.mp (List.pairwise_flatten.mp h.pairwise).2
    rcases Nat.lt_or_gt_of_ne hne with hlt | hlt
    · exact List.pairwise_iff_getElem.mp hpair id id' hid hid' hlt _ (List.mem_map_of_mem hf) _
        (List.mem_map_of_mem hf') heq
    · exact List.pairwise_iff_getElem.mp hpair id' id hid' hid hlt _ (List.mem_map_of_mem hf') _
        (List.mem_map_of_mem hf) heq.symm
  held := by
    intro id run hrun f hf
    have hin := mem_flatten hrun hf
    have hcover : Block.Cover (Shm.units s.shm.runs.flatten) (f / pageSize) :=
      Shm.cover_units.mpr ⟨f, hin, rfl⟩
    refine ⟨h.backed.aligned f hin, Bool.eq_false_iff.mpr fun hfree => ?_, fun hother => ?_⟩
    · exact h.backed.stock.not_cover hfree (Block.cover_append.mpr (.inl hcover))
    · obtain ⟨c, hc, hx⟩ := hcover
      obtain ⟨d, hd, hx'⟩ := hother
      exact (List.pairwise_append.mp h.backed.stock.disjoint).2.2 c hc d hd _ hx hx'
  create_some := by
    intro pages reserve grow id shm heq
    rcases Shm.create_cases h.backed pages reserve grow with ⟨id', run, shm', heq', -, hc⟩ |
      ⟨shm', heq', -⟩
    · obtain ⟨hid, rfl⟩ := Prod.mk.inj (heq.symm.trans heq')
      obtain rfl := Option.some.inj hid
      exact ⟨run, hc⟩
    · cases (Prod.mk.inj (heq.symm.trans heq')).1
  create_none := by
    intro pages reserve grow shm heq
    rcases Shm.create_cases h.backed pages reserve grow with ⟨id', run, shm', heq', -⟩ |
      ⟨shm', heq', -, hruns, hfree⟩
    · cases (Prod.mk.inj (heq.symm.trans heq')).1
    · obtain ⟨-, rfl⟩ := Prod.mk.inj (heq.symm.trans heq')
      exact ⟨hruns, hfree⟩
  free_run := fun id => (Shm.free_spec h.backed id).2.2.2
  free_again := s.shm.free_free

end ShmInv

variable {runs : List Added}

/-- **The table of shared buffers does what it is for**, in every state reached by requests for at
least one frame. -/
theorem shm_correct (hbuilt : Built runs pool) (hapart : runs.Pairwise Added.Apart)
    (hs : (shmTable pool).Reach ShmState.asks s) : ShmCorrect s := by
  refine ShmInv.correct (EventSystem.Reach.invariant (fun s hs => ?_) (fun s e s' hi hok hn => ?_) hs)
  · obtain rfl := hs
    refine ⟨⟨Stock.init hbuilt hapart, fun f hf => absurd hf List.not_mem_nil⟩,
      fun e he => absurd he List.not_mem_nil, .nil, fun id run hrun => ?_⟩
    cases (Shm.withFrames_eq_some.mp hrun).1
  · cases e with
    | create pages reserve grow => exact hi.create hok hn
    | free id => exact hi.free hn
    | take count => exact hi.take hn
    | give c => exact hi.give hn

/-- The guard of `shm_correct`, as a test. -/
def ShmState.asksTest (_ : ShmState) : ShmEvent → Bool
  | .create pages _ _ => pages != 0
  | _ => true

theorem ShmState.asks_of_test (s : ShmState) (e : ShmEvent) (h : s.asksTest e = true) :
    s.asks e := by
  cases e with
  | create pages reserve grow => exact bne_iff_ne.mp h
  | free | take | give => trivial

/-- A pool of one run of four frames. -/
def fourFrames : FramePool :=
  ⟨[⟨0x40000000, 4, fun i => if i < 7 then asU32 (BuddyFrameAllocator.nodeSizeAt 4 i) else 0⟩]⟩

theorem built_fourFrames :
    ∃ r, r.start = 0x40000000 ∧ r.len = 4 * pageSize ∧ Built [r] fourFrames := by
  have hbuilt := Built.new.add ⟨fun _ => true, fun _ => true⟩ 0x40000000 (4 * pageSize) rfl
  refine ⟨.of .new ⟨fun _ => true, fun _ => true⟩ 0x40000000 (4 * pageSize), rfl, rfl, ?_⟩
  have hpool : (FramePool.new.add ⟨fun _ => true, fun _ => true⟩ 0x40000000 (4 * pageSize)).2 =
      fourFrames := by
    rw [FramePool.add, if_neg (by decide), FramePool.addPieces, dif_pos (by decide)]
    have hnew : BuddyFrameAllocator.new (fun _ => true) (0x40000000 + 0)
        (prevPowerOfTwo (4 * pageSize / pageSize) * pageSize) = .ok ⟨0x40000000, 4,
          fun i => if i < 7 then asU32 (BuddyFrameAllocator.nodeSizeAt 4 i) else 0⟩ := rfl
    dsimp only
    rw [hnew]
    dsimp only
    rw [if_pos rfl, FramePool.addPieces, dif_neg (by decide)]
    rfl
  rw [← hpool]
  exact hbuilt

/-- Two runs of two frames take the whole pool, a third is refused, and freed frames are used
again. -/
theorem shm_correct_run : ∃ s, (shmTable fourFrames).Reach ShmState.asks s ∧
    s.named.map (fun e => (e.id, e.pages)) = [(0, 1), (1, 2)] ∧ ShmCorrect s := by
  obtain ⟨r, -, -, hbuilt⟩ := built_fourFrames
  have hrun : ∃ s, (shmTable fourFrames).Reach ShmState.asks s ∧
      decide (s.named.map (fun e => (e.id, e.pages)) = [(0, 1), (1, 2)]) = true :=
    EventSystem.Reach.exists_of_runIf ShmState.asks_of_test
      [.create 2 true true, .create 2 true true, .create 1 true true, .free 0, .free 0,
        .create 3 true true, .create 1 true true] rfl (by decide +kernel)
  obtain ⟨s, hs, hnamed⟩ := hrun
  exact ⟨s, hs, of_decide_eq_true hnamed, shm_correct hbuilt (List.pairwise_singleton _ _) hs⟩

/-- Two requests for no frames are answered with one id. -/
theorem shm_not_correct : ¬ ∀ (runs : List Added) (pool : FramePool), Built runs pool →
    runs.Pairwise Added.Apart → ∀ s, (shmTable pool).Reachable s → ShmCorrect s := by
  intro hall
  have hrun : ∃ s, (shmTable .new).Reachable s ∧ decide (s.named.map (·.id) = [0, 0]) = true :=
    EventSystem.Reachable.exists_of_run [.create 0 true true, .create 0 true true] rfl
      (by decide +kernel)
  obtain ⟨s, hs, hids⟩ := hrun
  have hcorrect := hall [] .new .new .nil s hs
  have hnodup := hcorrect.ids
  rw [of_decide_eq_true hids] at hnodup
  exact absurd hnodup (by decide)

end StarOS
