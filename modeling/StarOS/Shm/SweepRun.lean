import StarOS.Shm.Sweep
import StarOS.Shm.TableRun

/-!
# Shared and DMA memory comes back

Every frame that backs an object is recorded with it: the frames of a shared buffer in the run its
object names, those of a DMA buffer in the object. While no such object is revoked there is no run
but those that are named, so the sweep of the object table reaches all of them, each once.

An object that is revoked leaves the table, and what it was made of stays behind: no object names
it, and the sweep does not see it.

## Main definitions

* `Balanced` — the pool, the runs and the objects agree

## Main results

* `Balanced.release` — giving back what one object was made of
* `swept_of_keeps` — the sweep frees every frame, in runs that revoke no object with frames
* `not_swept` — a revoked buffer does not come back
-/

namespace StarOS

open Shm

/-- The id of the run an object is made of. -/
def Object.ids : Object → List ℕ
  | .sharedMemory id _ => [id]
  | _ => []

/-- The block an object is made of. -/
def Object.blocks : Object → List Block
  | .dmaBuffer phys pages => [⟨phys.toNat / pageSize, nextPowerOfTwo (max pages.toNat 1)⟩]
  | _ => []

/-- A DMA buffer starts on a page. -/
def Object.Aligned : Object → Prop
  | .dmaBuffer phys _ => phys.toNat % pageSize = 0
  | _ => True

/-- What is not backed is made of nothing. -/
theorem Object.of_not_backed {o : Object} (h : o.backed = false) :
    o.ids = [] ∧ o.blocks = [] ∧ o.Aligned := by
  cases o with
  | sharedMemory | dmaBuffer => cases h
  | endpoint | device | notification | interrupt | deviceAuthority | scanout =>
    exact ⟨rfl, rfl, trivial⟩

/-- The pool, the runs and the objects agree: `own` are all the frames of the pool, `held` the
frames calls are collecting, `assets` the objects there are or will be, and `others` the blocks of
the rest of the kernel. -/
structure Balanced (own : ℕ → Prop) (shm : Shm) (held : List ℕ) (assets : List Object)
    (others : List Block) : Prop where
  backed : shm.Backed (units held ++ (assets.flatMap Object.blocks ++ others))
  /-- The frames that are held start on pages. -/
  paged : ∀ frame ∈ held, frame % pageSize = 0
  bases : ∀ o ∈ assets, o.Aligned
  /-- No run belongs to two objects. -/
  ids : (assets.flatMap Object.ids).Nodup
  /-- The runs there are belong to objects. -/
  named : ∀ id, id ∈ assets.flatMap Object.ids ↔ (shm.withFrames id).isSome = true
  /-- Every frame of the pool is free or in a block. -/
  whole : ∀ x, own x ↔ shm.pool.isFree x = true ∨ Block.Cover (units shm.runs.flatten ++
    (units held ++ (assets.flatMap Object.blocks ++ others))) x

section

variable {own : ℕ → Prop} {shm : Shm} {held held' run : List ℕ} {assets assets' : List Object}
  {others others' : List Block} {pool : FramePool} {o : Object} {c : Block} {x frame count : ℕ}

namespace Balanced

theorem perm (h : Balanced own shm held assets others) (hheld : held.Perm held')
    (hassets : assets.Perm assets') (hothers : others.Perm others') :
    Balanced own shm held' assets' others' := by
  have hlive : (units held ++ (assets.flatMap Object.blocks ++ others)).Perm
      (units held' ++ (assets'.flatMap Object.blocks ++ others')) :=
    (hheld.map _).append ((hassets.flatMap_right _).append hothers)
  refine ⟨⟨h.backed.stock.perm (hlive.append_left _), h.backed.aligned⟩,
    fun f hf => h.paged f (hheld.mem_iff.mpr hf), fun o ho => h.bases o (hassets.mem_iff.mpr ho),
    ((hassets.flatMap_right _).nodup_iff).mp h.ids, fun id => ?_, fun x => ?_⟩
  · rw [← (hassets.flatMap_right _).mem_iff]
    exact h.named id
  · rw [h.whole x, cover_perm (hlive.append_left _)]

/-- Another pool, and other blocks, of the same frames. -/
theorem ofPool (h : Balanced own shm held assets others)
    (hstock : Stock pool (units shm.runs.flatten ++
      (units held' ++ (assets.flatMap Object.blocks ++ others'))))
    (hheld : ∀ frame ∈ held', frame % pageSize = 0)
    (hwhole : ∀ x, own x ↔ pool.isFree x = true ∨ Block.Cover (units shm.runs.flatten ++
      (units held' ++ (assets.flatMap Object.blocks ++ others'))) x) :
    Balanced own { shm with pool } held' assets others' :=
  ⟨⟨hstock, h.backed.aligned⟩, hheld, h.bases, h.ids, h.named, hwhole⟩

/-- An object with no frames makes no difference. -/
theorem cons_iff (ho : o.backed = false) :
    Balanced own shm held (o :: assets) others ↔ Balanced own shm held assets others := by
  have hids : (o :: assets).flatMap Object.ids = assets.flatMap Object.ids := by
    rw [List.flatMap_cons, (o.of_not_backed ho).1, List.nil_append]
  have hblocks : (o :: assets).flatMap Object.blocks = assets.flatMap Object.blocks := by
    rw [List.flatMap_cons, (o.of_not_backed ho).2.1, List.nil_append]
  constructor
  · rintro ⟨hbacked, hpaged, hbases, hnodup, hnamed, hwhole⟩
    rw [hblocks] at hbacked hwhole
    rw [hids] at hnodup hnamed
    exact ⟨hbacked, hpaged, fun o ho => hbases o (List.mem_cons_of_mem _ ho), hnodup, hnamed,
      hwhole⟩
  · rintro ⟨hbacked, hpaged, hbases, hnodup, hnamed, hwhole⟩
    rw [← hblocks] at hbacked hwhole
    rw [← hids] at hnodup hnamed
    refine ⟨hbacked, hpaged, fun o' ho' => ?_, hnodup, hnamed, hwhole⟩
    rcases List.mem_cons.mp ho' with rfl | ho'
    · exact (o'.of_not_backed ho).2.2
    · exact hbases o' ho'

/-- What a frame that is taken does to the frames of the pool. -/
theorem whole_take {live : List Block} {b : Block} {pool' : FramePool}
    (hwhole : ∀ x, own x ↔ pool.isFree x = true ∨ Block.Cover live x)
    (hin : ∀ x ∈ b, pool.isFree x = true)
    (hfree : ∀ x, pool'.isFree x = true ↔ pool.isFree x = true ∧ x ∉ b) (x : ℕ) :
    own x ↔ pool'.isFree x = true ∨ Block.Cover (b :: live) x := by
  rw [hwhole x, hfree x, Block.cover_cons]
  by_cases hx : x ∈ b
  · exact iff_of_true (.inl (hin x hx)) (.inr (.inl hx))
  · simp only [hx, not_false_eq_true, and_true, false_or]

/-- What blocks given back do to the frames of the pool. -/
theorem whole_give {live given : List Block} {pool' : FramePool}
    (hwhole : ∀ x, own x ↔ pool.isFree x = true ∨ Block.Cover (given ++ live) x)
    (hfree : ∀ x, pool'.isFree x = true ↔ pool.isFree x = true ∨ Block.Cover given x) (x : ℕ) :
    own x ↔ pool'.isFree x = true ∨ Block.Cover live x := by
  rw [hwhole x, hfree x, Block.cover_append, or_assoc]

/-! ### What the calls do -/

/-- A call takes a frame, or the pool has none. -/
theorem allocate (h : Balanced own shm held assets others) :
    shm.pool.allocate = (none, shm.pool) ∨
    ∃ frame pool, shm.pool.allocate = (some frame, pool) ∧
      Balanced own { shm with pool } (frame :: held) assets others := by
  rcases h.backed.stock.allocate_cases with heq | ⟨frame, pool, heq, hpage, hstock, hin, hfree⟩
  · exact .inl heq
  · refine .inr ⟨frame, pool, heq, h.ofPool (hstock.perm List.perm_middle.symm) ?_ fun x => ?_⟩
    · intro f hf
      rcases List.mem_cons.mp hf with rfl | hf
      · exact hpage
      · exact h.paged f hf
    · have hone : ∀ x, x ∈ (⟨frame / pageSize, 1⟩ : Block) ↔ x = frame / pageSize := by
        intro x
        rw [Block.mem_iff, Block.limit]
        dsimp only
        omega
      rw [whole_take h.whole (b := ⟨frame / pageSize, 1⟩)
        (fun x hx => by rw [(hone x).mp hx]; exact hin) (fun x => by rw [hfree x, hone]) x]
      exact or_congr_right (cover_perm List.perm_middle.symm)

/-- A call gives back the frames it has collected. -/
theorem giveBack (h : Balanced own shm (run ++ held) assets others) :
    Balanced own { shm with pool := Shm.giveBack shm.pool run } held assets others := by
  have hperm : (units shm.runs.flatten ++ (units (run ++ held) ++
      (assets.flatMap Object.blocks ++ others))).Perm
      (units run ++ (units shm.runs.flatten ++ (units held ++
        (assets.flatMap Object.blocks ++ others)))) := by
    rw [units_append, List.append_assoc]
    exact List.perm_append_comm_assoc _ _ _
  obtain ⟨hstock, hfree⟩ := giveBack_spec (h.backed.stock.perm hperm)
    fun f hf => h.paged f (List.mem_append_left _ hf)
  have hwhole : ∀ x, own x ↔ shm.pool.isFree x = true ∨ Block.Cover (units run ++
      (units shm.runs.flatten ++ (units held ++ (assets.flatMap Object.blocks ++ others)))) x :=
    fun x => by rw [h.whole x, cover_perm hperm]
  refine h.ofPool hstock (fun f hf => h.paged f (List.mem_append_right _ hf))
    (whole_give hwhole fun x => ?_)
  rw [hfree x, cover_units]

/-- A run that was collected is recorded. -/
theorem place (h : Balanced own shm (run ++ held) assets others) (hrun : run ≠ []) {room : Bool}
    {id : ℕ} {runs : List (List ℕ)} (hplace : Shm.place shm.runs run room = some (id, runs))
    (pages : BitVec 32) :
    Balanced own { shm with runs } held (.sharedMemory id pages :: assets) others := by
  obtain ⟨hfresh, hperm, hwith⟩ := place_spec hplace
  have hempty : run.isEmpty = false := Bool.eq_false_iff.mpr fun h => hrun (List.isEmpty_iff.mp h)
  have hlive : (units shm.runs.flatten ++ (units (run ++ held) ++
      (assets.flatMap Object.blocks ++ others))).Perm (units runs.flatten ++ (units held ++
        (assets.flatMap Object.blocks ++ others))) := by
    rw [units_append, List.append_assoc, ← List.append_assoc (units shm.runs.flatten)]
    refine List.Perm.append_right _ ?_
    rw [← units_append]
    exact (List.perm_append_comm.trans hperm.symm).map _
  have hids : (Object.sharedMemory id pages :: assets).flatMap Object.ids =
      id :: assets.flatMap Object.ids := rfl
  have hblocks : (Object.sharedMemory id pages :: assets).flatMap Object.blocks =
      assets.flatMap Object.blocks := rfl
  refine ⟨⟨?_, fun f hf => ?_⟩, fun f hf => h.paged f (List.mem_append_right _ hf), fun o ho => ?_,
    ?_, fun id' => ?_, fun x => ?_⟩
  · rw [hblocks]
    exact h.backed.stock.perm hlive
  · rcases List.mem_append.mp (hperm.mem_iff.mp hf) with hf | hf
    · exact h.paged f (List.mem_append_left _ hf)
    · exact h.backed.aligned f hf
  · rcases List.mem_cons.mp ho with rfl | ho
    · trivial
    · exact h.bases o ho
  · rw [hids]
    refine List.nodup_cons.mpr ⟨fun hin => ?_, h.ids⟩
    rw [h.named, hfresh] at hin
    cases hin
  · rw [hids, List.mem_cons, hwith, hempty, h.named id']
    by_cases hid : id = id'
    · rw [if_pos hid]
      exact iff_of_true (.inl hid.symm) rfl
    · rw [if_neg hid]
      exact ⟨fun h => h.resolve_left (Ne.symm hid), .inr⟩
  · rw [hblocks, h.whole x, cover_perm hlive]

/-- A contiguous run is taken. -/
theorem allocPages (h : Balanced own shm held assets others) (hspace : ∀ x, own x → x < 2 ^ 52)
    {pages : ℕ} (hpages : pages ≤ maxDmaPages) :
    shm.pool.allocPages pages = (none, shm.pool) ∨
    ∃ phys pool, shm.pool.allocPages pages = (some phys, pool) ∧
      Balanced own { shm with pool } held
        (.dmaBuffer (BitVec.ofNat 64 phys) (BitVec.ofNat 32 pages) :: assets) others := by
  have hcount : pages ≤ 2 ^ 63 := hpages.trans (by decide)
  rcases h.backed.stock.allocPages_cases hcount with
    heq | ⟨phys, pool, heq, hpage, hstock, hin, hfree⟩
  · exact .inl heq
  · refine .inr ⟨phys, pool, heq, ?_⟩
    have hlt : phys < 2 ^ 64 := by
      obtain ⟨k, hk, -⟩ := nextPowerOfTwo_spec (max pages 1)
      have hpos := Nat.two_pow_pos k
      have hmem : phys / pageSize ∈
          (⟨phys / pageSize, nextPowerOfTwo (max pages 1)⟩ : Block) :=
        ⟨Nat.le_refl _, by rw [Block.limit, hk]; dsimp only; omega⟩
      have hbound := hspace _ ((h.whole _).mpr (.inl (hin _ hmem)))
      rw [pageSize] at hbound
      omega
    have hphys : (BitVec.ofNat 64 phys).toNat = phys := by
      rw [BitVec.toNat_ofNat, Nat.mod_eq_of_lt hlt]
    have hcount' : (BitVec.ofNat 32 pages).toNat = pages := by
      rw [BitVec.toNat_ofNat]
      exact Nat.mod_eq_of_lt (hpages.trans_lt (by decide))
    have hblocks : (Object.dmaBuffer (BitVec.ofNat 64 phys) (BitVec.ofNat 32 pages) ::
        assets).flatMap Object.blocks =
        ⟨phys / pageSize, nextPowerOfTwo (max pages 1)⟩ :: assets.flatMap Object.blocks := by
      rw [List.flatMap_cons, Object.blocks, hphys, hcount']
      rfl
    have hperm : ((⟨phys / pageSize, nextPowerOfTwo (max pages 1)⟩ : Block) ::
        (units shm.runs.flatten ++ (units held ++ (assets.flatMap Object.blocks ++ others)))).Perm
        (units shm.runs.flatten ++ (units held ++ (⟨phys / pageSize,
          nextPowerOfTwo (max pages 1)⟩ :: assets.flatMap Object.blocks ++ others))) :=
      (List.perm_middle.symm).trans ((List.perm_middle.symm).append_left _)
    refine ⟨⟨?_, h.backed.aligned⟩, h.paged, fun o ho => ?_, h.ids, h.named, fun x => ?_⟩
    · rw [hblocks]
      exact hstock.perm hperm
    · rcases List.mem_cons.mp ho with rfl | ho
      · rw [Object.Aligned, hphys]
        exact hpage
      · exact h.bases o ho
    · rw [hblocks, whole_take h.whole hin hfree x, cover_perm hperm]

/-- **Giving back what an object was made of.** -/
theorem release (h : Balanced own shm held (o :: assets) others) :
    Balanced own (shm.release o) held assets others := by
  have hbases : ∀ o ∈ assets, o.Aligned := fun o ho => h.bases o (List.mem_cons_of_mem _ ho)
  cases o with
  | sharedMemory id pages =>
    obtain ⟨hbacked, hperm, hwith, hfree⟩ := free_spec h.backed id
    have hids := h.ids
    have hnamed := h.named
    rw [show (Object.sharedMemory id pages :: assets).flatMap Object.ids =
      id :: assets.flatMap Object.ids from rfl] at hids hnamed
    obtain ⟨hnot, hids⟩ := List.nodup_cons.mp hids
    have hwhole : ∀ x, own x ↔ shm.pool.isFree x = true ∨
        Block.Cover (units ((shm.withFrames id).getD []) ++ (units (shm.free id).runs.flatten ++
          (units held ++ (assets.flatMap Object.blocks ++ others)))) x := by
      intro x
      rw [h.whole x]
      refine or_congr_right (cover_perm ?_)
      rw [← List.append_assoc (units ((shm.withFrames id).getD [])), ← units_append]
      exact (hperm.map _).append_right _
    refine ⟨hbacked, h.paged, hbases, hids, fun id' => ?_, whole_give hwhole fun x => ?_⟩
    · rw [Shm.release, hwith]
      by_cases hid : id = id'
      · subst hid
        rw [if_pos rfl]
        exact iff_of_false hnot Bool.false_ne_true
      · rw [if_neg hid, ← hnamed id', List.mem_cons]
        exact ⟨.inr, fun h => h.resolve_left (Ne.symm hid)⟩
    · rw [Shm.release, hfree x, cover_units]
  | dmaBuffer phys pages =>
    have haddr : phys.toNat / pageSize * pageSize = phys.toNat :=
      Nat.div_mul_cancel (Nat.dvd_of_mod_eq_zero (h.bases _ List.mem_cons_self))
    have hperm : (units shm.runs.flatten ++ (units held ++
        ((Object.dmaBuffer phys pages :: assets).flatMap Object.blocks ++ others))).Perm
        (⟨phys.toNat / pageSize, nextPowerOfTwo (max pages.toNat 1)⟩ ::
          (units shm.runs.flatten ++ (units held ++ (assets.flatMap Object.blocks ++ others)))) :=
      (List.perm_middle.append_left _).trans List.perm_middle
    obtain ⟨hstock, hfree⟩ := (h.backed.stock.perm hperm).freePages List.mem_cons_self
    rw [List.erase_cons_head] at hstock
    dsimp only at hstock hfree
    rw [haddr] at hstock hfree
    have hwhole : ∀ x, own x ↔ shm.pool.isFree x = true ∨
        Block.Cover ([⟨phys.toNat / pageSize, nextPowerOfTwo (max pages.toNat 1)⟩] ++
          (units shm.runs.flatten ++ (units held ++ (assets.flatMap Object.blocks ++ others)))) x :=
      fun x => by rw [h.whole x, cover_perm hperm]; rfl
    refine ⟨⟨hstock, h.backed.aligned⟩, h.paged, hbases, h.ids, h.named,
      whole_give hwhole fun x => ?_⟩
    rw [Shm.release, hfree x, Block.cover_cons]
    simp only [Block.cover_nil, or_false]
  | endpoint | device | notification | interrupt | deviceAuthority | scanout =>
    exact (cons_iff rfl).mp h

end Balanced

end

/-! ### Calls that are under way -/

namespace Making

/-- The frames a call has collected. -/
def frames : Making → List ℕ
  | .filling _ _ run | .returning run => run
  | _ => []

/-- The object a call has the frames of, and that is not in the table. -/
def assets : Making → List Object
  | .creating o | .freeing o => [o]
  | _ => []

/-- The slot of the object a call has created and may still revoke. -/
def slots : Making → List ℕ
  | .installing _ obj | .undoing _ obj => [obj.index.toNat]
  | _ => []

/-- What a call relies on. -/
def Ok (objects : List Obj.Slot) : Making → Prop
  | .filling pages want run => pages ≠ 0 ∧ run.length + want = pages
  | .returning _ => True
  | .creating o | .freeing o => o.backed = true
  | .installing o obj | .undoing o obj => o.backed = true ∧
    objects[obj.index.toNat]? = some ⟨obj.generation, some o⟩

/-- It relies on nothing in other slots. -/
theorem Ok.congr {objects objects' : List Obj.Slot} {m : Making} (h : m.Ok objects)
    (heq : ∀ i ∈ m.slots, objects'[i]? = objects[i]?) : m.Ok objects' := by
  cases m with
  | installing o obj => exact ⟨h.1, (heq _ List.mem_cons_self).trans h.2⟩
  | undoing o obj => exact ⟨h.1, (heq _ List.mem_cons_self).trans h.2⟩
  | filling | returning | creating | freeing => exact h

end Making

namespace Backing

/-- The frames that calls have collected. -/
def held (s : Backing) : List ℕ := s.calls.flatMap Making.frames

/-- The objects there are, and those calls have the frames of. -/
def assets (s : Backing) : List Object :=
  s.calls.flatMap Making.assets ++ s.objects.flatMap (·.object.toList)

end Backing

/-- What holds in every state, while no object with frames is revoked. -/
structure BackingInv (own : ℕ → Prop) (s : Backing) : Prop where
  kept : Balanced own s.shm s.held s.assets s.others
  calls : ∀ m ∈ s.calls, m.Ok s.objects
  /-- No two calls have created the same object. -/
  slots : (s.calls.flatMap Making.slots).Nodup
  /-- An index of the table fits a reference. -/
  len : s.objects.length ≤ 2 ^ 32

variable {own : ℕ → Prop} {s s' : Backing} {m m' : Making} {i : ℕ} {room : Bool}

namespace BackingInv

/-- A call goes on: what it had is exchanged for what it has now. -/
theorem put (h : BackingInv own s) (hm : s.calls[i]? = some m) (c : Option Making) {shm' : Shm}
    {objects' : List Obj.Slot} (hlen : objects'.length ≤ 2 ^ 32)
    (hslots : ((Holders.put s.calls i c).flatMap Making.slots).Nodup)
    (hgone : ∀ j ∈ m.slots, j ∉ c.elim [] Making.slots →
      j ∉ (Holders.put s.calls i c).flatMap Making.slots)
    (hok : ∀ m', c = some m' → m'.Ok objects')
    (hother : ∀ j slot, (j ∈ m.slots → j ∈ c.elim [] Making.slots) →
      s.objects[j]? = some slot → slot.object.isSome = true → objects'[j]? = some slot)
    (hkept : ∀ held calls, (m.frames ++ held).Perm (c.elim [] Making.frames ++ s.held) →
      (m.assets ++ calls).Perm (c.elim [] Making.assets ++ s.calls.flatMap Making.assets) →
      Balanced own shm' held (calls ++ objects'.flatMap (·.object.toList)) s.others) :
    BackingInv own ({ s with shm := shm', objects := objects' }.put i c) where
  kept := hkept _ _ (Holders.put_perm hm _ c) (Holders.put_perm hm _ c)
  calls := by
    intro m' hm'
    rcases Holders.mem_put hm' with hin | hin
    · have hm'' := h.calls m' hin
      refine hm''.congr fun j hj => ?_
      have hjc : j ∈ m.slots → j ∈ c.elim [] Making.slots := by
        intro hjm
        by_contra hnot
        exact hgone j hjm hnot (List.mem_flatMap.mpr ⟨m', hm', hj⟩)
      cases m' with
      | installing o obj =>
        obtain rfl := List.mem_singleton.mp hj
        exact (hother _ _ hjc hm''.2 rfl).trans hm''.2.symm
      | undoing o obj =>
        obtain rfl := List.mem_singleton.mp hj
        exact (hother _ _ hjc hm''.2 rfl).trans hm''.2.symm
      | filling | returning | creating | freeing => cases hj
    · exact hok m' hin
  slots := hslots
  len := hlen

/-- The same, of a call that creates and revokes no object. -/
theorem put_of_slots (h : BackingInv own s) (hm : s.calls[i]? = some m) (c : Option Making)
    {shm' : Shm} (hslots : c.elim [] Making.slots = m.slots ∨
      c.elim [] Making.slots = [])
    (hok : ∀ m', c = some m' → m'.Ok s.objects)
    (hkept : ∀ held calls, (m.frames ++ held).Perm (c.elim [] Making.frames ++ s.held) →
      (m.assets ++ calls).Perm (c.elim [] Making.assets ++ s.calls.flatMap Making.assets) →
      Balanced own shm' held (calls ++ s.objects.flatMap (·.object.toList)) s.others) :
    BackingInv own ({ s with shm := shm' }.put i c) := by
  have hsub : (c.elim [] Making.slots).Sublist m.slots := by
    rcases hslots with heq | heq
    · rw [heq]
    · rw [heq]
      exact List.nil_sublist _
  obtain ⟨hnodup, hgone⟩ := Holders.nodup_put hm h.slots hsub
  exact h.put hm c h.len hnodup hgone hok (fun _ _ _ hslot _ => hslot) hkept

/-! ### Every critical section -/

theorem filling (h : BackingInv own s) {pages want : ℕ} {run : List ℕ}
    (hm : s.calls[i]? = some (.filling pages want run)) :
    BackingInv own (s.advance i room (.filling pages want run)) := by
  obtain ⟨hpages, hlen⟩ := h.calls _ (List.mem_of_getElem? hm)
  cases want with
  | succ want =>
    rw [Backing.advance]
    rcases h.kept.allocate with heq | ⟨frame, pool, heq, hkept⟩
    · rw [heq]
      refine h.put_of_slots hm none (.inl rfl) (fun _ h => by cases h)
        fun held calls hheld hcalls => ?_
      exact (h.kept.perm hheld.symm (hcalls.append_right _).symm (.refl _)).giveBack
    · rw [heq]
      refine h.put_of_slots hm (some (.filling pages want (run ++ [frame]))) (.inl rfl)
        (fun m' hm' => ?_) fun held calls hheld hcalls => ?_
      · obtain rfl := Option.some.inj hm'
        refine ⟨hpages, ?_⟩
        rw [List.length_append, List.length_singleton]
        omega
      · have hheld : (run ++ held).Perm (run ++ [frame] ++ s.held) := hheld
        rw [List.append_assoc] at hheld
        have hheld := (List.perm_append_left_iff run).mp hheld
        exact hkept.perm hheld.symm (hcalls.append_right _).symm (.refl _)
  | zero =>
    rw [Backing.advance]
    cases hplace : Shm.place s.shm.runs run room with
    | some placed =>
      obtain ⟨id, runs⟩ := placed
      refine h.put_of_slots hm (some (.creating (.sharedMemory id (BitVec.ofNat 32 pages))))
        (.inl rfl) (fun m' hm' => ?_) fun held calls hheld hcalls => ?_
      · obtain rfl := Option.some.inj hm'
        rfl
      · have hrun : run ≠ [] := by
          rintro rfl
          exact hpages hlen.symm
        have hkept := h.kept.perm hheld.symm (.refl _) (.refl _)
        exact (hkept.place hrun hplace _).perm (.refl _) (hcalls.append_right _).symm (.refl _)
    | none =>
      refine h.put_of_slots hm (some (.returning run)) (.inl rfl) (fun m' hm' => ?_)
        fun held calls hheld hcalls => ?_
      · obtain rfl := Option.some.inj hm'
        trivial
      · have hheld : (run ++ held).Perm (run ++ s.held) := hheld
        have hheld := (List.perm_append_left_iff run).mp hheld
        exact h.kept.perm hheld.symm (hcalls.append_right _).symm (.refl _)

theorem returning (h : BackingInv own s) {run : List ℕ}
    (hm : s.calls[i]? = some (.returning run)) :
    BackingInv own (s.advance i room (.returning run)) := by
  refine h.put_of_slots hm none (.inl rfl) (fun _ h => by cases h)
    fun held calls hheld hcalls => ?_
  exact (h.kept.perm hheld.symm (hcalls.append_right _).symm (.refl _)).giveBack

/-- The object table with another object in it. -/
theorem create_spec {o : Object} {live room : Bool} {obj : ObjectRef}
    {objects objects' : List Obj.Slot} (hlen : objects.length ≤ 2 ^ 32)
    (hc : Obj.create live room objects o = some (obj, objects')) :
    objects'.length ≤ 2 ^ 32 ∧ objects'[obj.index.toNat]? = some ⟨obj.generation, some o⟩ ∧
      (∀ slot, objects[obj.index.toNat]? = some slot → slot.object = none) ∧
      (∀ j, j ≠ obj.index.toNat → ∀ slot, objects[j]? = some slot → objects'[j]? = some slot) ∧
      (objects'.flatMap (·.object.toList)).Perm (o :: objects.flatMap (·.object.toList)) := by
  rcases Obj.create_eq_some hc with ⟨k, slot, hslot, hnone, rfl, rfl⟩ | ⟨hlt, rfl, rfl⟩
  · have hk := (List.getElem?_eq_some_iff.mp hslot).1
    have hindex : (BitVec.ofNat 32 k).toNat = k := by
      rw [BitVec.toNat_ofNat, Nat.mod_eq_of_lt (hk.trans_le hlen)]
    dsimp only
    rw [hindex]
    refine ⟨by rwa [List.length_set], List.getElem?_set_self hk, fun slot' hslot' => ?_,
      fun j hj slot' hslot' => ?_, ?_⟩
    · obtain rfl := Option.some.inj (hslot.symm.trans hslot')
      exact hnone
    · rwa [List.getElem?_set_ne hj.symm]
    · have h := Holders.set_perm hslot (fun slot : Obj.Slot => slot.object.toList)
        ⟨slot.generation, some o⟩
      rwa [hnone] at h
  · have hindex : (BitVec.ofNat 32 objects.length).toNat = objects.length := by
      rw [BitVec.toNat_ofNat, Nat.mod_eq_of_lt hlt]
    dsimp only
    rw [hindex]
    refine ⟨?_, List.getElem?_concat_length, fun slot hslot => ?_, fun j hj slot hslot => ?_, ?_⟩
    · rw [List.length_append, List.length_singleton]
      exact hlt
    · rw [List.getElem?_eq_none (Nat.le_refl _)] at hslot
      cases hslot
    · rwa [List.getElem?_append_left (List.getElem?_eq_some_iff.mp hslot).1]
    · rw [List.flatMap_append]
      exact List.perm_append_comm

theorem creating (h : BackingInv own s) {o : Object} (hm : s.calls[i]? = some (.creating o)) :
    BackingInv own (s.advance i room (.creating o)) := by
  have hok : o.backed = true := h.calls _ (List.mem_of_getElem? hm)
  rw [Backing.advance]
  cases hc : Obj.create true room s.objects o with
  | some created =>
    obtain ⟨obj, objects⟩ := created
    obtain ⟨hlen, hnew, hwas, hother, hperm⟩ := create_spec h.len hc
    -- the slot was empty, so it is no other call's
    have hfresh : obj.index.toNat ∉ s.calls.flatMap Making.slots := by
      intro hin
      obtain ⟨m, hm, hj⟩ := List.mem_flatMap.mp hin
      have hm' := h.calls m hm
      cases m with
      | installing o' obj' | undoing o' obj' =>
        have hslot := hm'.2
        rw [← List.mem_singleton.mp hj] at hslot
        cases hwas _ hslot
      | filling | returning | creating | freeing => cases hj
    have hslots := Holders.put_perm hm Making.slots (some (.installing o obj))
    refine h.put hm (some (.installing o obj)) hlen (hslots.nodup_iff.mpr ?_)
      (fun j hj => by cases hj) (fun m' hm' => ?_) (fun j slot _ hslot hsome => ?_)
      fun held calls hheld hcalls => ?_
    · exact List.nodup_cons.mpr ⟨hfresh, h.slots⟩
    · obtain rfl := Option.some.inj hm'
      exact ⟨hok, hnew⟩
    · refine hother j ?_ slot hslot
      rintro rfl
      rw [hwas slot hslot] at hsome
      cases hsome
    · refine h.kept.perm hheld.symm ?_ (.refl _)
      have hcalls : (o :: calls).Perm (s.calls.flatMap Making.assets) := hcalls
      exact (hcalls.symm.append_right _).trans
        (List.perm_middle.symm.trans ((hperm.symm).append_left calls))
  | none =>
    refine h.put_of_slots hm (some (.freeing o)) (.inl rfl) (fun m' hm' => ?_)
      fun held calls hheld hcalls => ?_
    · obtain rfl := Option.some.inj hm'
      exact hok
    · have hcalls : ([o] ++ calls).Perm ([o] ++ s.calls.flatMap Making.assets) := hcalls
      have hcalls := (List.perm_append_left_iff [o]).mp hcalls
      exact h.kept.perm hheld.symm (hcalls.append_right _).symm (.refl _)

theorem installing (h : BackingInv own s) {o : Object} {obj : ObjectRef}
    (hm : s.calls[i]? = some (.installing o obj)) :
    BackingInv own (s.advance i room (.installing o obj)) := by
  have hok := h.calls _ (List.mem_of_getElem? hm)
  rw [Backing.advance]
  split
  · exact h.put_of_slots hm none (.inr rfl) (fun _ h => by cases h) fun held calls hheld hcalls =>
      h.kept.perm hheld.symm (hcalls.append_right _).symm (.refl _)
  · refine h.put_of_slots hm (some (.undoing o obj)) (.inl rfl) (fun m' hm' => ?_)
      fun held calls hheld hcalls => h.kept.perm hheld.symm (hcalls.append_right _).symm (.refl _)
    obtain rfl := Option.some.inj hm'
    exact hok

theorem undoing (h : BackingInv own s) {o : Object} {obj : ObjectRef}
    (hm : s.calls[i]? = some (.undoing o obj)) :
    BackingInv own (s.advance i room (.undoing o obj)) := by
  obtain ⟨hok, hslot⟩ := h.calls _ (List.mem_of_getElem? hm)
  rw [Backing.advance]
  rcases Obj.revoke_cases s.objects obj with ⟨o', hslot', heq⟩ | ⟨hnone, -⟩
  · rw [heq]
    have hset := Holders.set_perm hslot (fun slot : Obj.Slot => slot.object.toList)
      (Obj.Slot.clear ⟨obj.generation, some o'⟩)
    have hset : (o :: (s.objects.set obj.index.toNat
        (Obj.Slot.clear ⟨obj.generation, some o'⟩)).flatMap (·.object.toList)).Perm
        (s.objects.flatMap (·.object.toList)) := hset
    obtain ⟨hnodup, hgone⟩ := Holders.nodup_put (b := some (.freeing o)) hm h.slots
      (List.nil_sublist _)
    refine h.put hm (some (.freeing o)) (by rw [List.length_set]; exact h.len) hnodup hgone
      (fun m' hm' => ?_) (fun j slot hj hslot _ => ?_) fun held calls hheld hcalls => ?_
    · obtain rfl := Option.some.inj hm'
      exact hok
    · rwa [List.getElem?_set_ne]
      rintro rfl
      exact absurd (hj List.mem_cons_self) List.not_mem_nil
    · have hcalls : calls.Perm (o :: s.calls.flatMap Making.assets) := hcalls
      refine h.kept.perm hheld.symm ?_ (.refl _)
      refine List.Perm.trans ?_ (hcalls.append_right _).symm
      exact (hset.symm.append_left _).trans List.perm_middle
  · rw [Obj.get, hslot] at hnone
    dsimp only at hnone
    rw [if_pos rfl] at hnone
    cases hnone

theorem freeing (h : BackingInv own s) {o : Object} (hm : s.calls[i]? = some (.freeing o)) :
    BackingInv own (s.advance i room (.freeing o)) := by
  refine h.put_of_slots hm none (.inl rfl) (fun _ h => by cases h)
    fun held calls hheld hcalls => ?_
  have hcalls : (o :: calls).Perm (s.calls.flatMap Making.assets) := hcalls
  exact (h.kept.perm hheld.symm (hcalls.append_right _).symm (.refl _)).release

theorem advance (h : BackingInv own s) (hm : s.calls[i]? = some m) :
    BackingInv own (s.advance i room m) := by
  cases m with
  | filling pages want run => exact h.filling hm
  | returning run => exact h.returning hm
  | creating o => exact h.creating hm
  | installing o obj => exact h.installing hm
  | undoing o obj => exact h.undoing hm
  | freeing o => exact h.freeing hm

/-! ### The other events -/

/-- A call starts. -/
theorem start (h : BackingInv own s) {shm : Shm} (hslots : m.slots = []) (hok : m.Ok s.objects)
    (hkept : Balanced own shm (s.held ++ m.frames) (s.assets ++ m.assets) s.others) :
    BackingInv own { s with shm, calls := s.calls ++ [m] } := by
  have hflat : ∀ {β : Type} (g : Making → List β),
      (s.calls ++ [m]).flatMap g = s.calls.flatMap g ++ g m := fun g => by
    rw [List.flatMap_append, List.flatMap_singleton]
  refine ⟨?_, fun m' hm' => ?_, ?_, h.len⟩
  · have hheld : (s.calls ++ [m]).flatMap Making.frames = s.held ++ m.frames := hflat _
    have hassets : ((s.calls ++ [m]).flatMap Making.assets ++
        s.objects.flatMap (·.object.toList)).Perm (s.assets ++ m.assets) := by
      rw [hflat, List.append_assoc, Backing.assets, List.append_assoc]
      exact List.perm_append_comm.append_left _
    rw [← hheld] at hkept
    exact hkept.perm (.refl _) hassets.symm (.refl _)
  · rcases List.mem_append.mp hm' with hm' | hm'
    · exact h.calls m' hm'
    · rw [List.mem_singleton.mp hm']
      exact hok
  · show ((s.calls ++ [m]).flatMap Making.slots).Nodup
    rw [hflat, hslots, List.append_nil]
    exact h.slots

theorem createShared (h : BackingInv own s) {pages : ℕ} {reserve : Bool}
    (hn : s.next (.createShared pages reserve) = some s') : BackingInv own s' := by
  obtain rfl := Option.some.inj hn
  split
  · exact h
  · next hpages =>
    refine h.start (m := .filling pages pages []) rfl ⟨fun h => hpages (.inl h), Nat.zero_add _⟩ ?_
    rw [show Making.frames (.filling pages pages []) = [] from rfl,
      show Making.assets (.filling pages pages []) = [] from rfl, List.append_nil, List.append_nil]
    exact h.kept

theorem createDma (h : BackingInv own s) (hspace : ∀ x, own x → x < 2 ^ 52) {pages : ℕ}
    (hn : s.next (.createDma pages) = some s') : BackingInv own s' := by
  obtain rfl := Option.some.inj hn
  split
  · exact h
  · next hpages =>
    rcases h.kept.allocPages hspace (Nat.not_lt.mp fun h => hpages (.inr h)) with
      heq | ⟨phys, pool, heq, hkept⟩
    · rw [heq]
      exact h
    · rw [heq]
      have hstart : Balanced own { s.shm with pool }
          (s.held ++ Making.frames
            (.creating (.dmaBuffer (BitVec.ofNat 64 phys) (BitVec.ofNat 32 pages))))
          (s.assets ++ Making.assets
            (.creating (.dmaBuffer (BitVec.ofNat 64 phys) (BitVec.ofNat 32 pages)))) s.others := by
        rw [show Making.frames (.creating _) = [] from rfl, List.append_nil]
        exact hkept.perm (.refl _) (List.perm_append_singleton _ _).symm (.refl _)
      exact h.start rfl rfl hstart

/-- The object table changes in slots that no call relies on, by objects with no frames. -/
theorem ofObjects (h : BackingInv own s) {objects : List Obj.Slot}
    (hlen : objects.length ≤ 2 ^ 32)
    (hother : ∀ (j : ℕ) (o : Object) (generation : BitVec 32), o.backed = true →
      s.objects[j]? = some ⟨generation, some o⟩ → objects[j]? = some ⟨generation, some o⟩)
    (hkept : Balanced own s.shm s.held
      (s.calls.flatMap Making.assets ++ objects.flatMap (·.object.toList)) s.others) :
    BackingInv own { s with objects } := by
  refine ⟨hkept, fun m hm => ?_, h.slots, hlen⟩
  have hok := h.calls m hm
  cases m with
  | installing o obj => exact ⟨hok.1, hother _ _ _ hok.1 hok.2⟩
  | undoing o obj => exact ⟨hok.1, hother _ _ _ hok.1 hok.2⟩
  | filling | returning | creating | freeing => exact hok

theorem create (h : BackingInv own s) {o : Object} {live : Bool}
    (hn : s.next (.create o live room) = some s') : BackingInv own s' := by
  obtain ⟨ho, hn⟩ := Option.ite_none_left_eq_some.mp hn
  have ho := Bool.eq_false_iff.mpr ho
  cases hc : Obj.create live room s.objects o with
  | none =>
    rw [hc] at hn
    obtain rfl := Option.some.inj hn
    exact h
  | some created =>
    obtain ⟨obj, objects⟩ := created
    rw [hc] at hn
    obtain rfl := Option.some.inj hn
    obtain ⟨hlen, -, hwas, hother, hperm⟩ := create_spec h.len hc
    refine h.ofObjects hlen (fun j o' generation ho' hslot => ?_) ?_
    · refine hother j ?_ _ hslot
      rintro rfl
      cases hwas _ hslot
    · refine ((Balanced.cons_iff ho).mpr h.kept).perm (.refl _) ?_ (.refl _)
      exact List.perm_middle.symm.trans (hperm.symm.append_left _)

theorem revoke (h : BackingInv own s) {r : ObjectRef} (hok : s.keeps (.revoke r))
    (hn : s.next (.revoke r) = some s') : BackingInv own s' := by
  obtain rfl := Option.some.inj hn
  rcases Obj.revoke_cases s.objects r with ⟨o, hslot, heq⟩ | ⟨-, heq⟩
  · rw [heq]
    have ho : o.backed = false := hok o (by rw [Obj.get, hslot]; exact if_pos rfl)
    have hset := Holders.set_perm hslot (fun slot : Obj.Slot => slot.object.toList)
      (Obj.Slot.clear ⟨r.generation, some o⟩)
    have hset : (o :: (s.objects.set r.index.toNat
        (Obj.Slot.clear ⟨r.generation, some o⟩)).flatMap (·.object.toList)).Perm
        (s.objects.flatMap (·.object.toList)) := hset
    refine h.ofObjects (by rw [List.length_set]; exact h.len) (fun j o' generation ho' hslot' => ?_)
      ?_
    · rwa [List.getElem?_set_ne]
      rintro rfl
      obtain ⟨-, ho''⟩ := Obj.Slot.mk.inj (Option.some.inj (hslot.symm.trans hslot'))
      obtain rfl := Option.some.inj ho''
      cases ho.symm.trans ho'
    · refine (Balanced.cons_iff ho).mp (h.kept.perm (.refl _) ?_ (.refl _))
      exact (hset.symm.append_left _).trans List.perm_middle
  · rw [heq]
    exact h

/-- One more block that the rest of the kernel holds. -/
theorem cons_others {α : Type*} {a : α} {l₁ l₂ l₃ l₄ : List α} :
    (l₁ ++ (l₂ ++ (l₃ ++ a :: l₄))).Perm (a :: (l₁ ++ (l₂ ++ (l₃ ++ l₄)))) :=
  (((List.perm_middle.append_left _).trans List.perm_middle).append_left _).trans List.perm_middle

theorem take (h : BackingInv own s) {count : ℕ} (hn : s.next (.take count) = some s') :
    BackingInv own s' := by
  obtain ⟨hcount, hn⟩ := Option.ite_none_right_eq_some.mp hn
  rcases h.kept.backed.stock.allocPages_cases hcount with
    heq | ⟨frame, pool, heq, -, hstock, hin, hfree⟩
  · rw [heq] at hn
    obtain rfl := Option.some.inj hn
    exact h
  · rw [heq] at hn
    obtain rfl := Option.some.inj hn
    have hperm : ((⟨frame / pageSize, nextPowerOfTwo (max count 1)⟩ : Block) ::
        (units s.shm.runs.flatten ++ (units s.held ++
          (s.assets.flatMap Object.blocks ++ s.others)))).Perm
        (units s.shm.runs.flatten ++ (units s.held ++ (s.assets.flatMap Object.blocks ++
          ⟨frame / pageSize, nextPowerOfTwo (max count 1)⟩ :: s.others))) :=
      cons_others.symm
    refine ⟨h.kept.ofPool (hstock.perm hperm) h.kept.paged fun x => ?_, h.calls, h.slots, h.len⟩
    exact (Balanced.whole_take h.kept.whole hin hfree x).trans (or_congr_right (cover_perm hperm))

theorem give (h : BackingInv own s) {c : Block} (hn : s.next (.give c) = some s') :
    BackingInv own s' := by
  obtain ⟨hc, hn⟩ := Option.ite_none_right_eq_some.mp hn
  obtain rfl := Option.some.inj hn
  have hperm : (units s.shm.runs.flatten ++ (units s.held ++
      (s.assets.flatMap Object.blocks ++ s.others))).Perm
      (c :: (units s.shm.runs.flatten ++ (units s.held ++
        (s.assets.flatMap Object.blocks ++ s.others.erase c)))) :=
    ((((List.perm_cons_erase hc).append_left _).append_left _).append_left _).trans cons_others
  obtain ⟨hstock, hfree⟩ := (h.kept.backed.stock.perm hperm).freePages List.mem_cons_self
  rw [List.erase_cons_head] at hstock
  have hwhole : ∀ x, own x ↔ s.shm.pool.isFree x = true ∨ Block.Cover ([c] ++
      (units s.shm.runs.flatten ++ (units s.held ++
        (s.assets.flatMap Object.blocks ++ s.others.erase c)))) x :=
    fun x => by rw [h.kept.whole x, cover_perm hperm]; rfl
  refine ⟨h.kept.ofPool hstock h.kept.paged (Balanced.whole_give hwhole fun x => ?_), h.calls,
    h.slots, h.len⟩
  rw [hfree x, Block.cover_cons]
  simp only [Block.cover_nil, or_false]

/-- **Every event keeps it**, but the revocation of an object with frames. -/
theorem next (h : BackingInv own s) (hspace : ∀ x, own x → x < 2 ^ 52) {e : BackingEvent}
    (hok : s.keeps e) (hn : s.next e = some s') : BackingInv own s' := by
  cases e with
  | createShared pages reserve => exact h.createShared hn
  | createDma pages => exact h.createDma hspace hn
  | step i room =>
    obtain ⟨m, hm, rfl⟩ := Option.map_eq_some_iff.mp hn
    exact h.advance hm
  | create o live room => exact h.create hn
  | revoke r => exact h.revoke hok hn
  | take count => exact h.take hn
  | give c => exact h.give hn

end BackingInv

/-! ### The sweep -/

/-- The address of the block an object is made of. -/
def Object.bases : Object → List ℕ
  | .dmaBuffer phys _ => [phys.toNat]
  | _ => []

/-- What the sweep reads in the table. -/
theorem freeReclaimable_eq (slots : List Obj.Slot) :
    (Obj.freeReclaimable slots).2.1 = (slots.flatMap (·.object.toList)).flatMap Object.ids ∧
    (Obj.freeReclaimable slots).2.2.map (·.toNat) =
      (slots.flatMap (·.object.toList)).flatMap Object.bases := by
  induction slots with
  | nil => exact ⟨rfl, rfl⟩
  | cons slot slots ih =>
    obtain ⟨hids, hbases⟩ := ih
    rw [Obj.freeReclaimable] at hids hbases ⊢
    dsimp only at hids hbases ⊢
    rw [List.flatMap_cons, List.flatMap_append, List.flatMap_append, ← hids, ← hbases]
    obtain ⟨generation, _ | o⟩ := slot
    · exact ⟨rfl, rfl⟩
    · cases o <;> exact ⟨rfl, rfl⟩

section

variable {own : ℕ → Prop} {shm : Shm} {held : List ℕ} {os rest : List Object}
  {others : List Block}

/-- The first loop of the sweep gives back what the DMA buffers are made of. -/
theorem Balanced.sweepBases (h : Balanced own shm held (os ++ rest) others) :
    Balanced own { shm with pool := (os.flatMap Object.bases).foldl (·.freePages ·) shm.pool } held
      (os.filter (fun o => o.blocks.isEmpty) ++ rest) others := by
  induction os generalizing shm rest with
  | nil => exact h
  | cons o os ih =>
    -- what is not a DMA buffer is left for later
    have hleft : o.blocks.isEmpty = true → o.bases = [] →
        Balanced own { shm with
          pool := ((o :: os).flatMap Object.bases).foldl (·.freePages ·) shm.pool } held
          ((o :: os).filter (fun o => o.blocks.isEmpty) ++ rest) others := by
      intro hempty hbases
      have hleft := h.perm (.refl _) List.perm_middle.symm (.refl _)
      have hk := ih hleft
      rw [List.flatMap_cons, hbases, List.nil_append, List.filter_cons, if_pos hempty]
      exact hk.perm (.refl _) List.perm_middle (.refl _)
    cases o with
    | dmaBuffer phys pages => exact ih h.release
    | sharedMemory | endpoint | device | notification | interrupt | deviceAuthority | scanout =>
      exact hleft rfl rfl

/-- The second gives back the shared runs. -/
theorem Balanced.sweepRuns (h : Balanced own shm held (os ++ rest) others) :
    Balanced own (Backing.freeRuns shm (os.flatMap Object.ids)).2 held
      (os.filter (fun o => o.ids.isEmpty) ++ rest) others ∧
    shm.runs.flatten.Perm ((Backing.freeRuns shm (os.flatMap Object.ids)).1 ++
      (Backing.freeRuns shm (os.flatMap Object.ids)).2.runs.flatten) := by
  induction os generalizing shm rest with
  | nil => exact ⟨h, .refl _⟩
  | cons o os ih =>
    have hleft : o.ids = [] →
        Balanced own (Backing.freeRuns shm ((o :: os).flatMap Object.ids)).2 held
          ((o :: os).filter (fun o => o.ids.isEmpty) ++ rest) others ∧
        shm.runs.flatten.Perm ((Backing.freeRuns shm ((o :: os).flatMap Object.ids)).1 ++
          (Backing.freeRuns shm ((o :: os).flatMap Object.ids)).2.runs.flatten) := by
      intro hids
      have hleft := h.perm (.refl _) List.perm_middle.symm (.refl _)
      obtain ⟨hk, hperm⟩ := ih hleft
      rw [List.flatMap_cons, hids, List.nil_append, List.filter_cons, if_pos (by rw [hids]; rfl)]
      exact ⟨hk.perm (.refl _) List.perm_middle (.refl _), hperm⟩
    cases o with
    | sharedMemory id pages =>
      obtain ⟨-, hperm, -⟩ := free_spec h.backed id
      obtain ⟨hk, hperm'⟩ := ih h.release
      refine ⟨hk, hperm.trans ?_⟩
      have hsplit : (Backing.freeRuns shm
          ((Object.sharedMemory id pages :: os).flatMap Object.ids)).1 =
          (shm.withFrames id).getD [] ++
            (Backing.freeRuns (shm.free id) (os.flatMap Object.ids)).1 := rfl
      rw [hsplit, List.append_assoc]
      exact hperm'.append_left _
    | dmaBuffer | endpoint | device | notification | interrupt | deviceAuthority | scanout =>
      exact hleft rfl

end

/-- What the sweep is for, `pool` being the pool at boot. -/
structure Swept (pool : FramePool) (s : Backing) : Prop where
  /-- Every frame is free again, but those the rest of the kernel holds. -/
  isFree : ∀ x, s.sweep.2.shm.pool.isFree x = true ↔
    pool.isFree x = true ∧ ¬ Block.Cover s.others x
  /-- What is freed is the base of each DMA buffer and each frame of each run. -/
  freed : s.sweep.1.Perm
    ((s.objects.flatMap (·.object.toList)).flatMap Object.bases ++ s.shm.runs.flatten)
  /-- Nothing is freed twice. -/
  once : (s.sweep.1.map (· / pageSize)).Nodup
  /-- No run is left. -/
  empty : s.sweep.2.shm.runs.flatten = []

/-- A DMA buffer has no run. -/
theorem flatMap_ids_filter (os : List Object) :
    (os.filter fun o => o.blocks.isEmpty).flatMap Object.ids = os.flatMap Object.ids := by
  induction os with
  | nil => rfl
  | cons o os ih =>
    rw [List.filter_cons, List.flatMap_cons, ← ih]
    split
    · rw [List.flatMap_cons]
    · next hblocks =>
      cases o with
      | dmaBuffer => rfl
      | sharedMemory | endpoint | device | notification | interrupt | deviceAuthority | scanout =>
        exact absurd rfl hblocks

/-- The frames that are freed are those the blocks start with. -/
theorem map_bases (os : List Object) :
    (os.flatMap Object.bases).map (· / pageSize) = (os.flatMap Object.blocks).map (·.addr) := by
  induction os with
  | nil => rfl
  | cons o os ih =>
    rw [List.flatMap_cons, List.flatMap_cons, List.map_append, List.map_append, ih]
    cases o <;> rfl

/-- Blocks that share no frame start with different frames. -/
theorem nodup_addr {l : List Block} (hl : l.Pairwise Block.Disjoint) (hpos : ∀ c ∈ l, 0 < c.size) :
    (l.map (·.addr)).Nodup := by
  refine List.pairwise_map.mpr (hl.imp_of_mem fun {b c} hb hc hdisj heq => ?_)
  rcases (Block.disjoint_iff (hpos b hb) (hpos c hc)).mp hdisj with h | h
  · have := hpos b hb
    rw [Block.limit] at h
    omega
  · have := hpos c hc
    rw [Block.limit] at h
    omega

/-- With no id that names anything there is no frame in the table. -/
theorem Shm.flatten_eq_nil {shm : Shm} (h : ∀ id, shm.withFrames id = none) :
    shm.runs.flatten = [] := by
  refine List.flatten_eq_nil_iff.mpr fun run hrun => ?_
  by_contra hne
  obtain ⟨id, hid⟩ := List.mem_iff_getElem?.mp hrun
  cases (h id).symm.trans (withFrames_eq_some.mpr ⟨hid, hne⟩)

namespace BackingInv

/-- **When no call is under way, the sweep reaches everything.** -/
theorem swept {pool : FramePool} (h : BackingInv (fun x => pool.isFree x = true) s)
    (hcalls : s.calls = []) : Swept pool s := by
  have hheld : s.held = [] := by rw [Backing.held, hcalls]; rfl
  have hassets : s.assets = s.objects.flatMap (·.object.toList) ++ [] := by
    rw [Backing.assets, hcalls, List.append_nil]
    rfl
  have hkept := h.kept
  rw [hheld, hassets] at hkept
  obtain ⟨hids, hbases⟩ := freeReclaimable_eq s.objects
  generalize hos : s.objects.flatMap (·.object.toList) = os at hkept hids hbases
  obtain ⟨hk, hperm⟩ := hkept.sweepBases.sweepRuns
  rw [flatMap_ids_filter] at hk hperm
  -- what is left in the table has no frames
  have hplain : ∀ o ∈ (os.filter fun o => o.blocks.isEmpty).filter (fun o => o.ids.isEmpty) ++ [],
      o.blocks = [] ∧ o.ids = [] := by
    intro o ho
    rw [List.append_nil] at ho
    obtain ⟨ho, hids⟩ := List.mem_filter.mp ho
    exact ⟨List.isEmpty_iff.mp (List.mem_filter.mp ho).2, List.isEmpty_iff.mp hids⟩
  have hblocks := List.flatMap_eq_nil_iff.mpr fun o ho => (hplain o ho).1
  have hnone := List.flatMap_eq_nil_iff.mpr fun o ho => (hplain o ho).2
  have hsweep : s.sweep.2.shm = (Backing.freeRuns ⟨s.shm.runs,
      (os.flatMap Object.bases).foldl (·.freePages ·) s.shm.pool⟩ (os.flatMap Object.ids)).2 := by
    rw [← hids, ← hbases]
    rfl
  have hfreed : s.sweep.1 = os.flatMap Object.bases ++ (Backing.freeRuns ⟨s.shm.runs,
      (os.flatMap Object.bases).foldl (·.freePages ·) s.shm.pool⟩ (os.flatMap Object.ids)).1 := by
    rw [← hids, ← hbases]
    rfl
  have hempty : s.sweep.2.shm.runs.flatten = [] := by
    rw [hsweep]
    refine Shm.flatten_eq_nil fun id => ?_
    have hnamed := hk.named id
    rw [hnone] at hnamed
    exact Option.not_isSome_iff_eq_none.mp fun hsome => List.not_mem_nil (hnamed.mpr hsome)
  have hall : s.sweep.1.Perm (os.flatMap Object.bases ++ s.shm.runs.flatten) := by
    rw [hfreed]
    rw [← hsweep, hempty, List.append_nil] at hperm
    exact hperm.symm.append_left _
  refine ⟨fun x => ?_, hos ▸ hall, ?_, hempty⟩
  · have hwhole := hk.whole x
    have hstock := hk.backed.stock
    rw [hblocks, ← hsweep, hempty] at hwhole hstock
    rw [hwhole]
    constructor
    · exact fun hfree => ⟨.inl hfree, hstock.not_cover hfree⟩
    · exact fun ⟨hor, hnot⟩ => hor.resolve_right hnot
  · refine (hall.map _).nodup_iff.mpr ?_
    rw [List.map_append, map_bases]
    have hstock : Stock s.shm.pool (units s.shm.runs.flatten ++
        (os.flatMap Object.blocks ++ s.others)) := by
      rw [← List.append_nil os]
      exact hkept.backed.stock
    rw [← List.append_assoc] at hstock
    have hpair := (List.pairwise_append.mp hstock.disjoint).1
    have haddr : s.shm.runs.flatten.map (· / pageSize) =
        (units s.shm.runs.flatten).map (·.addr) := by
      rw [units, List.map_map]
      rfl
    rw [haddr, ← List.map_append]
    refine nodup_addr ((List.perm_append_comm.pairwise_iff Block.Disjoint.symm).mp hpair) ?_
    intro c hc
    rcases List.mem_append.mp hc with hc | hc
    · obtain ⟨o, -, hc⟩ := List.mem_flatMap.mp hc
      cases o with
      | dmaBuffer phys pages =>
        obtain ⟨k, hk, -⟩ := nextPowerOfTwo_spec (max pages.toNat 1)
        rw [List.mem_singleton.mp hc, hk]
        exact Nat.two_pow_pos k
      | sharedMemory | endpoint | device | notification | interrupt | deviceAuthority | scanout =>
        cases hc
    · obtain ⟨f, -, rfl⟩ := List.mem_map.mp hc
      exact Nat.one_pos

end BackingInv

/-! ### Runs -/

/-- The frames of a pool are in the address space. -/
theorem Built.isFree_lt {runs : List Added} {pool : FramePool} (hbuilt : Built runs pool)
    (hspace : ∀ r ∈ runs, r.start + r.len ≤ 2 ^ 64) {x : ℕ} (hx : pool.isFree x = true) :
    x < 2 ^ 52 := by
  obtain ⟨t, ht, hoffers⟩ := List.any_eq_true.mp hx
  obtain ⟨-, hhigh, -⟩ := BuddyFrameAllocator.offers_iff.mp hoffers
  rw [hbuilt.trees_eq] at ht
  obtain ⟨r, hr, ht⟩ := List.mem_flatMap.mp ht
  obtain ⟨left, hlaid⟩ := (hbuilt.made hr).laid
  obtain ⟨-, hlimit, -⟩ := hlaid.mem ht
  have hlen := Nat.div_mul_le_self r.len pageSize
  have htop := hspace r hr
  rw [BuddyFrameAllocator.limit] at hlimit
  have hbase := Nat.div_mul_le_self t.base pageSize
  have hmul : (t.base / pageSize + t.frames) * pageSize ≤ 2 ^ 64 := by
    rw [Nat.add_mul]
    omega
  rw [pageSize] at hmul hhigh
  omega

/-- **The sweep frees every frame once**, when no call is under way, in every run that revokes no
object with frames. -/
theorem swept_of_keeps {runs : List Added} {pool : FramePool} (hbuilt : Built runs pool)
    (hapart : runs.Pairwise Added.Apart) (hspace : ∀ r ∈ runs, r.start + r.len ≤ 2 ^ 64)
    (hs : (backing pool).Reach Backing.keeps s) (hcalls : s.calls = []) : Swept pool s := by
  refine BackingInv.swept (EventSystem.Reach.invariant (fun s hs => ?_)
    (fun s e s' hi hok hn => hi.next (fun _ => hbuilt.isFree_lt hspace) hok hn) hs) hcalls
  obtain rfl := hs
  refine ⟨⟨⟨Stock.init hbuilt hapart, fun f hf => absurd hf List.not_mem_nil⟩,
    fun f hf => absurd hf List.not_mem_nil, fun o ho => absurd ho List.not_mem_nil, .nil,
    fun id => ?_, fun x => ?_⟩, fun m hm => absurd hm List.not_mem_nil, .nil, Nat.zero_le _⟩
  · exact iff_of_false List.not_mem_nil Bool.false_ne_true
  · exact ⟨.inl, fun h => h.resolve_right Block.cover_nil⟩

/-- The guard of `swept_of_keeps`, as a test. -/
def Backing.keepsTest (s : Backing) : BackingEvent → Bool
  | .revoke r => (Obj.get s.objects r).all fun o => !o.backed
  | _ => true

theorem Backing.keeps_of_test (s : Backing) (e : BackingEvent) (h : s.keepsTest e = true) :
    s.keeps e := by
  cases e with
  | revoke r =>
    intro o ho
    rw [keepsTest, ho] at h
    exact Bool.not_eq_true' _ ▸ h
  | createShared | createDma | step | create | take | give => trivial

/-- A buffer of one frame, from its creation to its capability. -/
def oneBuffer : List BackingEvent :=
  [.createShared 1 true, .step 0 true, .step 0 true, .step 0 true, .step 0 true]

/-- A shared and a DMA buffer. -/
theorem swept_of_keeps_run : ∃ s, (backing fourFrames).Reach Backing.keeps s ∧
    (s.objects.map (·.object) =
      [some (.sharedMemory 0 1), some (.dmaBuffer (0x40000000 + 0x2000) 2)]) ∧
    Swept fourFrames s := by
  obtain ⟨r, hstart, hlen, hbuilt⟩ := built_fourFrames
  have hspace : ∀ r' ∈ [r], r'.start + r'.len ≤ 2 ^ 64 := by
    intro r' hr'
    rw [List.mem_singleton.mp hr', hstart, hlen]
    decide
  have hrun : ∃ s, (backing fourFrames).Reach Backing.keeps s ∧
      decide (s.calls = [] ∧ s.objects.map (·.object) =
        [some (.sharedMemory 0 1), some (.dmaBuffer (0x40000000 + 0x2000) 2)]) = true :=
    EventSystem.Reach.exists_of_runIf Backing.keeps_of_test
      (oneBuffer ++ [.createDma 2, .step 0 true, .step 0 true]) rfl (by decide +kernel)
  obtain ⟨s, hs, htest⟩ := hrun
  obtain ⟨hcalls, hobjects⟩ := of_decide_eq_true htest
  exact ⟨s, hs, hobjects, swept_of_keeps hbuilt (List.pairwise_singleton _ _) hspace hs hcalls⟩

/-- **A buffer that is revoked does not come back.** -/
theorem not_swept : ¬ ∀ (runs : List Added) (pool : FramePool), Built runs pool →
    runs.Pairwise Added.Apart → (∀ r ∈ runs, r.start + r.len ≤ 2 ^ 64) →
    ∀ s, (backing pool).Reachable s → s.calls = [] → Swept pool s := by
  intro hall
  obtain ⟨r, hstart, hlen, hbuilt⟩ := built_fourFrames
  have hspace : ∀ r' ∈ [r], r'.start + r'.len ≤ 2 ^ 64 := by
    intro r' hr'
    rw [List.mem_singleton.mp hr', hstart, hlen]
    decide
  have hrun : ∃ s, (backing fourFrames).Reachable s ∧
      decide (s.calls = [] ∧ s.others = [] ∧ s.sweep.2.shm.pool.isFree 0x40000 = false) = true :=
    EventSystem.Reachable.exists_of_run (oneBuffer ++ [.revoke ⟨0, 0⟩]) rfl (by decide +kernel)
  obtain ⟨s, hs, htest⟩ := hrun
  obtain ⟨hcalls, hothers, hlost⟩ := of_decide_eq_true htest
  have hswept := hall _ _ hbuilt (List.pairwise_singleton _ _) hspace s hs hcalls
  have hfree := (hswept.isFree 0x40000).mpr ⟨by decide +kernel, by
    rw [hothers]
    exact Block.cover_nil⟩
  cases hlost.symm.trans hfree

end StarOS
