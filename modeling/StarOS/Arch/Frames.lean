import StarOS.Arch.Tables
import StarOS.Lib.EventSystem

/-!
# The frames of a space

A space takes frames from the pool for its tables and for the pages it owns. What it owns is written
in the leaves and nowhere else, so a leaf that is overwritten takes the frame it owned with it, and a
descriptor made of an address that has bit 55 set claims a frame the space never took.

## Main definitions

* `settle` — the frames taken and not yet given back, after a log of transfers
* `spaceCalls` — any sequence of calls, from `new` to `destroy`
* `Spares` — no call overwrites a leaf that owns its frame, or maps an address with bit 55 set

## Main results

* `conserved_of_spares` — after `destroy` every frame taken has been given back, once, and no other
-/

namespace StarOS

open Mmu Radix

/-! ### Accounts -/

/-- The frames taken and not given back, starting from `held`: `none` if one was taken that was held
already, or one was given back that was not. -/
def settle (held : List ℕ) : List Transfer → Option (List ℕ)
  | [] => some held
  | .took f :: log => if f ∈ held then none else settle (f :: held) log
  | .gave f :: log => if f ∈ held then settle (held.erase f) log else none

theorem settle_append (held : List ℕ) (l₁ l₂ : List Transfer) :
    settle held (l₁ ++ l₂) = (settle held l₁).bind fun held => settle held l₂ := by
  induction l₁ generalizing held with
  | nil => rfl
  | cons t l₁ ih =>
    cases t with
    | took f =>
      rw [List.cons_append, settle, settle]
      split
      · rfl
      · exact ih _
    | gave f =>
      rw [List.cons_append, settle, settle]
      split
      · exact ih _
      · rfl

theorem settle_took {held fs : List ℕ} (hheld : held.Nodup) (hfs : fs.Nodup)
    (hfresh : ∀ f ∈ fs, f ∉ held) :
    ∃ held', settle held (fs.map .took) = some held' ∧ held'.Nodup ∧
      ∀ c, c ∈ held' ↔ c ∈ fs ∨ c ∈ held := by
  induction fs generalizing held with
  | nil => exact ⟨held, rfl, hheld, fun c => by simp⟩
  | cons f fs ih =>
    obtain ⟨hf, hfs⟩ := List.nodup_cons.mp hfs
    have hnot := hfresh f List.mem_cons_self
    have hheld' : (f :: held).Nodup := List.nodup_cons.mpr ⟨hnot, hheld⟩
    obtain ⟨held', hset, hnodup, hmem⟩ := ih hheld'
      hfs fun g hg hin => (List.mem_cons.mp hin).elim (fun heq => hf (heq ▸ hg))
        (hfresh g (List.mem_cons_of_mem f hg))
    refine ⟨held', ?_, hnodup, fun c => ?_⟩
    · rw [List.map_cons, settle, if_neg hnot, hset]
    · rw [hmem, List.mem_cons, List.mem_cons]
      tauto

theorem settle_gave {held fs : List ℕ} (hheld : held.Nodup) (hfs : fs.Nodup)
    (hsub : ∀ f ∈ fs, f ∈ held) :
    ∃ held', settle held (fs.map .gave) = some held' ∧ held'.Nodup ∧
      ∀ c, c ∈ held' ↔ c ∈ held ∧ c ∉ fs := by
  induction fs generalizing held with
  | nil => exact ⟨held, rfl, hheld, fun c => by simp⟩
  | cons f fs ih =>
    obtain ⟨hf, hfs⟩ := List.nodup_cons.mp hfs
    obtain ⟨held', hset, hnodup, hmem⟩ := ih (hheld.erase f) hfs
      fun g hg => (List.mem_erase_of_ne (by rintro rfl; exact hf hg)).mpr
        (hsub g (List.mem_cons_of_mem f hg))
    refine ⟨held', ?_, hnodup, fun c => ?_⟩
    · rw [List.map_cons, settle, if_pos (hsub f List.mem_cons_self), hset]
    · rw [hmem, hheld.mem_erase_iff, List.mem_cons]
      tauto

/-! ### Any sequence of calls -/

/-- Memory, what has passed between the space and the pool, and the space while there is one. -/
structure SpaceState where
  mem : Mem
  log : List Transfer
  space : Option AddressSpace

/-- A call, with the frames the pool hands out during it. -/
inductive SpaceEvent
  | new (supply : List ℕ)
  | mapSegmentWith (vaddr filesz memsz flags : ℕ) (fill : AddressSpace.Fill) (supply : List ℕ)
  | mapAnonAt (va pages : ℕ) (supply : List ℕ)
  | growStack (far : ℕ) (supply : List ℕ)
  | mapShared (base : ℕ) (frames supply : List ℕ)
  | mapDma (phys pages : ℕ) (supply : List ℕ)
  | mapDevice (base devPhys : ℕ) (supply : List ℕ)
  | unmap (va pages : ℕ)
  | destroy

namespace SpaceEvent

/-- The frames handed out during a call. -/
def supply : SpaceEvent → List ℕ
  | new supply | mapSegmentWith _ _ _ _ _ supply | mapAnonAt _ _ supply | growStack _ supply
  | mapShared _ _ supply | mapDma _ _ supply | mapDevice _ _ supply => supply
  | unmap _ _ | destroy => []

end SpaceEvent

namespace SpaceState

/-- The effect of a call on a space, or of `new` where there is none. -/
def next (s : SpaceState) (e : SpaceEvent) : Option SpaceState :=
  let p : Phys Pool := ⟨s.mem, ⟨e.supply, s.log⟩⟩
  let after (p : Phys Pool) : SpaceState := ⟨p.mem, p.alloc.log, s.space⟩
  match s.space, e with
  | none, .new _ =>
    let (space, p) := AddressSpace.new p
    some ⟨p.mem, p.alloc.log, space⟩
  | some space, .mapSegmentWith vaddr filesz memsz flags fill _ =>
    some (after (space.mapSegmentWith vaddr filesz memsz flags fill p).2)
  | some space, .mapAnonAt va pages _ => some (after (space.mapAnonAt va pages p).2)
  | some space, .growStack far _ => some (after (space.growStack far p).2)
  | some space, .mapShared base frames _ => some (after (space.mapShared base frames p).2)
  | some space, .mapDma phys pages _ => some (after (space.mapDma phys pages p).2)
  | some space, .mapDevice base devPhys _ => some (after (space.mapDevice base devPhys p).2)
  | some space, .unmap va pages => some (after (space.unmap va pages p).2)
  | some space, .destroy => some { after (space.destroy p) with space := none }
  | _, _ => none

/-- The pool hands out frames, and none that the space holds. -/
def PoolSound (s : SpaceState) (e : SpaceEvent) : Prop :=
  e.supply.Nodup ∧ ∀ f ∈ e.supply, IsFrame f ∧ ∀ held ∈ settle [] s.log, f ∉ held

instance (s : SpaceState) (e : SpaceEvent) : Decidable (s.PoolSound e) :=
  inferInstanceAs (Decidable (_ ∧ _))

end SpaceState

/-- A space from `new` to `destroy`, and the next one. -/
def spaceCalls : EventSystem SpaceState SpaceEvent where
  init s := s.log = [] ∧ s.space = none
  next := SpaceState.next

/-- The states in which a loop comes to round `i`. -/
inductive Comes {S : Type} (step : ℕ → S → Bool × S) (s : S) : ℕ → S → Prop
  | start : Comes step s 0 s
  | next {i : ℕ} {s₁ s₂ : S} : Comes step s i s₁ → step i s₁ = (true, s₂) → Comes step s (i + 1) s₂

/-- No round that maps a page maps it over a leaf that owns its frame. -/
def SparesOwned (space : AddressSpace) (step : ℕ → Phys Pool → Bool × Phys Pool) (va : ℕ → ℕ)
    (pages : ℕ) (p : Phys Pool) : Prop :=
  ∀ i p', i < pages → Comes step p i p' → (step i p').1 = true →
    ∀ desc ∈ space.lookup p'.mem (va i), desc &&& swOwned = 0

/-- No call maps a page over a leaf that owns its frame, or maps an address with bit 55 set. -/
def Spares (s : SpaceState) (e : SpaceEvent) : Prop :=
  let p : Phys Pool := ⟨s.mem, ⟨e.supply, s.log⟩⟩
  ∀ space ∈ s.space, match e with
  | .mapSegmentWith vaddr filesz memsz flags fill _ =>
    SparesOwned space (space.mapSegmentPage vaddr filesz flags fill)
      (fun i => (vaddr + i * page4K) % 2 ^ 64) ((memsz + page4K - 1) / page4K) p
  | .mapAnonAt va pages _ =>
    SparesOwned space (fun i p =>
      let (frame, p) := space.mapFresh ((va + i * page4K) % 2 ^ 64) p
      (frame.isSome, p)) (fun i => (va + i * page4K) % 2 ^ 64) pages p
  | .mapShared base frames _ =>
    (∀ frame ∈ frames, frame &&& swOwned = 0) ∧
    SparesOwned space (fun i => space.mapPage ((base + i * page4K) % 2 ^ 64)
      (userDataPage (frames.getD i 0))) (fun i => (base + i * page4K) % 2 ^ 64) frames.length p
  | .mapDma phys pages _ =>
    (∀ i < pages, (phys + i * page4K) % 2 ^ 64 &&& swOwned = 0) ∧
    SparesOwned space (fun i => space.mapPage (userDmaVa + i * page4K)
      (userDmaPage ((phys + i * page4K) % 2 ^ 64))) (fun i => userDmaVa + i * page4K) pages p
  | .mapDevice base devPhys _ =>
    devPhys &&& swOwned = 0 ∧
    SparesOwned space (fun _ => space.mapPage base
      (userDevicePage (devPhys - (devPhys &&& (page4K - 1))))) (fun _ => base) 1 p
  | _ => True

/-! ### What a descriptor owns -/

section

variable {pa f flags : ℕ}

theorem owned_none (hflags : flags &&& swOwned = 0) (h : pa &&& swOwned = 0) :
    owned (pa ||| flags) = none := by
  rw [owned, if_neg]
  rintro ⟨-, hne⟩
  rw [Nat.and_or_distrib_right, hflags, h] at hne
  exact hne rfl

theorem owned_some (hf : IsFrame f) (hvalid : flags &&& descValid ≠ 0)
    (hflags : flags &&& swOwned ≠ 0) (haddr : flags &&& addrMask = 0) :
    owned (f ||| flags) = some f := by
  rw [owned, Nat.and_or_distrib_right, hf.and_eq_zero (by decide), Nat.zero_or,
    Nat.and_or_distrib_right, hf.and_eq_zero (by decide), Nat.zero_or, if_pos ⟨hvalid, hflags⟩,
    Nat.and_or_distrib_right, hf, haddr, Nat.or_zero]

theorem userDataPage_eq (pa : ℕ) : userDataPage pa = pa ||| userDataPage 0 := by
  simp only [userDataPage, Nat.or_assoc, Nat.zero_or]

theorem owned_userDataPage (hf : IsFrame f) : owned (userDataPage f ||| swOwned) = some f := by
  rw [userDataPage_eq, Nat.or_assoc]
  exact owned_some hf (by decide) (by decide) (by decide)

theorem owned_segmentPage (hf : IsFrame f) (flags : ℕ) :
    owned (AddressSpace.segmentPage flags f ||| swOwned) = some f := by
  rw [AddressSpace.segmentPage]
  split
  · rw [userTextPage]
    simp only [Nat.or_assoc]
    exact owned_some hf (by decide) (by decide) (by decide)
  · split
    · exact owned_userDataPage hf
    · rw [userRoPage]
      simp only [Nat.or_assoc]
      exact owned_some hf (by decide) (by decide) (by decide)

theorem owned_shared (h : pa &&& swOwned = 0) : owned (userDataPage pa) = none := by
  rw [userDataPage_eq]
  exact owned_none (by decide) h

theorem owned_dma (h : pa &&& swOwned = 0) : owned (userDmaPage pa) = none := by
  rw [userDmaPage]
  simp only [Nat.or_assoc]
  exact owned_none (by decide) h

/-- The page of a device has bit 55 set if the device's address has. -/
theorem owned_device (h : pa &&& swOwned = 0) :
    owned (userDevicePage (pa - (pa &&& (page4K - 1)))) = none := by
  have hpage : pa - (pa &&& (page4K - 1)) &&& swOwned = pa &&& swOwned := by
    have hmask : swOwned = 2 ^ 56 - 2 ^ 55 := by decide
    have hlow : pa &&& (page4K - 1) = pa % 4096 := Nat.and_two_pow_sub_one_eq_mod pa 12
    rw [hmask, Bits.and_mask _ (by decide), Bits.and_mask _ (by decide), hlow]
    omega
  rw [userDevicePage]
  simp only [Nat.or_assoc]
  exact owned_none (by decide) (hpage.trans h)

end

/-- What is filled into a frame is in no other. -/
theorem readEntry_overlay {t f : ℕ} {m : Mem} {i : Fin entries} (words : Fin entries → ℕ)
    (hf : IsFrame f) (ht : IsFrame t) (hne : t ≠ f) :
    readEntry (AddressSpace.overlay m f words) t i = readEntry m t i := by
  obtain ⟨a, rfl⟩ := ht.dvd
  obtain ⟨b, rfl⟩ := hf.dvd
  have hi : (i : ℕ) < 512 := i.isLt
  have hsize : 8 * entries = 4096 := rfl
  rw [readEntry, AddressSpace.overlay, dif_neg (by omega), readEntry]

/-! ### What a space owns -/

/-- What has been taken and not given back is what the tables lead to, and what is in hand: taken
and not yet written into a leaf, or out of one and not yet given back. -/
structure Owns (root : ℕ) (hand : List ℕ) (p : Phys Pool) : Prop where
  ready : Ready (leafLevel + 1) root p.mem p.alloc.supply
  settled : ∃ held, settle [] p.alloc.log = some held ∧ held.Nodup ∧
    ∀ c, c ∈ held ↔ c ∈ hand ∨ Reached (below p.mem) root (leafLevel + 1) c
  inHand : ∀ c ∈ hand, IsFrame c ∧ ¬ Reached (below p.mem) root (leafLevel + 1) c
  fresh : ∀ f ∈ p.alloc.supply, f ∉ hand

variable {root : ℕ} {hand : List ℕ} {p p' : Phys Pool} {space : AddressSpace} {va desc f : ℕ}

/-- The same leaves, but for the one an address goes through. -/
def SameLeaves (root : ℕ) (m m' : Mem) (va : ℕ) : Prop :=
  ∀ q j, q.length = leafLevel → ¬ (q = path va ∧ j = tableIndex va leafLevel) →
    leafAt m' root q j = leafAt m root q j

/-- The frame the leaf of an address owns. -/
def ownedAt (m : Mem) (root va : ℕ) : Option ℕ :=
  (leafAt m root (path va) (tableIndex va leafLevel)).bind owned

theorem ownedAt_eq_walk (m : Mem) (root va : ℕ) :
    walk (below m) 0 root (path va ++ [tableIndex va leafLevel]) = ownedAt m root va :=
  walk_leaf (length_path va)

/-- A lookup says whether the leaf owns its frame. -/
theorem ownedAt_of_lookup {m : Mem} (h : ∀ desc ∈ space.lookup m va, desc &&& swOwned = 0) :
    ownedAt m space.root va = none := by
  rw [ownedAt, ← lookup_eq_leafAt]
  cases hl : space.lookup m va with
  | none => rfl
  | some desc => rw [Option.bind_some, owned, if_neg fun hd => hd.2 (h desc hl)]

namespace Owns

theorem of_entries (h : Owns root hand p) {m' : Mem} (heq : ∀ q c j, q.length ≤ leafLevel →
      walk (below p.mem) 0 root q = some c → readEntry m' c j = readEntry p.mem c j) :
    Owns root hand { p with mem := m' } := by
  obtain ⟨hready, hreached⟩ := h.ready.of_entries (Nat.le_refl _) heq
  obtain ⟨held, hset, hnodup, hmem⟩ := h.settled
  refine ⟨hready, ⟨held, hset, hnodup, fun c => ?_⟩, fun c hc => ?_, h.fresh⟩
  · rw [hmem, hreached]
  · rw [hreached]
    exact h.inHand c hc

/-- A frame in hand is not one of the tables. -/
theorem ne_of_hand (h : Owns root hand p) (hf : f ∈ hand) {q : List (Fin entries)} {c : ℕ}
    (hq : q.length ≤ leafLevel) (hw : walk (below p.mem) 0 root q = some c) : c ≠ f := by
  rintro rfl
  exact (h.inHand c hf).2 ⟨q, hq.trans (Nat.le_succ _), hw⟩

/-- **A frame is taken** from the pool, and zeroed. -/
theorem allocTable (h : Owns root [] p) :
    allocTable p = (none, p) ∨ ∃ f p', allocTable p = (some f, p') ∧ Owns root [f] p' ∧
      ∀ q j, q.length = leafLevel → leafAt p'.mem root q j = leafAt p.mem root q j := by
  obtain ⟨m, supply, log⟩ := p
  cases supply with
  | nil => exact .inl rfl
  | cons f fs =>
    obtain ⟨hf, hnot⟩ := h.ready.fresh f List.mem_cons_self
    have hentries : ∀ q c j, q.length ≤ leafLevel → walk (below m) 0 root q = some c →
        readEntry (zeroFrame m f) c j = readEntry m c j := by
      intro q c j hq hw
      rw [readEntry_zeroFrame m hf (isFrame_of_walk h.ready.tables.isFrame hw), if_neg]
      rintro rfl
      exact hnot ⟨q, hq.trans (Nat.le_succ _), hw⟩
    refine .inr ⟨f, ⟨zeroFrame m f, ⟨fs, log ++ [.took f]⟩⟩, rfl, ?_,
      fun q j hq => leafAt_of_entries hentries hq⟩
    obtain ⟨hready, hreached⟩ := h.ready.of_entries (Nat.le_refl _) hentries
    obtain ⟨held, hset, hnodup, hmem⟩ := h.settled
    obtain ⟨hffs, hfs⟩ := List.nodup_cons.mp hready.nodup
    have hheld : f ∉ held := fun hin => ((hmem f).mp hin).elim (fun hf => by cases hf) hnot
    refine ⟨⟨hready.tables, hready.tree, hfs,
      fun g hg => hready.fresh g (List.mem_cons_of_mem f hg)⟩, ⟨f :: held, ?_, ?_, fun c => ?_⟩, ?_, ?_⟩
    · have hset : settle [] log = some held := hset
      rw [settle_append, hset, Option.bind_some, settle, if_neg hheld, settle]
    · exact List.nodup_cons.mpr ⟨hheld, hnodup⟩
    · rw [List.mem_cons, hmem, hreached, List.mem_singleton]
      simp
    · intro c hc
      obtain rfl := List.mem_singleton.mp hc
      rw [hreached]
      exact ⟨hf, hnot⟩
    · intro g hg hgf
      obtain rfl := List.mem_singleton.mp hgf
      exact hffs hg

/-- **The frame in hand is given back.** -/
theorem freeFrame (h : Owns root [f] p) : Owns root [] (freeFrame p f) := by
  obtain ⟨held, hset, hnodup, hmem⟩ := h.settled
  have hf : f ∈ held := (hmem f).mpr (.inl (List.mem_singleton_self f))
  refine ⟨h.ready, ⟨held.erase f, ?_, hnodup.erase f, fun c => ?_⟩, fun _ hc => absurd hc List.not_mem_nil,
    fun _ _ => List.not_mem_nil⟩
  · show settle [] (p.alloc.log ++ [.gave f]) = _
    rw [settle_append, hset, Option.bind_some, settle, if_pos hf, settle]
  · rw [hnodup.mem_erase_iff, hmem, List.mem_singleton]
    constructor
    · rintro ⟨hne, rfl | hr⟩
      · exact absurd rfl hne
      · exact .inr hr
    · rintro (hc | hr)
      · cases hc
      · refine ⟨?_, .inr hr⟩
        rintro rfl
        exact (h.inHand c (List.mem_singleton_self c)).2 hr

/-- Tables linked into a space are what it owns more of. -/
theorem grown {fs : List ℕ} (h : Owns root hand p) (g : Grown (leafLevel + 1) root p p' fs) :
    Owns root hand p' := by
  obtain ⟨held, hset, hnodup, hmem⟩ := h.settled
  have hsub : ∀ f ∈ fs, f ∈ p.alloc.supply := fun f hf => by
    rw [g.supply]
    exact List.mem_append_left _ hf
  have hsupply := h.ready.nodup
  rw [g.supply] at hsupply
  obtain ⟨hfs, -, hdisjoint⟩ := List.nodup_append.mp hsupply
  have hfresh : ∀ f ∈ fs, f ∉ held := fun f hf hin =>
    ((hmem f).mp hin).elim (h.fresh f (hsub f hf)) (h.ready.fresh f (hsub f hf)).2
  obtain ⟨held', hset', hnodup', hmem'⟩ := settle_took hnodup hfs hfresh
  refine ⟨g.ready, ⟨held', ?_, hnodup', fun c => ?_⟩, fun c hc => ?_, fun f hf => ?_⟩
  · rw [g.log, settle_append, hset, Option.bind_some, hset']
  · rw [hmem', hmem, g.reached]
    tauto
  · obtain ⟨hframe, hnot⟩ := h.inHand c hc
    refine ⟨hframe, fun hr => ((g.reached c).mp hr).elim (fun hcf => ?_) hnot⟩
    exact h.fresh c (hsub c hcf) hc
  · refine h.fresh f ?_
    rw [g.supply]
    exact List.mem_append_right _ hf

/-- **A leaf is written** that owned no frame, and owns the one in hand, if any. -/
theorem writeLeaf (h : Owns root (owned desc).toList p) {leaf : ℕ}
    (hleaf : walk (below p.mem) 0 root (path va) = some leaf)
    (hspare : ownedAt p.mem root va = none) :
    Owns root [] { p with mem := writeEntry p.mem leaf (tableIndex va leafLevel) desc } := by
  have hlen := length_path va
  have hwr := h.ready.tables.written_leaf (i := tableIndex va leafLevel) hlen hleaf desc
  have hlen' : (path va ++ [tableIndex va leafLevel]).length ≤ leafLevel + 1 := by
    rw [List.length_append, List.length_singleton, hlen]
  have hreached : ∀ c, Reached (below (writeEntry p.mem leaf (tableIndex va leafLevel) desc)) root
      (leafLevel + 1) c ↔ c ∈ (owned desc).toList ∨ Reached (below p.mem) root (leafLevel + 1) c := by
    intro c
    cases ho : owned desc with
    | none =>
      rw [ho] at hwr
      rw [hwr.reached_same ((ownedAt_eq_walk _ _ _).trans hspare)]
      simp
    | some f =>
      rw [ho] at hwr
      rw [hwr.reached_add hlen' ((ownedAt_eq_walk _ _ _).trans hspare)]
      simp
  have htree := hwr.tree h.ready.tree fun c hc => (h.inHand c (by rw [hc]; simp)).2
  obtain ⟨held, hset, hnodup, hmem⟩ := h.settled
  refine ⟨⟨h.ready.tables.leaf hlen hleaf desc, htree, h.ready.nodup, fun f hf => ?_⟩,
    ⟨held, hset, hnodup, fun c => ?_⟩, fun _ hc => absurd hc List.not_mem_nil, fun _ _ => List.not_mem_nil⟩
  · obtain ⟨hframe, hnot⟩ := h.ready.fresh f hf
    refine ⟨hframe, fun hr => ((hreached f).mp hr).elim (h.fresh f hf) hnot⟩
  · rw [hmem, hreached]
    simp

/-- **A page is mapped** over a leaf that owned no frame. -/
theorem mapPage (h : Owns space.root (owned desc).toList p)
    (hspare : (space.mapPage va desc p).1 = true → ownedAt p.mem space.root va = none) :
    ((space.mapPage va desc p).1 = false → Owns space.root (owned desc).toList (space.mapPage va desc p).2) ∧
    ((space.mapPage va desc p).1 = true → Owns space.root [] (space.mapPage va desc p).2) ∧
    SameLeaves space.root p.mem (space.mapPage va desc p).2.mem va := by
  obtain ⟨fs, s', g, heq | ⟨leaf, hleaf, heq⟩⟩ :=
    mapPage_spec (Nat.le_succ _) (Nat.le_refl _) space va desc h.ready
  · rw [heq]
    exact ⟨fun _ => h.grown g, nofun, fun q j hq _ => g.leafAt q j hq⟩
  · have hlen := length_path va
    rw [heq] at hspare ⊢
    have hspare' : ownedAt s'.mem space.root va = none := by
      rw [ownedAt, g.leafAt _ _ hlen]
      exact hspare rfl
    refine ⟨nofun, fun _ => (h.grown g).writeLeaf hleaf hspare', fun q j hq hne => ?_⟩
    rw [← g.leafAt q j hq, g.ready.tables.leafAt_writeEntry hlen hleaf desc hq, if_neg hne]

/-- **A fresh page is mapped**, or the frame taken for it goes back. -/
theorem mapFresh (h : Owns space.root [] p)
    (hspare : (space.mapFresh va p).1.isSome → ownedAt p.mem space.root va = none) :
    Owns space.root [] (space.mapFresh va p).2 ∧
      SameLeaves space.root p.mem (space.mapFresh va p).2.mem va := by
  rcases h.allocTable with heq | ⟨f, p', heq, h', hleaf⟩
  · rw [AddressSpace.mapFresh, heq]
    exact ⟨h, fun _ _ _ _ => rfl⟩
  · rw [AddressSpace.mapFresh, heq] at hspare ⊢
    dsimp only at hspare ⊢
    have hf := (h'.inHand f (List.mem_singleton_self f)).1
    have h' : Owns space.root (owned (userDataPage f ||| swOwned)).toList p' := by
      rw [owned_userDataPage hf]
      exact h'
    have hspare' : (space.mapPage va (userDataPage f ||| swOwned) p').1 = true →
        ownedAt p'.mem space.root va = none := by
      intro hok
      rw [ownedAt, hleaf _ _ (length_path va)]
      refine hspare ?_
      generalize space.mapPage va (userDataPage f ||| swOwned) p' = r at hok
      obtain ⟨ok, p''⟩ := r
      obtain rfl : ok = true := hok
      rfl
    obtain ⟨hfail, hok, hsame⟩ := h'.mapPage hspare'
    rw [owned_userDataPage hf] at hfail
    generalize space.mapPage va (userDataPage f ||| swOwned) p' = r at hfail hok hsame
    obtain ⟨_ | _, p''⟩ := r
    · exact ⟨(hfail rfl).freeFrame, fun q j hq hne => (hsame q j hq hne).trans (hleaf q j hq)⟩
    · exact ⟨hok rfl, fun q j hq hne => (hsame q j hq hne).trans (hleaf q j hq)⟩

/-- **One page is unmapped**, and the frame it owned, if any, goes back. -/
theorem unmapPage {n i : ℕ} (h : Owns space.root [] p) :
    Owns space.root [] (space.unmapPage va i (n, p)).2 := by
  rw [AddressSpace.unmapPage]
  generalize (va + i * page4K) % 2 ^ 64 = page
  dsimp only
  rw [existingLeafTable_eq_walk]
  cases hw : walk (below p.mem) 0 space.root (path page) with
  | none => exact h
  | some leaf =>
    dsimp only
    split
    · exact h
    · next hvalid =>
      have hlen := length_path page
      have hwr := h.ready.tables.written_leaf (i := tableIndex page leafLevel) hlen hw 0
      have hlen' : (path page ++ [tableIndex page leafLevel]).length ≤ leafLevel + 1 := by
        rw [List.length_append, List.length_singleton, hlen]
      have howned : ownedAt p.mem space.root page =
          owned (readEntry p.mem leaf (tableIndex page leafLevel)) := by
        rw [ownedAt, leafAt_eq_shown hw, shown, if_pos hvalid, Option.bind_some]
      obtain ⟨held, hset, hnodup, hmem⟩ := h.settled
      have htree := hwr.tree h.ready.tree fun c hc => by cases hc
      have htables := h.ready.tables.leaf (i := tableIndex page leafLevel) hlen hw 0
      have hwalk := (ownedAt_eq_walk p.mem space.root page).trans howned
      split
      · next ho =>
        -- the frame the leaf owned is in hand until it is given back
        rw [owned, if_pos ⟨hvalid, ho⟩] at hwalk
        have hremove := fun c => hwr.reached_remove (c := c) h.ready.tree hlen' hwalk
        refine freeFrame ⟨⟨htables, htree, h.ready.nodup, fun f hf => ?_⟩,
          ⟨held, hset, hnodup, fun c => ?_⟩, fun c hc => ?_, fun f hf hfc => ?_⟩
        · obtain ⟨hframe, hnot⟩ := h.ready.fresh f hf
          exact ⟨hframe, fun hr => hnot ((hremove f).mp hr).2⟩
        · rw [hmem, hremove, List.mem_singleton]
          have hreached : Reached (below p.mem) space.root (leafLevel + 1)
              (readEntry p.mem leaf (tableIndex page leafLevel) &&& addrMask) := ⟨_, hlen', hwalk⟩
          by_cases hc : c = readEntry p.mem leaf (tableIndex page leafLevel) &&& addrMask
          · rw [hc]
            simp [hreached]
          · simp [hc]
        · obtain rfl := List.mem_singleton.mp hc
          exact ⟨isFrame_and _, fun hr => ((hremove _).mp hr).1 rfl⟩
        · obtain rfl := List.mem_singleton.mp hfc
          exact (h.ready.fresh _ hf).2 ⟨_, hlen', hwalk⟩
      · next ho =>
        rw [owned, if_neg fun hd => ho hd.2] at hwalk
        have hsame := fun c => hwr.reached_same (c := c) hwalk
        refine ⟨⟨htables, htree, h.ready.nodup, fun f hf => ?_⟩, ⟨held, hset, hnodup, fun c => ?_⟩,
          fun _ hc => absurd hc List.not_mem_nil, fun _ _ => List.not_mem_nil⟩
        · obtain ⟨hframe, hnot⟩ := h.ready.fresh f hf
          exact ⟨hframe, fun hr => hnot ((hsame f).mp hr)⟩
        · rw [hmem, hsame]

theorem unmap (h : Owns space.root [] p) (va pages : ℕ) :
    Owns space.root [] (space.unmap va pages p).2 := by
  rw [AddressSpace.unmap]
  induction pages with
  | zero => exact h
  | succ n ih =>
    rw [List.range_succ, List.foldl_append]
    exact unmapPage ih

end Owns

/-! ### Loops -/

/-- **The rule of a loop**: what every round keeps, whether it succeeds or not, the loop keeps. -/
theorem forPages_invariant {S : Type} {I : S → Prop} {step : ℕ → S → Bool × S} {s : S} {n : ℕ}
    (hs : I s) (hstep : ∀ i s', i < n → Comes step s i s' → I s' → I (step i s').2) :
    I (forPages step n 0 s).2 := by
  have hgo : ∀ k i s', i + k = n → Comes step s i s' → I s' → I (forPages step k i s').2 := by
    intro k
    induction k with
    | zero => exact fun _ _ _ _ hi => hi
    | succ k ih =>
      intro i s' hik hcomes hi
      have hround := hstep i s' (by omega) hcomes hi
      rw [forPages]
      generalize hr : step i s' = r at hround
      obtain ⟨_ | _, s''⟩ := r
      · exact hround
      · exact ih (i + 1) s'' (by omega) (hcomes.next hr) hround
  exact hgo n 0 s (Nat.zero_add n) .start hs

theorem forPages_one {S : Type} (step : ℕ → S → Bool × S) (s : S) :
    (forPages step 1 0 s).2 = (step 0 s).2 := by
  rw [forPages]
  cases hr : step 0 s with
  | mk ok s' => cases ok <;> rfl

namespace Owns

theorem mapRun (h : Owns space.root [] p) (va desc : ℕ → ℕ) (pages : ℕ)
    (hdesc : ∀ i < pages, owned (desc i) = none)
    (hspare : SparesOwned space (fun i => space.mapPage (va i) (desc i)) va pages p) :
    Owns space.root [] (space.mapRun va desc pages p).2 := by
  refine forPages_invariant h fun i p' hi hcomes h' => ?_
  have h' : Owns space.root (owned (desc i)).toList p' := by
    rw [hdesc i hi]
    exact h'
  obtain ⟨hfail, hok, -⟩ := h'.mapPage fun hok => ownedAt_of_lookup (hspare i p' hi hcomes hok)
  rw [hdesc i hi] at hfail
  show Owns space.root [] (space.mapPage (va i) (desc i) p').2
  cases hr : (space.mapPage (va i) (desc i) p').1 with
  | false => exact hfail hr
  | true => exact hok hr

theorem mapDevice (h : Owns space.root [] p) (base devPhys : ℕ) (hphys : devPhys &&& swOwned = 0)
    (hspare : SparesOwned space (fun _ => space.mapPage base
      (userDevicePage (devPhys - (devPhys &&& (page4K - 1))))) (fun _ => base) 1 p) :
    Owns space.root [] (space.mapDevice base devPhys p).2 := by
  have hdesc := owned_device hphys
  have h' : Owns space.root
      (owned (userDevicePage (devPhys - (devPhys &&& (page4K - 1))))).toList p := by
    rw [hdesc]
    exact h
  obtain ⟨hfail, hok, -⟩ := h'.mapPage fun hok =>
    ownedAt_of_lookup (hspare 0 p Nat.zero_lt_one .start hok)
  rw [hdesc] at hfail
  rw [AddressSpace.mapDevice]
  generalize space.mapPage base (userDevicePage (devPhys - (devPhys &&& (page4K - 1)))) p = r
    at hfail hok
  obtain ⟨_ | _, p'⟩ := r
  · exact hfail rfl
  · exact hok rfl

theorem mapAnonAt (h : Owns space.root [] p) (va pages : ℕ)
    (hspare : SparesOwned space (fun i p =>
      let (frame, p) := space.mapFresh ((va + i * page4K) % 2 ^ 64) p
      (frame.isSome, p)) (fun i => (va + i * page4K) % 2 ^ 64) pages p) :
    Owns space.root [] (space.mapAnonAt va pages p).2 := by
  refine forPages_invariant h fun i p' hi hcomes h' => ?_
  exact (h'.mapFresh fun hok => ownedAt_of_lookup (hspare i p' hi hcomes hok)).1

theorem growStack (h : Owns space.root [] p) (far : ℕ) :
    Owns space.root [] (space.growStack far p).2 := by
  rw [AddressSpace.growStack]
  dsimp only
  split
  · exact h
  · split
    · exact h
    · next habsent =>
      refine (h.mapFresh fun _ => ownedAt_of_lookup fun desc hdesc => ?_).1
      rw [Option.mem_def.mp hdesc] at habsent
      exact absurd rfl habsent

/-- A round of `mapSegmentWith` fails, or fills a frame and comes to map it. -/
theorem mapSegmentPage_cases (h : Owns space.root [] p) (vaddr filesz flags : ℕ)
    (fill : AddressSpace.Fill) (i : ℕ) :
    (∃ p', space.mapSegmentPage vaddr filesz flags fill i p = (false, p') ∧ Owns space.root [] p') ∨
    ∃ f p', Owns space.root [f] p' ∧
      (∀ va, ownedAt p'.mem space.root va = ownedAt p.mem space.root va) ∧
      ∀ ok p'', space.mapPage ((vaddr + i * page4K) % 2 ^ 64)
          (AddressSpace.segmentPage flags f ||| swOwned) p' = (ok, p'') →
        space.mapSegmentPage vaddr filesz flags fill i p =
          (ok, if ok then p'' else StarOS.freeFrame p'' f) := by
  rw [AddressSpace.mapSegmentPage]
  generalize (vaddr + i * page4K) % 2 ^ 64 = va
  dsimp only
  split
  · exact .inl ⟨p, rfl, h⟩
  · rcases h.allocTable with heq | ⟨f, p', heq, h', hleaf⟩
    · rw [heq]
      exact .inl ⟨p, rfl, h⟩
    · rw [heq]
      dsimp only
      have hf := (h'.inHand f (List.mem_singleton_self f)).1
      generalize hfill : (if i * page4K < filesz then (fill (i * page4K)).map
        (AddressSpace.overlay p'.mem f) else some p'.mem) = filled
      cases filled with
      | none => exact .inl ⟨_, rfl, h'.freeFrame⟩
      | some m =>
        -- what is filled in is in the frame, which is not one of the tables
        have hentries : ∀ q c j, q.length ≤ leafLevel →
            walk (below p'.mem) 0 space.root q = some c → readEntry m c j = readEntry p'.mem c j := by
          intro q c j hq hw
          split at hfill
          · obtain ⟨words, -, rfl⟩ := Option.map_eq_some_iff.mp hfill
            exact readEntry_overlay _ hf (isFrame_of_walk h'.ready.tables.isFrame hw)
              (h'.ne_of_hand (List.mem_singleton_self f) hq hw)
          · rw [Option.some.inj hfill]
        refine .inr ⟨f, { p' with mem := m }, h'.of_entries hentries, fun va' => ?_,
          fun ok p'' hmap => ?_⟩
        · rw [ownedAt, ownedAt, leafAt_of_entries hentries (length_path va'),
            hleaf _ _ (length_path va')]
        · dsimp only
          rw [hmap]
          cases ok <;> rfl

theorem mapSegmentPage (h : Owns space.root [] p) (vaddr filesz flags : ℕ)
    (fill : AddressSpace.Fill) (i : ℕ)
    (hspare : (space.mapSegmentPage vaddr filesz flags fill i p).1 = true →
      ownedAt p.mem space.root ((vaddr + i * page4K) % 2 ^ 64) = none) :
    Owns space.root [] (space.mapSegmentPage vaddr filesz flags fill i p).2 := by
  rcases h.mapSegmentPage_cases vaddr filesz flags fill i with ⟨p', heq, h'⟩ | ⟨f, p', h', hleaf, heq⟩
  · rw [heq]
    exact h'
  · have hf := (h'.inHand f (List.mem_singleton_self f)).1
    have hm : Owns space.root (owned (AddressSpace.segmentPage flags f ||| swOwned)).toList p' := by
      rw [owned_segmentPage hf]
      exact h'
    cases hr : space.mapPage ((vaddr + i * page4K) % 2 ^ 64)
      (AddressSpace.segmentPage flags f ||| swOwned) p' with
    | mk ok p'' =>
      rw [heq ok p'' hr] at hspare ⊢
      obtain ⟨hfail, hok, -⟩ := hm.mapPage fun hok => by
        rw [hr] at hok
        rw [hleaf]
        exact hspare hok
      rw [owned_segmentPage hf, hr] at hfail
      rw [hr] at hok
      cases ok with
      | false => exact (hfail rfl).freeFrame
      | true => exact hok rfl

theorem mapSegmentWith (h : Owns space.root [] p) (vaddr filesz memsz flags : ℕ)
    (fill : AddressSpace.Fill)
    (hspare : SparesOwned space (space.mapSegmentPage vaddr filesz flags fill)
      (fun i => (vaddr + i * page4K) % 2 ^ 64) ((memsz + page4K - 1) / page4K) p) :
    Owns space.root [] (space.mapSegmentWith vaddr filesz memsz flags fill p).2 := by
  rw [AddressSpace.mapSegmentWith]
  split
  · exact h
  · refine forPages_invariant h fun i p' hi hcomes h' => ?_
    exact h'.mapSegmentPage vaddr filesz flags fill i fun hok =>
      ownedAt_of_lookup (hspare i p' hi hcomes hok)

end Owns

/-! ### Teardown -/

/-- What a loop over the entries of a table gives back is what each round does. -/
theorem foldl_log {m : Mem} {step : Phys Pool → Fin entries → Phys Pool}
    {g : Fin entries → List ℕ}
    (hstep : ∀ supply log i, step ⟨m, ⟨supply, log⟩⟩ i = ⟨m, ⟨supply, log ++ (g i).map .gave⟩⟩)
    (is : List (Fin entries)) (supply : List ℕ) (log : List Transfer) :
    is.foldl step ⟨m, ⟨supply, log⟩⟩ = ⟨m, ⟨supply, log ++ (is.flatMap g).map .gave⟩⟩ := by
  induction is generalizing log with
  | nil => simp
  | cons i is ih => rw [List.foldl_cons, hstep, ih, List.flatMap_cons, List.map_append, List.append_assoc]

theorem freeFrame_pool (m : Mem) (supply : List ℕ) (log : List Transfer) (f : ℕ) :
    freeFrame (⟨m, ⟨supply, log⟩⟩ : Phys Pool) f = ⟨m, ⟨supply, log ++ [.gave f]⟩⟩ := rfl

/-- **Freeing a table gives back everything below it**, and then itself. -/
theorem freeTable_eq {m : Mem} {root : ℕ} (h : Tables m root) (b : ℕ) {q : List (Fin entries)} {t : ℕ}
    (hq : q.length + b = leafLevel) (hw : walk (below m) 0 root q = some t) (supply : List ℕ)
    (log : List Transfer) :
    AddressSpace.freeTable b t (⟨m, ⟨supply, log⟩⟩ : Phys Pool) = ⟨m, ⟨supply, log ++
      (collect (below m) (List.finRange entries) (b + 1) q.length t).map .gave⟩⟩ := by
  induction b generalizing q t supply log with
  | zero =>
    have hge : ¬ q.length < leafLevel := by omega
    have hround : (fun i => (below m q.length t i).elim [] fun c =>
        collect (below m) (List.finRange entries) 0 (q.length + 1) c) =
        fun i => (owned (readEntry m t i)).toList := by
      funext i
      rw [below, if_neg hge, ← owned]
      cases owned (readEntry m t i) <;> rfl
    rw [AddressSpace.freeTable, collect, hround]
    dsimp only
    rw [foldl_log (g := fun i => (owned (readEntry m t i)).toList), freeFrame_pool, List.map_append,
      List.map_singleton, List.append_assoc]
    intro supply log i
    rw [owned]
    by_cases hvalid : readEntry m t i &&& descValid = 0
    · rw [if_pos hvalid, if_neg fun hd => hd.1 hvalid, Option.toList_none, List.map_nil,
        List.append_nil]
    · by_cases ho : readEntry m t i &&& swOwned ≠ 0
      · rw [if_neg hvalid, if_pos ho, if_pos ⟨hvalid, ho⟩, freeFrame_pool, Option.toList_some,
          List.map_singleton]
      · rw [if_neg hvalid, if_neg ho, if_neg fun hd => ho hd.2, Option.toList_none, List.map_nil,
          List.append_nil]
  | succ b ih =>
    have hlt : q.length < leafLevel := by omega
    rw [AddressSpace.freeTable, collect]
    dsimp only
    rw [foldl_log (g := fun i => (below m q.length t i).elim [] fun c =>
      collect (below m) (List.finRange entries) (b + 1) (q.length + 1) c),
      freeFrame_pool, List.map_append, List.map_singleton, List.append_assoc]
    intro supply log i
    have hbelow : walk (below m) 0 root (q ++ [i]) = below m q.length t i := by
      rw [walk_concat_root, hw, Option.bind_some]
    have hlen : (q ++ [i]).length = q.length + 1 := by
      rw [List.length_append, List.length_singleton]
    rw [below, if_pos hlt] at hbelow ⊢
    by_cases hvalid : readEntry m t i &&& descValid = 0
    · rw [if_pos hvalid, if_neg fun hkind => valid_of_kind hkind hvalid]
      simp
    · have hkind := h.kind q t i hlt hw hvalid
      rw [if_pos hkind] at hbelow ⊢
      rw [if_neg hvalid, ih (by omega) hbelow, hlen, Option.elim_some]

/-- What freeing the root gives back. -/
theorem freeTable_root {m : Mem} {root : ℕ} (h : Tables m root) (supply : List ℕ)
    (log : List Transfer) :
    ∃ gs : List ℕ, AddressSpace.freeTable leafLevel root (⟨m, ⟨supply, log⟩⟩ : Phys Pool) =
        ⟨m, ⟨supply, log ++ gs.map .gave⟩⟩ ∧
      (∀ c, c ∈ gs ↔ Reached (below m) root (leafLevel + 1) c) ∧
      (Tree (below m) root (leafLevel + 1) → gs.Nodup) :=
  ⟨_, freeTable_eq h leafLevel (q := []) rfl rfl supply log,
    fun _ => mem_collect_root List.mem_finRange,
    fun ht => ht.nodup_collect List.mem_finRange (List.nodup_finRange entries)⟩

/-- **Teardown gives back what is held**, once, and nothing else. -/
theorem Owns.freeTable (h : Owns root [] p) :
    settle [] (AddressSpace.freeTable leafLevel root p).alloc.log = some [] := by
  obtain ⟨m, supply, log⟩ := p
  obtain ⟨held, hset, hnodup, hmem⟩ := h.settled
  obtain ⟨gs, heq, hgs, hgs'⟩ := freeTable_root h.ready.tables supply log
  obtain ⟨held', hset', -, hmem'⟩ := settle_gave hnodup (hgs' h.ready.tree)
    fun f hf => (hmem f).mpr (.inr ((hgs f).mp hf))
  have hset : settle [] log = some held := hset
  rw [heq]
  show settle [] (log ++ gs.map .gave) = some []
  rw [settle_append, hset, Option.bind_some, hset']
  refine congrArg some (List.eq_nil_iff_forall_not_mem.mpr fun c hc => ?_)
  obtain ⟨hheld, hnot⟩ := (hmem' c).mp hc
  exact hnot ((hgs c).mpr (((hmem c).mp hheld).resolve_left List.not_mem_nil))

theorem Owns.destroy (h : Owns space.root [] p) : settle [] (space.destroy p).alloc.log = some [] := by
  rw [AddressSpace.destroy]
  exact h.freeTable

/-! ### A new space -/

/-- A root alone. -/
theorem owns_root {m : Mem} {fs : List ℕ} {log : List Transfer} (hlog : settle [] log = some [])
    (hnodup : (f :: fs).Nodup) (hframe : ∀ g ∈ f :: fs, IsFrame g) :
    Owns f [] ⟨zeroFrame m f, ⟨fs, log ++ [.took f]⟩⟩ ∧
      ∀ va, ownedAt (zeroFrame m f) f va = none := by
  have hf := hframe f List.mem_cons_self
  have hzero : ∀ i, readEntry (zeroFrame m f) f i = 0 := fun i => by
    rw [readEntry_zeroFrame m hf hf, if_pos rfl]
  obtain ⟨hnot, hfs⟩ := List.nodup_cons.mp hnodup
  refine ⟨⟨⟨tables_of_zero hf hzero, fun q r c _ _ hq hr => ?_, hfs, fun g hg =>
    ⟨hframe g (List.mem_cons_of_mem f hg), fun hr => ?_⟩⟩, ⟨[f], ?_, List.nodup_singleton f, fun c => ?_⟩,
    fun _ hc => absurd hc List.not_mem_nil, fun _ _ => List.not_mem_nil⟩, fun va => ?_⟩
  · rw [walk_of_zero hzero hq, walk_of_zero hzero hr]
  · obtain rfl := reached_of_zero hzero hr
    exact hnot hg
  · rw [settle_append, hlog]
    rfl
  · rw [List.mem_singleton]
    constructor
    · rintro rfl
      exact .inr (reached_root _ _ _)
    · rintro (hc | hr)
      · cases hc
      · exact reached_of_zero hzero hr
  · cases ho : ownedAt (zeroFrame m f) f va with
    | none => rfl
    | some c =>
      have hnil := walk_of_zero hzero ((ownedAt_eq_walk _ _ _).trans ho)
      simp at hnil

/-- Populating a space whose leaves own nothing. -/
theorem Owns.populate (h : Owns space.root [] p) (hnone : ∀ va, ownedAt p.mem space.root va = none) :
    Owns space.root [] (space.populate p).2 ∧ ∀ space' ∈ (space.populate p).1,
      space'.root = space.root := by
  have hspare : (space.mapFresh userDataVa p).1.isSome →
      ownedAt p.mem space.root userDataVa = none := fun _ => hnone _
  obtain ⟨h₁, hsame⟩ := h.mapFresh hspare
  rw [AddressSpace.populate]
  generalize space.mapFresh userDataVa p = r at h₁ hsame
  obtain ⟨_ | data, p₁⟩ := r
  · exact ⟨h₁, fun _ hs => by cases hs⟩
  · dsimp only
    have h₂ : Owns space.root [] (forPages (fun i p =>
        let (frame, p) := space.mapFresh (userStackTop - (i + 1) * page4K) p
        (frame.isSome, p)) userStackPages 0 p₁).2 := by
      refine forPages_invariant h₁ fun i p' hi hcomes h' => (h'.mapFresh fun _ => ?_).1
      obtain rfl : i = 0 := Nat.lt_one_iff.mp hi
      cases hcomes
      -- the stack is not where the data page is
      rw [ownedAt, hsame _ _ (length_path _) (by decide)]
      exact hnone _
    generalize forPages (fun i p =>
      let (frame, p) := space.mapFresh (userStackTop - (i + 1) * page4K) p
      (frame.isSome, p)) userStackPages 0 p₁ = r at h₂
    obtain ⟨_ | _, p₂⟩ := r
    · exact ⟨h₂, fun _ hs => by cases hs⟩
    · exact ⟨h₂, fun space' hs => by obtain rfl := Option.mem_some.mp hs; rfl⟩

/-- **A new space owns what it took**; one that could not be made owns nothing. -/
theorem new_spec {m : Mem} {supply : List ℕ} {log : List Transfer} (hlog : settle [] log = some [])
    (hnodup : supply.Nodup) (hframe : ∀ f ∈ supply, IsFrame f) :
    match AddressSpace.new (⟨m, ⟨supply, log⟩⟩ : Phys Pool) with
    | (some space, p) => Owns space.root [] p
    | (none, p) => settle [] p.alloc.log = some [] := by
  rw [AddressSpace.new]
  cases supply with
  | nil =>
    have htake : allocTable (⟨m, ⟨[], log⟩⟩ : Phys Pool) = (none, ⟨m, ⟨[], log⟩⟩) := rfl
    rw [htake]
    dsimp only
    exact hlog
  | cons f fs =>
    obtain ⟨h, hnone⟩ := owns_root (m := m) hlog hnodup hframe
    have h₀ : Owns (⟨f, 0, 0, userHeapBase⟩ : AddressSpace).root [] _ := h
    obtain ⟨h', hroot⟩ := h₀.populate hnone
    have htake : allocTable (⟨m, ⟨f :: fs, log⟩⟩ : Phys Pool) =
        (some f, ⟨zeroFrame m f, ⟨fs, log ++ [.took f]⟩⟩) := rfl
    rw [htake]
    dsimp only
    generalize AddressSpace.populate ⟨f, 0, 0, userHeapBase⟩
        (⟨zeroFrame m f, ⟨fs, log ++ [.took f]⟩⟩ : Phys Pool) = r at h' hroot
    obtain ⟨_ | space, p⟩ := r
    · have hfreed := h'.freeTable
      dsimp only
      generalize AddressSpace.freeTable leafLevel f p = p' at hfreed ⊢
      exact hfreed
    · have hroot : space.root = f := hroot space rfl
      show Owns space.root [] p
      rw [hroot]
      exact h'

/-! ### Any sequence of calls -/

theorem Owns.drop (h : Owns root [] p) : Owns root [] ⟨p.mem, ⟨[], p.alloc.log⟩⟩ :=
  ⟨⟨h.ready.tables, h.ready.tree, List.nodup_nil, fun _ hf => absurd hf List.not_mem_nil⟩, h.settled,
    h.inHand, fun _ hf => absurd hf List.not_mem_nil⟩

/-- A pool that hands out nothing the space holds. -/
theorem Owns.supplied {m : Mem} {log : List Transfer} {supply : List ℕ}
    (h : Owns root [] ⟨m, ⟨[], log⟩⟩) (hnodup : supply.Nodup)
    (hfresh : ∀ f ∈ supply, IsFrame f ∧ ∀ held ∈ settle [] log, f ∉ held) :
    Owns root [] ⟨m, ⟨supply, log⟩⟩ := by
  obtain ⟨held, hset, -, hmem⟩ := h.settled
  refine ⟨⟨h.ready.tables, h.ready.tree, hnodup, fun f hf => ?_⟩, h.settled, h.inHand,
    fun _ _ => List.not_mem_nil⟩
  obtain ⟨hframe, hnot⟩ := hfresh f hf
  exact ⟨hframe, fun hr => hnot held hset ((hmem f).mpr (.inr hr))⟩

/-- What holds between calls. -/
def Kept (s : SpaceState) : Prop :=
  match s.space with
  | none => settle [] s.log = some []
  | some space => Owns space.root [] ⟨s.mem, ⟨[], s.log⟩⟩

/-- **One call.** -/
theorem Kept.next {s s' : SpaceState} {e : SpaceEvent} (hk : Kept s) (hpool : s.PoolSound e)
    (hspare : Spares s e) (hn : s.next e = some s') : Kept s' := by
  obtain ⟨m, log, space⟩ := s
  obtain ⟨hnodup, hfresh⟩ := hpool
  cases space with
  | none =>
    cases e with
    | new supply =>
      have hframe : ∀ f ∈ supply, IsFrame f := fun f hf => (hfresh f hf).1
      have hnew : match AddressSpace.new (⟨m, ⟨supply, log⟩⟩ : Phys Pool) with
          | (some space, p) => Owns space.root [] p
          | (none, p) => settle [] p.alloc.log = some [] := new_spec hk hnodup hframe
      dsimp only [SpaceState.next, SpaceEvent.supply] at hn
      generalize AddressSpace.new (⟨m, ⟨supply, log⟩⟩ : Phys Pool) = r at hnew hn
      obtain ⟨_ | space, p⟩ := r
      · obtain rfl := Option.some.inj hn
        exact hnew
      · obtain rfl := Option.some.inj hn
        exact hnew.drop
    | _ => cases hn
  | some space =>
    have h : Owns space.root [] ⟨m, ⟨e.supply, log⟩⟩ := Owns.supplied hk hnodup hfresh
    have hspare := hspare space rfl
    cases e with
    | new supply => cases hn
    | mapSegmentWith vaddr filesz memsz flags fill supply =>
      obtain rfl := Option.some.inj hn
      exact (h.mapSegmentWith vaddr filesz memsz flags fill hspare).drop
    | mapAnonAt va pages supply =>
      obtain rfl := Option.some.inj hn
      exact (h.mapAnonAt va pages hspare).drop
    | growStack far supply =>
      obtain rfl := Option.some.inj hn
      exact (h.growStack far).drop
    | mapShared base frames supply =>
      obtain rfl := Option.some.inj hn
      refine (h.mapRun _ _ frames.length (fun i hi => owned_shared ?_) hspare.2).drop
      rw [List.getD_eq_getElem _ _ hi]
      exact hspare.1 _ (List.getElem_mem hi)
    | mapDma phys pages supply =>
      obtain rfl := Option.some.inj hn
      exact (h.mapRun _ _ pages (fun i hi => owned_dma (hspare.1 i hi)) hspare.2).drop
    | mapDevice base devPhys supply =>
      obtain rfl := Option.some.inj hn
      refine (h.mapDevice base devPhys hspare.1 hspare.2).drop
    | unmap va pages =>
      obtain rfl := Option.some.inj hn
      exact (h.unmap va pages).drop
    | destroy =>
      have hdestroyed := h.destroy
      dsimp only [SpaceState.next, SpaceEvent.supply] at hn hdestroyed
      generalize space.destroy (⟨m, ⟨[], log⟩⟩ : Phys Pool) = p at hn hdestroyed
      obtain rfl := Option.some.inj hn
      exact hdestroyed

theorem kept_of_spaceCalls {s : SpaceState}
    (h : spaceCalls.Reach (fun s e => s.PoolSound e ∧ Spares s e) s) : Kept s := by
  refine EventSystem.Reach.invariant (fun s hs => ?_) (fun s e s' hi hok hn => ?_) h
  · rw [Kept, hs.2, hs.1]
    rfl
  · exact hi.next hok.1 hok.2 hn

/-- **Every frame a space took goes back to the pool once, and no other does**, in every run in which
no call maps a page over a leaf that owns its frame, or an address with bit 55 set: after `destroy`
nothing is held, and what is held before is what `destroy` would give back. -/
theorem conserved_of_spares {s : SpaceState}
    (h : spaceCalls.Reach (fun s e => s.PoolSound e ∧ Spares s e) s) :
    (s.space = none → settle [] s.log = some []) ∧
      ∀ space ∈ s.space, settle [] (space.destroy (⟨s.mem, ⟨[], s.log⟩⟩ : Phys Pool)).alloc.log =
        some [] := by
  have hk := kept_of_spaceCalls h
  constructor
  · intro hnone
    rwa [Kept, hnone] at hk
  · intro space hspace
    rw [Kept, Option.mem_def.mp hspace] at hk
    exact hk.destroy

/-! ### A leaf that is overwritten -/

/-- A frame that was taken, has not been given back and is not written in any leaf. -/
structure Leaked (root f : ℕ) (p : Phys Pool) : Prop where
  tables : Tables p.mem root
  held : ∃ held, settle [] p.alloc.log = some held ∧ f ∈ held
  lost : ¬ Reached (below p.mem) root (leafLevel + 1) f

theorem mem_of_settle_gave {held held' fs : List ℕ} (h : settle held (fs.map .gave) = some held')
    (hf : f ∈ held) (hnot : f ∉ fs) : f ∈ held' := by
  induction fs generalizing held with
  | nil => exact Option.some.inj h ▸ hf
  | cons g fs ih =>
    rw [List.map_cons, settle] at h
    obtain ⟨hne, hnot⟩ := not_or.mp (List.mem_cons.not.mp hnot)
    obtain ⟨-, h⟩ := Option.ite_none_right_eq_some.mp h
    exact ih h ((List.mem_erase_of_ne hne).mpr hf) hnot

/-- Teardown does not find it. -/
theorem Leaked.destroy (h : Leaked space.root f p) :
    settle [] (space.destroy p).alloc.log ≠ some [] := by
  obtain ⟨m, supply, log⟩ := p
  obtain ⟨held, hset, hf⟩ := h.held
  obtain ⟨gs, heq, hgs, -⟩ := freeTable_root h.tables supply log
  have hset : settle [] log = some held := hset
  rw [AddressSpace.destroy, heq]
  show settle [] (log ++ gs.map .gave) ≠ some []
  rw [settle_append, hset, Option.bind_some]
  exact fun hnil => List.not_mem_nil (mem_of_settle_gave hnil hf fun hin => h.lost ((hgs f).mp hin))

/-- **A segment mapped over a page the space owns loses the frame of that page for good.** -/
theorem Owns.mapSegmentPage_leaks (h : Owns space.root [] p) (vaddr filesz flags : ℕ)
    (fill : AddressSpace.Fill) (i : ℕ)
    (hf : ownedAt p.mem space.root ((vaddr + i * page4K) % 2 ^ 64) = some f)
    (hok : (space.mapSegmentPage vaddr filesz flags fill i p).1 = true) :
    Leaked space.root f (space.mapSegmentPage vaddr filesz flags fill i p).2 := by
  rcases h.mapSegmentPage_cases vaddr filesz flags fill i with ⟨p', heq, -⟩ | ⟨g, p', h', hleaf, heq⟩
  · rw [heq] at hok
    cases hok
  · rw [← hleaf] at hf
    generalize (vaddr + i * page4K) % 2 ^ 64 = va at hf heq
    have hg := (h'.inHand g (List.mem_singleton_self g)).1
    obtain ⟨fs, s', g', heq' | ⟨leaf, hw, heq'⟩⟩ := mapPage_spec (Nat.le_succ _) (Nat.le_refl _) space va
      (AddressSpace.segmentPage flags g ||| swOwned) h'.ready
    · rw [heq _ _ heq'] at hok
      cases hok
    · rw [heq _ _ heq']
      have h'' := h'.grown g'
      have hlen := length_path va
      have hlen' : (path va ++ [tableIndex va leafLevel]).length ≤ leafLevel + 1 := by
        rw [List.length_append, List.length_singleton, hlen]
      have hwf : walk (below s'.mem) 0 space.root (path va ++ [tableIndex va leafLevel]) = some f := by
        rw [ownedAt_eq_walk, ownedAt, g'.leafAt _ _ hlen]
        exact hf
      obtain ⟨held, hset, -, hmem⟩ := h''.settled
      have hwr := h''.ready.tables.written_leaf (i := tableIndex va leafLevel) hlen hw
        (AddressSpace.segmentPage flags g ||| swOwned)
      refine ⟨h''.ready.tables.leaf hlen hw _, ⟨held, hset, (hmem f).mpr (.inr ⟨_, hlen', hwf⟩)⟩, ?_⟩
      rintro ⟨q, hq, hwq⟩
      rcases hwr.walk_eq hq hwq with ⟨-, ho⟩ | ⟨hne, hwq⟩
      · rw [owned_segmentPage hg] at ho
        obtain rfl := Option.some.inj ho
        exact (h''.inHand g (List.mem_singleton_self g)).2 ⟨_, hlen', hwf⟩
      · exact hne (h''.ready.tree _ _ f hq hlen' hwq hwf)

/-- The frames from this one on. -/
def framesFrom (f n : ℕ) : List ℕ := (List.range n).map fun i => f + i * page4K

/-- A segment of one page at the start of the image, all of it to be zero. -/
def segmentEvent (f n : ℕ) : SpaceEvent :=
  .mapSegmentWith userBase 0 page4K pfW (fun _ => none) (framesFrom f n)

/-- Mapping a segment where nothing is mapped spares what the space owns. -/
theorem segment_spares {s : SpaceState} {f n : ℕ} (hspace : s.space = some space)
    (hlookup : space.lookup s.mem userBase = none) : Spares s (segmentEvent f n) := by
  intro space' hspace' i p' hi hcomes _ desc hdesc
  obtain rfl : space' = space := Option.some.inj (hspace'.symm.trans hspace)
  obtain rfl : i = 0 := Nat.lt_one_iff.mp hi
  cases hcomes
  have hdesc : space'.lookup s.mem userBase = some desc := hdesc
  rw [hlookup] at hdesc
  cases hdesc

/-- A space is made and a segment mapped in it; the page it is mapped at owns its frame afterwards, and
a second segment can be mapped there. -/
theorem segment_run : ∃ s space, spaceCalls.Reach (fun s e => s.PoolSound e ∧ Spares s e) s ∧
    s.space = some space ∧ ownedAt s.mem space.root userBase = some 0x10000 ∧
    s.PoolSound (segmentEvent 0x20000 1) ∧
    (space.mapSegmentPage userBase 0 pfW (fun _ => none) 0
      (⟨s.mem, ⟨framesFrom 0x20000 1, s.log⟩⟩ : Phys Pool)).1 = true := by
  have hrun : ((spaceCalls.next ⟨fun _ => 0, [], none⟩ (.new (framesFrom 0x1000 8))).bind fun s =>
      (spaceCalls.next s (segmentEvent 0x10000 3)).bind fun s' => s.space.map fun space =>
        decide (s.PoolSound (segmentEvent 0x10000 3)) &&
        decide (space.lookup s.mem userBase = none) &&
        decide (s'.PoolSound (segmentEvent 0x20000 1)) &&
        decide (s'.space = some space) &&
        decide (ownedAt s'.mem space.root userBase = some 0x10000) &&
        (space.mapSegmentPage userBase 0 pfW (fun _ => none) 0
          (⟨s'.mem, ⟨framesFrom 0x20000 1, s'.log⟩⟩ : Phys Pool)).1) = some true := by
    decide +kernel
  obtain ⟨s, hs, hrun⟩ := Option.bind_eq_some_iff.mp hrun
  obtain ⟨s', hs', hrun⟩ := Option.bind_eq_some_iff.mp hrun
  obtain ⟨space, hspace, hrun⟩ := Option.map_eq_some_iff.mp hrun
  simp only [Bool.and_eq_true, decide_eq_true_eq] at hrun
  obtain ⟨⟨⟨⟨⟨hpool, hlookup⟩, hpool'⟩, hspace'⟩, howned⟩, hok⟩ := hrun
  exact ⟨s', space, .step (.step (.init ⟨rfl, rfl⟩) ⟨by decide, fun _ h => by cases h⟩ hs)
    ⟨hpool, segment_spares hspace hlookup⟩ hs', hspace', howned, hpool', hok⟩

/-- A segment in a new space: tearing it down gives everything back. -/
theorem conserved_of_spares_segment : ∃ s space,
    spaceCalls.Reach (fun s e => s.PoolSound e ∧ Spares s e) s ∧ s.space = some space ∧
    ownedAt s.mem space.root userBase = some 0x10000 ∧
    settle [] (space.destroy (⟨s.mem, ⟨[], s.log⟩⟩ : Phys Pool)).alloc.log = some [] := by
  obtain ⟨s, space, hreach, hspace, howned, -⟩ := segment_run
  exact ⟨s, space, hreach, hspace, howned, (conserved_of_spares hreach).2 space hspace⟩

/-- **Two segments at one address, and a frame that never comes back.** -/
theorem segments_leak : ¬ ∀ s, spaceCalls.Reach (fun s e => s.PoolSound e) s → s.space = none →
    settle [] s.log = some [] := by
  intro hall
  obtain ⟨⟨m, log, _⟩, space, hreach, rfl, howned, hpool, hok⟩ := segment_run
  have howns : Owns space.root [] ⟨m, ⟨framesFrom 0x20000 1, log⟩⟩ :=
    Owns.supplied (kept_of_spaceCalls hreach) hpool.1 hpool.2
  have hleak := howns.mapSegmentPage_leaks userBase 0 pfW (fun _ => none) 0 howned hok
  have hnext : spaceCalls.next ⟨m, log, some space⟩ (segmentEvent 0x20000 1) =
      some ⟨(space.mapSegmentPage userBase 0 pfW (fun _ => none) 0
          (⟨m, ⟨framesFrom 0x20000 1, log⟩⟩ : Phys Pool)).2.mem,
        (space.mapSegmentPage userBase 0 pfW (fun _ => none) 0
          (⟨m, ⟨framesFrom 0x20000 1, log⟩⟩ : Phys Pool)).2.alloc.log, some space⟩ := by
    show some _ = some _
    have hone : (space.mapSegmentWith userBase 0 page4K pfW (fun _ => none)
        (⟨m, ⟨framesFrom 0x20000 1, log⟩⟩ : Phys Pool)).2 =
        (space.mapSegmentPage userBase 0 pfW (fun _ => none) 0
          (⟨m, ⟨framesFrom 0x20000 1, log⟩⟩ : Phys Pool)).2 := by
      rw [AddressSpace.mapSegmentWith, if_neg (by decide)]
      exact forPages_one _ _
    rw [← hone]
    rfl
  generalize (space.mapSegmentPage userBase 0 pfW (fun _ => none) 0
    (⟨m, ⟨framesFrom 0x20000 1, log⟩⟩ : Phys Pool)).2 = p at hleak hnext
  have hdestroy : spaceCalls.next ⟨p.mem, p.alloc.log, some space⟩ .destroy =
      some ⟨(space.destroy (⟨p.mem, ⟨[], p.alloc.log⟩⟩ : Phys Pool)).mem,
        (space.destroy (⟨p.mem, ⟨[], p.alloc.log⟩⟩ : Phys Pool)).alloc.log, none⟩ := by
    dsimp only [spaceCalls, SpaceState.next, SpaceEvent.supply]
  have hlost : Leaked space.root 0x10000 ⟨p.mem, ⟨[], p.alloc.log⟩⟩ :=
    ⟨hleak.tables, hleak.held, hleak.lost⟩
  have hne := hlost.destroy
  generalize space.destroy (⟨p.mem, ⟨[], p.alloc.log⟩⟩ : Phys Pool) = p' at hne hdestroy
  refine hne (hall _ (.step (.step (hreach.mono fun _ _ h => h.1) hpool hnext) ?_ hdestroy) rfl)
  exact ⟨List.nodup_nil, fun _ hf => absurd hf List.not_mem_nil⟩

end StarOS
