import StarOS.Arch.Tables
import StarOS.Lib.EventSystem

/-!
# The tables are a partial map

What `lookup` answers of a space is a partial map from pages to descriptors, the last one mapped and
not since unmapped. The tables it is kept in never show: a call that makes some and then runs out
of frames changes no answer.

The bits of an address above 47 pick no entry of any table, so this is about addresses below
`2 ^ 48`.

## Main definitions

* `paging` — any sequence of `mapPage` and `unmap`
* `Refines` — what each call does to the partial map

## Main results

* `paging_refines` — it holds in every state
-/

namespace StarOS

open Mmu Radix

/-- Two addresses on the same page go through the same entries. -/
theorem page_eq_iff {va va' : ℕ} (hva : va < 2 ^ 48) (hva' : va' < 2 ^ 48) :
    path va = path va' ∧ tableIndex va leafLevel = tableIndex va' leafLevel ↔
      va / page4K = va' / page4K := by
  have hindex : ∀ va level, (tableIndex va level : ℕ) = va / 2 ^ (39 - 9 * level) % 512 := by
    intro va level
    show (va >>> (39 - 9 * level)) &&& (2 ^ 9 - 1) = _
    rw [Nat.and_two_pow_sub_one_eq_mod, Nat.shiftRight_eq_div_pow]
  have hpath : path va = path va' ↔ tableIndex va 0 = tableIndex va' 0 ∧
      tableIndex va 1 = tableIndex va' 1 ∧ tableIndex va 2 = tableIndex va' 2 := by
    simp [path, leafLevel, List.range_succ]
  rw [hpath]
  simp only [Fin.ext_iff, hindex, page4K, leafLevel]
  omega

/-- Memory, and the partial map the tables in it are to stand for. -/
structure MapState where
  mem : Mem
  /-- The last descriptor mapped and not since unmapped, for each page. -/
  last : ℕ → Option ℕ

inductive MapEvent
  /-- With the frames the pool hands out during the call. -/
  | mapPage (va desc : ℕ) (supply : List ℕ)
  | unmap (va pages : ℕ)
  deriving DecidableEq, Repr

/-- Memory and a pool that will hand out these frames. -/
def MapState.phys (s : MapState) (supply : List ℕ) : Phys Pool := ⟨s.mem, ⟨supply, []⟩⟩

/-- The frames a pool hands out are pages, and none is a table of the space. -/
def Supplies (space : AddressSpace) (m : Mem) (supply : List ℕ) : Prop :=
  supply.Nodup ∧ ∀ f ∈ supply, IsFrame f ∧ ¬ Reached (below m) space.root leafLevel f

/-- Calls on a space, at the addresses of pages below `2 ^ 48`. -/
def paging (space : AddressSpace) : EventSystem MapState MapEvent where
  init s := IsFrame space.root ∧ (∀ i, readEntry s.mem space.root i = 0) ∧ s.last = fun _ => none
  next s
    | .mapPage va desc supply =>
      if page4K ∣ va ∧ va < 2 ^ 48 then
        some <| match space.mapPage va desc (s.phys supply) with
          | (true, p) => ⟨p.mem, Function.update s.last (va / page4K) (shown desc)⟩
          | (false, p) => ⟨p.mem, s.last⟩
      else none
    | .unmap va pages =>
      if page4K ∣ va ∧ va + pages * page4K ≤ 2 ^ 48 then
        some ⟨(space.unmap va pages (s.phys [])).2.mem, fun page =>
          if va / page4K ≤ page ∧ page < va / page4K + pages then none else s.last page⟩
      else none

/-- The pool hands out no table of the space. -/
def PoolSound (space : AddressSpace) (s : MapState) : MapEvent → Prop
  | .mapPage _ _ supply => Supplies space s.mem supply
  | .unmap _ _ => True

/-- What the calls do to what `lookup` answers. -/
structure Refines (space : AddressSpace) (s : MapState) : Prop where
  /-- The last descriptor mapped and not since unmapped. -/
  lookup_eq : ∀ va < 2 ^ 48, space.lookup s.mem va = s.last (va / page4K)
  /-- Mapping a page changes that page. -/
  mapPage_true : ∀ va < 2 ^ 48, ∀ desc supply p, Supplies space s.mem supply →
    space.mapPage va desc (s.phys supply) = (true, p) → ∀ va' < 2 ^ 48,
      space.lookup p.mem va' =
        if va' / page4K = va / page4K then shown desc else space.lookup s.mem va'
  /-- Failing to changes none. -/
  mapPage_false : ∀ va desc supply p, Supplies space s.mem supply →
    space.mapPage va desc (s.phys supply) = (false, p) → ∀ va',
      space.lookup p.mem va' = space.lookup s.mem va'
  /-- Unmapping takes out the pages of the range, and counts those that were mapped. -/
  unmap_eq : ∀ va pages, page4K ∣ va → va + pages * page4K ≤ 2 ^ 48 →
    (space.unmap va pages (s.phys [])).1 =
        (List.range pages).countP (fun i => (space.lookup s.mem (va + i * page4K)).isSome) ∧
      ∀ va' < 2 ^ 48, space.lookup (space.unmap va pages (s.phys [])).2.mem va' =
        if va / page4K ≤ va' / page4K ∧ va' / page4K < va / page4K + pages then none
        else space.lookup s.mem va'

variable {space : AddressSpace} {s s' : MapState}

/-! ### Mapping a page -/

theorem Supplies.ready {m : Mem} {supply : List ℕ} (ht : Tables m space.root)
    (h : Supplies space m supply) : Ready leafLevel space.root m supply :=
  ⟨ht, ht.tree, h.1, h.2⟩

/-- What `mapPage` leaves, whether or not it succeeds. -/
theorem mapPage_effect {m : Mem} {supply : List ℕ} {log : List Transfer} (ht : Tables m space.root)
    (hs : Supplies space m supply) (va desc : ℕ) {ok : Bool} {p : Phys Pool}
    (hp : space.mapPage va desc ⟨m, ⟨supply, log⟩⟩ = (ok, p)) :
    Tables p.mem space.root ∧ ∀ va', space.lookup p.mem va' =
      if ok ∧ path va' = path va ∧ tableIndex va' leafLevel = tableIndex va leafLevel then shown desc
      else space.lookup m va' := by
  obtain ⟨fs, s', g, heq | ⟨leaf, hleaf, heq⟩⟩ := mapPage_spec (Nat.le_refl _) (Nat.le_succ _) space
    va desc (s := ⟨m, ⟨supply, log⟩⟩) (hs.ready ht)
  · obtain ⟨rfl, rfl⟩ := Prod.ext_iff.mp (heq.symm.trans hp)
    refine ⟨g.ready.tables, fun va' => ?_⟩
    rw [if_neg (by simp), lookup_eq_leafAt, lookup_eq_leafAt, g.leafAt _ _ (length_path va')]
  · obtain ⟨rfl, rfl⟩ := Prod.ext_iff.mp (heq.symm.trans hp)
    have hlen := length_path va
    refine ⟨g.ready.tables.leaf hlen hleaf desc, fun va' => ?_⟩
    rw [lookup_eq_leafAt, lookup_eq_leafAt,
      g.ready.tables.leafAt_writeEntry hlen hleaf desc (length_path va'),
      g.leafAt _ _ (length_path va')]
    simp only [true_and]

/-! ### Unmapping -/

/-- **One page unmapped.** -/
theorem unmapPage_effect {s : ℕ × Phys Pool} (ht : Tables s.2.mem space.root) (va i : ℕ)
    (hi : va + i * page4K < 2 ^ 48) :
    Tables (space.unmapPage va i s).2.mem space.root ∧
      (space.unmapPage va i s).1 =
        s.1 + (if (space.lookup s.2.mem (va + i * page4K)).isSome then 1 else 0) ∧
      ∀ va' < 2 ^ 48, space.lookup (space.unmapPage va i s).2.mem va' =
        if va' / page4K = (va + i * page4K) / page4K then none else space.lookup s.2.mem va' := by
  have hmod : (va + i * page4K) % 2 ^ 64 = va + i * page4K := Nat.mod_eq_of_lt (by omega)
  have hlen := length_path (va + i * page4K)
  -- a page nothing maps stays as it is
  have hnone : space.lookup s.2.mem (va + i * page4K) = none → ∀ va' < 2 ^ 48,
      space.lookup s.2.mem va' =
        if va' / page4K = (va + i * page4K) / page4K then none else space.lookup s.2.mem va' := by
    intro hn va' hva'
    split
    · next heq =>
      obtain ⟨hpath, hindex⟩ := (page_eq_iff hva' hi).mpr heq
      rw [← hn, lookup_eq_leafAt, lookup_eq_leafAt, hpath, hindex]
    · rfl
  rw [AddressSpace.unmapPage, hmod]
  dsimp only
  rw [existingLeafTable_eq_walk]
  cases hw : walk (below s.2.mem) 0 space.root (path (va + i * page4K)) with
  | none =>
    have hn : space.lookup s.2.mem (va + i * page4K) = none := by
      rw [lookup_eq_leafAt, leafAt, hw, Option.bind_none]
    rw [hn]
    exact ⟨ht, rfl, hnone hn⟩
  | some leaf =>
    dsimp only
    have hlookup : space.lookup s.2.mem (va + i * page4K) =
        shown (readEntry s.2.mem leaf (tableIndex (va + i * page4K) leafLevel)) := by
      rw [lookup_eq_leafAt, leafAt_eq_shown hw]
    by_cases hvalid : readEntry s.2.mem leaf (tableIndex (va + i * page4K) leafLevel) &&& descValid = 0
    · have hn : space.lookup s.2.mem (va + i * page4K) = none := by
        rw [hlookup, shown, if_neg (not_not_intro hvalid)]
      rw [if_pos hvalid, hn]
      exact ⟨ht, rfl, hnone hn⟩
    · have hmem : ∀ p : Phys Pool, ∀ c : Prop, [Decidable c] → ∀ f,
          (if c then freeFrame p f else p).mem = p.mem := by
        intro p c _ f
        split <;> rfl
      rw [if_neg hvalid, hlookup, shown, if_pos hvalid]
      dsimp only
      rw [hmem]
      refine ⟨ht.leaf hlen hw 0, rfl, fun va' hva' => ?_⟩
      rw [lookup_eq_leafAt, ht.leafAt_writeEntry hlen hw 0 (length_path va'), lookup_eq_leafAt]
      simp only [page_eq_iff hva' hi]
      rfl

/-- **A range unmapped**, round after round. -/
theorem unmap_effect {m : Mem} (ht : Tables m space.root) (va pages : ℕ)
    (hp : va + pages * page4K ≤ 2 ^ 48) :
    Tables (space.unmap va pages (⟨m, ⟨[], []⟩⟩ : Phys Pool)).2.mem space.root ∧
      (space.unmap va pages (⟨m, ⟨[], []⟩⟩ : Phys Pool)).1 =
        (List.range pages).countP (fun i => (space.lookup m (va + i * page4K)).isSome) ∧
      ∀ va' < 2 ^ 48, space.lookup (space.unmap va pages (⟨m, ⟨[], []⟩⟩ : Phys Pool)).2.mem va' =
        if va / page4K ≤ va' / page4K ∧ va' / page4K < va / page4K + pages then none
        else space.lookup m va' := by
  have hpage : ∀ i, (va + i * page4K) / page4K = va / page4K + i := fun i =>
    Nat.add_mul_div_right va i (by decide)
  induction pages with
  | zero =>
    refine ⟨ht, rfl, fun va' _ => ?_⟩
    rw [if_neg (by omega)]
    rfl
  | succ n ih =>
    rw [Nat.succ_mul] at hp
    have hpos : 0 < page4K := by decide
    have hstep : space.unmap va (n + 1) (⟨m, ⟨[], []⟩⟩ : Phys Pool) =
        space.unmapPage va n (space.unmap va n ⟨m, ⟨[], []⟩⟩) := by
      rw [AddressSpace.unmap, AddressSpace.unmap, List.range_succ, List.foldl_append]
      rfl
    obtain ⟨ht', hcount, hlookup⟩ := ih (by omega)
    obtain ⟨ht'', hcount', hlookup'⟩ := unmapPage_effect ht' va n (by omega)
    have hn : space.lookup (space.unmap va n (⟨m, ⟨[], []⟩⟩ : Phys Pool)).2.mem (va + n * page4K) =
        space.lookup m (va + n * page4K) := by
      rw [hlookup _ (by omega), hpage, if_neg (by omega)]
    rw [hstep]
    refine ⟨ht'', ?_, fun va' hva' => ?_⟩
    · rw [hcount', hcount, hn, List.range_succ, List.countP_append, List.countP_singleton]
    · rw [hlookup' va' hva', hlookup va' hva', hpage]
      split
      · next heq => rw [if_pos (by omega)]
      · next hne =>
        refine if_congr ?_ rfl rfl
        omega

/-! ### Any sequence of calls -/

/-- The tables are a tree in every state, and stand for the partial map. -/
theorem tables_of_paging (h : (paging space).Reach (PoolSound space) s) :
    Tables s.mem space.root ∧ ∀ va < 2 ^ 48, space.lookup s.mem va = s.last (va / page4K) := by
  refine EventSystem.Reach.invariant (I := fun s => Tables s.mem space.root ∧ ∀ va < 2 ^ 48,
    space.lookup s.mem va = s.last (va / page4K)) (fun s hs => ?_) (fun s e s' hi hok hn => ?_) h
  · obtain ⟨hroot, hzero, hlast⟩ := hs
    refine ⟨tables_of_zero hroot hzero, fun va _ => ?_⟩
    rw [lookup_eq_leafAt, leafAt, hlast]
    cases hw : walk (below s.mem) 0 space.root (path va) with
    | none => rfl
    | some t =>
      have hlen := length_path va
      rw [walk_of_zero hzero hw] at hlen
      cases hlen
  · obtain ⟨ht, hlookup⟩ := hi
    cases e with
    | mapPage va desc supply =>
      obtain ⟨⟨-, hva⟩, hn⟩ := Option.ite_none_right_eq_some.mp hn
      obtain rfl := Option.some.inj hn
      cases hr : space.mapPage va desc (s.phys supply) with
      | mk ok p =>
        obtain ⟨ht', heff⟩ := mapPage_effect ht hok va desc hr
        cases ok with
        | false =>
          refine ⟨ht', fun va' hva' => ?_⟩
          exact (heff va').trans ((if_neg (by simp)).trans (hlookup va' hva'))
        | true =>
          refine ⟨ht', fun va' hva' => ?_⟩
          refine (heff va').trans ?_
          simp only [true_and, page_eq_iff hva' hva]
          rw [Function.update_apply, hlookup va' hva']
    | unmap va pages =>
      obtain ⟨⟨-, hp⟩, hn⟩ := Option.ite_none_right_eq_some.mp hn
      obtain rfl := Option.some.inj hn
      obtain ⟨ht', -, heff⟩ := unmap_effect ht va pages hp
      refine ⟨ht', fun va' hva' => ?_⟩
      refine (heff va' hva').trans ?_
      rw [hlookup va' hva']

/-- **The tables of a space refine a partial map from pages to descriptors.** In every state a
lookup answers the last descriptor mapped and not since unmapped; mapping a page changes the answer
for that page only, failing to changes none, and unmapping takes out the pages of the range. -/
theorem paging_refines (h : (paging space).Reach (PoolSound space) s) : Refines space s := by
  obtain ⟨ht, hlookup⟩ := tables_of_paging h
  refine ⟨hlookup, fun va hva desc supply p hs hp va' hva' => ?_, fun va desc supply p hs hp va' => ?_,
    fun va pages _ hp => (unmap_effect ht va pages hp).2⟩
  · rw [(mapPage_effect ht hs va desc hp).2 va']
    simp only [true_and, page_eq_iff hva' hva]
  · rw [(mapPage_effect ht hs va desc hp).2 va', if_neg (by simp)]

/-- A page mapped in a space that had no tables below its root. -/
theorem paging_refines_run : ∃ s, (paging ⟨0x1000, 0, 0, 0⟩).Reach (PoolSound ⟨0x1000, 0, 0, 0⟩) s ∧
    s.last 0x80000 = some (userDataPage 0x5000) ∧
    AddressSpace.lookup ⟨0x1000, 0, 0, 0⟩ s.mem 0x80000abc = some (userDataPage 0x5000) := by
  obtain ⟨s, hn, hlast⟩ : ∃ s, (paging ⟨0x1000, 0, 0, 0⟩).next ⟨fun _ => 0, fun _ => none⟩
      (.mapPage 0x80000000 (userDataPage 0x5000) [0x2000, 0x3000, 0x4000]) = some s ∧
      s.last 0x80000 = some (userDataPage 0x5000) := ⟨_, rfl, by decide⟩
  have hs : (paging ⟨0x1000, 0, 0, 0⟩).Reach (PoolSound ⟨0x1000, 0, 0, 0⟩) s := by
    have hsupply : Supplies ⟨0x1000, 0, 0, 0⟩ (fun _ => 0) [0x2000, 0x3000, 0x4000] := by
      refine ⟨by decide, fun f hf => ?_⟩
      refine ⟨(by decide : ∀ f ∈ [0x2000, 0x3000, 0x4000], IsFrame f) f hf, fun hr => ?_⟩
      obtain rfl := reached_of_zero (fun _ => rfl) hr
      exact absurd hf (by decide)
    refine .step (.init ⟨by decide, fun _ => rfl, rfl⟩) ?_ hn
    exact hsupply
  exact ⟨s, hs, hlast, ((paging_refines hs).lookup_eq _ (by decide)).trans hlast⟩

end StarOS
