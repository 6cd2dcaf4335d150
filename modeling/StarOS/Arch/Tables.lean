import StarOS.Arch.AddrSpace
import StarOS.Lib.Bits
import StarOS.Lib.Radix

/-!
# The tables of a space are a tree

A table is linked into one entry when it is made, and that entry is not written again, so no table
is reached by two paths of indices. That is what makes a write to one entry a write to one entry:
what any other path leads to is somewhere else.

## Main definitions

* `below` — where an entry leads: to the next table or, from a leaf, to a frame the space owns
* `Tables` — the tables of a space, down to level 3
* `Ready` — the same, with the frames the pool will hand out being none of them

## Main results

* `Ready.link`, `Tables.leaf` — what writing an entry does, above the leaves and at them
* `leafTable_spec` — `leafTable` links fresh tables until it reaches the leaf's
-/

namespace StarOS

open Mmu Radix

/-! ### What a space sees of the pool -/

/-- A frame passing between the pool and a space. -/
inductive Transfer
  | took (frame : ℕ)
  | gave (frame : ℕ)
  deriving DecidableEq, Repr

/-- The pool as one space sees it: the frames it will be handed next, and those that have passed. -/
structure Pool where
  supply : List ℕ
  log : List Transfer

instance : FrameAllocator Pool where
  allocate pool := match pool.supply with
    | [] => (none, pool)
    | frame :: supply => (some frame, ⟨supply, pool.log ++ [.took frame]⟩)
  free pool frame := { pool with log := pool.log ++ [.gave frame] }

/-- A frame: a page, below `2 ^ 48`. -/
def IsFrame (frame : ℕ) : Prop := frame &&& addrMask = frame

instance (frame : ℕ) : Decidable (IsFrame frame) := inferInstanceAs (Decidable (_ = _))

theorem isFrame_and (desc : ℕ) : IsFrame (desc &&& addrMask) := by
  rw [IsFrame, Nat.and_assoc, Nat.and_self]

theorem IsFrame.dvd {frame : ℕ} (h : IsFrame frame) : 4096 ∣ frame := by
  have hmask : addrMask = 2 ^ 48 - 2 ^ 12 := by decide
  rw [IsFrame, hmask, Bits.and_mask frame (by decide)] at h
  exact ⟨frame % 2 ^ 48 / 2 ^ 12, by omega⟩

/-! ### Memory -/

variable {m : Mem} {root t t' f k : ℕ} {i j : Fin entries} {p q : List (Fin entries)}

/-- Entries of tables do not overlap. -/
theorem readEntry_writeEntry (m : Mem) (ht : IsFrame t) (ht' : IsFrame t') (desc : ℕ) :
    readEntry (writeEntry m t i desc) t' j =
      if t' = t ∧ j = i then desc else readEntry m t' j := by
  obtain ⟨a, rfl⟩ := ht.dvd
  obtain ⟨b, rfl⟩ := ht'.dvd
  have hi : (i : ℕ) < 512 := i.isLt
  have hj : (j : ℕ) < 512 := j.isLt
  rw [readEntry, writeEntry]
  split
  · next h =>
    rw [h.1, h.2, Function.update_self]
  · next h =>
    rw [Function.update_of_ne, readEntry]
    intro heq
    have hab : b = a := by omega
    subst hab
    exact h ⟨rfl, Fin.ext (by omega)⟩

theorem readEntry_zeroFrame (m : Mem) (hf : IsFrame f) (ht : IsFrame t) :
    readEntry (zeroFrame m f) t i = if t = f then 0 else readEntry m t i := by
  obtain ⟨a, rfl⟩ := ht.dvd
  obtain ⟨b, rfl⟩ := hf.dvd
  have hi : (i : ℕ) < 512 := i.isLt
  have hsize : 8 * entries = 4096 := rfl
  rw [readEntry, zeroFrame]
  split
  · next h => rw [if_pos (by omega)]
  · next h => rw [if_neg (by omega), readEntry]

/-! ### Where entries lead -/

/-- Where an entry of a table at level `k` leads. -/
def below (m : Mem) (k t : ℕ) (i : Fin entries) : Option ℕ :=
  let desc := readEntry m t i
  if k < leafLevel then if desc &&& descKind = descTable then some (desc &&& addrMask) else none
  else if desc &&& descValid ≠ 0 ∧ desc &&& swOwned ≠ 0 then some (desc &&& addrMask) else none

theorem below_eq_of_entry {m' : Mem} (h : readEntry m' t i = readEntry m t i) :
    below m' k t i = below m k t i := by
  rw [below, below, h]

theorem below_of_zero (h : readEntry m t i = 0) : below m k t i = none := by
  rw [below, h]
  split <;> rfl

theorem isFrame_of_below (h : below m k t i = some f) : IsFrame f := by
  rw [below] at h
  split at h
  · obtain ⟨-, h⟩ := Option.ite_none_right_eq_some.mp h
    rw [← Option.some.inj h]
    exact isFrame_and _
  · obtain ⟨-, h⟩ := Option.ite_none_right_eq_some.mp h
    rw [← Option.some.inj h]
    exact isFrame_and _

/-- The tables of a space. -/
structure Tables (m : Mem) (root : ℕ) : Prop where
  isFrame : IsFrame root
  /-- No table is reached twice. -/
  tree : Tree (below m) root leafLevel
  /-- Above the leaves, an entry that means anything leads to a table. -/
  kind : ∀ p t i, p.length < leafLevel → walk (below m) 0 root p = some t →
    readEntry m t i &&& descValid ≠ 0 → readEntry m t i &&& descKind = descTable

theorem isFrame_of_walk (hroot : IsFrame root) (hw : walk (below m) 0 root p = some f) :
    IsFrame f := by
  induction p using List.reverseRecOn with
  | nil => exact Option.some.inj hw ▸ hroot
  | append_singleton p i _ =>
    rw [walk_concat_root] at hw
    obtain ⟨t, -, hw⟩ := Option.bind_eq_some_iff.mp hw
    exact isFrame_of_below hw

/-- A root with no entries is all there is. -/
theorem walk_of_zero (hzero : ∀ i, readEntry m root i = 0)
    (hw : walk (below m) 0 root p = some t) : p = [] := by
  cases p with
  | nil => rfl
  | cons i p =>
    rw [walk_cons, below_of_zero (hzero i)] at hw
    cases hw

theorem reached_of_zero {n : ℕ} (hzero : ∀ i, readEntry m root i = 0)
    (h : Reached (below m) root n t) : t = root := by
  obtain ⟨p, -, hw⟩ := h
  rw [walk_of_zero hzero hw] at hw
  exact (Option.some.inj hw).symm

theorem tables_of_zero (hroot : IsFrame root) (hzero : ∀ i, readEntry m root i = 0) :
    Tables m root where
  isFrame := hroot
  tree p q c _ _ hp hq := by rw [walk_of_zero hzero hp, walk_of_zero hzero hq]
  kind p t i _ hw hvalid := by
    obtain rfl := walk_of_zero hzero hw
    rw [← Option.some.inj hw, hzero] at hvalid
    exact absurd rfl hvalid

/-- The leaf an entry of a level-3 table is, if it means anything. -/
def leafAt (m : Mem) (root : ℕ) (p : List (Fin entries)) (i : Fin entries) : Option ℕ :=
  (walk (below m) 0 root p).bind fun t =>
    if readEntry m t i &&& descValid ≠ 0 then some (readEntry m t i) else none

/-- The indices of an address above the leaf. -/
def path (va : ℕ) : List (Fin entries) := (List.range leafLevel).map (tableIndex va)

theorem length_path (va : ℕ) : (path va).length = leafLevel := by
  rw [path, List.length_map, List.length_range]

/-- The loop that looks for a table follows the path of the address. -/
theorem existingFrom_eq_walk (va : ℕ) (levels : List ℕ) (hk : k + levels.length ≤ leafLevel) :
    AddressSpace.existingFrom m va levels t = walk (below m) k t (levels.map (tableIndex va)) := by
  induction levels generalizing k t with
  | nil => rfl
  | cons level levels ih =>
    rw [List.length_cons] at hk
    have hlt : k < leafLevel := by omega
    rw [AddressSpace.existingFrom, List.map_cons, walk_cons, below, if_pos hlt]
    by_cases hkind : readEntry m t (tableIndex va level) &&& descKind = descTable
    · rw [if_neg (not_not_intro hkind), if_pos hkind, Option.bind_some,
        ih (k := k + 1) (by omega)]
    · rw [if_pos hkind, if_neg hkind, Option.bind_none]

theorem existingLeafTable_eq_walk (space : AddressSpace) (m : Mem) (va : ℕ) :
    space.existingLeafTable m va = walk (below m) 0 space.root (path va) := by
  rw [AddressSpace.existingLeafTable, existingFrom_eq_walk (k := 0) va _ (by simp), path]

theorem lookup_eq_leafAt (space : AddressSpace) (m : Mem) (va : ℕ) :
    space.lookup m va = leafAt m space.root (path va) (tableIndex va leafLevel) := by
  rw [AddressSpace.lookup, leafAt, existingFrom_eq_walk (k := 0) va _ (by simp), ← path]
  cases walk (below m) 0 space.root (path va) <;> rfl

/-- What is written elsewhere than in the tables changes nothing they lead to. -/
theorem walk_of_entries {m' : Mem} (h : ∀ q c j, q.length ≤ leafLevel →
    walk (below m) 0 root q = some c → readEntry m' c j = readEntry m c j)
    (hp : p.length ≤ leafLevel + 1) :
    walk (below m') 0 root p = walk (below m) 0 root p :=
  walk_congr (fun q c j hq hw => below_eq_of_entry (h q c j (Nat.le_of_lt_succ hq) hw)) hp

theorem leafAt_of_entries {m' : Mem} (h : ∀ q c j, q.length ≤ leafLevel →
    walk (below m) 0 root q = some c → readEntry m' c j = readEntry m c j)
    (hp : p.length = leafLevel) : leafAt m' root p i = leafAt m root p i := by
  rw [leafAt, leafAt, walk_of_entries h (hp.le.trans (Nat.le_succ _))]
  cases hw : walk (below m) 0 root p with
  | none => rfl
  | some t => rw [Option.bind_some, Option.bind_some, h p t i hp.le hw]

/-! ### Descriptors of tables -/

theorem and_descValid (desc : ℕ) : desc &&& descValid = desc &&& descKind &&& descValid := by
  rw [Nat.and_assoc, show descKind &&& descValid = descValid by decide]

theorem valid_of_kind {desc : ℕ} (h : desc &&& descKind = descTable) : desc &&& descValid ≠ 0 := by
  rw [and_descValid, h]
  decide

/-- No bit of a frame's address is one of a descriptor's. -/
theorem IsFrame.and_eq_zero {flags : ℕ} (hf : IsFrame f) (hflags : addrMask &&& flags = 0) :
    f &&& flags = 0 := by
  rw [← hf, Nat.and_assoc, hflags, Nat.and_zero]

theorem tableDesc_addr (hf : IsFrame f) : (f ||| descTable) &&& addrMask = f := by
  rw [Nat.and_or_distrib_right, hf, show descTable &&& addrMask = 0 by decide, Nat.or_zero]

theorem tableDesc_kind (hf : IsFrame f) : (f ||| descTable) &&& descKind = descTable := by
  rw [Nat.and_or_distrib_right, hf.and_eq_zero (by decide), Nat.zero_or]
  decide

/-! ### Linking a table -/

/-- The tables of a space, and frames the pool will hand out: none of them is reached yet. -/
structure Ready (n root : ℕ) (m : Mem) (supply : List ℕ) : Prop where
  tables : Tables m root
  tree : Tree (below m) root n
  nodup : supply.Nodup
  fresh : ∀ f ∈ supply, IsFrame f ∧ ¬ Reached (below m) root n f

theorem Ready.of_entries {n : ℕ} {m' : Mem} {supply : List ℕ} (h : Ready n root m supply)
    (hn : n ≤ leafLevel + 1) (heq : ∀ q c j, q.length ≤ leafLevel →
      walk (below m) 0 root q = some c → readEntry m' c j = readEntry m c j) :
    Ready n root m' supply ∧ ∀ c, Reached (below m') root n c ↔ Reached (below m) root n c := by
  have hwalk : ∀ {q : List (Fin entries)}, q.length ≤ leafLevel + 1 →
      walk (below m') 0 root q = walk (below m) 0 root q := fun hq => walk_of_entries heq hq
  have hreached : ∀ c, Reached (below m') root n c ↔ Reached (below m) root n c := fun c =>
    exists_congr fun q => and_congr_right fun hq => by rw [hwalk (hq.trans hn)]
  have htree : ∀ {k}, k ≤ leafLevel + 1 → Tree (below m) root k → Tree (below m') root k := by
    intro k hk ht p q c hp hq hwp hwq
    rw [hwalk (hp.trans hk)] at hwp
    rw [hwalk (hq.trans hk)] at hwq
    exact ht p q c hp hq hwp hwq
  refine ⟨⟨⟨h.tables.isFrame, htree (Nat.le_succ _) h.tables.tree, fun q c j hq hw hvalid => ?_⟩,
    htree hn h.tree, h.nodup, fun f hf => ?_⟩, hreached⟩
  · rw [hwalk (hq.le.trans (Nat.le_succ _))] at hw
    rw [heq q c j hq.le hw] at hvalid ⊢
    exact h.tables.kind q c j hq hw hvalid
  · rw [hreached]
    exact h.fresh f hf

/-- Memory once table `f` has been linked into entry `i` of table `t`. -/
abbrev linked (m : Mem) (t : ℕ) (i : Fin entries) (f : ℕ) : Mem :=
  writeEntry (zeroFrame m f) t i (f ||| descTable)

section

variable {n : ℕ} {fs : List ℕ} (h : Ready n root m (f :: fs)) (hn : leafLevel ≤ n)
  (hp : p.length < leafLevel) (hw : walk (below m) 0 root p = some t)
  (hinvalid : readEntry m t i &&& descValid = 0)

include h hn

theorem Ready.ne_of_walk {c : ℕ} (hq : q.length ≤ leafLevel)
    (hwq : walk (below m) 0 root q = some c) : c ≠ f := by
  rintro rfl
  exact (h.fresh c List.mem_cons_self).2 ⟨q, hq.trans hn, hwq⟩

include hp hw

/-- Only the entry written is another, in the tables there were. -/
theorem Ready.entry_linked {c : ℕ} (hq : q.length ≤ leafLevel)
    (hwq : walk (below m) 0 root q = some c) :
    readEntry (linked m t i f) c j =
      if q = p ∧ j = i then f ||| descTable else readEntry m c j := by
  have hf := (h.fresh f List.mem_cons_self).1
  have ht := isFrame_of_walk h.tables.isFrame hw
  have hc := isFrame_of_walk h.tables.isFrame hwq
  have hqp : c = t ↔ q = p := by
    constructor
    · rintro rfl
      exact h.tables.tree q p c hq hp.le hwq hw
    · rintro rfl
      exact Option.some.inj (hwq.symm.trans hw)
  rw [readEntry_writeEntry _ ht hc, readEntry_zeroFrame m hf hc, if_neg (h.ne_of_walk hn hq hwq)]
  simp only [hqp]

/-- The table linked has no entries. -/
theorem Ready.entry_fresh : readEntry (linked m t i f) f j = 0 := by
  have hf := (h.fresh f List.mem_cons_self).1
  have ht := isFrame_of_walk h.tables.isFrame hw
  have hne : f ≠ t := (h.ne_of_walk hn hp.le hw).symm
  rw [readEntry_writeEntry _ ht hf, if_neg (fun h => hne h.1), readEntry_zeroFrame m hf hf, if_pos rfl]

include hinvalid

/-- **Linking a table** puts it at one path, and changes nothing else. -/
theorem Ready.written_linked :
    Written (below m) (below (linked m t i f)) root (leafLevel + 1) (p ++ [i]) (some f) := by
  have hf := (h.fresh f List.mem_cons_self).1
  refine written_entry hw ?_ ?_ (.inr ⟨?_, ?_⟩)
  · have hentry : readEntry (linked m t i f) t i = f ||| descTable := by
      rw [h.entry_linked hn hp hw hp.le hw, if_pos ⟨rfl, rfl⟩]
    rw [below, hentry, if_pos hp, tableDesc_kind hf, if_pos rfl, tableDesc_addr hf]
  · intro q c j hq hwq hne
    refine below_eq_of_entry ?_
    rw [h.entry_linked hn hp hw (Nat.le_of_lt_succ hq) hwq, if_neg]
    rintro ⟨rfl, rfl⟩
    exact hne rfl
  · rw [below, if_pos hp, if_neg fun hkind => valid_of_kind hkind hinvalid]
  · rintro c hc k j -
    obtain rfl := Option.some.inj hc
    exact below_of_zero (h.entry_fresh hn hp hw)

omit h hn in
theorem walk_none : walk (below m) 0 root (p ++ [i]) = none := by
  rw [walk_concat_root, hw, Option.bind_some, below, if_pos hp,
    if_neg fun hkind => valid_of_kind hkind hinvalid]

/-- No leaf is another than it was. -/
theorem Ready.leafAt_linked (hq : q.length = leafLevel) :
    leafAt (linked m t i f) root q j = leafAt m root q j := by
  have hwr := h.written_linked hn hp hw hinvalid q (by omega)
  rw [leafAt, leafAt]
  by_cases hqp : q = p ++ [i]
  · rw [hwr.1 hqp, hqp, walk_none hp hw hinvalid, Option.bind_some, Option.bind_none,
      h.entry_fresh hn hp hw]
    rfl
  · rw [hwr.2 hqp]
    cases hwq : walk (below m) 0 root q with
    | none => rfl
    | some c =>
      have hne : ¬ (q = p ∧ j = i) := by
        rintro ⟨rfl, -⟩
        omega
      rw [Option.bind_some, Option.bind_some, h.entry_linked hn hp hw hq.le hwq, if_neg hne]

theorem Ready.reached_linked (hn' : n ≤ leafLevel + 1) (c : ℕ) :
    Reached (below (linked m t i f)) root n c ↔ c = f ∨ Reached (below m) root n c := by
  have hwr := (h.written_linked hn hp hw hinvalid).mono hn'
  refine hwr.reached_add ?_ (walk_none hp hw hinvalid)
  rw [List.length_append, List.length_singleton]
  omega

theorem Ready.link (hn' : n ≤ leafLevel + 1) : Ready n root (linked m t i f) fs := by
  have hwr := h.written_linked hn hp hw hinvalid
  have hfresh : ∀ {k}, k ≤ n → ∀ c, some f = some c → ¬ Reached (below m) root k c := by
    rintro k hk c hc hr
    obtain rfl := Option.some.inj hc
    exact (h.fresh f List.mem_cons_self).2 (hr.mono hk)
  obtain ⟨hnot, hnodup⟩ := List.nodup_cons.mp h.nodup
  refine ⟨⟨h.tables.isFrame, ?_, ?_⟩, ?_, hnodup, fun g hg => ?_⟩
  · exact (hwr.mono (Nat.le_succ _)).tree h.tables.tree (hfresh hn)
  · intro q c j hq hwq hvalid
    rcases hwr.walk_eq (by omega) hwq with ⟨-, hc⟩ | ⟨-, hwq⟩
    · obtain rfl := Option.some.inj hc
      rw [h.entry_fresh hn hp hw] at hvalid
      exact absurd rfl hvalid
    · rw [h.entry_linked hn hp hw hq.le hwq] at hvalid ⊢
      split
      · exact tableDesc_kind (h.fresh f List.mem_cons_self).1
      · next hne =>
        rw [if_neg hne] at hvalid
        exact h.tables.kind q c j hq hwq hvalid
  · exact (hwr.mono hn').tree h.tree (hfresh (Nat.le_refl n))
  · obtain ⟨hg', hr⟩ := h.fresh g (List.mem_cons_of_mem f hg)
    refine ⟨hg', fun hr' => ?_⟩
    rcases (h.reached_linked hn hp hw hinvalid hn' g).mp hr' with rfl | hr'
    · exact hnot hg
    · exact hr hr'

end

/-! ### Writing a leaf -/

/-- What a lookup answers of a descriptor. -/
def shown (desc : ℕ) : Option ℕ := if desc &&& descValid ≠ 0 then some desc else none

/-- The frame a leaf owns. -/
def owned (desc : ℕ) : Option ℕ :=
  if desc &&& descValid ≠ 0 ∧ desc &&& swOwned ≠ 0 then some (desc &&& addrMask) else none

theorem leafAt_eq_shown (hw : walk (below m) 0 root p = some t) :
    leafAt m root p i = shown (readEntry m t i) := by
  rw [leafAt, hw, Option.bind_some, shown]

/-- What a leaf leads to is the frame it owns. -/
theorem walk_leaf (hp : p.length = leafLevel) :
    walk (below m) 0 root (p ++ [i]) = (leafAt m root p i).bind owned := by
  rw [walk_concat_root, leafAt]
  cases walk (below m) 0 root p with
  | none => rfl
  | some t =>
    rw [Option.bind_some, Option.bind_some, below, if_neg (by omega)]
    by_cases hvalid : readEntry m t i &&& descValid ≠ 0
    · rw [if_pos hvalid, Option.bind_some, owned]
    · rw [if_neg hvalid, if_neg fun h => hvalid h.1, Option.bind_none]

section

variable (h : Tables m root) (hp : p.length = leafLevel) (hw : walk (below m) 0 root p = some t)

include h hp hw

theorem Tables.entry_leaf {c : ℕ} (desc : ℕ) (hq : q.length ≤ leafLevel)
    (hwq : walk (below m) 0 root q = some c) :
    readEntry (writeEntry m t i desc) c j = if q = p ∧ j = i then desc else readEntry m c j := by
  have ht := isFrame_of_walk h.isFrame hw
  have hc := isFrame_of_walk h.isFrame hwq
  have hqp : c = t ↔ q = p := by
    constructor
    · rintro rfl
      exact h.tree q p c hq hp.le hwq hw
    · rintro rfl
      exact Option.some.inj (hwq.symm.trans hw)
  rw [readEntry_writeEntry _ ht hc]
  simp only [hqp]

/-- **Writing a leaf** changes what that leaf leads to. -/
theorem Tables.written_leaf (desc : ℕ) :
    Written (below m) (below (writeEntry m t i desc)) root (leafLevel + 1) (p ++ [i])
      (owned desc) := by
  refine written_entry hw ?_ ?_ (.inl (by rw [hp]))
  · have hentry : readEntry (writeEntry m t i desc) t i = desc := by
      rw [h.entry_leaf hp hw desc hp.le hw, if_pos ⟨rfl, rfl⟩]
    rw [below, hentry, if_neg (by omega), owned]
  · intro q c j hq hwq hne
    refine below_eq_of_entry ?_
    rw [h.entry_leaf hp hw desc (Nat.le_of_lt_succ hq) hwq, if_neg]
    rintro ⟨rfl, rfl⟩
    exact hne rfl

/-- Every table is where it was. -/
theorem Tables.walk_writeEntry (desc : ℕ) (hq : q.length ≤ leafLevel) :
    walk (below (writeEntry m t i desc)) 0 root q = walk (below m) 0 root q := by
  refine (h.written_leaf hp hw desc q (hq.trans (Nat.le_succ _))).2 ?_
  rintro rfl
  rw [List.length_append, List.length_singleton] at hq
  omega

/-- The leaf written is what was written; every other is what it was. -/
theorem Tables.leafAt_writeEntry (desc : ℕ) (hq : q.length = leafLevel) :
    leafAt (writeEntry m t i desc) root q j =
      if q = p ∧ j = i then shown desc else leafAt m root q j := by
  have hwq := h.walk_writeEntry (i := i) hp hw desc hq.le
  cases hc : walk (below m) 0 root q with
  | none =>
    rw [if_neg, leafAt, leafAt, hwq, hc]
    · rfl
    · rintro ⟨rfl, -⟩
      rw [hw] at hc
      cases hc
  | some c =>
    rw [leafAt_eq_shown (hwq.trans hc), leafAt_eq_shown hc, h.entry_leaf hp hw desc hq.le hc]
    split <;> rfl

theorem Tables.leaf (desc : ℕ) : Tables (writeEntry m t i desc) root where
  isFrame := h.isFrame
  tree p' q c hp' hq hwp hwq := by
    rw [h.walk_writeEntry hp hw desc hp'] at hwp
    rw [h.walk_writeEntry hp hw desc hq] at hwq
    exact h.tree p' q c hp' hq hwp hwq
  kind q c j hq hwq hvalid := by
    rw [h.walk_writeEntry hp hw desc hq.le] at hwq
    have hne : ¬ (q = p ∧ j = i) := by
      rintro ⟨rfl, -⟩
      omega
    rw [h.entry_leaf hp hw desc hq.le hwq, if_neg hne] at hvalid ⊢
    exact h.kind q c j hq hwq hvalid

end

/-! ### Making the tables on the way to a leaf -/

/-- What is left of a space when tables have been linked into it: the frames `fs` are more of what
is reached, and no leaf is another. -/
structure Grown (n root : ℕ) (s s' : Phys Pool) (fs : List ℕ) : Prop where
  supply : s.alloc.supply = fs ++ s'.alloc.supply
  log : s'.alloc.log = s.alloc.log ++ fs.map .took
  ready : Ready n root s'.mem s'.alloc.supply
  reached : ∀ c, Reached (below s'.mem) root n c ↔ c ∈ fs ∨ Reached (below s.mem) root n c
  leafAt : ∀ q i, q.length = leafLevel → leafAt s'.mem root q i = leafAt s.mem root q i

theorem Grown.refl {n : ℕ} {s : Phys Pool} (h : Ready n root s.mem s.alloc.supply) :
    Grown n root s s [] where
  supply := rfl
  log := by simp
  ready := h
  reached c := by simp
  leafAt _ _ _ := rfl

theorem leafTableFrom_spec {n : ℕ} (hn : leafLevel ≤ n) (hn' : n ≤ leafLevel + 1) (va : ℕ)
    (levels : List ℕ) {s : Phys Pool} (h : Ready n root s.mem s.alloc.supply)
    (hlen : p.length + levels.length = leafLevel) (hw : walk (below s.mem) 0 root p = some t) :
    (∃ fs, Grown n root s (AddressSpace.leafTableFrom va levels t s).2 fs) ∧
      ∀ leaf ∈ (AddressSpace.leafTableFrom va levels t s).1,
        walk (below (AddressSpace.leafTableFrom va levels t s).2.mem) 0 root
          (p ++ levels.map (tableIndex va)) = some leaf := by
  induction levels generalizing p t s with
  | nil =>
    refine ⟨⟨[], .refl h⟩, fun leaf hleaf => ?_⟩
    obtain rfl := Option.some.inj hleaf
    rw [List.map_nil, List.append_nil]
    exact hw
  | cons level levels ih =>
    rw [List.length_cons] at hlen
    have hp : p.length < leafLevel := by omega
    have hlen' : ∀ i : Fin entries, (p ++ [i]).length + levels.length = leafLevel := by
      intro i
      rw [List.length_append, List.length_singleton]
      omega
    have hassoc : p ++ (level :: levels).map (tableIndex va) =
        p ++ [tableIndex va level] ++ levels.map (tableIndex va) := by simp
    rw [AddressSpace.leafTableFrom, hassoc]
    by_cases hinvalid : readEntry s.mem t (tableIndex va level) &&& descValid = 0
    · rw [if_pos hinvalid]
      obtain ⟨mem, supply, log⟩ := s
      cases supply with
      | nil => exact ⟨⟨[], .refl h⟩, fun leaf hleaf => by cases hleaf⟩
      | cons f fs =>
        have hwr := h.written_linked hn hp hw hinvalid
        have hnext : walk (below (linked mem t (tableIndex va level) f)) 0 root
            (p ++ [tableIndex va level]) = some f := by
          refine (hwr _ ?_).1 rfl
          rw [List.length_append, List.length_singleton]
          omega
        obtain ⟨⟨gs, g⟩, hleaf⟩ := ih (s := ⟨linked mem t (tableIndex va level) f,
          fs, log ++ [.took f]⟩) (h.link hn hp hw hinvalid hn') (hlen' _) hnext
        refine ⟨⟨f :: gs, ?_, ?_, g.ready, fun c => ?_, fun q i hq => ?_⟩, hleaf⟩
        · exact congrArg (f :: ·) g.supply
        · refine g.log.trans ?_
          rw [List.append_assoc]
          rfl
        · refine (g.reached c).trans ?_
          rw [h.reached_linked hn hp hw hinvalid hn' c, List.mem_cons]
          tauto
        · exact (g.leafAt q i hq).trans (h.leafAt_linked hn hp hw hinvalid hq)
    · rw [if_neg hinvalid]
      refine ih h (hlen' _) ?_
      rw [walk_concat_root, hw, Option.bind_some, below, if_pos hp,
        if_pos (h.tables.kind p t _ hp hw hinvalid)]

/-- **`leafTable`** links fresh tables on the way to a leaf, and answers the last. -/
theorem leafTable_spec {n : ℕ} (hn : leafLevel ≤ n) (hn' : n ≤ leafLevel + 1)
    (space : AddressSpace) (va : ℕ) {s : Phys Pool} (h : Ready n space.root s.mem s.alloc.supply) :
    (∃ fs, Grown n space.root s (space.leafTable va s).2 fs) ∧
      ∀ leaf ∈ (space.leafTable va s).1,
        walk (below (space.leafTable va s).2.mem) 0 space.root (path va) = some leaf :=
  leafTableFrom_spec hn hn' va (List.range leafLevel) h (p := []) (by simp) rfl

/-- **`mapPage`** links what tables it needs and then writes the leaf, or fails between the two. -/
theorem mapPage_spec {n : ℕ} (hn : leafLevel ≤ n) (hn' : n ≤ leafLevel + 1) (space : AddressSpace)
    (va desc : ℕ) {s : Phys Pool} (h : Ready n space.root s.mem s.alloc.supply) :
    ∃ fs s', Grown n space.root s s' fs ∧
      (space.mapPage va desc s = (false, s') ∨
        ∃ leaf, walk (below s'.mem) 0 space.root (path va) = some leaf ∧
          space.mapPage va desc s =
            (true, ⟨writeEntry s'.mem leaf (tableIndex va leafLevel) desc, s'.alloc⟩)) := by
  obtain ⟨⟨fs, g⟩, hleaf⟩ := leafTable_spec hn hn' space va h
  refine ⟨fs, _, g, ?_⟩
  rw [AddressSpace.mapPage]
  generalize space.leafTable va s = r at hleaf
  obtain ⟨leaf | leaf, s'⟩ := r
  · exact .inl rfl
  · exact .inr ⟨leaf, hleaf leaf rfl, rfl⟩

end StarOS
