import StarOS.Arch.Frames
import StarOS.Arch.PartialMap

/-!
# Stage-2 maps

A device behind the SMMU reaches what the stage-2 tables of its stream map, and nothing else. They
are built for one buffer and never changed: a tree of four levels, from input addresses to the pages
of the buffer, in order. Its tables come from the frame allocator and go back to it, when it is torn
down or when it cannot be finished; the pages of the buffer are not the tree's to give back.

## Main definitions

* `buildStage2Map`, `freeStage2Table`
* `s2Walk` — what the SMMU makes of an input address

## Main results

* `s2TableFrom_eq` — the tables are found and made as those of an address space are
* `freeStage2Level_eq` — a teardown gives back the tables of a tree, once
* `Stage2.forPages` — the tables map the pages so far
* `stage2_exact`
-/

namespace StarOS

open Mmu Radix

/-! ### Descriptors -/

/-- Normal memory, not cacheable. -/
def s2MemattrNc : ℕ := 0b0101 <<< 2
/-- The device may read and write. -/
def s2apRw : ℕ := 0b11 <<< 6
def s2ShInner : ℕ := 0b11 <<< 8
def s2Af : ℕ := 1 <<< 10
def s2Xn : ℕ := 1 <<< 54

/-- A descriptor that leads to the next table. -/
def stage2Table (nextPhys : ℕ) : ℕ := (nextPhys &&& addrMask) ||| descTable

/-- A descriptor of level 3, that maps a page. -/
def stage2Page (outputPhys : ℕ) : ℕ :=
  (outputPhys &&& addrMask) ||| descTable ||| s2MemattrNc ||| s2apRw ||| s2ShInner ||| s2Af ||| s2Xn

/-! ### Building and freeing -/

/-- Index into the level-`level` table for an input address. -/
def s2Index (va level : ℕ) : Fin entries :=
  ⟨(va >>> (39 - 9 * level)) &&& 0x1ff, index_lt va level⟩

section

variable {A : Type} [FrameAllocator A]

/-- The inner loop of `build_stage2_map`, from a table down. -/
def s2TableFrom (inAddr : ℕ) : List ℕ → ℕ → Phys A → Option ℕ × Phys A
  | [], table, p => (some table, p)
  | level :: levels, table, p =>
    let idx := s2Index inAddr level
    let desc := readEntry p.mem table idx
    if desc &&& descValid ≠ 0 then s2TableFrom inAddr levels (desc &&& addrMask) p
    else
      match allocTable p with
      | (none, p) => (none, p)
      | (some next, p) =>
        s2TableFrom inAddr levels next { p with mem := writeEntry p.mem table idx (stage2Table next)
            }

/-- One round of the outer loop: `false` if a table could not be had. -/
def s2MapPage (root inAddr outAddr : ℕ) (p : Phys A) : Bool × Phys A :=
  match s2TableFrom inAddr (List.range leafLevel) root p with
  | (none, p) => (false, p)
  | (some table, p) =>
    (true, { p with mem := writeEntry p.mem table (s2Index inAddr leafLevel) (stage2Page outAddr) })

/-- Free the tables from one down; `below` is how many levels are below it. -/
def freeStage2Level : ℕ → ℕ → Phys A → Phys A
  | 0, phys, p => freeFrame p phys
  | below + 1, phys, p =>
    let p := (List.finRange entries).foldl (fun p idx =>
      let desc := readEntry p.mem phys idx
      if desc &&& descValid ≠ 0 then freeStage2Level below (desc &&& addrMask) p else p) p
    freeFrame p phys

/-- Free every table of a tree. -/
def freeStage2Table (phys : ℕ) (p : Phys A) : Phys A := freeStage2Level leafLevel phys p

/-- Build the tables that map `pages` pages from `iova` on to those from `pa` on, or give back what
was taken. -/
def buildStage2Map (iova pa pages : ℕ) (p : Phys A) : Option ℕ × Phys A :=
  match allocTable p with
  | (none, p) => (none, p)
  | (some root, p) =>
    match forPages (fun i p => s2MapPage root (iova + i * page4K) (pa + i * page4K) p) pages 0
        p with
    | (true, p) => (some root, p)
    | (false, p) => (none, freeStage2Table root p)

end

/-! ### Walking -/

/-- Where the SMMU finds an input address, from a table down. Above the last level a descriptor may
also map a block. -/
def s2WalkFrom (m : Mem) (va : ℕ) : List ℕ → ℕ → Option ℕ
  | [], table =>
    let desc := readEntry m table (s2Index va leafLevel)
    if desc &&& descKind = descPage then some ((desc &&& addrMask) + va % page4K) else none
  | level :: levels, table =>
    let desc := readEntry m table (s2Index va level)
    if desc &&& descValid = 0 then none
    else if desc &&& descKind = descTable then s2WalkFrom m va levels (desc &&& addrMask)
    else if level = 0 then none
    else
      let size := 2 ^ (39 - 9 * level)
      some ((desc &&& addrMask) / size * size + va % size)

/-- The physical address of an input address, if it is translated. -/
def s2Walk (m : Mem) (root va : ℕ) : Option ℕ := s2WalkFrom m va (List.range leafLevel) root

variable {m : Mem} {root t : ℕ} {p : List (Fin entries)} {s s' : Phys Pool} {va : ℕ}

theorem stage2Table_eq {f : ℕ} (hf : IsFrame f) : stage2Table f = f ||| descTable := by
  rw [stage2Table, hf]

/-- The rest of a descriptor of a page. -/
theorem stage2Page_eq (pa : ℕ) : stage2Page pa = (pa &&& addrMask) ||| stage2Page 0 := by
  simp only [stage2Page, Nat.or_assoc, Nat.zero_and, Nat.zero_or]

theorem stage2Page_addr (pa : ℕ) : stage2Page pa &&& addrMask = pa &&& addrMask := by
  rw [stage2Page_eq, Nat.and_or_distrib_right, Nat.and_assoc, Nat.and_self,
    show stage2Page 0 &&& addrMask = 0 by decide, Nat.or_zero]

theorem stage2Page_kind (pa : ℕ) : stage2Page pa &&& descKind = descPage := by
  rw [stage2Page_eq, Nat.and_or_distrib_right, Nat.and_assoc, show addrMask &&& descKind =
    0 by decide,
    Nat.and_zero, Nat.zero_or]
  decide

/-- A page of the buffer is not the tree's. -/
theorem owned_stage2Page (pa : ℕ) : owned (stage2Page pa) = none := by
  rw [owned, if_neg]
  rintro ⟨-, hne⟩
  rw [stage2Page_eq, Nat.and_or_distrib_right, Nat.and_assoc, show addrMask &&& swOwned =
    0 by decide,
    Nat.and_zero, Nat.zero_or] at hne
  exact hne (by decide)

theorem shown_stage2Page (pa : ℕ) : shown (stage2Page pa) = some (stage2Page pa) := by
  rw [shown, if_pos]
  exact valid_of_kind (stage2Page_kind pa)

theorem s2Index_eq : s2Index = tableIndex := rfl

/-- **The tables are found and made as those of an address space are.** -/
theorem s2TableFrom_eq (inAddr : ℕ) (levels : List ℕ) (t : ℕ) (s : Phys Pool)
    (hframe : ∀ f ∈ s.alloc.supply, IsFrame f) :
    s2TableFrom inAddr levels t s = AddressSpace.leafTableFrom inAddr levels t s := by
  induction levels generalizing t s with
  | nil => rfl
  | cons level levels ih =>
    rw [s2TableFrom, AddressSpace.leafTableFrom]
    rw [s2Index_eq]
    by_cases hinvalid : readEntry s.mem t (tableIndex inAddr level) &&& descValid = 0
    · rw [if_neg (not_not_intro hinvalid), if_pos hinvalid]
      obtain ⟨mem, supply, log⟩ := s
      cases supply with
      | nil => rfl
      | cons f fs =>
        show s2TableFrom inAddr levels f (⟨writeEntry (zeroFrame mem f) t (tableIndex inAddr level)
          (stage2Table f), ⟨fs, log ++ [.took f]⟩⟩ : Phys Pool) = _
        rw [stage2Table_eq (hframe f List.mem_cons_self)]
        exact ih f _ fun g hg => hframe g (List.mem_cons_of_mem f hg)
    · rw [if_pos hinvalid, if_neg hinvalid]
      exact ih _ s hframe

/-- A space of which only the tables matter. -/
abbrev spaceOf (root : ℕ) : AddressSpace := ⟨root, 0, 0, 0⟩

/-- What a device finds through a descriptor of the last level. -/
def s2Output (va desc : ℕ) : Option ℕ :=
  if desc &&& descKind = descPage then some ((desc &&& addrMask) + va % page4K) else none

theorem s2WalkFrom_eq (h : Tables m root) (levels : List ℕ)
    (hlen : p.length + levels.length = leafLevel) (hw : walk (below m) 0 root p = some t) :
    s2WalkFrom m va levels t = (walk (below m) p.length t (levels.map (tableIndex va))).bind
      fun leaf => s2Output va (readEntry m leaf (tableIndex va leafLevel)) := by
  induction levels generalizing p t with
  | nil => rfl
  | cons level levels ih =>
    rw [List.length_cons] at hlen
    have hlt : p.length < leafLevel := by omega
    rw [s2WalkFrom, List.map_cons, walk_cons, below, if_pos hlt]
    rw [s2Index_eq]
    by_cases hinvalid : readEntry m t (tableIndex va level) &&& descValid = 0
    · rw [if_pos hinvalid, if_neg fun hkind => valid_of_kind hkind hinvalid]
      rfl
    · -- a descriptor that means anything is that of a table
      have hkind := h.kind p t _ hlt hw hinvalid
      have hnext : walk (below m) 0 root (p ++ [tableIndex va level]) =
          some (readEntry m t (tableIndex va level) &&& addrMask) := by
        rw [walk_concat_root, hw, Option.bind_some, below, if_pos hlt, if_pos hkind]
      have hlength : (p ++ [tableIndex va level]).length = p.length + 1 := by
        rw [List.length_append, List.length_singleton]
      rw [if_neg hinvalid, if_pos hkind, if_pos hkind, Option.bind_some,
        ih (by omega) hnext, hlength]

/-- **A walk** goes to the leaf of the address, in tables that are a tree. -/
theorem s2Walk_eq (h : Tables m root) (va : ℕ) : s2Walk m root va =
    (leafAt m root (path va) (tableIndex va leafLevel)).bind (s2Output va) := by
  rw [s2Walk, s2WalkFrom_eq h (p := []) _ (by simp) rfl, leafAt, path, List.length_nil]
  cases walk (below m) 0 root ((List.range leafLevel).map (tableIndex va)) with
  | none => rfl
  | some leaf =>
    rw [Option.bind_some, Option.bind_some]
    split
    · rfl
    · next hinvalid => exact if_neg fun hkind => hinvalid (valid_of_kind hkind)

theorem s2Output_stage2Page (va pa : ℕ) :
    s2Output va (stage2Page pa) = some ((pa &&& addrMask) + va % page4K) := by
  rw [s2Output, if_pos (stage2Page_kind pa), stage2Page_addr]

/-- The tables cannot be made only where the pool has run out. -/
theorem supply_of_leafTableFrom {levels : List ℕ} {t : ℕ} {s s' : Phys Pool}
    (h : AddressSpace.leafTableFrom va levels t s = (none, s')) : s'.alloc.supply = [] := by
  induction levels generalizing t s with
  | nil => cases h
  | cons level levels ih =>
    rw [AddressSpace.leafTableFrom] at h
    split at h
    · obtain ⟨mem, supply, log⟩ := s
      cases supply with
      | nil =>
        cases h
        rfl
      | cons f fs => exact ih h
    · exact ih h

/-! ### Teardown -/

/-- **A teardown gives back the tables of a tree**, each after those below it. -/
theorem freeStage2Level_eq (h : Tables m root) (b : ℕ) {q : List (Fin entries)}
    (hq : q.length + b = leafLevel) (hw : walk (below m) 0 root q = some t) (supply : List ℕ)
    (log : List Transfer) :
    freeStage2Level b t (⟨m, ⟨supply, log⟩⟩ : Phys Pool) = ⟨m, ⟨supply, log ++
      (collect (below m) (List.finRange entries) b q.length t).map .gave⟩⟩ := by
  induction b generalizing q t supply log with
  | zero => rfl
  | succ b ih =>
    have hlt : q.length < leafLevel := by omega
    rw [freeStage2Level, collect]
    dsimp only
    rw [foldl_log (g := fun i => (below m q.length t i).elim [] fun c =>
      collect (below m) (List.finRange entries) b (q.length + 1) c),
      freeFrame_pool, List.map_append, List.map_singleton, List.append_assoc]
    intro supply log i
    have hbelow : walk (below m) 0 root (q ++ [i]) = below m q.length t i := by
      rw [walk_concat_root, hw, Option.bind_some]
    have hlen : (q ++ [i]).length = q.length + 1 := by
      rw [List.length_append, List.length_singleton]
    rw [below, if_pos hlt] at hbelow ⊢
    by_cases hvalid : readEntry m t i &&& descValid = 0
    · rw [if_neg (not_not_intro hvalid), if_neg fun hkind => valid_of_kind hkind hvalid]
      simp
    · have hkind := h.kind q t i hlt hw hvalid
      rw [if_pos hkind] at hbelow ⊢
      rw [if_pos hvalid, ih (by omega) hbelow, hlen, Option.elim_some]

/-! ### The tables of a map -/

/-- The tables that map `n` pages from `iova` on to those from `pa` on, built from what a pool with
this supply has handed out. -/
structure Stage2 (supply : List ℕ) (root iova pa n : ℕ) (s : Phys Pool) : Prop where
  owns : Owns root [] s
  taken : ∃ taken, supply = taken ++ s.alloc.supply ∧ s.alloc.log = taken.map .took
  /-- No page is the tree's. -/
  spare : ∀ q i, q.length = leafLevel → ∀ desc ∈ leafAt s.mem root q i, owned desc = none
  leaves : ∀ va < 2 ^ 48, leafAt s.mem root (path va) (tableIndex va leafLevel) =
    if iova ≤ va ∧ va < iova + n * page4K
    then some (stage2Page (pa + (va - iova) / page4K * page4K)) else none

namespace Stage2

variable {supply : List ℕ} {iova pa n : ℕ}

theorem start {f : ℕ} {fs : List ℕ} (hnodup : (f :: fs).Nodup) (hframe : ∀ g ∈ f :: fs, IsFrame g) :
    Stage2 (f :: fs) f iova pa 0 ⟨zeroFrame m f, ⟨fs, [.took f]⟩⟩ := by
  have hf := hframe f List.mem_cons_self
  have hzero : ∀ i, readEntry (zeroFrame m f) f i = 0 := fun i => by
    rw [readEntry_zeroFrame m hf hf, if_pos rfl]
  have hnone : ∀ q i, q.length = leafLevel → leafAt (zeroFrame m f) f q i = none := by
    intro q i hq
    rw [leafAt]
    cases hw : walk (below (zeroFrame m f)) 0 f q with
    | none => rfl
    | some c =>
      rw [walk_of_zero hzero hw] at hq
      cases hq
  have hsettle : settle [] [] = some [] := rfl
  refine ⟨(owns_root hsettle hnodup hframe).1, ⟨[f], rfl, rfl⟩, fun q i hq desc hdesc => ?_,
    fun va _ => ?_⟩
  · rw [hnone q i hq] at hdesc
    cases hdesc
  · rw [hnone _ _ (length_path va), if_neg (by omega)]

/-- Tables linked into the tree leave it what it was. -/
theorem grown {fs : List ℕ} (h : Stage2 supply root iova pa n s)
    (g : Grown (leafLevel + 1) root s s' fs) : Stage2 supply root iova pa n s' := by
  obtain ⟨taken, hsupply, hlog⟩ := h.taken
  refine ⟨h.owns.grown g, ⟨taken ++ fs, ?_, ?_⟩, fun q i hq desc hdesc => ?_, fun va hva => ?_⟩
  · rw [List.append_assoc, ← g.supply, hsupply]
  · rw [g.log, hlog, List.map_append]
  · rw [g.leafAt q i hq] at hdesc
    exact h.spare q i hq desc hdesc
  · rw [g.leafAt _ _ (length_path va)]
    exact h.leaves va hva

/-- **A page is mapped** after those that are. -/
theorem leaf {t : ℕ} (h : Stage2 supply root iova pa n s) (hiova : page4K ∣ iova)
    (hroom : iova + (n + 1) * page4K ≤ 2 ^ 48)
    (hleaf : walk (below s.mem) 0 root (path (iova + n * page4K)) = some t) :
    Stage2 supply root iova pa (n + 1) ⟨writeEntry s.mem t
        (tableIndex (iova + n * page4K) leafLevel)
      (stage2Page (pa + n * page4K)), s.alloc⟩ := by
  have hpos : 0 < page4K := by decide
  have hadd : (n + 1) * page4K = n * page4K + page4K := Nat.succ_mul ..
  have hlow : iova + n * page4K < 2 ^ 48 := by omega
  have hwritten := fun {q i} => h.owns.ready.tables.leafAt_writeEntry (q := q) (j := i)
    (i := tableIndex (iova + n * page4K) leafLevel)
      (length_path _) hleaf (stage2Page (pa + n * page4K))
  have hspare : ownedAt s.mem root (iova + n * page4K) = none := by
    rw [ownedAt, Option.bind_eq_none_iff]
    exact h.spare _ _ (length_path _)
  have howns : Owns root (owned (stage2Page (pa + n * page4K))).toList s := by
    rw [owned_stage2Page]
    exact h.owns
  refine ⟨howns.writeLeaf hleaf hspare, h.taken, fun q i hq desc hdesc => ?_, fun va hva => ?_⟩
  · rw [hwritten hq, shown_stage2Page] at hdesc
    split at hdesc
    · rw [← Option.some.inj hdesc]
      exact owned_stage2Page _
    · exact h.spare q i hq desc hdesc
  · rw [hwritten (length_path va), shown_stage2Page, h.leaves va hva]
    obtain ⟨k, rfl⟩ := hiova
    have hsize : page4K = 4096 := rfl
    by_cases hpage : va / page4K = (page4K * k + n * page4K) / page4K
    · rw [if_pos ((page_eq_iff hva hlow).mpr hpage)]
      rw [hsize] at hpage ⊢
      rw [if_pos (by omega), show (va - 4096 * k) / 4096 = n by omega]
    · rw [if_neg fun hsame => hpage ((page_eq_iff hva hlow).mp hsame)]
      rw [hsize] at hpage ⊢
      exact if_congr (by omega) rfl rfl

/-- **A round** maps one more page, or the pool runs out in it. -/
theorem round (h : Stage2 supply root iova pa n s) (hiova : page4K ∣ iova)
    (hroom : iova + (n + 1) * page4K ≤ 2 ^ 48) :
    (∃ s', s2MapPage root (iova + n * page4K) (pa + n * page4K) s = (true, s') ∧
      Stage2 supply root iova pa (n + 1) s') ∨
    ∃ s', s2MapPage root (iova + n * page4K) (pa + n * page4K) s = (false, s') ∧
      Stage2 supply root iova pa n s' ∧ s'.alloc.supply = [] := by
  obtain ⟨⟨fs, g⟩, hleaf⟩ := leafTable_spec (Nat.le_succ _) (Nat.le_refl _) (spaceOf root)
    (iova + n * page4K) h.owns.ready
  have hsame : s2TableFrom (iova + n * page4K) (List.range leafLevel) root s =
      (spaceOf root).leafTable (iova + n * page4K) s :=
    s2TableFrom_eq _ _ _ _ fun f hf => (h.owns.ready.fresh f hf).1
  rw [s2MapPage, hsame]
  cases hr : (spaceOf root).leafTable (iova + n * page4K) s with
  | mk found s' =>
    rw [hr] at g hleaf
    cases found with
    | none => exact .inr ⟨s', rfl, h.grown g, supply_of_leafTableFrom hr⟩
    | some t => exact .inl ⟨_, rfl, (h.grown g).leaf hiova hroom (hleaf t rfl)⟩

/-- **The loop** maps every page, or the pool runs out in it. -/
theorem forPages {k : ℕ} (h : Stage2 supply root iova pa n s) (hiova : page4K ∣ iova)
    (hroom : iova + (n + k) * page4K ≤ 2 ^ 48) :
    (∃ s', StarOS.forPages (fun i p => s2MapPage root (iova + i * page4K) (pa + i * page4K) p) k n
      s =
      (true, s') ∧ Stage2 supply root iova pa (n + k) s') ∨
    ∃ n' s', StarOS.forPages (fun i p => s2MapPage root (iova + i * page4K) (pa + i * page4K) p) k n
      s =
      (false, s') ∧ Stage2 supply root iova pa n' s' ∧ s'.alloc.supply = [] := by
  induction k generalizing n s with
  | zero => exact .inl ⟨s, rfl, h⟩
  | succ k ih =>
    have hnext : n + (k + 1) = n + 1 + k := by omega
    have hle : (n + 1) * page4K ≤ (n + (k + 1)) * page4K := Nat.mul_le_mul_right _ (by omega)
    rw [StarOS.forPages]
    obtain ⟨s', heq, h'⟩ | ⟨s', heq, h', hempty⟩ := h.round hiova (by omega)
    · rw [heq, hnext]
      exact ih h' (by rw [← hnext]; exact hroom)
    · rw [heq]
      exact .inr ⟨n, s', rfl, h', hempty⟩

/-- **A teardown gives back what was taken**, once. -/
theorem free (h : Stage2 supply root iova pa n s) (hnodup : supply.Nodup) :
    ∃ taken gs : List ℕ, supply = taken ++ s.alloc.supply ∧ s.alloc.log = taken.map .took ∧
      (freeStage2Table root s).alloc.log = s.alloc.log ++ gs.map .gave ∧ gs.Perm taken := by
  obtain ⟨taken, hsupply, hlog⟩ := h.taken
  obtain ⟨held, hset, -, hmem⟩ := h.owns.settled
  obtain ⟨mem, fs, log⟩ := s
  have htables := h.owns.ready.tables
  have htaken : taken.Nodup := by
    rw [hsupply] at hnodup
    exact (List.nodup_append.mp hnodup).1
  obtain ⟨held', hset', -, hmem'⟩ := settle_took List.nodup_nil htaken fun _ _ => List.not_mem_nil
  have hheld : held = held' := Option.some.inj
    (hset.symm.trans ((congrArg (settle []) hlog).trans hset'))
  have hfree := freeStage2Level_eq htables leafLevel (q := []) rfl rfl fs log
  refine ⟨taken, _, hsupply, hlog, by rw [freeStage2Table, hfree], ?_⟩
  refine (List.perm_ext_iff_of_nodup
    (htables.tree.nodup_collect List.mem_finRange (List.nodup_finRange entries)) htaken).mpr
      fun c => ?_
  -- a leaf leads to no table
  have hreached : Reached (below mem) root (leafLevel + 1) c ↔
    Reached (below mem) root leafLevel c := by
    refine ⟨fun hr => ?_, fun hr => hr.mono (Nat.le_succ _)⟩
    obtain ⟨q, hq, hw⟩ := hr
    rcases Nat.lt_or_eq_of_le hq with hlt | heq
    · exact ⟨q, Nat.le_of_lt_succ hlt, hw⟩
    · obtain ⟨q, i, rfl⟩ := List.eq_nil_or_concat' q |>.resolve_left fun hnil => by
        rw [hnil] at heq
        cases heq
      rw [List.length_append, List.length_singleton] at heq
      have hlen : q.length = leafLevel := Nat.succ.inj heq
      rw [walk_leaf hlen] at hw
      obtain ⟨desc, hdesc, ho⟩ := Option.bind_eq_some_iff.mp hw
      rw [h.spare q i hlen desc hdesc] at ho
      cases ho
  have hin := hmem c
  have hin' := hmem' c
  rw [← hheld] at hin'
  rw [mem_collect_root List.mem_finRange, ← hreached]
  simp only [List.not_mem_nil, false_or, or_false] at hin hin'
  exact hin.symm.trans hin'

end Stage2

/-! ### The map -/

/-- **A stage-2 map is exact.** The tables send each byte of the input range to the byte of the
buffer it stands for, and translate nothing else; they are given back at teardown. Where the pool
runs out, all of it has been given back. -/
theorem stage2_exact (m : Mem) (supply : List ℕ) (iova pa pages : ℕ) (hiova : page4K ∣ iova)
    (hpa : page4K ∣ pa) (hin : iova + pages * page4K ≤ 2 ^ 40) (hout : pa + pages * page4K ≤ 2 ^ 48)
    (hnodup : supply.Nodup) (hframe : ∀ f ∈ supply, IsFrame f) :
    (∀ s, buildStage2Map iova pa pages (⟨m, ⟨supply, []⟩⟩ : Phys Pool) = (none, s) →
      ∃ gs : List ℕ, s.alloc.log = supply.map .took ++ gs.map .gave ∧ gs.Perm supply) ∧
    ∀ root s, buildStage2Map iova pa pages (⟨m, ⟨supply, []⟩⟩ : Phys Pool) = (some root, s) →
      (∀ i < pages, ∀ o < page4K,
        s2Walk s.mem root (iova + i * page4K + o) = some (pa + i * page4K + o)) ∧
      (∀ va < 2 ^ 48, ¬ (iova ≤ va ∧ va < iova + pages * page4K) → s2Walk s.mem root va = none) ∧
      ∃ taken gs : List ℕ, supply = taken ++ s.alloc.supply ∧ s.alloc.log = taken.map .took ∧
        (freeStage2Table root s).alloc.log = taken.map .took ++ gs.map .gave ∧ gs.Perm taken ∧
        ((∀ i < pages, pa + i * page4K ∉ supply) → ∀ i < pages, pa + i * page4K ∉ gs) := by
  cases supply with
  | nil =>
    refine ⟨fun s hs => ?_, fun root s hs => ?_⟩
    · cases hs
      exact ⟨[], rfl, .refl _⟩
    · cases hs
  | cons f fs =>
    have hroom : iova + (0 + pages) * page4K ≤ 2 ^ 48 := by
      rw [Nat.zero_add]
      exact Nat.le_trans hin (by decide)
    have hstart : Stage2 (f :: fs) f iova pa 0 ⟨zeroFrame m f, ⟨fs, [.took f]⟩⟩ :=
      Stage2.start hnodup hframe
    have hloop := hstart.forPages hiova hroom
    have halloc : allocTable (⟨m, ⟨f :: fs, []⟩⟩ : Phys Pool) =
        (some f, ⟨zeroFrame m f, ⟨fs, [.took f]⟩⟩) := rfl
    rw [buildStage2Map, halloc]
    dsimp only
    obtain ⟨s', heq, h⟩ | ⟨n, s', heq, h, hempty⟩ := hloop
    · rw [heq]
      dsimp only
      rw [Nat.zero_add] at h
      refine ⟨fun s hs => (Option.some_ne_none _ (Prod.mk.inj hs).1).elim, fun root s hs => ?_⟩
      obtain ⟨hroot, rfl⟩ := Prod.mk.inj hs
      obtain rfl := Option.some.inj hroot
      have hwalk := fun va (hva : va < 2 ^ 48) => (s2Walk_eq h.owns.ready.tables va).trans
        (congrArg (Option.bind · (s2Output va)) (h.leaves va hva))
      refine ⟨fun i hi o ho => ?_, fun va hva hnot => ?_, ?_⟩
      · have hbyte : iova + i * page4K + o < 2 ^ 48 ∧
          iova + i * page4K + o < iova + pages * page4K := by
          have hle : (i + 1) * page4K ≤ pages * page4K := Nat.mul_le_mul_right _ hi
          have hadd : (i + 1) * page4K = i * page4K + page4K := Nat.succ_mul ..
          omega
        rw [hwalk _ hbyte.1, if_pos ⟨by omega, hbyte.2⟩, Option.bind_some, s2Output_stage2Page]
        obtain ⟨k, rfl⟩ := hiova
        obtain ⟨l, rfl⟩ := hpa
        have hmask : addrMask = 2 ^ 48 - 2 ^ 12 := by decide
        have hsize : page4K = 4096 := rfl
        rw [hmask, Bits.and_mask _ (by decide)]
        rw [hsize] at ho hbyte hout ⊢
        have hle : (i + 1) * 4096 ≤ pages * 4096 := Nat.mul_le_mul_right _ hi
        refine congrArg some ?_
        omega
      · rw [hwalk va hva, if_neg hnot, Option.bind_none]
      · obtain ⟨taken, gs, hsupply, hlog, hfree, hperm⟩ := h.free hnodup
        refine ⟨taken, gs, hsupply, hlog, by rw [hfree, hlog], hperm, fun hapart i hi hmem => ?_⟩
        refine hapart i hi ?_
        rw [hsupply]
        exact List.mem_append_left _ (hperm.mem_iff.mp hmem)
    · rw [heq]
      dsimp only
      refine ⟨fun s hs => ?_, fun root s hs =>
        (Option.some_ne_none _ (Prod.mk.inj hs).1.symm).elim⟩
      obtain rfl := (Prod.mk.inj hs).2
      obtain ⟨taken, gs, hsupply, hlog, hfree, hperm⟩ := h.free hnodup
      rw [hempty, List.append_nil] at hsupply
      rw [hsupply]
      exact ⟨gs, by rw [hfree, hlog], hperm⟩

/-- A pool of four frames is enough for a page. -/
def fourTables : Phys Pool := ⟨fun _ => 0, ⟨[0x1000, 0x2000, 0x3000, 0x4000], []⟩⟩

theorem stage2_exact_page : ∃ s, buildStage2Map 0 0x10000 1 fourTables = (some 0x1000, s) ∧
    s2Walk s.mem 0x1000 5 = some 0x10005 := by
  have hbuild : buildStage2Map 0 0x10000 1 fourTables =
      (some 0x1000, (buildStage2Map 0 0x10000 1 fourTables).2) :=
    Prod.ext (by decide +kernel) rfl
  have hmap := (stage2_exact (fun _ => 0) [0x1000, 0x2000, 0x3000, 0x4000] 0 0x10000 1 (by decide)
    (by decide) (by decide) (by decide) (by decide) (by decide)).2 _ _ hbuild
  exact ⟨_, hbuild, hmap.1 0 (by decide) 5 (by decide)⟩

end StarOS
