import StarOS.Mm.Buddy
import StarOS.Mm.Region

/-!
# Which memory the kernel may use

At boot the kernel lists what is already spoken for, in an array of fixed size, and takes the
largest page-aligned run of a bank that nothing in the list touches. All the memory it ever hands
out comes from that run. What finds the list full is left out of it.

## What is not here

The device tree is what the parser reads off the blob: its size, the `reg` of `/memory`, the initrd
that `/chosen` names, and the two lists of reservations.

## Main definitions

* `DeviceTree`, `buildExclusions`, `surveyMemory`
* `Usable` — what a window has to be
* `Chosen` — which window is taken, without the search for it

## Main results

* `buildExclusions_eq` — what is listed
* `surveyMemory_free` — the search takes the window that is to be chosen
* `surveyMemory_usable_iff` — when the window taken is usable
-/

namespace StarOS

/-- What the parser reads off the device tree blob. Addresses and sizes are `u64`s. -/
structure DeviceTree where
  totalSize : ℕ
  /-- The banks, as base and size. -/
  memory : Option (List (ℕ × ℕ))
  /-- Where the initial ramdisk starts and ends. -/
  initrd : Option (ℕ × ℕ)
  /-- The entries of the reservation block, as base and size. -/
  memoryReservations : List (ℕ × ℕ)
  /-- The `reg` entries under `/reserved-memory`. -/
  reservedMemory : List (ℕ × ℕ)

/-- How many regions are tracked. -/
def maxExclusions : ℕ := 32

/-- Add a region to the list, if it is not empty and the list is not full. -/
def push (out : List PhysRegion) (r : PhysRegion) : List PhysRegion :=
  if !r.isEmpty && decide (out.length < maxExclusions) then out ++ [r] else out

/-- What is spoken for, in the order it is listed: the kernel image, the blob at `dtb`, the initrd,
and the reservations by both mechanisms. -/
def spokenFor (image : PhysRegion) (fdt : DeviceTree) (dtb : ℕ) : List PhysRegion :=
  image :: PhysRegion.new dtb fdt.totalSize :: (fdt.initrd.toList.map fun r => ⟨r.1, r.2⟩) ++
    fdt.memoryReservations.map (fun r => PhysRegion.new r.1 r.2) ++
    fdt.reservedMemory.map fun r => PhysRegion.new r.1 r.2

/-- The list that is made of it. -/
def buildExclusions (image : PhysRegion) (fdt : DeviceTree) (dtb : ℕ) : List PhysRegion :=
  (spokenFor image fdt dtb).foldl push []

/-- The physical memory the kernel may actually use, and the RAM overall. -/
structure MemoryMap where
  /-- Full extent of RAM. -/
  ram : PhysRegion
  /-- Total bytes across all banks, for reporting. -/
  total : ℕ
  /-- The largest run nobody else has claimed. -/
  free : PhysRegion
  deriving DecidableEq, Repr

/-- One bank. -/
def surveyBank (exclusions : List PhysRegion) (map : MemoryMap) (reg : ℕ × ℕ) : MemoryMap :=
  let bank := PhysRegion.new reg.1 reg.2
  if bank.isEmpty then map
  else
    let ram := ⟨min map.ram.start bank.start, max map.ram.limit bank.limit⟩
    let total := (map.total + bank.len) % 2 ^ 64
    match largestFree bank exclusions with
    | some window =>
      let window := window.pageAlignInward pageSize
      if map.free.len < window.len then ⟨ram, total, window⟩ else ⟨ram, total, map.free⟩
    | none => ⟨ram, total, map.free⟩

/-- Work out what memory this machine has and which of it we may use. -/
def surveyMemory (image : PhysRegion) (fdt : DeviceTree) (dtb : ℕ) : Option MemoryMap :=
  match fdt.memory with
  | none => none
  | some banks =>
    let map := banks.foldl (surveyBank (buildExclusions image fdt dtb)) ⟨⟨u64Max, 0⟩, 0, ⟨0, 0⟩⟩
    if map.ram.limit ≤ map.ram.start ∨ map.free.isEmpty then none else some map

/-- What a window has to be: page aligned, inside one bank, and apart from all that is spoken
for. -/
structure Usable (image : PhysRegion) (fdt : DeviceTree) (dtb : ℕ) (w : PhysRegion) : Prop where
  aligned : w.start % pageSize = 0 ∧ w.limit % pageSize = 0
  inBank : ∃ banks, fdt.memory = some banks ∧
    ∃ reg ∈ banks, ∀ x ∈ w, reg.1 ≤ x ∧ x < reg.1 + reg.2
  image : w.Disjoint image
  blob : ∀ x ∈ w, ¬ (dtb ≤ x ∧ x < dtb + fdt.totalSize)
  initrd : ∀ start limit, fdt.initrd = some (start, limit) → ∀ x ∈ w, ¬ (start ≤ x ∧ x < limit)
  reservations : ∀ reg ∈ fdt.memoryReservations, ∀ x ∈ w, ¬ (reg.1 ≤ x ∧ x < reg.1 + reg.2)
  reservedMemory : ∀ reg ∈ fdt.reservedMemory, ∀ x ∈ w, ¬ (reg.1 ≤ x ∧ x < reg.1 + reg.2)

/-- A window, with the number of the bank it is from: what is left, in whole pages, of the first of
the longest runs of the bank that no exclusion touches. -/
structure FreeWindow (banks : List (ℕ × ℕ)) (exclusions : List PhysRegion)
    (w : ℕ × PhysRegion) : Prop where
  from_bank : ∃ reg g, banks[w.1]? = some reg ∧
    Largest (PhysRegion.new reg.1 reg.2) exclusions g ∧ w.2 = g.pageAlignInward pageSize
  nonempty : w.2.start < w.2.limit

/-- Of the windows of the banks, the first of the largest. -/
def Chosen (banks : List (ℕ × ℕ)) (exclusions : List PhysRegion) (w : PhysRegion) : Prop :=
  ∃ i, FirstMax (FreeWindow banks exclusions) (fun w => w.2.len) (fun w => w.1) (i, w)

variable {image w : PhysRegion} {fdt : DeviceTree} {dtb : ℕ} {banks : List (ℕ × ℕ)} {reg : ℕ × ℕ}
  {exclusions : List PhysRegion} {map : MemoryMap}

/-! ### The list -/

/-- **The list holds the first that are not empty**, as many as it has room for. -/
theorem buildExclusions_eq (image : PhysRegion) (fdt : DeviceTree) (dtb : ℕ) :
    buildExclusions image fdt dtb =
      ((spokenFor image fdt dtb).filter fun r => !r.isEmpty).take maxExclusions := by
  have hfold : ∀ (rs out : List PhysRegion), out.length ≤ maxExclusions →
      rs.foldl push out =
        out ++ (rs.filter fun r => !r.isEmpty).take (maxExclusions - out.length) := by
    intro rs
    induction rs with
    | nil =>
      intro out _
      rw [List.foldl_nil, List.filter_nil, List.take_nil, List.append_nil]
    | cons r rs ih =>
      intro out hout
      rw [List.foldl_cons, List.filter_cons]
      cases hr : r.isEmpty with
      | true =>
        have hsame : push out r = out := by
          rw [push, hr]
          rfl
        rw [hsame, ih out hout, Bool.not_true, if_neg Bool.false_ne_true]
      | false =>
        rw [Bool.not_false, if_pos rfl]
        by_cases hfull : out.length < maxExclusions
        · have hpush : push out r = out ++ [r] := by
            rw [push, hr, decide_eq_true hfull]
            rfl
          have hlen : (out ++ [r]).length = out.length + 1 := List.length_append
          have hroom : maxExclusions - out.length = maxExclusions - (out.length + 1) + 1 := by
            omega
          rw [hpush, ih (out ++ [r]) (by omega), hlen, hroom, List.take_succ_cons,
            List.append_assoc, List.singleton_append]
        · have hpush : push out r = out := by
            rw [push, hr, decide_eq_false hfull]
            rfl
          rw [hpush, ih out hout, Nat.sub_eq_zero_of_le (Nat.not_lt.mp hfull), List.take_zero,
            List.take_zero]
  rw [buildExclusions, hfold _ [] (Nat.zero_le _), List.nil_append, List.length_nil, Nat.sub_zero]

/-! ### The window -/

theorem isEmpty_iff_len {r : PhysRegion} : r.isEmpty = true ↔ r.len = 0 := by
  rw [PhysRegion.isEmpty_eq_true, PhysRegion.len, Nat.sub_eq_zero_iff_le]

/-- A bank has one window at most. -/
theorem FreeWindow.inj (w w' : ℕ × PhysRegion) (hw : FreeWindow banks exclusions w)
    (hw' : FreeWindow banks exclusions w') (_hlen : w.2.len = w'.2.len) (hpos : w.1 = w'.1) :
    w = w' := by
  obtain ⟨reg, g, hreg, hg, heq⟩ := hw.from_bank
  obtain ⟨reg', g', hreg', hg', heq'⟩ := hw'.from_bank
  rw [hpos, hreg'] at hreg
  obtain rfl := Option.some.inj hreg
  have hgg : g = g' := FirstMax.unique FreeIn.inj hg hg'
  exact Prod.ext hpos (by rw [heq, heq', hgg])

/-- The windows of one more bank. -/
theorem freeWindow_append {v : ℕ × PhysRegion} : FreeWindow (banks ++ [reg]) exclusions v ↔
    FreeWindow banks exclusions v ∨ v.1 = banks.length ∧ v.2.start < v.2.limit ∧
      ∃ g, largestFree (PhysRegion.new reg.1 reg.2) exclusions = some g ∧
        v.2 = g.pageAlignInward pageSize := by
  constructor
  · rintro ⟨⟨reg', g, hreg, hg, heq⟩, hne⟩
    rcases Nat.lt_trichotomy v.1 banks.length with hlt | hlast | hgt
    · rw [List.getElem?_append_left hlt] at hreg
      exact .inl ⟨⟨reg', g, hreg, hg, heq⟩, hne⟩
    · rw [hlast, List.getElem?_concat_length] at hreg
      obtain rfl := Option.some.inj hreg
      exact .inr ⟨hlast, hne, g, largestFree_eq_some.mpr hg, heq⟩
    · rw [List.getElem?_eq_none (by rw [List.length_append, List.length_singleton]; omega)] at hreg
      cases hreg
  · rintro (⟨⟨reg', g, hreg, hg, heq⟩, hne⟩ | ⟨hlast, hne, g, hg, heq⟩)
    · have hlt := (List.getElem?_eq_some_iff.mp hreg).1
      exact ⟨⟨reg', g, by rw [List.getElem?_append_left hlt, hreg], hg, heq⟩, hne⟩
    · refine ⟨⟨reg, g, ?_, largestFree_eq_some.mp hg, heq⟩, hne⟩
      rw [hlast, List.getElem?_concat_length]

/-- The best window so far, as the map has it. -/
structure Found (o : Option (ℕ × PhysRegion)) (map : MemoryMap) : Prop where
  free : map.free = (o.map Prod.snd).getD ⟨0, 0⟩
  ram : o.isSome = true → map.ram.start < map.ram.limit

/-- Nothing is met in a bank. -/
theorem Found.pick_none {o : Option (ℕ × PhysRegion)} (h : Found o map) :
    Found (FirstMax.pick (fun v => v.2.len) o none) map := by
  cases o with
  | none => exact h
  | some v => exact h

/-- What one bank adds to the search. -/
theorem Found.surveyBank {o : Option (ℕ × PhysRegion)} (h : Found o map)
    (exclusions : List PhysRegion) (reg : ℕ × ℕ) (n : ℕ) :
    ∃ o', FirstMax.Best (fun v => v.1 = n ∧ v.2.start < v.2.limit ∧
        ∃ g, largestFree (PhysRegion.new reg.1 reg.2) exclusions = some g ∧
          v.2 = g.pageAlignInward pageSize) (fun v => v.2.len) (fun v => v.1) o' ∧
      Found (FirstMax.pick (fun v => v.2.len) o o') (surveyBank exclusions map reg) := by
  by_cases hbank : (PhysRegion.new reg.1 reg.2).isEmpty = true
  · refine ⟨none, ?_, ?_⟩
    · rintro v ⟨-, -, g, hg, -⟩
      have hfree := (largestFree_eq_some.mp hg).holds
      have hbounds := hfree.bounds
      have hpos := hfree.nonempty
      have hempty := PhysRegion.isEmpty_eq_true.mp hbank
      omega
    · rw [StarOS.surveyBank, if_pos hbank]
      exact h.pick_none
  · have hpos := PhysRegion.isEmpty_eq_false.mp (Bool.eq_false_iff.mpr hbank)
    have hram : min map.ram.start (PhysRegion.new reg.1 reg.2).start <
        max map.ram.limit (PhysRegion.new reg.1 reg.2).limit :=
      Nat.lt_of_le_of_lt (Nat.min_le_right _ _) (Nat.lt_of_lt_of_le hpos (Nat.le_max_right _ _))
    rw [StarOS.surveyBank, if_neg hbank]
    cases hg : largestFree (PhysRegion.new reg.1 reg.2) exclusions with
    | none =>
      refine ⟨none, ?_, Found.pick_none ⟨h.free, fun _ => hram⟩⟩
      rintro v ⟨-, -, g, hg', -⟩
      cases hg'
    | some g =>
      dsimp only
      by_cases hw : (g.pageAlignInward pageSize).isEmpty = true
      · refine ⟨none, ?_, ?_⟩
        · rintro v ⟨-, hne, g', hg', heq⟩
          obtain rfl := Option.some.inj hg'
          have hempty := PhysRegion.isEmpty_eq_true.mp hw
          rw [heq] at hne
          omega
        · rw [if_neg (by rw [isEmpty_iff_len.mp hw]; exact Nat.not_lt_zero _)]
          exact Found.pick_none ⟨h.free, fun _ => hram⟩
      · have hne := PhysRegion.isEmpty_eq_false.mp (Bool.eq_false_iff.mpr hw)
        refine ⟨some (n, g.pageAlignInward pageSize), ⟨⟨rfl, hne, g, rfl, rfl⟩, ?_, ?_⟩, ?_⟩
        · rintro v ⟨-, -, g', hg', heq⟩
          obtain rfl := Option.some.inj hg'
          rw [heq]
        · rintro v ⟨hv, -⟩ -
          exact Nat.le_of_eq hv.symm
        · cases o with
          | none =>
            have hfree : map.free = ⟨0, 0⟩ := h.free
            have hlt : map.free.len < (g.pageAlignInward pageSize).len := by
              rw [hfree, PhysRegion.len, PhysRegion.len]
              dsimp only
              omega
            rw [if_pos hlt]
            exact ⟨rfl, fun _ => hram⟩
          | some v =>
            have hfree : map.free = v.2 := h.free
            rw [FirstMax.pick, hfree]
            by_cases hlt : v.2.len < (g.pageAlignInward pageSize).len
            · rw [if_pos hlt, if_pos hlt]
              exact ⟨rfl, fun _ => hram⟩
            · rw [if_neg hlt, if_neg hlt]
              exact ⟨rfl, fun _ => hram⟩

/-- **The survey keeps the best window of the banks it has seen.** -/
theorem survey_spec (exclusions : List PhysRegion) (banks : List (ℕ × ℕ)) :
    ∃ o, FirstMax.Best (FreeWindow banks exclusions) (fun v => v.2.len) (fun v => v.1) o ∧
      Found o (banks.foldl (surveyBank exclusions) ⟨⟨u64Max, 0⟩, 0, ⟨0, 0⟩⟩) := by
  induction banks using List.reverseRecOn with
  | nil =>
    refine ⟨none, ?_, rfl, fun h => ?_⟩
    · rintro v ⟨⟨reg, g, hreg, -⟩, -⟩
      cases hreg
    · cases h
  | append_singleton banks reg ih =>
    obtain ⟨o, ho, hfound⟩ := ih
    obtain ⟨o', ho', hfound'⟩ := hfound.surveyBank exclusions reg banks.length
    rw [List.foldl_append]
    refine ⟨_, ho.pick ho' ?_ fun v => freeWindow_append, hfound'⟩
    rintro v v' ⟨⟨reg', g, hreg, -⟩, -⟩ ⟨hlast, -⟩
    rw [hlast]
    exact Nat.le_of_lt (List.getElem?_eq_some_iff.mp hreg).1

/-- **The window that is taken** is the one to be chosen. -/
theorem surveyMemory_free : (∃ map, surveyMemory image fdt dtb = some map ∧ map.free = w) ↔
    ∃ banks, fdt.memory = some banks ∧ Chosen banks (buildExclusions image fdt dtb) w := by
  rw [surveyMemory]
  cases fdt.memory with
  | none =>
    constructor
    · rintro ⟨map, hmap, -⟩
      cases hmap
    · rintro ⟨banks, hbanks, -⟩
      cases hbanks
  | some banks =>
    obtain ⟨o, ho, hfree, hram⟩ := survey_spec (buildExclusions image fdt dtb) banks
    dsimp only
    have hinj := @FreeWindow.inj banks (buildExclusions image fdt dtb)
    cases o with
    | none =>
      have hempty : PhysRegion.isEmpty ⟨0, 0⟩ = true := rfl
      rw [hfree, if_pos (.inr hempty)]
      constructor
      · rintro ⟨map, hmap, -⟩
        cases hmap
      · rintro ⟨banks', hbanks, i, hchosen⟩
        obtain rfl := Option.some.inj hbanks
        exact absurd hchosen.holds (ho _)
    | some v =>
      have hne := PhysRegion.isEmpty_eq_false.mpr ho.holds.nonempty
      have hfree' : (banks.foldl (surveyBank (buildExclusions image fdt dtb))
          ⟨⟨u64Max, 0⟩, 0, ⟨0, 0⟩⟩).free = v.2 := hfree
      rw [hfree', if_neg]
      · constructor
        · rintro ⟨map, hmap, rfl⟩
          obtain rfl := Option.some.inj hmap
          exact ⟨banks, rfl, v.1, by rw [hfree']; exact ho⟩
        · rintro ⟨banks', hbanks, i, hchosen⟩
          obtain rfl := Option.some.inj hbanks
          refine ⟨_, rfl, ?_⟩
          rw [hfree', FirstMax.unique hinj ho hchosen]
      · rintro (hle | hempty)
        · exact absurd (hram rfl) (Nat.not_lt.mpr hle)
        · rw [hne] at hempty
          cases hempty

/-! ### Whether it is usable -/

/-- What the chosen window is apart from the list. -/
theorem Chosen.spec (h : Chosen banks exclusions w) :
    (w.start % pageSize = 0 ∧ w.limit % pageSize = 0) ∧
    (∃ reg ∈ banks, ∀ x ∈ w, x ∈ PhysRegion.new reg.1 reg.2) ∧ ∀ ex ∈ exclusions, w.Disjoint ex := by
  obtain ⟨i, h⟩ := h
  obtain ⟨reg, g, hreg, hg, heq⟩ := h.holds.from_bank
  dsimp only at heq
  have hpage : 0 < pageSize := by decide
  obtain ⟨hstart, hlimit, hsub⟩ := PhysRegion.pageAlignInward_spec hpage g
  rw [← heq] at hstart hlimit hsub
  refine ⟨⟨hstart, hlimit⟩, ⟨reg, List.mem_of_getElem? hreg, fun x hx => ?_⟩, fun ex hex x hx => ?_⟩
  · exact hg.holds.inside x (hsub x hx)
  · exact hg.holds.apart ex hex x (hsub x hx)

theorem mem_new {start len x : ℕ} (hx : x < u64Max) :
    x ∈ PhysRegion.new start len ↔ start ≤ x ∧ x < start + len := by
  rw [PhysRegion.mem_iff, PhysRegion.new, Nat.lt_min]
  exact and_congr_right fun _ => and_iff_left hx

/-- A window of a bank is usable if it is apart from all that is spoken for. -/
theorem usable_iff (haligned : w.start % pageSize = 0 ∧ w.limit % pageSize = 0)
    (hbanks : fdt.memory = some banks)
    (hbank : ∃ reg ∈ banks, ∀ x ∈ w, x ∈ PhysRegion.new reg.1 reg.2) :
    Usable image fdt dtb w ↔ ∀ r ∈ spokenFor image fdt dtb, w.Disjoint r := by
  obtain ⟨reg, hreg, hinside⟩ := hbank
  have hlt : ∀ x ∈ w, x < u64Max := fun x hx =>
    Nat.lt_of_lt_of_le (PhysRegion.mem_iff.mp (hinside x hx)).2 (Nat.min_le_right _ _)
  constructor
  · rintro h r hr x hx hin
    rw [spokenFor, List.mem_append, List.mem_append, List.mem_cons, List.mem_cons] at hr
    rcases hr with ((rfl | rfl | hr) | hr) | hr
    · exact h.image x hx hin
    · exact h.blob x hx ((mem_new (hlt x hx)).mp hin)
    · obtain ⟨⟨start, limit⟩, hsome, rfl⟩ := List.mem_map.mp hr
      exact h.initrd start limit (Option.mem_toList.mp hsome) x hx (PhysRegion.mem_iff.mp hin)
    · obtain ⟨reg, hreg, rfl⟩ := List.mem_map.mp hr
      exact h.reservations reg hreg x hx ((mem_new (hlt x hx)).mp hin)
    · obtain ⟨reg, hreg, rfl⟩ := List.mem_map.mp hr
      exact h.reservedMemory reg hreg x hx ((mem_new (hlt x hx)).mp hin)
  · intro h
    have hmem : ∀ {r}, r ∈ spokenFor image fdt dtb ↔
        ((r = image ∨ r = PhysRegion.new dtb fdt.totalSize ∨
          r ∈ fdt.initrd.toList.map fun r => (⟨r.1, r.2⟩ : PhysRegion)) ∨
          r ∈ fdt.memoryReservations.map fun r => PhysRegion.new r.1 r.2) ∨
          r ∈ fdt.reservedMemory.map fun r => PhysRegion.new r.1 r.2 := by
      intro r
      rw [spokenFor, List.mem_append, List.mem_append, List.mem_cons, List.mem_cons]
    refine ⟨haligned, ⟨banks, hbanks, reg, hreg, fun x hx => ?_⟩, ?_, ?_, ?_, ?_, ?_⟩
    · exact (mem_new (hlt x hx)).mp (hinside x hx)
    · exact h image (hmem.mpr (.inl (.inl (.inl rfl))))
    · intro x hx hin
      exact h _ (hmem.mpr (.inl (.inl (.inr (.inl rfl))))) x hx ((mem_new (hlt x hx)).mpr hin)
    · intro start limit hinitrd x hx hin
      have hlist := List.mem_map_of_mem (f := fun r => (⟨r.1, r.2⟩ : PhysRegion))
        (Option.mem_toList.mpr hinitrd)
      exact h _ (hmem.mpr (.inl (.inl (.inr (.inr hlist))))) x hx (PhysRegion.mem_iff.mpr hin)
    · intro reg hreg x hx hin
      have hlist := List.mem_map_of_mem (f := fun r => PhysRegion.new r.1 r.2) hreg
      exact h _ (hmem.mpr (.inl (.inr hlist))) x hx ((mem_new (hlt x hx)).mpr hin)
    · intro reg hreg x hx hin
      have hlist := List.mem_map_of_mem (f := fun r => PhysRegion.new r.1 r.2) hreg
      exact h _ (hmem.mpr (.inr hlist)) x hx ((mem_new (hlt x hx)).mpr hin)

/-- What the list has no room for. -/
def leftOut (image : PhysRegion) (fdt : DeviceTree) (dtb : ℕ) : List PhysRegion :=
  ((spokenFor image fdt dtb).filter fun r => !r.isEmpty).drop maxExclusions

/-- **When the window taken is usable**: when it is apart from what the list had no room for. -/
theorem surveyMemory_usable_iff (image : PhysRegion) (fdt : DeviceTree) (dtb : ℕ) :
    (∀ map, surveyMemory image fdt dtb = some map → Usable image fdt dtb map.free) ↔
      ∀ banks w, fdt.memory = some banks →
        Chosen banks
          (((spokenFor image fdt dtb).filter fun r => !r.isEmpty).take maxExclusions) w →
        ∀ r ∈ leftOut image fdt dtb, w.Disjoint r := by
  rw [← buildExclusions_eq]
  constructor
  · intro h banks w hbanks hchosen r hr
    obtain ⟨map, hmap, rfl⟩ := surveyMemory_free.mpr ⟨banks, hbanks, hchosen⟩
    obtain ⟨haligned, hbank, -⟩ := hchosen.spec
    have husable := (usable_iff haligned hbanks hbank).mp (h map hmap)
    exact husable r (List.mem_filter.mp (List.mem_of_mem_drop hr)).1
  · intro h map hmap
    obtain ⟨banks, hbanks, hchosen⟩ := surveyMemory_free.mp ⟨map, hmap, rfl⟩
    obtain ⟨haligned, hbank, hlisted⟩ := hchosen.spec
    refine (usable_iff haligned hbanks hbank).mpr fun r hr => ?_
    by_cases hempty : r.isEmpty = true
    · exact PhysRegion.disjoint_of_isEmpty hempty
    · have hin : r ∈ (spokenFor image fdt dtb).filter fun r => !r.isEmpty :=
        List.mem_filter.mpr ⟨hr, by rw [Bool.eq_false_iff.mpr hempty]; rfl⟩
      rw [← List.take_append_drop maxExclusions ((spokenFor image fdt dtb).filter _),
        ← buildExclusions_eq] at hin
      rcases List.mem_append.mp hin with hin | hin
      · exact hlisted r hin
      · exact h banks map.free hbanks hchosen r hin

/-- A machine with 128 MiB, and 31 reservations, the last of them in the largest run. -/
def crowded : DeviceTree where
  totalSize := 0x100000
  memory := some [(0x40000000, 0x8000000)]
  initrd := none
  memoryReservations := []
  reservedMemory :=
    (List.range 30).map (fun i => (0x41000000 + i * 0x20000, 0x10000)) ++ [(0x46000000, 0x100000)]

/-- The image and the blob take two places of the list, and the last reservation finds none. -/
theorem surveyMemory_not_usable : ∃ map,
    surveyMemory ⟨0x40080000, 0x40800000⟩ crowded 0x44000000 = some map ∧
      ¬ Usable ⟨0x40080000, 0x40800000⟩ crowded 0x44000000 map.free := by
  have hmap : (surveyMemory ⟨0x40080000, 0x40800000⟩ crowded 0x44000000).map (·.free) =
      some ⟨0x44100000, 0x48000000⟩ := by decide +kernel
  obtain ⟨map, hsome, hfree⟩ := Option.map_eq_some_iff.mp hmap
  refine ⟨map, hsome, fun husable => ?_⟩
  have hin : (0x46000000 : ℕ) ∈ map.free := by
    rw [hfree]
    exact PhysRegion.mem_iff.mpr (by decide)
  exact husable.reservedMemory (0x46000000, 0x100000) (by decide) _ hin (by decide)

end StarOS
