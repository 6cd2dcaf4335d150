import StarOS.Lib.Bits
import StarOS.Lib.Bytes

/-!
# The blob of a device tree

A flattened device tree is one region of memory: a header that says where the others are, a block of
reserved regions, a block of tokens and a block of the strings these refer to. It comes from the
firmware, so every number in it may be anything. All of them are big-endian.

## Main definitions

* `Fdt.readBeU32`, `Fdt.readBeU64`, `Fdt.readCells`, `Fdt.align4` — numbers in a slice
* `Fdt.Blob`, `Fdt.Blob.stringAt`
* `Fdt.new` — the header
* `Fdt.MemoryReservations.next`

## Main results

* `Fdt.readBeU32_eq`, `Fdt.wp_readCells`, `Fdt.wp_stringAt` — reads stay in the slice
* `Fdt.wp_new` — on any bytes the header is accepted or refused, and what is accepted lies in the
  slice
* `Fdt.MemoryReservations.finite_next`
-/

namespace StarOS

namespace Fdt

open Checked

def magic : ℕ := 0xd00dfeed

def minCompatibleVersion : ℕ := 16

/-- Header length in bytes. -/
def headerLen : ℕ := 40

/-- Why a blob could not be parsed. -/
inductive FdtError
  | badMagic
  | unsupportedVersion
  | truncated
  | badStructure
  | badString
  | tooDeep
  deriving DecidableEq, Repr

/-! ### Numbers -/

variable {σ : Type}

/-- A big-endian `u32`. -/
def readBeU32 (data : Slice) (offset : ℕ) : Checked σ Unit (BitVec 32) := do
  let stop ← ofOption () (checkedAdd 64 offset 4)
  let bytes ← ofOption () (data.get offset stop)
  let b0 ← index bytes.bytes 0
  let b1 ← index bytes.bytes 1
  let b2 ← index bytes.bytes 2
  let b3 ← index bytes.bytes 3
  return b0.toBitVec ++ b1.toBitVec ++ b2.toBitVec ++ b3.toBitVec

/-- A big-endian `u64`. -/
def readBeU64 (data : Slice) (offset : ℕ) : Checked σ Unit (BitVec 64) := do
  let hi ← readBeU32 data offset
  let lo ← readBeU32 data (← ofOption () (checkedAdd 64 offset 4))
  return hi.setWidth 64 <<< 32 ||| lo.setWidth 64

/-- Round up to the next multiple of 4. -/
def align4 (value : ℕ) : Option ℕ := (checkedAdd 64 value 3).map fun v => v &&& (2 ^ 64 - 4)

/-- One more cell of a number: what the shift pushes out is lost. -/
def pushCell (data : Slice) (offset : ℕ) (value : BitVec 64) (i : ℕ) :
    Checked σ Unit (BitVec 64) := do
  let at_ ← ofOption () (checkedMul 64 i 4)
  let cell ← readBeU32 data (← ofOption () (checkedAdd 64 offset at_))
  return value <<< 32 ||| cell.setWidth 64

/-- `n` big-endian cells, the most significant first. -/
def readCells (data : Slice) (offset : ℕ) (n : BitVec 32) : Checked σ Unit (BitVec 64) :=
  (List.range n.toNat).foldlM (pushCell data offset) 0

/-- The byte at an offset that is in the slice. -/
def byteAt (data : Slice) (i : ℕ) : BitVec 8 := (data.bytes.getD i 0).toBitVec

/-- What there is to read. -/
def beU32 (data : Slice) (offset : ℕ) : Option (BitVec 32) :=
  if offset + 4 ≤ data.len then
    some (byteAt data offset ++ byteAt data (offset + 1) ++ byteAt data (offset + 2) ++
      byteAt data (offset + 3))
  else none

variable {data bytes : Slice} {offset a b i : ℕ} {s : σ} {F : Unit → σ → Prop}

theorem index_of_get (h : data.get a b = some bytes) (hi : i < b - a) {x : ℕ} (hx : x = a + i) :
    (index bytes.bytes i : Checked σ Unit UInt8) = pure (data.bytes.getD x 0) := by
  subst hx
  obtain ⟨⟨hab, hb⟩, hbytes⟩ := Slice.get_eq_some.mp h
  have hin : a + i < data.bytes.length := by
    rw [Slice.length_bytes]
    omega
  have hget : bytes.bytes[i]? = some (data.bytes.getD (a + i) 0) := by
    rw [hbytes, List.extract_eq_take_drop, List.getElem?_take_of_lt hi, List.getElem?_drop,
      List.getElem?_eq_getElem hin, List.getD_eq_getElem _ _ hin]
  rw [index, hget]

theorem ofOption_some {ε α : Type} (e : ε) (x : α) :
    (ofOption e (some x) : Checked σ ε α) = pure x := rfl

/-- **Reading a number stays in the slice.** -/
theorem readBeU32_eq (data : Slice) (offset : ℕ) :
    (readBeU32 data offset : Checked σ Unit (BitVec 32)) = ofOption () (beU32 data offset) := by
  have hlen := data.len_lt
  rw [readBeU32, beU32]
  split
  · next hle =>
    rw [checkedAdd_of_lt (by omega), ofOption_some, pure_bind]
    cases hget : data.get offset (offset + 4) with
    | none => exact absurd ⟨Nat.le_add_right _ _, hle⟩ (Slice.get_eq_none.mp hget)
    | some bytes =>
      rw [ofOption_some, pure_bind, index_of_get hget (by omega) rfl, pure_bind,
        index_of_get hget (by omega) rfl, pure_bind, index_of_get hget (by omega) rfl, pure_bind,
        index_of_get hget (by omega) rfl, pure_bind]
      rfl
  · next hlt =>
    cases hadd : checkedAdd 64 offset 4 with
    | none => rfl
    | some stop =>
      obtain ⟨-, rfl⟩ := checkedAdd_eq_some.mp hadd
      rw [ofOption_some, pure_bind, Slice.get_eq_none.mpr fun h => hlt h.2]
      rfl

theorem beU32_eq_some {v : BitVec 32} (h : beU32 data offset = some v) : offset + 4 ≤ data.len := by
  rw [beU32] at h
  split at h
  · assumption
  · cases h

/-- A number is read, or it is not all there. -/
theorem wp_readBeU32 {Q : BitVec 32 → σ → Prop} :
    wp False (readBeU32 data offset) Q F s ↔
      (∀ v, beU32 data offset = some v → Q v s) ∧ (beU32 data offset = none → F () s) := by
  rw [readBeU32_eq, wp_ofOption]

theorem wp_readBeU64 {Q : BitVec 64 → σ → Prop}
    (h : ∀ v, offset + 8 ≤ data.len → Q v s) (hF : F () s) :
    wp False (readBeU64 data offset) Q F s := by
  rw [readBeU64, wp_bind, wp_readBeU32]
  refine ⟨fun hi _ => ?_, fun _ => hF⟩
  rw [wp_bind, wp_ofOption]
  refine ⟨fun next hnext => ?_, fun _ => hF⟩
  obtain ⟨-, rfl⟩ := checkedAdd_eq_some.mp hnext
  rw [wp_bind, wp_readBeU32]
  refine ⟨fun lo hlo => ?_, fun _ => hF⟩
  have hle := beU32_eq_some hlo
  exact (wp_pure _).mpr (h _ (by omega))

theorem align4_eq_some {n v : ℕ} (h : align4 n = some v) : n ≤ v ∧ v ≤ n + 3 ∧ v % 4 = 0 := by
  obtain ⟨w, hw, rfl⟩ := Option.map_eq_some_iff.mp h
  obtain ⟨hlt, rfl⟩ := checkedAdd_eq_some.mp hw
  rw [show (2 : ℕ) ^ 64 - 4 = 2 ^ 64 - 2 ^ 2 from rfl, Bits.and_not_low hlt (by decide)]
  omega

/-- Cells are read one after the other, and all of them are in the slice. -/
theorem wp_readCells {n : BitVec 32} {Q : BitVec 64 → σ → Prop}
    (h : ∀ v, (n ≠ 0 → offset + 4 * n.toNat ≤ data.len) → Q v s) (hF : F () s) :
    wp False (readCells data offset n) Q F s := by
  have hn := n.isLt
  have hrange : wp False (readCells data offset n) (fun _ s' => s' = s ∧
      (n ≠ 0 → offset + 4 * n.toNat ≤ data.len)) (fun _ s' => s' = s) s := by
    rw [readCells]
    refine wp_mono (wp_foldlM (fun done _ s' => s' = s ∧
      (done ≠ [] → offset + 4 * done.length ≤ data.len)) (fun done i v s' hdone hI => ?_) ?_)
      (fun v s' hI => ⟨hI.1, fun hn => ?_⟩) fun _ _ h => h
    · obtain ⟨rfl, -⟩ := hI
      obtain rfl : i = done.length := by
        obtain ⟨rest, hrest⟩ := hdone
        have hget := congrArg (·[done.length]?) hrest
        rw [List.append_assoc, List.getElem?_append_right le_rfl, Nat.sub_self] at hget
        obtain ⟨hlt, hi⟩ := List.getElem?_eq_some_iff.mp hget.symm
        rw [List.getElem_range] at hi
        exact hi.symm
      rw [pushCell, wp_bind, wp_ofOption]
      refine ⟨fun at_ hat => ?_, fun _ => rfl⟩
      obtain ⟨-, rfl⟩ := checkedMul_eq_some.mp hat
      rw [wp_bind, wp_ofOption]
      refine ⟨fun start hstart => ?_, fun _ => rfl⟩
      obtain ⟨-, rfl⟩ := checkedAdd_eq_some.mp hstart
      rw [wp_bind, wp_readBeU32]
      refine ⟨fun cell hcell => ?_, fun _ => rfl⟩
      have hle := beU32_eq_some hcell
      refine (wp_pure _).mpr ⟨rfl, fun _ => ?_⟩
      rw [List.length_append, List.length_singleton]
      omega
    · exact ⟨rfl, fun hne => absurd rfl hne⟩
    · have hle := hI.2 (by
        intro hnil
        have := congrArg List.length hnil
        rw [List.length_range] at this
        exact hn (BitVec.eq_of_toNat_eq this))
      rwa [List.length_range] at hle
  exact wp_mono hrange (fun v s' hv => hv.1 ▸ h v hv.2) fun _ s' hs => hs ▸ hF

/-! ### The blob -/

/-- The pieces of a blob that everything else borrows. -/
structure Blob where
  data : Slice
  /-- The block of tokens, within `data`. -/
  structStart : ℕ
  structEnd : ℕ
  /-- The block of strings, within `data`. -/
  stringsStart : ℕ
  stringsEnd : ℕ
  deriving DecidableEq

/-- Where the first NUL is. -/
def position (region : Slice) : Option ℕ := region.bytes.findIdx? (· == 0)

theorem position_lt {region : Slice} {len : ℕ} (h : position region = some len) :
    len < region.len := by
  obtain ⟨hlt, -⟩ := List.findIdx?_eq_some_iff_getElem.mp h
  exact hlt

/-- Up to the first NUL, or all there is. -/
theorem getD_position_le (region : Slice) : (position region).getD region.len ≤ region.len := by
  cases hp : position region with
  | none => exact le_rfl
  | some len => exact (position_lt hp).le

/-- A region begins with a text of `len` bytes and a NUL. -/
structure Cstr (region : Slice) (len : ℕ) (name : String) : Prop where
  stop : position region = some len
  text : utf8 name = region.bytes.take len

theorem Cstr.unique {region : Slice} {len len' : ℕ} {name name' : String}
    (h : Cstr region len name) (h' : Cstr region len' name') : len = len' ∧ name = name' := by
  have hstop := h'.stop
  rw [h.stop, Option.some.injEq] at hstop
  subst hstop
  exact ⟨rfl, utf8_injective (h.text.trans h'.text.symm)⟩

theorem Cstr.text_part {region : Slice} {len : ℕ} {name : String} (h : Cstr region len name) :
    utf8 name <:+: region.bytes := by
  rw [h.text]
  exact (List.take_prefix _ _).isInfix

/-- Reading the text at the beginning of a region. -/
theorem wp_cstr {region : Slice} {len : ℕ} {e : FdtError} (hlen : position region = some len)
    {Q : String → σ → Prop} {F : FdtError → σ → Prop} (h : ∀ name, Cstr region len name → Q name s)
    (hF : (∀ name, ¬Cstr region len name) → F e s) :
    wp False (region.range 0 len)
      (fun head s' => wp False (ofOption e (fromUtf8 head.bytes)) Q F s') F s := by
  have hlt := position_lt hlen
  obtain ⟨head, hhead⟩ : ∃ head, region.get 0 len = some head :=
    Option.ne_none_iff_exists'.mp fun hn => Slice.get_eq_none.mp hn ⟨Nat.zero_le _, hlt.le⟩
  obtain ⟨-, hbytes⟩ := Slice.get_eq_some.mp hhead
  rw [List.extract_eq_take_drop, List.drop_zero, Nat.sub_zero] at hbytes
  rw [Slice.wp_range]
  refine ⟨head, hhead, ?_⟩
  rw [wp_ofOption]
  refine ⟨fun name hname => h name ⟨hlen, ?_⟩, fun hnone => hF fun name hc => ?_⟩
  · rw [fromUtf8_eq_some.mp hname, hbytes]
  · have hsome := fromUtf8_eq_some.mpr (hc.text.trans hbytes.symm)
    rw [hnone] at hsome
    cases hsome

/-- A string of the strings block, by its offset. -/
def Blob.stringAt (b : Blob) (offset : ℕ) : Checked σ FdtError String := do
  let start ← ofOption .truncated (checkedAdd 64 b.stringsStart offset)
  let region ← ofOption .truncated (b.data.get start b.stringsEnd)
  let len ← ofOption .badStructure (position region)
  let head ← region.range 0 len
  ofOption .badString (fromUtf8 head.bytes)

/-- A string of the strings block. -/
def Blob.StringAt (b : Blob) (offset : ℕ) (name : String) : Prop :=
  ∃ region len, b.data.get (b.stringsStart + offset) b.stringsEnd = some region ∧
    Cstr region len name

theorem Blob.StringAt.text_part {b : Blob} {offset : ℕ} {name : String}
    (h : b.StringAt offset name) : utf8 name <:+: b.data.bytes := by
  obtain ⟨region, len, hregion, hname⟩ := h
  exact hname.text_part.trans (Slice.get_infix hregion)

theorem Blob.StringAt.unique {b : Blob} {offset : ℕ} {name name' : String}
    (h : b.StringAt offset name) (h' : b.StringAt offset name') : name = name' := by
  obtain ⟨region, len, hregion, hname⟩ := h
  obtain ⟨region', len', hregion', hname'⟩ := h'
  rw [hregion, Option.some.injEq] at hregion'
  subst hregion'
  exact (hname.unique hname').2

/-- The string at an offset is read, if there is one. -/
theorem wp_stringAt (b : Blob) (offset : ℕ) {Q : String → σ → Prop} {F : FdtError → σ → Prop}
    (h : ∀ name, b.StringAt offset name → Q name s)
    (hF : (∀ name, ¬b.StringAt offset name) → ∀ e, F e s) : wp False (b.stringAt offset) Q F s := by
  have hnone : ∀ {start}, checkedAdd 64 b.stringsStart offset = some start →
      ∀ region, b.data.get start b.stringsEnd = some region → (∀ len name, ¬Cstr region len name) →
        ∀ name, ¬b.StringAt offset name := by
    rintro start hstart region hregion hno name ⟨region', len', hregion', hname⟩
    obtain ⟨-, rfl⟩ := checkedAdd_eq_some.mp hstart
    rw [hregion, Option.some.injEq] at hregion'
    subst hregion'
    exact hno len' name hname
  rw [Blob.stringAt, wp_bind, wp_ofOption]
  refine ⟨fun start hstart => ?_, fun hover => hF ?_ _⟩
  · obtain ⟨-, rfl⟩ := checkedAdd_eq_some.mp hstart
    rw [wp_bind, wp_ofOption]
    refine ⟨fun region hregion => ?_, fun hget => hF ?_ _⟩
    · rw [wp_bind, wp_ofOption]
      refine ⟨fun len hlen => ?_, fun hpos => hF (hnone hstart region hregion ?_) _⟩
      · rw [wp_bind]
        refine wp_cstr hlen (fun name hname => h name ⟨region, len, hregion, hname⟩) fun hno => ?_
        refine hF (hnone hstart region hregion fun len' name hname => ?_) _
        have hstop := hname.stop
        rw [hlen, Option.some.injEq] at hstop
        exact hno name (hstop ▸ hname)
      · intro len name hname
        have hstop := hname.stop
        rw [hpos] at hstop
        cases hstop
    · rintro name ⟨region, len, hregion, -⟩
      rw [hget] at hregion
      cases hregion
  · rintro name ⟨region, len, hregion, -⟩
    obtain ⟨⟨hle, hend⟩, -⟩ := Slice.get_eq_some.mp hregion
    have hlen := b.data.len_lt
    rw [checkedAdd_of_lt (by omega)] at hover
    cases hover

theorem Blob.StringAt.wp {b : Blob} {offset : ℕ} {name : String} (h : b.StringAt offset name)
    {Q : String → σ → Prop} {F : FdtError → σ → Prop} (hQ : Q name s) :
    wp False (b.stringAt offset) Q F s :=
  wp_stringAt b offset (fun _ h' => h.unique h' ▸ hQ) fun hno => absurd h (hno name)

/-- Everything a blob refers to lies in it. -/
structure Blob.Sound (b : Blob) : Prop where
  start_le : b.structStart ≤ b.structEnd
  struct_le : b.structEnd ≤ b.data.len
  strings_le : b.stringsEnd ≤ b.data.len

end Fdt

/-- A device tree that was accepted. -/
structure Fdt where
  blob : Fdt.Blob
  memRsvmap : ℕ
  bootCpuid : BitVec 32

namespace Fdt

open Checked

variable {σ : Type} {s : σ}

/-- What is not there is cut off. -/
def truncated {α : Type} (x : Checked σ Unit α) : Checked σ FdtError α :=
  mapErr (fun _ => .truncated) x

/-- Read the header and check every offset it declares. -/
def new (data : Slice) : Checked σ FdtError Fdt := do
  let magic' ← truncated (readBeU32 data 0)
  require (magic'.toNat = magic) .badMagic
  let totalsize := (← truncated (readBeU32 data 4)).toNat
  require (¬(totalsize < headerLen ∨ totalsize > data.len)) .truncated
  -- what is behind the blob is padding
  let data ← data.range 0 totalsize
  let offDtStruct := (← truncated (readBeU32 data 8)).toNat
  let offDtStrings := (← truncated (readBeU32 data 12)).toNat
  let offMemRsvmap := (← truncated (readBeU32 data 16)).toNat
  let lastCompVersion ← truncated (readBeU32 data 24)
  let bootCpuid ← truncated (readBeU32 data 28)
  let sizeDtStrings := (← truncated (readBeU32 data 32)).toNat
  let sizeDtStruct := (← truncated (readBeU32 data 36)).toNat
  require (lastCompVersion.toNat ≤ minCompatibleVersion) .unsupportedVersion
  let structEnd ← ofOption .truncated (checkedAdd 64 offDtStruct sizeDtStruct)
  let stringsEnd ← ofOption .truncated (checkedAdd 64 offDtStrings sizeDtStrings)
  require (¬(structEnd > totalsize ∨ stringsEnd > totalsize ∨ offMemRsvmap ≥ totalsize)) .truncated
  return ⟨⟨data, offDtStruct, structEnd, offDtStrings, stringsEnd⟩, offMemRsvmap, bootCpuid⟩

/-- What holds of a tree that was accepted: it is the beginning of the slice, and what the header
declares lies in it. -/
structure Sound (data : Slice) (f : Fdt) : Prop where
  blob : f.blob.Sound
  part : f.blob.data.bytes <:+: data.bytes
  rsvmap : f.memRsvmap < f.blob.data.len

/-- **On any bytes at all** the header is accepted or refused. -/
theorem wp_new (data : Slice) :
    wp False (new data) (fun f s' => s' = s ∧ f.Sound data) (fun _ s' => s' = s) s := by
  have hread : ∀ {Q : BitVec 32 → σ → Prop} (data : Slice) (offset : ℕ), (∀ v, Q v s) →
      wp False (truncated (readBeU32 data offset)) Q (fun _ s' => s' = s) s := by
    intro Q data offset h
    rw [truncated, wp_mapErr, wp_readBeU32]
    exact ⟨fun v _ => h v, fun _ => rfl⟩
  rw [new, wp_bind]
  refine hread _ _ fun magic' => ?_
  rw [wp_bind, wp_require]
  refine ⟨fun _ => ?_, fun _ => rfl⟩
  rw [wp_bind]
  refine hread _ _ fun totalsize => ?_
  rw [wp_bind, wp_require]
  refine ⟨fun hsize => ?_, fun _ => rfl⟩
  obtain ⟨blob, hblob⟩ : ∃ blob, data.get 0 totalsize.toNat = some blob :=
    Option.ne_none_iff_exists'.mp fun hn => Slice.get_eq_none.mp hn ⟨Nat.zero_le _, by omega⟩
  have hlen := Slice.len_of_get hblob
  rw [wp_bind, Slice.wp_range]
  refine ⟨blob, hblob, ?_⟩
  simp only [wp_bind]
  refine hread _ _ fun offDtStruct => hread _ _ fun offDtStrings => hread _ _ fun offMemRsvmap =>
    hread _ _ fun lastCompVersion => hread _ _ fun bootCpuid => hread _ _ fun sizeDtStrings =>
      hread _ _ fun sizeDtStruct => ?_
  simp only [wp_require, wp_ofOption, wp_pure]
  refine ⟨fun _ => ⟨fun structEnd hstruct => ⟨fun stringsEnd hstrings =>
    ⟨fun hfits => ⟨trivial, ?_⟩, fun _ => trivial⟩, fun _ => trivial⟩, fun _ => trivial⟩,
    fun _ => trivial⟩
  obtain ⟨-, rfl⟩ := checkedAdd_eq_some.mp hstruct
  obtain ⟨-, rfl⟩ := checkedAdd_eq_some.mp hstrings
  refine ⟨⟨Nat.le_add_right _ _, ?_, ?_⟩, Slice.get_infix hblob, ?_⟩
  · show offDtStruct.toNat + sizeDtStruct.toNat ≤ blob.len
    omega
  · show offDtStrings.toNat + sizeDtStrings.toNat ≤ blob.len
    omega
  · show offMemRsvmap.toNat < blob.len
    omega

/-! ### The reserved regions -/

/-- Iterator over the block of reserved regions. -/
structure MemoryReservations where
  data : Slice
  pos : ℕ

def memoryReservations (f : Fdt) : MemoryReservations := ⟨f.blob.data, f.memRsvmap⟩

/-- The next region, up to one that is all zero. -/
def MemoryReservations.next : Checked MemoryReservations Unit (BitVec 64 × BitVec 64) := do
  let self ← get
  let address ← readBeU64 self.data self.pos
  let size ← readBeU64 self.data (← add 64 self.pos 8)
  require (¬(address = 0 ∧ size = 0)) ()
  set { self with pos := ← add 64 self.pos 16 }
  return (address, size)

/-- How much of the blob is ahead. -/
def MemoryReservations.ahead (it : MemoryReservations) : ℕ := it.data.len - it.pos

theorem MemoryReservations.finite_next (f : Fdt) (h : f.memRsvmap ≤ f.blob.data.len) :
    Finite next (fun _ => True) f.memoryReservations f.memoryReservations.ahead := by
  refine finite (I := fun it : MemoryReservations => it.pos ≤ it.data.len) (fun it hit => ?_) h
  have hlen := it.data.len_lt
  rw [next, wp_bind, wp_get, wp_bind]
  have hstay : it.pos ≤ it.data.len ∧ it.ahead ≤ it.ahead := ⟨hit, le_rfl⟩
  refine wp_readBeU64 (fun address _ => ?_) hstay
  rw [wp_bind, wp_add]
  refine ⟨by omega, ?_⟩
  rw [wp_bind]
  refine wp_readBeU64 (fun size hsize => ?_) hstay
  rw [wp_bind, wp_require]
  refine ⟨fun _ => ?_, fun _ => hstay⟩
  simp only [wp_bind, wp_add, wp_set, wp_pure]
  refine ⟨by omega, by omega, trivial, ?_⟩
  simp only [ahead]
  omega

end Fdt

end StarOS
