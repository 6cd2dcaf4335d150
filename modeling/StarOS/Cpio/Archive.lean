import StarOS.Lib.Bits
import StarOS.Lib.Bytes

/-!
# The initramfs reader

An initramfs is a cpio archive in the "newc" format: entries one after another, each an ASCII-hex
header, a name that ends in a NUL and the file's contents, both padded to a multiple of four bytes,
up to an entry named `TRAILER!!!`. The reader borrows names and contents out of the archive, and
takes any malformed field for the end of it.

## Main definitions

* `Cpio.hexField`, `Cpio.parseAt`, `Cpio.Entries.next`
* `Cpio.members` — the entries of an archive
* `Cpio.encode` — the archive of a list of members

## Main results

* `Cpio.Entries.finite_next` — on any bytes at all the reader comes to an end
* `Cpio.wp_parseAt` — parsing never leaves the archive
-/

namespace StarOS

namespace Cpio

open Checked

/-- The magic every header starts with, `070701`. -/
def magic : List UInt8 := [48, 55, 48, 55, 48, 49]

/-- A header is 13 fields of 8 characters after the magic. -/
def headerLen : ℕ := 110

/-- Names and contents are padded so their end aligns to this. -/
def align : ℕ := 4

/-- The name that ends the archive. -/
def trailer : String := "TRAILER!!!"

/-- Offsets of the header fields in use: `c_mode`, `c_filesize`, `c_namesize`. -/
def offMode : ℕ := 14
def offFilesize : ℕ := 54
def offNamesize : ℕ := 94

/-- One archive member: its path, mode bits, and contents. -/
structure Entry where
  name : String
  mode : BitVec 32
  data : Slice
  deriving DecidableEq

/-- Is this a regular file? -/
def Entry.isFile (e : Entry) : Bool := e.mode &&& 0o170000 = 0o100000

/-- A header with the name and contents behind it, and the sizes it gave them. -/
structure Parsed where
  name : String
  mode : BitVec 32
  data : Slice
  namesize : ℕ
  filesize : ℕ

/-- The value of a hex digit. -/
def hexDigit (b : UInt8) : Checked Unit Unit ℕ :=
  if 48 ≤ b ∧ b ≤ 57 then sub b.toNat 48
  else if 97 ≤ b ∧ b ≤ 102 then do add 8 (← sub b.toNat 97) 10
  else if 65 ≤ b ∧ b ≤ 70 then do add 8 (← sub b.toNat 65) 10
  else fail ()

/-- One more digit of a field: what the shift pushes out is lost. -/
def pushDigit (v : BitVec 32) (b : UInt8) : Checked Unit Unit (BitVec 32) :=
  return (v <<< 4) ||| BitVec.ofNat 32 (← hexDigit b)

/-- Read an 8-character hex field at byte offset `off` of a header. -/
def hexField (header : Slice) (off : ℕ) : Checked Unit Unit (BitVec 32) := do
  let bytes ← ofOption () (header.get off (← add 64 off 8))
  bytes.bytes.foldlM pushDigit 0

/-- Round `n` up to the next multiple of `align`. -/
def alignUp {σ : Type} (n : ℕ) : Checked σ Unit ℕ :=
  return (← sub (← add 64 n align) 1) &&& (2 ^ 64 - align)

/-- Parse the entry whose header begins at `pos`, or give up if the bytes there are not a
well-formed header, name and contents within the blob's bounds. -/
def parseAt (blob : Slice) (pos : ℕ) : Checked Unit Unit Parsed := do
  let header ← ofOption () (blob.get pos (← add 64 pos headerLen))
  require ((← header.range 0 magic.length).bytes = magic) ()
  let mode ← hexField header offMode
  let filesize := (← hexField header offFilesize).toNat
  let namesize := (← hexField header offNamesize).toNat
  -- the name includes a trailing NUL counted in its size
  let nameStart ← add 64 pos headerLen
  let nameBytes ← ofOption () (blob.get nameStart (← add 64 nameStart namesize))
  require (nameBytes.bytes ≠ []) ()
  let name ← ofOption () (fromUtf8 nameBytes.bytes.dropLast)
  let dataStart ← alignUp (← add 64 nameStart namesize)
  let data ← ofOption () (blob.get dataStart (← add 64 dataStart filesize))
  return ⟨name, mode, data, namesize, filesize⟩

/-- Iterator over an archive's entries. -/
structure Entries where
  blob : Slice
  pos : ℕ

/-- The next entry, giving up at the trailer and at the first malformed header. -/
def Entries.next : Checked Entries Unit Entry := do
  let self ← get
  let entry ← lift (parseAt self.blob self.pos)
  -- on to the next header, past this entry
  let nameEnd ← add 64 (← add 64 self.pos headerLen) entry.namesize
  let dataStart ← alignUp nameEnd
  let dataEnd ← ofOption () (checkedAdd 64 dataStart entry.filesize)
  set { self with pos := ← alignUp dataEnd }
  require (entry.name ≠ trailer) ()
  return ⟨entry.name, entry.mode, entry.data⟩

/-- Iterate an archive's entries. -/
def entries (blob : Slice) : Entries := ⟨blob, 0⟩

/-- Find a member by exact name, among the first `n` calls. -/
def find (name : String) (n : ℕ) : Checked Entries Unit Entry :=
  Checked.find Entries.next (·.name = name) n

/-! ### The layout -/

/-- The least multiple of `align` at or above `n`. -/
def up (n : ℕ) : ℕ := (n + 3) / 4 * 4

/-- The hex digit of a value below 16. -/
def digitChar (d : ℕ) : UInt8 := .ofNat (if d < 10 then 48 + d else 55 + d)

/-- The `k` lowest hex digits of a number, highest first. -/
def hexDigits : ℕ → ℕ → List UInt8
  | 0, _ => []
  | k + 1, n => hexDigits k (n / 16) ++ [digitChar (n % 16)]

/-- NULs up to the next boundary. -/
def pad (buf : List UInt8) : List UInt8 := buf ++ List.replicate (up buf.length - buf.length) 0

/-- The header of an entry. All fields but the mode, the link count and the two sizes are 0. -/
def header (mode filesize namesize : ℕ) : List UInt8 :=
  -- ino, mode, uid, gid, nlink, mtime, filesize, the four device numbers, namesize, check
  magic ++ [0, mode, 0, 0, 1, 0, filesize, 0, 0, 0, 0, namesize, 0].flatMap (hexDigits 8)

/-- An archive with one more entry. -/
def pushEntry (buf : List UInt8) (e : Entry) : List UInt8 :=
  pad (pad (buf ++ header e.mode.toNat e.data.len ((utf8 e.name).length + 1) ++ utf8 e.name ++ [0])
    ++ e.data.bytes)

/-- A member an archive can have: the sizes fit their fields, and it is not the trailer. -/
structure Member where
  entry : Entry
  name_fits : (utf8 entry.name).length + 1 < 2 ^ 32
  data_fits : entry.data.len < 2 ^ 32
  not_trailer : entry.name ≠ trailer

/-- The archive of a list of members. -/
def encode (members : List Member) : List UInt8 :=
  pushEntry ((members.map Member.entry).foldl pushEntry []) ⟨trailer, 0, ⟨[], Slice.nil_fits⟩⟩

/-! ### Any bytes at all -/

theorem up_spec (n : ℕ) : n ≤ up n ∧ up n < n + align := by
  rw [up, align]
  omega

variable {σ : Type} {s : σ} {Q : ℕ → σ → Prop} {F : Unit → σ → Prop}

/-- Within memory the rounding does not overflow. -/
theorem wp_alignUp {n : ℕ} (hn : n + align < 2 ^ 64) : wp False (alignUp n) Q F s ↔ Q (up n) s := by
  have hmask : (n + align - 1) &&& (2 ^ 64 - align) = up n := by
    rw [show (2 : ℕ) ^ 64 - align = 2 ^ 64 - 2 ^ 2 from rfl,
      Bits.and_not_low (Nat.lt_of_le_of_lt (Nat.sub_le ..) hn) (by decide)]
    rfl
  simp only [alignUp, wp_bind, wp_add, wp_sub, wp_pure, hmask]
  exact ⟨fun h => h.2.2, fun h => ⟨hn, Nat.le_add_left_of_le (by decide), h⟩⟩

/-- A hex digit is below 16, and reading it does not overflow. -/
theorem wp_hexDigit (b : UInt8) :
    wp False (hexDigit b) (fun d _ => d < 16) (fun _ _ => True) () := by
  simp only [hexDigit, wp_ite, wp_sub, wp_add, wp_bind, wp_fail, UInt8.le_iff_toNat_le]
  refine ⟨fun h => ?_, fun _ => ⟨fun h => ?_, fun _ => ⟨fun h => ?_, fun _ => trivial⟩⟩⟩ <;>
    simp only [UInt8.reduceToNat] at h <;> omega

theorem wp_hexField {off : ℕ} (header : Slice) (hoff : off < 2 ^ 63) :
    wp False (hexField header off) (fun _ _ => True) (fun _ _ => True) () := by
  have loop : ∀ (bs : List UInt8) (v : BitVec 32),
      wp False (bs.foldlM pushDigit v) (fun _ _ => True) (fun _ _ => True) () := by
    intro bs
    induction bs with
    | nil =>
      intro v
      rw [List.foldlM_nil, wp_pure]
      trivial
    | cons b bs ih =>
      intro v
      rw [List.foldlM_cons, wp_bind, pushDigit, wp_bind]
      exact wp_mono (wp_hexDigit b) (fun d _ _ => (wp_pure _).mpr (ih _)) fun _ _ _ => trivial
  rw [hexField, wp_bind, wp_add]
  refine ⟨by omega, ?_⟩
  rw [wp_bind, wp_ofOption]
  exact ⟨fun bytes _ => loop _ _, fun _ => trivial⟩

/-- What a parse that succeeds has read: both pieces are part of the archive, and the entry ends
inside it. -/
structure Parsed.Within (p : Parsed) (blob : Slice) (pos : ℕ) : Prop where
  name : utf8 p.name <:+: blob.bytes
  data : p.data.bytes <:+: blob.bytes
  name_end : pos + headerLen + p.namesize ≤ blob.len
  data_end : up (pos + headerLen + p.namesize) + p.filesize ≤ blob.len

/-- **Parsing never leaves the archive**, wherever it starts and whatever is there. -/
theorem wp_parseAt {blob : Slice} {pos : ℕ} (hpos : pos < 2 ^ 63 + align) :
    wp False (parseAt blob pos) (fun p _ => p.Within blob pos) (fun _ _ => True) () := by
  have hlen := blob.len_lt
  rw [parseAt]
  simp only [wp_bind, wp_add, wp_ofOption, wp_require, wp_pure, implies_true, and_true]
  rw [align] at hpos
  refine ⟨by rw [headerLen]; omega, fun header hheader => ?_⟩
  obtain ⟨m, hm⟩ : ∃ m, header.get 0 magic.length = some m := by
    refine Option.ne_none_iff_exists'.mp fun hn => Slice.get_eq_none.mp hn ⟨Nat.zero_le _, ?_⟩
    rw [Slice.len_of_get hheader, Nat.add_sub_cancel_left]
    decide
  refine Slice.wp_range.mpr ⟨m, hm, fun _ => ?_⟩
  refine wp_mono (wp_hexField header (by decide)) (fun mode _ _ => ?_) fun _ _ _ => trivial
  refine wp_mono (wp_hexField header (by decide)) (fun filesize _ _ => ?_) fun _ _ _ => trivial
  refine wp_mono (wp_hexField header (by decide)) (fun namesize _ _ => ?_) fun _ _ _ => trivial
  have hfilesize := filesize.isLt
  have hnamesize := namesize.isLt
  refine ⟨by rw [headerLen]; omega, by rw [headerLen]; omega, fun nameBytes hname => ?_⟩
  obtain ⟨⟨-, hnameEnd⟩, -⟩ := Slice.get_eq_some.mp hname
  obtain ⟨hup, hup'⟩ := up_spec (pos + headerLen + namesize.toNat)
  rw [align] at hup'
  refine fun _ name hutf8 => ⟨by omega, (wp_alignUp (by rw [align]; omega)).mpr ?_⟩
  refine ⟨by omega, fun data hdata => ?_⟩
  obtain ⟨⟨-, hdataEnd⟩, -⟩ := Slice.get_eq_some.mp hdata
  refine ⟨?_, Slice.get_infix hdata, hnameEnd, hdataEnd⟩
  show utf8 name <:+: blob.bytes
  rw [fromUtf8_eq_some.mp hutf8]
  exact (List.dropLast_prefix _).isInfix.trans (Slice.get_infix hname)

/-- An entry is part of an archive. -/
def Entry.PartOf (blob : Slice) (e : Entry) : Prop :=
  utf8 e.name <:+: blob.bytes ∧ e.data.bytes <:+: blob.bytes

/-- Where an iterator over `blob` may stand. -/
structure Entries.On (blob : Slice) (it : Entries) : Prop where
  blob_eq : it.blob = blob
  pos_lt : it.pos < blob.len + align

/-- How much of the archive is ahead of the iterator, with the padding behind its end. -/
def Entries.ahead (it : Entries) : ℕ := it.blob.len + align - it.pos

/-- **One call** stays in the archive and, if it yields an entry, moves towards its end. -/
theorem Entries.wp_next {blob : Slice} {it : Entries} (h : it.On blob) :
    wp False Entries.next (fun e it' => it'.On blob ∧ e.PartOf blob ∧ it'.ahead < it.ahead)
      (fun _ it' => it'.On blob ∧ it'.ahead ≤ it.ahead) it := by
  obtain ⟨rfl, hpos⟩ := h
  have hlen := it.blob.len_lt
  rw [align] at hpos
  rw [next, wp_bind, wp_get, wp_bind, wp_lift]
  have hstay : it.On it.blob ∧ it.ahead ≤ it.ahead := ⟨⟨rfl, hpos⟩, Nat.le_refl _⟩
  refine wp_mono (wp_parseAt (by rw [align]; omega)) (fun p _ hp => ?_) fun _ _ _ => hstay
  have hname := hp.name_end
  have hdata := hp.data_end
  obtain ⟨hup, hup'⟩ := up_spec (it.pos + headerLen + p.namesize)
  obtain ⟨hend, hend'⟩ := up_spec (up (it.pos + headerLen + p.namesize) + p.filesize)
  rw [headerLen] at *
  rw [align] at hup' hend'
  simp only [wp_bind, wp_add, wp_require, wp_set, wp_pure]
  refine ⟨by omega, by omega, (wp_alignUp (by rw [align]; omega)).mpr ?_⟩
  rw [checkedAdd_of_lt (by omega), wp_ofOption_some, wp_alignUp (by rw [align]; omega)]
  refine ⟨fun _ => ⟨⟨rfl, ?_⟩, ⟨hp.name, hp.data⟩, ?_⟩, fun _ => ⟨⟨rfl, ?_⟩, ?_⟩⟩ <;>
    simp only [ahead, align] <;> omega

theorem Entries.finite_next (blob : Slice) :
    Finite Entries.next (Entry.PartOf blob) (entries blob) (entries blob).ahead :=
  finite (fun _ h => Entries.wp_next h) ⟨rfl,
      Nat.zero_lt_of_lt (Nat.lt_add_of_pos_right (by decide))⟩

/-! ### The members -/

/-- The entries of an archive. An entry takes space, so there are not more than bytes. -/
def members (blob : Slice) : List Entry := collect Entries.next (blob.len + align) (entries blob)

theorem collects_members_blob (blob : Slice) :
    ∃ it, Collects Entries.next (entries blob) (members blob) it := by
  obtain ⟨as, it, h, hlen, -⟩ := (Entries.finite_next blob).ends
  have heq : members blob = as := h.collect_eq hlen
  exact ⟨it, heq ▸ h⟩

/-- The members of an archive are parts of it. -/
theorem partOf_of_mem_members {blob : Slice} {e : Entry} (he : e ∈ members blob) :
    e.PartOf blob := by
  obtain ⟨as, it, h, hlen, hpart⟩ := (Entries.finite_next blob).ends
  have heq : members blob = as := h.collect_eq hlen
  exact hpart e (heq ▸ he)

theorem Entry.PartOf.len_le {blob : Slice} {e : Entry} (h : e.PartOf blob) :
    e.data.len ≤ blob.len := h.2.length_le

theorem length_members_lt (blob : Slice) : (members blob).length < 2 ^ 64 := by
  obtain ⟨as, it, h, hlen, -⟩ := (Entries.finite_next blob).ends
  have heq : members blob = as := h.collect_eq hlen
  have hblob := blob.len_lt
  have hahead : (entries blob).ahead = blob.len + align - 0 := rfl
  rw [hahead, align] at hlen
  rw [heq]
  omega

/-- **Looking a name up** finds the first member of that name. -/
theorem wp_find (blob : Slice) (name : String) {n : ℕ} (hn : (members blob).length < n) :
    wp False (find name n) (fun e _ => (members blob).find? (·.name = name) = some e)
      (fun _ _ => (members blob).find? (·.name = name) = none) (entries blob) := by
  obtain ⟨it, h⟩ := collects_members_blob blob
  exact h.wp_find hn

end Cpio

end StarOS
