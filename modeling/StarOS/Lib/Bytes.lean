import Mathlib.Data.FinEnum
import Mathlib.Data.List.Infix
import StarOS.Lib.Checked

/-!
# Slices of memory and the text in them

A `Slice` is the bytes a reference to part of memory gives access to, and no slice is longer than
the largest signed machine integer: offsets into one cannot come near the end of the unsigned
range. Text is a slice whose bytes are the UTF-8 encoding of a string.

## Main definitions

* `Slice`, `Slice.get`, `Slice.range`
* `fromUtf8`, `utf8`

## Main results

* `Slice.get_infix` — what is cut out of a slice is part of it
* `fromUtf8_eq_some` — the bytes that are text, and which text
* `IsText.split` — text is cut at an ASCII character into text
-/

/-- The bytes of a region of memory. -/
structure Slice where
  bytes : List UInt8
  /-- No object in memory is longer than this. -/
  fits : bytes.length < 2 ^ 63
  deriving DecidableEq

namespace Slice

theorem nil_fits : ([] : List UInt8).length < 2 ^ 63 := by
  decide

@[ext] theorem ext {s t : Slice} (h : s.bytes = t.bytes) : s = t := by
  cases s
  cases t
  congr

theorem exists_bytes {bs : List UInt8} (h : bs.length < 2 ^ 63) : ∃ s : Slice, s.bytes = bs :=
  ⟨⟨bs, h⟩, rfl⟩

/-- How many bytes there are. -/
def len (s : Slice) : ℕ := s.bytes.length

theorem length_bytes (s : Slice) : s.bytes.length = s.len := rfl

theorem len_lt (s : Slice) : s.len < 2 ^ 63 := s.fits

/-- The bytes from `a` up to `b`, or `none` if these are not offsets into the slice. -/
def get (s : Slice) (a b : ℕ) : Option Slice :=
  if a ≤ b ∧ b ≤ s.len then
    some ⟨s.bytes.extract a b, by
      rw [List.extract_eq_take_drop, List.length_take, List.length_drop]
      exact Nat.lt_of_le_of_lt (Nat.min_le_right ..)
        (Nat.lt_of_le_of_lt (Nat.sub_le ..) s.fits)⟩
  else none

/-- The bytes from `a` up to `b`, for code that is sure of its offsets. -/
def range {σ ε : Type} (s : Slice) (a b : ℕ) : Checked σ ε Slice :=
  match s.get a b with
  | some t => pure t
  | none => throw .bounds

variable {s t : Slice} {a b : ℕ}

theorem get_eq_some : s.get a b = some t ↔ (a ≤ b ∧ b ≤ s.len) ∧ t.bytes = s.bytes.extract a b := by
  rw [get]
  split
  · next h =>
    rw [Option.some.injEq, and_iff_right h, Slice.ext_iff]
    exact eq_comm
  · next h => simp [h]

theorem get_eq_none : s.get a b = none ↔ ¬ (a ≤ b ∧ b ≤ s.len) := by
  rw [get]
  split <;> simp [*]

theorem len_of_get (h : s.get a b = some t) : t.len = b - a := by
  obtain ⟨⟨hab, hb⟩, ht⟩ := get_eq_some.mp h
  rw [len, ht, List.extract_eq_take_drop, List.length_take, List.length_drop]
  rw [len] at hb
  omega

/-- **What is cut out of a slice is part of it.** -/
theorem get_infix (h : s.get a b = some t) : t.bytes <:+: s.bytes := by
  obtain ⟨-, ht⟩ := get_eq_some.mp h
  rw [ht, List.extract_eq_take_drop]
  exact (List.take_prefix ..).isInfix.trans (List.drop_suffix ..).isInfix

/-- Bytes that stand in a slice are cut out of it at their offset. -/
theorem get_append {pre post : List UInt8} (h : s.bytes = pre ++ (t.bytes ++ post))
    (ha : a = pre.length) (hb : b = a + t.len) : s.get a b = some t := by
  subst ha hb
  refine get_eq_some.mpr ⟨⟨Nat.le_add_right .., ?_⟩, ?_⟩
  · simp only [len, h, List.length_append]
    omega
  · rw [h, List.extract_eq_take_drop, Nat.add_sub_cancel_left, List.drop_left, len, List.take_left]

theorem wp_range {σ ε : Type} {Q : Slice → σ → Prop} {F : ε → σ → Prop} {st : σ} :
    Checked.wp False (s.range a b) Q F st ↔ ∃ t, s.get a b = some t ∧ Q t st := by
  rw [range]
  cases s.get a b with
  | none => simp
  | some t => simp

end Slice

/-! ### Text -/

/-- The bytes of a string. -/
def utf8 (name : String) : List UInt8 := name.toByteArray.data.toList

/-- A byte below 128 is the encoding of the character with that code. -/
theorem utf8EncodeChar_toChar {b : UInt8} (h : b < 128) :
    String.utf8EncodeChar (Char.ofUInt8 b) = [b] := by
  have hval : (Char.ofUInt8 b).val ≤ 127 := by
    show b.toUInt32 ≤ 127
    rw [UInt32.le_iff_toNat_le, UInt8.toNat_toUInt32]
    exact Nat.le_of_lt_succ (UInt8.lt_iff_toNat_lt.mp h)
  rw [String.utf8EncodeChar_eq_singleton (Char.utf8Size_eq_one_iff.mpr hval)]
  show [b.toUInt32.toUInt8] = [b]
  rw [UInt8.toUInt8_toUInt32]

theorem isValidUTF8_of_ascii {bs : List UInt8} (h : ∀ b ∈ bs, b < 128) :
    ByteArray.IsValidUTF8 bs.toByteArray := by
  induction bs with
  | nil => exact ByteArray.isValidUTF8_empty
  | cons b bs ih =>
    have hb := Char.isValidUTF8_toByteArray_utf8EncodeChar (c := Char.ofUInt8 b)
    rw [utf8EncodeChar_toChar (h b List.mem_cons_self)] at hb
    have happ := hb.append (ih fun c hc => h c (List.mem_cons_of_mem _ hc))
    rwa [← List.toByteArray_append] at happ

/-- The string that bytes are the UTF-8 encoding of, if there is one. As most text is ASCII, that
is tried first. -/
def fromUtf8 (bs : List UInt8) : Option String :=
  if h : ∀ b ∈ bs, b < 128 then some (.fromUTF8 bs.toByteArray (isValidUTF8_of_ascii h))
  else String.fromUTF8? bs.toByteArray

theorem utf8_injective {name name' : String} (h : utf8 name = utf8 name') : name = name' := by
  refine String.toByteArray_inj.mp ?_
  exact ByteArray.ext (Array.toList_inj.mp h)

/-- **The bytes that are text.** -/
theorem fromUtf8_eq_some {bs : List UInt8} {name : String} :
    fromUtf8 bs = some name ↔ utf8 name = bs := by
  have hfrom : ∀ hv : ByteArray.IsValidUTF8 bs.toByteArray,
      String.fromUTF8 bs.toByteArray hv = name ↔ utf8 name = bs := by
    intro hv
    constructor
    · rintro rfl
      exact List.toList_data_toByteArray
    · rintro rfl
      exact utf8_injective List.toList_data_toByteArray
  rw [fromUtf8]
  split
  · next hascii => rw [Option.some.injEq, hfrom]
  · rw [String.fromUTF8?]
    split
    · next hv => rw [Option.some.injEq, hfrom]
    · next hv =>
      refine ⟨nofun, ?_⟩
      rintro rfl
      refine absurd ?_ hv
      have hbytes : (utf8 name).toByteArray = name.toByteArray :=
        ByteArray.ext (Array.toList_inj.mp List.toList_data_toByteArray)
      rw [hbytes]
      exact name.isValidUTF8

/-- Bytes that are the encoding of some characters. -/
def IsText (bs : List UInt8) : Prop := ∃ cs : List Char, bs = cs.flatMap String.utf8EncodeChar

theorem isText_iff {bs : List UInt8} : IsText bs ↔ ∃ name, utf8 name = bs := by
  constructor
  · rintro ⟨cs, rfl⟩
    refine ⟨⟨(cs.flatMap String.utf8EncodeChar).toByteArray, ⟨cs, rfl⟩⟩, ?_⟩
    exact List.toList_data_toByteArray
  · rintro ⟨name, rfl⟩
    obtain ⟨cs, hcs⟩ := name.isValidUTF8
    refine ⟨cs, ?_⟩
    rw [utf8, hcs]
    exact List.toList_data_toByteArray

theorem IsText.append {bs bs' : List UInt8} (h : IsText bs) (h' : IsText bs') :
    IsText (bs ++ bs') := by
  obtain ⟨cs, rfl⟩ := h
  obtain ⟨cs', rfl⟩ := h'
  exact ⟨cs ++ cs', List.flatMap_append.symm⟩

theorem isText_of_ascii {bs : List UInt8} (h : ∀ b ∈ bs, b < 128) : IsText bs := by
  induction bs with
  | nil => exact ⟨[], rfl⟩
  | cons b bs ih =>
    have hb : IsText [b] := ⟨[Char.ofUInt8 b], by
      rw [List.flatMap_singleton, utf8EncodeChar_toChar (h b List.mem_cons_self)]⟩
    exact hb.append (ih fun c hc => h c (List.mem_cons_of_mem _ hc))

/-- A byte below 128 in the encoding of a character is all of it. -/
theorem utf8EncodeChar_of_mem {c : Char} {b : UInt8} (hmem : b ∈ String.utf8EncodeChar c)
    (hb : b < 128) : String.utf8EncodeChar c = [b] := by
  have hge : ∀ n, n < 256 → 128 ≤ n → b ≠ UInt8.ofNat n := by
    rintro n hn hle rfl
    rw [UInt8.lt_iff_toNat_lt, UInt8.toNat_ofNat', Nat.mod_eq_of_lt hn] at hb
    exact absurd hb (Nat.not_lt_of_le hle)
  simp only [String.utf8EncodeChar] at hmem ⊢
  generalize c.val.toNat = v at hmem ⊢
  split at hmem
  · next h => rw [if_pos h, List.mem_singleton.mp hmem]
  · -- each byte of a longer encoding has its highest bit set
    exfalso
    split at hmem
    · simp only [List.mem_cons, List.not_mem_nil, or_false] at hmem
      obtain h | h := hmem <;> exact hge _ (by omega) (by omega) h
    split at hmem
    · simp only [List.mem_cons, List.not_mem_nil, or_false] at hmem
      obtain h | h | h := hmem <;> exact hge _ (by omega) (by omega) h
    · simp only [List.mem_cons, List.not_mem_nil, or_false] at hmem
      obtain h | h | h | h := hmem <;> exact hge _ (by omega) (by omega) h

/-- **Text is cut at a byte below 128** into text. -/
theorem IsText.split {a d : List UInt8} {b : UInt8} (hb : b < 128) (h : IsText (a ++ b :: d)) :
    IsText a ∧ IsText d := by
  obtain ⟨cs, hcs⟩ := h
  induction cs generalizing a with
  | nil => simp at hcs
  | cons c cs ih =>
    rw [List.flatMap_cons] at hcs
    obtain ⟨more, hc, hrest⟩ | ⟨more, ha, hrest⟩ := List.append_eq_append_iff.mp hcs
    · cases more with
      | nil =>
        rw [List.append_nil] at hc
        obtain ⟨-, hd⟩ := ih (a := []) hrest
        exact ⟨⟨[c], by rw [List.flatMap_singleton, hc]⟩, hd⟩
      | cons b' more =>
        -- the byte belongs to the character, and so is all of it
        rw [List.cons_append, List.cons.injEq] at hrest
        obtain ⟨rfl, rfl⟩ := hrest
        have hone := utf8EncodeChar_of_mem (c := c) (b := b) (by rw [hc]; simp) hb
        rw [hc, List.append_eq_singleton_iff] at hone
        obtain ⟨rfl, hmore⟩ | ⟨-, hnil⟩ := hone
        · obtain ⟨-, rfl⟩ := List.cons.inj hmore
          exact ⟨⟨[], rfl⟩, cs, rfl⟩
        · cases hnil
    · obtain ⟨ha', hd⟩ := ih hrest.symm
      refine ⟨?_, hd⟩
      rw [ha]
      exact IsText.append ⟨[c], (List.flatMap_singleton ..).symm⟩ ha'
