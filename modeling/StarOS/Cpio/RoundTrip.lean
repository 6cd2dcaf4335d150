import Mathlib.Tactic.IntervalCases
import StarOS.Cpio.Archive

/-!
# An archive's members are what the reader yields

The writer's side is the layout alone: a header, the name, the contents, and padding to the next
boundary of the whole archive. As every entry begins at a boundary, what is written for it does not
depend on what is in front of it (`pushEntry_eq`), and the reader, standing at its header, reads
the entry back and stands behind it (`wp_next_entry`). An archive is then read member by member.

## Main results

* `Cpio.hexField_of_digits` — a field is read back as the number written to it
* `Cpio.Entries.wp_next_entry`
* `Cpio.decode_encode`
-/

namespace StarOS

namespace Cpio

open Checked

/-! ### Fields -/

@[simp] theorem length_hexDigits (k n : ℕ) : (hexDigits k n).length = k := by
  induction k generalizing n with
  | zero => rfl
  | succ k ih => rw [hexDigits, List.length_append, ih, List.length_singleton]

theorem hexDigit_digitChar {d : ℕ} (hd : d < 16) :
    wp False (hexDigit (digitChar d)) (fun d' _ => d' = d) (fun _ _ => False) () := by
  interval_cases d <;> exact (wp_of_ok rfl).mpr rfl

/-- One more digit behind the digits of `a`. -/
theorem shiftLeft_or (a : ℕ) {d : ℕ} (hd : d < 16) :
    (BitVec.ofNat 32 a <<< 4) ||| BitVec.ofNat 32 d = BitVec.ofNat 32 (a * 16 + d) := by
  refine BitVec.eq_of_toNat_eq ?_
  have hsplit : a % 2 ^ 32 * 2 ^ 4 % 2 ^ 32 = 2 ^ 4 * (a % 2 ^ 28) := by omega
  rw [BitVec.toNat_or, BitVec.toNat_shiftLeft, BitVec.toNat_ofNat, BitVec.toNat_ofNat,
    BitVec.toNat_ofNat, Nat.shiftLeft_eq, hsplit, Nat.mod_eq_of_lt (show d < 2 ^ 32 by omega),
    ← Nat.two_pow_add_eq_or_of_lt (show d < 2 ^ 4 by omega)]
  omega

/-- The loop of `hexField` on the digits of a number, behind the digits of another. -/
theorem wp_pushDigits (k a : ℕ) {n : ℕ} (hn : n < 16 ^ k) :
    wp False ((hexDigits k n).foldlM pushDigit (BitVec.ofNat 32 a))
      (fun v _ => v = BitVec.ofNat 32 (a * 16 ^ k + n)) (fun _ _ => False) () := by
  induction k generalizing n with
  | zero =>
    obtain rfl : n = 0 := by simpa using hn
    rw [hexDigits, List.foldlM_nil, wp_pure, Nat.pow_zero, Nat.mul_one, Nat.add_zero]
  | succ k ih =>
    have hdiv : n / 16 < 16 ^ k := Nat.div_lt_of_lt_mul (by rwa [Nat.pow_succ'] at hn)
    have hmod := Nat.mod_lt n (show 0 < 16 by decide)
    have heq : (a * 16 ^ k + n / 16) * 16 + n % 16 = a * 16 ^ (k + 1) + n := by
      rw [Nat.add_mul, Nat.mul_assoc, ← Nat.pow_succ, Nat.add_assoc, Nat.mul_comm (n / 16),
        Nat.div_add_mod]
    rw [hexDigits, List.foldlM_append, wp_bind]
    refine wp_mono (ih hdiv) ?_ fun _ _ h => h
    rintro _ ⟨⟩ rfl
    rw [List.foldlM_cons, wp_bind, pushDigit, wp_bind]
    refine wp_mono (hexDigit_digitChar hmod) ?_ fun _ _ h => h
    rintro _ ⟨⟩ rfl
    rw [wp_pure, List.foldlM_nil, wp_pure, shiftLeft_or _ hmod, heq]

/-- **A field is read back** as the number written to it. -/
theorem hexField_of_digits {header : Slice} {pre post : List UInt8} {off n : ℕ} (hn : n < 2 ^ 32)
    (hoff : off = pre.length) (h : header.bytes = pre ++ (hexDigits 8 n ++ post)) :
    wp False (hexField header off) (fun v _ => v.toNat = n) (fun _ _ => False) () := by
  have hlen := header.len_lt
  have hfits : off + 8 ≤ header.len := by
    rw [Slice.len, h, hoff, List.length_append, List.length_append, length_hexDigits]
    omega
  have hget : header.get off (off + 8) =
      some ⟨hexDigits 8 n, by rw [length_hexDigits]; decide⟩ :=
    Slice.get_append h hoff (by rw [Slice.len, length_hexDigits])
  rw [hexField, wp_bind, wp_add, hget]
  refine ⟨by omega, ?_⟩
  rw [wp_bind, wp_ofOption_some]
  refine wp_mono (wp_pushDigits 8 0 hn) ?_ fun _ _ h => h
  rintro _ ⟨⟩ rfl
  rw [Nat.zero_mul, Nat.zero_add, BitVec.toNat_ofNat, Nat.mod_eq_of_lt hn]

/-- The field behind `xs` in a header of the fields `xs ++ n :: ys`. -/
theorem wp_field {header : Slice} {n : ℕ} (off : ℕ) (xs ys : List ℕ)
    (h : header.bytes = magic ++ (xs ++ n :: ys).flatMap (hexDigits 8)) (hn : n < 2 ^ 32)
    (hoff : off = magic.length + 8 * xs.length) :
    wp False (hexField header off) (fun v _ => v.toNat = n) (fun _ _ => False) () := by
  rw [List.flatMap_append, List.flatMap_cons, ← List.append_assoc] at h
  refine hexField_of_digits hn ?_ h
  rw [hoff, List.length_append, List.length_flatMap]
  simp [Nat.mul_comm]

/-! ### Entries -/

theorem up_add {m n : ℕ} (hm : 4 ∣ m) : up (m + n) = m + up n := by
  obtain ⟨q, rfl⟩ := hm
  rw [up, up]
  omega

theorem length_pad (xs : List UInt8) : (pad xs).length = up xs.length := by
  rw [pad, List.length_append, List.length_replicate]
  have := (up_spec xs.length).1
  omega

theorem pad_append {pre : List UInt8} (h : 4 ∣ pre.length) (xs : List UInt8) :
    pad (pre ++ xs) = pre ++ pad xs := by
  rw [pad, pad, List.append_assoc, List.length_append, up_add h, Nat.add_sub_add_left]

theorem length_header (mode filesize namesize : ℕ) :
    (header mode filesize namesize).length = headerLen := by
  simp [header, magic, headerLen]

/-- What is written for an entry does not depend on what is in front of it. -/
theorem pushEntry_eq {buf : List UInt8} (h : 4 ∣ buf.length) (e : Entry) :
    pushEntry buf e = buf ++ pushEntry [] e := by
  simp only [pushEntry, List.nil_append, List.append_assoc, pad_append h]

/-- An entry, piece by piece. -/
theorem pushEntry_nil (e : Entry) : ∃ zeros zeros' : List UInt8,
    pushEntry [] e = header e.mode.toNat e.data.len ((utf8 e.name).length + 1) ++
      ((utf8 e.name ++ [0]) ++ (zeros ++ (e.data.bytes ++ zeros'))) ∧
    zeros.length = up (headerLen + ((utf8 e.name).length + 1)) -
      (headerLen + ((utf8 e.name).length + 1)) := by
  obtain ⟨zeros', hzeros'⟩ : ∃ zeros', pushEntry [] e = pad
      (header e.mode.toNat e.data.len ((utf8 e.name).length + 1) ++ utf8 e.name ++ [0]) ++
        e.data.bytes ++ zeros' := ⟨_, rfl⟩
  refine ⟨List.replicate _ 0, zeros', ?_, List.length_replicate⟩
  rw [hzeros', pad]
  simp only [List.append_assoc, List.length_append, length_header, List.length_singleton]

theorem length_pushEntry (e : Entry) : (pushEntry [] e).length =
    up (up (headerLen + ((utf8 e.name).length + 1)) + e.data.len) := by
  rw [pushEntry, length_pad, List.length_append, length_pad, List.nil_append, List.length_append,
    List.length_append, length_header, Nat.add_assoc]
  rfl

theorem four_dvd_length_pushEntry (e : Entry) : 4 ∣ (pushEntry [] e).length := by
  rw [length_pushEntry, up]
  exact Nat.dvd_mul_left ..

variable {blob : Slice} {pre post : List UInt8} {e : Entry}

/-- Where the header, the name and the contents of a written entry are found. -/
theorem exists_pieces (hblob : blob.bytes = pre ++ (pushEntry [] e ++ post))
    (hpre : 4 ∣ pre.length) : ∃ hd nb : Slice,
    hd.bytes = header e.mode.toNat e.data.len ((utf8 e.name).length + 1) ∧
      nb.bytes = utf8 e.name ++ [0] ∧
      blob.get pre.length (pre.length + headerLen) = some hd ∧
      blob.get (pre.length + headerLen) (pre.length + headerLen + nb.len) = some nb ∧
      blob.get (up (pre.length + headerLen + nb.len))
        (up (pre.length + headerLen + nb.len) + e.data.len) = some e.data := by
  have hlen := blob.len_lt
  obtain ⟨zeros, zeros', hentry, hzeros⟩ := pushEntry_nil e
  rw [hentry] at hblob
  rw [Slice.len, hblob] at hlen
  simp only [List.length_append, length_header, List.length_singleton] at hlen
  obtain ⟨hd, hhd⟩ : ∃ hd : Slice,
      hd.bytes = header e.mode.toNat e.data.len ((utf8 e.name).length + 1) :=
    Slice.exists_bytes (by rw [length_header]; decide)
  obtain ⟨nb, hnb⟩ : ∃ nb : Slice, nb.bytes = utf8 e.name ++ [0] :=
    Slice.exists_bytes (by rw [List.length_append, List.length_singleton]; omega)
  have hhdLen : hd.len = headerLen := by rw [Slice.len, hhd, length_header]
  have hnbLen : nb.len = (utf8 e.name).length + 1 := by
    rw [Slice.len, hnb, List.length_append, List.length_singleton]
  rw [← hhd, ← hnb] at hblob
  rw [← hnbLen] at hzeros
  have hup := up_spec (headerLen + nb.len)
  have hstart : up (pre.length + headerLen + nb.len) =
      pre.length + (headerLen + nb.len + zeros.length) := by
    rw [Nat.add_assoc, up_add hpre, hzeros, Nat.add_sub_cancel' hup.1]
  refine ⟨hd, nb, hhd, hnb, ?_, ?_, ?_⟩
  · rw [List.append_assoc] at hblob
    exact Slice.get_append hblob rfl (by rw [hhdLen])
  · have hsplit : blob.bytes = (pre ++ hd.bytes) ++ (nb.bytes ++
        (zeros ++ (e.data.bytes ++ zeros') ++ post)) := by
      rw [hblob]
      simp only [List.append_assoc]
    exact Slice.get_append hsplit (by rw [List.length_append, Slice.length_bytes, hhdLen]) rfl
  · have hsplit : blob.bytes = (pre ++ (hd.bytes ++ (nb.bytes ++ zeros))) ++ (e.data.bytes ++
        (zeros' ++ post)) := by
      rw [hblob]
      simp only [List.append_assoc]
    refine Slice.get_append hsplit ?_ rfl
    rw [hstart]
    simp only [List.length_append, Slice.length_bytes, hhdLen, Nat.add_assoc]

/-- **A written entry is parsed back**, with its sizes. -/
theorem wp_parseAt_entry (hblob : blob.bytes = pre ++ (pushEntry [] e ++ post))
    (hpre : 4 ∣ pre.length) (hname : (utf8 e.name).length + 1 < 2 ^ 32)
    (hdata : e.data.len < 2 ^ 32) :
    wp False (parseAt blob pre.length)
      (fun p _ => p = ⟨e.name, e.mode, e.data, (utf8 e.name).length + 1, e.data.len⟩)
      (fun _ _ => False) () := by
  have hlen := blob.len_lt
  obtain ⟨hd, nb, hhd, hnb, hgetHd, hgetName, hgetData⟩ := exists_pieces hblob hpre
  have hnbLen : nb.len = (utf8 e.name).length + 1 := by
    rw [Slice.len, hnb, List.length_append, List.length_singleton]
  rw [hnbLen] at hgetName hgetData
  obtain ⟨⟨-, hnameEnd⟩, -⟩ := Slice.get_eq_some.mp hgetName
  have hup := up_spec (pre.length + headerLen + ((utf8 e.name).length + 1))
  rw [align] at hup
  -- the magic and the three fields of the header
  obtain ⟨m, hm⟩ : ∃ m : Slice, m.bytes = magic := Slice.exists_bytes (by decide)
  have hmagic : hd.get 0 magic.length = some m := by
    refine Slice.get_eq_some.mpr ⟨⟨Nat.zero_le _, ?_⟩, ?_⟩
    · rw [Slice.len, hhd, length_header]
      decide
    · rw [hm, hhd]
      rfl
  have hmode : wp False (hexField hd offMode) (fun v _ => v.toNat = e.mode.toNat) (fun _ _ => False) () :=
    wp_field _ [0] _ hhd e.mode.isLt rfl
  have hfilesize : wp False (hexField hd offFilesize) (fun v _ => v.toNat = e.data.len)
      (fun _ _ => False) () :=
    wp_field _ [0, e.mode.toNat, 0, 0, 1, 0] [0, 0, 0, 0, _, 0] hhd hdata rfl
  have hnamesize : wp False (hexField hd offNamesize) (fun v _ => v.toNat = (utf8 e.name).length + 1)
      (fun _ _ => False) () :=
    wp_field _ [0, e.mode.toNat, 0, 0, 1, 0, e.data.len, 0, 0, 0, 0] [0] hhd hname rfl
  rw [parseAt]
  simp only [wp_bind, wp_add, wp_require, wp_pure, hgetHd, wp_ofOption_some]
  refine ⟨by omega, Slice.wp_range.mpr ⟨m, hmagic, fun _ => ?_, fun h => h hm⟩⟩
  refine wp_mono hmode (fun mode _ hmode => ?_) fun _ _ h => h
  refine wp_mono hfilesize (fun filesize _ hfilesize => ?_) fun _ _ h => h
  refine wp_mono hnamesize (fun namesize _ hnamesize => ?_) fun _ _ h => h
  rw [hnamesize, hfilesize, hgetName, wp_ofOption_some, hnb, List.dropLast_concat,
    fromUtf8_eq_some.mpr rfl, wp_ofOption_some, BitVec.eq_of_toNat_eq hmode]
  refine ⟨by omega, by omega, fun _ => ⟨by omega, ?_⟩, fun h => h (by simp)⟩
  rw [wp_alignUp (by rw [align]; omega), hgetData, wp_ofOption_some]
  exact ⟨by omega, rfl⟩

/-- **The reader yields a written entry** and stands behind it, unless it is the trailer: then it
gives up, behind it as well. -/
theorem Entries.wp_next_entry (hblob : blob.bytes = pre ++ (pushEntry [] e ++ post))
    (hpre : 4 ∣ pre.length) (hname : (utf8 e.name).length + 1 < 2 ^ 32)
    (hdata : e.data.len < 2 ^ 32) :
    wp False Entries.next
      (fun e' it => e' = e ∧ e.name ≠ trailer ∧ it = ⟨blob, (pre ++ pushEntry [] e).length⟩)
      (fun _ it => e.name = trailer ∧ it = ⟨blob, (pre ++ pushEntry [] e).length⟩)
      ⟨blob, pre.length⟩ := by
  have hlen := blob.len_lt
  have htotal : pre.length + (pushEntry [] e).length ≤ blob.len := by
    rw [Slice.len, hblob, List.length_append, List.length_append]
    omega
  have hend : up (up (pre.length + headerLen + ((utf8 e.name).length + 1)) + e.data.len) =
      (pre ++ pushEntry [] e).length := by
    rw [List.length_append, length_pushEntry, Nat.add_assoc, up_add hpre, Nat.add_assoc,
      up_add hpre]
  rw [length_pushEntry] at htotal
  have hup := up_spec (headerLen + ((utf8 e.name).length + 1))
  have hup' := up_spec (up (headerLen + ((utf8 e.name).length + 1)) + e.data.len)
  have hstart : up (pre.length + headerLen + ((utf8 e.name).length + 1)) =
      pre.length + up (headerLen + ((utf8 e.name).length + 1)) := by
    rw [Nat.add_assoc, up_add hpre]
  rw [next, wp_bind, wp_get, wp_bind, wp_lift]
  refine wp_mono (wp_parseAt_entry hblob hpre hname hdata) ?_ fun _ _ h => h.elim
  rintro _ ⟨⟩ rfl
  simp only [wp_bind, wp_add, wp_require, wp_set, wp_pure]
  rw [align] at hup hup'
  refine ⟨by omega, by omega, (wp_alignUp (by rw [align]; omega)).mpr ?_⟩
  rw [checkedAdd_of_lt (by omega), wp_ofOption_some, wp_alignUp (by rw [align]; omega), hend]
  exact ⟨fun h => ⟨trivial, h, rfl⟩, fun h => ⟨Decidable.not_not.mp h, rfl⟩⟩

/-! ### Archives -/

/-- An archive is its entries one after another. -/
theorem foldl_pushEntry (es : List Entry) {buf : List UInt8} (h : 4 ∣ buf.length) :
    es.foldl pushEntry buf = buf ++ es.flatMap (pushEntry []) ∧
      4 ∣ (es.foldl pushEntry buf).length := by
  induction es generalizing buf with
  | nil => exact ⟨(List.append_nil _).symm, h⟩
  | cons e es ih =>
    have hbuf : 4 ∣ (pushEntry buf e).length := by
      rw [pushEntry_eq h, List.length_append]
      exact Nat.dvd_add h (four_dvd_length_pushEntry e)
    obtain ⟨heq, hdvd⟩ := ih hbuf
    rw [List.foldl_cons]
    refine ⟨?_, hdvd⟩
    rw [heq, pushEntry_eq h, List.flatMap_cons, List.append_assoc]

/-- The reader on the rest of an archive: it yields the members left, stops at the trailer, and is
then at the end of the archive. -/
theorem collects_members (members : List Member) {t : Entry} (ht : t.name = trailer)
    (htdata : t.data.len < 2 ^ 32) {blob : Slice} {pre : List UInt8}
    (hblob : blob.bytes = pre ++ ((members.map Member.entry).flatMap (pushEntry []) ++
      pushEntry [] t)) (hpre : 4 ∣ pre.length) :
    Collects Entries.next ⟨blob, pre.length⟩ (members.map Member.entry) ⟨blob, blob.len⟩ := by
  induction members generalizing pre with
  | nil =>
    have hblob' : blob.bytes = pre ++ (pushEntry [] t ++ []) := by
      rw [hblob, List.append_nil]
      rfl
    have hw := Entries.wp_next_entry hblob' hpre (by rw [ht]; decide) htdata
    obtain ⟨_, _, -, -, hne, -⟩ | ⟨_, it, hx, -, rfl⟩ := exists_of_wp hw
    · exact absurd ht hne
    · have hlen : (pre ++ pushEntry [] t).length = blob.len := by
        rw [Slice.len, hblob', List.append_nil]
      rw [hlen] at hx
      exact .nil hx
  | cons m members ih =>
    have hblob' : blob.bytes = pre ++ (pushEntry [] m.entry ++
        ((members.map Member.entry).flatMap (pushEntry []) ++ pushEntry [] t)) := by
      rw [hblob, List.map_cons, List.flatMap_cons, List.append_assoc]
    have hw := Entries.wp_next_entry hblob' hpre m.name_fits m.data_fits
    obtain ⟨_, _, hx, rfl, -, rfl⟩ | ⟨_, _, -, heq, -⟩ := exists_of_wp hw
    · refine .cons hx (ih (by rw [hblob', List.append_assoc]) ?_)
      rw [List.length_append]
      exact Nat.dvd_add hpre (four_dvd_length_pushEntry _)
    · exact absurd heq m.not_trailer

/-- **The reader on an archive.** -/
theorem collects_encode (members : List Member) (hfits : (encode members).length < 2 ^ 63) :
    Collects Entries.next (entries ⟨encode members, hfits⟩) (members.map Member.entry)
      ⟨⟨encode members, hfits⟩, (encode members).length⟩ := by
  have hnil : 4 ∣ ([] : List UInt8).length := Nat.dvd_zero 4
  obtain ⟨heq, hdvd⟩ := foldl_pushEntry (members.map Member.entry) hnil
  refine collects_members members (t := ⟨trailer, 0, ⟨[], by decide⟩⟩) rfl (by decide) ?_ hnil
  show encode members = _
  rw [encode, pushEntry_eq hdvd, heq, List.nil_append, List.nil_append]

/-- At the end of an archive there is nothing more, however often it is asked. -/
theorem calls_end (blob : Slice) (n : ℕ) :
    calls Entries.next n ⟨blob, blob.len⟩ = some ([], ⟨blob, blob.len⟩) := by
  have hnone : Entries.next ⟨blob, blob.len⟩ = .error (.fail ()) ⟨blob, blob.len⟩ := by
    have hlen := blob.len_lt
    have hget : blob.get blob.len (blob.len + headerLen) = none := by
      rw [Slice.get_eq_none, headerLen]
      omega
    have hw : wp False Entries.next (fun _ _ => False) (fun _ it => it = ⟨blob, blob.len⟩)
        ⟨blob, blob.len⟩ := by
      rw [Entries.next, wp_bind, wp_get, wp_bind, wp_lift, parseAt, wp_bind, wp_add, wp_bind, hget,
        wp_ofOption_none, headerLen]
      exact ⟨Nat.lt_of_lt_of_le (Nat.add_lt_add_right hlen 110) (by decide), rfl⟩
    obtain ⟨_, _, -, h⟩ | ⟨_, it, hx, rfl⟩ := exists_of_wp hw
    · exact h.elim
    · exact hx
  induction n with
  | zero => rfl
  | succ n ih => simp only [calls, hnone, ih]

/-- **Decoding undoes encoding**: the archive of any members is read as those members, in order,
and no call after that yields anything. And any bytes at all are read as finitely many entries, each
a part of them, without an overflow or an access outside them. -/
theorem decode_encode :
    (∀ (members : List Member) (hfits : (encode members).length < 2 ^ 63), ∃ it,
      Collects Entries.next (entries ⟨encode members, hfits⟩) (members.map Member.entry) it ∧
        ∀ n, calls Entries.next n it = some ([], it)) ∧
      ∀ blob : Slice, ∃ bound, Finite Entries.next (Entry.PartOf blob) (entries blob) bound := by
  exact ⟨fun members hfits => ⟨_, collects_encode members hfits, calls_end _⟩,
    fun blob => ⟨_, Entries.finite_next blob⟩⟩

/-- The archive of one file. -/
theorem decode_encode_file :
    let file : Member := ⟨⟨"hi", 0o100644, ⟨[121, 111], by decide⟩⟩, by decide, by decide, by decide⟩
    ∃ (hfits : (encode [file]).length < 2 ^ 63), ∃ it,
      Collects Entries.next (entries ⟨encode [file], hfits⟩) [file.entry] it := by
  intro file
  have hfits : (encode [file]).length < 2 ^ 63 := by decide +kernel
  obtain ⟨it, hcollects, -⟩ := decode_encode.1 [file] hfits
  exact ⟨hfits, it, hcollects⟩

end Cpio

end StarOS
