import Mathlib.Tactic.Common

/-!
# The fault log of the SMMU

The SMMU writes a record of four double words for each transaction it aborts. A record is decoded to
its fields, each of which has a range of bits of its own.

## Main definitions

* `Smmu.EventRecord`, `Smmu.parseEvent`
* `Smmu.Ranges`, `Smmu.ranges` — the ranges of bits the format gives the fields
* `Smmu.Ranges.decode` — the fields, by those ranges

## Main results

* `Smmu.parseEvent_exact`
-/

namespace StarOS

namespace Smmu

/-- What the type of an event means. -/
inductive EventKind
  /-- Unsupported upstream transaction. -/
  | uut
  /-- StreamID outside the configured table. -/
  | badStreamId
  /-- External abort fetching the entry of a stream. -/
  | steFetch
  /-- The entry of a stream is malformed. -/
  | badSte
  /-- The entry of a stream is invalid. -/
  | streamDisabled
  /-- External abort during a walk of the tables. -/
  | walkEabt
  /-- No valid mapping for the address. -/
  | translation
  /-- Address outside the configured input size. -/
  | addrSize
  /-- The access flag was clear. -/
  | access
  /-- Mapped, but not with the permissions asked for. -/
  | permission
  /-- Any other code. -/
  | other (code : BitVec 8)
  deriving DecidableEq, Repr

/-- Decode the event-type field. -/
def EventKind.fromCode (code : BitVec 8) : EventKind :=
  if code = 0x01 then .uut
  else if code = 0x02 then .badStreamId
  else if code = 0x03 then .steFetch
  else if code = 0x04 then .badSte
  else if code = 0x06 then .streamDisabled
  else if code = 0x0b then .walkEabt
  else if code = 0x10 then .translation
  else if code = 0x11 then .addrSize
  else if code = 0x12 then .access
  else if code = 0x13 then .permission
  else .other code

/-- One decoded entry from the event queue. -/
structure EventRecord where
  /-- The event type, and what it means. -/
  code : BitVec 8
  kind : EventKind
  /-- Which device, and the address it emitted. -/
  streamid : BitVec 32
  address : BitVec 64
  /-- The input address of stage 2. -/
  ipa : BitVec 64
  read : Bool
  stage2 : Bool
  privileged : Bool
  instruction : Bool
  deriving DecidableEq, Repr

/-- The double words of a record. -/
abbrev evtDwords : ℕ := 4

/-- Decode one event record, or `none` for an empty slot of the queue. -/
def parseEvent (record : Vector (BitVec 64) evtDwords) : Option EventRecord :=
  if record.all (· = 0) then none
  else
    let code := (record.get 0 &&& 0xff).setWidth 8
    if code = 0 then none
    else some
      { code
        kind := .fromCode code
        streamid := (record.get 0 >>> 32).setWidth 32
        address := record.get 2
        ipa := record.get 3 >>> 12 <<< 12
        read := record.get 1 &&& 1 <<< 35 ≠ 0
        stage2 := record.get 1 &&& 1 <<< 39 ≠ 0
        privileged := record.get 1 &&& 1 <<< 33 ≠ 0
        instruction := record.get 1 &&& 1 <<< 34 ≠ 0 }

/-! ### What the format says -/

/-- The bits of the fields. -/
structure Ranges where
  code : BitVec 8
  streamid : BitVec 32
  address : BitVec 64
  ipa : BitVec 40
  read : Bool
  stage2 : Bool
  privileged : Bool
  instruction : Bool
  deriving DecidableEq

/-- Where the bits of the fields are in a record. -/
def ranges (record : Vector (BitVec 64) evtDwords) : Ranges where
  code := (record.get 0).extractLsb' 0 8
  streamid := (record.get 0).extractLsb' 32 32
  address := (record.get 2).extractLsb' 0 64
  ipa := (record.get 3).extractLsb' 12 40
  read := (record.get 1).getLsbD 35
  stage2 := (record.get 1).getLsbD 39
  privileged := (record.get 1).getLsbD 33
  instruction := (record.get 1).getLsbD 34

/-- The fields that have these bits. -/
def Ranges.decode (r : Ranges) : EventRecord where
  code := r.code
  kind := .fromCode r.code
  streamid := r.streamid
  address := r.address
  ipa := r.ipa.setWidth 64 <<< 12
  read := r.read
  stage2 := r.stage2
  privileged := r.privileged
  instruction := r.instruction

/-- The bits of decoded fields. -/
def EventRecord.ranges (e : EventRecord) : Ranges where
  code := e.code
  streamid := e.streamid
  address := e.address
  ipa := e.ipa.extractLsb' 12 40
  read := e.read
  stage2 := e.stage2
  privileged := e.privileged
  instruction := e.instruction

variable {record record' : Vector (BitVec 64) evtDwords}

/-! ### Bits of a double word -/

theorem and_low_byte (w : BitVec 64) : (w &&& 0xff).setWidth 8 = w.extractLsb' 0 8 := by
  have hmask : (0xff : BitVec 64).setWidth 8 = BitVec.allOnes 8 := by decide
  rw [BitVec.setWidth_and, hmask, BitVec.and_allOnes]
  refine BitVec.eq_of_getLsbD_eq fun i hi => ?_
  simp [hi]

theorem high_half (w : BitVec 64) : (w >>> 32).setWidth 32 = w.extractLsb' 32 32 := by
  refine BitVec.eq_of_getLsbD_eq fun i hi => ?_
  simp [hi]

theorem and_bit (w : BitVec 64) {k : ℕ} (hk : k < 64) :
    decide (w &&& 1 <<< k ≠ 0) = w.getLsbD k := by
  have hpow : (1 <<< k : BitVec 64) = BitVec.twoPow 64 k := (BitVec.twoPow_eq ..).symm
  have hne : BitVec.twoPow 64 k ≠ 0 := by
    intro h
    have hnat := congrArg BitVec.toNat h
    rw [BitVec.toNat_twoPow_of_lt hk] at hnat
    exact Nat.ne_of_gt (Nat.two_pow_pos k) hnat
  rw [hpow, BitVec.and_twoPow]
  split
  · next hbit => rw [hbit, decide_eq_true hne]
  · next hbit => simp [hbit]

theorem extract_shifted (w : BitVec 64) :
    (w >>> 12 <<< 12).extractLsb' 12 40 = w.extractLsb' 12 40 := by
  refine BitVec.eq_of_getLsbD_eq fun i hi => ?_
  simp [hi]
  grind

/-- What is left of the address of stage 2 is its bits and those above them. -/
theorem shifted_eq_iff {w w' : BitVec 64} :
    w >>> 12 <<< 12 = w' >>> 12 <<< 12 ↔
      w.extractLsb' 12 40 = w'.extractLsb' 12 40 ∧ w.extractLsb' 52 12 = w'.extractLsb' 52 12 := by
  have hw := w.isLt
  have hw' := w'.isLt
  simp only [BitVec.toNat_eq, BitVec.toNat_shiftLeft, BitVec.toNat_ushiftRight,
    BitVec.extractLsb'_toNat, Nat.shiftLeft_eq, Nat.shiftRight_eq_div_pow]
  omega

/-- It is the address with these bits exactly when the bits above them are zero. -/
theorem shifted_eq_decode_iff (w : BitVec 64) :
    w >>> 12 <<< 12 = (w.extractLsb' 12 40).setWidth 64 <<< 12 ↔ w.extractLsb' 52 12 = 0 := by
  have hw := w.isLt
  have hzero : (0 : BitVec 12).toNat = 0 := rfl
  simp only [BitVec.toNat_eq, BitVec.toNat_shiftLeft, BitVec.toNat_ushiftRight,
    BitVec.extractLsb'_toNat, Nat.shiftLeft_eq, Nat.shiftRight_eq_div_pow, BitVec.toNat_setWidth]
  omega

/-- A record that has a type is decoded. -/
theorem parseEvent_eq (h : (record.get 0).extractLsb' 0 8 ≠ 0) :
    parseEvent record = some { (ranges record).decode with ipa := record.get 3 >>> 12 <<< 12 } := by
  have hcode := and_low_byte (record.get 0)
  have hsome : ¬ record.all (· = 0) = true := by
    intro hall
    refine h ?_
    have hzero : record.get 0 = 0 := of_decide_eq_true (Vector.all_eq_true.mp hall 0 (by decide))
    rw [hzero]
    rfl
  have haddress : record.get 2 = (record.get 2).extractLsb' 0 64 :=
    BitVec.eq_of_getLsbD_eq fun i hi => by simp [hi]
  rw [parseEvent, if_neg hsome]
  simp only [hcode, if_neg h, high_half, and_bit _ (show 35 < 64 by decide),
    and_bit _ (show 39 < 64 by decide), and_bit _ (show 33 < 64 by decide),
    and_bit _ (show 34 < 64 by decide)]
  rw [ranges, Ranges.decode, ← haddress]

/-- **The fields of a record**: the bits of the format can be read off them, they are what the format
says exactly when the bits above the address of stage 2 are zero, and two records with the same bits
are decoded to the same fields exactly when they have the same bits there. -/
theorem parseEvent_exact {record : Vector (BitVec 64) evtDwords}
    (h : (record.get 0).extractLsb' 0 8 ≠ 0) :
    (∃ e, parseEvent record = some e ∧ e.ranges = ranges record) ∧
      (parseEvent record = some (ranges record).decode ↔
        (record.get 3).extractLsb' 52 12 = 0) ∧
      ∀ record', ranges record' = ranges record →
        (parseEvent record' = parseEvent record ↔
          (record'.get 3).extractLsb' 52 12 = (record.get 3).extractLsb' 52 12) := by
  rw [parseEvent_eq h]
  refine ⟨⟨_, rfl, ?_⟩, ?_, fun record' hranges => ?_⟩
  · rw [EventRecord.ranges, extract_shifted]
    rfl
  · rw [Option.some.injEq, EventRecord.mk.injEq]
    simp only [true_and, and_true]
    exact shifted_eq_decode_iff _
  · have h' : (record'.get 0).extractLsb' 0 8 ≠ 0 :=
      fun hzero => h ((congrArg Ranges.code hranges).symm.trans hzero)
    have hipa : (record'.get 3).extractLsb' 12 40 = (record.get 3).extractLsb' 12 40 :=
      congrArg Ranges.ipa hranges
    rw [parseEvent_eq h', hranges, Option.some.injEq, EventRecord.mk.injEq]
    simp only [true_and, and_true]
    rw [shifted_eq_iff, and_iff_right hipa]

/-- A translation fault of a write, as the device's driver would see it. -/
theorem parseEvent_exact_fault :
    parseEvent #v[0x800000010, 0x8000000000, 0x202000, 0x202000] =
      some (ranges #v[0x800000010, 0x8000000000, 0x202000, 0x202000]).decode :=
  (parseEvent_exact (by decide)).2.1.mpr (by decide)

/-- With a bit set above the address of stage 2, the address is not the one the format gives. -/
theorem parseEvent_mixed :
    parseEvent #v[0x10, 0, 0, 0x10000000000000] ≠ some (ranges #v[0x10, 0, 0, 0x10000000000000]).decode ∧
      ranges #v[0x10, 0, 0, 0x10000000000000] = ranges #v[0x10, 0, 0, 0] ∧
      parseEvent #v[0x10, 0, 0, 0x10000000000000] ≠ parseEvent #v[0x10, 0, 0, 0] := by
  decide +kernel

end Smmu

end StarOS
