import Mathlib.Data.List.Range
import StarOS.Lib.Bits
import StarOS.Lib.ByteMemory

/-!
# Queues and events of virtio input devices

A queue is a table of descriptors and two rings in one run of memory. An event is eight bytes, and a
buffer the device fills holds as many whole ones as it says.

## Main definitions

* `Virtio.QueueLayout`, `Virtio.QueueLayout.new`
* `Virtio.Descriptor` and how it stands in memory
* `Virtio.InputEvent`, `Virtio.InputEvent.parseAll`, `Virtio.AbsInfo.normalise`

## Main results

* `Virtio.QueueLayout.new_spec` — for every size the three parts follow on each other
* `Virtio.readDescriptor_writeDescriptor` — a descriptor is read as it was written
* `Virtio.InputEvent.parseAll_flatMap` — whole events are read as they were written
-/

namespace StarOS

namespace Virtio

/-! ### The layout of a queue -/

/-- The size of one descriptor in the table. -/
def descBytes : ℕ := 16

/-- Where each of a queue's three regions begins. -/
structure QueueLayout where
  size : BitVec 16
  avail : ℕ
  used : ℕ
  total : ℕ
  deriving DecidableEq

namespace QueueLayout

/-- The layout for `size` descriptors with the used ring aligned to `align` bytes. -/
def new (size : BitVec 16) (align : ℕ) : Option QueueLayout :=
  if size = 0 ∨ 32768 < size.toNat ∨ ¬ size.toNat.isPowerOfTwo ∨ align = 0 then none
  else if ¬ align.isPowerOfTwo then none
  else
    let n := size.toNat
    let avail := n * descBytes
    let availEnd := avail + 6 + 2 * n
    -- the complement of `align - 1` in 64 bits
    let used := (availEnd + align - 1) &&& (2 ^ 64 - align)
    some ⟨size, avail, used, used + 6 + 8 * n⟩

variable {q : QueueLayout} {size : BitVec 16} {align : ℕ}

/-- The offset of the index of the available ring. -/
def availIdxOffset (q : QueueLayout) : ℕ := q.avail + 2

/-- The offset of a slot of the available ring. The number that selects it is free-running. -/
def availRingOffset (q : QueueLayout) (slot : BitVec 16) : ℕ :=
  q.avail + 4 + 2 * (slot % q.size).toNat

/-- The offset of the index of the used ring, which the device advances. -/
def usedIdxOffset (q : QueueLayout) : ℕ := q.used + 2

/-- The offset of an element of the used ring. -/
def usedRingOffset (q : QueueLayout) (slot : BitVec 16) : ℕ :=
  q.used + 4 + 8 * (slot % q.size).toNat

/-- What a layout promises: the parts follow on each other and are as long as they should be. -/
structure Laid (q : QueueLayout) : Prop where
  pos : 0 < q.size.toNat
  avail : q.avail = descBytes * q.size.toNat
  used : q.avail + 6 + 2 * q.size.toNat ≤ q.used
  total : q.total = q.used + 6 + 8 * q.size.toNat

/-- **The layout of every size is in order**, and the used ring is aligned. -/
theorem new_spec (halign : align < 2 ^ 64) (h : new size align = some q) :
    q.size = size ∧ q.Laid ∧ align ∣ q.used := by
  rw [new] at h
  split at h
  · cases h
  · next hsize =>
    split at h
    · cases h
    · next hpow =>
      obtain ⟨k, rfl⟩ := Decidable.not_not.mp hpow
      simp only [not_or, Nat.not_lt] at hsize
      obtain ⟨hne, hle, -, -⟩ := hsize
      have hk : k < 64 := (Nat.pow_lt_pow_iff_right (by decide)).mp halign
      have hhalf : 2 ^ k ≤ 2 ^ 63 := Nat.pow_le_pow_right (by decide) (by omega)
      have hpos : 0 < size.toNat := Nat.pos_of_ne_zero fun h0 => hne (BitVec.toNat_eq.mpr h0)
      have hand := Bits.and_not_low (x := size.toNat * descBytes + 6 + 2 * size.toNat + 2 ^ k - 1)
        (show _ < 2 ^ 64 by simp only [descBytes]; omega) hk.le
      obtain ⟨hdvd, hup, -⟩ := Bits.roundUp_spec
        (size.toNat * descBytes + 6 + 2 * size.toNat) (Nat.two_pow_pos k)
      rw [← hand] at hdvd hup
      simp only [Option.some.injEq] at h
      subst h
      exact ⟨rfl, ⟨hpos, Nat.mul_comm .., hup, rfl⟩, hdvd⟩

end QueueLayout

/-! ### Descriptors -/

/-- Descriptor flag: the device writes this buffer. -/
def descFWrite : BitVec 16 := 2

/-- Where a buffer is, how big, and whether the device may write it. -/
structure Descriptor where
  addr : BitVec 64
  len : BitVec 32
  flags : BitVec 16
  next : BitVec 16
  deriving DecidableEq

/-- The memory with a descriptor written to it. -/
def writeDescriptor (m : ByteMemory) (a : ℕ) (d : Descriptor) : ByteMemory :=
  ((((m.writeWord a (d.addr.extractLsb' 0 32)).writeWord (a + 4) (d.addr.extractLsb' 32 32)).writeWord
    (a + 8) d.len).writeHalf (a + 12) d.flags).writeHalf (a + 14) d.next

/-- The descriptor that stands at an address. -/
def readDescriptor (m : ByteMemory) (a : ℕ) : Descriptor where
  addr := m.readWord (a + 4) ++ m.readWord a
  len := m.readWord (a + 8)
  flags := m.readHalf (a + 12)
  next := m.readHalf (a + 14)

variable {m m' : ByteMemory} {a b c : ℕ} {d : Descriptor}

theorem readDescriptor_congr (h : ByteMemory.Agree m m' a (a + descBytes)) :
    readDescriptor m a = readDescriptor m' a := by
  simp only [readDescriptor, descBytes] at h ⊢
  rw [(h.mono (by omega) (by omega) : ByteMemory.Agree m m' a (a + 4)).readWord,
    (h.mono (by omega) (by omega) : ByteMemory.Agree m m' (a + 4) (a + 4 + 4)).readWord,
    (h.mono (by omega) (by omega) : ByteMemory.Agree m m' (a + 8) (a + 8 + 4)).readWord,
    (h.mono (by omega) (by omega) : ByteMemory.Agree m m' (a + 12) (a + 12 + 2)).readHalf,
    (h.mono (by omega) (by omega) : ByteMemory.Agree m m' (a + 14) (a + 14 + 2)).readHalf]

theorem agree_writeDescriptor (hout : c ≤ a ∨ a + descBytes ≤ b) :
    ByteMemory.Agree (writeDescriptor m a d) m b c := by
  rw [descBytes] at hout
  exact (ByteMemory.agree_writeHalf (by omega)).trans <|
    (ByteMemory.agree_writeHalf (by omega)).trans <|
    (ByteMemory.agree_writeWord (by omega)).trans <|
    (ByteMemory.agree_writeWord (by omega)).trans <| ByteMemory.agree_writeWord (by omega)

/-- **A descriptor is read as it was written.** -/
theorem readDescriptor_writeDescriptor : readDescriptor (writeDescriptor m a d) a = d := by
  have haddr : d.addr.extractLsb' 32 32 ++ d.addr.extractLsb' 0 32 = d.addr := by
    refine BitVec.eq_of_getLsbD_eq fun i hi => ?_
    simp only [BitVec.getLsbD_append, BitVec.getLsbD_extractLsb']
    grind
  -- each field is read after the writes behind it, none of which meets it
  have hnext : (writeDescriptor m a d).readHalf (a + 14) = d.next := ByteMemory.readHalf_writeHalf
  have hflags : (writeDescriptor m a d).readHalf (a + 12) = d.flags := by
    rw [writeDescriptor, (ByteMemory.agree_writeHalf (by omega)).readHalf,
      ByteMemory.readHalf_writeHalf]
  have hlen : (writeDescriptor m a d).readWord (a + 8) = d.len := by
    rw [writeDescriptor, (ByteMemory.agree_writeHalf (by omega)).readWord,
      (ByteMemory.agree_writeHalf (by omega)).readWord, ByteMemory.readWord_writeWord]
  have hhigh : (writeDescriptor m a d).readWord (a + 4) = d.addr.extractLsb' 32 32 := by
    rw [writeDescriptor, (ByteMemory.agree_writeHalf (by omega)).readWord,
      (ByteMemory.agree_writeHalf (by omega)).readWord,
      (ByteMemory.agree_writeWord (by omega)).readWord, ByteMemory.readWord_writeWord]
  have hlow : (writeDescriptor m a d).readWord a = d.addr.extractLsb' 0 32 := by
    rw [writeDescriptor, (ByteMemory.agree_writeHalf (by omega)).readWord,
      (ByteMemory.agree_writeHalf (by omega)).readWord,
      (ByteMemory.agree_writeWord (by omega)).readWord,
      (ByteMemory.agree_writeWord (by omega)).readWord, ByteMemory.readWord_writeWord]
  rw [readDescriptor, hnext, hflags, hlen, hhigh, hlow, haddr]

/-! ### Events -/

/-- Bytes in one input event. -/
def inputEventBytes : ℕ := 8

/-- One event: its class, which key, button or axis, and the value. -/
structure InputEvent where
  kind : BitVec 16
  code : BitVec 16
  value : BitVec 32
  deriving DecidableEq

/-- The event classes, as the device numbers them. -/
def ev.syn : BitVec 16 := 0
def ev.key : BitVec 16 := 1
def ev.abs : BitVec 16 := 3

/-- The axis codes. -/
def axis.x : BitVec 16 := 0
def axis.y : BitVec 16 := 1

/-- Whether a key code is a pointer button rather than a key of a keyboard. -/
def btn.isButton (code : BitVec 16) : Bool := code ≥ 0x100

/-- The whole pieces of `n` bytes. -/
def chunksExact (n : ℕ) (bytes : List (BitVec 8)) : List (List (BitVec 8)) :=
  (List.range (bytes.length / n)).map fun k => (bytes.drop (n * k)).take n

theorem chunksExact_append {n : ℕ} {l r : List (BitVec 8)} (hn : 0 < n) (hl : l.length = n) :
    chunksExact n (l ++ r) = l :: chunksExact n r := by
  have hcount : (l ++ r).length / n = r.length / n + 1 := by
    rw [List.length_append, hl, Nat.add_div_left _ hn]
  rw [chunksExact, hcount, List.range_succ_eq_map, List.map_cons, List.map_map, Nat.mul_zero,
    List.drop_zero, List.take_left' hl, chunksExact]
  refine congrArg (l :: ·) (List.map_congr_left fun k _ => ?_)
  rw [Function.comp_apply, Nat.mul_succ, Nat.add_comm, ← List.drop_drop, List.drop_left' hl]

namespace InputEvent

/-- One event from the bytes a device wrote, or `none` if they are too few. -/
def parse (bytes : List (BitVec 8)) : Option InputEvent :=
  if bytes.length < inputEventBytes then none
  else
    let b := fun i => bytes.getD i 0
    some ⟨b 1 ++ b 0, b 3 ++ b 2, b 7 ++ b 6 ++ b 5 ++ b 4⟩

/-- Every whole event in a buffer the device filled, in order. -/
def parseAll (bytes : List (BitVec 8)) : List InputEvent :=
  (chunksExact inputEventBytes bytes).filterMap parse

/-- The bytes of an event, as a device writes them. -/
def bytes (e : InputEvent) : List (BitVec 8) :=
  [e.kind.extractLsb' 0 8, e.kind.extractLsb' 8 8, e.code.extractLsb' 0 8, e.code.extractLsb' 8 8,
    e.value.extractLsb' 0 8, e.value.extractLsb' 8 8, e.value.extractLsb' 16 8,
    e.value.extractLsb' 24 8]

theorem length_bytes (e : InputEvent) : e.bytes.length = inputEventBytes := rfl

theorem parse_bytes (e : InputEvent) : parse e.bytes = some e := by
  rw [parse, length_bytes, if_neg (Nat.lt_irrefl _)]
  simp [bytes, ByteMemory.append_bytes_half, ByteMemory.append_bytes_word]

/-- **Whole events are read as they were written.** -/
theorem parseAll_flatMap (es : List InputEvent) : parseAll (es.flatMap bytes) = es := by
  induction es with
  | nil => rfl
  | cons e es ih =>
    rw [parseAll] at ih ⊢
    rw [List.flatMap_cons, chunksExact_append (by decide) e.length_bytes, List.filterMap_cons, parse_bytes, ih]

theorem length_flatMap_bytes (es : List InputEvent) :
    (es.flatMap bytes).length = inputEventBytes * es.length := by
  induction es with
  | nil => rfl
  | cons e es ih =>
    rw [List.flatMap_cons, List.length_append, ih, List.length_cons, Nat.mul_succ, Nat.add_comm]
    rfl

end InputEvent

/-! ### Axes -/

/-- The scale a normalised axis position uses. -/
def axisScale : ℕ := 65535

/-- The range of one absolute axis. -/
structure AbsInfo where
  min : BitVec 32
  max : BitVec 32
  deriving DecidableEq

/-- Where `value` sits on this axis, as a fraction of it scaled to `0..=axisScale`. -/
def AbsInfo.normalise (a : AbsInfo) (value : BitVec 32) : BitVec 32 :=
  -- the range of a device that has no such axis: the middle
  if a.max ≤ a.min then .ofNat 32 (axisScale / 2)
  else
    let span := (a.max - a.min).toNat
    let clamped := if value < a.min then a.min else if a.max < value then a.max else value
    let offset := (clamped - a.min).toNat
    .ofNat 32 (offset * axisScale / span)

end Virtio

end StarOS
