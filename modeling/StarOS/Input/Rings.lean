import StarOS.Input.Server
import StarOS.Lib.WrapRing

/-!
# The parts of the driver's queue

The memory of a queue, seen as its parts: the table, the two rings with their indices, and the
buffers behind them. A write to one part leaves the others alone.

## Main definitions

* `Inputsrv.eventq` — the layout of the queue
* `Inputsrv.Parts`, `Inputsrv.parts` — the parts, and those of a memory

## Main results

* `Inputsrv.setup_eq`, `Inputsrv.parts_filled` — the parts of a new queue
* `Inputsrv.parts_writeAvail`, `Inputsrv.parts_writeAvailIdx`, `Inputsrv.parts_writeUsed`,
  `Inputsrv.parts_writeUsedIdx`, `Inputsrv.parts_writeBuffer`
-/

namespace StarOS

namespace Inputsrv

open Virtio ByteMemory

/-- The layout of the queue. -/
def eventq : QueueLayout := ⟨8, 128, 4096, 4166⟩

theorem new_eventq : QueueLayout.new queueSize queueAlign = some eventq := by decide

/-- Where the buffers begin. -/
def buffersOff : ℕ := 4224

/-- The parts of a queue in memory. -/
@[ext] structure Parts where
  table : Fin 8 → Descriptor
  availIdx : BitVec 16
  avail : Fin 8 → BitVec 16
  usedIdx : BitVec 16
  /-- The used ring: which buffer, and how many bytes of it. -/
  used : Fin 8 → BitVec 32 × BitVec 32
  buffers : Fin 8 → List (BitVec 8)

/-- The parts of the queue that stands in a memory. -/
def parts (m : ByteMemory) : Parts where
  table i := readDescriptor m (i * descBytes)
  availIdx := m.readHalf 130
  avail i := m.readHalf (132 + 2 * i)
  usedIdx := m.readHalf 4098
  used i := (m.readWord (4100 + 8 * i), m.readWord (4100 + 8 * i + 4))
  buffers i := m.readBytes (buffersOff + i * eventBufBytes) eventBufBytes

variable {m m' : ByteMemory} {i : Fin 8} {count v : BitVec 16}

theorem availRingOffset_eventq (count : BitVec 16) :
    eventq.availRingOffset count = 132 + 2 * (WrapRing.place count : Fin 8) := rfl

theorem usedRingOffset_eventq (count : BitVec 16) :
    eventq.usedRingOffset count = 4100 + 8 * (WrapRing.place count : Fin 8) := rfl

/-! ### A part depends on its own bytes -/

theorem table_congr (h : Agree m m' 0 128) : (parts m).table = (parts m').table :=
  funext fun i => readDescriptor_congr (h.mono (Nat.zero_le _) (by simp only [descBytes]; omega))

theorem availIdx_congr (h : Agree m m' 130 132) : (parts m).availIdx = (parts m').availIdx :=
  h.readHalf

theorem avail_congr (h : Agree m m' 132 148) : (parts m).avail = (parts m').avail :=
  funext fun i => (h.mono (by omega) (by omega) : Agree m m' (132 + 2 * i) _).readHalf

theorem usedIdx_congr (h : Agree m m' 4098 4100) : (parts m).usedIdx = (parts m').usedIdx :=
  h.readHalf

theorem used_congr (h : Agree m m' 4100 4164) : (parts m).used = (parts m').used :=
  funext fun i => Prod.ext (h.mono (by omega) (by omega) : Agree m m' (4100 + 8 * i) _).readWord
    (h.mono (by omega) (by omega) : Agree m m' (4100 + 8 * i + 4) _).readWord

theorem buffers_congr (h : Agree m m' 4224 4480) : (parts m).buffers = (parts m').buffers :=
  funext fun i => (h.mono (by simp only [buffersOff]; omega)
    (by simp only [buffersOff, eventBufBytes]; omega) :
      Agree m m' (buffersOff + i * eventBufBytes) _).readBytes

/-! ### Writing a part -/

theorem parts_writeAvailIdx (m : ByteMemory) (v : BitVec 16) :
    parts (m.writeHalf eventq.availIdxOffset v) = { parts m with availIdx := v } :=
  Parts.ext (table_congr (agree_writeHalf (by decide))) readHalf_writeHalf
    (avail_congr (agree_writeHalf (by decide))) (usedIdx_congr (agree_writeHalf (by decide)))
    (used_congr (agree_writeHalf (by decide))) (buffers_congr (agree_writeHalf (by decide)))

theorem parts_writeUsedIdx (m : ByteMemory) (v : BitVec 16) :
    parts (m.writeHalf eventq.usedIdxOffset v) = { parts m with usedIdx := v } :=
  Parts.ext (table_congr (agree_writeHalf (by decide)))
    (availIdx_congr (agree_writeHalf (by decide))) (avail_congr (agree_writeHalf (by decide)))
    readHalf_writeHalf (used_congr (agree_writeHalf (by decide)))
    (buffers_congr (agree_writeHalf (by decide)))

theorem parts_writeAvail (m : ByteMemory) (count v : BitVec 16) :
    parts (m.writeHalf (eventq.availRingOffset count) v) =
      { parts m with avail := Function.update (parts m).avail (WrapRing.place count) v } := by
  rw [availRingOffset_eventq]
  generalize (WrapRing.place count : Fin 8) = k
  refine Parts.ext (table_congr (agree_writeHalf (by omega)))
    (availIdx_congr (agree_writeHalf (by omega)))
    (Function.eq_update_iff.mpr ⟨readHalf_writeHalf, fun i hik => ?_⟩)
    (usedIdx_congr (agree_writeHalf (by omega))) (used_congr (agree_writeHalf (by omega)))
    (buffers_congr (agree_writeHalf (by omega)))
  have hne : (i : ℕ) ≠ k := fun h => hik (Fin.ext h)
  exact (agree_writeHalf (by omega)).readHalf

theorem parts_writeUsed (m : ByteMemory) (count : BitVec 16) (id len : BitVec 32) :
    parts ((m.writeWord (eventq.usedRingOffset count) id).writeWord
        (eventq.usedRingOffset count + 4) len) =
      { parts m with used := Function.update (parts m).used (WrapRing.place count) (id, len) } := by
  rw [usedRingOffset_eventq]
  generalize (WrapRing.place count : Fin 8) = k
  have hout : ∀ a b, b ≤ 4100 + 8 * (k : ℕ) ∨ 4100 + 8 * (k : ℕ) + 8 ≤ a →
      Agree ((m.writeWord (4100 + 8 * k) id).writeWord (4100 + 8 * k + 4) len) m a b :=
    fun a b h => (agree_writeWord (by omega)).trans (agree_writeWord (by omega))
  refine Parts.ext (table_congr (hout _ _ (by omega))) (availIdx_congr (hout _ _ (by omega)))
    (avail_congr (hout _ _ (by omega))) (usedIdx_congr (hout _ _ (by omega)))
    (Function.eq_update_iff.mpr ⟨?_, fun i hik => ?_⟩) (buffers_congr (hout _ _ (by omega)))
  · exact Prod.ext ((agree_writeWord (by omega)).readWord.trans readWord_writeWord)
      readWord_writeWord
  · have hne : (i : ℕ) ≠ k := fun h => hik (Fin.ext h)
    exact Prod.ext (hout _ _ (by omega)).readWord (hout _ _ (by omega)).readWord

theorem parts_writeBuffer (m : ByteMemory) (k : Fin 8) (bs : List (BitVec 8))
    (hlen : bs.length ≤ eventBufBytes) :
    parts (m.writeBytes (buffersOff + k * eventBufBytes) bs) =
      { parts m with
        buffers := Function.update (parts m).buffers k
          (bs ++ ((parts m).buffers k).drop bs.length) } := by
  rw [eventBufBytes] at hlen
  have hout : ∀ a b : ℕ, b ≤ 4224 + k * 32 ∨ 4224 + k * 32 + bs.length ≤ a →
      Agree (m.writeBytes (buffersOff + k * eventBufBytes) bs) m a b :=
    fun _ _ h => agree_writeBytes h
  refine Parts.ext (table_congr (hout _ _ (by omega))) (availIdx_congr (hout _ _ (by omega)))
    (avail_congr (hout _ _ (by omega))) (usedIdx_congr (hout _ _ (by omega)))
    (used_congr (hout _ _ (by omega))) (Function.eq_update_iff.mpr ⟨?_, fun i hik => ?_⟩)
  · exact readBytes_writeBytes hlen
  · have hne : (i : ℕ) ≠ k := fun h => hik (Fin.ext h)
    exact (hout _ _ (by simp only [buffersOff, eventBufBytes]; omega)).readBytes

theorem parts_writeTable (m : ByteMemory) (k : Fin 8) (d : Descriptor) :
    parts (writeDescriptor m (k * descBytes) d) =
      { parts m with table := Function.update (parts m).table k d } := by
  have hout : ∀ a b : ℕ, b ≤ k * 16 ∨ k * 16 + 16 ≤ a →
      Agree (writeDescriptor m (k * descBytes) d) m a b := fun _ _ h => agree_writeDescriptor h
  refine Parts.ext
    (Function.eq_update_iff.mpr ⟨readDescriptor_writeDescriptor, fun i hik => ?_⟩)
    (availIdx_congr (hout _ _ (by omega))) (avail_congr (hout _ _ (by omega)))
    (usedIdx_congr (hout _ _ (by omega))) (used_congr (hout _ _ (by omega)))
    (buffers_congr (hout _ _ (by omega)))
  have hne : (i : ℕ) ≠ k := fun h => hik (Fin.ext h)
  exact readDescriptor_congr (hout _ _ (by simp only [descBytes]; omega))

/-! ### The queue at the start -/

/-- The memory of the queue when the device is told of it. -/
def filledQueue (phys : BitVec 64) : ByteMemory :=
  (fillQueue eventq (phys + .ofNat 64 buffersOff) (fun _ => 0) queueSize.toNat).writeHalf
    eventq.availIdxOffset queueSize

theorem setup_eq (absX absY : AbsInfo) (phys : BitVec 64) :
    setup absX absY phys =
      some (⟨eventq, buffersOff, 0, absX, absY, 0, 0, false⟩, filledQueue phys) := by
  rw [setup, new_eventq]
  rfl

theorem update_lt_succ {α : Type*} {f g : Fin 8 → α} {n : ℕ} (hn : n < 8) :
    Function.update (fun i : Fin 8 => if (i : ℕ) < n then g i else f i) ⟨n, hn⟩ (g ⟨n, hn⟩) =
      fun i : Fin 8 => if (i : ℕ) < n + 1 then g i else f i := by
  refine funext fun i => ?_
  rw [Function.update_apply]
  by_cases hi : i = ⟨n, hn⟩
  · subst hi
    rw [if_pos rfl, if_pos (Nat.lt_succ_self n)]
  · have hne : (i : ℕ) ≠ n := fun h => hi (Fin.ext h)
    rw [if_neg hi]
    exact if_congr (by omega) rfl rfl

/-- The parts after the first `n` buffers were made available. -/
theorem parts_fillQueue (b : BitVec 64) (m : ByteMemory) {n : ℕ} (hn : n ≤ 8) :
    parts (fillQueue eventq b m n) =
      { parts m with
        table := fun i => if (i : ℕ) < n then eventBuffer b i else (parts m).table i
        avail := fun i => if (i : ℕ) < n then .ofNat 16 i else (parts m).avail i } := by
  induction n with
  | zero => simp [fillQueue]
  | succ n ih =>
    have hplace : WrapRing.place (.ofNat 16 n : BitVec 16) = (⟨n, hn⟩ : Fin 8) := by
      rw [WrapRing.place_ofNat (by decide)]
      exact Fin.ext (Nat.mod_eq_of_lt hn)
    rw [fillQueue, parts_writeAvail, parts_writeTable _ ⟨n, hn⟩, ih (by omega), hplace]
    exact Parts.ext (update_lt_succ hn) rfl (update_lt_succ hn) rfl rfl rfl

/-- **A new queue**: every buffer is in the table and available, and nothing was used. -/
theorem parts_filled (phys : BitVec 64) :
    parts (filledQueue phys) =
      { parts (fun _ => 0) with
        table := fun i => eventBuffer (phys + .ofNat 64 buffersOff) i
        availIdx := queueSize
        avail := fun i => .ofNat 16 i
        usedIdx := 0 } := by
  have hlt : ∀ i : Fin 8, (i : ℕ) < queueSize.toNat := Fin.isLt
  rw [filledQueue, parts_writeAvailIdx, parts_fillQueue _ _ (n := queueSize.toNat) (by decide)]
  exact Parts.ext (funext fun i => if_pos (hlt i)) rfl (funext fun i => if_pos (hlt i)) rfl rfl rfl

end Inputsrv

end StarOS
