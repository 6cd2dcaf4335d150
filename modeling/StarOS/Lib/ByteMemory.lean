import Mathlib.Algebra.Group.Nat.Defs
import Mathlib.Algebra.Order.Group.Nat
import Mathlib.Tactic.Common
import Mathlib.Tactic.IntervalCases

/-!
# Memory by bytes, in words of 32 bits

Memory is a function from addresses to bytes. A word is four bytes, the lowest first, and half a word
is two.

## Main definitions

* `ByteMemory.readWord`, `ByteMemory.readHalf`, `ByteMemory.readBytes`, and the same for writing
* `ByteMemory.readDouble`, `ByteMemory.writeDouble` — and eight bytes at once
* `ByteMemory.Agree` — two memories are the same from one address to another

## Main results

* `ByteMemory.readWord_writeWord` — a word written is read back
* `ByteMemory.readWord_writeWord_of_disjoint` — and words that do not meet it are as they were
-/

/-- Bytes by address. -/
abbrev ByteMemory := ℕ → BitVec 8

namespace ByteMemory

/-- The word at an address. -/
def readWord (m : ByteMemory) (a : ℕ) : BitVec 32 := m (a + 3) ++ m (a + 2) ++ m (a + 1) ++ m a

/-- The memory with a word written to it. -/
def writeWord (m : ByteMemory) (a : ℕ) (v : BitVec 32) : ByteMemory := fun i =>
  if i = a then v.extractLsb' 0 8
  else if i = a + 1 then v.extractLsb' 8 8
  else if i = a + 2 then v.extractLsb' 16 8
  else if i = a + 3 then v.extractLsb' 24 8
  else m i

variable {m : ByteMemory} {a b i : ℕ} {v : BitVec 32}

theorem writeWord_of_outside (h : i < a ∨ a + 4 ≤ i) : m.writeWord a v i = m i := by
  rw [writeWord, if_neg (by omega), if_neg (by omega), if_neg (by omega), if_neg (by omega)]

/-- A word is its bytes. -/
theorem append_bytes_word (v : BitVec 32) :
    v.extractLsb' 24 8 ++ v.extractLsb' 16 8 ++ v.extractLsb' 8 8 ++ v.extractLsb' 0 8 = v := by
  refine BitVec.eq_of_getLsbD_eq fun i hi => ?_
  simp only [BitVec.getLsbD_append, BitVec.getLsbD_extractLsb']
  grind

theorem readWord_writeWord : (m.writeWord a v).readWord a = v := by
  simp [readWord, writeWord, append_bytes_word]

/-- **Words that do not meet are independent.** -/
theorem readWord_writeWord_of_disjoint (h : b + 4 ≤ a ∨ a + 4 ≤ b) :
    (m.writeWord a v).readWord b = m.readWord b := by
  simp only [readWord]
  rw [writeWord_of_outside (by omega), writeWord_of_outside (by omega),
    writeWord_of_outside (by omega), writeWord_of_outside (by omega)]

/-! ### Halves and runs of bytes -/

/-- The half word at an address. -/
def readHalf (m : ByteMemory) (a : ℕ) : BitVec 16 := m (a + 1) ++ m a

/-- The memory with half a word written to it. -/
def writeHalf (m : ByteMemory) (a : ℕ) (v : BitVec 16) : ByteMemory := fun i =>
  if i = a then v.extractLsb' 0 8 else if i = a + 1 then v.extractLsb' 8 8 else m i

/-- The bytes from an address on. -/
def readBytes (m : ByteMemory) (a n : ℕ) : List (BitVec 8) := (List.range n).map fun k => m (a + k)

/-- The memory with bytes written to it from an address on. -/
def writeBytes (m : ByteMemory) (a : ℕ) (bs : List (BitVec 8)) : ByteMemory := fun i =>
  if a ≤ i ∧ i < a + bs.length then bs.getD (i - a) 0 else m i

variable {h : BitVec 16} {bs : List (BitVec 8)} {n : ℕ} {m' : ByteMemory}

/-- Half a word is its bytes. -/
theorem append_bytes_half (h : BitVec 16) : h.extractLsb' 8 8 ++ h.extractLsb' 0 8 = h := by
  refine BitVec.eq_of_getLsbD_eq fun i hi => ?_
  simp only [BitVec.getLsbD_append, BitVec.getLsbD_extractLsb']
  grind

theorem readHalf_writeHalf : (m.writeHalf a h).readHalf a = h := by
  simp [readHalf, writeHalf, append_bytes_half]

/-- What is written stands in front of what was there. -/
theorem readBytes_writeBytes (hlen : bs.length ≤ n) :
    (m.writeBytes a bs).readBytes a n = bs ++ (m.readBytes a n).drop bs.length := by
  refine List.ext_getElem (by simp [readBytes]; omega) fun k _ _ => ?_
  by_cases hk : k < bs.length
  · simp [readBytes, writeBytes, hk, List.getD_eq_getElem?_getD]
  · simp [readBytes, writeBytes, hk, List.getElem_append, Nat.add_sub_cancel' (Nat.not_lt.mp hk)]

@[simp] theorem length_readBytes (m : ByteMemory) (a n : ℕ) : (m.readBytes a n).length = n := by
  rw [readBytes, List.length_map, List.length_range]

theorem take_readBytes {k : ℕ} (hk : k ≤ n) : (m.readBytes a n).take k = m.readBytes a k := by
  rw [readBytes, ← List.map_take, List.take_range, Nat.min_eq_left hk, readBytes]

/-- The two memories are the same from `a` up to `b`. -/
def Agree (m m' : ByteMemory) (a b : ℕ) : Prop := ∀ i, a ≤ i → i < b → m i = m' i

theorem Agree.trans {m'' : ByteMemory} (h : Agree m m' a b) (h' : Agree m' m'' a b) :
    Agree m m'' a b := fun i ha hb => (h i ha hb).trans (h' i ha hb)

theorem Agree.mono {c d : ℕ} (h : Agree m m' a b) (hac : a ≤ c) (hdb : d ≤ b) :
    Agree m m' c d := fun i hc hd => h i (hac.trans hc) (hd.trans_le hdb)

theorem Agree.readWord (h : Agree m m' a (a + 4)) : m.readWord a = m'.readWord a := by
  simp only [ByteMemory.readWord]
  rw [h a (by omega) (by omega), h (a + 1) (by omega) (by omega), h (a + 2) (by omega) (by omega),
    h (a + 3) (by omega) (by omega)]

theorem Agree.readHalf (h : Agree m m' a (a + 2)) : m.readHalf a = m'.readHalf a := by
  simp only [ByteMemory.readHalf]
  rw [h a (by omega) (by omega), h (a + 1) (by omega) (by omega)]

theorem Agree.readBytes (h : Agree m m' a (a + n)) : m.readBytes a n = m'.readBytes a n :=
  List.map_congr_left fun k hk =>
    h (a + k) (Nat.le_add_right ..) (Nat.add_lt_add_left (List.mem_range.mp hk) a)

/-! What is written changes nothing outside of it. -/

theorem agree_writeWord {c d : ℕ} (hout : d ≤ a ∨ a + 4 ≤ c) : Agree (m.writeWord a v) m c d :=
  fun _ hc hd => writeWord_of_outside (by omega)

theorem agree_writeHalf {c d : ℕ} (hout : d ≤ a ∨ a + 2 ≤ c) : Agree (m.writeHalf a h) m c d := by
  intro i hc hd
  rw [writeHalf, if_neg (by omega), if_neg (by omega)]

theorem agree_writeBytes {c d : ℕ} (hout : d ≤ a ∨ a + bs.length ≤ c) :
    Agree (m.writeBytes a bs) m c d := by
  intro i hc hd
  rw [writeBytes, if_neg (by omega)]

/-! ### Double words -/

/-- Eight bytes as one word. -/
def ofBytes (f : ℕ → BitVec 8) : BitVec 64 := f 7 ++ f 6 ++ f 5 ++ f 4 ++ f 3 ++ f 2 ++ f 1 ++ f 0

/-- The double word at an address. -/
def readDouble (m : ByteMemory) (a : ℕ) : BitVec 64 := ofBytes fun k => m (a + k)

/-- The memory with a double word written to it. -/
def writeDouble (m : ByteMemory) (a : ℕ) (v : BitVec 64) : ByteMemory := fun i =>
  if a ≤ i ∧ i < a + 8 then v.extractLsb' (8 * (i - a)) 8 else m i

theorem extract_ofBytes (f : ℕ → BitVec 8) (k : ℕ) (hk : k < 8) :
    (ofBytes f).extractLsb' (8 * k) 8 = f k := by
  refine BitVec.eq_of_getLsbD_eq fun i hi => ?_
  simp only [ofBytes, BitVec.getLsbD_append, BitVec.getLsbD_extractLsb']
  interval_cases k
  all_goals grind

/-- The bytes of a double word that is written. -/
theorem writeDouble_ofBytes (m : ByteMemory) (a : ℕ) (f : ℕ → BitVec 8) (i : ℕ) :
    m.writeDouble a (ofBytes f) i = if a ≤ i ∧ i < a + 8 then f (i - a) else m i := by
  rw [writeDouble]
  split
  · exact extract_ofBytes f (i - a) (by omega)
  · rfl

variable {w : BitVec 64}

theorem writeDouble_of_outside (h : i < a ∨ a + 8 ≤ i) : m.writeDouble a w i = m i := by
  rw [writeDouble, if_neg (by omega)]

/-- A double word is its bytes. -/
theorem ofBytes_extract (v : BitVec 64) : ofBytes (fun k => v.extractLsb' (8 * k) 8) = v := by
  refine BitVec.eq_of_getLsbD_eq fun i hi => ?_
  simp only [ofBytes, BitVec.getLsbD_append, BitVec.getLsbD_extractLsb']
  grind

theorem readDouble_writeDouble : (m.writeDouble a w).readDouble a = w := by
  rw [readDouble]
  conv_rhs => rw [← ofBytes_extract w]
  simp [ofBytes, writeDouble]

theorem readDouble_congr {m' : ByteMemory} (h : ∀ i, a ≤ i → i < a + 8 → m' i = m i) :
    m'.readDouble a = m.readDouble a := by
  simp only [readDouble, ofBytes]
  rw [h (a + 7) (by omega) (by omega), h (a + 6) (by omega) (by omega),
    h (a + 5) (by omega) (by omega), h (a + 4) (by omega) (by omega),
    h (a + 3) (by omega) (by omega), h (a + 2) (by omega) (by omega),
    h (a + 1) (by omega) (by omega), h (a + 0) (by omega) (by omega)]

end ByteMemory
