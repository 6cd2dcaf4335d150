import StarOS.Lib.ByteMemory

/-!
# Copying and filling memory

Bytes are copied eight at a time as long as both pointers are aligned and eight are left, and one at
a time from there. What overlaps is copied from the side where nothing is overwritten that has yet
to be read. Each loop leaves a memory in which some bytes are those of the source as it was.

## Main definitions

* `Primitives.memcpy`, `Primitives.memmove`, `Primitives.memset`
* `Primitives.moved`, `Primitives.filled` — a memory of which a part is copied, or filled

## Main results

* `Primitives.copyWords_eq`, `Primitives.copyBytes_eq`, `Primitives.copyBack_eq` — what the loops do
* `Primitives.memory_exact`
-/

namespace StarOS

namespace Primitives

/-- The loop over words. It returns the memory and how many bytes are done. -/
def copyWords (d s n i : ℕ) (m : ByteMemory) : ByteMemory × ℕ :=
  if i + 8 ≤ n then copyWords d s n (i + 8) (m.writeDouble (d + i) (m.readDouble (s + i)))
  else (m, i)
termination_by n - i

/-- The loop over single bytes. -/
def copyBytes (d s n i : ℕ) (m : ByteMemory) : ByteMemory :=
  if i < n then copyBytes d s n (i + 1) (Function.update m (d + i) (m (s + i))) else m
termination_by n - i

/-- The same loop from the end, with `i` bytes left. -/
def copyBack (d s : ℕ) : ℕ → ByteMemory → ByteMemory
  | 0, m => m
  | i + 1, m => copyBack d s i (Function.update m (d + i) (m (s + i)))

def memcpy (m : ByteMemory) (dst src n : ℕ) : ByteMemory × ℕ :=
  let p := if dst % 8 = 0 ∧ src % 8 = 0 then copyWords dst src n 0 m else (m, 0)
  (copyBytes dst src n p.2 p.1, dst)

def memmove (m : ByteMemory) (dst src n : ℕ) : ByteMemory × ℕ :=
  if dst < src then (copyBytes dst src n 0 m, dst) else (copyBack dst src n m, dst)

def setWords (d n : ℕ) (word : BitVec 64) (i : ℕ) (m : ByteMemory) : ByteMemory × ℕ :=
  if i + 8 ≤ n then setWords d n word (i + 8) (m.writeDouble (d + i) word) else (m, i)
termination_by n - i

def setBytes (d n : ℕ) (b : BitVec 8) (i : ℕ) (m : ByteMemory) : ByteMemory :=
  if i < n then setBytes d n b (i + 1) (Function.update m (d + i) b) else m
termination_by n - i

def memset (m : ByteMemory) (dst : ℕ) (byte : BitVec 32) (n : ℕ) : ByteMemory × ℕ :=
  let b := byte.truncate 8
  let p := if dst % 8 = 0 then setWords dst n (ByteMemory.ofBytes fun _ => b) 0 m else (m, 0)
  (setBytes dst n b p.2 p.1, dst)

/-- The memory with the bytes from `lo` to `hi` of a run copied from another as it was. -/
def moved (m : ByteMemory) (d s lo hi : ℕ) : ByteMemory := fun a =>
  if d + lo ≤ a ∧ a < d + hi then m (s + (a - d)) else m a

/-- The memory with the first bytes of a run filled. -/
def filled (m : ByteMemory) (d : ℕ) (b : BitVec 8) (hi : ℕ) : ByteMemory := fun a =>
  if d ≤ a ∧ a < d + hi then b else m a

variable {m : ByteMemory} {d s n i lo hi a : ℕ} {b : BitVec 8}

theorem moved_self : moved m d s lo lo = m := funext fun _ => if_neg (by omega)

theorem moved_of_not_mem (h : ¬ (d + lo ≤ a ∧ a < d + hi)) : moved m d s lo hi a = m a := if_neg h

/-- One byte more at the end. -/
theorem moved_succ (hi : ℕ) (hs : d + hi ≤ s + hi ∨ s + hi < d) :
    Function.update (moved m d s 0 hi) (d + hi) (moved m d s 0 hi (s + hi)) =
      moved m d s 0 (hi + 1) := by
  rw [moved_of_not_mem (show ¬ (d + 0 ≤ s + hi ∧ s + hi < d + hi) by omega)]
  funext a
  rcases eq_or_ne a (d + hi) with rfl | hne
  · rw [Function.update_self, moved, if_pos (by omega), Nat.add_sub_cancel_left]
  · have hmem : d + 0 ≤ a ∧ a < d + (hi + 1) ↔ d + 0 ≤ a ∧ a < d + hi := by omega
    rw [Function.update_of_ne hne]
    simp only [moved, hmem]

/-- One byte more at the beginning. -/
theorem moved_pred (lo : ℕ) (hlo : lo < hi) (hs : s + lo ≤ d + lo ∨ d + hi ≤ s + lo) :
    Function.update (moved m d s (lo + 1) hi) (d + lo) (moved m d s (lo + 1) hi (s + lo)) =
      moved m d s lo hi := by
  rw [moved_of_not_mem (show ¬ (d + (lo + 1) ≤ s + lo ∧ s + lo < d + hi) by omega)]
  funext a
  rcases eq_or_ne a (d + lo) with rfl | hne
  · rw [Function.update_self, moved, if_pos (by omega), Nat.add_sub_cancel_left]
  · have hmem : d + lo ≤ a ∧ a < d + hi ↔ d + (lo + 1) ≤ a ∧ a < d + hi := by omega
    rw [Function.update_of_ne hne]
    simp only [moved, hmem]

/-- One word more at the end. -/
theorem moved_word (i : ℕ) (hs : d + n ≤ s ∨ s + n ≤ d) (hi : i + 8 ≤ n) :
    (moved m d s 0 i).writeDouble (d + i) ((moved m d s 0 i).readDouble (s + i)) =
      moved m d s 0 (i + 8) := by
  funext a
  rw [ByteMemory.readDouble, ByteMemory.writeDouble_ofBytes]
  by_cases ha : d + i ≤ a ∧ a < d + i + 8
  · rw [if_pos ha, moved_of_not_mem (by omega), moved, if_pos (by omega)]
    congr 1
    omega
  · have hmem : d + 0 ≤ a ∧ a < d + (i + 8) ↔ d + 0 ≤ a ∧ a < d + i := by omega
    rw [if_neg ha]
    simp only [moved, hmem]

/-- The loop over words leaves less than a word to do. -/
theorem copyWords_eq (hs : d + n ≤ s ∨ s + n ≤ d) (hi : i ≤ n) :
    ∃ j ≤ n, copyWords d s n i (moved m d s 0 i) = (moved m d s 0 j, j) := by
  induction h : n - i using Nat.strong_induction_on generalizing i with
  | _ k ih =>
    rw [copyWords]
    by_cases hmore : i + 8 ≤ n
    · rw [if_pos hmore, moved_word i hs hmore]
      exact ih (n - (i + 8)) (by omega) hmore rfl
    · rw [if_neg hmore]
      exact ⟨i, hi, rfl⟩

/-- The loop over bytes ends where it should, if it overwrites nothing that it has yet to read. -/
theorem copyBytes_eq (hs : d ≤ s ∨ s + n ≤ d) (hi : i ≤ n) :
    copyBytes d s n i (moved m d s 0 i) = moved m d s 0 n := by
  induction h : n - i generalizing i with
  | zero => rw [copyBytes, if_neg (by omega), show i = n by omega]
  | succ k ih =>
    rw [copyBytes, if_pos (by omega), moved_succ i (by omega)]
    exact ih (by omega) (by omega)

theorem copyBack_eq (hs : s ≤ d ∨ d + n ≤ s) (hi : i ≤ n) :
    copyBack d s i (moved m d s i n) = moved m d s 0 n := by
  induction i with
  | zero => rfl
  | succ i ih =>
    rw [copyBack, moved_pred i hi (by omega)]
    exact ih (by omega)

theorem memcpy_eq (m : ByteMemory) (hs : d + n ≤ s ∨ s + n ≤ d) :
    memcpy m d s n = (moved m d s 0 n, d) := by
  have hbytes : ∀ i ≤ n, copyBytes d s n i (moved m d s 0 i) = moved m d s 0 n := fun i hi =>
    copyBytes_eq (by omega) hi
  rw [memcpy]
  split
  · obtain ⟨j, hj, hwords⟩ := copyWords_eq (m := m) hs (Nat.zero_le n)
    rw [moved_self] at hwords
    simp only [hwords, hbytes j hj]
  · have hzero := hbytes 0 (Nat.zero_le n)
    rw [moved_self] at hzero
    rw [hzero]

theorem memmove_eq (m : ByteMemory) (d s n : ℕ) : memmove m d s n = (moved m d s 0 n, d) := by
  rw [memmove]
  split
  case isTrue hlt =>
    have hforward := copyBytes_eq (m := m) (i := 0) (.inl hlt.le) (Nat.zero_le n)
    rw [moved_self] at hforward
    rw [hforward]
  case isFalse hge =>
    have hback := copyBack_eq (m := m) (.inl (Nat.not_lt.1 hge)) (Nat.le_refl n)
    rw [moved_self] at hback
    rw [hback]

/-! ### Filling -/

theorem filled_zero : filled m d b 0 = m := funext fun _ => if_neg (by omega)

theorem filled_succ (hi : ℕ) :
    Function.update (filled m d b hi) (d + hi) b = filled m d b (hi + 1) := by
  funext a
  rcases eq_or_ne a (d + hi) with rfl | hne
  · rw [Function.update_self, filled, if_pos (by omega)]
  · have hmem : d ≤ a ∧ a < d + (hi + 1) ↔ d ≤ a ∧ a < d + hi := by omega
    rw [Function.update_of_ne hne]
    simp only [filled, hmem]

theorem filled_word (i : ℕ) :
    (filled m d b i).writeDouble (d + i) (ByteMemory.ofBytes fun _ => b) =
      filled m d b (i + 8) := by
  funext a
  rw [ByteMemory.writeDouble_ofBytes]
  by_cases ha : d + i ≤ a ∧ a < d + i + 8
  · rw [if_pos ha, filled, if_pos (by omega)]
  · have hmem : d ≤ a ∧ a < d + (i + 8) ↔ d ≤ a ∧ a < d + i := by omega
    rw [if_neg ha]
    simp only [filled, hmem]

theorem setWords_eq (hi : i ≤ n) :
    ∃ j ≤ n, setWords d n (ByteMemory.ofBytes fun _ => b) i (filled m d b i) =
      (filled m d b j, j) := by
  induction h : n - i using Nat.strong_induction_on generalizing i with
  | _ k ih =>
    rw [setWords]
    by_cases hmore : i + 8 ≤ n
    · rw [if_pos hmore, filled_word]
      exact ih (n - (i + 8)) (by omega) hmore rfl
    · rw [if_neg hmore]
      exact ⟨i, hi, rfl⟩

theorem setBytes_eq (hi : i ≤ n) : setBytes d n b i (filled m d b i) = filled m d b n := by
  induction h : n - i generalizing i with
  | zero => rw [setBytes, if_neg (by omega), show i = n by omega]
  | succ k ih =>
    rw [setBytes, if_pos (by omega), filled_succ]
    exact ih (by omega) (by omega)

theorem memset_eq (m : ByteMemory) (d : ℕ) (byte : BitVec 32) (n : ℕ) :
    memset m d byte n = (filled m d (byte.truncate 8) n, d) := by
  rw [memset]
  split
  · obtain ⟨j, hj, hwords⟩ := setWords_eq (m := m) (d := d) (b := byte.truncate 8) (Nat.zero_le n)
    rw [filled_zero] at hwords
    simp only [hwords, setBytes_eq hj]
  · have hbytes := setBytes_eq (m := m) (d := d) (b := byte.truncate 8) (Nat.zero_le n)
    rw [filled_zero] at hbytes
    rw [hbytes]

/-- For every length and all alignments: `memcpy` of runs that do not meet, and `memmove` of any,
leave the bytes of the source as they were before the call, `memset` leaves the low byte of its
argument, and no other byte changes. -/
theorem memory_exact :
    (∀ (m : ByteMemory) (dst src n : ℕ), dst + n ≤ src ∨ src + n ≤ dst →
      (∀ k < n, (memcpy m dst src n).1 (dst + k) = m (src + k)) ∧
        ∀ a, a < dst ∨ dst + n ≤ a → (memcpy m dst src n).1 a = m a) ∧
    (∀ (m : ByteMemory) (dst src n : ℕ),
      (∀ k < n, (memmove m dst src n).1 (dst + k) = m (src + k)) ∧
        ∀ a, a < dst ∨ dst + n ≤ a → (memmove m dst src n).1 a = m a) ∧
    ∀ (m : ByteMemory) (dst : ℕ) (byte : BitVec 32) (n : ℕ),
      (∀ k < n, (memset m dst byte n).1 (dst + k) = byte.truncate 8) ∧
        ∀ a, a < dst ∨ dst + n ≤ a → (memset m dst byte n).1 a = m a := by
  have hmoved : ∀ (m : ByteMemory) (d s n : ℕ),
      (∀ k < n, moved m d s 0 n (d + k) = m (s + k)) ∧
        ∀ a, a < d ∨ d + n ≤ a → moved m d s 0 n a = m a := by
    intro m d s n
    refine ⟨fun k hk => ?_, fun a ha => moved_of_not_mem (by omega)⟩
    rw [moved, if_pos (by omega), Nat.add_sub_cancel_left]
  refine ⟨fun m dst src n hs => ?_, fun m dst src n => ?_, fun m dst byte n => ⟨fun k hk => ?_,
    fun a ha => ?_⟩⟩
  · rw [memcpy_eq m hs]
    exact hmoved m dst src n
  · rw [memmove_eq]
    exact hmoved m dst src n
  · rw [memset_eq]
    exact if_pos (by omega)
  · rw [memset_eq]
    exact if_neg (by omega)

end Primitives

end StarOS
