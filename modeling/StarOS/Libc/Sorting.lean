import StarOS.Lib.HeapSort

/-!
# Sorting and searching untyped memory

The elements of an array are so many bytes each, and what orders them is a function that is called
with the addresses of two of them. It may remember its calls and answer as it likes. Memory that is
not mapped is neither read nor written: where that would be done the run faults. A bound on the
turns of each loop is a parameter.

## Main definitions

* `Sorting.swap`, `Sorting.siftDown`, `Sorting.sort`, `Sorting.search`
* `Sorting.Laid` — a memory with an array in it, which is another memory around it

## Main results

* `Sorting.Laid.swap` — two elements exchanged
* `Sorting.siftDown_eq`, `Sorting.sort_eq` — the bytes follow the elements, which are sorted by a
  heap
* `Sorting.searchLoop_found`
* `Sorting.sort_exact`
-/

namespace StarOS

namespace Sorting

/-- The bytes that are mapped. -/
abbrev Memory := ℕ → Option UInt8

def store (m : Memory) (a : ℕ) (v : UInt8) : Option Memory :=
  if (m a).isSome then some (Function.update m a (some v)) else none

/-- The first bytes of two runs, exchanged one by one. -/
def swapBytes (a b : ℕ) : ℕ → Memory → Option Memory
  | 0, m => some m
  | i + 1, m => do
    let m ← swapBytes a b i m
    let t ← m (a + i)
    let u ← m (b + i)
    let m ← store m (a + i) u
    store m (b + i) t

def swap (m : Memory) (a b size : ℕ) : Option Memory :=
  if a = b then some m else swapBytes a b size m

/-- What a comparison is called with: an address, and the bytes that are there. -/
structure Pointee (size : ℕ) where
  address : ℕ
  bytes : Fin size → UInt8

def load (m : Memory) (a size : ℕ) : Option (Fin size → UInt8) :=
  if h : ∀ k : Fin size, (m (a + k)).isSome then some fun k => (m (a + k)).get (h k) else none

/-- A comparison, with whatever it remembers. -/
abbrev Compare (σ : Type) (size : ℕ) := σ → Pointee size → Pointee size → ℤ × σ

section

variable {σ : Type} {size : ℕ} (cmp : Compare σ size) (base : ℕ)

def greater (m : Memory) (i j : ℕ) (s : σ) : Option (Bool × σ) := do
  let x ← load m (base + i * size) size
  let y ← load m (base + j * size) size
  let answer := cmp s ⟨base + i * size, x⟩ ⟨base + j * size, y⟩
  some (decide (answer.1 > 0), answer.2)

/-- Which of an element and its children is greatest, where it has a left one. -/
def largest (m : Memory) (count root : ℕ) (s : σ) : Option (ℕ × σ) := do
  let left := 2 * root + 1
  let p ← greater cmp base m left root s
  let largest := if p.1 then left else root
  let right := left + 1
  if right < count then do
    let q ← greater cmp base m right largest p.2
    some (if q.1 then right else largest, q.2)
  else some (largest, p.2)

def siftDown (count : ℕ) : ℕ → ℕ → Memory → σ → Option (Memory × σ)
  | 0, _, _, _ => none
  | turns + 1, root, m, s =>
    let left := 2 * root + 1
    if left ≥ count then some (m, s)
    else do
      let p ← largest cmp base m count root s
      if p.1 = root then some (m, p.2)
      else do
        let m ← swap m (base + root * size) (base + p.1 * size) size
        siftDown count turns p.1 m p.2

/-- The first loop: the elements below `start`, from the last down. -/
def heapify (count turns : ℕ) : ℕ → Memory → σ → Option (Memory × σ)
  | 0, m, s => some (m, s)
  | start + 1, m, s => do
    let p ← siftDown cmp base count turns start m s
    heapify count turns start p.1 p.2

/-- The second loop: the ends of the heap from the last down to 1. -/
def extract (turns : ℕ) : ℕ → Memory → σ → Option (Memory × σ)
  | 0, m, s => some (m, s)
  | last + 1, m, s => do
    let m ← swap m base (base + (last + 1) * size) size
    let p ← siftDown cmp base (last + 1) turns 0 m s
    extract turns last p.1 p.2

def sort (count turns : ℕ) (m : Memory) (s : σ) : Option (Memory × σ) :=
  if count < 2 ∨ size = 0 then some (m, s)
  else do
    let p ← heapify cmp base count turns (count / 2) m s
    extract cmp base turns (count - 1) p.1 p.2

variable (order : σ → Pointee size → ℤ × σ)

/-- `order` compares the key with an element. -/
def searchLoop (m : Memory) : ℕ → ℕ → ℕ → σ → Option (Option ℕ × σ)
  | 0, _, _, _ => none
  | turns + 1, lo, hi, s =>
    if lo < hi then do
      let mid := lo + (hi - lo) / 2
      let x ← load m (base + mid * size) size
      let answer := order s ⟨base + mid * size, x⟩
      if answer.1 = 0 then some (some mid, answer.2)
      else if answer.1 < 0 then searchLoop m turns lo mid answer.2
      else searchLoop m turns (mid + 1) hi answer.2
    else some (none, s)

def search (count turns : ℕ) (m : Memory) (s : σ) : Option (Option ℕ × σ) :=
  if size = 0 then some (none, s) else searchLoop base order m turns 0 count s

end

/-! ### An array in memory -/

variable {σ : Type} {size base n count turns root i j k a b : ℕ} {cmp : Compare σ size}
  {m m₀ m' : Memory} {e : ℕ → Fin size → UInt8} {s : σ}

/-- The elements of an array are in memory, one behind the other. -/
def Holds (m : Memory) (base n : ℕ) (e : ℕ → Fin size → UInt8) : Prop :=
  ∀ i < n, ∀ k : Fin size, m (base + i * size + k) = some (e i k)

/-- An array, in a memory that is `m₀` around it. -/
structure Laid (m₀ : Memory) (base n : ℕ) (e : ℕ → Fin size → UInt8) (m : Memory) : Prop where
  inside : Holds m base n e
  outside : ∀ x, x < base ∨ base + n * size ≤ x → m x = m₀ x

theorem Laid.load (h : Laid m₀ base n e m) (hi : i < n) :
    load m (base + i * size) size = some (e i) := by
  have hsome : ∀ k : Fin size, (m (base + i * size + k)).isSome := fun k => by
    rw [h.inside i hi k]
    rfl
  rw [Sorting.load, dif_pos hsome]
  congr 1
  funext k
  exact Option.get_of_eq_some (hsome k) (h.inside i hi k)

theorem mul_add_le (h : i < j) (size : ℕ) : i * size + size ≤ j * size := by
  rw [← Nat.succ_mul]
  exact Nat.mul_le_mul_right size h

/-- Two runs of `n` bytes changed over. -/
def exchanged (m : Memory) (a b n : ℕ) : Memory := fun x =>
  if a ≤ x ∧ x < a + n then m (x - a + b)
  else if b ≤ x ∧ x < b + n then m (x - b + a)
  else m x

theorem store_eq (h : (m a).isSome) (v : UInt8) :
    store m a v = some (Function.update m a (some v)) := if_pos h

theorem swapBytes_eq (ha : ∀ k < n, (m (a + k)).isSome) (hb : ∀ k < n, (m (b + k)).isSome)
    (hab : a + n ≤ b ∨ b + n ≤ a) : swapBytes a b n m = some (exchanged m a b n) := by
  induction n with
  | zero =>
    rw [swapBytes]
    congr 1
    funext x
    rw [exchanged, if_neg (by omega), if_neg (by omega)]
  | succ n ih =>
    have hfirst : exchanged m a b n (a + n) = m (a + n) := by
      rw [exchanged, if_neg (by omega), if_neg (by omega)]
    have hsecond : exchanged m a b n (b + n) = m (b + n) := by
      rw [exchanged, if_neg (by omega), if_neg (by omega)]
    obtain ⟨t, ht⟩ := Option.isSome_iff_exists.1 (ha n (Nat.lt_succ_self n))
    obtain ⟨u, hu⟩ := Option.isSome_iff_exists.1 (hb n (Nat.lt_succ_self n))
    have hne : b + n ≠ a + n := by omega
    have hwrite := store_eq (m := exchanged m a b n) (by rw [hfirst, ht]; rfl) u
    have hback := store_eq (m := Function.update (exchanged m a b n) (a + n) (some u))
      (by rw [Function.update_of_ne hne, hsecond, hu]; rfl) t
    simp only [swapBytes, ih (fun k hk => ha k (by omega)) (fun k hk => hb k (by omega)) (by omega),
      Option.bind_eq_bind, Option.bind_some, hfirst, hsecond, ht, hu, hwrite, hback]
    congr 1
    funext x
    rcases eq_or_ne x (b + n) with rfl | hxb
    · rw [Function.update_self, exchanged, if_neg (by omega), if_pos (by omega), ← ht]
      congr 1
      omega
    · rw [Function.update_of_ne hxb]
      rcases eq_or_ne x (a + n) with rfl | hxa
      · rw [Function.update_self, exchanged, if_pos (by omega), ← hu]
        congr 1
        omega
      · have hax : a ≤ x ∧ x < a + (n + 1) ↔ a ≤ x ∧ x < a + n := by omega
        have hbx : b ≤ x ∧ x < b + (n + 1) ↔ b ≤ x ∧ x < b + n := by omega
        simp only [Function.update_of_ne hxa, exchanged, hax, hbx]

/-- Two elements exchanged. -/
theorem Laid.swap (h : Laid m₀ base n e m) (hij : i < j) (hj : j < n) (hsize : 0 < size) :
    ∃ m', swap m (base + i * size) (base + j * size) size = some m' ∧
      Laid m₀ base n (e ∘ Equiv.swap i j) m' := by
  have hapart := mul_add_le hij size
  have hend := mul_add_le hj size
  have hmapped : ∀ i < n, ∀ k < size, (m (base + i * size + k)).isSome := by
    intro i hi k hk
    rw [h.inside i hi ⟨k, hk⟩]
    rfl
  refine ⟨exchanged m (base + i * size) (base + j * size) size, ?_, ?_, ?_⟩
  · rw [Sorting.swap, if_neg (by omega)]
    exact swapBytes_eq (hmapped i (by omega)) (hmapped j hj) (by omega)
  · intro l hl k
    have hk := k.isLt
    rw [exchanged, Function.comp_apply]
    rcases eq_or_ne l i with rfl | hli
    · rw [if_pos (by omega), Equiv.swap_apply_left, ← h.inside j hj k]
      congr 1
      omega
    · have hil : i * size + size ≤ l * size ∨ l * size + size ≤ i * size :=
        (lt_or_gt_of_ne hli).symm.imp (mul_add_le · size) (mul_add_le · size)
      rw [if_neg (by omega)]
      rcases eq_or_ne l j with rfl | hlj
      · rw [if_pos (by omega), Equiv.swap_apply_right, ← h.inside i (by omega) k]
        congr 1
        omega
      · have hjl : j * size + size ≤ l * size ∨ l * size + size ≤ j * size :=
          (lt_or_gt_of_ne hlj).symm.imp (mul_add_le · size) (mul_add_le · size)
        rw [if_neg (by omega), Equiv.swap_apply_of_ne_of_ne hli hlj]
        exact h.inside l hl k
  · intro x hx
    rw [exchanged, if_neg (by omega), if_neg (by omega)]
    exact h.outside x hx

/-! ### The elements are sorted by a heap -/

/-- The comparison as it is asked for two elements and their places. -/
def oracle (cmp : Compare σ size) (base : ℕ) : HeapSort.Oracle σ (Fin size → UInt8) :=
  fun s x y =>
    let answer := cmp s ⟨base + x.1 * size, x.2⟩ ⟨base + y.1 * size, y.2⟩
    (decide (answer.1 > 0), answer.2)

theorem Laid.greater (h : Laid m₀ base n e m) (hi : i < n) (hj : j < n) :
    greater cmp base m i j s = some (oracle cmp base s (i, e i) (j, e j)) := by
  rw [Sorting.greater, h.load hi, h.load hj]
  rfl

theorem Laid.largest (h : Laid m₀ base n e m) (hcount : count ≤ n) (hlt : 2 * root + 1 < count) :
    largest cmp base m count root s =
      some (HeapSort.largest (oracle cmp base) count root e s) := by
  have hmem := HeapSort.larger_mem (oracle cmp base) e s (2 * root + 1) root
  unfold HeapSort.largest HeapSort.larger at *
  rw [Sorting.largest, h.greater (by omega) (by omega)]
  dsimp only [Option.bind_eq_bind, Option.bind_some] at hmem ⊢
  split
  · rw [h.greater (by omega) (by omega)]
    rfl
  · rfl

theorem siftDown_eq (cmp : Compare σ size) (s : σ) (h : Laid m₀ base n e m) (hsize : 0 < size)
    (hcount : count ≤ n) (hturns : count < root + turns) (hroot : root < count) :
    ∃ m', siftDown cmp base count turns root m s =
        some (m', (HeapSort.sift (oracle cmp base) count root e s).2) ∧
      Laid m₀ base n (HeapSort.sift (oracle cmp base) count root e s).1 m' := by
  induction turns generalizing root e m s with
  | zero => omega
  | succ turns ih =>
    rw [HeapSort.sift]
    by_cases hlt : 2 * root + 1 < count
    · have hchild : (HeapSort.largest (oracle cmp base) count root e s).1 ≠ root → _ :=
        HeapSort.lt_largest hlt
      rw [dif_pos hlt, siftDown, if_neg (Nat.not_le.2 hlt), h.largest hcount hlt,
        Option.bind_eq_bind, Option.bind_some]
      generalize HeapSort.largest (oracle cmp base) count root e s = p at hchild
      by_cases hp : p.1 = root
      · rw [if_pos hp]
        simp only [dif_pos hp]
        exact ⟨m, rfl, h⟩
      · obtain ⟨hlower, hbelow⟩ := hchild hp
        obtain ⟨m₁, hswap, hlaid⟩ := h.swap hlower (hbelow.trans_le hcount) hsize
        rw [if_neg hp, hswap, Option.bind_eq_bind, Option.bind_some]
        simp only [dif_neg hp]
        exact ih _ hlaid (by omega) hbelow
    · rw [dif_neg hlt, siftDown, if_pos (Nat.le_of_not_lt hlt)]
      exact ⟨m, rfl, h⟩

theorem heapify_eq (cmp : Compare σ size) (s : σ) (h : Laid m₀ base n e m) (hsize : 0 < size)
    (hturns : n < turns) (hk : k ≤ n) :
    ∃ m', heapify cmp base n turns k m s =
        some (m', (HeapSort.build (oracle cmp base) n k e s).2) ∧
      Laid m₀ base n (HeapSort.build (oracle cmp base) n k e s).1 m' := by
  induction k generalizing e m s with
  | zero => exact ⟨m, rfl, h⟩
  | succ k ih =>
    obtain ⟨m₁, hsift, hlaid⟩ := siftDown_eq cmp s h hsize (Nat.le_refl n)
      (show n < k + turns by omega) hk
    rw [heapify, hsift, Option.bind_eq_bind, Option.bind_some]
    exact ih _ hlaid (by omega)

theorem extract_eq (h : Laid m₀ base n e m) (hsize : 0 < size) (hturns : n < turns) (hk : k < n) :
    ∃ m', extract cmp base turns k m s =
        some (m', (HeapSort.drain (oracle cmp base) k e s).2) ∧
      Laid m₀ base n (HeapSort.drain (oracle cmp base) k e s).1 m' := by
  induction k generalizing e m s with
  | zero => exact ⟨m, rfl, h⟩
  | succ k ih =>
    obtain ⟨m₁, hswap, hlaid⟩ := h.swap (Nat.succ_pos k) hk hsize
    obtain ⟨m₂, hsift, hlaid⟩ := siftDown_eq cmp s hlaid hsize hk.le
      (show k + 1 < 0 + turns by omega) (Nat.succ_pos k)
    rw [Nat.zero_mul, Nat.add_zero] at hswap
    rw [extract, hswap, Option.bind_eq_bind, Option.bind_some, hsift, Option.bind_eq_bind,
      Option.bind_some]
    exact ih hlaid (by omega)

/-- The bytes of the array follow its elements. -/
theorem sort_eq (cmp : Compare σ size) (s : σ) (h : Laid m₀ base n e m) (hsize : 0 < size)
    (hturns : n < turns) :
    ∃ m', sort cmp base n turns m s =
        some (m', (HeapSort.sort (oracle cmp base) n e s).2) ∧
      Laid m₀ base n (HeapSort.sort (oracle cmp base) n e s).1 m' := by
  rw [sort, HeapSort.sort]
  by_cases hn : n < 2
  · rw [if_pos (.inl hn), if_pos hn]
    exact ⟨m, rfl, h⟩
  · obtain ⟨m₁, hbuild, hlaid⟩ := heapify_eq cmp s h hsize hturns
      (Nat.div_le_self n 2)
    rw [if_neg (by omega), if_neg hn, hbuild, Option.bind_eq_bind, Option.bind_some]
    exact extract_eq hlaid hsize hturns (by omega)

/-! ### Searching -/

variable {order : σ → Pointee size → ℤ × σ} {f : (Fin size → UInt8) → ℤ}
  {le : (Fin size → UInt8) → (Fin size → UInt8) → Prop} {lo hi : ℕ}

/-- The elements ascend. -/
def Ascending (le : (Fin size → UInt8) → (Fin size → UInt8) → Prop) (n : ℕ)
    (e : ℕ → Fin size → UInt8) : Prop :=
  ∀ i j, i < j → j < n → le (e i) (e j)

/-- The key has its place among the elements: above a smaller one it does not come before, below a
greater one it does not come behind. -/
def Consistent (le : (Fin size → UInt8) → (Fin size → UInt8) → Prop)
    (f : (Fin size → UInt8) → ℤ) : Prop :=
  ∀ x y, le x y → (f x < 0 → f y < 0) ∧ (0 < f y → 0 < f x)

/-- The range in which the key may be: the elements before it are smaller than the key, and those
behind it are greater. -/
structure Narrowed (f : (Fin size → UInt8) → ℤ) (lo hi n : ℕ) (e : ℕ → Fin size → UInt8) :
    Prop where
  before : ∀ i < lo, 0 < f (e i)
  behind : ∀ i, hi ≤ i → i < n → f (e i) < 0

/-- An index that is right: an element there equals the key, or without an index none does. -/
def Found (f : (Fin size → UInt8) → ℤ) (n : ℕ) (e : ℕ → Fin size → UInt8) : Option ℕ → Prop
  | some i => f (e i) = 0
  | none => ∀ i < n, f (e i) ≠ 0

theorem Narrowed.lower (h : Narrowed f lo hi n e) (hle : Ascending le n e)
    (hf : Consistent le f) (hneg : f (e j) < 0) : Narrowed f lo j n e where
  before := h.before
  behind i hi hin := by
    rcases Nat.eq_or_lt_of_le hi with rfl | hlt
    · exact hneg
    · exact (hf _ _ (hle j i hlt hin)).1 hneg

theorem Narrowed.upper (h : Narrowed f lo hi n e) (hle : Ascending le n e)
    (hf : Consistent le f) (hj : j < n) (hpos : 0 < f (e j)) : Narrowed f (j + 1) hi n e where
  before i hi := by
    rcases Nat.eq_or_lt_of_le (Nat.le_of_lt_succ hi) with rfl | hlt
    · exact hpos
    · exact (hf _ _ (hle i j hlt hj)).2 hpos
  behind := h.behind

/-- One turn of the loop. -/
theorem searchLoop_turn (order : σ → Pointee size → ℤ × σ) (s : σ) (turns : ℕ)
    (h : Holds m base n e) (hlt : lo < hi) (hhi : hi ≤ n) :
    ∃ mid answer, lo ≤ mid ∧ mid < hi ∧ answer = order s ⟨base + mid * size, e mid⟩ ∧
      searchLoop base order m (turns + 1) lo hi s =
        if answer.1 = 0 then some (some mid, answer.2)
        else if answer.1 < 0 then searchLoop base order m turns lo mid answer.2
        else searchLoop base order m turns (mid + 1) hi answer.2 := by
  have hlaid : Laid m base n e m := ⟨h, fun _ _ => rfl⟩
  have hmid : lo + (hi - lo) / 2 < hi := by omega
  refine ⟨lo + (hi - lo) / 2, _, Nat.le_add_right .., hmid, rfl, ?_⟩
  rw [searchLoop, if_pos hlt]
  dsimp only
  rw [hlaid.load (hmid.trans_le hhi)]
  rfl

/-- The loop ends inside its range, whatever is answered. -/
theorem searchLoop_ends (order : σ → Pointee size → ℤ × σ) (s : σ) (h : Holds m base n e)
    (hhi : hi ≤ n) (hturns : hi < lo + turns) (hlohi : lo ≤ hi) :
    ∃ r s', searchLoop base order m turns lo hi s = some (r, s') ∧ ∀ i, r = some i → i < n := by
  induction turns generalizing lo hi s with
  | zero => omega
  | succ turns ih =>
    rcases Nat.lt_or_ge lo hi with hlt | hge
    · obtain ⟨mid, answer, hlo, hmid, -, hturn⟩ :=
        searchLoop_turn order s turns h hlt hhi
      rw [hturn]
      split
      · exact ⟨_, _, rfl, fun i hi => Option.some.inj hi ▸ hmid.trans_le hhi⟩
      · split
        · exact ih _ (hmid.le.trans hhi) (by omega) hlo
        · exact ih _ hhi (by omega) hmid
    · exact ⟨none, s, by rw [searchLoop, if_neg (Nat.not_lt.2 hge)], fun _ h => by cases h⟩

/-- What the loop finds if the answers place the key among the elements. -/
theorem searchLoop_found (h : Holds m base n e) (hhi : hi ≤ n) (hle : Ascending le n e)
    (hf : Consistent le f) (horder : ∀ s x, (order s x).1 = f x.bytes)
    (hrange : Narrowed f lo hi n e) {r : Option ℕ} {s' : σ}
    (hr : searchLoop base order m turns lo hi s = some (r, s')) : Found f n e r := by
  induction turns generalizing lo hi s with
  | zero => cases hr
  | succ turns ih =>
    rcases Nat.lt_or_ge lo hi with hlt | hge
    · obtain ⟨mid, answer, hlo, hmid, hanswer, hturn⟩ :=
        searchLoop_turn order s turns h hlt hhi
      have hsign : answer.1 = f (e mid) := by rw [hanswer, horder]
      rw [hturn] at hr
      split at hr
      case isTrue hzero =>
        cases hr
        exact hsign.symm.trans hzero
      case isFalse hzero =>
        split at hr
        case isTrue hneg =>
          exact ih (hmid.le.trans hhi) (hrange.lower hle hf (hsign ▸ hneg)) hr
        case isFalse hneg =>
          exact ih hhi (hrange.upper hle hf (hmid.trans_le hhi) (by omega)) hr
    · rw [searchLoop, if_neg (Nat.not_lt.2 hge)] at hr
      cases hr
      intro i hi
      rcases Nat.lt_or_ge i lo with hbefore | hbehind
      · exact (hrange.before i hbefore).ne'
      · exact (hrange.behind i (hge.trans hbehind) hi).ne

/-! ### Both -/

/-- Whatever the comparison answers, the elements are rearranged inside the array and nothing else
is read or written; if it answers as a total preorder, they ascend. In an array that ascends, of
elements that have a size, an element is found which equals the key, if there is one. -/
theorem sort_exact :
    (∀ (σ : Type) (size base n turns : ℕ) (m : Memory) (e : ℕ → Fin size → UInt8)
      (cmp : Compare σ size) (s : σ), Holds m base n e → n < turns →
      ∃ m' s', sort cmp base n turns m s = some (m', s') ∧
        (∀ x, x < base ∨ base + n * size ≤ x → m' x = m x) ∧
        ∃ e', HeapSort.Rearranged n e e' ∧ Holds m' base n e' ∧
          ∀ (le : (Fin size → UInt8) → (Fin size → UInt8) → Prop) [Std.Total le]
            [IsTrans (Fin size → UInt8) le],
            (∀ s x y, 0 < (cmp s x y).1 ↔ ¬ le x.bytes y.bytes) → Ascending le n e') ∧
    ∀ (σ : Type) (size base n turns : ℕ) (m : Memory) (e : ℕ → Fin size → UInt8)
      (order : σ → Pointee size → ℤ × σ) (s : σ), Holds m base n e → n < turns →
      ∃ r s', search base order n turns m s = some (r, s') ∧ (∀ i, r = some i → i < n) ∧
        (size = 0 → r = none) ∧ (0 < size → ∀ (le : (Fin size → UInt8) → (Fin size → UInt8) → Prop)
          (f : (Fin size → UInt8) → ℤ), Ascending le n e → Consistent le f →
          (∀ s x, (order s x).1 = f x.bytes) →
          Found f n e r) := by
  constructor
  · intro σ size base n turns m e cmp s h hturns
    rcases Nat.eq_zero_or_pos size with rfl | hsize
    · -- Elements without a size are all alike.
      have halike : ∀ i j, e i = e j := fun i j => funext fun k => k.elim0
      refine ⟨m, s, if_pos (.inr rfl), fun _ _ => rfl, e, .refl n e, h, ?_⟩
      intro le _ _ _ i j _ _
      rw [halike i j]
      exact refl_of le _
    · obtain ⟨m', hsort, hlaid⟩ := sort_eq cmp s
        (show Laid m base n e m from ⟨h, fun _ _ => rfl⟩) hsize hturns
      refine ⟨m', _, hsort, hlaid.outside, _, HeapSort.sort_rearranged, hlaid.inside, ?_⟩
      intro le _ _ hcmp i j hij hj
      have honest : HeapSort.Honest (oracle cmp base) le := fun s x y =>
        decide_eq_true_iff.trans (hcmp s _ _)
      exact HeapSort.sort_ascends honest i j hij hj
  · intro σ size base n turns m e order s h hturns
    rcases Nat.eq_zero_or_pos size with rfl | hsize
    · exact ⟨none, s, if_pos rfl, fun _ hi => absurd hi.symm (Option.some_ne_none _),
        fun _ => rfl, fun h => absurd h (Nat.lt_irrefl 0)⟩
    · obtain ⟨r, s', hr, hin⟩ := searchLoop_ends order s h (Nat.le_refl n)
        (show n < 0 + turns by omega) (Nat.zero_le n)
      refine ⟨r, s', (if_neg hsize.ne').trans hr, hin, fun h => absurd h hsize.ne',
        fun _ le f hle hf horder => ?_⟩
      exact searchLoop_found h (Nat.le_refl n) hle hf horder
        ⟨fun i hi => absurd hi (Nat.not_lt_zero i), fun i hi hn => absurd hn (Nat.not_lt.2 hi)⟩ hr

/-- An element that equals the key is not found if it has no size. -/
theorem search_nothing : ∃ (e : ℕ → Fin 0 → UInt8) (order : Unit → Pointee 0 → ℤ × Unit),
    Holds (fun _ => none) 0 1 e ∧ (∀ s x, (order s x).1 = 0) ∧
      search 0 order 1 2 (fun _ => none) () = some (none, ()) :=
  ⟨fun _ k => k.elim0, fun s _ => (0, s), fun _ _ k => k.elim0, fun _ _ => rfl, rfl⟩

/-- Elements of one byte. -/
def ofBytes (l : List UInt8) (i : ℕ) (_k : Fin 1) : UInt8 := l.getD i 0

/-- Bytes by their value. -/
def byteLe (x y : Fin 1 → UInt8) : Prop := (x 0).toNat ≤ (y 0).toNat

instance : Std.Total byteLe := ⟨fun x y => Nat.le_total (x 0).toNat (y 0).toNat⟩

instance : IsTrans (Fin 1 → UInt8) byteLe := ⟨fun _ _ _ h h' => Nat.le_trans h h'⟩

theorem holds_ofBytes (l : List UInt8) : Holds (fun a => l[a]?) 0 l.length (ofBytes l) := by
  intro i hi k
  have hk : 0 + i * 1 + (k : ℕ) = i := by omega
  rw [hk, ofBytes, List.getD_eq_getElem?_getD, List.getElem?_eq_getElem hi, Option.getD_some]
  exact List.getElem?_eq_getElem hi

/-- Three elements of one byte, sorted and then searched for the one in the middle. -/
theorem sort_exact_three :
    (∃ m' e', sort (fun (_ : Unit) (x y : Pointee 1) =>
        (((x.bytes 0).toNat : ℤ) - (y.bytes 0).toNat, ())) 0 3 4 (fun a => [2, 3, 1][a]?) () =
          some (m', ()) ∧ [m' 0, m' 1, m' 2, m' 3] = [some 1, some 2, some 3, none] ∧
        HeapSort.Rearranged 3 (ofBytes [2, 3, 1]) e' ∧ Holds m' 0 3 e' ∧ Ascending byteLe 3 e') ∧
    ∃ r, search 0 (fun (_ : Unit) (x : Pointee 1) => ((2 : ℤ) - (x.bytes 0).toNat, ())) 3 4
        (fun a => [1, 2, 3][a]?) () = some (r, ()) ∧ r = some 1 ∧
      Found (fun x => (2 : ℤ) - (x 0).toNat) 3 (ofBytes [1, 2, 3]) r := by
  constructor
  · obtain ⟨m', s', hsort, -, e', hrearranged, hholds, hascends⟩ := sort_exact.1 Unit 1 0 3 4
      (fun a => [2, 3, 1][a]?) (ofBytes [2, 3, 1])
      (fun _ x y => (((x.bytes 0).toNat : ℤ) - (y.bytes 0).toNat, ())) ()
      (holds_ofBytes [2, 3, 1]) (by decide)
    have hvalues : (sort (fun (_ : Unit) (x y : Pointee 1) =>
        (((x.bytes 0).toNat : ℤ) - (y.bytes 0).toNat, ())) 0 3 4 (fun a => [2, 3, 1][a]?) ()).map
          (fun p => [p.1 0, p.1 1, p.1 2, p.1 3]) = some [some 1, some 2, some 3, none] := by decide
    rw [hsort] at hvalues
    refine ⟨m', e', hsort, Option.some.inj hvalues, hrearranged, hholds,
      hascends byteLe fun _ x y => ?_⟩
    show 0 < ((x.bytes 0).toNat : ℤ) - (y.bytes 0).toNat ↔ ¬ (x.bytes 0).toNat ≤ (y.bytes 0).toNat
    omega
  · obtain ⟨r, s', hsearch, -, -, hfound⟩ := sort_exact.2 Unit 1 0 3 4 (fun a => [1, 2, 3][a]?)
      (ofBytes [1, 2, 3]) (fun _ x => ((2 : ℤ) - (x.bytes 0).toNat, ())) ()
      (holds_ofBytes [1, 2, 3]) (by decide)
    have hindex : search 0 (fun (_ : Unit) (x : Pointee 1) => ((2 : ℤ) - (x.bytes 0).toNat, ())) 3 4
        (fun a => [1, 2, 3][a]?) () = some (some 1, ()) := by decide
    have hvalues : ∀ j < 3, ∀ i < j,
        (ofBytes [1, 2, 3] i 0).toNat ≤ (ofBytes [1, 2, 3] j 0).toNat := by decide
    refine ⟨r, hsearch, (Prod.mk.inj (Option.some.inj (hsearch.symm.trans hindex))).1,
      hfound Nat.one_pos byteLe _ (fun i j hij hj => hvalues j hj i hij) ?_ fun _ _ => rfl⟩
    intro x y (hxy : (x 0).toNat ≤ (y 0).toNat)
    dsimp only
    constructor
    · intro hx
      omega
    · intro hy
      omega

end Sorting

end StarOS
