import StarOS.Lib.Buddy
import StarOS.Mm.Buddy

/-!
# The tree in the array

The array records the largest run of every node of a tree. Below a node that was handed out it
still records what it did when the node was free, and both the climb of `freePages` and the next
allocation there rely on it.

## Main definitions

* `Represents` — the array records this tree, node `i` being its root

## Main results

* `descend_spec` — what `allocPages` does in the array is `Buddy.place` of the tree
* `climb_spec` — what `freePages` does is `Buddy.release`
-/

namespace StarOS

namespace BuddyFrameAllocator

variable {longest longest' : ℕ → ℕ} {h i j k m x : ℕ}

/-- Node `j` is node `i`, or at most `h` levels below it. -/
def Below (i h j : ℕ) : Prop := ∃ d ≤ h, (j + 1) / 2 ^ d = i + 1

/-- Everything below node `i` is recorded as free. -/
def Full (longest : ℕ → ℕ) : ℕ → ℕ → Prop
  | 0, _ => True
  | h + 1, i =>
    (longest (2 * i + 1) = 2 ^ h ∧ Full longest h (2 * i + 1)) ∧
      (longest (2 * i + 2) = 2 ^ h ∧ Full longest h (2 * i + 2))

/-- The array records the tree, node `i` being its root. -/
def Represents (longest : ℕ → ℕ) : {h : ℕ} → Buddy h → ℕ → Prop
  | h, .free, i => longest i = 2 ^ h ∧ Full longest h i
  | h, .taken, i => longest i = 0 ∧ Full longest h i
  | _, .split l r, i =>
    longest i = max l.largest r.largest ∧
      Represents longest l (2 * i + 1) ∧ Represents longest r (2 * i + 2)

/-- `d` rounds of the walk up from node `j`. -/
def rise (merge : ℕ → ℕ → ℕ → ℕ) (longest : ℕ → ℕ) (j nodeSize : ℕ) : ℕ → ℕ → ℕ
  | 0 => longest
  | d + 1 =>
    let below := rise merge longest j nodeSize d
    let i := (j + 1) / 2 ^ (d + 1) - 1
    Function.update below i
      (merge (2 ^ (d + 1) * nodeSize) (below (2 * i + 1)) (below (2 * i + 2)))

/-! ### Nodes below a node -/

theorem below_self (i h : ℕ) : Below i h i := ⟨0, Nat.zero_le h, by simp⟩

theorem Below.left (hj : Below (2 * i + 1) h j) : Below i (h + 1) j := by
  obtain ⟨d, hd, heq⟩ := hj
  refine ⟨d + 1, Nat.succ_le_succ hd, ?_⟩
  rw [Nat.pow_succ, ← Nat.div_div_eq_div_mul, heq]
  omega

theorem Below.right (hj : Below (2 * i + 2) h j) : Below i (h + 1) j := by
  obtain ⟨d, hd, heq⟩ := hj
  refine ⟨d + 1, Nat.succ_le_succ hd, ?_⟩
  rw [Nat.pow_succ, ← Nat.div_div_eq_div_mul, heq]
  omega

theorem Below.cases (hj : Below i (h + 1) j) :
    j = i ∨ Below (2 * i + 1) h j ∨ Below (2 * i + 2) h j := by
  obtain ⟨d, hd, heq⟩ := hj
  cases d with
  | zero =>
    rw [Nat.pow_zero, Nat.div_one] at heq
    exact .inl (Nat.succ.inj heq)
  | succ d =>
    rw [Nat.pow_succ, ← Nat.div_div_eq_div_mul] at heq
    rcases (by omega : (j + 1) / 2 ^ d = 2 * i + 1 + 1 ∨ (j + 1) / 2 ^ d = 2 * i + 2 + 1) with hl | hr
    · exact .inr (.inl ⟨d, by omega, hl⟩)
    · exact .inr (.inr ⟨d, by omega, hr⟩)

theorem Below.le (hj : Below i h j) : i ≤ j := by
  obtain ⟨d, -, heq⟩ := hj
  have := Nat.div_le_self (j + 1) (2 ^ d)
  omega

/-- No node is below both halves of another. -/
theorem Below.not_right (hj : Below (2 * i + 1) h j) : ¬ Below (2 * i + 2) h j := by
  obtain ⟨d, -, hd⟩ := hj
  rintro ⟨e, -, he⟩
  rcases Nat.lt_trichotomy d e with hlt | rfl | hlt
  · obtain ⟨c, rfl⟩ := Nat.exists_eq_add_of_lt hlt
    rw [Nat.add_assoc, Nat.pow_add, ← Nat.div_div_eq_div_mul, hd] at he
    have := Nat.div_le_self (2 * i + 1 + 1) (2 ^ (c + 1))
    omega
  · omega
  · obtain ⟨c, rfl⟩ := Nat.exists_eq_add_of_lt hlt
    rw [Nat.add_assoc, Nat.pow_add, ← Nat.div_div_eq_div_mul, he] at hd
    have hle : (2 * i + 2 + 1) / 2 ^ (c + 1) ≤ (2 * i + 2 + 1) / 2 :=
      Nat.div_le_div_left (Nat.le_self_pow (Nat.succ_ne_zero c) 2) (by decide)
    omega

/-- The nodes of the whole array. -/
theorem below_root_iff : Below 0 h j ↔ j < 2 * 2 ^ h - 1 := by
  constructor
  · rintro ⟨d, hd, heq⟩
    have hlt : j + 1 < 2 * 2 ^ d := (Nat.div_lt_iff_lt_mul (Nat.two_pow_pos d)).mp (by omega)
    have hle := Nat.pow_le_pow_right (by decide : 0 < 2) hd
    omega
  · intro hlt
    have hne : j + 1 ≠ 0 := Nat.succ_ne_zero j
    have hlog : (j + 1).log2 < h + 1 := (Nat.log2_lt hne).mpr (by rw [Nat.pow_succ]; omega)
    refine ⟨(j + 1).log2, by omega, ?_⟩
    have hlow := Nat.log2_self_le hne
    have hhigh : j + 1 < 2 ^ ((j + 1).log2 + 1) := Nat.lt_log2_self
    rw [Nat.pow_succ] at hhigh
    exact Nat.div_eq_of_lt_le (by omega) (by omega)

/-! ### What is recorded -/

theorem Full.congr (heq : ∀ j, Below i h j → longest' j = longest j) (hfull : Full longest h i) :
    Full longest' h i := by
  induction h generalizing i with
  | zero => trivial
  | succ h ih =>
    obtain ⟨⟨hl, hfl⟩, hr, hfr⟩ := hfull
    refine ⟨⟨?_, ih (fun j hj => heq j hj.left) hfl⟩, ?_, ih (fun j hj => heq j hj.right) hfr⟩
    · rw [heq _ (below_self _ h).left, hl]
    · rw [heq _ (below_self _ h).right, hr]

theorem Represents.congr {t : Buddy h} (heq : ∀ j, Below i h j → longest' j = longest j)
    (hrep : Represents longest t i) : Represents longest' t i := by
  induction t generalizing i with
  | free | taken => exact ⟨(heq i (below_self i _)).trans hrep.1, hrep.2.congr heq⟩
  | split l r ihl ihr =>
    exact ⟨(heq i (below_self i _)).trans hrep.1, ihl (fun j hj => heq j hj.left) hrep.2.1,
      ihr (fun j hj => heq j hj.right) hrep.2.2⟩

/-- Two arrays that record a free tree record the same. -/
theorem Full.unique (hi : longest i = longest' i) (hfull : Full longest h i)
    (hfull' : Full longest' h i) (hj : Below i h j) : longest j = longest' j := by
  induction h generalizing i with
  | zero =>
    obtain ⟨d, hd, heq⟩ := hj
    obtain rfl : d = 0 := Nat.le_zero.mp hd
    rw [Nat.pow_zero, Nat.div_one] at heq
    obtain rfl : j = i := Nat.succ.inj heq
    exact hi
  | succ h ih =>
    obtain ⟨⟨hl, hfl⟩, hr, hfr⟩ := hfull
    obtain ⟨⟨hl', hfl'⟩, hr', hfr'⟩ := hfull'
    rcases hj.cases with rfl | hj | hj
    · exact hi
    · exact ih (hl.trans hl'.symm) hfl hfl' hj
    · exact ih (hr.trans hr'.symm) hfr hfr' hj

/-- What is recorded at the root of a tree. -/
theorem Represents.eq_largest {t : Buddy h} (hrep : Represents longest t i) :
    longest i = t.largest := by
  cases t <;> exact hrep.1

/-- The halves of a node that is not handed out are recorded at the nodes below it. -/
theorem Represents.halves {t : Buddy (h + 1)} (ht : 0 < t.largest)
    (hrep : Represents longest t i) :
    Represents longest t.halves.1 (2 * i + 1) ∧ Represents longest t.halves.2 (2 * i + 2) := by
  cases t with
  | free => exact hrep.2
  | taken => cases ht
  | split l r => exact hrep.2

/-- Nothing recorded below either half changes when the node itself is written. -/
theorem update_below (v : ℕ) {c : ℕ} (hc : i < c) (j : ℕ) (hj : Below c h j) :
    Function.update longest i v j = longest j := by
  rw [Function.update_of_ne]
  have := hj.le
  omega

theorem Full.update (v : ℕ) (hfull : Full longest h i) : Full (Function.update longest i v) h i := by
  cases h with
  | zero => trivial
  | succ h =>
    obtain ⟨⟨hl, hfl⟩, hr, hfr⟩ := hfull
    refine ⟨⟨?_, hfl.congr (update_below v (by omega))⟩, ?_, hfr.congr (update_below v (by omega))⟩
    · rw [Function.update_of_ne (by omega), hl]
    · rw [Function.update_of_ne (by omega), hr]

theorem represents_split {l r : Buddy h} {v : ℕ} (hv : v = max l.largest r.largest)
    (hl : Represents longest l (2 * i + 1)) (hr : Represents longest r (2 * i + 2)) :
    Represents (Function.update longest i v) (.split l r) i :=
  ⟨(Function.update_self ..).trans hv, hl.congr (update_below v (by omega)),
    hr.congr (update_below v (by omega))⟩

theorem represents_join {l r : Buddy h} {v : ℕ} (hv : v = (Buddy.join l r).largest)
    (hl : Represents longest l (2 * i + 1)) (hr : Represents longest r (2 * i + 2)) :
    Represents (Function.update longest i v) (Buddy.join l r) i := by
  by_cases hf : l = .free ∧ r = .free
  · obtain ⟨rfl, rfl⟩ := hf
    exact ⟨(Function.update_self ..).trans hv, Full.update (h := h + 1) v ⟨hl, hr⟩⟩
  · have hjoin : Buddy.join l r = .split l r := by
      cases l <;> cases r <;> simp_all [Buddy.join]
    rw [hjoin] at hv ⊢
    exact represents_split hv hl hr

/-! ### The walk up -/

theorem rise_succ (merge : ℕ → ℕ → ℕ → ℕ) (longest : ℕ → ℕ) (j nodeSize d : ℕ) :
    rise merge longest j nodeSize (d + 1) =
      Function.update (rise merge longest j nodeSize d) ((j + 1) / 2 ^ (d + 1) - 1)
        (merge (2 ^ (d + 1) * nodeSize)
          (rise merge longest j nodeSize d (2 * ((j + 1) / 2 ^ (d + 1) - 1) + 1))
          (rise merge longest j nodeSize d (2 * ((j + 1) / 2 ^ (d + 1) - 1) + 2))) := rfl

/-- One round more at the bottom instead of at the top. -/
theorem rise_shift (merge : ℕ → ℕ → ℕ → ℕ) (longest : ℕ → ℕ) (j nodeSize d : ℕ) :
    rise merge longest j nodeSize (d + 1) =
      rise merge (rise merge longest j nodeSize 1) ((j + 1) / 2 - 1) (2 * nodeSize) d := by
  induction d with
  | zero => rfl
  | succ d ih =>
    have hup : ((j + 1) / 2 - 1 + 1) / 2 ^ (d + 1) = (j + 1) / 2 ^ (d + 1 + 1) := by
      rw [Nat.pow_succ 2 (d + 1), Nat.mul_comm, ← Nat.div_div_eq_div_mul]
      rcases Nat.eq_zero_or_pos ((j + 1) / 2) with h0 | hpos
      · rw [h0, Nat.zero_div]
        exact Nat.div_eq_of_lt (Nat.one_lt_two_pow (Nat.succ_ne_zero d))
      · rw [Nat.sub_add_cancel hpos]
    have hsize : 2 ^ (d + 1 + 1) * nodeSize = 2 ^ (d + 1) * (2 * nodeSize) := by ring
    rw [rise_succ _ _ _ _ (d + 1), ih, rise_succ _ _ _ _ d, hup, hsize]

/-- The walk up from a node `d` levels down goes `d` rounds. -/
theorem ascend_eq_rise (merge : ℕ → ℕ → ℕ → ℕ) {d fuel : ℕ} (hd : d ≤ fuel)
    (hj : (j + 1) / 2 ^ d = 1) (longest : ℕ → ℕ) (nodeSize : ℕ) :
    ascend merge fuel longest j nodeSize = rise merge longest j nodeSize d := by
  induction d generalizing fuel longest j nodeSize with
  | zero =>
    obtain rfl : j = 0 := by rw [Nat.pow_zero, Nat.div_one] at hj; omega
    cases fuel with
    | zero => rfl
    | succ fuel => rw [ascend, if_pos rfl, rise]
  | succ d ih =>
    obtain ⟨fuel, rfl⟩ : ∃ n, fuel = n + 1 := ⟨fuel - 1, by omega⟩
    have hne : j ≠ 0 := by
      rintro rfl
      rw [Nat.div_eq_of_lt (Nat.one_lt_two_pow (Nat.succ_ne_zero d))] at hj
      cases hj
    have hup : (j - 1) / 2 = (j + 1) / 2 - 1 := by omega
    have hroot : ((j + 1) / 2 - 1 + 1) / 2 ^ d = 1 := by
      rw [Nat.sub_add_cancel (by omega), Nat.div_div_eq_div_mul, Nat.mul_comm, ← Nat.pow_succ, hj]
    rw [ascend, if_neg hne, rise_shift]
    dsimp only
    rw [hup, ih (by omega) hroot]
    rfl

/-- A walk that ends at a half of node `i` ends at node `i` one round later. -/
theorem parent_eq {d c : ℕ} (hc : (j + 1) / 2 ^ d = c + 1) (hic : c = 2 * i + 1 ∨ c = 2 * i + 2) :
    (j + 1) / 2 ^ (d + 1) = i + 1 := by
  rw [Nat.pow_succ, ← Nat.div_div_eq_div_mul, hc]
  omega

/-- The last round of a walk that has reached a half of node `i`. -/
theorem rise_parent {merge : ℕ → ℕ → ℕ → ℕ} {d nodeSize : ℕ}
    (hj : (j + 1) / 2 ^ (d + 1) = i + 1) :
    rise merge longest j nodeSize (d + 1) =
      Function.update (rise merge longest j nodeSize d) i
        (merge (2 ^ (d + 1) * nodeSize) (rise merge longest j nodeSize d (2 * i + 1))
          (rise merge longest j nodeSize d (2 * i + 2))) := by
  rw [rise_succ, hj, Nat.add_sub_cancel]

/-! ### Taking a block -/

/-- A write at a node `d` levels below node `i`, and the walk up from there to node `i`. -/
structure Walk (long long' : ℕ → ℕ) (merge : ℕ → ℕ → ℕ → ℕ) (v i h j k d : ℕ) (t : Buddy h) :
    Prop where
  height : d + k = h
  below : (j + 1) / 2 ^ d = i + 1
  eq : long' = rise merge (Function.update long j v) j (2 ^ k) d
  represents : Represents long' t i
  /-- Nothing else is written. -/
  frame : ∀ m, ¬ Below i h m → long' m = long m

/-- One level further up. -/
theorem Walk.up {merge : ℕ → ℕ → ℕ → ℕ} {v d c : ℕ} {t : Buddy h} {t' : Buddy (h + 1)}
    (hw : Walk longest longest' merge v c h j k d t) (hic : c = 2 * i + 1 ∨ c = 2 * i + 2)
    (hrep : Represents (Function.update longest' i
      (merge (2 ^ (h + 1)) (longest' (2 * i + 1)) (longest' (2 * i + 2)))) t' i) :
    ∃ long', Walk longest long' merge v i (h + 1) j k (d + 1) t' := by
  have hbelow := parent_eq hw.below hic
  have hsize : 2 ^ (d + 1) * 2 ^ k = 2 ^ (h + 1) := by
    rw [← Nat.pow_add, ← hw.height]
    congr 1
    omega
  refine ⟨_, ?_, hbelow, ?_, hrep, fun m hm => ?_⟩
  · have := hw.height
    omega
  · rw [rise_parent hbelow, hsize, ← hw.eq]
  · rw [Function.update_of_ne (by rintro rfl; exact hm (below_self _ _)), hw.frame]
    intro hc
    rcases hic with rfl | rfl
    · exact hm hc.left
    · exact hm hc.right

theorem fits_iff {t : Buddy (h + 1)} {l r : ℕ} (hl : longest l = t.halves.1.largest)
    (hr : longest r = t.halves.2.largest) :
    (decide (2 ^ k ≤ longest l) &&
      (!decide (2 ^ k ≤ longest r) || decide (longest l ≤ longest r))) =
        Buddy.goesLeft k t.halves.1 t.halves.2 := by
  rw [hl, hr, Buddy.goesLeft]

/-- **An allocation takes the block a placement in the tree would**, at the node it walks down to,
and leaves the tree recorded. -/
theorem descend_spec {t : Buddy h} (ht : t.Whole) (hrep : Represents longest t i) (hk : k ≤ h)
    (hfit : 2 ^ k ≤ t.largest) :
    ∃ j d long', descend longest (2 ^ k) h i (2 ^ h) = (j, 2 ^ k) ∧
      (j + 1) * 2 ^ k = (i + 1) * 2 ^ h + (t.place k).1 ∧
      Walk longest long' narrow 0 i h j k d (t.place k).2 := by
  induction h generalizing i with
  | zero =>
    obtain rfl : k = 0 := Nat.le_zero.mp hk
    obtain rfl : t = .free :=
      (Buddy.largest_eq_iff ht).mp (Nat.le_antisymm t.largest_le hfit)
    exact ⟨i, 0, _, rfl, rfl, rfl, by simp, rfl, ⟨Function.update_self .., trivial⟩,
      fun m hm => Function.update_of_ne (by rintro rfl; exact hm (below_self _ _)) ..⟩
  | succ h ih =>
    rw [descend, Buddy.place]
    by_cases hkh : k = h + 1
    · subst hkh
      obtain rfl : t = .free :=
        (Buddy.largest_eq_iff ht).mp (Nat.le_antisymm t.largest_le hfit)
      rw [if_pos rfl, if_pos rfl]
      exact ⟨i, 0, _, rfl, rfl, Nat.zero_add _, by simp, rfl,
        ⟨Function.update_self .., hrep.2.update 0⟩,
        fun m hm => Function.update_of_ne (by rintro rfl; exact hm (below_self _ _)) ..⟩
    · have hne : 2 ^ (h + 1) ≠ 2 ^ k := fun heq =>
        hkh (Nat.pow_right_injective (Nat.le_refl 2) heq).symm
      have hk : k ≤ h := by omega
      obtain ⟨hwl, hwr⟩ := Buddy.whole_halves ht
      obtain ⟨hl, hr⟩ := hrep.halves (Nat.lt_of_lt_of_le (Nat.two_pow_pos k) hfit)
      have hgo := Buddy.goesLeft_spec hk hfit
      have hhalf : 2 ^ (h + 1) / 2 = 2 ^ h := by omega
      rw [if_neg hne, if_neg hkh]
      dsimp only
      rw [fits_iff hl.eq_largest hr.eq_largest, hhalf]
      split at hgo
      · next hleft =>
        rw [if_pos hleft, if_pos hleft]
        obtain ⟨j, d, long', hdesc, hplace, hwalk⟩ := ih hwl hl hk hgo
        have hr' := hr.congr fun j hj => hwalk.frame j fun hc => hc.not_right hj
        obtain ⟨long', hwalk⟩ := hwalk.up (.inl rfl) (represents_split
          (by rw [narrow, hwalk.represents.eq_largest, hr'.eq_largest]) hwalk.represents hr')
        refine ⟨j, d + 1, long', hdesc, ?_, hwalk⟩
        rw [hplace, Nat.pow_succ]
        ring
      · next hright =>
        rw [if_neg hright, if_neg hright]
        obtain ⟨j, d, long', hdesc, hplace, hwalk⟩ := ih hwr hr hk hgo
        have hl' := hl.congr fun j hj => hwalk.frame j hj.not_right
        obtain ⟨long', hwalk⟩ := hwalk.up (.inr rfl) (represents_split
          (by rw [narrow, hwalk.represents.eq_largest, hl'.eq_largest]) hl' hwalk.represents)
        refine ⟨j, d + 1, long', hdesc, ?_, hwalk⟩
        rw [hplace, Nat.pow_succ]
        ring

/-! ### Giving a block back -/

/-- The climb passes a node that is not handed out. -/
theorem climb_half {fuel c nodeSize : ℕ} (hc : longest c ≠ 0)
    (hic : c = 2 * i + 1 ∨ c = 2 * i + 2) :
    climb longest (fuel + 1) c nodeSize = climb longest fuel i (2 * nodeSize) := by
  have hup : (c - 1) / 2 = i := by omega
  rw [climb, if_neg hc, if_neg (by omega), hup]

/-- The leaf of unit `x` is in the half the unit is in. -/
theorem leaf_left (i h x : ℕ) : (i + 1) * 2 ^ (h + 1) + x - 1 = (2 * i + 1 + 1) * 2 ^ h + x - 1 := by
  rw [Nat.pow_succ]
  congr 2
  ring

theorem leaf_right (i : ℕ) (hx : 2 ^ h ≤ x) :
    (i + 1) * 2 ^ (h + 1) + x - 1 = (2 * i + 2 + 1) * 2 ^ h + (x - 2 ^ h) - 1 := by
  obtain ⟨y, rfl⟩ := Nat.exists_eq_add_of_le hx
  rw [Nat.add_sub_cancel_left, Nat.pow_succ]
  congr 1
  ring

/-- The climb passes everything that is recorded as free. -/
theorem climb_full (hfull : Full longest h i) (hx : x < 2 ^ h) (fuel : ℕ) :
    climb longest (h + fuel) ((i + 1) * 2 ^ h + x - 1) 1 = climb longest fuel i (2 ^ h) := by
  induction h generalizing i x fuel with
  | zero =>
    obtain rfl : x = 0 := by rw [Nat.pow_zero] at hx; omega
    simp
  | succ h ih =>
    obtain ⟨⟨hl, hfl⟩, hr, hfr⟩ := hfull
    have hpos := Nat.two_pow_pos h
    have hpow : 2 ^ (h + 1) = 2 * 2 ^ h := by ring
    have hfuel : h + 1 + fuel = h + (fuel + 1) := by omega
    rw [hfuel]
    rcases Nat.lt_or_ge x (2 ^ h) with hlt | hge
    · rw [leaf_left, ih hfl hlt, climb_half (by omega) (.inl rfl), hpow]
    · rw [leaf_right i hge, ih hfr (by omega), climb_half (by omega) (.inr rfl), hpow]

/-- **A release gives back the block the frame is in**, if it is in one; otherwise the climb gets
past the root of the tree. -/
theorem climb_spec {t : Buddy h} (ht : t.Whole) (hh : h < 32) (hrep : Represents longest t i)
    (hx : x < 2 ^ h) (o : ℕ) :
    (Block.Cover (t.blocks o) (o + x) ∧ ∃ j k d long',
      (∀ fuel, climb longest (h + fuel + 1) ((i + 1) * 2 ^ h + x - 1) 1 = some (j, 2 ^ k)) ∧
        Walk longest long' merge (2 ^ k) i h j k d (t.release x)) ∨
    (¬ Block.Cover (t.blocks o) (o + x) ∧ longest i ≠ 0 ∧ ∀ fuel,
      climb longest (h + fuel) ((i + 1) * 2 ^ h + x - 1) 1 = climb longest fuel i (2 ^ h)) := by
  induction t generalizing i x o with
  | @free h =>
    refine .inr ⟨by simp [Buddy.blocks], ?_, climb_full hrep.2 hx⟩
    rw [hrep.1]
    exact (Nat.two_pow_pos h).ne'
  | @taken h =>
    refine .inl ⟨⟨_, List.mem_singleton_self _, Nat.le_add_right .., Nat.add_lt_add_left hx o⟩,
      i, h, 0, _, fun fuel => ?_, Nat.zero_add h, by simp, rfl,
      ⟨Function.update_self .., hrep.2.update _⟩,
      fun m hm => Function.update_of_ne (by rintro rfl; exact hm (below_self _ _)) ..⟩
    rw [Nat.add_assoc, climb_full hrep.2 hx, climb, if_pos hrep.1]
  | @split h l r ihl ihr =>
    obtain ⟨hroot, hl, hr⟩ := hrep
    obtain ⟨-, hwl, hwr⟩ := ht
    have hpos := Nat.two_pow_pos h
    have hpow : 2 ^ (h + 1) = 2 * 2 ^ h := by ring
    have hfuel : ∀ n, h + 1 + n = h + (n + 1) := by omega
    have hlow : ∀ n, n ≤ 2 ^ (h + 1) → asU32 n = n := fun n hn =>
      Nat.mod_eq_of_lt (hn.trans_lt (Nat.pow_lt_pow_right (by decide) hh))
    -- what is recorded once the walk has reached the halves
    have hmerge : ∀ {l r : Buddy h}, l.Whole → r.Whole →
        merge (2 ^ (h + 1)) l.largest r.largest = (Buddy.join l r).largest := by
      intro l r hl hr
      have h₁ := l.largest_le
      have h₂ := r.largest_le
      rw [Buddy.largest_join hl hr, merge, hlow _ (Nat.le_refl _), hlow _ (by omega)]
    have hcover : ∀ y, Block.Cover ((Buddy.split l r).blocks o) y ↔
        Block.Cover (l.blocks o) y ∨ Block.Cover (r.blocks (o + 2 ^ h)) y := by
      intro y
      rw [Buddy.blocks, Block.cover_append]
    rw [hcover, Buddy.release]
    rcases Nat.lt_or_ge x (2 ^ h) with hlt | hge
    · have hout : ¬ Block.Cover (r.blocks (o + 2 ^ h)) (o + x) := fun hc => by
        have := Buddy.cover_blocks hc
        omega
      rw [leaf_left, if_pos hlt, or_iff_left hout]
      rcases ihl hwl (by omega) hl hlt o with ⟨hc, j, k, d, long', hclimb, hwalk⟩ | ⟨hc, hne, hclimb⟩
      · have hr' := hr.congr fun j hj => hwalk.frame j fun hc => hc.not_right hj
        have hwl' := Buddy.whole_release hwl x
        obtain ⟨long', hwalk⟩ := hwalk.up (.inl rfl) (represents_join
          (by rw [hwalk.represents.eq_largest, hr'.eq_largest, hmerge hwl' hwr])
          hwalk.represents hr')
        exact .inl ⟨hc, j, k, d + 1, long', fun fuel => by rw [hfuel]; exact hclimb _, hwalk⟩
      · refine .inr ⟨hc, ?_, fun fuel => ?_⟩
        · rw [hl.eq_largest] at hne
          omega
        · rw [hfuel, hclimb, climb_half hne (.inl rfl), hpow]
    · have hout : ¬ Block.Cover (l.blocks o) (o + x) := fun hc => by
        have := Buddy.cover_blocks hc
        omega
      have heq : o + x = o + 2 ^ h + (x - 2 ^ h) := by omega
      rw [leaf_right i hge, if_neg (Nat.not_lt.mpr hge), or_iff_right hout, heq]
      rcases ihr (x := x - 2 ^ h) hwr (by omega) hr (by omega) (o + 2 ^ h) with
        ⟨hc, j, k, d, long', hclimb, hwalk⟩ | ⟨hc, hne, hclimb⟩
      · have hl' := hl.congr fun j hj => hwalk.frame j hj.not_right
        have hwr' := Buddy.whole_release hwr (x - 2 ^ h)
        obtain ⟨long', hwalk⟩ := hwalk.up (.inr rfl) (represents_join
          (by rw [hwalk.represents.eq_largest, hl'.eq_largest, hmerge hwl hwr'])
          hl' hwalk.represents)
        exact .inl ⟨hc, j, k, d + 1, long', fun fuel => by rw [hfuel]; exact hclimb _, hwalk⟩
      · refine .inr ⟨hc, ?_, fun fuel => ?_⟩
        · rw [hr.eq_largest] at hne
          omega
        · rw [hfuel, hclimb, climb_half hne (.inr rfl), hpow]

end BuddyFrameAllocator

end StarOS
