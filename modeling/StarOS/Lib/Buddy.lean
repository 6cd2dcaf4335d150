import Mathlib.Algebra.Order.Ring.Nat
import Mathlib.Data.List.Perm.Basic
import Mathlib.Tactic.Ring
import StarOS.Lib.FreeList

/-!
# Buddy trees

A power of two of units, halved again and again: every block handed out is one of the halves, and
what is given back is made whole with its other half as soon as that is free too. The tree says
which halves are in use. It does not say how a program keeps it.

## Main definitions

* `Buddy` — the state of `2 ^ h` units
* `Buddy.blocks` — what is taken
* `Buddy.largest` — the largest run of units a request could be given
* `Buddy.place`, `Buddy.release`

## Main results

* `Buddy.le_largest_iff` — a request fits exactly if some aligned run is entirely free
* `Buddy.blocks_place`, `Buddy.blocks_release` — what is taken afterwards
* `Buddy.eq_free_iff` — nothing is taken of a whole tree only
-/

/-- `2 ^ h` units: all free, all taken as one block, or divided. -/
inductive Buddy : ℕ → Type
  | free {h : ℕ} : Buddy h
  | taken {h : ℕ} : Buddy h
  | split {h : ℕ} (l r : Buddy h) : Buddy (h + 1)
  deriving DecidableEq

namespace Buddy

variable {h k o x : ℕ} {b : Block}

/-- The largest run of units a request could be given, or zero. -/
def largest : {h : ℕ} → Buddy h → ℕ
  | h, .free => 2 ^ h
  | _, .taken => 0
  | _, .split l r => max l.largest r.largest

/-- No two free halves are left apart. -/
def Whole : {h : ℕ} → Buddy h → Prop
  | _, .free | _, .taken => True
  | _, .split l r => ¬ (l = .free ∧ r = .free) ∧ l.Whole ∧ r.Whole

/-- The blocks taken of a tree whose first unit is `o`. -/
def blocks : {h : ℕ} → Buddy h → ℕ → List Block
  | _, .free, _ => []
  | h, .taken, o => [⟨o, 2 ^ h⟩]
  | h + 1, .split l r, o => l.blocks o ++ r.blocks (o + 2 ^ h)

/-- Two halves, made whole if both are free. -/
def join : {h : ℕ} → Buddy h → Buddy h → Buddy (h + 1)
  | _, .free, .free => .free
  | _, l, r => .split l r

/-- The halves of a tree, a free one being two free halves. -/
def halves : {h : ℕ} → Buddy (h + 1) → Buddy h × Buddy h
  | _, .free => (.free, .free)
  | _, .taken => (.taken, .taken)
  | _, .split l r => (l, r)

/-- Whether a request goes to the left half: the tighter one that fits, the left if they tie. -/
def goesLeft (k : ℕ) (l r : Buddy h) : Bool :=
  decide (2 ^ k ≤ l.largest) && (!decide (2 ^ k ≤ r.largest) || decide (l.largest ≤ r.largest))

/-- Take a block of `2 ^ k` units: where it starts, and the tree afterwards. -/
def place (k : ℕ) : {h : ℕ} → Buddy h → ℕ × Buddy h
  | 0, _ => (0, .taken)
  | h + 1, t =>
    if k = h + 1 then (0, .taken)
    else if goesLeft k t.halves.1 t.halves.2 then
      ((t.halves.1.place k).1, .split (t.halves.1.place k).2 t.halves.2)
    else (2 ^ h + (t.halves.2.place k).1, .split t.halves.1 (t.halves.2.place k).2)

/-- Give back the block unit `x` is in, if it is in one. -/
def release : {h : ℕ} → Buddy h → ℕ → Buddy h
  | _, .free, _ => .free
  | _, .taken, _ => .free
  | h + 1, .split l r, x =>
    if x < 2 ^ h then join (l.release x) r else join l (r.release (x - 2 ^ h))

/-! ### What is taken -/

/-- A run of `2 ^ k` units of the tree at `o` that a request may be given. -/
structure FreeRun (o : ℕ) (t : Buddy h) (k p : ℕ) : Prop where
  le : o ≤ p
  aligned : 2 ^ k ∣ p - o
  limit : p + 2 ^ k ≤ o + 2 ^ h
  free : ∀ x, p ≤ x → x < p + 2 ^ k → ¬ Block.Cover (t.blocks o) x

theorem largest_le (t : Buddy h) : t.largest ≤ 2 ^ h := by
  induction t with
  | free => exact Nat.le_refl _
  | taken => exact Nat.zero_le _
  | @split h l r ihl ihr =>
    have hpow : 2 ^ h ≤ 2 ^ (h + 1) := Nat.pow_le_pow_right (by decide) (Nat.le_succ h)
    exact Nat.max_le.mpr ⟨ihl.trans hpow, ihr.trans hpow⟩

/-- A block taken lies in the tree, and starts at a multiple of its size from the tree's start. -/
theorem mem_blocks {t : Buddy h} (hb : b ∈ t.blocks o) :
    o ≤ b.addr ∧ b.limit ≤ o + 2 ^ h ∧ ∃ k, b.size = 2 ^ k ∧ 2 ^ k ∣ b.addr - o := by
  induction t generalizing o with
  | free => cases hb
  | @taken h =>
    obtain rfl := List.mem_singleton.mp hb
    exact ⟨Nat.le_refl _, Nat.le_refl _, h, rfl, by simp⟩
  | @split h l r ihl ihr =>
    have hpow : 2 ^ (h + 1) = 2 ^ h + 2 ^ h := by ring
    have hpos := Nat.two_pow_pos h
    obtain hb | hb := List.mem_append.mp hb
    · obtain ⟨hle, hlim, hk⟩ := ihl hb
      exact ⟨hle, by omega, hk⟩
    · obtain ⟨hle, hlim, k, hsize, hdvd⟩ := ihr hb
      refine ⟨by omega, by omega, k, hsize, ?_⟩
      have hkh : k ≤ h := by
        rw [Block.limit, hsize] at hlim
        exact (Nat.pow_le_pow_iff_right (a := 2) (by decide)).mp (by omega)
      have heq : b.addr - o = b.addr - (o + 2 ^ h) + 2 ^ h := by omega
      rw [heq]
      exact Nat.dvd_add hdvd (Nat.pow_dvd_pow 2 hkh)

theorem size_pos_of_mem_blocks {t : Buddy h} (hb : b ∈ t.blocks o) : 0 < b.size := by
  obtain ⟨-, -, k, hk, -⟩ := mem_blocks hb
  rw [hk]
  exact Nat.two_pow_pos k

theorem cover_blocks {t : Buddy h} (hx : Block.Cover (t.blocks o) x) : o ≤ x ∧ x < o + 2 ^ h := by
  obtain ⟨b, hb, hx⟩ := hx
  obtain ⟨hle, hlim, -⟩ := mem_blocks hb
  exact ⟨hle.trans hx.1, hx.2.trans_le hlim⟩

/-- **No unit is in two blocks.** -/
theorem disjoint_blocks (t : Buddy h) (o : ℕ) : (t.blocks o).Pairwise Block.Disjoint := by
  induction t generalizing o with
  | free => exact .nil
  | taken => exact List.pairwise_singleton _ _
  | @split h l r ihl ihr =>
    refine List.pairwise_append.mpr ⟨ihl o, ihr _, fun b hb c hc x hxb hxc => ?_⟩
    have h₁ := cover_blocks ⟨b, hb, hxb⟩
    have h₂ := cover_blocks ⟨c, hc, hxc⟩
    omega

/-- Nothing is taken of a whole tree only if it is free. -/
theorem eq_free_iff {t : Buddy h} (ht : t.Whole) : t = .free ↔ t.blocks o = [] := by
  constructor
  · rintro rfl
    rfl
  · intro hnil
    induction t generalizing o with
    | free => rfl
    | taken => cases hnil
    | split l r ihl ihr =>
      obtain ⟨hne, hl, hr⟩ := ht
      obtain ⟨hnl, hnr⟩ := List.append_eq_nil_iff.mp hnil
      exact absurd ⟨ihl hl hnl, ihr hr hnr⟩ hne

theorem whole_join {l r : Buddy h} (hl : l.Whole) (hr : r.Whole) : (join l r).Whole := by
  cases l <;> cases r <;> simp_all [join, Whole]

theorem blocks_join (l r : Buddy h) (o : ℕ) :
    (join l r).blocks o = l.blocks o ++ r.blocks (o + 2 ^ h) := by
  cases l <;> cases r <;> rfl

/-- The largest run of a whole tree is all of it only if it is free. -/
theorem largest_eq_iff {t : Buddy h} (ht : t.Whole) : t.largest = 2 ^ h ↔ t = .free := by
  cases t with
  | free => exact ⟨fun _ => rfl, fun _ => rfl⟩
  | taken => simpa [largest] using (Nat.two_pow_pos h).ne
  | @split h l r =>
    have h₁ := l.largest_le
    have h₂ := r.largest_le
    have hpos := Nat.two_pow_pos h
    have hpow : 2 ^ (h + 1) = 2 ^ h + 2 ^ h := by ring
    have hpos := Nat.two_pow_pos h
    rw [largest]
    exact ⟨fun heq => by omega, fun heq => by cases heq⟩

/-! ### Whether a request fits -/

/-- A run lies in one half or the other, unless it is all of the tree. -/
theorem FreeRun.half {l r : Buddy h} {p : ℕ} (hrun : FreeRun o (split l r) k p) (hk : k ≤ h) :
    FreeRun o l k p ∨ FreeRun (o + 2 ^ h) r k p := by
  obtain ⟨hle, ⟨q, hq⟩, hlim, hfree⟩ := hrun
  have hpow : 2 ^ (h + 1) = 2 ^ h + 2 ^ h := by ring
  have hpos := Nat.two_pow_pos h
  obtain ⟨m, hm⟩ : ∃ m, 2 ^ h = 2 ^ k * m := Nat.pow_dvd_pow 2 hk
  have hdown : ∀ x, p ≤ x → x < p + 2 ^ k →
      ¬ Block.Cover (l.blocks o) x ∧ ¬ Block.Cover (r.blocks (o + 2 ^ h)) x := by
    intro x hx hlt
    have hx := hfree x hx hlt
    rw [blocks, Block.cover_append] at hx
    tauto
  rcases Nat.lt_or_ge q m with hqm | hqm
  · refine .inl ⟨hle, ⟨q, hq⟩, ?_, fun x hx hlt => (hdown x hx hlt).1⟩
    have := Nat.mul_le_mul_left (2 ^ k) (Nat.succ_le_of_lt hqm)
    rw [Nat.mul_succ] at this
    omega
  · have hmul := Nat.mul_le_mul_left (2 ^ k) hqm
    refine .inr ⟨by omega, ⟨q - m, ?_⟩, by omega, fun x hx hlt => (hdown x hx hlt).2⟩
    rw [Nat.mul_sub, ← hq, ← hm]
    omega

theorem FreeRun.left {l r : Buddy h} {p : ℕ} (hrun : FreeRun o l k p) :
    FreeRun o (split l r) k p where
  le := hrun.le
  aligned := hrun.aligned
  limit := by
    have := hrun.limit
    have hpow : 2 ^ (h + 1) = 2 ^ h + 2 ^ h := by ring
    have hpos := Nat.two_pow_pos h
    omega
  free x hx hlt := by
    rw [blocks, Block.cover_append]
    rintro (hc | hc)
    · exact hrun.free x hx hlt hc
    · have := cover_blocks hc
      have := hrun.limit
      omega

theorem FreeRun.right {l r : Buddy h} {p : ℕ} (hk : k ≤ h) (hrun : FreeRun (o + 2 ^ h) r k p) :
    FreeRun o (split l r) k p where
  le := (Nat.le_add_right _ _).trans hrun.le
  aligned := by
    have hle := hrun.le
    have hpos := Nat.two_pow_pos h
    have heq : p - o = p - (o + 2 ^ h) + 2 ^ h := by omega
    rw [heq]
    exact Nat.dvd_add hrun.aligned (Nat.pow_dvd_pow 2 hk)
  limit := by
    have := hrun.limit
    have hpow : 2 ^ (h + 1) = 2 ^ h + 2 ^ h := by ring
    have hpos := Nat.two_pow_pos h
    omega
  free x hx hlt := by
    rw [blocks, Block.cover_append]
    rintro (hc | hc)
    · have := cover_blocks hc
      have := hrun.le
      omega
    · exact hrun.free x hx hlt hc

theorem FreeRun.le_height {t : Buddy h} {p : ℕ} (hrun : FreeRun o t k p) : k ≤ h := by
  have := hrun.limit
  have := hrun.le
  exact (Nat.pow_le_pow_iff_right (a := 2) (by decide)).mp (by omega)

/-- **A request fits exactly if some aligned run of its size is entirely free.** -/
theorem le_largest_iff {t : Buddy h} (ht : t.Whole) : 2 ^ k ≤ t.largest ↔ ∃ p, FreeRun o t k p := by
  constructor
  · intro hle
    induction t generalizing o with
    | free => exact ⟨o, Nat.le_refl _, by simp, by rw [largest] at hle; omega, by simp [blocks]⟩
    | taken =>
      rw [largest] at hle
      exact absurd hle (Nat.not_le.mpr (Nat.two_pow_pos k))
    | split l r ihl ihr =>
      obtain hle | hle := le_max_iff.mp hle
      · obtain ⟨p, hp⟩ := ihl ht.2.1 hle
        exact ⟨p, hp.left⟩
      · obtain ⟨p, hp⟩ := ihr ht.2.2 hle
        exact ⟨p, hp.right hp.le_height⟩
  · rintro ⟨p, hrun⟩
    induction t generalizing o with
    | free =>
      have := hrun.limit
      have := hrun.le
      rw [largest]
      omega
    | @taken h =>
      have hcover : ¬ Block.Cover ((taken : Buddy h).blocks o) p :=
        hrun.free p (Nat.le_refl _) (Nat.lt_add_of_pos_right (Nat.two_pow_pos k))
      have hle := hrun.le
      have hlim : p + 2 ^ k ≤ (⟨o, 2 ^ h⟩ : Block).limit := hrun.limit
      have hpos := Nat.two_pow_pos k
      exact absurd ⟨_, List.mem_singleton_self _, hle, by omega⟩ hcover
    | @split h l r ihl ihr =>
      have hkh : k ≤ h := by
        by_contra hne
        -- the whole tree is free
        have hk : k = h + 1 := by
          have := hrun.le_height
          omega
        subst hk
        have hp : p = o := by
          have := hrun.le
          have := hrun.limit
          omega
        subst hp
        have hnil : (split l r).blocks p = [] := by
          by_contra hne
          obtain ⟨b, hb⟩ := List.exists_mem_of_ne_nil _ hne
          have hpos := size_pos_of_mem_blocks hb
          have hmem : b.addr ∈ b := ⟨Nat.le_refl _, by rw [Block.limit]; omega⟩
          have hin := cover_blocks ⟨b, hb, hmem⟩
          exact hrun.free b.addr hin.1 hin.2 ⟨b, hb, hmem⟩
        cases (eq_free_iff ht).mpr hnil
      obtain hrun | hrun := hrun.half hkh
      · exact le_max_iff.mpr (.inl (ihl ht.2.1 hrun))
      · exact le_max_iff.mpr (.inr (ihr ht.2.2 hrun))

/-- The largest run is a power of two, or there is none. -/
theorem largest_eq (t : Buddy h) : t.largest = 0 ∨ ∃ k, t.largest = 2 ^ k := by
  induction t with
  | @free h => exact .inr ⟨h, rfl⟩
  | taken => exact .inl rfl
  | split l r ihl ihr =>
    rw [largest]
    rcases Nat.le_total l.largest r.largest with hle | hle
    · rwa [Nat.max_eq_right hle]
    · rwa [Nat.max_eq_left hle]

/-! ### Taking a block -/

theorem blocks_halves {t : Buddy (h + 1)} (ht : 0 < t.largest) (o : ℕ) :
    t.blocks o = t.halves.1.blocks o ++ t.halves.2.blocks (o + 2 ^ h) := by
  cases t with
  | free | split => rfl
  | taken => cases ht

theorem largest_halves {t : Buddy (h + 1)} (hk : k ≤ h) (ht : 2 ^ k ≤ t.largest) :
    2 ^ k ≤ t.halves.1.largest ∨ 2 ^ k ≤ t.halves.2.largest := by
  cases t with
  | free => exact .inl (Nat.pow_le_pow_right (by decide) hk)
  | taken => exact absurd ht (Nat.not_le.mpr (Nat.two_pow_pos k))
  | split l r => exact le_max_iff.mp ht

theorem whole_halves {t : Buddy (h + 1)} (ht : t.Whole) : t.halves.1.Whole ∧ t.halves.2.Whole := by
  cases t with
  | free | taken => exact ⟨trivial, trivial⟩
  | split l r => exact ht.2

/-- The half a request goes to has room for it. -/
theorem goesLeft_spec {t : Buddy (h + 1)} (hk : k ≤ h) (ht : 2 ^ k ≤ t.largest) :
    if goesLeft k t.halves.1 t.halves.2 then 2 ^ k ≤ t.halves.1.largest
    else 2 ^ k ≤ t.halves.2.largest := by
  have hor := largest_halves hk ht
  by_cases hl : 2 ^ k ≤ t.halves.1.largest <;> by_cases hr : 2 ^ k ≤ t.halves.2.largest <;>
    simp_all [goesLeft]

theorem place_ne_free (k : ℕ) (t : Buddy h) : (t.place k).2 ≠ .free := by
  cases h with
  | zero => simp [place]
  | succ h =>
    rw [place]
    split
    · simp
    · split <;> simp

/-- **Taking a block** takes it, whole and aligned, and nothing else. -/
theorem place_spec {t : Buddy h} (ht : t.Whole) (hk : k ≤ h) (hfit : 2 ^ k ≤ t.largest) (o : ℕ) :
    (t.place k).2.Whole ∧ 2 ^ k ∣ (t.place k).1 ∧ (t.place k).1 + 2 ^ k ≤ 2 ^ h ∧
      ((t.place k).2.blocks o).Perm (⟨o + (t.place k).1, 2 ^ k⟩ :: t.blocks o) := by
  induction h generalizing o with
  | zero =>
    obtain rfl : k = 0 := Nat.le_zero.mp hk
    have hfree : t = .free := (largest_eq_iff ht).mp (Nat.le_antisymm t.largest_le hfit)
    subst hfree
    exact ⟨trivial, by simp [place], by simp [place], by simp [place, blocks]⟩
  | succ h ih =>
    rw [place]
    by_cases hkh : k = h + 1
    · subst hkh
      have hfree : t = .free := (largest_eq_iff ht).mp (Nat.le_antisymm t.largest_le hfit)
      subst hfree
      rw [if_pos rfl]
      exact ⟨trivial, by simp, by simp, by simp [blocks]⟩
    · rw [if_neg hkh]
      have hk : k ≤ h := by omega
      obtain ⟨hwl, hwr⟩ := whole_halves ht
      have hgo := goesLeft_spec hk hfit
      have hpow : 2 ^ (h + 1) = 2 ^ h + 2 ^ h := by ring
      rw [blocks_halves (Nat.lt_of_lt_of_le (Nat.two_pow_pos k) hfit)]
      split at hgo
      · next hleft =>
        rw [if_pos hleft]
        obtain ⟨hw, hdvd, hlim, hperm⟩ := ih hwl hk hgo o
        refine ⟨⟨fun hf => place_ne_free _ _ hf.1, hw, hwr⟩, hdvd, ?_, ?_⟩
        · show (place k t.halves.1).1 + 2 ^ k ≤ 2 ^ (h + 1)
          omega
        · exact hperm.append_right _
      · next hright =>
        rw [if_neg hright]
        obtain ⟨hw, hdvd, hlim, hperm⟩ := ih hwr hk hgo (o + 2 ^ h)
        refine ⟨⟨fun hf => place_ne_free _ _ hf.2, hwl, hw⟩, ?_, ?_, ?_⟩
        · exact Nat.dvd_add (Nat.pow_dvd_pow 2 hk) hdvd
        · show 2 ^ h + (place k t.halves.2).1 + 2 ^ k ≤ 2 ^ (h + 1)
          omega
        · rw [Nat.add_assoc] at hperm
          exact (hperm.append_left _).trans List.perm_middle

/-! ### Giving a block back -/

theorem whole_release {t : Buddy h} (ht : t.Whole) (x : ℕ) : (t.release x).Whole := by
  induction t generalizing x with
  | free | taken => trivial
  | split l r ihl ihr =>
    rw [release]
    split
    · exact whole_join (ihl ht.2.1 _) ht.2.2
    · exact whole_join ht.2.1 (ihr ht.2.2 _)

/-- **Giving a block back** frees the block the unit is in, and nothing else. -/
theorem blocks_release (t : Buddy h) (o : ℕ) (hx : x < 2 ^ h) :
    (t.release x).blocks o =
      (t.blocks o).filter fun b => !decide (b.addr ≤ o + x ∧ o + x < b.limit) := by
  induction t generalizing o x with
  | free => rfl
  | @taken h => simp [release, blocks, Block.limit, hx]
  | @split h l r ihl ihr =>
    have hpow : 2 ^ (h + 1) = 2 ^ h + 2 ^ h := by ring
    have hpos := Nat.two_pow_pos h
    have hkeep : ∀ {l : Buddy h} {o' x' : ℕ}, x' < o' ∨ o' + 2 ^ h ≤ x' →
        (l.blocks o').filter (fun b => !decide (b.addr ≤ x' ∧ x' < b.limit)) = l.blocks o' := by
      intro l o' x' hout
      refine List.filter_eq_self.mpr fun b hb => ?_
      obtain ⟨hle, hlim, -⟩ := mem_blocks hb
      simp only [Bool.not_eq_true', decide_eq_false_iff_not]
      omega
    rw [release, blocks, List.filter_append]
    split
    · next hlt => rw [blocks_join, ihl o hlt, hkeep (l := r) (.inl (by omega))]
    · next hge =>
      have heq : o + 2 ^ h + (x - 2 ^ h) = o + x := by omega
      rw [blocks_join, ihr (o + 2 ^ h) (by omega), heq, hkeep (l := l) (.inr (by omega))]

/-- What joining two halves makes of their largest runs. -/
theorem largest_join {l r : Buddy h} (hl : l.Whole) (hr : r.Whole) :
    (join l r).largest =
      if l.largest + r.largest = 2 ^ (h + 1) then 2 ^ (h + 1) else max l.largest r.largest := by
  have hpow : 2 ^ (h + 1) = 2 ^ h + 2 ^ h := by ring
  by_cases hf : l = .free ∧ r = .free
  · obtain ⟨rfl, rfl⟩ := hf
    rw [if_pos (by simp only [largest]; omega)]
    rfl
  · have hjoin : join l r = split l r := by
      cases l <;> cases r <;> simp_all [join]
    have h₁ := l.largest_le
    have h₂ := r.largest_le
    rw [hjoin, largest, if_neg]
    intro hsum
    exact hf ⟨(largest_eq_iff hl).mp (by omega), (largest_eq_iff hr).mp (by omega)⟩

end Buddy
