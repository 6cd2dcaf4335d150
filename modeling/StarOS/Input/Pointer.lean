import StarOS.Hal.Clock
import StarOS.Input.Virtio

/-!
# From an axis to a pixel

The driver reports where a value sits on its axis as a fraction of 65535, and the compositor scales
the fraction to the screen. Both round down.

## Main definitions

* `Virtio.AbsInfo.normaliseChecked`, `Virtio.toPixels` — the two scalings, with their checks
* `Virtio.pixel` — one after the other

## Main results

* `Virtio.normaliseChecked_eq_normalise`, `Virtio.pixel_eq` — what they come to, without overflow
* `Virtio.reached_iff` — which pixels a value leads to
* `Virtio.pixel_law`
-/

namespace StarOS

namespace Virtio

variable {σ ε : Type}

/-- `AbsInfo.normalise` with the checks of its arithmetic. -/
def AbsInfo.normaliseChecked (a : AbsInfo) (value : BitVec 32) : Checked σ ε (BitVec 32) := do
  if a.max ≤ a.min then return .ofNat 32 (axisScale / 2)
  else
    let span ← Checked.sub a.max.toNat a.min.toNat
    let clamped := if value < a.min then a.min else if a.max < value then a.max else value
    let offset ← Checked.sub clamped.toNat a.min.toNat
    let product ← Checked.mul 64 offset axisScale
    let quotient ← Checked.div product span
    return .ofNat 32 quotient

/-- Turn one axis of a device-relative position into a pixel on this screen. -/
def toPixels (fraction extent : ℕ) : Checked σ ε ℕ := do
  if extent = 0 then return 0
  else
    let f := min fraction axisScale
    let last ← Checked.sub extent 1
    let product ← Checked.mul 64 f last
    Checked.div product axisScale

/-- Where a value of an axis is on the screen. -/
def pixel (a : AbsInfo) (extent : ℕ) (value : BitVec 32) : Checked σ ε ℕ := do
  let fraction ← a.normaliseChecked value
  toPixels fraction.toNat extent

/-! ### What the scalings come to -/

/-- How far a value is from the end of its axis. -/
def offset (a : AbsInfo) (value : BitVec 32) : ℕ :=
  min value.toNat a.max.toNat - a.min.toNat

/-- How long an axis is. -/
def span (a : AbsInfo) : ℕ := a.max.toNat - a.min.toNat

/-- The fraction at an offset. -/
def fractionAt (span offset : ℕ) : ℕ := offset * axisScale / span

/-- The pixel at an offset. -/
def pixelAt (span last offset : ℕ) : ℕ := fractionAt span offset * last / axisScale

variable {a : AbsInfo} {extent k n m last : ℕ} {v w : BitVec 32}

theorem offset_le (a : AbsInfo) (v : BitVec 32) : offset a v ≤ span a := by
  rw [offset, span]
  omega

theorem offset_mono (hvw : v ≤ w) : offset a v ≤ offset a w := by
  have hle := BitVec.le_def.mp hvw
  rw [offset, offset]
  omega

theorem offset_of_le_min (hv : v ≤ a.min) : offset a v = 0 := by
  have hle := BitVec.le_def.mp hv
  rw [offset]
  omega

theorem offset_of_max_le (hv : a.max ≤ v) : offset a v = span a := by
  have hle := BitVec.le_def.mp hv
  rw [offset, span]
  omega

/-- Every offset is that of a value. -/
theorem exists_offset (ha : a.min < a.max) (hn : n ≤ span a) : ∃ v, offset a v = n := by
  have hlt := BitVec.lt_def.mp ha
  have hmax := a.max.isLt
  rw [span] at hn
  refine ⟨.ofNat 32 (a.min.toNat + n), ?_⟩
  rw [offset, BitVec.toNat_ofNat, Nat.mod_eq_of_lt (by omega)]
  omega

theorem fractionAt_le (hn : n ≤ m) : fractionAt m n ≤ axisScale :=
  Nat.div_le_of_le_mul (Nat.mul_le_mul_right _ hn)

theorem fractionAt_self (hm : 0 < m) : fractionAt m m = axisScale := Nat.mul_div_cancel_left _ hm

/-- The value the driver scales, as a number. -/
theorem clamped_toNat (ha : a.min < a.max) (v : BitVec 32) :
    (if v < a.min then a.min else if a.max < v then a.max else v).toNat - a.min.toNat =
      offset a v ∧
    a.min.toNat ≤ (if v < a.min then a.min else if a.max < v then a.max else v).toNat := by
  have hlt := BitVec.lt_def.mp ha
  rw [offset]
  split
  · next h =>
    have hv := BitVec.lt_def.mp h
    omega
  · next h =>
    have hv := BitVec.not_lt.mp h
    rw [BitVec.le_def] at hv
    split
    · next h =>
      have hv := BitVec.lt_def.mp h
      omega
    · next h =>
      have hv := BitVec.le_def.mp (BitVec.not_lt.mp h)
      omega

theorem normaliseChecked_eq (ha : a.min < a.max) (v : BitVec 32) :
    (a.normaliseChecked v : Checked σ ε (BitVec 32)) =
      pure (.ofNat 32 (fractionAt (span a) (offset a v))) := by
  have hlt := BitVec.lt_def.mp ha
  have hle := offset_le a v
  have hmax := a.max.isLt
  obtain ⟨hoffset, hmin⟩ := clamped_toNat ha v
  have hspan : (Checked.sub a.max.toNat a.min.toNat : Checked σ ε ℕ) = pure (span a) :=
    if_pos hlt.le
  have hsub : (Checked.sub (if v < a.min then a.min else if a.max < v then a.max else v).toNat
      a.min.toNat : Checked σ ε ℕ) = pure (offset a v) := by
    rw [Checked.sub, if_pos hmin, hoffset]
  have hfits : offset a v * axisScale < 2 ^ 64 := by
    simp only [span, axisScale] at hle ⊢
    omega
  have hpos : 0 < span a := Nat.sub_pos_of_lt hlt
  rw [AbsInfo.normaliseChecked, if_neg (BitVec.not_le.mpr ha), hspan, pure_bind]
  simp only [hsub, pure_bind, mul_eq hfits, div_eq hpos]
  rfl

theorem normalise_eq (ha : a.min < a.max) (v : BitVec 32) :
    a.normalise v = .ofNat 32 (fractionAt (span a) (offset a v)) := by
  have hlt := BitVec.lt_def.mp ha
  obtain ⟨hoffset, hmin⟩ := clamped_toNat ha v
  rw [AbsInfo.normalise, if_neg (BitVec.not_le.mpr ha)]
  simp only [BitVec.toNat_sub_of_le (BitVec.le_def.mpr hlt.le),
    BitVec.toNat_sub_of_le (BitVec.le_def.mpr hmin), hoffset]
  rfl

/-- The scaling with its checks is the one the driver makes. -/
theorem normaliseChecked_eq_normalise (ha : a.min < a.max) (v : BitVec 32) :
    (a.normaliseChecked v : Checked σ ε (BitVec 32)) = pure (a.normalise v) := by
  rw [normaliseChecked_eq ha, normalise_eq ha]

theorem toPixels_eq (hpos : 0 < extent) (hfits : axisScale * (extent - 1) < 2 ^ 64) (n : ℕ) :
    (toPixels n extent : Checked σ ε ℕ) = pure (min n axisScale * (extent - 1) / axisScale) := by
  have hlast : (Checked.sub extent 1 : Checked σ ε ℕ) = pure (extent - 1) := if_pos hpos
  have hmul : min n axisScale * (extent - 1) < 2 ^ 64 :=
    Nat.lt_of_le_of_lt (Nat.mul_le_mul_right _ (Nat.min_le_right ..)) hfits
  rw [toPixels, if_neg (Nat.ne_of_gt hpos), hlast, pure_bind, mul_eq hmul, pure_bind]
  exact div_eq (by decide)

/-- A screen so large that the scaling does not fit. -/
theorem toPixels_of_not_fits (h : 2 ^ 64 ≤ axisScale * (extent - 1)) :
    (toPixels axisScale extent : Checked σ ε ℕ) = throw .overflow := by
  have hpos : 1 ≤ extent := Nat.pos_of_ne_zero fun hzero => by simp [hzero] at h
  have hlast : (Checked.sub extent 1 : Checked σ ε ℕ) = pure (extent - 1) := if_pos hpos
  rw [toPixels, if_neg (Nat.ne_of_gt hpos), hlast, pure_bind, Nat.min_self, Checked.mul,
    if_neg (Nat.not_lt.mpr h)]
  rfl

/-- **The pixel of a value**, without overflow. -/
theorem pixel_eq (ha : a.min < a.max) (hpos : 0 < extent)
    (hfits : axisScale * (extent - 1) < 2 ^ 64) (v : BitVec 32) :
    (pixel a extent v : Checked σ ε ℕ) =
      pure (pixelAt (span a) (extent - 1) (offset a v)) := by
  have hle := fractionAt_le (offset_le a v)
  have hlt : fractionAt (span a) (offset a v) < 2 ^ 32 :=
    Nat.lt_of_le_of_lt hle (by decide)
  rw [pixel, normaliseChecked_eq ha, pure_bind, toPixels_eq hpos hfits, BitVec.toNat_ofNat,
    Nat.mod_eq_of_lt hlt, Nat.min_eq_left hle]
  rfl

/-! ### Which pixels are reached -/

theorem pixelAt_mono (h : n ≤ m) : pixelAt k last n ≤ pixelAt k last m :=
  Nat.div_le_div_right (Nat.mul_le_mul_right _
    (Nat.div_le_div_right (Nat.mul_le_mul_right _ h)))

theorem pixelAt_zero (k last : ℕ) : pixelAt k last 0 = 0 := by
  rw [pixelAt, fractionAt, Nat.zero_mul, Nat.zero_div, Nat.zero_mul, Nat.zero_div]

theorem pixelAt_self (hm : 0 < m) : pixelAt m last m = last := by
  rw [pixelAt, fractionAt_self hm]
  exact Nat.mul_div_cancel_left _ (by decide)

theorem pixelAt_le (hm : 0 < m) (hn : n ≤ m) : pixelAt m last n ≤ last :=
  (pixelAt_mono hn).trans_eq (pixelAt_self hm)

/-- The least fraction of a pixel. -/
def fractionOf (last k : ℕ) : ℕ := ceilDiv (k * axisScale) last

/-- The least offset whose fraction is that of a pixel or more. -/
def offsetOf (span last k : ℕ) : ℕ := ceilDiv (fractionOf last k * span) axisScale

/-- The pixels from one on begin at its offset. -/
theorem le_pixelAt_iff (hm : 0 < m) (hlast : 0 < last) :
    k ≤ pixelAt m last n ↔ offsetOf m last k ≤ n := by
  rw [pixelAt, Nat.le_div_iff_mul_le (by decide), ← ceilDiv_le_iff hlast, fractionAt,
    Nat.le_div_iff_mul_le hm, offsetOf, ceilDiv_le_iff (by decide)]
  rfl

/-- **A pixel is reached** exactly when the next one begins at a later offset. -/
theorem reached_iff (hm : 0 < m) (hk : k < last) :
    (∃ n ≤ m, pixelAt m last n = k) ↔ offsetOf m last k < offsetOf m last (k + 1) := by
  have hlast : 0 < last := Nat.zero_lt_of_lt hk
  constructor
  · rintro ⟨n, -, rfl⟩
    have hlow := (le_pixelAt_iff hm hlast).mp (Nat.le_refl (pixelAt m last n))
    have hhigh := mt (le_pixelAt_iff (k := pixelAt m last n + 1) hm hlast).mpr
      (Nat.not_succ_le_self _)
    omega
  · intro hlt
    have hlow := (le_pixelAt_iff hm hlast).mpr (Nat.le_refl (offsetOf m last k))
    have hhigh := mt (le_pixelAt_iff (k := k + 1) hm hlast).mp (Nat.not_le.mpr hlt)
    have hself : offsetOf m last k ≤ m :=
      (le_pixelAt_iff hm hlast).mp ((pixelAt_self hm : pixelAt m last m = last).symm ▸ hk.le)
    exact ⟨offsetOf m last k, hself, by omega⟩

theorem fractionOf_add_le (hlast : 0 < last) (k : ℕ) :
    fractionOf last k + axisScale / last ≤ fractionOf last (k + 1) := by
  have hnext : (k + 1) * axisScale ≤ fractionOf last (k + 1) * last :=
    (ceilDiv_le_iff hlast).mp (Nat.le_refl _)
  have hstep : axisScale / last * last ≤ axisScale := Nat.div_mul_le_self ..
  rw [Nat.succ_mul] at hnext
  have hle : axisScale / last ≤ fractionOf last (k + 1) :=
    Nat.le_of_mul_le_mul_right (by omega) hlast
  have hbefore : fractionOf last k ≤ fractionOf last (k + 1) - axisScale / last :=
    (ceilDiv_le_iff hlast).mpr (by rw [Nat.sub_mul]; omega)
  omega

/-- It is enough that the axis makes a step within the least step of the fraction to a pixel. -/
theorem offsetOf_lt (hlast : 0 < last) (h : axisScale ≤ axisScale / last * m) (k : ℕ) :
    offsetOf m last k < offsetOf m last (k + 1) := by
  have hscale : 0 < axisScale := by decide
  have hfraction := Nat.mul_le_mul_right m (fractionOf_add_le hlast k)
  have hnext : fractionOf last (k + 1) * m ≤ offsetOf m last (k + 1) * axisScale :=
    (ceilDiv_le_iff hscale).mp (Nat.le_refl _)
  rw [Nat.add_mul] at hfraction
  have hpos : 0 < offsetOf m last (k + 1) := by
    refine Nat.pos_of_ne_zero fun hzero => ?_
    rw [hzero, Nat.zero_mul] at hnext
    omega
  have hbefore : offsetOf m last k ≤ offsetOf m last (k + 1) - 1 :=
    (ceilDiv_le_iff hscale).mpr (by rw [Nat.sub_mul, Nat.one_mul]; omega)
  omega

/-- **From an axis to a pixel**, where the scaling to the screen fits in 64 bits: it goes up with
the value, stays on the screen, and has both ends of the axis at the ends of the screen. It leaves no
pixel out exactly when each begins at a later value than the one before. -/
theorem pixel_law {a : AbsInfo} {extent : ℕ} (ha : a.min < a.max) (hpos : 0 < extent)
    (hfits : axisScale * (extent - 1) < 2 ^ 64) :
    ∃ p : BitVec 32 → ℕ, (∀ v, (pixel a extent v : Checked σ ε ℕ) = pure (p v)) ∧
      (∀ v w, v ≤ w → p v ≤ p w) ∧ (∀ v, p v < extent) ∧
      (∀ v, v ≤ a.min → p v = 0) ∧ (∀ v, a.max ≤ v → p v = extent - 1) ∧
      ((∀ k < extent, ∃ v, p v = k) ↔ ∀ k < extent - 1,
        offsetOf (span a) (extent - 1) k < offsetOf (span a) (extent - 1) (k + 1)) ∧
      (axisScale ≤ axisScale / (extent - 1) * span a → ∀ k < extent, ∃ v, p v = k) := by
  have hspan : 0 < span a := Nat.sub_pos_of_lt (BitVec.lt_def.mp ha)
  have hreached : (∀ k < extent, ∃ v, pixelAt (span a) (extent - 1) (offset a v) = k) ↔
      ∀ k < extent - 1,
        offsetOf (span a) (extent - 1) k < offsetOf (span a) (extent - 1) (k + 1) := by
    constructor
    · intro hall k hk
      obtain ⟨v, hv⟩ := hall k (by omega)
      exact (reached_iff hspan hk).mp ⟨offset a v, offset_le a v, hv⟩
    · intro hall k hk
      obtain hk' | rfl : k < extent - 1 ∨ k = extent - 1 := by omega
      · obtain ⟨n, hn, hk⟩ := (reached_iff hspan hk').mpr (hall k hk')
        obtain ⟨v, hv⟩ := exists_offset ha hn
        exact ⟨v, hv.symm ▸ hk⟩
      · obtain ⟨v, hv⟩ := exists_offset ha (Nat.le_refl (span a))
        exact ⟨v, hv.symm ▸ pixelAt_self hspan⟩
  refine ⟨fun v => pixelAt (span a) (extent - 1) (offset a v), pixel_eq ha hpos hfits,
    fun v w hvw => pixelAt_mono (offset_mono hvw), fun v => ?_, fun v hv => ?_, fun v hv => ?_,
    hreached, fun henough => hreached.mpr fun k hk => ?_⟩
  · have hle : pixelAt (span a) (extent - 1) (offset a v) ≤ extent - 1 :=
      pixelAt_le hspan (offset_le a v)
    exact Nat.lt_of_le_of_lt hle (Nat.sub_one_lt_of_lt hpos)
  · show pixelAt (span a) (extent - 1) (offset a v) = 0
    rw [offset_of_le_min hv, pixelAt_zero]
  · show pixelAt (span a) (extent - 1) (offset a v) = extent - 1
    rw [offset_of_max_le hv, pixelAt_self hspan]
  · exact offsetOf_lt (Nat.zero_lt_of_lt hk) henough k

/-- A tablet with 32768 positions reaches every pixel of a line of 1280. -/
theorem pixel_law_tablet : ∃ p : BitVec 32 → ℕ,
    (∀ v, (pixel ⟨0, 32767⟩ 1280 v : Checked Unit Unit ℕ) = pure (p v)) ∧
      ∀ k < 1280, ∃ v, p v = k := by
  obtain ⟨p, hp, -, -, -, -, -, hall⟩ :=
    @pixel_law Unit Unit ⟨0, 32767⟩ 1280 (by decide) (by decide) (by decide)
  exact ⟨p, hp, hall (by decide)⟩

/-- An axis of three positions does not reach the middle one of three pixels, and an extent that
does not fit makes the scaling overflow. -/
theorem pixel_left_out :
    (∀ v, (pixel ⟨0, 2⟩ 3 v : Checked Unit Unit ℕ) ≠ pure 1) ∧
      (pixel ⟨0, 2⟩ (2 ^ 64 - 1) 2 : Checked Unit Unit ℕ) = throw .overflow := by
  refine ⟨fun v heq => ?_, ?_⟩
  · have hpure : (pixel ⟨0, 2⟩ 3 v : Checked Unit Unit ℕ) = pure (pixelAt 2 2 (offset ⟨0, 2⟩ v)) :=
      pixel_eq (by decide) (by decide) (by decide) v
    have hpixel := congrFun (hpure.symm.trans heq) ()
    simp only [pure, EStateM.pure, EStateM.Result.ok.injEq, and_true] at hpixel
    have hreached := (@reached_iff 1 2 2 (by decide) (by decide)).mp
      ⟨_, offset_le ⟨0, 2⟩ v, hpixel⟩
    exact absurd hreached (by decide)
  · have hnorm : ((⟨0, 2⟩ : AbsInfo).normaliseChecked 2 : Checked Unit Unit (BitVec 32)) =
        pure (.ofNat 32 axisScale) := normaliseChecked_eq (by decide) 2
    rw [pixel, hnorm, pure_bind]
    exact toPixels_of_not_fits (by decide)

end Virtio

end StarOS
