import Mathlib.Data.List.ProdSigma
import Mathlib.Tactic.Ring
import StarOS.Lib.ByteMemory
import StarOS.Lib.Checked

/-!
# A framebuffer

A slice of bytes with the geometry to address it. A pixel is a few bytes, a row of pixels is `pitch`
bytes from the next, and the slice goes at least up to the last pixel of the last row.

## Main definitions

* `PixelFormat`, `Framebuffer`, `Framebuffer.new`
* `Framebuffer.putPixel`, `Framebuffer.drawGlyph`, `Framebuffer.scrollUp`, `Framebuffer.fillRows`
* `Framebuffer.Op.run`, `Framebuffer.Op.Fits` — an operation, and what it needs

## Main results

* `Framebuffer.wp_putPixel`, `Framebuffer.wp_fillRows`, `Framebuffer.wp_drawGlyph`,
  `Framebuffer.wp_scrollUp` — what becomes of each pixel, and when the operation stops short
* `Framebuffer.drawing_exact`
-/

namespace StarOS

open Checked

/-- How pixels are packed into memory. -/
structure PixelFormat where
  bytesPerPixel : BitVec 8
  redShift : BitVec 8
  redBits : BitVec 8
  greenShift : BitVec 8
  greenBits : BitVec 8
  blueShift : BitVec 8
  blueBits : BitVec 8
  deriving DecidableEq

/-- A colour. -/
structure Rgb where
  r : BitVec 8
  g : BitVec 8
  b : BitVec 8
  deriving DecidableEq

namespace PixelFormat

/-- 32-bit pixels with blue at byte 0. -/
def xrgb8888 : PixelFormat := ⟨4, 16, 8, 8, 8, 0, 8⟩

variable {σ ε : Type}

/-- A shift of a 32-bit integer, by less than its width. -/
def shl (v : BitVec 32) (k : ℕ) : Checked σ ε (BitVec 32) :=
  if k < 32 then pure (v <<< k) else throw .overflow

/-- Pack a colour into this format's pixel word. -/
def encode (f : PixelFormat) (c : Rgb) : Checked σ ε (BitVec 32) := do
  let redDrop ← sub 8 f.redBits.toNat
  let greenDrop ← sub 8 f.greenBits.toNat
  let blueDrop ← sub 8 f.blueBits.toNat
  let r ← shl (c.r.setWidth 32 >>> redDrop) f.redShift.toNat
  let g ← shl (c.g.setWidth 32 >>> greenDrop) f.greenShift.toNat
  let b ← shl (c.b.setWidth 32 >>> blueDrop) f.blueShift.toNat
  return r ||| g ||| b

/-- A format whose channels fit in a byte and lie in a word. -/
def Sane (f : PixelFormat) : Prop :=
  f.redBits.toNat ≤ 8 ∧ f.greenBits.toNat ≤ 8 ∧ f.blueBits.toNat ≤ 8 ∧ f.redShift.toNat < 32 ∧
    f.greenShift.toNat < 32 ∧ f.blueShift.toNat < 32

instance (f : PixelFormat) : Decidable f.Sane := inferInstanceAs (Decidable (_ ∧ _))

/-- The pixel word of a colour. -/
def word (f : PixelFormat) (c : Rgb) : BitVec 32 :=
  c.r.setWidth 32 >>> (8 - f.redBits.toNat) <<< f.redShift.toNat |||
    c.g.setWidth 32 >>> (8 - f.greenBits.toNat) <<< f.greenShift.toNat |||
    c.b.setWidth 32 >>> (8 - f.blueBits.toNat) <<< f.blueShift.toNat

/-- How many bytes a pixel has. -/
def bpp (f : PixelFormat) : ℕ := f.bytesPerPixel.toNat

end PixelFormat

/-- The bytes of a word in memory. -/
def toLeBytes (v : BitVec 32) : List (BitVec 8) :=
  [v.extractLsb' 0 8, v.extractLsb' 8 8, v.extractLsb' 16 8, v.extractLsb' 24 8]

/-- The first `n` bytes of a word. -/
def firstBytes {σ ε : Type} (v : BitVec 32) (n : ℕ) : Checked σ ε (List (BitVec 8)) :=
  if n ≤ 4 then pure ((toLeBytes v).take n) else throw .bounds

/-- A framebuffer, less the bytes of its slice. -/
structure Framebuffer where
  len : ℕ
  width : ℕ
  height : ℕ
  pitch : ℕ
  format : PixelFormat
  deriving DecidableEq

/-- The width and the height of a glyph. -/
def glyphWidth : ℕ := 8
def glyphHeight : ℕ := 8

/-- A bitmap of eight rows. -/
abbrev Bitmap := Vector (BitVec 8) 8

/-- Whether a dot of a bitmap is set. Bit 0 is the leftmost. -/
def dotOn (bits : Bitmap) (row col : ℕ) : Bool :=
  (bits.toList.getD row 0) &&& (1 <<< col) ≠ 0

namespace Framebuffer

/-- Wrap a slice of `len` bytes, unless it is too small for the geometry. -/
def new (len width height pitch : ℕ) (format : PixelFormat) : Option Framebuffer := do
  let row ← checkedMul 64 width format.bpp
  if format.bpp = 0 ∨ pitch < row then none
  else
    let last ← checkedSub height 1
    let lastRow ← checkedMul 64 last pitch
    let need ← checkedAdd 64 lastRow row
    if len < need then none else some ⟨len, width, height, pitch, format⟩

/-- Write bytes to the slice. There is nothing behind its end. -/
def store (fb : Framebuffer) (off : ℕ) (src : List (BitVec 8)) : Checked ByteMemory Empty Unit :=
  if off + src.length ≤ fb.len then modify (·.writeBytes off src) else throw .bounds

/-- Set one pixel. Out-of-range coordinates are ignored. -/
def putPixel (fb : Framebuffer) (x y : ℕ) (color : Rgb) : Checked ByteMemory Empty Unit := do
  if fb.width ≤ x ∨ fb.height ≤ y then return ()
  else
    let bpp := fb.format.bpp
    let down ← mul 64 y fb.pitch
    let across ← mul 64 x bpp
    let off ← add 64 down across
    let word ← fb.format.encode color
    let stop ← add 64 off bpp
    if stop ≤ fb.len then
      let src ← firstBytes word bpp
      fb.store off src
    else return ()

/-- The pixels of a row that begins at `off`. -/
def fillRow (fb : Framebuffer) (word : BitVec 32) (off span : ℕ) : Checked ByteMemory Empty Unit :=
  let bpp := fb.format.bpp
  (List.range (span / bpp)).foldlM (fun _ k => do
    let src ← firstBytes word bpp
    fb.store (off + k * bpp) src) ()

/-- The rows of a fill. -/
def fillRowsFrom (fb : Framebuffer) (word : BitVec 32) (span : ℕ) :
    List ℕ → Checked ByteMemory Empty Unit
  | [] => pure ()
  | y :: ys => do
    let off ← mul 64 y fb.pitch
    let stop ← add 64 off span
    if stop ≤ fb.len then
      fb.fillRow word off span
      fillRowsFrom fb word span ys
    else return ()

/-- Paint `count` whole rows starting at `top` in one colour. -/
def fillRows (fb : Framebuffer) (top count : ℕ) (color : Rgb) : Checked ByteMemory Empty Unit := do
  let word ← fb.format.encode color
  let span ← mul 64 fb.width fb.format.bpp
  let stop ← add 64 top count
  fillRowsFrom fb word span (List.range' top (min stop fb.height - top))

/-- Fill the whole framebuffer with one colour. -/
def clear (fb : Framebuffer) (color : Rgb) : Checked ByteMemory Empty Unit :=
  fb.fillRows 0 fb.height color

/-- Draw one glyph with its top-left at pixel `(ox, oy)`, row by row. -/
def drawGlyph (fb : Framebuffer) (ox oy : ℕ) (bits : Bitmap) (fg bg : Rgb) :
    Checked ByteMemory Empty Unit :=
  (List.range glyphHeight ×ˢ List.range glyphWidth).foldlM (fun _ dot => do
    let x ← add 64 ox dot.2
    let y ← add 64 oy dot.1
    fb.putPixel x y (if dotOn bits dot.1 dot.2 then fg else bg)) ()

/-- Move the bytes from `a` up to `b` to the front of the slice. -/
def copyWithin (fb : Framebuffer) (a b : ℕ) : Checked ByteMemory Empty Unit :=
  if a ≤ b ∧ b ≤ fb.len then modify fun m i => if i < b - a then m (a + i) else m i
  else throw .bounds

/-- Scroll the whole image up by `rows` pixels, filling the freed bottom band with `bg`. -/
def scrollUp (fb : Framebuffer) (rows : ℕ) (bg : Rgb) : Checked ByteMemory Empty Unit := do
  if rows = 0 ∨ fb.height ≤ rows then fb.clear bg
  else
    let shift ← mul 64 rows fb.pitch
    let stop ← mul 64 fb.height fb.pitch
    fb.copyWithin shift stop
    fb.fillRows (fb.height - rows) rows bg

/-! ### Pixels -/

/-- What holds of a framebuffer that was accepted. -/
structure Accepted (fb : Framebuffer) : Prop where
  bpp_pos : 0 < fb.format.bpp
  height_pos : 0 < fb.height
  row_le : fb.width * fb.format.bpp ≤ fb.pitch
  need_le : (fb.height - 1) * fb.pitch + fb.width * fb.format.bpp ≤ fb.len
  fits : fb.len < 2 ^ 63

/-- Where a pixel begins. -/
def off (fb : Framebuffer) (x y : ℕ) : ℕ := y * fb.pitch + x * fb.format.bpp

/-- The bytes of a pixel. -/
def pixel (fb : Framebuffer) (m : ByteMemory) (x y : ℕ) : List (BitVec 8) :=
  m.readBytes (fb.off x y) fb.format.bpp

/-- The bytes of a pixel of this colour. -/
def dot (fb : Framebuffer) (c : Rgb) : List (BitVec 8) :=
  (toLeBytes (fb.format.word c)).take fb.format.bpp

/-- What a store of a colour needs of the format. -/
def Paints (fb : Framebuffer) : Prop := fb.format.Sane ∧ fb.format.bpp ≤ 4

instance (fb : Framebuffer) : Decidable fb.Paints := inferInstanceAs (Decidable (_ ∧ _))

variable {fb : Framebuffer} {m : ByteMemory} {x y x' y' : ℕ} {c : Rgb} {bs : List (BitVec 8)}
  {len width height pitch : ℕ} {format : PixelFormat}

theorem accepted_of_new (hlen : len < 2 ^ 63) (h : new len width height pitch format = some fb) :
    fb.Accepted ∧ fb = ⟨len, width, height, pitch, format⟩ := by
  simp only [new, Option.bind_eq_bind, Option.bind_eq_some_iff, checkedMul_eq_some] at h
  obtain ⟨row, ⟨-, rfl⟩, h⟩ := h
  obtain ⟨hfine, h⟩ := Option.ite_none_left_eq_some.mp h
  simp only [Option.bind_eq_some_iff, checkedSub_eq_some, checkedMul_eq_some,
    checkedAdd_eq_some] at h
  obtain ⟨last, ⟨hheight, rfl⟩, lastRow, ⟨-, rfl⟩, need, ⟨-, rfl⟩, h⟩ := h
  obtain ⟨hneed, h⟩ := Option.ite_none_left_eq_some.mp h
  obtain rfl := Option.some.inj h
  obtain ⟨hbpp, hpitch⟩ := not_or.mp hfine
  exact ⟨⟨Nat.pos_of_ne_zero hbpp, hheight, Nat.not_lt.mp hpitch,
    Nat.not_lt.mp hneed, hlen⟩, rfl⟩

namespace Accepted

/-- A row lies in the slice. -/
theorem row_end_le (h : fb.Accepted) (hy : y < fb.height) :
    y * fb.pitch + fb.width * fb.format.bpp ≤ fb.len := by
  have hrows : y * fb.pitch ≤ (fb.height - 1) * fb.pitch :=
    Nat.mul_le_mul_right _ (Nat.le_sub_one_of_lt hy)
  have hneed := h.need_le
  omega

/-- A pixel lies in its row. -/
theorem off_add_le (hx : x < fb.width) :
    fb.off x y + fb.format.bpp ≤ y * fb.pitch + fb.width * fb.format.bpp := by
  have hpixels : (x + 1) * fb.format.bpp ≤ fb.width * fb.format.bpp :=
    Nat.mul_le_mul_right _ hx
  rw [Nat.succ_mul] at hpixels
  rw [off]
  omega

/-- Pixels do not meet. -/
theorem off_disjoint (h : fb.Accepted) (hx : x < fb.width) (hx' : x' < fb.width)
    (hne : ¬ (x' = x ∧ y' = y)) :
    fb.off x' y' + fb.format.bpp ≤ fb.off x y ∨ fb.off x y + fb.format.bpp ≤ fb.off x' y' := by
  have hrow := h.row_le
  have hpixel := off_add_le (y := y) hx
  have hpixel' := off_add_le (y := y') hx'
  obtain hlt | rfl | hlt := Nat.lt_trichotomy y y'
  · have hrows : (y + 1) * fb.pitch ≤ y' * fb.pitch := Nat.mul_le_mul_right _ hlt
    rw [Nat.succ_mul] at hrows
    simp only [off] at hpixel ⊢
    omega
  · obtain hlt | rfl | hlt := Nat.lt_trichotomy x x'
    · have hpixels : (x + 1) * fb.format.bpp ≤ x' * fb.format.bpp := Nat.mul_le_mul_right _ hlt
      rw [Nat.succ_mul] at hpixels
      simp only [off]
      omega
    · exact absurd ⟨rfl, rfl⟩ hne
    · have hpixels : (x' + 1) * fb.format.bpp ≤ x * fb.format.bpp := Nat.mul_le_mul_right _ hlt
      rw [Nat.succ_mul] at hpixels
      simp only [off]
      omega
  · have hrows : (y' + 1) * fb.pitch ≤ y * fb.pitch := Nat.mul_le_mul_right _ hlt
    rw [Nat.succ_mul] at hrows
    simp only [off] at hpixel' ⊢
    omega

/-- **Storing one pixel** changes that pixel only. -/
theorem pixel_write (h : fb.Accepted) (hx : x < fb.width) (hx' : x' < fb.width)
    (hbs : bs.length = fb.format.bpp) :
    fb.pixel (m.writeBytes (fb.off x y) bs) x' y' =
      if x' = x ∧ y' = y then bs else fb.pixel m x' y' := by
  split
  · next heq =>
    obtain ⟨rfl, rfl⟩ := heq
    rw [pixel, ByteMemory.readBytes_writeBytes hbs.le, hbs, List.drop_eq_nil_of_le, List.append_nil]
    rw [ByteMemory.length_readBytes]
  · next hne =>
    have hout := h.off_disjoint hx hx' hne
    exact (ByteMemory.agree_writeBytes (by omega)).readBytes

end Accepted

theorem length_dot (hbpp : fb.format.bpp ≤ 4) : (fb.dot c).length = fb.format.bpp := by
  rw [dot, List.length_take]
  exact Nat.min_eq_left hbpp

/-! ### The operations -/

variable {T : Prop} {σ ε : Type}

theorem wp_shl {v : BitVec 32} {k : ℕ} {Q : BitVec 32 → σ → Prop} {F : ε → σ → Prop} {s : σ} :
    wp T (PixelFormat.shl v k) Q F s ↔ (k < 32 → Q (v <<< k) s) ∧ (¬ k < 32 → T) := by
  rw [PixelFormat.shl, wp_ite, wp_pure, wp_overflow]

/-- Packing a colour stops exactly in a format that is not sane. -/
theorem wp_encode {f : PixelFormat} {Q : BitVec 32 → σ → Prop} {F : ε → σ → Prop} {s : σ}
    (hQ : f.Sane → Q (f.word c) s) (hT : ¬ f.Sane → T) : wp T (f.encode c) Q F s := by
  simp only [PixelFormat.encode, wp_bind, wp_sub_or, wp_shl, wp_pure]
  refine ⟨fun hr => ⟨fun hg => ⟨fun hb => ⟨fun hr' => ⟨fun hg' => ⟨fun hb' =>
    hQ ⟨hr, hg, hb, hr', hg', hb'⟩, ?_⟩, ?_⟩, ?_⟩, ?_⟩, ?_⟩, ?_⟩ <;>
  · intro hbad
    exact hT fun hsane => by
      obtain ⟨_, _, _, _, _, _⟩ := hsane
      contradiction

theorem wp_firstBytes {v : BitVec 32} {n : ℕ} {Q : List (BitVec 8) → σ → Prop} {F : ε → σ → Prop}
    {s : σ} :
    wp T (firstBytes v n) Q F s ↔ (n ≤ 4 → Q ((toLeBytes v).take n) s) ∧ (¬ n ≤ 4 → T) := by
  rw [firstBytes, wp_ite, wp_pure, wp_bounds]

theorem wp_store {off : ℕ} {Q : Unit → ByteMemory → Prop} {F : Empty → ByteMemory → Prop}
    (hin : off + bs.length ≤ fb.len) :
    wp T (fb.store off bs) Q F m ↔ Q () (m.writeBytes off bs) := by
  rw [store, if_pos hin, wp_modify]

/-- The pixels of a memory are these. -/
def Shows (fb : Framebuffer) (m : ByteMemory) (p : ℕ → ℕ → List (BitVec 8)) : Prop :=
  ∀ x < fb.width, ∀ y < fb.height, fb.pixel m x y = p x y

/-- What putting a pixel needs. -/
def PutFits (fb : Framebuffer) (x y : ℕ) : Prop := x < fb.width ∧ y < fb.height → fb.Paints

variable {Q : Unit → ByteMemory → Prop} {F : Empty → ByteMemory → Prop}

/-- **Putting a pixel.** -/
theorem wp_putPixel (h : fb.Accepted) (hT : ¬ fb.PutFits x y → T)
    (hQ : fb.PutFits x y → ∀ m', fb.Shows m' (fun x' y' =>
      if x' = x ∧ y' = y then fb.dot c else fb.pixel m x' y') → Q () m') :
    wp T (fb.putPixel x y c) Q F m := by
  rw [putPixel, wp_ite, wp_pure]
  refine ⟨fun hout => hQ (fun hin => ?_) m fun x' hx' y' hy' => ?_, fun hin => ?_⟩
  · omega
  · exact (if_neg (by omega)).symm
  · obtain ⟨hx, hy⟩ : x < fb.width ∧ y < fb.height := by omega
    have hrow := h.row_end_le hy
    have hoff := Accepted.off_add_le (y := y) hx
    have hlen := h.fits
    rw [off] at hoff
    simp only [wp_bind, wp_mul_or, wp_add_or]
    refine ⟨fun _ => ⟨fun _ => ⟨fun _ => ?_, by omega⟩, by omega⟩, by omega⟩
    refine wp_encode (fun hsane => ?_) fun hbad => hT fun hfits => hbad (hfits ⟨hx, hy⟩).1
    refine ⟨fun _ => ?_, by omega⟩
    rw [if_pos (by omega), wp_bind, wp_firstBytes]
    refine ⟨fun hbpp => ?_, fun hbad => hT fun hfits => hbad (hfits ⟨hx, hy⟩).2⟩
    have hdot : (fb.dot c).length = fb.format.bpp := length_dot hbpp
    have hin : y * fb.pitch + x * fb.format.bpp + (fb.dot c).length ≤ fb.len := by omega
    refine (wp_store hin).mpr ?_
    exact hQ (fun _ => ⟨hsane, hbpp⟩) _ fun x' hx' y' _ => h.pixel_write hx hx' hdot

/-- **Filling a row.** -/
theorem wp_fillRow (h : fb.Accepted) (hy : y < fb.height) (hT : ¬ (0 < fb.width → fb.format.bpp ≤ 4) → T)
    (hQ : (0 < fb.width → fb.format.bpp ≤ 4) → ∀ m', fb.Shows m' (fun x' y' =>
      if y' = y then fb.dot c else fb.pixel m x' y') → Q () m') :
    wp T (fb.fillRow (fb.format.word c) (y * fb.pitch) (fb.width * fb.format.bpp)) Q F m := by
  have hrow := h.row_end_le hy
  simp only [fillRow, Nat.mul_div_cancel _ h.bpp_pos]
  refine wp_mono (F := F) (wp_foldlM (fun done _ m' => (done ≠ [] → fb.format.bpp ≤ 4) ∧
    fb.Shows m' fun x' y' => if x' ∈ done ∧ y' = y then fb.dot c else fb.pixel m x' y')
    (fun done k _ m' hdone hI => ?_) ⟨fun hne => absurd rfl hne, fun x' _ y' _ => by simp⟩)
    (fun _ m' hend => ?_) fun _ _ he => he
  · have hk : k < fb.width :=
      List.mem_range.mp (hdone.subset (List.mem_append_right _ List.mem_cons_self))
    rw [wp_bind, wp_firstBytes]
    refine ⟨fun hbpp => ?_, fun hbad => hT fun hfits => hbad (hfits (Nat.zero_lt_of_lt hk))⟩
    have hdot : (fb.dot c).length = fb.format.bpp := length_dot hbpp
    have hoff := Accepted.off_add_le (y := y) hk
    rw [off] at hoff
    have hin : y * fb.pitch + k * fb.format.bpp + (fb.dot c).length ≤ fb.len := by omega
    refine (wp_store hin).mpr ⟨fun _ => hbpp, fun x' hx' y' hy' => ?_⟩
    have hwrite : fb.pixel (m'.writeBytes (fb.off k y) (fb.dot c)) x' y' =
        if x' = k ∧ y' = y then fb.dot c else fb.pixel m' x' y' := h.pixel_write hk hx' hdot
    rw [off] at hwrite
    refine hwrite.trans ?_
    rw [hI.2 x' hx' y' hy']
    by_cases hxk : x' = k <;> by_cases hy : y' = y <;> simp [hxk, hy]
  · obtain ⟨hbpp, hshows⟩ := hend
    refine hQ (fun hpos => hbpp ?_) m' fun x' hx' y' hy' => ?_
    · rw [Ne, List.range_eq_nil]
      omega
    · rw [hshows x' hx' y' hy']
      simp [hx']

/-- What filling rows needs, when it is known how a colour is packed. -/
theorem wp_fillRowsFrom (h : fb.Accepted) {ys : List ℕ} (hys : ∀ y ∈ ys, y < fb.height)
    (hT : ¬ (ys ≠ [] → 0 < fb.width → fb.format.bpp ≤ 4) → T)
    (hQ : (ys ≠ [] → 0 < fb.width → fb.format.bpp ≤ 4) → ∀ m', fb.Shows m' (fun x' y' =>
      if y' ∈ ys then fb.dot c else fb.pixel m x' y') → Q () m') :
    wp T (fb.fillRowsFrom (fb.format.word c) (fb.width * fb.format.bpp) ys) Q F m := by
  induction ys generalizing m with
  | nil =>
    rw [fillRowsFrom, wp_pure]
    exact hQ (fun hne => absurd rfl hne) m fun x' _ y' _ => by simp
  | cons y ys ih =>
    obtain ⟨hy, hys⟩ := List.forall_mem_cons.mp hys
    have hrow := h.row_end_le hy
    have hlen := h.fits
    simp only [fillRowsFrom, wp_bind, wp_mul_or, wp_add_or]
    refine ⟨fun _ => ⟨fun _ => ?_, by omega⟩, by omega⟩
    rw [if_pos hrow, wp_bind]
    refine wp_fillRow h hy (fun hbad => hT fun hfits => hbad (hfits (by simp)))
      fun hbpp m₁ hfirst => ?_
    refine ih hys (fun hbad => absurd (fun _ => hbpp) hbad) fun _ m' hrest => ?_
    refine hQ (fun _ => hbpp) m' fun x' hx' y' hy' => ?_
    have hpixel : fb.pixel m₁ x' y' = if y' = y then fb.dot c else fb.pixel m x' y' :=
      hfirst x' hx' y' hy'
    refine (hrest x' hx' y' hy').trans ?_
    show (if y' ∈ ys then fb.dot c else fb.pixel m₁ x' y') =
      if y' ∈ y :: ys then fb.dot c else fb.pixel m x' y'
    rw [hpixel]
    by_cases heq : y' = y
    · rw [if_pos heq, ite_self, if_pos (heq ▸ List.mem_cons_self)]
    · rw [if_neg heq]
      exact if_congr (by rw [List.mem_cons, or_iff_right heq]) rfl rfl

/-- What filling rows needs. -/
def FillFits (fb : Framebuffer) (top count : ℕ) : Prop :=
  fb.format.Sane ∧ top + count < 2 ^ 64 ∧
    (0 < count ∧ top < fb.height → 0 < fb.width → fb.format.bpp ≤ 4)

/-- **Filling rows.** -/
theorem wp_fillRows (h : fb.Accepted) {top count : ℕ} (hT : ¬ fb.FillFits top count → T)
    (hQ : fb.FillFits top count → ∀ m', fb.Shows m' (fun x' y' =>
      if top ≤ y' ∧ y' < top + count then fb.dot c else fb.pixel m x' y') → Q () m') :
    wp T (fb.fillRows top count c) Q F m := by
  have hrow := h.row_end_le h.height_pos
  have hlen := h.fits
  rw [fillRows, wp_bind]
  refine wp_encode (fun hsane => ?_) fun hbad => hT fun hfits => hbad hfits.1
  simp only [wp_bind, wp_mul_or, wp_add_or]
  refine ⟨fun _ => ⟨fun hadd => ?_, fun hbad => hT fun hfits => hbad hfits.2.1⟩, by omega⟩
  have hmem : ∀ y, y ∈ List.range' top (min (top + count) fb.height - top) ↔
      (top ≤ y ∧ y < top + count) ∧ y < fb.height := by
    intro y
    rw [List.mem_range'_1]
    omega
  have hrows : List.range' top (min (top + count) fb.height - top) ≠ [] ↔
      0 < count ∧ top < fb.height := by
    rw [Ne, List.range'_eq_nil_iff]
    omega
  refine wp_fillRowsFrom h (fun y hy => ((hmem y).mp hy).2)
    (fun hbad => hT fun hfits => hbad fun hne => hfits.2.2 (hrows.mp hne)) fun hbpp m' hshows => ?_
  refine hQ ⟨hsane, hadd, fun hpos => hbpp (hrows.mpr hpos)⟩ m' fun x' hx' y' hy' => ?_
  rw [hshows x' hx' y' hy']
  exact if_congr ((hmem y').trans (and_iff_left hy')) rfl rfl

/-- What drawing a glyph needs. -/
def GlyphFits (fb : Framebuffer) (ox oy : ℕ) : Prop :=
  ox + 7 < 2 ^ 64 ∧ oy + 7 < 2 ^ 64 ∧ fb.PutFits ox oy

/-- The pixels of a glyph. -/
def glyphPixel (fb : Framebuffer) (ox oy : ℕ) (bits : Bitmap) (fg bg : Rgb) (x y : ℕ) :
    List (BitVec 8) :=
  fb.dot (if dotOn bits (y - oy) (x - ox) then fg else bg)

/-- Whether a pixel is one of a glyph at `(ox, oy)`. -/
def InGlyph (ox oy x y : ℕ) : Prop := ox ≤ x ∧ x < ox + 8 ∧ oy ≤ y ∧ y < oy + 8

instance (ox oy x y : ℕ) : Decidable (InGlyph ox oy x y) := inferInstanceAs (Decidable (_ ∧ _))

/-- **Drawing a glyph.** -/
theorem wp_drawGlyph (h : fb.Accepted) {ox oy : ℕ} {bits : Bitmap} {fg bg : Rgb}
    (hT : ¬ fb.GlyphFits ox oy → T)
    (hQ : fb.GlyphFits ox oy → ∀ m', fb.Shows m' (fun x' y' =>
      if InGlyph ox oy x' y' then fb.glyphPixel ox oy bits fg bg x' y' else fb.pixel m x' y') →
        Q () m') :
    wp T (fb.drawGlyph ox oy bits fg bg) Q F m := by
  have hmem : ∀ row col, (row, col) ∈ List.range glyphHeight ×ˢ List.range glyphWidth ↔
      row < 8 ∧ col < 8 := by
    intro row col
    rw [List.mem_product, List.mem_range, List.mem_range]
    rfl
  rw [drawGlyph]
  -- what was drawn so far, and what it took
  refine wp_mono (F := F) (wp_foldlM (fun done _ m' =>
      (∀ dot ∈ done, ox + dot.2 < 2 ^ 64 ∧ oy + dot.1 < 2 ^ 64 ∧
        fb.PutFits (ox + dot.2) (oy + dot.1)) ∧
      fb.Shows m' fun x' y' => if ox ≤ x' ∧ oy ≤ y' ∧ (y' - oy, x' - ox) ∈ done then
        fb.glyphPixel ox oy bits fg bg x' y' else fb.pixel m x' y')
    (fun done dot _ m₁ hdone hI => ?_) ⟨by simp, fun x' _ y' _ => by simp⟩)
    (fun _ m' hend => ?_) fun _ _ he => he
  · obtain ⟨row, col⟩ := dot
    have hin := (hmem row col).mp (hdone.subset (List.mem_append_right _ List.mem_cons_self))
    simp only [wp_bind, wp_add_or]
    refine ⟨fun hx => ⟨fun hy => wp_putPixel h (fun hbad => hT fun hfits => hbad ?_)
      fun hput m₂ hshows => ?_, fun hbad => hT fun hfits => hbad ?_⟩,
      fun hbad => hT fun hfits => hbad ?_⟩
    · exact fun hrange => hfits.2.2 ⟨by omega, by omega⟩
    · refine ⟨fun dot hdot => ?_, fun x' hx' y' hy' => ?_⟩
      · obtain hdot | hdot := List.mem_append.mp hdot
        · exact hI.1 dot hdot
        · obtain rfl := List.mem_singleton.mp hdot
          exact ⟨hx, hy, hput⟩
      · refine (hshows x' hx' y' hy').trans ?_
        show (if x' = ox + col ∧ y' = oy + row then fb.dot (if dotOn bits row col then fg else bg)
            else fb.pixel m₁ x' y') =
          if ox ≤ x' ∧ oy ≤ y' ∧ (y' - oy, x' - ox) ∈ done ++ [(row, col)] then
            fb.glyphPixel ox oy bits fg bg x' y' else fb.pixel m x' y'
        by_cases heq : x' = ox + col ∧ y' = oy + row
        · obtain ⟨rfl, rfl⟩ := heq
          rw [if_pos ⟨rfl, rfl⟩, glyphPixel, Nat.add_sub_cancel_left, Nat.add_sub_cancel_left]
          exact (if_pos ⟨by omega, by omega, List.mem_append_right _ List.mem_cons_self⟩).symm
        · rw [if_neg heq]
          refine (hI.2 x' hx' y' hy').trans (if_congr ?_ rfl rfl)
          rw [List.mem_append, List.mem_singleton, Prod.mk.injEq]
          constructor
          · exact fun hin => ⟨hin.1, hin.2.1, .inl hin.2.2⟩
          · rintro ⟨hxo, hyo, hold | ⟨hr, hc⟩⟩
            · exact ⟨hxo, hyo, hold⟩
            · exact absurd ⟨by omega, by omega⟩ heq
    · have := hfits.2.1
      omega
    · have := hfits.1
      omega
  · obtain ⟨hall, hshows⟩ := hend
    have hlast := hall (7, 7) ((hmem 7 7).mpr (by decide))
    have hfirst := hall (0, 0) ((hmem 0 0).mpr (by decide))
    refine hQ ⟨hlast.1, hlast.2.1, hfirst.2.2⟩ m' fun x' hx' y' hy' => ?_
    refine (hshows x' hx' y' hy').trans (if_congr ?_ rfl rfl)
    rw [hmem, InGlyph]
    omega

/-- Moving the rows of the image. -/
theorem wp_copyWithin (h : fb.Accepted) {rows : ℕ} (hrows : rows < fb.height)
    (hT : ¬ fb.height * fb.pitch ≤ fb.len → T)
    (hQ : fb.height * fb.pitch ≤ fb.len → ∀ m', (∀ x < fb.width, ∀ y < fb.height - rows,
      fb.pixel m' x y = fb.pixel m x (y + rows)) → Q () m') :
    wp T (fb.copyWithin (rows * fb.pitch) (fb.height * fb.pitch)) Q F m := by
  have hle : rows * fb.pitch ≤ fb.height * fb.pitch := Nat.mul_le_mul_right _ hrows.le
  rw [copyWithin, wp_ite, wp_bounds]
  refine ⟨fun hin => ?_, fun hbad => hT fun hlen => hbad ⟨hle, hlen⟩⟩
  rw [wp_modify]
  refine hQ hin.2 _ fun x hx y hy => ?_
  have hfrom : fb.off x (y + rows) = rows * fb.pitch + fb.off x y := by
    rw [off, off, Nat.add_mul]
    omega
  have hlast : (y + 1) * fb.pitch ≤ (fb.height - rows) * fb.pitch := Nat.mul_le_mul_right _ hy
  have hoff := Accepted.off_add_le (y := y) hx
  have hrow := h.row_le
  rw [Nat.succ_mul, Nat.sub_mul] at hlast
  rw [pixel, pixel, ByteMemory.readBytes, ByteMemory.readBytes, hfrom]
  refine List.map_congr_left fun k hk => ?_
  have hk := List.mem_range.mp hk
  rw [if_pos (by omega), Nat.add_assoc]

/-- What scrolling needs. -/
def ScrollFits (fb : Framebuffer) (rows : ℕ) : Prop :=
  (0 < rows ∧ rows < fb.height → fb.height * fb.pitch ≤ fb.len) ∧ fb.FillFits 0 fb.height

/-- **Scrolling up.** -/
theorem wp_scrollUp (h : fb.Accepted) {rows : ℕ} (hT : ¬ fb.ScrollFits rows → T)
    (hQ : fb.ScrollFits rows → ∀ m', fb.Shows m' (fun x' y' =>
      if 0 < rows ∧ y' + rows < fb.height then fb.pixel m x' (y' + rows) else fb.dot c) → Q () m') :
    wp T (fb.scrollUp rows c) Q F m := by
  have hclear : fb.FillFits 0 fb.height ↔
      fb.format.Sane ∧ fb.height < 2 ^ 64 ∧ (0 < fb.width → fb.format.bpp ≤ 4) := by
    have hpos := h.height_pos
    rw [FillFits, Nat.zero_add]
    exact and_congr_right fun _ => and_congr_right fun _ =>
      ⟨fun hall => hall ⟨hpos, hpos⟩, fun hall _ => hall⟩
  rw [scrollUp, wp_ite]
  refine ⟨fun hwhole => ?_, fun hpart => ?_⟩
  · refine wp_fillRows h (fun hbad => hT fun hfits => hbad hfits.2) fun hfill m' hshows => ?_
    refine hQ ⟨fun hpart => by omega, hfill⟩ m' fun x' hx' y' hy' => ?_
    refine (hshows x' hx' y' hy').trans ?_
    show (if _ then _ else _) = if _ then _ else _
    rw [if_pos (by omega), if_neg (by omega)]
  · obtain ⟨hpos, hlt⟩ : 0 < rows ∧ rows < fb.height := by omega
    have hband : fb.FillFits (fb.height - rows) rows ↔ fb.FillFits 0 fb.height := by
      rw [hclear, FillFits, Nat.sub_add_cancel hlt.le]
      exact and_congr_right fun _ => and_congr_right fun _ =>
        ⟨fun hall => hall ⟨hpos, by omega⟩, fun hall _ => hall⟩
    -- neither of the products is larger than twice the slice
    have hlen := h.fits
    have hneed := h.need_le
    have hshift : rows * fb.pitch ≤ (fb.height - 1) * fb.pitch := Nat.mul_le_mul_right _ (by omega)
    have hone : 1 * fb.pitch ≤ (fb.height - 1) * fb.pitch := Nat.mul_le_mul_right _ (by omega)
    have hall : fb.height * fb.pitch = (fb.height - 1) * fb.pitch + fb.pitch := by
      rw [← Nat.succ_mul, Nat.succ_eq_add_one, Nat.sub_add_cancel h.height_pos]
    simp only [wp_bind, wp_mul_or]
    refine ⟨fun _ => ⟨fun _ => ?_, by omega⟩, by omega⟩
    refine wp_copyWithin h hlt (fun hbad => hT fun hfits => hbad (hfits.1 ⟨hpos, hlt⟩))
      fun hslice m₁ hmoved => ?_
    refine wp_fillRows h (fun hbad => hT fun hfits => hbad (hband.mpr hfits.2))
      fun hfill m' hshows => ?_
    refine hQ ⟨fun _ => hslice, hband.mp hfill⟩ m' fun x' hx' y' hy' => ?_
    refine (hshows x' hx' y' hy').trans ?_
    show (if fb.height - rows ≤ y' ∧ y' < fb.height - rows + rows then fb.dot c
      else fb.pixel m₁ x' y') = if _ then _ else _
    by_cases hkept : y' + rows < fb.height
    · rw [if_neg (by omega), if_pos ⟨hpos, hkept⟩, hmoved x' hx' y' (by omega)]
    · rw [if_pos (by omega), if_neg fun hin => hkept hin.2]

/-! ### Every operation -/

/-- A drawing operation with its arguments. -/
inductive Op
  | putPixel (x y : ℕ) (color : Rgb)
  | clear (color : Rgb)
  | fillRows (top count : ℕ) (color : Rgb)
  | drawGlyph (ox oy : ℕ) (bits : Bitmap) (fg bg : Rgb)
  | scrollUp (rows : ℕ) (bg : Rgb)

/-- Run an operation. -/
def Op.run (fb : Framebuffer) : Op → Checked ByteMemory Empty Unit
  | putPixel x y color => fb.putPixel x y color
  | clear color => fb.clear color
  | fillRows top count color => fb.fillRows top count color
  | drawGlyph ox oy bits fg bg => fb.drawGlyph ox oy bits fg bg
  | scrollUp rows bg => fb.scrollUp rows bg

/-- What an operation needs, of its arguments and of the framebuffer. -/
def Op.Fits (fb : Framebuffer) : Op → Prop
  | putPixel x y _ => fb.PutFits x y
  | clear _ => fb.FillFits 0 fb.height
  | fillRows top count _ => fb.FillFits top count
  | drawGlyph ox oy _ _ _ => fb.GlyphFits ox oy
  | scrollUp rows _ => fb.ScrollFits rows

/-- Run operations, one after the other. -/
def runOps (fb : Framebuffer) : List Op → Checked ByteMemory Empty Unit
  | [] => pure ()
  | op :: ops => do
    op.run fb
    fb.runOps ops

/-- **One operation** stops short exactly when it does not have what it needs. -/
theorem wp_run (h : fb.Accepted) (op : Op) (m : ByteMemory) :
    wp (¬ op.Fits fb) (op.run fb) (fun _ _ => op.Fits fb) F m := by
  cases op with
  | putPixel x y color => exact wp_putPixel h id fun hfits _ _ => hfits
  | clear color => exact wp_fillRows h id fun hfits _ _ => hfits
  | fillRows top count color => exact wp_fillRows h id fun hfits _ _ => hfits
  | drawGlyph ox oy bits fg bg => exact wp_drawGlyph h id fun hfits _ _ => hfits
  | scrollUp rows bg => exact wp_scrollUp h id fun hfits _ _ => hfits

theorem wp_runOps (h : fb.Accepted) (ops : List Op) (m : ByteMemory) :
    wp (¬ ∀ op ∈ ops, op.Fits fb) (fb.runOps ops) (fun _ _ => ∀ op ∈ ops, op.Fits fb) F m := by
  induction ops generalizing m with
  | nil =>
    rw [runOps, wp_pure]
    exact fun _ hop => absurd hop List.not_mem_nil
  | cons op ops ih =>
    rw [runOps, wp_bind, List.forall_mem_cons]
    refine wp_mono_stop (wp_mono (F := F) (wp_run h op m) (fun _ m' hfits => ?_)
      fun _ _ he => he) fun hbad hboth => hbad hboth.1
    exact wp_mono_stop (wp_mono (F := F) (ih m') (fun _ _ hrest => ⟨hfits, hrest⟩)
      fun _ _ he => he) fun hbad hboth => hbad hboth.2

/-- **Drawing on an accepted framebuffer** goes through exactly when each operation has what it
needs: nothing stops and nothing is accessed outside the slice. -/
theorem drawing_exact {len width height pitch : ℕ} {format : PixelFormat} {fb : Framebuffer}
    (hlen : len < 2 ^ 63) (h : new len width height pitch format = some fb) (ops : List Op)
    (m : ByteMemory) :
    (∃ m', fb.runOps ops m = .ok () m') ↔ ∀ op ∈ ops, op.Fits fb := by
  rw [← ok_iff (wp_runOps (F := fun _ _ => True) (accepted_of_new hlen h).1 ops m)]
  exact ⟨fun ⟨m', hok⟩ => ⟨(), m', hok⟩, fun ⟨_, m', hok⟩ => ⟨m', hok⟩⟩

instance (fb : Framebuffer) (x y : ℕ) : Decidable (fb.PutFits x y) :=
  inferInstanceAs (Decidable (_ → _))

instance (fb : Framebuffer) (top count : ℕ) : Decidable (fb.FillFits top count) :=
  inferInstanceAs (Decidable (_ ∧ _))

instance (fb : Framebuffer) (ox oy : ℕ) : Decidable (fb.GlyphFits ox oy) :=
  inferInstanceAs (Decidable (_ ∧ _))

instance (fb : Framebuffer) (rows : ℕ) : Decidable (fb.ScrollFits rows) :=
  inferInstanceAs (Decidable (_ ∧ _))

instance (fb : Framebuffer) : DecidablePred (Op.Fits fb)
  | .putPixel x y _ => inferInstanceAs (Decidable (fb.PutFits x y))
  | .clear _ => inferInstanceAs (Decidable (fb.FillFits 0 fb.height))
  | .fillRows top count _ => inferInstanceAs (Decidable (fb.FillFits top count))
  | .drawGlyph ox oy _ _ _ => inferInstanceAs (Decidable (fb.GlyphFits ox oy))
  | .scrollUp rows _ => inferInstanceAs (Decidable (fb.ScrollFits rows))

/-- Two rows of two pixels, 16 bytes apart, in a slice that ends with the last pixel. -/
def short : Framebuffer := ⟨24, 2, 2, 16, .xrgb8888⟩

theorem drawing_exact_pixels :
    ∃ m', short.runOps [.putPixel 1 1 ⟨255, 0, 0⟩, .clear ⟨0, 0, 0⟩] (fun _ => 0) = .ok () m' :=
  (drawing_exact (by decide) (by decide : new 24 2 2 16 .xrgb8888 = some short) _ _).mpr (by decide)

/-- Scrolling the same framebuffer reaches behind the end of the slice. -/
theorem drawing_short :
    new 24 2 2 16 .xrgb8888 = some short ∧
      ¬ ∃ m', short.runOps [.scrollUp 1 ⟨0, 0, 0⟩] (fun _ => 0) = .ok () m' := by
  have hnew : new 24 2 2 16 .xrgb8888 = some short := by decide
  have hexact := ok_iff (wp_runOps (F := fun _ _ => True)
    (accepted_of_new (by decide) hnew).1 [.scrollUp 1 ⟨0, 0, 0⟩] fun _ => 0)
  refine ⟨hnew, fun hok => ?_⟩
  obtain ⟨m', hok⟩ := hok
  exact absurd (hexact.mp ⟨(), m', hok⟩) (by decide)

end Framebuffer

end StarOS
