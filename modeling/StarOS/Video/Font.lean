import StarOS.Video.Framebuffer

/-!
# The font

Bitmaps of 8 by 8 dots for printable ASCII. Every other byte has the bitmap of a box, so that none
disappears.

## Main definitions

* `Font.glyph`

## Main results

* `Font.dotOn_space` — a space has no dot
-/

namespace StarOS

namespace Font

/-- The bitmap of a byte outside the printable range. -/
def missing : Bitmap := ⟨#[0x00, 0x7E, 0x7E, 0x7E, 0x7E, 0x7E, 0x7E, 0x00], rfl⟩

/-- The bitmaps of printable ASCII, from the space on. -/
def basic : Vector Bitmap 0x5F := ⟨#[
    ⟨#[0x00, 0x00, 0x00, 0x00, 0x00, 0x00, 0x00, 0x00], rfl⟩,
    ⟨#[0x18, 0x3C, 0x3C, 0x18, 0x18, 0x00, 0x18, 0x00], rfl⟩,
    ⟨#[0x36, 0x36, 0x00, 0x00, 0x00, 0x00, 0x00, 0x00], rfl⟩,
    ⟨#[0x36, 0x36, 0x7F, 0x36, 0x7F, 0x36, 0x36, 0x00], rfl⟩,
    ⟨#[0x0C, 0x3E, 0x03, 0x1E, 0x30, 0x1F, 0x0C, 0x00], rfl⟩,
    ⟨#[0x00, 0x63, 0x33, 0x18, 0x0C, 0x66, 0x63, 0x00], rfl⟩,
    ⟨#[0x1C, 0x36, 0x1C, 0x6E, 0x3B, 0x33, 0x6E, 0x00], rfl⟩,
    ⟨#[0x06, 0x06, 0x03, 0x00, 0x00, 0x00, 0x00, 0x00], rfl⟩,
    ⟨#[0x18, 0x0C, 0x06, 0x06, 0x06, 0x0C, 0x18, 0x00], rfl⟩,
    ⟨#[0x06, 0x0C, 0x18, 0x18, 0x18, 0x0C, 0x06, 0x00], rfl⟩,
    ⟨#[0x00, 0x66, 0x3C, 0xFF, 0x3C, 0x66, 0x00, 0x00], rfl⟩,
    ⟨#[0x00, 0x0C, 0x0C, 0x3F, 0x0C, 0x0C, 0x00, 0x00], rfl⟩,
    ⟨#[0x00, 0x00, 0x00, 0x00, 0x00, 0x0E, 0x0C, 0x06], rfl⟩,
    ⟨#[0x00, 0x00, 0x00, 0x3F, 0x00, 0x00, 0x00, 0x00], rfl⟩,
    ⟨#[0x00, 0x00, 0x00, 0x00, 0x00, 0x0C, 0x0C, 0x00], rfl⟩,
    ⟨#[0x60, 0x30, 0x18, 0x0C, 0x06, 0x03, 0x01, 0x00], rfl⟩,
    ⟨#[0x3E, 0x63, 0x73, 0x7B, 0x6F, 0x67, 0x3E, 0x00], rfl⟩,
    ⟨#[0x0C, 0x0E, 0x0C, 0x0C, 0x0C, 0x0C, 0x3F, 0x00], rfl⟩,
    ⟨#[0x1E, 0x33, 0x30, 0x1C, 0x06, 0x33, 0x3F, 0x00], rfl⟩,
    ⟨#[0x1E, 0x33, 0x30, 0x1C, 0x30, 0x33, 0x1E, 0x00], rfl⟩,
    ⟨#[0x38, 0x3C, 0x36, 0x33, 0x7F, 0x30, 0x78, 0x00], rfl⟩,
    ⟨#[0x3F, 0x03, 0x1F, 0x30, 0x30, 0x33, 0x1E, 0x00], rfl⟩,
    ⟨#[0x1C, 0x06, 0x03, 0x1F, 0x33, 0x33, 0x1E, 0x00], rfl⟩,
    ⟨#[0x3F, 0x33, 0x30, 0x18, 0x0C, 0x0C, 0x0C, 0x00], rfl⟩,
    ⟨#[0x1E, 0x33, 0x33, 0x1E, 0x33, 0x33, 0x1E, 0x00], rfl⟩,
    ⟨#[0x1E, 0x33, 0x33, 0x3E, 0x30, 0x18, 0x0E, 0x00], rfl⟩,
    ⟨#[0x00, 0x0C, 0x0C, 0x00, 0x00, 0x0C, 0x0C, 0x00], rfl⟩,
    ⟨#[0x00, 0x0C, 0x0C, 0x00, 0x00, 0x0C, 0x0C, 0x06], rfl⟩,
    ⟨#[0x18, 0x0C, 0x06, 0x03, 0x06, 0x0C, 0x18, 0x00], rfl⟩,
    ⟨#[0x00, 0x00, 0x3F, 0x00, 0x00, 0x3F, 0x00, 0x00], rfl⟩,
    ⟨#[0x06, 0x0C, 0x18, 0x30, 0x18, 0x0C, 0x06, 0x00], rfl⟩,
    ⟨#[0x1E, 0x33, 0x30, 0x18, 0x0C, 0x00, 0x0C, 0x00], rfl⟩,
    ⟨#[0x3E, 0x63, 0x7B, 0x7B, 0x7B, 0x03, 0x1E, 0x00], rfl⟩,
    ⟨#[0x0C, 0x1E, 0x33, 0x33, 0x3F, 0x33, 0x33, 0x00], rfl⟩,
    ⟨#[0x3F, 0x66, 0x66, 0x3E, 0x66, 0x66, 0x3F, 0x00], rfl⟩,
    ⟨#[0x3C, 0x66, 0x03, 0x03, 0x03, 0x66, 0x3C, 0x00], rfl⟩,
    ⟨#[0x1F, 0x36, 0x66, 0x66, 0x66, 0x36, 0x1F, 0x00], rfl⟩,
    ⟨#[0x7F, 0x46, 0x16, 0x1E, 0x16, 0x46, 0x7F, 0x00], rfl⟩,
    ⟨#[0x7F, 0x46, 0x16, 0x1E, 0x16, 0x06, 0x0F, 0x00], rfl⟩,
    ⟨#[0x3C, 0x66, 0x03, 0x03, 0x73, 0x66, 0x7C, 0x00], rfl⟩,
    ⟨#[0x33, 0x33, 0x33, 0x3F, 0x33, 0x33, 0x33, 0x00], rfl⟩,
    ⟨#[0x1E, 0x0C, 0x0C, 0x0C, 0x0C, 0x0C, 0x1E, 0x00], rfl⟩,
    ⟨#[0x78, 0x30, 0x30, 0x30, 0x33, 0x33, 0x1E, 0x00], rfl⟩,
    ⟨#[0x67, 0x66, 0x36, 0x1E, 0x36, 0x66, 0x67, 0x00], rfl⟩,
    ⟨#[0x0F, 0x06, 0x06, 0x06, 0x46, 0x66, 0x7F, 0x00], rfl⟩,
    ⟨#[0x63, 0x77, 0x7F, 0x7F, 0x6B, 0x63, 0x63, 0x00], rfl⟩,
    ⟨#[0x63, 0x67, 0x6F, 0x7B, 0x73, 0x63, 0x63, 0x00], rfl⟩,
    ⟨#[0x1C, 0x36, 0x63, 0x63, 0x63, 0x36, 0x1C, 0x00], rfl⟩,
    ⟨#[0x3F, 0x66, 0x66, 0x3E, 0x06, 0x06, 0x0F, 0x00], rfl⟩,
    ⟨#[0x1E, 0x33, 0x33, 0x33, 0x3B, 0x1E, 0x38, 0x00], rfl⟩,
    ⟨#[0x3F, 0x66, 0x66, 0x3E, 0x36, 0x66, 0x67, 0x00], rfl⟩,
    ⟨#[0x1E, 0x33, 0x07, 0x0E, 0x38, 0x33, 0x1E, 0x00], rfl⟩,
    ⟨#[0x3F, 0x2D, 0x0C, 0x0C, 0x0C, 0x0C, 0x1E, 0x00], rfl⟩,
    ⟨#[0x33, 0x33, 0x33, 0x33, 0x33, 0x33, 0x3F, 0x00], rfl⟩,
    ⟨#[0x33, 0x33, 0x33, 0x33, 0x33, 0x1E, 0x0C, 0x00], rfl⟩,
    ⟨#[0x63, 0x63, 0x63, 0x6B, 0x7F, 0x77, 0x63, 0x00], rfl⟩,
    ⟨#[0x63, 0x63, 0x36, 0x1C, 0x1C, 0x36, 0x63, 0x00], rfl⟩,
    ⟨#[0x33, 0x33, 0x33, 0x1E, 0x0C, 0x0C, 0x1E, 0x00], rfl⟩,
    ⟨#[0x7F, 0x63, 0x31, 0x18, 0x4C, 0x66, 0x7F, 0x00], rfl⟩,
    ⟨#[0x1E, 0x06, 0x06, 0x06, 0x06, 0x06, 0x1E, 0x00], rfl⟩,
    ⟨#[0x03, 0x06, 0x0C, 0x18, 0x30, 0x60, 0x40, 0x00], rfl⟩,
    ⟨#[0x1E, 0x18, 0x18, 0x18, 0x18, 0x18, 0x1E, 0x00], rfl⟩,
    ⟨#[0x08, 0x1C, 0x36, 0x63, 0x00, 0x00, 0x00, 0x00], rfl⟩,
    ⟨#[0x00, 0x00, 0x00, 0x00, 0x00, 0x00, 0x00, 0xFF], rfl⟩,
    ⟨#[0x0C, 0x0C, 0x18, 0x00, 0x00, 0x00, 0x00, 0x00], rfl⟩,
    ⟨#[0x00, 0x00, 0x1E, 0x30, 0x3E, 0x33, 0x6E, 0x00], rfl⟩,
    ⟨#[0x07, 0x06, 0x06, 0x3E, 0x66, 0x66, 0x3B, 0x00], rfl⟩,
    ⟨#[0x00, 0x00, 0x1E, 0x33, 0x03, 0x33, 0x1E, 0x00], rfl⟩,
    ⟨#[0x38, 0x30, 0x30, 0x3E, 0x33, 0x33, 0x6E, 0x00], rfl⟩,
    ⟨#[0x00, 0x00, 0x1E, 0x33, 0x3F, 0x03, 0x1E, 0x00], rfl⟩,
    ⟨#[0x1C, 0x36, 0x06, 0x0F, 0x06, 0x06, 0x0F, 0x00], rfl⟩,
    ⟨#[0x00, 0x00, 0x6E, 0x33, 0x33, 0x3E, 0x30, 0x1F], rfl⟩,
    ⟨#[0x07, 0x06, 0x36, 0x6E, 0x66, 0x66, 0x67, 0x00], rfl⟩,
    ⟨#[0x0C, 0x00, 0x0E, 0x0C, 0x0C, 0x0C, 0x1E, 0x00], rfl⟩,
    ⟨#[0x30, 0x00, 0x30, 0x30, 0x30, 0x33, 0x33, 0x1E], rfl⟩,
    ⟨#[0x07, 0x06, 0x66, 0x36, 0x1E, 0x36, 0x67, 0x00], rfl⟩,
    ⟨#[0x0E, 0x0C, 0x0C, 0x0C, 0x0C, 0x0C, 0x1E, 0x00], rfl⟩,
    ⟨#[0x00, 0x00, 0x33, 0x7F, 0x7F, 0x6B, 0x63, 0x00], rfl⟩,
    ⟨#[0x00, 0x00, 0x1F, 0x33, 0x33, 0x33, 0x33, 0x00], rfl⟩,
    ⟨#[0x00, 0x00, 0x1E, 0x33, 0x33, 0x33, 0x1E, 0x00], rfl⟩,
    ⟨#[0x00, 0x00, 0x3B, 0x66, 0x66, 0x3E, 0x06, 0x0F], rfl⟩,
    ⟨#[0x00, 0x00, 0x6E, 0x33, 0x33, 0x3E, 0x30, 0x78], rfl⟩,
    ⟨#[0x00, 0x00, 0x3B, 0x6E, 0x66, 0x06, 0x0F, 0x00], rfl⟩,
    ⟨#[0x00, 0x00, 0x3E, 0x03, 0x1E, 0x30, 0x1F, 0x00], rfl⟩,
    ⟨#[0x08, 0x0C, 0x3E, 0x0C, 0x0C, 0x2C, 0x18, 0x00], rfl⟩,
    ⟨#[0x00, 0x00, 0x33, 0x33, 0x33, 0x33, 0x6E, 0x00], rfl⟩,
    ⟨#[0x00, 0x00, 0x33, 0x33, 0x33, 0x1E, 0x0C, 0x00], rfl⟩,
    ⟨#[0x00, 0x00, 0x63, 0x6B, 0x7F, 0x7F, 0x36, 0x00], rfl⟩,
    ⟨#[0x00, 0x00, 0x63, 0x36, 0x1C, 0x36, 0x63, 0x00], rfl⟩,
    ⟨#[0x00, 0x00, 0x33, 0x33, 0x33, 0x3E, 0x30, 0x1F], rfl⟩,
    ⟨#[0x00, 0x00, 0x3F, 0x19, 0x0C, 0x26, 0x3F, 0x00], rfl⟩,
    ⟨#[0x38, 0x0C, 0x0C, 0x07, 0x0C, 0x0C, 0x38, 0x00], rfl⟩,
    ⟨#[0x18, 0x18, 0x18, 0x00, 0x18, 0x18, 0x18, 0x00], rfl⟩,
    ⟨#[0x07, 0x0C, 0x0C, 0x38, 0x0C, 0x0C, 0x07, 0x00], rfl⟩,
    ⟨#[0x6E, 0x3B, 0x00, 0x00, 0x00, 0x00, 0x00, 0x00], rfl⟩], rfl⟩

/-- The bitmap of a byte. -/
def glyph (byte : BitVec 8) : Bitmap :=
  if h : 0x20 ≤ byte.toNat ∧ byte.toNat ≤ 0x7E then basic[byte.toNat - 0x20] else missing

/-- The space. -/
def space : BitVec 8 := 0x20

theorem toList_space : (glyph space).toList = List.replicate 8 0 := by decide

theorem dotOn_space (row col : ℕ) : dotOn (glyph space) row col = false := by
  have hrow : (List.replicate 8 (0 : BitVec 8)).getD row 0 = 0 := by
    rw [List.getD_eq_getElem?_getD, List.getElem?_replicate]
    split <;> rfl
  rw [dotOn, toList_space, hrow]
  simp

end Font

end StarOS
