import StarOS.Video.Console

/-!
# What the console shows

A terminal is a grid of characters and a cursor. The console is one: in each of its cells stands the
glyph of the character that the grid holds there, and the strips beside and below the cells have the
background.

## Main definitions

* `Grid`, `Grid.newline`, `Grid.put`, `Grid.back` — a terminal, over any characters
* `Grid.write` — what a byte does to it
* `Console.Refines`

## Main results

* `Console.Refines.wp_writeByte` — one byte
* `Console.writeStr_refines` — any string without tabs
-/

namespace StarOS

/-- A grid of characters, with a cursor that can stand behind the last column. -/
structure Grid (α : Type) where
  cols : ℕ
  rows : ℕ
  col : ℕ
  row : ℕ
  cell : ℕ → ℕ → α

namespace Grid

variable {α : Type} (blank : α)

/-- A grid with nothing on it. -/
def empty (cols rows : ℕ) : Grid α := ⟨cols, rows, 0, 0, fun _ _ => blank⟩

/-- Go to the next line. Below the last one there is none: the lines move up, and the top one is
lost. -/
def newline (g : Grid α) : Grid α :=
  if g.row + 1 < g.rows then { g with col := 0, row := g.row + 1 }
  else
    { g with
      col := 0
      cell := fun x y => if y + 1 < g.rows then g.cell x (y + 1) else blank }

/-- The grid with this character in a cell. -/
def setCell (g : Grid α) (col row : ℕ) (a : α) : Grid α :=
  { g with cell := fun x y => if x = col ∧ y = row then a else g.cell x y }

/-- The grid with the cursor on a column. -/
def wrap (g : Grid α) : Grid α := if g.cols ≤ g.col then g.newline blank else g

/-- Put a character at the cursor. -/
def put (g : Grid α) (a : α) : Grid α :=
  let g := g.wrap blank
  { g.setCell g.col g.row a with col := g.col + 1 }

/-- Step back and erase, but not past the start of the line. -/
def back (g : Grid α) : Grid α :=
  if 0 < g.col then { g.setCell (g.col - 1) g.row blank with col := g.col - 1 } else g

/-- What a byte other than a tab does. -/
def write (g : Grid (BitVec 8)) (byte : BitVec 8) : Grid (BitVec 8) :=
  if byte = 0x0A then g.newline Font.space
  else if byte = 0x0D then { g with col := 0 }
  else if byte = 0x08 then g.back Font.space
  else g.put Font.space byte

/-- What a string without tabs does. -/
def writeStr (g : Grid (BitVec 8)) (bytes : List (BitVec 8)) : Grid (BitVec 8) :=
  bytes.foldl write g

end Grid

namespace Console

open Checked Framebuffer

variable {fb : Framebuffer} {fg bg : Rgb} {c c' : Console} {g : Grid (BitVec 8)}
  {m : ByteMemory} {F : Empty → Console → Prop} {byte : BitVec 8}

/-- The pixels of a grid: in each cell its glyph, and outside the background. -/
def gridPixel (fb : Framebuffer) (fg bg : Rgb) (g : Grid (BitVec 8)) (x y : ℕ) :
    List (BitVec 8) :=
  if x / 8 < fb.cols ∧ y / 8 < fb.rows then
    fb.dot (if dotOn (Font.glyph (g.cell (x / 8) (y / 8))) (y % 8) (x % 8) then fg else bg)
  else fb.dot bg

/-- The console is at the cursor of the grid and shows what it holds. -/
structure Refines (fb : Framebuffer) (fg bg : Rgb) (c : Console) (g : Grid (BitVec 8)) : Prop where
  sound : c.Sound fb
  fg_eq : c.fg = fg
  bg_eq : c.bg = bg
  cols_eq : g.cols = fb.cols
  rows_eq : g.rows = fb.rows
  col_eq : g.col = c.col
  row_eq : g.row = c.row
  shows : fb.Shows c.mem (gridPixel fb fg bg g)

/-- A cell that is blank has the background. -/
theorem gridPixel_of_space {x y : ℕ} (h : g.cell (x / 8) (y / 8) = Font.space) :
    gridPixel fb fg bg g x y = fb.dot bg := by
  rw [gridPixel, h, Font.dotOn_space]
  exact ite_self _

theorem inGlyph_iff {col row x y : ℕ} :
    InGlyph (col * 8) (row * 8) x y ↔ x / 8 = col ∧ y / 8 = row := by
  rw [InGlyph]
  omega

/-- **Moving the image up** moves the lines of the grid: what is moved into a cell is the cell
below, and below the last one there is the background. -/
theorem Refines.newline (h : Refines fb fg bg c g) (hm : fb.Shows m (c.broken fb)) :
    Refines fb fg bg (c.moved m (c.cursor.newline fb)) (g.newline Font.space) := by
  have hrowlt : c.row < max fb.rows 1 := h.sound.inGrid.row_lt
  have hheight : fb.rows * 8 ≤ fb.height := Nat.div_mul_le_self fb.height 8
  have hnext := h.sound.moved m h.sound.inGrid.newline
  rw [Grid.newline, h.rows_eq, h.row_eq]
  by_cases hlast : fb.rows ≤ c.row + 1
  · have hcur : c.cursor.newline fb = ⟨0, c.row⟩ := if_pos hlast
    rw [hcur] at hnext ⊢
    rw [if_neg (by omega)]
    refine ⟨hnext, h.fg_eq, h.bg_eq, h.cols_eq, rfl, rfl, rfl, fun x hx y hy => ?_⟩
    refine (hm x hx y hy).trans ?_
    rw [broken, if_pos hlast]
    by_cases hbelow : y / 8 + 1 < fb.rows
    · have hmod : (y + 8) % 8 = y % 8 := Nat.add_mod_right y 8
      have hdiv : (y + 8) / 8 = y / 8 + 1 := Nat.add_div_right y (by decide)
      rw [if_pos (by omega), h.shows x hx (y + 8) (by omega), gridPixel, gridPixel, hmod, hdiv]
      refine if_congr (and_congr_right fun _ => by omega) ?_ rfl
      simp only [if_pos hbelow]
    · rw [gridPixel_of_space (if_neg hbelow), h.bg_eq]
      split
      · next hin =>
        rw [h.shows x hx (y + 8) hin, gridPixel, if_neg (by omega)]
      · rfl
  · have hcur : c.cursor.newline fb = ⟨0, c.row + 1⟩ := if_neg hlast
    rw [hcur] at hnext ⊢
    rw [if_pos (by omega)]
    refine ⟨hnext, h.fg_eq, h.bg_eq, h.cols_eq, rfl, rfl, rfl, fun x hx y hy => ?_⟩
    refine (hm x hx y hy).trans ?_
    rw [broken, if_neg hlast]
    exact h.shows x hx y hy

theorem Refines.wrap (h : Refines fb fg bg c g) (hwrapped : Wrapped fb c c') :
    Refines fb fg bg c' (g.wrap Font.space) := by
  obtain ⟨m, hm, rfl⟩ := hwrapped
  rw [Grid.wrap, h.cols_eq, h.col_eq]
  by_cases hfull : fb.cols ≤ c.col
  · have hcur : c.cursor.wrap fb = c.cursor.newline fb := if_pos hfull
    rw [if_pos hfull] at hm ⊢
    rw [hcur]
    exact h.newline hm
  · have hcur : c.cursor.wrap fb = c.cursor := if_neg hfull
    rw [if_neg hfull] at hm ⊢
    rw [hcur]
    exact ⟨h.sound.moved m h.sound.inGrid, h.fg_eq, h.bg_eq, h.cols_eq, h.rows_eq, h.col_eq,
      h.row_eq, fun x hx y hy => (hm x hx y hy).trans (h.shows x hx y hy)⟩

/-- **Drawing a cell** changes this cell of the grid. -/
theorem Refines.shows_drawn (h : Refines fb fg bg c g) (cur : Cursor) (hcol : cur.col < fb.cols)
    (hrow : cur.row < fb.rows) (hm : fb.Shows m (c.drawn fb cur byte)) :
    fb.Shows m (gridPixel fb fg bg (g.setCell cur.col cur.row byte)) := by
  intro x hx y hy
  rw [hm x hx y hy, drawn, gridPixel, Grid.setCell]
  by_cases hin : x / 8 = cur.col ∧ y / 8 = cur.row
  · have hsubx : x - cur.col * 8 = x % 8 := by omega
    have hsuby : y - cur.row * 8 = y % 8 := by omega
    simp only [if_pos (inGlyph_iff.mpr hin), if_pos hin]
    rw [if_pos (by omega), glyphPixel, hsubx, hsuby, h.fg_eq, h.bg_eq]
  · simp only [if_neg (mt inGlyph_iff.mp hin), if_neg hin]
    exact h.shows x hx y hy

/-- **One byte** that is not a tab. -/
theorem Refines.wp_writeByte (h : Refines fb fg bg c g) (hcols : 0 < fb.cols) (hrows : 0 < fb.rows)
    (hwhole : fb.height * fb.pitch ≤ fb.len) (fuel : ℕ) (htab : byte ≠ 0x09) :
    wp False (writeByte fb fuel byte) (fun _ c' => Refines fb fg bg c' (g.write byte)) F c := by
  have hbreak : ∀ cur : Cursor, cur.BreakFits fb := fun _ _ _ => hwhole
  rw [writeByte, wp_bind, wp_get, Grid.write]
  split
  · exact wp_newline h.sound (fun hbad => hbad (hbreak _)) fun _ m hm => h.newline hm
  split
  · rw [wp_set]
    have hstart : (⟨0, c.row⟩ : Cursor).InGrid fb :=
      ⟨Nat.zero_le _, h.sound.inGrid.row_lt, fun _ => rfl⟩
    exact ⟨h.sound.moved c.mem hstart, h.fg_eq, h.bg_eq, h.cols_eq, h.rows_eq, rfl, h.row_eq,
      h.shows⟩
  split
  · rw [Grid.back, h.col_eq, h.row_eq, wp_ite, wp_pure]
    refine ⟨fun hpos => ?_, fun hzero => by rwa [if_neg hzero]⟩
    have hle : c.col ≤ fb.cols := h.sound.inGrid.col_le
    have hrowlt : c.row < max fb.rows 1 := h.sound.inGrid.row_lt
    have hrow : c.row < fb.rows := by omega
    have hback : (⟨c.col - 1, c.row⟩ : Cursor).InGrid fb :=
      ⟨(Nat.sub_le ..).trans hle, hrowlt, fun h0 => absurd h0 hrows.ne'⟩
    have hstep : Refines fb fg bg (c.moved c.mem ⟨c.col - 1, c.row⟩) { g with col := c.col - 1 } :=
      ⟨h.sound.moved c.mem hback, h.fg_eq, h.bg_eq, h.cols_eq, h.rows_eq, rfl, h.row_eq, h.shows⟩
    have hcol : c.col - 1 < fb.cols := Nat.sub_one_lt_of_le hpos hle
    rw [if_pos hpos, wp_bind, wp_set]
    refine wp_drawCell hstep.sound ⟨c.col - 1, c.row⟩ hcol hrow fun m hm => ?_
    exact ⟨h.sound.moved m hback, h.fg_eq, h.bg_eq, h.cols_eq, h.rows_eq, rfl, h.row_eq,
      hstep.shows_drawn ⟨c.col - 1, c.row⟩ hcol hrow hm⟩
  · refine wp_putGlyph h.sound hcols hrows (fun hbad => hbad fun _ _ _ => hbreak _)
      fun _ c' hsound' hwrapped m hm => ?_
    have hwrap := h.wrap hwrapped
    have hcol' : c'.cursor.col < fb.cols := by
      obtain ⟨_, -, rfl⟩ := hwrapped
      exact Cursor.col_wrap_lt hcols
    have hrow' : c'.cursor.row < fb.rows := by
      have hlt := hsound'.inGrid.row_lt
      omega
    have hshows := hwrap.shows_drawn c'.cursor hcol' hrow' hm
    have hcursor : c'.cursor = c.cursor.wrap fb := by
      obtain ⟨_, -, rfl⟩ := hwrapped
      rfl
    have hput : c.cursor.put fb = ⟨c'.col + 1, c'.row⟩ := by
      rw [Cursor.put, if_neg (by omega), ← hcursor]
      rfl
    refine ⟨h.sound.moved m h.sound.inGrid.put, h.fg_eq, h.bg_eq, hwrap.cols_eq, hwrap.rows_eq,
      ?_, ?_, ?_⟩
    · rw [hput]
      exact congrArg (· + 1) hwrap.col_eq
    · rw [hput]
      exact hwrap.row_eq
    · rw [Grid.put, hwrap.col_eq, hwrap.row_eq]
      exact hshows

/-- **Any string** without tabs. -/
theorem Refines.wp_writeStr (h : Refines fb fg bg c g) (hcols : 0 < fb.cols) (hrows : 0 < fb.rows)
    (hwhole : fb.height * fb.pitch ≤ fb.len) (fuel : ℕ) {bytes : List (BitVec 8)}
    (htab : 0x09 ∉ bytes) :
    wp False (writeStr fb fuel bytes) (fun _ c' => Refines fb fg bg c' (g.writeStr bytes)) F c := by
  induction bytes generalizing c g with
  | nil =>
    rw [writeStr, wp_pure]
    exact h
  | cons byte bytes ih =>
    obtain ⟨hbyte, hbytes⟩ := not_or.mp (mt List.mem_cons.mpr htab)
    rw [writeStr, wp_bind]
    exact wp_mono (F := F) (h.wp_writeByte hcols hrows hwhole fuel (Ne.symm hbyte))
      (fun _ c' hc' => ih hc' hbytes) fun _ _ he => he

/-- A console that was made shows an empty grid. -/
theorem refines_new (hfb : fb.Accepted) {m' : ByteMemory} (hnew : Console.new fb fg bg m = .ok c m') :
    Refines fb fg bg c (.empty Font.space fb.cols fb.rows) := by
  refine (wp_of_ok hnew).mp (wp_new (T := True) (F := fun _ _ => True)
    (Q := fun c _ => Refines fb fg bg c (.empty Font.space fb.cols fb.rows)) hfb m fg bg
    (fun _ => trivial) fun m' hshows hsound => ?_)
  refine ⟨hsound, rfl, rfl, rfl, rfl, rfl, rfl, fun x hx y hy => ?_⟩
  rw [hshows x hx y hy, gridPixel_of_space rfl]

/-- **The console is a terminal.** On a framebuffer with a row and a column of cells, whose slice has
all of its rows, any string without tabs is written to the end and every pixel is then what the grid
says: a dot of the glyph of its cell, or the background. -/
theorem writeStr_refines {len width height pitch : ℕ} {format : PixelFormat} {fb : Framebuffer}
    {m m' : ByteMemory} {c : Console} {fg bg : Rgb} {bytes : List (BitVec 8)} (hlen : len < 2 ^ 63)
    (hfb : Framebuffer.new len width height pitch format = some fb) (hcols : 8 ≤ width)
    (hrows : 8 ≤ height) (hwhole : height * pitch ≤ len)
    (hnew : Console.new fb fg bg m = .ok c m') (htab : 0x09 ∉ bytes) (fuel : ℕ) :
    ∃ c', writeStr fb fuel bytes c = .ok () c' ∧ ∀ x < width, ∀ y < height,
      fb.pixel c'.mem x y = gridPixel fb fg bg
        ((Grid.empty Font.space (width / 8) (height / 8)).writeStr bytes) x y := by
  obtain ⟨hacc, rfl⟩ := accepted_of_new hlen hfb
  have hpos : 0 < width / 8 ∧ 0 < height / 8 := ⟨by omega, by omega⟩
  have hwp := (refines_new hacc hnew).wp_writeStr (F := fun _ _ => True) hpos.1 hpos.2 hwhole fuel
    htab
  obtain ⟨_, c', hwrite, hc'⟩ | ⟨e, _⟩ := exists_of_wp hwp
  · exact ⟨c', hwrite, hc'.shows⟩
  · exact e.elim

/-- Two lines on the console with one row. -/
theorem writeStr_refines_narrow : ∃ c m', Console.new narrow ⟨255, 255, 255⟩ ⟨0, 0, 0⟩
      (fun _ => 0) = .ok c m' ∧
    ∃ c', writeStr narrow 0 [0x61, 0x0A, 0x62] c = .ok () c' ∧ ∀ x < 80, ∀ y < 8,
      narrow.pixel c'.mem x y = gridPixel narrow ⟨255, 255, 255⟩ ⟨0, 0, 0⟩
        ((Grid.empty Font.space (80 / 8) (8 / 8)).writeStr [0x61, 0x0A, 0x62]) x y := by
  have hfb : Framebuffer.new 2560 80 8 320 .xrgb8888 = some narrow := by decide
  have hwp := wp_new (T := False) (F := fun _ _ => True) (Q := fun _ _ => True)
    (accepted_of_new (by decide) hfb).1 (fun _ => 0) ⟨255, 255, 255⟩ ⟨0, 0, 0⟩
    (fun hbad => hbad (by decide)) fun _ _ _ => trivial
  obtain ⟨c, m', hnew, -⟩ | ⟨e, _⟩ := exists_of_wp hwp
  · exact ⟨c, m', hnew, writeStr_refines (by decide) hfb (by decide) (by decide) (by decide) hnew
      (by decide) 0⟩
  · exact e.elim

end Console

end StarOS
