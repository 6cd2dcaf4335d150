import StarOS.Video.Font

/-!
# The framebuffer console

A grid of character cells over a framebuffer, with a cursor. A line wraps when a character is written
past its end, not when it is full, and the image moves up when a line is begun below the last one.

## Main definitions

* `Console`, `Console.new`, `Console.writeByte`, `Console.writeStr`
* `Console.Reached` — a console that was made and then written to
* `Cursor.write`, `Cursor.Fits` — where a byte takes the cursor, and what it needs

## Main results

* `Console.wp_writeByte` — one byte
* `Console.writeStr_exact` — which strings are written to their end
-/

namespace StarOS

open Checked Framebuffer

/-- How many cells fit beside and below each other. -/
def Framebuffer.cols (fb : Framebuffer) : ℕ := fb.width / glyphWidth
def Framebuffer.rows (fb : Framebuffer) : ℕ := fb.height / glyphHeight

/-- A console over a framebuffer, with the bytes of the slice. How many bytes were written is left
out. -/
structure Console where
  mem : ByteMemory
  cols : ℕ
  rows : ℕ
  col : ℕ
  row : ℕ
  fg : Rgb
  bg : Rgb

namespace Console

/-- Draw on the framebuffer of the console. -/
def draw (x : Checked ByteMemory Empty Unit) : Checked Console Empty Unit := fun c =>
  match x c.mem with
  | .ok _ m => .ok () { c with mem := m }
  | .error e m => .error e { c with mem := m }

/-- Build a console over `fb`: paint the background and home the cursor. -/
def new (fb : Framebuffer) (fg bg : Rgb) : Checked ByteMemory Empty Console := do
  fb.clear bg
  let m ← get
  return ⟨m, fb.cols, fb.rows, 0, 0, fg, bg⟩

/-- Set the text colour used from now on. -/
def setFg (c : Console) (fg : Rgb) : Console := { c with fg }

variable (fb : Framebuffer)

def newline : Checked Console Empty Unit := do
  modify ({ · with col := 0 })
  let c ← get
  let below ← add 64 c.row 1
  if c.rows ≤ below then draw (fb.scrollUp glyphHeight c.bg)
  else set { c with row := below }

def drawCell (col row : ℕ) (byte : BitVec 8) : Checked Console Empty Unit := do
  let c ← get
  let ox ← mul 64 col glyphWidth
  let oy ← mul 64 row glyphHeight
  draw (fb.drawGlyph ox oy (Font.glyph byte) c.fg c.bg)

def putGlyph (byte : BitVec 8) : Checked Console Empty Unit := do
  let c ← get
  if c.cols = 0 ∨ c.rows = 0 then return ()
  if c.cols ≤ c.col then newline fb
  let c ← get
  drawCell fb c.col c.row byte
  let c ← get
  let col ← add 64 c.col 1
  set { c with col }

/-- One turn of the loop that expands a tab. -/
def tabTurn (next : ℕ) : Checked Console Empty (Unit ⊕ Unit) := do
  let c ← get
  if c.col < next then
    putGlyph fb Font.space
    let c ← get
    return if c.col = 0 then .inr () else .inl ()
  else return .inr ()

/-- Write one byte, in at most `fuel` turns of the loop for a tab. -/
def writeByte (fuel : ℕ) (byte : BitVec 8) : Checked Console Empty Unit := do
  let c ← get
  if byte = 0x0A then newline fb
  else if byte = 0x0D then set { c with col := 0 }
  else if byte = 0x09 then
    let next ← add 64 (c.col / 8 * 8) 8
    loop (fun _ => tabTurn fb next) fuel ()
  else if byte = 0x08 then
    if 0 < c.col then
      set { c with col := c.col - 1 }
      drawCell fb (c.col - 1) c.row Font.space
    else return ()
  else putGlyph fb byte

/-- Write a whole string. -/
def writeStr (fuel : ℕ) : List (BitVec 8) → Checked Console Empty Unit
  | [] => return ()
  | byte :: bytes => do
    writeByte fb fuel byte
    writeStr fuel bytes

end Console

/-! ### The cursor -/

/-- A cursor, in cells. -/
structure Cursor where
  col : ℕ
  row : ℕ
  deriving DecidableEq

namespace Cursor

variable (fb : Framebuffer)

/-- The cursor on the next line. -/
def newline (cur : Cursor) : Cursor :=
  if fb.rows ≤ cur.row + 1 then ⟨0, cur.row⟩ else ⟨0, cur.row + 1⟩

/-- The cursor where the next character goes. -/
def wrap (cur : Cursor) : Cursor := if fb.cols ≤ cur.col then cur.newline fb else cur

/-- The cursor after a character. -/
def put (cur : Cursor) : Cursor :=
  if fb.cols = 0 ∨ fb.rows = 0 then cur else ⟨(cur.wrap fb).col + 1, (cur.wrap fb).row⟩

/-- The cursor after a tab that ends. -/
def tab (cur : Cursor) : Cursor :=
  if fb.cols = 0 ∨ fb.rows = 0 then cur else ⟨cur.col / 8 * 8 + 8, cur.row⟩

/-- The cursor after a byte. -/
def write (cur : Cursor) (byte : BitVec 8) : Cursor :=
  if byte = 0x0A then cur.newline fb
  else if byte = 0x0D then ⟨0, cur.row⟩
  else if byte = 0x09 then cur.tab fb
  else if byte = 0x08 then ⟨cur.col - 1, cur.row⟩
  else cur.put fb

/-- Going on to the next line needs, on the last one, an image whose rows are whole. -/
def BreakFits (cur : Cursor) : Prop :=
  fb.rows ≤ cur.row + 1 → 8 < fb.height → fb.height * fb.pitch ≤ fb.len

/-- A character needs that of a line that is full. -/
def PutFits (cur : Cursor) : Prop :=
  0 < fb.cols → 0 < fb.rows → fb.cols ≤ cur.col → cur.BreakFits fb

/-- A tab needs its stop to be on the line. -/
def TabFits (cur : Cursor) : Prop :=
  0 < fb.cols → 0 < fb.rows → cur.col / 8 * 8 + 8 ≤ fb.cols

/-- What a byte needs. -/
def Fits (cur : Cursor) (byte : BitVec 8) : Prop :=
  if byte = 0x0A then cur.BreakFits fb
  else if byte = 0x0D then True
  else if byte = 0x09 then cur.TabFits fb
  else if byte = 0x08 then True
  else cur.PutFits fb

/-- What a string needs. -/
def StrFits : Cursor → List (BitVec 8) → Prop
  | _, [] => True
  | cur, byte :: bytes => cur.Fits fb byte ∧ StrFits (cur.write fb byte) bytes

/-- A cursor that is on the grid, or at the end of a line. -/
structure InGrid (cur : Cursor) : Prop where
  col_le : cur.col ≤ fb.cols
  row_lt : cur.row < max fb.rows 1
  /-- Without a line there is no column to go to. -/
  col_eq : fb.rows = 0 → cur.col = 0

instance (cur : Cursor) : Decidable (cur.BreakFits fb) := inferInstanceAs (Decidable (_ → _))
instance (cur : Cursor) : Decidable (cur.PutFits fb) := inferInstanceAs (Decidable (_ → _))
instance (cur : Cursor) : Decidable (cur.TabFits fb) := inferInstanceAs (Decidable (_ → _))
instance (cur : Cursor) (byte : BitVec 8) : Decidable (cur.Fits fb byte) :=
  inferInstanceAs (Decidable (ite ..))

instance decidableStrFits : (cur : Cursor) → (bytes : List (BitVec 8)) →
    Decidable (cur.StrFits fb bytes)
  | _, [] => inferInstanceAs (Decidable True)
  | cur, byte :: bytes =>
    haveI := decidableStrFits (cur.write fb byte) bytes
    inferInstanceAs (Decidable (_ ∧ _))

variable {fb} {cur : Cursor}

theorem InGrid.newline (h : cur.InGrid fb) : (cur.newline fb).InGrid fb := by
  have hrow := h.row_lt
  rw [Cursor.newline]
  split
  · exact ⟨Nat.zero_le _, hrow, fun _ => rfl⟩
  · exact ⟨Nat.zero_le _, by show cur.row + 1 < _; omega, fun _ => rfl⟩

theorem InGrid.wrap (h : cur.InGrid fb) : (cur.wrap fb).InGrid fb := by
  rw [Cursor.wrap]
  split
  · exact h.newline
  · exact h

theorem col_newline : (cur.newline fb).col = 0 := by
  rw [newline]
  split <;> rfl

/-- A character goes on the line. -/
theorem col_wrap_lt (hcols : 0 < fb.cols) : (cur.wrap fb).col < fb.cols := by
  rw [wrap]
  split
  · rw [col_newline]
    exact hcols
  · next hlt => exact Nat.not_le.mp hlt

theorem InGrid.put (h : cur.InGrid fb) : (cur.put fb).InGrid fb := by
  rw [Cursor.put]
  split
  · exact h
  · next hcells =>
    obtain ⟨hcols, hrows⟩ := not_or.mp hcells
    exact ⟨col_wrap_lt (Nat.pos_of_ne_zero hcols), h.wrap.row_lt, fun h0 => absurd h0 hrows⟩

end Cursor

/-! ### What becomes of the console -/

namespace Console

variable {fb : Framebuffer} {c : Console} {T : Prop} {Q : Unit → Console → Prop}
  {F : Empty → Console → Prop} {byte : BitVec 8} {fg bg : Rgb} {m : ByteMemory}

/-- The cursor of the console. -/
def cursor (c : Console) : Cursor := ⟨c.col, c.row⟩

/-- The console with this image, and its cursor here. -/
def moved (c : Console) (m : ByteMemory) (cur : Cursor) : Console :=
  { c with mem := m, col := cur.col, row := cur.row }

/-- A console over an accepted framebuffer that could be painted, with the cursor on its grid. -/
structure Sound (fb : Framebuffer) (c : Console) : Prop where
  accepted : fb.Accepted
  clears : fb.FillFits 0 fb.height
  cols_eq : c.cols = fb.cols
  rows_eq : c.rows = fb.rows
  inGrid : c.cursor.InGrid fb

theorem Sound.moved (h : c.Sound fb) (m : ByteMemory) {cur : Cursor} (hcur : cur.InGrid fb) :
    (c.moved m cur).Sound fb :=
  ⟨h.accepted, h.clears, h.cols_eq, h.rows_eq, hcur⟩

/-- Where there is a cell there is a pixel, so that colours can be stored. -/
theorem Sound.paints (h : c.Sound fb) (hcols : 0 < fb.cols) : fb.Paints := by
  have hwidth : 0 < fb.width := Nat.pos_of_div_pos hcols
  exact ⟨h.clears.1, h.clears.2.2 ⟨h.accepted.height_pos, h.accepted.height_pos⟩ hwidth⟩

/-- The columns of a framebuffer are fewer than its bytes. -/
theorem Sound.cols_lt (h : c.Sound fb) : fb.cols * 8 < 2 ^ 63 := by
  have hcols : fb.cols * 8 ≤ fb.width := Nat.div_mul_le_self fb.width 8
  have hwidth : fb.width ≤ fb.width * fb.format.bpp := Nat.le_mul_of_pos_right _ h.accepted.bpp_pos
  have hneed := h.accepted.need_le
  have hlen := h.accepted.fits
  omega

theorem Sound.rows_lt (h : c.Sound fb) : fb.rows * 8 < 2 ^ 64 := by
  have hrows : fb.rows * 8 ≤ fb.height := Nat.div_mul_le_self fb.height 8
  have hheight := h.clears.2.1
  omega

theorem wp_draw {x : Checked ByteMemory Empty Unit} :
    wp T (draw x) Q F c ↔
      wp T x (fun u m => Q u { c with mem := m }) (fun e m => F e { c with mem := m }) c.mem := by
  simp only [wp, draw]
  cases x c.mem with
  | ok _ _ => rfl
  | error e _ =>
    cases e with
    | fail e => exact e.elim
    | _ => rfl

/-- The pixels after the cursor went to the next line. -/
def broken (fb : Framebuffer) (c : Console) (x y : ℕ) : List (BitVec 8) :=
  if fb.rows ≤ c.row + 1 then
    if y + 8 < fb.height then fb.pixel c.mem x (y + 8) else fb.dot c.bg
  else fb.pixel c.mem x y

/-- **Going to the next line.** -/
theorem wp_newline (h : c.Sound fb) (hT : ¬ c.cursor.BreakFits fb → T)
    (hQ : c.cursor.BreakFits fb → ∀ m, fb.Shows m (c.broken fb) →
      Q () (c.moved m (c.cursor.newline fb))) :
    wp T (newline fb) Q F c := by
  have hrow := h.inGrid.row_lt
  have hrows := h.rows_lt
  have hlt : c.row + 1 < 2 ^ 64 := by
    have : c.row < max fb.rows 1 := hrow
    omega
  simp only [newline, wp_bind, wp_modify, wp_get, wp_add_or]
  refine ⟨fun _ => ?_, fun hbad => absurd hlt hbad⟩
  rw [wp_ite]
  refine ⟨fun hlast' => ?_, fun hbelow' => ?_⟩
  · have hlast : fb.rows ≤ c.row + 1 := h.rows_eq ▸ hlast'
    have hscroll : fb.ScrollFits 8 ↔ c.cursor.BreakFits fb :=
      ⟨fun hfits _ hheight => hfits.1 ⟨by omega, hheight⟩,
        fun hfits => ⟨fun hheight => hfits hlast hheight.2, h.clears⟩⟩
    have hcur : c.cursor.newline fb = ⟨0, c.row⟩ := if_pos hlast
    rw [wp_draw]
    refine wp_scrollUp h.accepted (fun hbad => hT fun hfits => hbad (hscroll.mpr hfits))
      fun hfits m hshows => ?_
    have hpixels : fb.Shows m (c.broken fb) := by
      intro x hx y hy
      rw [hshows x hx y hy, broken, if_pos hlast]
      exact if_congr (and_iff_right (by decide)) rfl rfl
    have hnext := hQ (hscroll.mp hfits) m hpixels
    rwa [hcur] at hnext
  · have hbelow : ¬ fb.rows ≤ c.row + 1 := h.rows_eq ▸ hbelow'
    have hcur : c.cursor.newline fb = ⟨0, c.row + 1⟩ := if_neg hbelow
    have hpixels : fb.Shows c.mem (c.broken fb) := fun x _ y _ => (if_neg hbelow).symm
    have hnext := hQ (fun hlast => absurd hlast hbelow) c.mem hpixels
    rw [hcur] at hnext
    rwa [wp_set]

/-- The pixels after a character was drawn in a cell. -/
def drawn (fb : Framebuffer) (c : Console) (cur : Cursor) (byte : BitVec 8) (x y : ℕ) :
    List (BitVec 8) :=
  if InGlyph (cur.col * 8) (cur.row * 8) x y then
    fb.glyphPixel (cur.col * 8) (cur.row * 8) (Font.glyph byte) c.fg c.bg x y
  else fb.pixel c.mem x y

/-- **Drawing a cell.** -/
theorem wp_drawCell (h : c.Sound fb) (cur : Cursor) (hcol : cur.col < fb.cols)
    (hrow : cur.row < fb.rows)
    (hQ : ∀ m, fb.Shows m (c.drawn fb cur byte) → Q () { c with mem := m }) :
    wp T (drawCell fb cur.col cur.row byte) Q F c := by
  have hcols := h.cols_lt
  have hrows := h.rows_lt
  have hx : cur.col * glyphWidth < 2 ^ 64 := by rw [glyphWidth]; omega
  have hy : cur.row * glyphHeight < 2 ^ 64 := by rw [glyphHeight]; omega
  simp only [drawCell, wp_bind, wp_get, wp_mul_or]
  refine ⟨fun _ => ⟨fun _ => ?_, fun hbad => absurd hy hbad⟩, fun hbad => absurd hx hbad⟩
  rw [wp_draw]
  refine wp_drawGlyph h.accepted (fun hbad => absurd ⟨?_, ?_, fun _ => ?_⟩ hbad)
    fun _ m hshows => hQ m hshows
  · rw [glyphWidth]
    omega
  · rw [glyphHeight]
    omega
  · exact h.paints (Nat.zero_lt_of_lt hcol)

/-- The console a character is drawn on. -/
def Wrapped (fb : Framebuffer) (c c' : Console) : Prop :=
  ∃ m, fb.Shows m (if fb.cols ≤ c.col then c.broken fb else fb.pixel c.mem) ∧
    c' = c.moved m (c.cursor.wrap fb)

/-- **Putting a character** on the grid. -/
theorem wp_putGlyph (h : c.Sound fb) (hcols : 0 < fb.cols) (hrows : 0 < fb.rows)
    (hT : ¬ c.cursor.PutFits fb → T)
    (hQ : c.cursor.PutFits fb → ∀ c', c'.Sound fb → Wrapped fb c c' → ∀ m,
      fb.Shows m (c'.drawn fb c'.cursor byte) → Q () (c.moved m (c.cursor.put fb))) :
    wp T (putGlyph fb byte) Q F c := by
  have hput : c.cursor.put fb = ⟨(c.cursor.wrap fb).col + 1, (c.cursor.wrap fb).row⟩ :=
    if_neg (by omega)
  -- the rest, from where the character goes
  have hrest : c.cursor.PutFits fb → ∀ c', c'.Sound fb → Wrapped fb c c' →
      wp T (do
        let c ← get
        drawCell fb c.col c.row byte
        let c ← get
        let col ← add 64 c.col 1
        set { c with col }) Q F c' := by
    intro hfits c' hc' hwrapped
    obtain ⟨m₁, -, hmoved⟩ := id hwrapped
    have hcur : c'.cursor = c.cursor.wrap fb := hmoved ▸ rfl
    have hcol : c'.cursor.col < fb.cols := hcur ▸ Cursor.col_wrap_lt hcols
    have hrow : c'.cursor.row < fb.rows := by
      have hlt := hc'.inGrid.row_lt
      omega
    have hfit : c'.col + 1 < 2 ^ 64 := by
      have hlt : c'.col < fb.cols := hcol
      have hcols := h.cols_lt
      omega
    simp only [wp_bind, wp_get]
    refine wp_drawCell hc' c'.cursor hcol hrow fun m hshows => ?_
    rw [wp_add_or]
    refine ⟨fun _ => ?_, fun hbad => absurd hfit hbad⟩
    have hnext := hQ hfits c' hc' hwrapped m hshows
    rw [hput, ← hcur] at hnext
    rw [wp_set, hmoved]
    rwa [hmoved] at hnext
  simp only [putGlyph, wp_bind, wp_get]
  rw [if_neg (by rw [h.cols_eq, h.rows_eq]; omega), h.cols_eq]
  by_cases hfull : fb.cols ≤ c.col
  · have hwrap : c.cursor.wrap fb = c.cursor.newline fb := if_pos hfull
    rw [if_pos hfull, wp_bind]
    refine wp_newline h (fun hbad => hT fun hfits => hbad (hfits hcols hrows hfull))
      fun hfits m hshows => hrest (fun _ _ _ => hfits) _ (h.moved m h.inGrid.newline)
        ⟨m, by rwa [if_pos hfull], by rw [hwrap]⟩
  · have hwrap : c.cursor.wrap fb = c.cursor := if_neg hfull
    rw [if_neg hfull]
    exact hrest (fun _ _ hbad => absurd hbad hfull) c h
      ⟨c.mem, by rw [if_neg hfull]; exact fun _ _ _ _ => rfl, by rw [hwrap]; rfl⟩

/-! ### Where the cursor goes -/

/-- Putting a character, on any grid. -/
theorem wp_putGlyph_cursor (h : c.Sound fb) (hT : ¬ c.cursor.PutFits fb → T) :
    wp T (putGlyph fb byte) (fun _ c' => c.cursor.PutFits fb ∧ c'.Sound fb ∧
      c'.cursor = c.cursor.put fb) F c := by
  by_cases hcells : fb.cols = 0 ∨ fb.rows = 0
  · simp only [putGlyph, wp_bind, wp_get]
    rw [if_pos (by rwa [h.cols_eq, h.rows_eq]), wp_pure]
    exact ⟨fun hcols hrows => by omega, h, (if_pos hcells).symm⟩
  · exact wp_putGlyph h (by omega) (by omega) hT fun hfits _ _ _ m _ =>
      ⟨hfits, h.moved m h.inGrid.put, rfl⟩

/-- A tab on a grid without cells. -/
theorem wp_tab_empty (h : c.Sound fb) (hcells : fb.cols = 0 ∨ fb.rows = 0) {fuel : ℕ}
    (hT : fuel = 0 → T) :
    wp T (loop (fun _ => tabTurn fb (c.col / 8 * 8 + 8)) fuel ()) (fun _ c' => c' = c) F c := by
  have hcol : c.col = 0 := by
    obtain h0 | h0 := hcells
    · have hle : c.col ≤ fb.cols := h.inGrid.col_le
      omega
    · exact h.inGrid.col_eq h0
  cases fuel with
  | zero =>
    rw [loop, wp_unending]
    exact hT rfl
  | succ fuel =>
    simp only [loop, tabTurn, putGlyph, wp_bind, wp_get]
    rw [if_pos (by omega), wp_bind, wp_bind, wp_get,
      if_pos (by rwa [h.cols_eq, h.rows_eq] : c.cols = 0 ∨ c.rows = 0), wp_pure, wp_bind, wp_get,
      if_pos hcol, wp_pure, wp_pure]

/-- A tab whose stop is on the line goes there in at most eight characters. -/
theorem wp_tab_stop (h : c.Sound fb) (hcols : 0 < fb.cols) (hrows : 0 < fb.rows)
    (hstop : c.col / 8 * 8 + 8 ≤ fb.cols) {fuel : ℕ} (hT : fuel ≤ 8 → T) :
    wp T (loop (fun _ => tabTurn fb (c.col / 8 * 8 + 8)) fuel ()) (fun _ c' => c'.Sound fb ∧
      c'.cursor = ⟨c.col / 8 * 8 + 8, c.row⟩) F c := by
  refine wp_loop (fun _ c' => c'.Sound fb ∧ c'.row = c.row ∧ c'.col ≤ c.col / 8 * 8 + 8)
    (fun _ c' => c.col / 8 * 8 + 8 - c'.col) (fun _ c' hI => ?_) ⟨h, rfl, by omega⟩
    fun hfuel => ?_
  · obtain ⟨hc', hrow, hle⟩ := hI
    rw [tabTurn, wp_bind, wp_get, wp_ite]
    refine ⟨fun hlt => ?_, fun hge => ?_⟩
    · have hroom : ¬ fb.cols ≤ c'.cursor.col := by
        show ¬ fb.cols ≤ c'.col
        omega
      have hput : c'.cursor.put fb = ⟨c'.col + 1, c'.row⟩ := by
        rw [Cursor.put, if_neg (by omega), Cursor.wrap, if_neg hroom]
        rfl
      rw [wp_bind]
      refine wp_mono (F := F) (wp_putGlyph_cursor hc' fun hbad =>
        absurd (fun _ _ hfull => absurd hfull hroom) hbad) (fun _ c'' hnext => ?_) fun _ _ he => he
      obtain ⟨-, hc'', hcur⟩ := hnext
      rw [hput] at hcur
      obtain ⟨hcol, hrow'⟩ := Cursor.mk.inj hcur
      rw [wp_bind, wp_get, if_neg (by omega), wp_pure]
      exact ⟨⟨hc'', hrow'.trans hrow, by omega⟩, by omega⟩
    · rw [wp_pure]
      exact ⟨hc', Cursor.mk.injEq .. ▸ ⟨by omega, hrow⟩⟩
  · have : ¬ fuel ≤ 8 := fun hle => hfuel (hT hle)
    omega

/-- A tab whose stop is past the end of the line never ends: the line wraps before the stop is
reached, and from its first character on the next line the cursor comes back to the end. -/
theorem wp_tab_forever (h : c.Sound fb) (hcols : 0 < fb.cols) (hrows : 0 < fb.rows) {next : ℕ}
    (hnext : fb.cols < next) {fuel : ℕ} {Q : Unit → Console → Prop} (hT : T) :
    wp T (loop (fun _ => tabTurn fb next) fuel ()) Q F c := by
  refine wp_loop_forever (fun _ c' => c'.Sound fb) hT (fun _ c' hc' => ?_) h
  have hle : c'.col ≤ fb.cols := hc'.inGrid.col_le
  rw [tabTurn, wp_bind, wp_get, if_pos (by omega), wp_bind]
  refine wp_mono (F := F) (wp_putGlyph_cursor hc' fun _ => hT) (fun _ c'' hput => ?_) fun _ _ he => he
  obtain ⟨-, hc'', hcur⟩ := hput
  rw [Cursor.put, if_neg (by omega)] at hcur
  obtain ⟨hcol, -⟩ := Cursor.mk.inj hcur
  rw [wp_bind, wp_get, if_neg (by omega), wp_pure]
  exact ⟨(), rfl, hc''⟩

/-- **Expanding a tab.** -/
theorem wp_tab (h : c.Sound fb) {fuel : ℕ} (hT : ¬ c.cursor.TabFits fb ∨ fuel ≤ 8 → T) :
    wp T (loop (fun _ => tabTurn fb (c.col / 8 * 8 + 8)) fuel ()) (fun _ c' =>
      c.cursor.TabFits fb ∧ c'.Sound fb ∧ c'.cursor = c.cursor.tab fb) F c := by
  by_cases hcells : fb.cols = 0 ∨ fb.rows = 0
  · refine wp_mono (F := F) (wp_tab_empty h hcells fun h0 => hT (.inr (by omega)))
      (fun _ c' heq => ?_) fun _ _ he => he
    subst heq
    exact ⟨fun hcols hrows => by omega, h, (if_pos hcells).symm⟩
  · have hcols : 0 < fb.cols := by omega
    have hrows : 0 < fb.rows := by omega
    by_cases hstop : c.col / 8 * 8 + 8 ≤ fb.cols
    · exact wp_mono (F := F) (wp_tab_stop h hcols hrows hstop fun hle => hT (.inr hle))
        (fun _ _ hend => ⟨fun _ _ => hstop, hend.1, hend.2.trans (if_neg hcells).symm⟩)
        fun _ _ he => he
    · exact wp_tab_forever h hcols hrows (Nat.not_le.mp hstop)
        (hT (.inl fun hfits => hstop (hfits hcols hrows)))

/-- **Writing a byte** goes to the end exactly when the byte has what it needs, and takes no more
than eight turns for it. -/
theorem wp_writeByte (h : c.Sound fb) (fuel : ℕ) (byte : BitVec 8)
    (hT : ¬ c.cursor.Fits fb byte ∨ fuel ≤ 8 → T) :
    wp T (writeByte fb fuel byte) (fun _ c' => c.cursor.Fits fb byte ∧ c'.Sound fb ∧
      c'.cursor = c.cursor.write fb byte) F c := by
  rw [writeByte, wp_bind, wp_get]
  rw [Cursor.Fits] at hT ⊢
  rw [Cursor.write]
  split
  · exact wp_newline h (fun hbad => hT (.inl (by rwa [if_pos (by assumption)]))) fun hfits m _ =>
      ⟨hfits, h.moved m h.inGrid.newline, rfl⟩
  split
  · rw [wp_set]
    have hstart : (⟨0, c.row⟩ : Cursor).InGrid fb :=
      ⟨Nat.zero_le _, h.inGrid.row_lt, fun _ => rfl⟩
    exact ⟨trivial, h.moved c.mem hstart, rfl⟩
  split
  · have hcol : c.col / 8 * 8 + 8 < 2 ^ 64 := by
      have hle : c.col ≤ fb.cols := h.inGrid.col_le
      have hcols := h.cols_lt
      omega
    rw [wp_bind, wp_add_or]
    refine ⟨fun _ => wp_tab h fun hbad => hT ?_, fun hbad => absurd hcol hbad⟩
    rwa [if_neg (by assumption), if_neg (by assumption), if_pos (by assumption)]
  split
  · have hle : c.col ≤ fb.cols := h.inGrid.col_le
    have hback : (⟨c.col - 1, c.row⟩ : Cursor).InGrid fb :=
      ⟨(Nat.sub_le ..).trans hle, h.inGrid.row_lt, fun h0 => by
        have : c.col = 0 := h.inGrid.col_eq h0
        show c.col - 1 = 0
        omega⟩
    rw [wp_ite, wp_pure]
    refine ⟨fun hpos => ?_, fun hzero => ⟨trivial, h, ?_⟩⟩
    · have hrows : c.row < fb.rows := by
        have hlt : c.row < max fb.rows 1 := h.inGrid.row_lt
        have hcol : fb.rows = 0 → c.col = 0 := h.inGrid.col_eq
        omega
      rw [wp_bind, wp_set]
      exact wp_drawCell (h.moved c.mem hback) ⟨c.col - 1, c.row⟩
        (Nat.sub_one_lt_of_le hpos hle) hrows fun m _ => ⟨trivial, h.moved m hback, rfl⟩
    · show (⟨c.col, c.row⟩ : Cursor) = ⟨c.col - 1, c.row⟩
      rw [Nat.eq_zero_of_not_pos hzero]
  · refine wp_putGlyph_cursor h fun hbad => hT (.inl ?_)
    rwa [if_neg (by assumption), if_neg (by assumption), if_neg (by assumption),
      if_neg (by assumption)]

/-- **Writing a string.** -/
theorem wp_writeStr (h : c.Sound fb) (fuel : ℕ) (bytes : List (BitVec 8))
    (hT : ¬ c.cursor.StrFits fb bytes ∨ fuel ≤ 8 → T) :
    wp T (writeStr fb fuel bytes) (fun _ c' => c.cursor.StrFits fb bytes ∧ c'.Sound fb) F c := by
  induction bytes generalizing c with
  | nil =>
    rw [writeStr, wp_pure]
    exact ⟨trivial, h⟩
  | cons byte bytes ih =>
    rw [writeStr, wp_bind]
    refine wp_mono (F := F) (wp_writeByte h fuel byte fun hbad => hT (hbad.imp_left fun hbad hfits =>
      hbad hfits.1)) (fun _ c' hfirst => ?_) fun _ _ he => he
    obtain ⟨hfits, hc', hcur⟩ := hfirst
    refine wp_mono (F := F) (ih hc' fun hbad => hT (hbad.imp_left fun hbad hall =>
      hbad (hcur ▸ hall.2))) (fun _ c'' hrest => ?_) fun _ _ he => he
    exact ⟨⟨hfits, hcur ▸ hrest.1⟩, hrest.2⟩

/-- A console that was made and then written to. -/
inductive Reached (fb : Framebuffer) : Console → Prop
  | new {m m' : ByteMemory} {fg bg : Rgb} {c : Console} : Console.new fb fg bg m = .ok c m' →
      Reached fb c
  | setFg {c : Console} (fg : Rgb) : Reached fb c → Reached fb (c.setFg fg)
  | writeByte {c c' : Console} {fuel : ℕ} {byte : BitVec 8} : Reached fb c →
      writeByte fb fuel byte c = .ok () c' → Reached fb c'

/-- **A console was made**: the whole of the framebuffer has the background. -/
theorem wp_new (h : fb.Accepted) (m : ByteMemory) (fg bg : Rgb) {Q : Console → ByteMemory → Prop}
    {F : Empty → ByteMemory → Prop} (hT : ¬ fb.FillFits 0 fb.height → T)
    (hQ : ∀ m', fb.Shows m' (fun _ _ => fb.dot bg) →
      Sound fb ⟨m', fb.cols, fb.rows, 0, 0, fg, bg⟩ →
      Q ⟨m', fb.cols, fb.rows, 0, 0, fg, bg⟩ m') :
    wp T (Console.new fb fg bg) Q F m := by
  rw [Console.new, wp_bind]
  refine wp_fillRows h hT fun hfits m' hshows => ?_
  rw [wp_bind, wp_get, wp_pure]
  refine hQ m' (fun x hx y hy => ?_)
    ⟨h, hfits, rfl, rfl, ⟨Nat.zero_le _, Nat.lt_of_lt_of_le Nat.one_pos (Nat.le_max_right ..),
      fun _ => rfl⟩⟩
  rw [hshows x hx y hy]
  exact if_pos ⟨Nat.zero_le _, by omega⟩

theorem Reached.sound (h : fb.Accepted) (hc : Reached fb c) : c.Sound fb := by
  induction hc with
  | new hnew =>
    exact (wp_of_ok hnew).mp (wp_new (T := True) (Q := fun c _ => c.Sound fb)
      (F := fun _ _ => True) h _ _ _ (fun _ => trivial) fun _ _ hsound => hsound)
  | setFg fg _ ih => exact ⟨ih.accepted, ih.clears, ih.cols_eq, ih.rows_eq, ih.inGrid⟩
  | writeByte _ hwrite ih =>
    exact ((wp_of_ok hwrite).mp (wp_writeByte (T := True) (F := fun _ _ => True) ih _ _
      fun _ => trivial)).2.1

/-- **Writing a string comes to an end** exactly when every tab in it has its stop on the line and
every line that is begun below the last one finds an image whose rows are whole. -/
theorem writeStr_exact {len width height pitch : ℕ} {format : PixelFormat} {fb : Framebuffer}
    {c : Console} (hlen : len < 2 ^ 63)
    (hfb : Framebuffer.new len width height pitch format = some fb) (hc : Reached fb c)
    (bytes : List (BitVec 8)) :
    ((∃ fuel c', writeStr fb fuel bytes c = .ok () c') ∧
      ∀ fuel c', writeByte fb fuel 0x09 c = .ok () c' → 8 ∣ c'.col) ↔
        c.cursor.StrFits fb bytes := by
  have hsound := hc.sound (accepted_of_new hlen hfb).1
  have htab : ∀ fuel c', writeByte fb fuel 0x09 c = .ok () c' → 8 ∣ c'.col := by
    intro fuel c' hwrite
    have hwp := wp_writeByte (T := True) (F := fun _ _ => True) hsound fuel 0x09 fun _ => trivial
    obtain ⟨-, hsound', hcur⟩ := (wp_of_ok hwrite).mp hwp
    have hcol : c'.col = (c.cursor.tab fb).col := congrArg Cursor.col hcur
    rw [hcol, Cursor.tab]
    split
    · next hcells =>
      have hzero : c.cursor.col = 0 := by
        obtain h0 | h0 := hcells
        · exact Nat.eq_zero_of_le_zero (h0 ▸ hsound.inGrid.col_le)
        · exact hsound.inGrid.col_eq h0
      exact hzero ▸ Nat.dvd_zero 8
    · exact ⟨c.col / 8 + 1, by show c.col / 8 * 8 + 8 = _; omega⟩
  rw [and_iff_left htab]
  constructor
  · rintro ⟨fuel, c', hwrite⟩
    have hwp := wp_writeStr (T := True) (F := fun _ _ => True) hsound fuel bytes
      fun _ => trivial
    exact ((wp_of_ok hwrite).mp hwp).1
  · intro hfits
    have hwp := wp_writeStr (T := False) (F := fun _ _ => True) hsound 9 bytes
      fun hbad => hbad.elim (fun hbad => hbad hfits) (by omega)
    obtain ⟨_, c', hwrite, -⟩ | ⟨e, _⟩ := exists_of_wp hwp
    · exact ⟨9, c', hwrite⟩
    · exact e.elim

/-- Ten columns and one row. -/
def narrow : Framebuffer := ⟨2560, 80, 8, 320, .xrgb8888⟩

/-- There is a console on it. -/
theorem exists_reached_narrow : ∃ c, Reached narrow c ∧ c.cursor = ⟨0, 0⟩ := by
  have hfb := accepted_of_new (by decide) (by decide : Framebuffer.new 2560 80 8 320 .xrgb8888 =
    some narrow)
  have hwp := wp_new (T := False) (F := fun _ _ => True) (Q := fun c _ => c.cursor = ⟨0, 0⟩) hfb.1
    (fun _ => 0) ⟨255, 255, 255⟩ ⟨0, 0, 0⟩ (fun hbad => hbad (by decide)) fun _ _ _ => rfl
  obtain ⟨c, m', hnew, hcur⟩ | ⟨e, _⟩ := exists_of_wp hwp
  · exact ⟨c, .new hnew, hcur⟩
  · exact e.elim

theorem writeStr_exact_narrow : ∃ c, Reached narrow c ∧
    (((∃ fuel c', writeStr narrow fuel [0x61, 0x09] c = .ok () c') ∧
      ∀ fuel c', writeByte narrow fuel 0x09 c = .ok () c' → 8 ∣ c'.col) ↔
        c.cursor.StrFits narrow [0x61, 0x09]) := by
  obtain ⟨c, hc, -⟩ := exists_reached_narrow
  exact ⟨c, hc, writeStr_exact (by decide) (by decide : Framebuffer.new 2560 80 8 320 .xrgb8888 =
    some narrow) hc _⟩

/-- Behind nine characters a tab goes round on this console for ever. -/
theorem tab_unending : ∃ c, Reached narrow c ∧ ¬ ∃ fuel c',
    writeStr narrow fuel [0x61, 0x61, 0x61, 0x61, 0x61, 0x61, 0x61, 0x61, 0x61, 0x09] c =
      .ok () c' := by
  obtain ⟨c, hc, hcur⟩ := exists_reached_narrow
  refine ⟨c, hc, fun hok => ?_⟩
  obtain ⟨fuel, c', hwrite⟩ := hok
  have hsound := hc.sound (accepted_of_new (by decide) (by decide : Framebuffer.new 2560 80 8 320
    .xrgb8888 = some narrow)).1
  have hwp := wp_writeStr (T := True) (F := fun _ _ => True) hsound fuel
    [0x61, 0x61, 0x61, 0x61, 0x61, 0x61, 0x61, 0x61, 0x61, 0x09] fun _ => trivial
  have hfits := ((wp_of_ok hwrite).mp hwp).1
  rw [hcur] at hfits
  exact absurd hfits (by decide)

end Console

end StarOS
