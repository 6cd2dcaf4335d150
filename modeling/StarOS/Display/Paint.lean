import StarOS.Display.Requests
import StarOS.Display.Run

/-!
# Painting the screen

One composite clips the rectangle it is given, marks every buffer as behind by it, and paints the
buffer that is being drawn into wherever that one is behind. What it writes lies in that buffer, what
it reads lies in the buffers of the surfaces, and where it paints the buffer shows the ideal picture.

All of it holds for a server whose screen and surfaces are in order (`Server.Sound`), and, in a build
that checks its integers, as long as the running totals have room (`Server.Roomy`).

## Main definitions

* `Display.Rect.cut`, `Display.Rect.join` — clipping and uniting
* `Display.Server.Sound`, `Display.Server.Roomy`
* `Display.Repainted` — what a composite leaves

## Main results

* `Display.wp_composite`
-/

namespace StarOS

namespace Display

open Checked

variable {ε : Type} {T : Prop} {o : OverflowChecks} {k : Answers} {s : Server}
  {F : ε → Server → Prop}

/-! ### Rectangles -/

/-- A rectangle that lies on the screen and is not empty. -/
structure Rect.Within (r : Rect) (screen : Screen) : Prop where
  pos : 0 < r.w ∧ 0 < r.h
  right : r.x + r.w ≤ screen.width
  bottom : r.y + r.h ≤ screen.height

/-- The part of a rectangle that is on the screen. -/
def Rect.cut (r : Rect) (screen : Screen) : Option Rect :=
  if r.x ≥ screen.width ∨ r.y ≥ screen.height ∨ r.w = 0 ∨ r.h = 0 then none
  else some ⟨r.x, r.y, min r.w (screen.width - r.x), min r.h (screen.height - r.y)⟩

theorem Rect.within_of_cut {r r' : Rect} {screen : Screen} (h : r.cut screen = some r') :
    r'.Within screen := by
  rw [cut] at h
  split at h
  · simp at h
  · next hin =>
    obtain rfl := Option.some.inj h
    exact ⟨by dsimp only; omega, by dsimp only; omega, by dsimp only; omega⟩

theorem Rect.has_of_cut {r r' : Rect} {screen : Screen} (h : r.cut screen = some r') {x y : ℕ}
    (hxy : screen.Has x y) (hr : r.Has x y) : r'.Has x y := by
  obtain ⟨hx, hy⟩ := hxy
  obtain ⟨⟨h₁, h₂⟩, h₃, h₄⟩ := hr
  rw [cut] at h
  split at h
  · simp at h
  · obtain rfl := Option.some.inj h
    exact ⟨⟨h₁, by dsimp only; omega⟩, h₃, by dsimp only; omega⟩

/-- A rectangle without a part on the screen has no position of it. -/
theorem Rect.not_has_of_cut {r : Rect} {screen : Screen} (h : r.cut screen = none) {x y : ℕ}
    (hxy : screen.Has x y) : ¬ r.Has x y := by
  rw [cut] at h
  split at h
  · next hout =>
    rintro ⟨⟨h₁, h₂⟩, h₃, h₄⟩
    obtain ⟨hx, hy⟩ := hxy
    omega
  · simp at h

theorem Rect.Within.congr {r : Rect} {screen screen' : Screen} (h : r.Within screen)
    (hw : screen'.width = screen.width) (hh : screen'.height = screen.height) :
    r.Within screen' :=
  ⟨h.pos, hw ▸ h.right, hh ▸ h.bottom⟩

theorem Rect.Within.cut_eq {r : Rect} {screen : Screen} (h : r.Within screen) :
    r.cut screen = some r := by
  obtain ⟨⟨hw, hh⟩, hr, hb⟩ := h
  rw [cut, if_neg (by omega), Nat.min_eq_left (by omega), Nat.min_eq_left (by omega)]

theorem Rect.Within.screen_has {r : Rect} {screen : Screen} (h : r.Within screen) {x y : ℕ}
    (hr : r.Has x y) : screen.Has x y :=
  ⟨Nat.lt_of_lt_of_le hr.1.2 h.right, Nat.lt_of_lt_of_le hr.2.2 h.bottom⟩

/-- The smallest rectangle that covers both. -/
def Rect.join (a b : Rect) : Rect where
  x := min a.x b.x
  y := min a.y b.y
  w := max (a.x + a.w) (b.x + b.w) - min a.x b.x
  h := max (a.y + a.h) (b.y + b.h) - min a.y b.y

theorem Rect.Within.join {a b : Rect} {screen : Screen} (ha : a.Within screen)
    (hb : b.Within screen) : (a.join b).Within screen := by
  obtain ⟨⟨_, _⟩, _, _⟩ := ha
  obtain ⟨⟨_, _⟩, _, _⟩ := hb
  constructor <;> dsimp only [Rect.join] <;> omega

theorem Rect.join_has_left {a b : Rect} {x y : ℕ} (h : a.Has x y) : (a.join b).Has x y := by
  obtain ⟨⟨_, _⟩, _, _⟩ := h
  refine ⟨⟨?_, ?_⟩, ?_, ?_⟩ <;> dsimp only [Rect.join] <;> omega

theorem Rect.join_has_right {a b : Rect} {x y : ℕ} (h : b.Has x y) : (a.join b).Has x y := by
  obtain ⟨⟨_, _⟩, _, _⟩ := h
  refine ⟨⟨?_, ?_⟩, ?_, ?_⟩ <;> dsimp only [Rect.join] <;> omega

/-! ### A screen in order -/

/-- The geometry the kernel seeds: the buffers, one or two, are mapped where a process has addresses,
a row has room for its pixels and a buffer for its rows; the buffer being drawn into is one of
them, and where one is behind is a part of the screen. -/
structure Screen.Sound (screen : Screen) : Prop where
  pos : 0 < screen.width ∧ 0 < screen.height
  row : screen.width * bpp ≤ screen.stride
  plane : screen.plane = screen.height * screen.stride
  mapped : screen.Mapped
  one_or_two : screen.buffers = 1 ∨ screen.buffers = 2
  back : screen.back < screen.buffers
  length_stale : screen.stale.length = maxBuffers
  stale : ∀ r, some r ∈ screen.stale → r.Within screen

namespace Screen.Sound

variable {screen : Screen} (h : screen.Sound)
include h

theorem area_le : screen.width * screen.height * bpp ≤ 2 ^ 48 := by
  have hmapped := h.mapped
  rw [Screen.Mapped, addressBits] at hmapped
  calc screen.width * screen.height * bpp = screen.height * (screen.width * bpp) := by
        rw [Nat.mul_comm screen.width, Nat.mul_assoc]
    _ ≤ screen.height * screen.stride := Nat.mul_le_mul_left _ h.row
    _ = 1 * screen.plane := by rw [h.plane, Nat.one_mul]
    _ ≤ screen.buffers * screen.plane :=
        Nat.mul_le_mul_right _ (by rcases h.one_or_two with h | h <;> omega)
    _ ≤ 2 ^ 48 := hmapped

theorem width_lt : screen.width < 2 ^ 64 := by
  have := h.area_le
  have hpos := h.pos.2
  have hle : screen.width * 1 ≤ screen.width * screen.height := Nat.mul_le_mul_left _ hpos
  rw [bpp] at this
  omega

theorem height_lt : screen.height < 2 ^ 64 := by
  have := h.area_le
  have hpos := h.pos.1
  have hle : 1 * screen.height ≤ screen.width * screen.height := Nat.mul_le_mul_right _ hpos
  rw [bpp] at this
  omega

/-- A pixel of a buffer lies in its row, and its row in the buffer. -/
theorem offset_lt {b x y : ℕ} (hxy : screen.Has x y) :
    b * screen.plane ≤ screen.offset b x y ∧
      screen.offset b x y + bpp ≤ (b + 1) * screen.plane := by
  have hx : (x + 1) * bpp ≤ screen.width * bpp := Nat.mul_le_mul_right _ hxy.1
  have hy : (y + 1) * screen.stride ≤ screen.height * screen.stride :=
    Nat.mul_le_mul_right _ hxy.2
  have hrow := h.row
  rw [Nat.add_mul, Nat.one_mul] at hx hy
  rw [← h.plane] at hy
  rw [Screen.offset, Nat.add_mul, Nat.one_mul]
  omega

/-- The buffers are mapped. -/
theorem offset_mapped {b x y : ℕ} (hb : b < screen.buffers) (hxy : screen.Has x y) :
    screen.offset b x y + bpp ≤ screen.buffers * screen.plane :=
  Nat.le_trans (h.offset_lt hxy).2 (Nat.mul_le_mul_right _ hb)

/-- **Different pixels are apart.** -/
theorem offset_apart {b b' x x' y y' : ℕ} (hxy : screen.Has x y) (hxy' : screen.Has x' y')
    (hne : ¬ (b = b' ∧ x = x' ∧ y = y')) :
    screen.offset b x y + 4 ≤ screen.offset b' x' y' ∨
      screen.offset b' x' y' + 4 ≤ screen.offset b x y := by
  have hin := h.offset_lt (b := b) hxy
  have hin' := h.offset_lt (b := b') hxy'
  rw [bpp] at hin hin'
  rcases Nat.lt_trichotomy b b' with hb | rfl | hb
  · have hnext : (b + 1) * screen.plane ≤ b' * screen.plane := Nat.mul_le_mul_right _ hb
    omega
  · have hrow := h.row
    have hx : (x + 1) * bpp ≤ screen.width * bpp := Nat.mul_le_mul_right _ hxy.1
    have hx' : (x' + 1) * bpp ≤ screen.width * bpp := Nat.mul_le_mul_right _ hxy'.1
    rw [bpp] at hrow hx hx'
    rw [Screen.offset, Screen.offset, bpp]
    rcases Nat.lt_trichotomy y y' with hy | rfl | hy
    · have := Nat.mul_le_mul_right screen.stride hy
      rw [Nat.succ_mul] at this
      omega
    · omega
    · have := Nat.mul_le_mul_right screen.stride hy
      rw [Nat.succ_mul] at this
      omega
  · have hnext : (b' + 1) * screen.plane ≤ b * screen.plane := Nat.mul_le_mul_right _ hb
    omega

end Screen.Sound

/-- The same screen with another back buffer, other regions and other totals. -/
theorem Screen.Sound.replace {screen : Screen} (h : screen.Sound) {back : ℕ}
    {stale : List (Option Rect)} {asked painted flips flipsRefused : ℕ}
    (hback : back < screen.buffers) (hlen : stale.length = maxBuffers)
    (hstale : ∀ r, some r ∈ stale → r.Within screen) :
    Screen.Sound { screen with back, stale, asked, painted, flips, flipsRefused } :=
  ⟨h.pos, h.row, h.plane, h.mapped, h.one_or_two, hback, hlen, fun r hr => (hstale r hr).congr rfl rfl⟩

theorem wp_clip {r : Rect} {Q : Option Rect → Server → Prop} (hs : s.screen.Sound) :
    wp T (r.clip o : Checked Server ε _) Q F s ↔ Q (r.cut s.screen) s := by
  rw [Rect.clip, Rect.cut, wp_bind, wp_get, wp_ite]
  by_cases hout : r.x ≥ s.screen.width ∨ r.y ≥ s.screen.height ∨ r.w = 0 ∨ r.h = 0
  · rw [if_pos hout]
    exact ⟨fun h => (wp_pure _).mp (h.1 hout),
      fun h => ⟨fun _ => (wp_pure _).mpr h, fun hn => absurd hout hn⟩⟩
  · have hx : r.x ≤ s.screen.width := by omega
    have hy : r.y ≤ s.screen.height := by omega
    rw [if_neg hout, wp_bind, wp_fit_sub hx hs.width_lt, wp_bind, wp_fit_sub hy hs.height_lt]
    exact ⟨fun h => (wp_pure _).mp (h.2 hout),
      fun h => ⟨fun hn => absurd hn hout, fun _ => (wp_pure _).mpr h⟩⟩

/-- A rectangle whose far corner has coordinates. -/
def Rect.Bounded (r : Rect) : Prop := r.x + r.w < 2 ^ 64 ∧ r.y + r.h < 2 ^ 64

theorem Rect.Within.bounded {r : Rect} {screen : Screen} (h : r.Within screen)
    (hs : screen.Sound) : r.Bounded :=
  ⟨Nat.lt_of_le_of_lt h.right hs.width_lt, Nat.lt_of_le_of_lt h.bottom hs.height_lt⟩

theorem wp_union {a b : Rect} {Q : Rect → Server → Prop} (ha : a.Bounded) (hb : b.Bounded) :
    wp T (union o a b : Checked Server ε _) Q F s ↔ Q (a.join b) s := by
  obtain ⟨har, hab⟩ := ha
  obtain ⟨hbr, hbb⟩ := hb
  rw [union, wp_bind, wp_fit_add (by omega), wp_bind, wp_fit_add (by omega), wp_bind,
    wp_fit_add (by omega), wp_bind, wp_fit_add (by omega), wp_bind,
    wp_fit_sub (by split <;> split <;> omega) (by split <;> omega), wp_bind,
    wp_fit_sub (by split <;> split <;> omega) (by split <;> omega), wp_pure]
  have hjoin : a.join b = ⟨if a.x < b.x then a.x else b.x, if a.y < b.y then a.y else b.y,
      (if a.x + a.w > b.x + b.w then a.x + a.w else b.x + b.w) -
        (if a.x < b.x then a.x else b.x),
      (if a.y + a.h > b.y + b.h then a.y + a.h else b.y + b.h) -
        (if a.y < b.y then a.y else b.y)⟩ := by
    rw [Rect.join]
    grind
  rw [hjoin]

/-! ### Reading a surface -/

/-- A surface with pixels, all of them in a buffer that is mapped. -/
structure Surface.Backed (t : Surface) (maps : List Mapping) : Prop where
  pos : 0 < t.width ∧ 0 < t.height
  small : t.width * t.height * bpp ≤ 2 ^ 23
  mapped : ∃ m ∈ maps, m.va = t.pixels ∧ t.width * t.height * bpp ≤ m.len

theorem Surface.Backed.sized {t : Surface} {maps : List Mapping} (h : t.Backed maps) : t.Sized := by
  have hsmall := h.small
  have hw : t.width * 1 ≤ t.width * t.height := Nat.mul_le_mul_left _ h.pos.2
  have hh : 1 * t.height ≤ t.width * t.height := Nat.mul_le_mul_right _ h.pos.1
  rw [bpp] at hsmall
  exact ⟨by omega, by omega⟩

/-- The colour a surface has at a position it covers. -/
def Surface.colour? (mem : ByteMemory) (t : Surface) (sx sy : ℕ) : Option (BitVec 32) :=
  if t.Covers sx sy then some (mem.readWord (t.address sx sy)) else none

/-- **A pixel that is read is in the buffer of its surface.** -/
theorem wp_at {t : Surface} {sx sy : ℕ} (ht : t.Backed s.maps) (hx : sx < 2 ^ 64) (hy : sy < 2 ^ 64)
    {Q : Option (BitVec 32) → Server → Prop} :
    wp T (t.at o sx sy : Checked Server ε _) Q F s ↔ Q (t.colour? s.mem sx sy) s := by
  rw [Surface.at, Surface.colour?, wp_ite]
  by_cases hout : sx < t.x ∨ sy < t.y
  · rw [if_neg fun h => by have h₁ := h.1.1; have h₂ := h.2.1; omega]
    exact ⟨fun h => (wp_pure _).mp (h.1 hout),
      fun h => ⟨fun _ => (wp_pure _).mpr h, fun hn => absurd hout hn⟩⟩
  · have hcol : t.x ≤ sx := by omega
    have hrow : t.y ≤ sy := by omega
    rw [wp_bind, wp_fit_sub hcol hx, wp_bind, wp_fit_sub hrow hy, wp_ite]
    by_cases hbig : sx - t.x ≥ t.width ∨ sy - t.y ≥ t.height
    · rw [if_neg fun h => by have h₁ := h.1.2; have h₂ := h.2.2; omega]
      exact ⟨fun h => (wp_pure _).mp ((h.2 hout).1 hbig),
        fun h => ⟨fun hn => absurd hn hout, fun _ => ⟨fun _ => (wp_pure _).mpr h, fun hn => absurd hbig hn⟩⟩⟩
    · have hcovers : t.Covers sx sy := ⟨⟨hcol, by omega⟩, hrow, by omega⟩
      -- the pixel is one of the first `width * height`
      have hlast : (sy - t.y + 1) * t.width ≤ t.width * t.height := by
        rw [Nat.mul_comm t.width]
        exact Nat.mul_le_mul_right _ hcovers.2.2
      have hsmall := ht.small
      have hin := hcovers.1.2
      rw [bpp] at hsmall
      rw [Nat.add_mul, Nat.one_mul] at hlast
      have hread : ∃ m ∈ s.maps, m.va = t.pixels ∧
          ((sy - t.y) * t.width + (sx - t.x)) * bpp + bpp ≤ m.len := by
        obtain ⟨m, hm, hva, hlen⟩ := ht.mapped
        rw [bpp] at hlen
        exact ⟨m, hm, hva, by rw [bpp]; omega⟩
      rw [if_pos hcovers, wp_bind, wp_fit_mul (by omega), wp_bind, wp_fit_add (by omega), wp_bind,
        readPixel, wp_bind, wp_get, wp_ite]
      simp only [wp_pure]
      exact ⟨fun h => ((h.2 hout).2 hbig).1 hread,
        fun h => ⟨fun hn => absurd hn hout, fun _ => ⟨fun hn => absurd hn hbig, fun _ =>
          ⟨fun _ => h, fun hn => absurd hread hn⟩⟩⟩⟩

/-- A server whose screen and surfaces are in order. -/
structure Server.Sound (s : Server) : Prop where
  screen : s.screen.Sound
  count : s.compositor.count ≤ maxSurfaces
  backed : ∀ t ∈ s.compositor.live, t.Backed s.maps
  pointer : s.pointer.x < 2 ^ 64 ∧ s.pointer.y < 2 ^ 64

theorem wp_colourAt {sx sy : ℕ} (hs : s.Sound) (hxy : s.screen.Has sx sy)
    {Q : BitVec 32 → Server → Prop} (hQ : Q (s.ideal sx sy) s) :
    wp T (colourAt o sx sy : Checked Server ε _) Q F s := by
  rw [colourAt, wp_bind]
  refine wp_live (fun _ => hs.count) fun _ => ?_
  refine wp_mono (wp_foldlM (F := F) (fun done colour s' => s = s' ∧
    colour = done.foldl (Surface.over s.mem sx sy) background) ?_ ⟨rfl, rfl⟩) ?_ fun _ _ h => h
  · rintro done t _ _ ⟨rest, hl⟩ ⟨rfl, rfl⟩
    have ht : t ∈ s.compositor.live := by simp [← hl]
    rw [wp_bind, wp_at (hs.backed t ht) (Nat.lt_trans hxy.1 hs.screen.width_lt)
      (Nat.lt_trans hxy.2 hs.screen.height_lt), wp_pure]
    refine ⟨rfl, ?_⟩
    rw [List.foldl_append, List.foldl_cons, List.foldl_nil, Surface.colour?]
    split <;> next h => simp [Surface.over, h]
  · rintro _ _ ⟨rfl, rfl⟩
    exact hQ

/-! ### Writing the screen -/

/-- The server once a pixel of the buffer being drawn into is written. -/
def Server.wrote (s : Server) (x y : ℕ) (colour : BitVec 32) : Server :=
  { s with
    fb := s.fb.writeWord (s.screen.offset s.screen.back x y) colour
    writes := (s.screen.offset s.screen.back x y, s.front) :: s.writes }

/-- **A pixel that is written is in the framebuffer mapping.** -/
theorem wp_put {x y : ℕ} {colour : BitVec 32} (hs : s.screen.Sound) (hxy : s.screen.Has x y)
    {Q : Unit → Server → Prop} :
    wp T (put o x y colour : Checked Server ε _) Q F s ↔ Q () (s.wrote x y colour) := by
  have hoffset := hs.offset_mapped hs.back hxy
  have hmapped := hs.mapped
  rw [Screen.Mapped, addressBits] at hmapped
  have hin : ¬ (x ≥ s.screen.width ∨ y ≥ s.screen.height) := by
    have h₁ := hxy.1
    have h₂ := hxy.2
    omega
  have hplane : s.screen.back * s.screen.plane < 2 ^ 64 := by
    have := (hs.offset_lt (b := s.screen.back) hxy).1
    omega
  have hrow : y * s.screen.stride < 2 ^ 64 := by
    rw [Screen.offset] at hoffset
    omega
  rw [put, wp_bind, wp_get, wp_ite]
  rw [Screen.offset] at hoffset
  rw [wp_bind, wp_fit_mul hrow, wp_bind, wp_fit_mul hplane, wp_bind, wp_fit_add (by omega), wp_bind,
    wp_fit_mul (by omega), wp_bind, wp_fit_add (by omega), writePixel, wp_bind, wp_get, wp_ite]
  exact ⟨fun h => (wp_set _).mp ((h.2 hin).1 hoffset),
    fun h => ⟨fun hn => absurd hn hin, fun _ => ⟨fun _ => (wp_set _).mpr h, fun hn => absurd hoffset hn⟩⟩⟩

section Wrote

variable {x y x' y' b : ℕ} {colour : BitVec 32}

theorem pixel_wrote_self : (s.wrote x y colour).pixel s.screen.back x y = colour :=
  ByteMemory.readWord_writeWord

theorem pixel_wrote_of_ne (hs : s.screen.Sound) (hxy : s.screen.Has x y) (hxy' : s.screen.Has x' y')
    (hne : ¬ (b = s.screen.back ∧ x' = x ∧ y' = y)) :
    (s.wrote x y colour).pixel b x' y' = s.pixel b x' y' :=
  ByteMemory.readWord_writeWord_of_disjoint (hs.offset_apart hxy' hxy hne)

end Wrote

theorem mem_positions {r : Rect} {x y : ℕ} :
    (x, y) ∈ positions r (r.x + r.w) (r.y + r.h) ↔ r.Has x y := by
  simp only [positions, List.mem_flatMap, List.mem_map, List.mem_range'_1, Rect.Has, Prod.mk.injEq]
  constructor
  · rintro ⟨y', hy, x', hx, rfl, rfl⟩
    omega
  · rintro ⟨hx, hy⟩
    exact ⟨y, by omega, x, by omega, rfl, rfl⟩

theorem length_positions (r : Rect) : (positions r (r.x + r.w) (r.y + r.h)).length = r.h * r.w := by
  simp [positions, List.length_flatMap]

/-- What holds while a region is painted: the positions done show the ideal picture, no other pixel
has changed, and every pixel written was one of the buffer being drawn into. -/
structure Painting (s : Server) (done : List (ℕ × ℕ)) (n : ℕ) (s' : Server) : Prop where
  counted : n = done.length
  frame : s' = { s with fb := s'.fb, writes := s'.writes }
  painted : ∀ x y, (x, y) ∈ done → s'.pixel s.screen.back x y = s.ideal x y
  kept : ∀ b x y, s.screen.Has x y → b ≠ s.screen.back ∨ (x, y) ∉ done →
    s'.pixel b x y = s.pixel b x y
  writes : ∀ w ∈ s'.writes, w ∈ s.writes ∨
    w.2 = s.front ∧ ∃ x y, s.screen.Has x y ∧ w.1 = s.screen.offset s.screen.back x y

/-- **One position painted.** -/
theorem Painting.step {s₀ : Server} {done : List (ℕ × ℕ)} {n x y : ℕ} (hs : s₀.Sound)
    (hxy : s₀.screen.Has x y) (hlen : done.length + 1 < 2 ^ 64) (hdone : ∀ p ∈ done, s₀.screen.Has p.1 p.2)
    (h : Painting s₀ done n s) :
    wp T (paint o n (x, y) : Checked Server ε ℕ) (Painting s₀ (done ++ [(x, y)])) F s := by
  have hscreen : s.screen = s₀.screen := by rw [h.frame]
  have hsound : s.Sound := by
    rw [h.frame]
    exact ⟨hs.screen, hs.count, hs.backed, hs.pointer⟩
  have hideal : s.ideal x y = s₀.ideal x y := by
    rw [h.frame]
    rfl
  rw [paint, wp_bind]
  refine wp_colourAt hsound (hscreen ▸ hxy) ?_
  rw [wp_bind, wp_put hsound.screen (hscreen ▸ hxy), wp_fit_add (by rw [h.counted]; omega)]
  refine ⟨by rw [h.counted, List.length_append]; rfl, ?_, fun x' y' hmem => ?_,
    fun b x' y' hxy' hout => ?_, fun w hw => ?_⟩
  · rw [h.frame]
    rfl
  · have hself : (s.wrote x y (s.ideal x y)).pixel s₀.screen.back x y = s₀.ideal x y := by
      rw [← hscreen, pixel_wrote_self, hideal]
    by_cases heq : x' = x ∧ y' = y
    · obtain ⟨rfl, rfl⟩ := heq
      exact hself
    · rcases List.mem_append.mp hmem with hmem | hmem
      · rw [pixel_wrote_of_ne hsound.screen (hscreen ▸ hxy) (hscreen ▸ hdone _ hmem) fun h => heq h.2]
        exact h.painted x' y' hmem
      · exact absurd (Prod.mk.inj (List.mem_singleton.mp hmem)) heq
  · have hne : ¬ (b = s.screen.back ∧ x' = x ∧ y' = y) := by
      rintro ⟨rfl, rfl, rfl⟩
      rcases hout with hb | hout
      · exact hb (by rw [hscreen])
      · exact hout (by simp)
    rw [pixel_wrote_of_ne hsound.screen (hscreen ▸ hxy) (hscreen ▸ hxy') hne]
    exact h.kept b x' y' hxy' (hout.imp id fun hn hmem => hn (List.mem_append_left _ hmem))
  · rcases List.mem_cons.mp hw with rfl | hw
    · refine .inr ⟨?_, x, y, hxy, by rw [hscreen]⟩
      rw [h.frame]
    · exact h.writes w hw

/-- **A region painted.** -/
theorem wp_paint_all {r : Rect} (hs : s.Sound) (hr : r.Within s.screen) :
    wp T ((positions r (r.x + r.w) (r.y + r.h)).foldlM (paint o) 0 : Checked Server ε ℕ)
      (Painting s (positions r (r.x + r.w) (r.y + r.h))) F s := by
  have hon : ∀ p ∈ positions r (r.x + r.w) (r.y + r.h), s.screen.Has p.1 p.2 := fun p hp =>
    hr.screen_has (mem_positions.mp hp)
  have hlen : (positions r (r.x + r.w) (r.y + r.h)).length < 2 ^ 64 := by
    have harea := hs.screen.area_le
    have hle : r.h * r.w ≤ s.screen.height * s.screen.width :=
      Nat.mul_le_mul (by have := hr.bottom; omega) (by have := hr.right; omega)
    rw [bpp, Nat.mul_comm s.screen.width] at harea
    rw [length_positions]
    omega
  refine wp_foldlM (Painting s) (fun done pos n s' hpre h => ?_)
    ⟨rfl, rfl, fun _ _ hmem => absurd hmem List.not_mem_nil, fun _ _ _ _ _ => rfl, fun w hw => .inl hw⟩
  have hsub := hpre.subset
  have hle := hpre.length_le
  rw [List.length_append, List.length_singleton] at hle
  exact h.step hs (hon pos (hsub (by simp))) (Nat.lt_of_le_of_lt hle hlen)
    fun p hp => hon p (hsub (List.mem_append_left _ hp))

/-! ### Falling behind -/

/-- Where a buffer will be behind once `r` has changed. -/
def Screen.lag (screen : Screen) (r : Rect) (b : ℕ) : Rect :=
  match screen.stale[b]? with
  | some (some had) => had.join r
  | _ => r

/-- The server with other regions. -/
def Server.staled (s : Server) (stale : List (Option Rect)) : Server :=
  { s with screen := { s.screen with stale := stale } }

section Damage

variable {r : Rect}

theorem Screen.Sound.lag_within {screen : Screen} (h : screen.Sound) (hr : r.Within screen) (b : ℕ) :
    (screen.lag r b).Within screen := by
  rw [Screen.lag]
  split
  · next had hb => exact (h.stale had (List.mem_of_getElem? hb)).join hr
  · exact hr

theorem Screen.lag_has (screen : Screen) (b : ℕ) {x y : ℕ} (h : r.Has x y) :
    (screen.lag r b).Has x y := by
  rw [Screen.lag]
  split
  · exact Rect.join_has_right h
  · exact h

theorem Screen.lag_has_stale {screen : Screen} {b x y : ℕ} {had : Rect}
    (hb : screen.stale[b]? = some (some had)) (h : had.Has x y) : (screen.lag r b).Has x y := by
  rw [Screen.lag, hb]
  exact Rect.join_has_left h

/-- Some of the buffers have fallen behind. -/
structure Lagging (s : Server) (r : Rect) (done : List ℕ) (s' : Server) : Prop where
  frame : ∃ stale, s' = s.staled stale ∧ stale.length = maxBuffers ∧
    ∀ b < maxBuffers, stale[b]? = if b ∈ done then some (some (s.screen.lag r b)) else s.screen.stale[b]?

theorem Lagging.step {s₀ : Server} {done : List ℕ} {b : ℕ} (hs : s₀.screen.Sound)
    (hr : r.Within s₀.screen) (hb : b < maxBuffers) (hnew : b ∉ done) (h : Lagging s₀ r done s) :
    wp T (fallBehind o r b : Checked Server ε Unit) (fun _ => Lagging s₀ r (done ++ [b])) F s := by
  obtain ⟨stale, rfl, hlen, hstale⟩ := h.frame
  have hlt : b < s₀.screen.stale.length := by rw [hs.length_stale]; exact hb
  have hb' := hstale b hb
  rw [if_neg hnew, List.getElem?_eq_getElem hlt] at hb'
  have hset : ∀ behind, behind = s₀.screen.lag r b →
      Lagging s₀ r (done ++ [b]) ((s₀.staled stale).staled (stale.set b (some behind))) := by
    rintro _ rfl
    refine ⟨_, rfl, by rw [List.length_set, hlen], fun c hc => ?_⟩
    rw [List.getElem?_set]
    by_cases hbc : b = c
    · subst hbc
      rw [if_pos rfl, if_pos (by rw [hlen]; exact hb), if_pos (by simp)]
    · rw [if_neg hbc, hstale c hc]
      simp [Ne.symm hbc]
  have hidx : wp T (index (s₀.staled stale).screen.stale b : Checked Server ε _)
      (fun had s' => had = s₀.screen.stale[b] ∧ s' = s₀.staled stale) F (s₀.staled stale) :=
    wp_of_false (wp_index.mpr ⟨_, hb', rfl, rfl⟩)
  rw [fallBehind, wp_bind, wp_get, wp_bind]
  refine wp_mono hidx ?_ fun _ _ h => h
  rintro had _ ⟨rfl, rfl⟩
  have hlag : ∀ had, s₀.screen.stale[b] = some had → s₀.screen.lag r b = had.join r := by
    intro had hhad
    rw [Screen.lag, List.getElem?_eq_getElem hlt, hhad]
  cases hhad : s₀.screen.stale[b] with
  | none =>
    show wp T (pure r >>= _) _ _ _
    rw [wp_bind]
    refine (wp_pure _).mpr ((wp_modify _).mpr (hset r ?_))
    rw [Screen.lag, List.getElem?_eq_getElem hlt, hhad]
  | some had =>
    have hin := hs.stale had (hhad ▸ List.getElem_mem hlt)
    show wp T (union o had r >>= _) _ _ _
    rw [wp_bind]
    exact (wp_union (hin.bounded hs) (hr.bounded hs)).mpr ((wp_modify _).mpr (hset _ (hlag had hhad).symm))

/-- **Every buffer falls behind by what has changed, but the one that is brought up to date.** -/
theorem wp_damage {Q : Rect → Server → Prop} (hs : s.screen.Sound) (hr : r.Within s.screen)
    (hQ : ∀ stale, stale.length = maxBuffers → (∀ b < s.screen.buffers, stale[b]? =
      some (if b = s.screen.back then none else some (s.screen.lag r b))) →
      (∀ r', some r' ∈ stale → r'.Within s.screen) →
      Q (s.screen.lag r s.screen.back) (s.staled stale)) :
    wp T (damage o r : Checked Server ε Rect) Q F s := by
  have hle : s.screen.buffers ≤ maxBuffers := by
    rcases hs.one_or_two with h | h <;> rw [h, maxBuffers]
    exact Nat.le_succ 1
  have hback := hs.back
  rw [damage, wp_bind, wp_get, wp_bind]
  refine wp_mono (wp_foldlM (F := F) (fun done (_ : Unit) s' => Lagging s r done s')
    (fun done b _ s' hpre h => ?_) ?_) ?_ fun _ _ h => h
  · have hnodup := List.nodup_range.sublist hpre.sublist
    have hmem := List.mem_range.mp (hpre.subset (List.mem_append_right done (List.mem_singleton_self b)))
    refine h.step hs hr (Nat.lt_of_lt_of_le hmem hle) fun hb => ?_
    exact (List.nodup_append.mp hnodup).2.2 b hb b (List.mem_singleton_self b) rfl
  · exact ⟨s.screen.stale, rfl, hs.length_stale, fun b _ => rfl⟩
  · rintro _ s' h
    obtain ⟨stale, rfl, hlen, hstale⟩ := h.frame
    have hrepaint := hstale s.screen.back (Nat.lt_of_lt_of_le hback hle)
    rw [if_pos (List.mem_range.mpr hback)] at hrepaint
    rw [wp_bind, wp_get, wp_bind]
    refine wp_of_false (wp_index.mpr ⟨_, hrepaint, ?_⟩)
    rw [wp_bind, wp_set, wp_pure]
    refine hQ _ (by rw [List.length_set]; exact hlen) (fun b hb => ?_) fun r' hr' => ?_
    · show (stale.set s.screen.back none)[b]? = _
      have hb' := hstale b (Nat.lt_of_lt_of_le hb hle)
      rw [if_pos (List.mem_range.mpr hb)] at hb'
      rw [List.getElem?_set]
      by_cases heq : s.screen.back = b
      · rw [if_pos heq, if_pos (by rw [hlen]; exact Nat.lt_of_lt_of_le hback hle), if_pos heq.symm]
      · rw [if_neg heq, if_neg (Ne.symm heq), hb']
    · -- a region is one that was there, or one of those that were computed
      have hmem : some r' ∈ stale := by
        rcases List.mem_or_eq_of_mem_set hr' with h | h
        · exact h
        · simp at h
      obtain ⟨b, hb, hb'⟩ := List.mem_iff_getElem.mp hmem
      have hget := hstale b (by rw [← hlen]; exact hb)
      rw [List.getElem?_eq_getElem hb, hb'] at hget
      split at hget
      · rw [Option.some.inj (Option.some.inj hget)]
        exact hs.lag_within hr b
      · exact hs.stale r' (List.mem_of_getElem? hget.symm)

end Damage

/-! ### Showing -/

/-- The running totals have room for one more event, whatever it paints. -/
structure Server.Roomy (s : Server) : Prop where
  asked : s.screen.asked + s.screen.width * s.screen.height < 2 ^ 64
  painted : s.screen.painted + s.screen.width * s.screen.height < 2 ^ 64
  flips : s.screen.flips + 1 < 2 ^ 64
  flipsRefused : s.screen.flipsRefused + 1 < 2 ^ 64
  nextId : s.compositor.nextId + 1 < 2 ^ 64
  frames : s.profile.frames + 1 < 2 ^ 64
  pixels : s.profile.pixels + s.screen.width * s.screen.height < 2 ^ 64
  totalNs : s.profile.totalNs + 2 ^ 63 ≤ 2 ^ 64
  unmeasured : s.profile.unmeasured + 1 < 2 ^ 64

/-- There are two buffers and the kernel flips to the one just painted. -/
def Screen.Flips (screen : Screen) (k : Answers) : Prop :=
  ¬ (screen.buffers < 2 ∨ screen.scanout = .null) ∧ ¬ k.flip < 0

instance (screen : Screen) : Decidable (screen.Flips k) := inferInstanceAs (Decidable (_ ∧ _))

/-- **After a flip** the buffer just painted is the one on the screen. -/
theorem wp_present {Q : Unit → Server → Prop} (hs : s.screen.Sound)
    (hflips : ¬ T → o = .on → s.screen.flips + 1 < 2 ^ 64)
    (hrefused : ¬ T → o = .on → s.screen.flipsRefused + 1 < 2 ^ 64)
    (hQ : ∀ flips flipsRefused, Q () { s with
      front := if s.screen.Flips k then s.screen.back else s.front
      screen := { s.screen with
        flips, flipsRefused
        back := if s.screen.Flips k then (s.screen.back + 1) % s.screen.buffers
          else s.screen.back } }) :
    wp T (present o k : Checked Server ε Unit) Q F s := by
  have hback := hs.back
  have hsmall : s.screen.back + 1 < 2 ^ 64 := by rcases hs.one_or_two with h | h <;> omega
  rw [present, wp_bind, wp_get, wp_ite]
  refine ⟨fun hno => ?_, fun hyes => ?_⟩
  · have hnot : ¬ s.screen.Flips k := fun h => h.1 hno
    simp only [if_neg hnot] at hQ
    exact (wp_pure _).mpr (hQ _ _)
  · rw [wp_ite]
    refine ⟨fun hneg => ?_, fun hpos => ?_⟩
    · have hnot : ¬ s.screen.Flips k := fun h => h.2 hneg
      simp only [if_neg hnot] at hQ
      rw [wp_bind]
      refine wp_add_of hrefused fun _ => ?_
      rw [wp_bind, wp_set, wp_pure]
      exact hQ _ _
    · have hflip : s.screen.Flips k := ⟨hyes, hpos⟩
      simp only [if_pos hflip] at hQ
      rw [wp_bind]
      refine wp_add_of hflips fun _ => ?_
      rw [wp_bind, wp_fit_add hsmall, wp_set]
      exact hQ _ _

/-! ### Compositing -/

/-- What a composite of a rectangle on the screen leaves. -/
structure Repainted (k : Answers) (r : Rect) (s s' : Server) : Prop where
  /-- Nothing of the clients' has changed. -/
  frame : s' = { s with screen := s'.screen, fb := s'.fb, front := s'.front, writes := s'.writes }
  shape : s'.screen = { s.screen with
    back := s'.screen.back, stale := s'.screen.stale, asked := s'.screen.asked
    painted := s'.screen.painted, flips := s'.screen.flips
    flipsRefused := s'.screen.flipsRefused }
  front : s'.front = if s.screen.Flips k then s.screen.back else s.front
  back : s'.screen.back =
    if s.screen.Flips k then (s.screen.back + 1) % s.screen.buffers else s.screen.back
  length_stale : s'.screen.stale.length = maxBuffers
  within : ∀ r', some r' ∈ s'.screen.stale → r'.Within s.screen
  stale : ∀ b < s.screen.buffers, s'.screen.stale[b]? =
    some (if b = s.screen.back then none else some (s.screen.lag r b))
  /-- Where the buffer painted was behind it shows the ideal picture. -/
  painted : ∀ x y, (s.screen.lag r s.screen.back).Has x y →
    s'.pixel s.screen.back x y = s.ideal x y
  /-- No other pixel has changed. -/
  kept : ∀ b x y, s.screen.Has x y →
    b ≠ s.screen.back ∨ ¬ (s.screen.lag r s.screen.back).Has x y →
    s'.pixel b x y = s.pixel b x y
  /-- Every pixel written was one of the buffer painted. -/
  writes : ∀ w ∈ s'.writes, w ∈ s.writes ∨
    w.2 = s.front ∧ ∃ x y, s.screen.Has x y ∧ w.1 = s.screen.offset s.screen.back x y

theorem Screen.Sound.area_cut {screen : Screen} {r : Rect} (h : r.Within screen) :
    r.w * r.h ≤ screen.width * screen.height :=
  Nat.mul_le_mul (by have := h.right; omega) (by have := h.bottom; omega)

/-- **The back buffer brought up to date and shown.** -/
theorem wp_repaint {r : Rect} {n : ℕ} {F : Empty → Server → Prop} (hs : s.Sound)
    (hr : r.Within s.screen)
    (hroom : ¬ T → o = .on → s.screen.painted + s.screen.width * s.screen.height < 2 ^ 64 ∧
      s.screen.flips + 1 < 2 ^ 64 ∧ s.screen.flipsRefused + 1 < 2 ^ 64) :
    wp T (repaint o k r n) (fun m s' => m = n ∧ Repainted k r s s') F s := by
  rw [repaint, wp_bind]
  refine wp_damage hs.screen hr fun stale hlen hstale hwithin => ?_
  have hlag := hs.screen.lag_within hr s.screen.back
  have hsound : (s.staled stale).Sound :=
    ⟨hs.screen.replace hs.screen.back hlen hwithin, hs.count, hs.backed, hs.pointer⟩
  have hlag' : (s.screen.lag r s.screen.back).Within (s.staled stale).screen := hlag.congr rfl rfl
  rw [wp_bind, wp_clip hsound.screen, hlag'.cut_eq]
  generalize hrect : s.screen.lag r s.screen.back = rect at hlag hlag' ⊢
  obtain ⟨hright, hbottom⟩ := hlag.bounded hs.screen
  show wp T (o.add 64 rect.y rect.h >>= _) _ _ _
  rw [wp_bind, wp_fit_add hbottom, wp_bind, wp_fit_add hright, wp_bind]
  refine wp_mono (wp_paint_all (F := F) hsound hlag') (fun painted s₁ hp => ?_) fun e _ _ => e.elim
  have hpainted : painted ≤ s.screen.width * s.screen.height := by
    rw [hp.counted, length_positions, Nat.mul_comm]
    exact Screen.Sound.area_cut hlag
  have hscreen : s₁.screen = (s.staled stale).screen := by rw [hp.frame]
  rw [wp_bind, wp_get, wp_bind, hscreen]
  refine wp_add_of (fun hT ho => Nat.lt_of_le_of_lt (Nat.add_le_add_left hpainted _)
    (hroom hT ho).1) fun _ => ?_
  generalize ((s.staled stale).screen.painted + painted) % 2 ^ 64 = total
  rw [wp_bind, wp_modify, wp_bind]
  refine wp_present ?_ ?_ ?_ fun flips refused => ?_
  · rw [hscreen]
    exact hsound.screen.replace hsound.screen.back hsound.screen.length_stale hsound.screen.stale
  · intro hT ho
    rw [hscreen]
    exact (hroom hT ho).2.1
  · intro hT ho
    rw [hscreen]
    exact (hroom hT ho).2.2
  · have hframe := hp.frame
    rw [wp_pure, hscreen]
    refine ⟨rfl, ⟨?_, rfl, ?_, rfl, hlen, hwithin, hstale, ?_, ?_, ?_⟩⟩
    · rw [hframe]
      rfl
    · rw [hframe]
      rfl
    · intro x y hxy
      rw [hrect] at hxy
      have := hp.painted x y (mem_positions.mpr hxy)
      rw [hframe] at this
      exact this
    · intro b x y hxy hout
      rw [hrect] at hout
      have := hp.kept b x y hxy (hout.imp id fun hn hmem => hn (mem_positions.mp hmem))
      rw [hframe] at this
      exact this
    · intro w hw
      exact hp.writes w hw

/-- **A composite.** -/
theorem wp_composite {rect : Rect} {Q : ℕ → Server → Prop} {F : Empty → Server → Prop}
    (hs : s.Sound) (hroom : ¬ T → o = .on → s.Roomy)
    (hout : rect.cut s.screen = none → Q 0 s)
    (hin : ∀ r s', rect.cut s.screen = some r → r.Within s.screen → Repainted k r s s' →
      Q (r.w * r.h) s') :
    wp T (composite o k rect) Q F s := by
  rw [composite, wp_bind, wp_clip hs.screen]
  cases hcut : rect.cut s.screen with
  | none => exact (wp_pure _).mpr (hout hcut)
  | some r =>
    have hr := Rect.within_of_cut hcut
    have harea := hs.screen.area_le
    have hrarea := Screen.Sound.area_cut hr
    rw [bpp] at harea
    show wp T (o.mul 64 r.w r.h >>= _) _ _ _
    rw [wp_bind, wp_fit_mul (by omega), wp_bind, wp_get, wp_bind]
    refine wp_add_of (fun hT ho => Nat.lt_of_le_of_lt (Nat.add_le_add_left hrarea _)
      (hroom hT ho).asked) fun _ => ?_
    rw [wp_bind, wp_modify]
    generalize (s.screen.asked + r.w * r.h) % 2 ^ 64 = asked
    -- the total that has grown is none of what is looked at from here on
    have hsound : Server.Sound { s with screen := { s.screen with asked } } :=
      ⟨hs.screen.replace hs.screen.back hs.screen.length_stale hs.screen.stale, hs.count, hs.backed, hs.pointer⟩
    refine wp_mono (wp_repaint (F := F) hsound (hr.congr rfl rfl) fun hT ho => ?_) ?_ fun e _ _ => e.elim
    · exact ⟨(hroom hT ho).painted, (hroom hT ho).flips, (hroom hT ho).flipsRefused⟩
    · rintro _ s' ⟨rfl, h⟩
      exact hin r s' hcut hr ⟨h.frame, h.shape, h.front, h.back, h.length_stale,
        fun r' hr' => (h.within r' hr').congr rfl rfl, h.stale, h.painted, h.kept, h.writes⟩

end Display

end StarOS
