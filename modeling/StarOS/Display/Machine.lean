import StarOS.Display.Outbox
import StarOS.Lib.ByteMemory
import StarOS.Lib.Checked

/-!
# The display server

The server owns the screen. Its clients delegate buffers, tell it where on the screen each is to
be shown and which part of one has changed, and it paints the part of the screen that is affected,
every surface that covers it over the one below.

With two buffers it paints into the one that is not being scanned out and then asks the kernel to
show that one. The buffer it paints into next is then one frame behind, so the server keeps for
each buffer the region where it differs from what the screen should show.

What the kernel and the hardware answer (`Answers`) comes with each request. Client memory is
what the clients make of it. Arithmetic is that of a build with or without overflow checks (`o`);
reading a pixel outside the buffers the kernel has mapped, or writing one outside the framebuffer
mapping, is an access out of bounds.

## Main definitions

* `Display.Rect`, `Display.union`, `Display.Rect.clip`
* `Display.Screen`, `Display.Surface`, `Display.Compositor`, `Display.Server`
* `Display.composite`
* `Display.create`, `Display.commit`, `Display.raise`, `Display.destroy`, `Display.watch`
* `Display.serve`, `Display.bury`, `Display.point`
-/

namespace StarOS

namespace Display

open Checked

/-! ### Data -/

/-- Bytes per pixel. -/
def bpp : ℕ := 4

/-- Bytes in a page. -/
def page : ℕ := 4096

/-- The most buffers this server will use. -/
def maxBuffers : ℕ := 2

/-- How many surfaces may exist at once. -/
def maxSurfaces : ℕ := 8

/-- The background this server paints before serving anyone. -/
def background : BitVec 32 := 0x00102030

/-- A rectangle in screen coordinates. -/
structure Rect where
  x : ℕ
  y : ℕ
  w : ℕ
  h : ℕ
  deriving DecidableEq, Repr

/-- The framebuffer as this process sees it. -/
structure Screen where
  width : ℕ
  height : ℕ
  stride : ℕ
  /-- How many buffers the mapping covers, at least one. -/
  buffers : ℕ
  /-- Bytes from one buffer to the next. -/
  plane : ℕ
  /-- The buffer being drawn into, never the one on screen when there are two. -/
  back : ℕ
  /-- Handle of the scanout capability, or 0 if the kernel granted none. -/
  scanout : Handle
  /-- Per buffer, the region where it differs from what the screen should show. -/
  stale : List (Option Rect)
  /-- Pixels the callers asked to repaint, and pixels actually written. -/
  asked : ℕ
  painted : ℕ
  /-- Flips this server requested, and flips the kernel refused. -/
  flips : ℕ
  flipsRefused : ℕ

/-- One client surface: where its pixels are in our space, how big it is, and where it sits on
screen. -/
structure Surface where
  id : ℕ
  /-- Which client asked for it. -/
  owner : ℕ
  pixels : ℕ
  width : ℕ
  height : ℕ
  x : ℕ
  y : ℕ
  deriving DecidableEq, Repr

/-- Every surface, bottom of the stack first: the first `count` slots of an array. -/
structure Compositor where
  slots : ℕ → Surface
  count : ℕ
  nextId : ℕ

/-- The slots in use. -/
def Compositor.live (c : Compositor) : List Surface := (List.range c.count).map c.slots

/-- Where the compositor's time goes. -/
structure Profile where
  frames : ℕ
  pixels : ℕ
  totalNs : ℕ
  worstNs : ℕ
  worstPixels : ℕ
  unmeasured : ℕ

/-- Where the pointer is on the screen and which of its buttons are down. -/
structure Pointer where
  x : ℕ
  y : ℕ
  buttons : BitVec 64
  /-- Whether a position has ever arrived. -/
  seen : Bool

/-- A buffer the kernel has mapped into this process. -/
structure Mapping where
  va : ℕ
  len : ℕ
  deriving DecidableEq

/-- The server, with the memory it reads and the framebuffer it writes. -/
structure Server where
  compositor : Compositor
  screen : Screen
  focus : Option Client
  watches : Client → Handle
  pointer : Pointer
  profile : Profile
  /-- The buffers the kernel has mapped here, and what is in them. -/
  maps : List Mapping
  mem : ByteMemory
  /-- The framebuffer mapping, by offset, and the buffer being scanned out. -/
  fb : ByteMemory
  front : ℕ
  /-- Every pixel written, by its offset, with the buffer being scanned out then. -/
  writes : List (ℕ × ℕ)

/-- The most pages the kernel gives a shared buffer. -/
def maxSharedPages : ℕ := 2048

/-- What the kernel answers while one request is served: the size and the address of a delegated
buffer, a flip, and the clock before and after compositing. Each is a signed machine word. -/
structure Answers where
  pages : ℤ
  va : ℤ
  flip : ℤ
  start : ℤ
  stop : ℤ
  /-- A buffer is one the kernel has made. -/
  pages_le : pages ≤ maxSharedPages
  stop_lt : stop < 2 ^ 63

/-- Why a request is refused. -/
inductive Refusal
  /-- The request itself is wrong: unknown tag, no buffer, zero geometry. -/
  | malformed
  /-- No surface by that id, never created or already destroyed. -/
  | noSurface
  /-- The buffer is smaller than the geometry claims, or would not map. -/
  | buffer
  /-- No room for another surface. -/
  | full
  deriving DecidableEq, Repr

/-- Request tags. -/
def tagCreate : BitVec 64 := 1
def tagCommit : BitVec 64 := 3
def tagRaise : BitVec 64 := 4
def tagDestroy : BitVec 64 := 5
def tagScreen : BitVec 64 := 6
def tagWatch : BitVec 64 := 7
def tagFocus : BitVec 64 := 8
def tagBye : BitVec 64 := 9

/-- The tag of a pointer message to a client. -/
def tagInputPointer : BitVec 64 := 4

/-- The only pixel format this server composites. -/
def formatXrgb8888 : BitVec 64 := 1

/-- The full range of a device's axis. -/
def axisScale : ℕ := 65535

variable {ε : Type} (o : OverflowChecks) (k : Answers)

/-! ### Rectangles -/

/-- The smallest rectangle covering both. -/
def union (a b : Rect) : Checked Server ε Rect := do
  let x := if a.x < b.x then a.x else b.x
  let y := if a.y < b.y then a.y else b.y
  let ar ← o.add 64 a.x a.w
  let br ← o.add 64 b.x b.w
  let right := if ar > br then ar else br
  let ab ← o.add 64 a.y a.h
  let bb ← o.add 64 b.y b.h
  let bottom := if ab > bb then ab else bb
  return { x, y, w := ← o.sub 64 right x, h := ← o.sub 64 bottom y }

/-- This rectangle cut down to the screen, or `none` if none of it is on it. -/
def Rect.clip (self : Rect) : Checked Server ε (Option Rect) := do
  let screen := (← get).screen
  if self.x ≥ screen.width ∨ self.y ≥ screen.height ∨ self.w = 0 ∨ self.h = 0 then
    return none
  let w := min self.w (← o.sub 64 screen.width self.x)
  let h := min self.h (← o.sub 64 screen.height self.y)
  return some { x := self.x, y := self.y, w, h }

/-- The positions a loop over a rectangle visits, row by row, for a rectangle whose far corner is
`(right, bottom)`. -/
def positions (rect : Rect) (right bottom : ℕ) : List (ℕ × ℕ) :=
  (List.range' rect.y (bottom - rect.y)).flatMap fun sy =>
    (List.range' rect.x (right - rect.x)).map fun sx => (sx, sy)

/-! ### The screen -/

/-- Store a pixel in the framebuffer mapping. -/
def writePixel (offset : ℕ) (colour : BitVec 32) : Checked Server ε Unit := do
  let s ← get
  if offset + bpp ≤ s.screen.buffers * s.screen.plane then
    set { s with fb := s.fb.writeWord offset colour, writes := (offset, s.front) :: s.writes }
  else throw .bounds

/-- Write one pixel into the back buffer, clipped. -/
def put (x y : ℕ) (colour : BitVec 32) : Checked Server ε Unit := do
  let screen := (← get).screen
  if x ≥ screen.width ∨ y ≥ screen.height then
    return ()
  let row ← o.mul 64 y screen.stride
  let start ← o.mul 64 screen.back screen.plane
  let offset ← o.add 64 (← o.add 64 start row) (← o.mul 64 x bpp)
  writePixel offset colour

/-- One turn of the loop of `damage`: buffer `i` falls behind by `rect`. -/
def fallBehind (rect : Rect) (i : ℕ) : Checked Server ε Unit := do
  let behind ← match ← index (← get).screen.stale i with
    | some had => union o had rect
    | none => pure rect
  modify fun s => { s with screen := { s.screen with stale := s.screen.stale.set i (some behind) } }

/-- Record that `rect` of the true screen content has changed, and answer with the region the back
buffer must be repainted over. -/
def damage (rect : Rect) : Checked Server ε Rect := do
  (List.range (← get).screen.buffers).foldlM (fun _ i => fallBehind o rect i) ()
  let s ← get
  let repaint := (← index s.screen.stale s.screen.back).getD rect
  set { s with screen := { s.screen with stale := s.screen.stale.set s.screen.back none } }
  return repaint

/-- Show the back buffer and start drawing into the other one. A kernel that accepts the flip scans
that buffer out from then on. -/
def present : Checked Server ε Unit := do
  let s ← get
  if s.screen.buffers < 2 ∨ s.screen.scanout = .null then
    return ()
  if k.flip < 0 then
    let refused ← o.add 64 s.screen.flipsRefused 1
    set { s with screen := { s.screen with flipsRefused := refused } }
    return ()
  let flips ← o.add 64 s.screen.flips 1
  let back := (← o.add 64 s.screen.back 1) % s.screen.buffers
  set { s with front := s.screen.back, screen := { s.screen with flips, back } }

/-! ### Surfaces -/

/-- Load a pixel of a client's buffer. -/
def readPixel (pixels i : ℕ) : Checked Server ε (BitVec 32) := do
  let s ← get
  if ∃ m ∈ s.maps, m.va = pixels ∧ i * bpp + bpp ≤ m.len then
    return s.mem.readWord (pixels + i * bpp)
  else throw .bounds

/-- The colour at a screen position, if this surface covers it. -/
def Surface.at (self : Surface) (sx sy : ℕ) : Checked Server ε (Option (BitVec 32)) := do
  if sx < self.x ∨ sy < self.y then
    return none
  let col ← o.sub 64 sx self.x
  let row ← o.sub 64 sy self.y
  if col ≥ self.width ∨ row ≥ self.height then
    return none
  let i ← o.add 64 (← o.mul 64 row self.width) col
  return some (← readPixel self.pixels i)

/-- The array from `start` up to `stop`, copied to `dest`. -/
def copyWithin (start stop dest : ℕ) : Checked Server ε Unit := do
  if start ≤ stop ∧ stop ≤ maxSurfaces ∧ dest + (stop - start) ≤ maxSurfaces then
    modify fun s => { s with compositor := { s.compositor with
      slots := fun i => if dest ≤ i ∧ i < dest + (stop - start)
        then s.compositor.slots (start + (i - dest)) else s.compositor.slots i } }
  else throw .bounds

/-- An entry of the array. -/
def slot (i : ℕ) : Checked Server ε Surface := do
  if i < maxSurfaces then
    return (← get).compositor.slots i
  else throw .bounds

/-- Store an entry of the array. -/
def setSlot (i : ℕ) (surface : Surface) : Checked Server ε Unit := do
  if i < maxSurfaces then
    modify fun s => { s with compositor := { s.compositor with
      slots := Function.update s.compositor.slots i surface } }
  else throw .bounds

/-- The slots in use, as a slice of the array. -/
def live : Checked Server ε (List Surface) := do
  let c := (← get).compositor
  if c.count ≤ maxSurfaces then
    return c.live
  else throw .bounds

/-- The index of `owner`'s surface with this id, if it is live. -/
def indexOf (owner id : ℕ) : Checked Server ε (Option ℕ) :=
  return (← live).findIdx? fun s => s.id = id ∧ s.owner = owner

/-- Add a surface at the top of the stack and return its id. -/
def add (owner pixels width height x y : ℕ) : Checked Server ε (Option ℕ) := do
  let c := (← get).compositor
  if c.count = maxSurfaces then
    return none
  let id := c.nextId
  let nextId ← o.add 64 c.nextId 1
  modify fun s => { s with compositor := { s.compositor with nextId } }
  setSlot c.count { id, owner, pixels, width, height, x, y }
  let count ← o.add 64 c.count 1
  modify fun s => { s with compositor := { s.compositor with count } }
  return some id

/-- Remove a surface, closing the gap so the stack stays contiguous. -/
def remove (index : ℕ) : Checked Server ε Unit := do
  let c := (← get).compositor
  copyWithin (← o.add 64 index 1) c.count index
  let count ← o.sub 64 c.count 1
  modify fun s => { s with compositor := { s.compositor with count } }

/-- Move a surface to the top, keeping everything below it in order. -/
def raiseSlot (index : ℕ) : Checked Server ε Unit := do
  let surface ← slot index
  let c := (← get).compositor
  copyWithin (← o.add 64 index 1) c.count index
  setSlot (← o.sub 64 c.count 1) surface

/-- The corners of a region. -/
structure Bounds where
  x0 : ℕ
  y0 : ℕ
  x1 : ℕ
  y1 : ℕ

/-- One turn of the loop of `removeOwner`, at index `v.1` with the region `v.2` so far. -/
def removeOwnerTurn (owner : ℕ) (v : ℕ × Option Bounds) :
    Checked Server ε ((ℕ × Option Bounds) ⊕ Option Bounds) := do
  let (i, bounds) := v
  if ¬ i < (← get).compositor.count then
    return .inr bounds
  let s ← slot i
  if s.owner ≠ owner then
    return .inl (← o.add 64 i 1, bounds)
  let right ← o.add 64 s.x s.width
  let bottom ← o.add 64 s.y s.height
  let bounds := match bounds with
    | none => { x0 := s.x, y0 := s.y, x1 := right, y1 := bottom }
    | some b => { x0 := min b.x0 s.x, y0 := min b.y0 s.y, x1 := max b.x1 right, y1 := max b.y1 bottom }
  remove o i
  return .inl (i, some bounds)

/-- Take every surface belonging to `owner` off the stack, returning the rectangle that covers all
of them, or `none` if the client had none. -/
def removeOwner (owner : ℕ) : Checked Server ε (Option Rect) := do
  match ← loop (removeOwnerTurn o owner) (maxSurfaces + 1) (0, none) with
  | none => return none
  | some b =>
    return some { x := b.x0, y := b.y0, w := ← o.sub 64 b.x1 b.x0, h := ← o.sub 64 b.y1 b.y0 }

/-- The topmost of the lowest `n` surfaces covering a screen position, if any. -/
def topmostAt (sx sy : ℕ) : ℕ → Checked Server ε (Option ℕ)
  | 0 => return none
  | i + 1 => do
    let surface ← slot i
    if (← surface.at o sx sy).isSome then
      return some i
    else topmostAt sx sy i

/-- The colour of the screen at a position: the background, and over it every surface that covers
the position, from the bottom up. -/
def colourAt (sx sy : ℕ) : Checked Server ε (BitVec 32) := do
  (← live).foldlM (fun colour surface => return (← surface.at o sx sy).getD colour) background

/-- Paint one position, and count it. -/
def paint (painted : ℕ) (pos : ℕ × ℕ) : Checked Server ε ℕ := do
  put o pos.1 pos.2 (← colourAt o pos.1 pos.2)
  o.add 64 painted 1

/-- Paint the back buffer wherever it is behind once `rect` has changed, show it, and return
`damaged`. -/
def repaint (rect : Rect) (damaged : ℕ) : Checked Server Empty ℕ := do
  let some rect ← (← damage o rect).clip o | return 0
  let bottom ← o.add 64 rect.y rect.h
  let right ← o.add 64 rect.x rect.w
  let painted ← (positions rect right bottom).foldlM (paint o) 0
  let painted ← o.add 64 (← get).screen.painted painted
  modify fun s => { s with screen := { s.screen with painted } }
  present o k
  return damaged

/-- Repaint one rectangle of the screen from every surface that overlaps it, show the result, and
return how many pixels the caller asked for. -/
def composite (rect : Rect) : Checked Server Empty ℕ := do
  let some rect ← rect.clip o | return 0
  let damaged ← o.mul 64 rect.w rect.h
  let asked ← o.add 64 (← get).screen.asked damaged
  modify fun s => { s with screen := { s.screen with asked } }
  repaint o k rect damaged

/-! ### Requests -/

/-- What the kernel does to the server's address space when asked to map a buffer: it maps it if it
answers with an address. -/
def mapShared : Checked Server ε Unit :=
  modify fun s => { s with
    maps := if 0 ≤ k.va then ⟨k.va.toNat, k.pages.toNat * page⟩ :: s.maps else s.maps }

/-- Map a delegated buffer and check it really holds `width * height` pixels. -/
def acceptBuffer (cap : Handle) (width height : ℕ) : Checked Server Refusal ℕ := do
  require (cap ≠ .null) .malformed
  mapShared k
  require (0 < k.pages ∧ 0 ≤ k.va) .buffer
  let needed := (checkedMul 64 width height).bind fun p => checkedMul 64 p bpp
  match needed with
  | some bytes => do
    require (bytes ≤ (← o.mul 64 k.pages.toNat page)) .buffer
    return k.va.toNat
  | none => fail .buffer

/-- `Create`: map the delegated buffer, check it is big enough for the geometry the client claims,
and put a surface at the top of the stack. -/
def create (owner : ℕ) (msg : Message) : Checked Server Refusal ℕ := do
  let width := (msg.words.get 0).toNat
  let height := (msg.words.get 1).toNat
  let x := (msg.words.get 2).toNat
  let y := (msg.words.get 3).toNat
  require (width ≠ 0 ∧ height ≠ 0) .malformed
  let pixels ← acceptBuffer o k msg.cap width height
  ofOption .full (← add o owner pixels width height x y)

/-- The low and high halves of a packed pair. -/
def low (word : BitVec 64) : ℕ := word.toNat % 2 ^ 32
def high (word : BitVec 64) : ℕ := word.toNat / 2 ^ 32

/-- Record one composite. -/
def Profile.record (self : Profile) (pixels ns : ℕ) : Checked Server ε Profile := do
  let frames ← o.add 64 self.frames 1
  let pixels' ← o.add 64 self.pixels pixels
  let totalNs ← o.add 64 self.totalNs ns
  return { self with
    frames, totalNs, pixels := pixels'
    worstNs := if ns > self.worstNs then ns else self.worstNs
    worstPixels := if ns > self.worstNs then pixels else self.worstPixels }

/-- A buffer that comes with a commit is shown instead of the one the surface had. -/
def swapBuffer (cap : Handle) (index : ℕ) : Checked Server Refusal Unit := do
  if cap = .null then
    return ()
  let s ← slot index
  let pixels ← acceptBuffer o k cap s.width s.height
  setSlot index { s with pixels }

/-- What a commit says has changed, on the screen. -/
def commitDamage (owner : ℕ) (msg : Message) : Checked Server Refusal Rect := do
  let index ← ofOption .noSurface (← indexOf owner (msg.words.get 0).toNat)
  swapBuffer o k msg.cap index
  let surface ← slot index
  let dx := low (msg.words.get 1)
  let dy := high (msg.words.get 1)
  let dw := low (msg.words.get 2)
  let dh := high (msg.words.get 2)
  require (¬ (dx ≥ surface.width ∨ dy ≥ surface.height ∨ dw = 0 ∨ dh = 0)) .malformed
  return {
    x := ← o.add 64 surface.x dx
    y := ← o.add 64 surface.y dy
    w := min dw (← o.sub 64 surface.width dx)
    h := min dh (← o.sub 64 surface.height dy) }

/-- The profile after one composite, if the clock could be read at both ends or if it could not. -/
def Profile.measured (self : Profile) (painted : ℕ) : Checked Server ε Profile :=
  if 0 ≤ k.start ∧ 0 ≤ k.stop then self.record o painted (k.stop - k.start).toNat
  else return { self with unmeasured := ← o.add 64 self.unmeasured 1 }

/-- The measurement around one composite. -/
def measure (painted : ℕ) : Checked Server Empty Unit := do
  let profile ← (← get).profile.measured o k painted
  modify fun s => { s with profile }

/-- `Commit`: recomposite the rectangle the client says changed. -/
def commit (owner : ℕ) (msg : Message) : Checked Server Refusal ℕ := do
  let rect ← commitDamage o k owner msg
  total do
    let painted ← composite o k rect
    measure o k painted
    return painted

/-- The place of a surface on the screen. -/
def Surface.rect (s : Surface) : Rect := ⟨s.x, s.y, s.width, s.height⟩

/-- What a raise has to repaint, with the surface moved to the top. -/
def raiseDamage (owner : ℕ) (msg : Message) : Checked Server Refusal Rect := do
  let index ← ofOption .noSurface (← indexOf owner (msg.words.get 0).toNat)
  raiseSlot o index
  return (← slot (← o.sub 64 (← get).compositor.count 1)).rect

/-- `Raise`: move a surface to the top and repaint the area it covers. -/
def raise (owner : ℕ) (msg : Message) : Checked Server Refusal ℕ := do
  let rect ← raiseDamage o owner msg
  total (composite o k rect)

/-- What a destroy has to repaint, with the surface gone. -/
def destroyDamage (owner : ℕ) (msg : Message) : Checked Server Refusal Rect := do
  let index ← ofOption .noSurface (← indexOf owner (msg.words.get 0).toNat)
  let surface ← slot index
  remove o index
  return surface.rect

/-- `Destroy`: forget the surface and repaint what it used to cover. -/
def destroy (owner : ℕ) (msg : Message) : Checked Server Refusal ℕ := do
  let rect ← destroyDamage o owner msg
  total (composite o k rect)

/-- `Watch`: remember the notification a client delegated. -/
def watch (client : Client) (msg : Message) : Checked Server Refusal ℕ := do
  require (msg.cap ≠ .null) .malformed
  modify fun s => { s with watches := Function.update s.watches client msg.cap }
  return 1

/-- What becomes of a request that is answered in one word. -/
def outcome (client : Client) (msg : Message) : Checked Server Refusal ℕ :=
  if msg.tag = tagCreate then create o k client msg
  else if msg.tag = tagCommit then commit o k client msg
  else if msg.tag = tagRaise then raise o k client msg
  else if msg.tag = tagDestroy then destroy o k client msg
  else if msg.tag = tagWatch then watch client msg
  else if msg.tag = tagFocus then do
    modify fun s => { s with focus := some client }
    return 1
  else fail .malformed

/-- One request of a client: what it is answered with, in the first word or in all four. -/
def serve (client : Client) (msg : Message) : Checked Server Refusal (List ℕ) := do
  if msg.tag = tagBye then
    return [0]
  if msg.tag = tagScreen then
    let screen := (← get).screen
    return [screen.width, screen.height, bpp * 8, formatXrgb8888.toNat]
  return [← outcome o k client msg]

/-- Paint again what the windows of a dead client covered, if it had any. -/
def uncover : Option Rect → Checked Server Empty Unit
  | some rect => do
    let _ ← composite o k rect
    return ()
  | none => return ()

/-- The server no longer watching a client. -/
def Server.unwatched (s : Server) (client : Client) : Server :=
  { s with watches := Function.update s.watches client .null }

/-- The keyboard does not stay pointed at a client that is gone. -/
def Server.unfocused (s : Server) (client : Client) : Server :=
  { s with focus := if s.focus = some client then none else s.focus }

/-- A client's death: it is no longer watched, its windows come off the screen, and the keyboard
does not stay pointed at it. -/
def bury (dead : Client) : Checked Server Empty Unit := do
  modify fun s => s.unwatched dead
  uncover o k (← removeOwner o dead)
  modify fun s => s.unfocused dead

/-! ### The pointer -/

/-- Turn one axis of a device-relative position into a pixel on this screen. -/
def toPixels (fraction : BitVec 64) (extent : ℕ) : Checked Server ε ℕ := do
  if extent = 0 then
    return 0
  let f := min fraction.toNat axisScale
  return (← o.mul 64 f (← o.sub 64 extent 1)) / axisScale

/-- Two 32-bit values in one word. -/
def pack (low high : ℕ) : BitVec 64 :=
  BitVec.ofNat 64 (low % 2 ^ 32) ||| (BitVec.ofNat 64 high <<< 32)

/-- The pointer's state in the coordinates of the surface under it, with the client it is for. -/
def deliverPointer : Checked Server ε (Option (ℕ × Message)) := do
  let pointer := (← get).pointer
  if ¬ pointer.seen then
    return none
  match ← topmostAt o pointer.x pointer.y (← get).compositor.count with
  | none => return none
  | some index =>
    let surface ← slot index
    let word0 := pack (← o.sub 64 pointer.x surface.x) (← o.sub 64 pointer.y surface.y)
    return some (surface.owner, { Message.new tagInputPointer with
      words := #v[word0, pack pointer.x pointer.y, pointer.buttons, BitVec.ofNat 64 surface.id] })

/-- What the input driver says of the pointer. -/
inductive PointerEvent
  /-- A position, each axis a fraction of the device. -/
  | moved (x y : BitVec 64)
  /-- One button changed. -/
  | button (code : BitVec 64) (down : Bool)

/-- Which bit of the button mask each button occupies. -/
def buttonBit (code : BitVec 64) : BitVec 64 :=
  if code.setWidth 16 = 0x110#16 then 1
  else if code.setWidth 16 = 0x111#16 then 2
  else if code.setWidth 16 = 0x112#16 then 4
  else 0

/-- Take a pointer event in, and route it by what is under the pointer. -/
def point : PointerEvent → Checked Server ε (Option (ℕ × Message))
  | .moved x y => do
    let screen := (← get).screen
    let px ← toPixels o x screen.width
    let py ← toPixels o y screen.height
    modify fun s => { s with pointer := { s.pointer with x := px, y := py, seen := true } }
    deliverPointer o
  | .button code down => do
    modify fun s => { s with pointer := { s.pointer with
      buttons := if down then s.pointer.buttons ||| buttonBit code
        else s.pointer.buttons &&& ~~~ buttonBit code } }
    deliverPointer o

end Display

end StarOS
