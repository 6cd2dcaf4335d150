import StarOS.Display.Machine
import StarOS.Lib.EventSystem

/-!
# Runs of the display server

The server starts with the screen the kernel seeds, paints the whole of it once, and from then on
serves requests, cleans up after clients that have died, and routes the pointer, in any order. The
clients draw in their buffers whenever they like.

What the screen should show is the ideal picture: at each position the colour of the topmost surface
that covers it, or the background.

## Main definitions

* `Display.Server.ideal`, `Display.Server.pixel` — what should be on the screen, and what is
* `Display.Event`, `Display.Session`, `Display.displayServer`
* `Display.Event.damages` — what an event has painted again
-/

namespace StarOS

namespace Display

open Checked

/-! ### Pictures -/

/-- A colour for every position. -/
abbrev Picture := ℕ → ℕ → BitVec 32

/-- A surface covers a screen position. -/
def Surface.Covers (t : Surface) (sx sy : ℕ) : Prop :=
  (t.x ≤ sx ∧ sx - t.x < t.width) ∧ t.y ≤ sy ∧ sy - t.y < t.height

instance (t : Surface) (sx sy : ℕ) : Decidable (t.Covers sx sy) := inferInstanceAs (Decidable (_ ∧ _))

/-- The address of the pixel that a surface shows at a position. -/
def Surface.address (t : Surface) (sx sy : ℕ) : ℕ :=
  t.pixels + ((sy - t.y) * t.width + (sx - t.x)) * bpp

/-- The colour of a position once a surface has been painted over `colour`. -/
def Surface.over (mem : ByteMemory) (sx sy : ℕ) (colour : BitVec 32) (t : Surface) : BitVec 32 :=
  if t.Covers sx sy then mem.readWord (t.address sx sy) else colour

/-- The ideal picture: the surfaces in stacking order over the background. -/
def Server.ideal (s : Server) : Picture := fun sx sy =>
  s.compositor.live.foldl (Surface.over s.mem sx sy) background

/-- Where a buffer keeps the pixel of a position. -/
def Screen.offset (screen : Screen) (buffer sx sy : ℕ) : ℕ :=
  buffer * screen.plane + sy * screen.stride + sx * bpp

/-- What a buffer holds. -/
def Server.pixel (s : Server) (buffer : ℕ) : Picture := fun sx sy =>
  s.fb.readWord (s.screen.offset buffer sx sy)

/-- A position of the screen. -/
def Screen.Has (screen : Screen) (sx sy : ℕ) : Prop := sx < screen.width ∧ sy < screen.height

/-- A position of a rectangle. -/
def Rect.Has (r : Rect) (sx sy : ℕ) : Prop :=
  (r.x ≤ sx ∧ sx < r.x + r.w) ∧ r.y ≤ sy ∧ sy < r.y + r.h

/-! ### Starting -/

/-- What the kernel tells the server of its screen: where the buffers are mapped, their geometry,
how many there are, and the scanout capability. -/
structure Seed where
  base : BitVec 64
  width : BitVec 32
  height : BitVec 32
  stride : BitVec 32
  buffers : BitVec 32
  scanout : Handle

/-- Bits of an address of a process. -/
def addressBits : ℕ := 48

/-- The geometry the kernel seeded, or `none` if it gave the server no screen. -/
def Screen.fromSeed (seed : Seed) : Option Screen :=
  let width := seed.width.toNat
  let height := seed.height.toNat
  let stride := seed.stride.toNat
  if seed.base = 0 ∨ width = 0 ∨ height = 0 ∨ stride < width * bpp then none
  else
    let buffers := max 1 (min seed.buffers.toNat maxBuffers)
    some {
      width, height, stride, buffers
      scanout := seed.scanout
      plane := height * stride
      back := if buffers > 1 then 1 else 0
      stale := .replicate maxBuffers (some ⟨0, 0, width, height⟩)
      asked := 0
      painted := 0
      flips := 0
      flipsRefused := 0 }

/-- No surfaces, and the first id. -/
def Compositor.new : Compositor := { slots := fun _ => ⟨0, 0, 0, 0, 0, 0, 0⟩, count := 0, nextId := 1 }

/-- A server before it has painted. The kernel left the display on buffer 0. -/
def Server.new (screen : Screen) (mem fb : ByteMemory) : Server where
  compositor := .new
  screen := screen
  focus := none
  watches := fun _ => .null
  pointer := { x := 0, y := 0, buttons := 0, seen := false }
  profile := ⟨0, 0, 0, 0, 0, 0⟩
  maps := []
  mem := mem
  fb := fb
  front := 0
  writes := []

/-- The buffers the kernel mapped for a screen, in the address space of a process. -/
def Screen.Mapped (screen : Screen) : Prop := screen.buffers * screen.plane ≤ 2 ^ addressBits

/-- The whole screen. -/
def Screen.whole (screen : Screen) : Rect := ⟨0, 0, screen.width, screen.height⟩

/-! ### Events -/

/-- What happens to the server. -/
inductive Event
  /-- It paints the screen for the first time. -/
  | start (k : Answers)
  /-- It serves a request. -/
  | request (client : Client) (msg : Message) (k : Answers)
  /-- A client has died. -/
  | death (client : Client) (k : Answers)
  /-- The input driver says something of the pointer. -/
  | pointer (e : PointerEvent)
  /-- The clients draw. -/
  | draw (mem : ByteMemory)

/-- What the kernel answers during an event, if the server asks it anything. -/
def Event.answers : Event → Option Answers
  | .start k | .request _ _ k | .death _ k => some k
  | .pointer _ | .draw _ => none

/-- A server, the surface ids it has handed out, the latest first, and what was ideal when it last
composited. -/
structure Session where
  server : Server
  handed : List ℕ
  shown : Option Picture

variable (o : OverflowChecks)

/-- The server after a run of its code that came to an answer. -/
def answered {ε α : Type} (x : Checked Server ε α) (s : Server) : Option (Option α × Server) :=
  match x s with
  | .ok a s' => some (some a, s')
  | .error (.fail _) s' => some (none, s')
  | .error _ _ => none

/-- The first half of a request that paints. -/
def requestDamage (k : Answers) (owner : ℕ) (msg : Message) : Checked Server Refusal Rect :=
  if msg.tag = tagCommit then commitDamage o k owner msg
  else if msg.tag = tagRaise then raiseDamage o owner msg
  else if msg.tag = tagDestroy then destroyDamage o owner msg
  else fail .malformed

/-- The rectangle an event gives to `composite`, if it composites, and the server it does it in. -/
def Event.damages : Event → Server → Option (Rect × Server)
  | .start _, s => some (s.screen.whole, s)
  | .request client msg k, s =>
    match requestDamage o k client msg s with
    | .ok r s' => some (r, s')
    | .error _ _ => none
  | .death client _, s =>
    match (removeOwner o client : Checked Server Empty _) (s.unwatched client) with
    | .ok (some r) s' => some (r, s')
    | _ => none
  | .pointer _, _ | .draw _, _ => none

/-- What an event does: the surface id it hands out, and the server it leaves, or `none` if the
server stops. -/
def Event.run : Event → Server → Option (Option ℕ × Server)
  | .start k, s => (answered (composite o k s.screen.whole) s).map fun r => (none, r.2)
  | .request client msg k, s =>
    (answered (serve o k client msg) s).map fun r =>
      (if msg.tag = tagCreate then r.1.bind List.head? else none, r.2)
  | .death client k, s => (answered (bury o k client) s).map fun r => (none, r.2)
  | .pointer e, s => (answered (point o e : Checked Server Empty _) s).map fun r => (none, r.2)
  | .draw mem, s => some (none, { s with mem })

/-- The server paints once when it starts, and serves only from then on. -/
def Session.Enabled (v : Session) : Event → Prop
  | .start _ => v.shown = none
  | .draw _ => True
  | _ => v.shown ≠ none

instance (v : Session) (e : Event) : Decidable (v.Enabled e) := by
  have hnone : Decidable (v.shown = none) :=
    decidable_of_iff (v.shown.isNone = true) Option.isNone_iff_eq_none
  cases e with
  | start _ => exact hnone
  | draw _ => exact isTrue trivial
  | _ => exact inferInstanceAs (Decidable (¬ v.shown = none))

/-- One event. -/
def Session.next (v : Session) (e : Event) : Option Session :=
  if v.Enabled e then
    (e.run o v.server).map fun (id, s') =>
      { server := s'
        handed := id.toList ++ v.handed
        shown := if (e.damages o v.server).isSome then some s'.ideal else v.shown }
  else none

variable {o}

/-- What a step says. -/
theorem Session.of_next {v v' : Session} {e : Event} (h : v.next o e = some v') :
    v.Enabled e ∧ ∃ id, e.run o v.server = some (id, v'.server) ∧
      v'.handed = id.toList ++ v.handed ∧
      v'.shown = if (e.damages o v.server).isSome then some v'.server.ideal else v.shown := by
  rw [Session.next] at h
  split at h
  · next hen =>
    obtain ⟨⟨id, s'⟩, hr, rfl⟩ := Option.map_eq_some_iff.mp h
    exact ⟨hen, id, hr, rfl, rfl⟩
  · simp at h

/-- A server that has started goes on. -/
theorem Session.exists_next {v : Session} {e : Event} {id : Option ℕ} {s' : Server}
    (hen : v.Enabled e) (hr : e.run o v.server = some (id, s')) (hshown : v.shown ≠ none) :
    ∃ v', v.next o e = some v' ∧ v'.server = s' ∧ v'.handed = id.toList ++ v.handed ∧
      v'.shown ≠ none := by
  refine ⟨_, by rw [Session.next, if_pos hen, hr]; rfl, rfl, rfl, ?_⟩
  show (if _ then _ else _) ≠ none
  split
  · simp
  · exact hshown

variable (o)

/-- The display server. -/
def displayServer : EventSystem Session Event where
  init v := ∃ seed screen mem fb, Screen.fromSeed seed = some screen ∧ screen.Mapped ∧
    v = ⟨Server.new screen mem fb, [], none⟩
  next := Session.next o

end Display

end StarOS
