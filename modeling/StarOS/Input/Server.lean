import StarOS.Abi
import StarOS.Input.Virtio

/-!
# The input driver

The driver of a virtio input device keeps a queue of eight buffers. It decodes the events in a
filled buffer and turns them into messages: one for each key or button, and one for a movement,
which ends with a SYN event and carries the position the two axes have by then.

## Main definitions

* `Inputsrv.setup`, `Inputsrv.fillQueue` — the queue as the device first sees it
* `Inputsrv.decodeBuffer`, `Inputsrv.handleEvent`, `Inputsrv.handleEvents`
* `Inputsrv.messages` — what a stream of events should lead to

## Main results

* `Inputsrv.Tracks.handleEvents` — what is published depends on the stream alone
-/

namespace StarOS

namespace Inputsrv

open Virtio

/-- The message tags this driver publishes. -/
def tagKey : BitVec 64 := 1
def tagPointer : BitVec 64 := 4
def tagButton : BitVec 64 := 5

/-- How many buffers the queue has, and the bytes of one. -/
def queueSize : BitVec 16 := 8
def eventBufBytes : ℕ := 32

/-- The alignment of the used ring. -/
def queueAlign : ℕ := 4096

/-- What the driver keeps for a device. Its queue and its buffers are given by their offsets in the
device's part of the memory. -/
structure Device where
  queue : QueueLayout
  buffers : ℕ
  /-- How far into the used ring the driver has read. -/
  lastUsed : BitVec 16
  absX : AbsInfo
  absY : AbsInfo
  /-- The position, and whether either axis moved since the last SYN. -/
  x : BitVec 32
  y : BitVec 32
  moved : Bool

/-! ### The queue at the start -/

/-- The descriptor of buffer `i`, which the device addresses from `buffersPhys`. -/
def eventBuffer (buffersPhys : BitVec 64) (i : ℕ) : Descriptor where
  addr := buffersPhys + .ofNat 64 (i * eventBufBytes)
  len := .ofNat 32 eventBufBytes
  flags := descFWrite
  next := 0

/-- Point the first `n` descriptors at their buffers and make them available. -/
def fillQueue (queue : QueueLayout) (buffersPhys : BitVec 64) (m : ByteMemory) : ℕ → ByteMemory
  | 0 => m
  | i + 1 =>
    (writeDescriptor (fillQueue queue buffersPhys m i) (i * descBytes)
      (eventBuffer buffersPhys i)).writeHalf (queue.availRingOffset (.ofNat 16 i)) (.ofNat 16 i)

/-- The driver's record of a device and the memory of its queue, which was zero. -/
def setup (absX absY : AbsInfo) (phys : BitVec 64) : Option (Device × ByteMemory) :=
  match QueueLayout.new queueSize queueAlign with
  | none => none
  | some queue =>
    let buffersOff := (queue.total + 63) &&& (2 ^ 64 - 64)
    let m := fillQueue queue (phys + .ofNat 64 buffersOff) (fun _ => 0) queueSize.toNat
    some (⟨queue, buffersOff, 0, absX, absY, 0, 0, false⟩, m.writeHalf queue.availIdxOffset queueSize)

/-! ### Events -/

/-- A decoded event, for whoever holds the receiving end. -/
def publish (tag first second : BitVec 64) : Message := ⟨tag, Message.three first second 0, .null⟩

/-- The events in one filled buffer. -/
def decodeBuffer (d : Device) (m : ByteMemory) (id len : BitVec 32) : List InputEvent :=
  if queueSize.setWidth 32 ≤ id then []
  else InputEvent.parseAll
    (m.readBytes (d.buffers + id.toNat * eventBufBytes) (min len.toNat eventBufBytes))

/-- Turn one event into a message, or into a piece of one. -/
def handleEvent (d : Device) (e : InputEvent) : List Message × Device :=
  if e.kind = ev.key then
    if btn.isButton e.code then ([publish tagButton (e.code.setWidth 64) (e.value.setWidth 64)], d)
    else ([publish tagKey (e.code.setWidth 64) (e.value.setWidth 64)], d)
  else if e.kind = ev.abs ∧ e.code = axis.x then
    ([], { d with x := d.absX.normalise e.value, moved := true })
  else if e.kind = ev.abs ∧ e.code = axis.y then
    ([], { d with y := d.absY.normalise e.value, moved := true })
  else if e.kind = ev.syn then
    if d.moved then
      ([publish tagPointer (d.x.setWidth 64) (d.y.setWidth 64)], { d with moved := false })
    else ([], d)
  else ([], d)

/-- The events of a buffer, one after the other. -/
def handleEvents (d : Device) : List InputEvent → List Message × Device
  | [] => ([], d)
  | e :: es =>
    let (sent, d') := handleEvent d e
    let (rest, d'') := handleEvents d' es
    (sent ++ rest, d'')

/-! ### What a stream of events should lead to -/

/-- Whether this is the position of one of the two axes. -/
def isAxis (code : BitVec 16) (e : InputEvent) : Bool := e.kind = ev.abs ∧ e.code = code

/-- Whether an axis moved since the last SYN. -/
def moved (before : List InputEvent) : Bool :=
  (before.reverse.takeWhile fun e => e.kind ≠ ev.syn).any fun e => isAxis axis.x e || isAxis axis.y e

/-- Where an axis was seen last, on its scale. -/
def position (range : AbsInfo) (code : BitVec 16) (before : List InputEvent) : BitVec 32 :=
  ((before.reverse.find? (isAxis code)).map fun e => range.normalise e.value).getD 0

/-- What an event leads to after the events `before` it. -/
def message (absX absY : AbsInfo) (before : List InputEvent) (e : InputEvent) : List Message :=
  if e.kind = ev.key then
    [publish (if btn.isButton e.code then tagButton else tagKey) (e.code.setWidth 64)
      (e.value.setWidth 64)]
  else if e.kind = ev.syn ∧ moved before then
    [publish tagPointer ((position absX axis.x before).setWidth 64)
      ((position absY axis.y before).setWidth 64)]
  else []

/-- What a stream of events leads to. -/
def messages (absX absY : AbsInfo) (es : List InputEvent) : List Message :=
  (List.range es.length).flatMap fun k => (es[k]?).toList.flatMap (message absX absY (es.take k))

variable {absX absY : AbsInfo} {d : Device} {before es : List InputEvent} {e : InputEvent}

theorem messages_concat (absX absY : AbsInfo) (es : List InputEvent) (e : InputEvent) :
    messages absX absY (es ++ [e]) = messages absX absY es ++ message absX absY es e := by
  rw [messages, List.length_append, List.length_singleton, List.range_succ, List.flatMap_append,
    List.flatMap_singleton, List.getElem?_concat_length, List.take_left]
  refine congrArg₂ (· ++ ·) (List.flatMap_congr fun k hk => ?_) (List.flatMap_singleton ..)
  have hlt := List.mem_range.mp hk
  rw [List.getElem?_append_left hlt, List.take_append_of_le_length hlt.le]

theorem position_concat (range : AbsInfo) (code : BitVec 16) :
    position range code (before ++ [e]) =
      if isAxis code e then range.normalise e.value else position range code before := by
  rw [position, List.reverse_append, List.reverse_singleton, List.singleton_append, List.find?_cons]
  cases isAxis code e <;> rfl

theorem moved_concat : moved (before ++ [e]) =
    (decide (e.kind ≠ ev.syn) && (isAxis axis.x e || isAxis axis.y e || moved before)) := by
  rw [moved, List.reverse_append, List.reverse_singleton, List.singleton_append, List.takeWhile_cons]
  by_cases hsyn : e.kind = ev.syn
  · simp [hsyn]
  · simp [hsyn, moved]

/-- What the driver keeps is what the stream says. -/
structure Tracks (absX absY : AbsInfo) (d : Device) (es : List InputEvent) : Prop where
  rangeX : d.absX = absX
  rangeY : d.absY = absY
  x : d.x = position absX axis.x es
  y : d.y = position absY axis.y es
  moved : d.moved = moved es

theorem isAxis_eq_false {code : BitVec 16} (h : e.kind ≠ ev.abs) : isAxis code e = false :=
  decide_eq_false fun hboth => h hboth.1

/-- What the driver has to keep when one more event came. -/
theorem Tracks.concat {d' : Device} (h : Tracks absX absY d es) (hrangeX : d'.absX = d.absX)
    (hrangeY : d'.absY = d.absY)
    (hx : d'.x = if isAxis axis.x e then d.absX.normalise e.value else d.x)
    (hy : d'.y = if isAxis axis.y e then d.absY.normalise e.value else d.y)
    (hmoved : d'.moved =
      (decide (e.kind ≠ ev.syn) && (isAxis axis.x e || isAxis axis.y e || d.moved))) :
    Tracks absX absY d' (es ++ [e]) where
  rangeX := hrangeX.trans h.rangeX
  rangeY := hrangeY.trans h.rangeY
  x := by rw [hx, position_concat, h.rangeX, h.x]
  y := by rw [hy, position_concat, h.rangeY, h.y]
  moved := by rw [hmoved, moved_concat, h.moved]

/-- **One event.** -/
theorem Tracks.handleEvent (h : Tracks absX absY d es) (e : InputEvent) :
    (handleEvent d e).1 = message absX absY es e ∧
      Tracks absX absY (handleEvent d e).2 (es ++ [e]) := by
  rw [Inputsrv.handleEvent, message]
  by_cases hkey : e.kind = ev.key
  · have habs : e.kind ≠ ev.abs := hkey ▸ by decide
    have hsyn : e.kind ≠ ev.syn := hkey ▸ by decide
    have hstays : Tracks absX absY d (es ++ [e]) :=
      h.concat rfl rfl (by simp [isAxis_eq_false habs]) (by simp [isAxis_eq_false habs])
        (by simp [isAxis_eq_false habs, hsyn])
    rw [if_pos hkey, if_pos hkey]
    split_ifs <;> exact ⟨rfl, hstays⟩
  rw [if_neg hkey, if_neg hkey]
  by_cases hx : e.kind = ev.abs ∧ e.code = axis.x
  · have hsyn : e.kind ≠ ev.syn := hx.1 ▸ by decide
    have haxis : isAxis axis.x e = true := decide_eq_true hx
    have hother : isAxis axis.y e = false :=
      decide_eq_false fun hy => absurd (hx.2.symm.trans hy.2) (by decide)
    rw [if_pos hx, if_neg fun hboth => hsyn hboth.1]
    exact ⟨rfl, h.concat rfl rfl (by simp [haxis]) (by simp [hother]) (by simp [haxis, hsyn])⟩
  have hxaxis : isAxis axis.x e = false := decide_eq_false hx
  rw [if_neg hx]
  by_cases hy : e.kind = ev.abs ∧ e.code = axis.y
  · have hsyn : e.kind ≠ ev.syn := hy.1 ▸ by decide
    have haxis : isAxis axis.y e = true := decide_eq_true hy
    rw [if_pos hy, if_neg fun hboth => hsyn hboth.1]
    exact ⟨rfl, h.concat rfl rfl (by simp [hxaxis]) (by simp [haxis]) (by simp [haxis, hsyn])⟩
  have hyaxis : isAxis axis.y e = false := decide_eq_false hy
  rw [if_neg hy]
  by_cases hsyn : e.kind = ev.syn
  · rw [if_pos hsyn]
    by_cases hm : d.moved = true
    · rw [if_pos hm, if_pos ⟨hsyn, h.moved ▸ hm⟩, h.x, h.y]
      exact ⟨rfl, h.concat rfl rfl (by simp [hxaxis, h.x]) (by simp [hyaxis, h.y])
        (by simp [hsyn])⟩
    · rw [if_neg hm, if_neg fun hboth => hm (h.moved.trans hboth.2)]
      exact ⟨rfl, h.concat rfl rfl (by simp [hxaxis]) (by simp [hyaxis]) (by simp [hsyn, hm])⟩
  · rw [if_neg hsyn, if_neg fun hboth => hsyn hboth.1]
    exact ⟨rfl, h.concat rfl rfl (by simp [hxaxis]) (by simp [hyaxis])
      (by simp [hxaxis, hyaxis, hsyn])⟩

/-- The driver's own fields of the queue are not touched by events. -/
theorem handleEvent_queue (d : Device) (e : InputEvent) :
    (handleEvent d e).2.queue = d.queue ∧ (handleEvent d e).2.buffers = d.buffers ∧
      (handleEvent d e).2.lastUsed = d.lastUsed := by
  rw [handleEvent]
  split_ifs <;> exact ⟨rfl, rfl, rfl⟩

theorem handleEvents_queue (d : Device) (es : List InputEvent) :
    (handleEvents d es).2.queue = d.queue ∧ (handleEvents d es).2.buffers = d.buffers ∧
      (handleEvents d es).2.lastUsed = d.lastUsed := by
  induction es generalizing d with
  | nil => exact ⟨rfl, rfl, rfl⟩
  | cons e es ih =>
    obtain ⟨hqueue, hbuffers, hlast⟩ := ih (handleEvent d e).2
    obtain ⟨hqueue', hbuffers', hlast'⟩ := handleEvent_queue d e
    exact ⟨hqueue.trans hqueue', hbuffers.trans hbuffers', hlast.trans hlast'⟩

/-- **The events of a buffer**: what is published depends on the stream alone. -/
theorem Tracks.handleEvents (h : Tracks absX absY d before) (es : List InputEvent) :
    messages absX absY before ++ (handleEvents d es).1 = messages absX absY (before ++ es) ∧
      Tracks absX absY (handleEvents d es).2 (before ++ es) := by
  induction es generalizing d before with
  | nil => exact ⟨by rw [List.append_nil, Inputsrv.handleEvents, List.append_nil],
      by rwa [List.append_nil]⟩
  | cons e es ih =>
    obtain ⟨hsent, htracks⟩ := h.handleEvent e
    obtain ⟨hrest, hfinal⟩ := ih htracks
    rw [List.append_assoc, List.singleton_append] at hrest hfinal
    refine ⟨?_, hfinal⟩
    rw [← hrest, messages_concat, ← hsent, List.append_assoc]
    rfl

end Inputsrv

end StarOS
