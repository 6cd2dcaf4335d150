import Mathlib.Data.List.Perm.Basic
import StarOS.Input.Rings
import StarOS.Lib.Progress

/-!
# The driver and its device

The driver and the device work on one queue, each in its own time. The device takes buffers from the
available ring, fills them in any order with any number of events each, and shows the driver how far
it is whenever it likes. The driver wakes, reads how far the device is, and goes through the filled
buffers up to there: it decodes one, publishes, puts it back and counts on. Every index is a word of
16 bits that is only ever counted up.

## Main definitions

* `Inputsrv.inputSystem` — the driver and a device that keeps to the protocol
* `Inputsrv.State.Sound` — who has each buffer, and what stands in the rings

## Main results

* `Inputsrv.State.Sound.of_reach`
* `Inputsrv.State.Sound.exists_drain` — the driver alone gets through what it was shown
* `Inputsrv.stream_exact` — every filled buffer is decoded and given back once and in order
-/

namespace StarOS

namespace Inputsrv

open Virtio ByteMemory

/-- Where the driver is: it waits, or it is on its way to the end of the used ring as it read it,
about to decode a buffer, to put it into the available ring, or to make it available. -/
inductive Pc
  | asleep
  | draining (usedIdx : BitVec 16)
  | giving (usedIdx : BitVec 16) (id : BitVec 32)
  | advancing (usedIdx : BitVec 16) (id : BitVec 32)
  deriving DecidableEq

/-- What can happen: the driver wakes or goes on, and the device takes the next available buffer,
fills one of those it has, or shows how many more it has filled. -/
inductive Event
  | wake
  | go
  | take
  | fill (i : ℕ) (es : List InputEvent)
  | announce (n : ℕ)

/-- Whether the driver does it. -/
def Event.byDriver : Event → Bool
  | wake | go => true
  | take | fill _ _ | announce _ => false

structure State where
  mem : ByteMemory
  device : Device
  pc : Pc
  published : List Message
  /-- The buffers the device has, its own count in the available ring, and how many buffers it has
  filled and not shown. -/
  held : List (BitVec 16)
  availSeen : BitVec 16
  staged : ℕ
  /-- What the device took and filled, in order. -/
  taken : List (BitVec 16)
  filled : List (BitVec 32 × List InputEvent)
  /-- What the driver decoded and gave back, in order. -/
  decoded : List (BitVec 32 × List InputEvent)
  given : List (BitVec 16)
  /-- How many filled buffers the driver knew of when it last woke. -/
  seen : ℕ

/-- The step of the driver, once it is awake. -/
def driverStep (s : State) : Option State :=
  match s.pc with
  | .asleep => none
  | .draining usedIdx =>
    if s.device.lastUsed ≠ usedIdx then
      let e := s.device.queue.usedRingOffset s.device.lastUsed
      let id := s.mem.readWord e
      let events := decodeBuffer s.device s.mem id (s.mem.readWord (e + 4))
      let (sent, device) := handleEvents s.device events
      some { s with
        device := device
        pc := .giving usedIdx id
        published := s.published ++ sent
        decoded := s.decoded ++ [(id, events)] }
    else some { s with pc := .asleep }
  | .giving usedIdx id =>
    some { s with
      mem := s.mem.writeHalf (s.device.queue.availRingOffset s.device.lastUsed) (id.setWidth 16)
      pc := .advancing usedIdx id }
  | .advancing usedIdx id =>
    let idx := s.device.queue.availIdxOffset
    some { s with
      mem := s.mem.writeHalf idx (s.mem.readHalf idx + 1)
      device := { s.device with lastUsed := s.device.lastUsed + 1 }
      pc := .draining usedIdx
      given := s.given ++ [id.setWidth 16] }

/-- The device fills a buffer it has, where the descriptor says, and adds it to the used ring. It
never writes more than the descriptor allows. -/
def fillStep (phys : BitVec 64) (s : State) (i : ℕ) (es : List InputEvent) : Option State :=
  match s.held[i]? with
  | none => none
  | some id =>
    let d := readDescriptor s.mem (id.toNat * descBytes)
    if d.flags &&& descFWrite ≠ 0 ∧ inputEventBytes * es.length ≤ d.len.toNat then
      let m := s.mem.writeBytes (d.addr - phys).toNat (es.flatMap InputEvent.bytes)
      let e := eventq.usedRingOffset (m.readHalf eventq.usedIdxOffset + .ofNat 16 s.staged)
      some { s with
        mem := (m.writeWord e (id.setWidth 32)).writeWord (e + 4)
          (.ofNat 32 (inputEventBytes * es.length))
        held := s.held.eraseIdx i
        staged := s.staged + 1
        filled := s.filled ++ [(id.setWidth 32, es)] }
    else none

/-- One step of the driver and its device. -/
def next (phys : BitVec 64) (s : State) : Event → Option State
  | .wake =>
    if s.pc = .asleep then
      some { s with
        pc := .draining (s.mem.readHalf s.device.queue.usedIdxOffset)
        seen := s.filled.length - s.staged }
    else none
  | .go => driverStep s
  | .take =>
    if s.availSeen = s.mem.readHalf eventq.availIdxOffset then none
    else
      let id := s.mem.readHalf (eventq.availRingOffset s.availSeen)
      some { s with
        held := s.held ++ [id]
        availSeen := s.availSeen + 1
        taken := s.taken ++ [id] }
  | .fill i es => fillStep phys s i es
  | .announce n =>
    if n ≤ s.staged then
      let idx := eventq.usedIdxOffset
      some { s with
        mem := s.mem.writeHalf idx (s.mem.readHalf idx + .ofNat 16 n)
        staged := s.staged - n }
    else none

/-- The driver and a device that keeps to the protocol. They start when the queue is set up. -/
def inputSystem (absX absY : AbsInfo) (phys : BitVec 64) : EventSystem State Event where
  init s := ∃ device m, setup absX absY phys = some (device, m) ∧
    s = ⟨m, device, .asleep, [], [], 0, 0, [], [], [], [], 0⟩
  next := next phys

/-! ### Who has each buffer -/

/-- The buffers in the order they are made available at the start. -/
def buffers : List (BitVec 16) := (List.range 8).map (.ofNat 16)

namespace State

/-- The buffers that were made available, in order. -/
def offered (s : State) : List (BitVec 16) := buffers ++ s.given

/-- Those the device did not take. -/
def pending (s : State) : List (BitVec 16) := s.offered.drop s.taken.length

/-- Those that were filled and not given back. -/
def waiting (s : State) : List (BitVec 32 × List InputEvent) := s.filled.drop s.given.length

/-- The buffer the driver has put into the available ring and not made available. -/
def placed (s : State) : List (BitVec 16) :=
  match s.pc with
  | .advancing _ id => [id.setWidth 16]
  | _ => []

/-- What stands in the used ring for a filled buffer. -/
def element (b : BitVec 32 × List InputEvent) : BitVec 32 × BitVec 32 :=
  (b.1, .ofNat 32 (inputEventBytes * b.2.length))

/-- A filled buffer, as it stands in memory. -/
def Written (p : Parts) (b : BitVec 32 × List InputEvent) : Prop :=
  ∃ i : Fin 8, b.1 = .ofNat 32 i ∧ inputEventBytes * b.2.length ≤ eventBufBytes ∧
    b.2.flatMap InputEvent.bytes <+: p.buffers i

/-- A buffer that was written is decoded to the events it was filled with. -/
theorem Written.decodeBuffer {d : Device} {m : ByteMemory} {b : BitVec 32 × List InputEvent}
    (h : Written (parts m) b) (hbuffers : d.buffers = buffersOff) :
    decodeBuffer d m b.1 (element b).2 = b.2 := by
  obtain ⟨i, hid, hlen, hwritten⟩ := h
  have hi : (BitVec.ofNat 32 i).toNat = i :=
    (BitVec.toNat_ofNat ..).trans (Nat.mod_eq_of_lt (i.isLt.trans (by decide)))
  have hlt : ¬ queueSize.setWidth 32 ≤ b.1 := by
    rw [hid, BitVec.le_def, hi]
    exact Nat.not_le.mpr i.isLt
  have htoNat : (element b).2.toNat = inputEventBytes * b.2.length :=
    (BitVec.toNat_ofNat ..).trans (Nat.mod_eq_of_lt (hlen.trans_lt (by decide)))
  have hread : m.readBytes (buffersOff + i * eventBufBytes) (inputEventBytes * b.2.length) =
      b.2.flatMap InputEvent.bytes := by
    rw [← take_readBytes hlen, ← InputEvent.length_flatMap_bytes]
    exact (List.prefix_iff_eq_take.mp hwritten).symm
  rw [Inputsrv.decodeBuffer, if_neg hlt, htoNat, Nat.min_eq_left hlen, hbuffers, hid, hi, hread,
    InputEvent.parseAll_flatMap]

/-- Filling another buffer. -/
theorem Written.fill {p : Parts} {b : BitVec 32 × List InputEvent} {k : Fin 8}
    {bs : List (BitVec 8)} (h : Written p b) (hne : b.1 ≠ .ofNat 32 k) :
    Written { p with buffers := Function.update p.buffers k bs } b := by
  obtain ⟨i, hi, hlen, hwritten⟩ := h
  have hik : i ≠ k := fun heq => hne (heq ▸ hi)
  refine ⟨i, hi, hlen, ?_⟩
  show _ <+: Function.update p.buffers k bs i
  rwa [Function.update_of_ne hik]

/-- Filling the buffer itself. -/
theorem Written.of_update {p : Parts} {b : BitVec 32 × List InputEvent} {k : Fin 8}
    {bs : List (BitVec 8)} (hk : b.1 = .ofNat 32 k)
    (hlen : inputEventBytes * b.2.length ≤ eventBufBytes) :
    Written { p with
      buffers := Function.update p.buffers k (b.2.flatMap InputEvent.bytes ++ bs) } b := by
  refine ⟨k, hk, hlen, ?_⟩
  show _ <+: Function.update p.buffers k _ k
  rw [Function.update_self]
  exact List.prefix_append ..

/-- The buffer the driver has decoded and not given back. -/
def inHand (s : State) : List (BitVec 32) :=
  match s.pc with
  | .asleep | .draining _ => []
  | .giving _ id | .advancing _ id => [id]

/-- How far the driver goes before it sleeps again. -/
def Aims (s : State) : Prop :=
  match s.pc with
  | .asleep => s.seen = s.given.length
  | .draining usedIdx | .giving usedIdx _ | .advancing usedIdx _ => usedIdx = .ofNat 16 s.seen

/-- The driver and its device agree, over the parts of the queue. -/
structure Agrees (absX absY : AbsInfo) (phys : BitVec 64) (p : Parts) (s : State) : Prop where
  queue : s.device.queue = eventq
  buffersOff : s.device.buffers = Inputsrv.buffersOff
  table : ∀ i : Fin 8, p.table i = eventBuffer (phys + .ofNat 64 Inputsrv.buffersOff) i
  /-- The four counts. -/
  lastUsed : s.device.lastUsed = .ofNat 16 s.given.length
  availIdx : p.availIdx = .ofNat 16 s.offered.length
  availSeen : s.availSeen = .ofNat 16 s.taken.length
  usedIdx : p.usedIdx = .ofNat 16 (s.filled.length - s.staged)
  /-- The two rings. -/
  avail : WrapRing.Holds p.avail (.ofNat 16 s.taken.length : BitVec 16) (s.pending ++ s.placed)
  used : WrapRing.Holds p.used (.ofNat 16 s.given.length : BitVec 16) (s.waiting.map element)
  /-- Each buffer is available, with the device or filled. -/
  owners : (s.pending ++ s.held ++ s.waiting.map (·.1.setWidth 16)).Perm buffers
  taken : s.taken <+: s.offered
  written : ∀ b ∈ s.filled.drop s.decoded.length, Written p b
  decoded : s.decoded <+: s.filled
  given : s.given <+: s.decoded.map (·.1.setWidth 16)
  inHand : (s.decoded.drop s.given.length).map (·.1) = s.inHand
  seen : s.decoded.length ≤ s.seen
  staged : s.seen + s.staged ≤ s.filled.length
  aims : s.Aims
  tracks : Tracks absX absY s.device (s.decoded.flatMap (·.2))
  published : s.published = messages absX absY (s.decoded.flatMap (·.2))

/-- The driver and its device agree. -/
abbrev Sound (absX absY : AbsInfo) (phys : BitVec 64) (s : State) : Prop :=
  Agrees absX absY phys (parts s.mem) s

variable {absX absY : AbsInfo} {phys : BitVec 64} {p : Parts} {s s' : State}

theorem length_offered (s : State) : s.offered.length = 8 + s.given.length := List.length_append

namespace Agrees

theorem given_le (h : Agrees absX absY phys p s) : s.given.length ≤ s.decoded.length :=
  h.given.length_le.trans_eq (List.length_map _)

/-- There are eight buffers. -/
theorem length_owners (h : Agrees absX absY phys p s) :
    s.pending.length + s.held.length + s.waiting.length = 8 := by
  have hlen := h.owners.length_eq
  rwa [List.length_append, List.length_append, List.length_map] at hlen

theorem length_pending (h : Agrees absX absY phys p s) :
    s.taken.length + s.pending.length = 8 + s.given.length := by
  have hle := h.taken.length_le
  rw [length_offered] at hle
  rw [pending, List.length_drop, length_offered]
  omega

theorem length_waiting (h : Agrees absX absY phys p s) :
    s.given.length + s.waiting.length = s.filled.length := by
  have hle := h.given_le.trans h.decoded.length_le
  rw [waiting, List.length_drop]
  omega

/-- The entry of the used ring that is written next. -/
theorem usedIdx_add (h : Agrees absX absY phys p s) :
    p.usedIdx + .ofNat 16 s.staged = .ofNat 16 s.filled.length := by
  have hstaged := h.staged
  rw [h.usedIdx, BitVec.ofNat_add_ofNat]
  congr 1
  omega

/-! ### The steps of the driver -/

theorem wake (h : Agrees absX absY phys p s) (hpc : s.pc = .asleep) :
    Agrees absX absY phys p
      { s with pc := .draining p.usedIdx, seen := s.filled.length - s.staged } := by
  have hseen := h.seen
  have hstaged := h.staged
  have hnew : s.decoded.length ≤ s.filled.length - s.staged := by omega
  have hsum : s.filled.length - s.staged + s.staged ≤ s.filled.length := by omega
  have hplaced : s.placed = [] := by rw [placed, hpc]
  have hhand : s.inHand = [] := by rw [State.inHand, hpc]
  have havail := h.avail
  rw [hplaced] at havail
  exact { h with
    avail := havail
    inHand := h.inHand.trans hhand
    seen := hnew
    staged := hsum
    aims := h.usedIdx }

/-- With nothing in hand everything decoded was given back. -/
theorem length_decoded (h : Agrees absX absY phys p s) :
    s.decoded.length = s.given.length + s.inHand.length := by
  have hlen := congrArg List.length h.inHand
  rw [List.length_map, List.length_drop] at hlen
  have hle := h.given_le
  omega

/-- The driver stops exactly when it is where it aims. -/
theorem eq_seen (h : Agrees absX absY phys p s) (hlast : s.device.lastUsed = .ofNat 16 s.seen) :
    s.seen = s.given.length := by
  have heq : BitVec.ofNat 16 s.given.length = .ofNat 16 s.seen := h.lastUsed.symm.trans hlast
  have hval := congrArg BitVec.toNat heq
  rw [BitVec.toNat_ofNat, BitVec.toNat_ofNat] at hval
  have hseen := h.seen
  have hgiven := h.given_le
  have hstaged := h.staged
  have howners := h.length_owners
  have hwaiting := h.length_waiting
  omega

theorem sleep (h : Agrees absX absY phys p s) {usedIdx : BitVec 16} (hpc : s.pc = .draining usedIdx)
    (hlast : s.device.lastUsed = usedIdx) :
    Agrees absX absY phys p { s with pc := .asleep } := by
  have hplaced : s.placed = [] := by rw [placed, hpc]
  have hhand : s.inHand = [] := by rw [State.inHand, hpc]
  have haims : usedIdx = .ofNat 16 s.seen := by
    have haims := h.aims
    rwa [Aims, hpc] at haims
  have havail := h.avail
  rw [hplaced] at havail
  exact { h with
    avail := havail
    inHand := h.inHand.trans hhand
    aims := h.eq_seen (hlast.trans haims) }

/-- The filled buffer the driver comes to, while it is not where it aims. -/
theorem exists_waiting (h : Agrees absX absY phys p s) {usedIdx : BitVec 16}
    (hpc : s.pc = .draining usedIdx) (hlast : s.device.lastUsed ≠ usedIdx) :
    ∃ b rest, s.waiting = b :: rest ∧ s.filled.drop s.decoded.length = b :: rest ∧
      s.given.length < s.seen := by
  have haims : usedIdx = .ofNat 16 s.seen := by
    have haims := h.aims
    rwa [Aims, hpc] at haims
  have hhand : s.inHand = [] := by rw [State.inHand, hpc]
  have hlen := h.length_decoded
  rw [hhand, List.length_nil, Nat.add_zero] at hlen
  have hne : s.seen ≠ s.given.length := by
    intro heq
    rw [haims, heq] at hlast
    exact hlast h.lastUsed
  have hseen := h.seen
  have hstaged := h.staged
  have hwaiting := h.length_waiting
  obtain ⟨b, rest, hcons⟩ := List.exists_cons_of_length_pos (l := s.waiting) (by omega)
  exact ⟨b, rest, hcons, by rw [hlen]; exact hcons, by omega⟩

theorem decode (h : Agrees absX absY phys p s) {usedIdx : BitVec 16}
    {b : BitVec 32 × List InputEvent} {rest : List (BitVec 32 × List InputEvent)}
    (hpc : s.pc = .draining usedIdx) (hrest : s.filled.drop s.decoded.length = b :: rest)
    (hlt : s.given.length < s.seen) :
    Agrees absX absY phys p
      { s with
        device := (handleEvents s.device b.2).2
        pc := .giving usedIdx b.1
        published := s.published ++ (handleEvents s.device b.2).1
        decoded := s.decoded ++ [b] } := by
  have haims : usedIdx = .ofNat 16 s.seen := by
    have haims := h.aims
    rwa [Aims, hpc] at haims
  have hhand : s.inHand = [] := by rw [State.inHand, hpc]
  have hplaced : s.placed = [] := by rw [placed, hpc]
  have hlen := h.length_decoded
  rw [hhand, List.length_nil, Nat.add_zero] at hlen
  obtain ⟨hqueue, hbuffers, hlast⟩ := handleEvents_queue s.device b.2
  obtain ⟨hsent, htracks⟩ := h.tracks.handleEvents b.2
  have hflat : (s.decoded ++ [b]).flatMap (·.2) = s.decoded.flatMap (·.2) ++ b.2 := by
    rw [List.flatMap_append, List.flatMap_singleton]
  have hpfx : s.decoded ++ [b] <+: s.filled := by
    refine ⟨rest, ?_⟩
    rw [List.append_assoc, List.singleton_append, ← hrest]
    exact List.prefix_iff_eq_append.mp h.decoded
  have hdrop : (s.decoded ++ [b]).drop s.given.length = [b] := by
    rw [← hlen, List.drop_left]
  have havail := h.avail
  rw [hplaced] at havail
  have hseen : (s.decoded ++ [b]).length ≤ s.seen := by
    rw [List.length_append, List.length_singleton, hlen]
    exact hlt
  exact { h with
    queue := hqueue.trans h.queue
    buffersOff := hbuffers.trans h.buffersOff
    lastUsed := hlast.trans h.lastUsed
    avail := havail
    written := fun c hc => h.written c <| by
      rw [List.length_append] at hc
      rw [← List.drop_drop] at hc
      exact List.mem_of_mem_drop hc
    decoded := hpfx
    given := h.given.trans (by rw [List.map_append]; exact List.prefix_append ..)
    inHand := congrArg (List.map (·.1)) hdrop
    seen := hseen
    aims := haims
    tracks := hflat ▸ htracks
    published := by rw [hflat, ← hsent, h.published] }

theorem give (h : Agrees absX absY phys p s) {usedIdx : BitVec 16} {id : BitVec 32}
    (hpc : s.pc = .giving usedIdx id) :
    Agrees absX absY phys
      { p with avail := Function.update p.avail (WrapRing.place s.device.lastUsed) (id.setWidth 16) }
      { s with pc := .advancing usedIdx id } := by
  have haims : usedIdx = .ofNat 16 s.seen := by
    have haims := h.aims
    rwa [Aims, hpc] at haims
  have hhand : s.inHand = [id] := by rw [State.inHand, hpc]
  have hplaced : s.placed = [] := by rw [placed, hpc]
  have hlen := h.length_decoded
  rw [hhand, List.length_singleton] at hlen
  have hseen := h.seen
  have hstaged := h.staged
  have hwaiting := h.length_waiting
  have howners := h.length_owners
  have hpending := h.length_pending
  have havail := h.avail
  rw [hplaced, List.append_nil] at havail
  -- the next entry of the available ring is the one the driver read in the used ring
  have hplace : (WrapRing.place (.ofNat 16 s.taken.length + .ofNat 16 s.pending.length :
      BitVec 16) : Fin 8) = WrapRing.place s.device.lastUsed := by
    rw [BitVec.ofNat_add_ofNat, hpending, h.lastUsed, WrapRing.place_ofNat (by decide),
      WrapRing.place_ofNat (by decide)]
    exact Fin.ext (Nat.add_mod_left ..)
  have hnew := havail.concat (by decide) (by omega) (id.setWidth 16)
  rw [hplace] at hnew
  exact { h with
    avail := hnew
    inHand := h.inHand.trans hhand
    aims := haims }

theorem advance (h : Agrees absX absY phys p s) {usedIdx : BitVec 16} {id : BitVec 32}
    (hpc : s.pc = .advancing usedIdx id) :
    Agrees absX absY phys { p with availIdx := p.availIdx + 1 }
      { s with
        device := { s.device with lastUsed := s.device.lastUsed + 1 }
        pc := .draining usedIdx
        given := s.given ++ [id.setWidth 16] } := by
  have haims : usedIdx = .ofNat 16 s.seen := by
    have haims := h.aims
    rwa [Aims, hpc] at haims
  have hhand : (s.decoded.drop s.given.length).map (·.1) = [id] := by
    rw [h.inHand, State.inHand, hpc]
  have hplaced : s.placed = [id.setWidth 16] := by rw [placed, hpc]
  have hoffered : buffers ++ (s.given ++ [id.setWidth 16]) = s.offered ++ [id.setWidth 16] :=
    (List.append_assoc ..).symm
  have hpending : (buffers ++ (s.given ++ [id.setWidth 16])).drop s.taken.length =
      s.pending ++ [id.setWidth 16] := by
    rw [hoffered, List.drop_append_of_le_length h.taken.length_le]
    rfl
  -- the buffer in hand is the first that waits
  obtain ⟨b, hb, rfl⟩ : ∃ b, s.decoded.drop s.given.length = [b] ∧ b.1 = id := by
    obtain ⟨b, hb, hid⟩ := List.map_eq_singleton_iff.mp hhand
    exact ⟨b, hb, hid⟩
  have hdecoded : s.decoded = s.decoded.take s.given.length ++ [b] := by
    rw [← hb, List.take_append_drop]
  obtain ⟨rest, hfilled⟩ := h.decoded
  have hwaiting : s.waiting = b :: rest := by
    rw [waiting, ← hfilled, List.drop_append_of_le_length h.given_le, hb, List.singleton_append]
  have hwaiting' : s.filled.drop (s.given ++ [b.1.setWidth 16]).length = rest := by
    rw [List.length_append, ← List.drop_drop]
    exact congrArg (List.drop 1) hwaiting
  have havail := h.avail
  have hused := h.used
  have howners := h.owners
  rw [hplaced] at havail
  rw [hwaiting] at hused howners
  have hlen : (s.given ++ [b.1.setWidth 16]).length = s.given.length + 1 := List.length_append
  have hsucc : BitVec.ofNat 16 (s.given.length + 1) = .ofNat 16 s.given.length + 1 :=
    (BitVec.ofNat_add_ofNat ..).symm
  have hgiven : s.given ++ [b.1.setWidth 16] = s.decoded.map (·.1.setWidth 16) := by
    have htake := List.prefix_iff_eq_take.mp h.given
    rw [hdecoded, List.map_append, List.map_take, ← htake, List.map_singleton]
  have hdrop : s.decoded.drop (s.given ++ [b.1.setWidth 16]).length = [] := by
    rw [hgiven, List.length_map, List.drop_length]
  exact { h with
    lastUsed := by
      show s.device.lastUsed + 1 = .ofNat 16 _
      rw [h.lastUsed, hlen, hsucc]
    availIdx := by
      show p.availIdx + 1 = .ofNat 16 (buffers ++ (s.given ++ [b.1.setWidth 16])).length
      rw [h.availIdx, hoffered, List.length_append]
      exact BitVec.ofNat_add_ofNat ..
    avail := by
      rw [pending, placed, List.append_nil, offered, hpending]
      exact havail
    used := by
      rw [waiting, hwaiting', hlen, hsucc]
      exact (WrapRing.holds_cons.mp hused).2
    owners := by
      rw [pending, offered, hpending, waiting, hwaiting']
      refine List.Perm.trans ?_ howners
      rw [List.append_assoc, List.append_assoc, List.append_assoc, List.map_cons]
      refine List.Perm.append_left _ ?_
      rw [List.singleton_append]
      exact List.perm_middle.symm
    taken := by
      rw [offered, hoffered]
      exact h.taken.trans (List.prefix_append ..)
    given := hgiven ▸ List.prefix_rfl
    inHand := congrArg (List.map (·.1)) hdrop
    aims := haims
    tracks := ⟨h.tracks.rangeX, h.tracks.rangeY, h.tracks.x, h.tracks.y, h.tracks.moved⟩ }

/-! ### The steps of the device -/

theorem take (h : Agrees absX absY phys p s) (hne : s.availSeen ≠ p.availIdx) :
    Agrees absX absY phys p
      { s with
        held := s.held ++ [p.avail (WrapRing.place s.availSeen)]
        availSeen := s.availSeen + 1
        taken := s.taken ++ [p.avail (WrapRing.place s.availSeen)] } := by
  obtain ⟨id, rest, hpending⟩ : ∃ id rest, s.pending = id :: rest := by
    refine List.exists_cons_of_length_pos (Nat.pos_of_ne_zero fun hzero => hne ?_)
    have hlen := h.length_pending
    rw [hzero, Nat.add_zero, ← length_offered] at hlen
    rw [h.availSeen, hlen, h.availIdx]
  have havail := h.avail
  have howners := h.owners
  rw [hpending] at havail howners
  obtain ⟨hid, havail⟩ := WrapRing.holds_cons.mp havail
  rw [← h.availSeen] at hid
  rw [hid]
  have hlen : (s.taken ++ [id]).length = s.taken.length + 1 := List.length_append
  have hsucc : BitVec.ofNat 16 (s.taken.length + 1) = .ofNat 16 s.taken.length + 1 :=
    (BitVec.ofNat_add_ofNat ..).symm
  have hpending' : s.offered.drop (s.taken ++ [id]).length = rest := by
    rw [List.length_append, ← List.drop_drop]
    exact congrArg (List.drop 1) hpending
  exact { h with
    availSeen := by
      show s.availSeen + 1 = .ofNat 16 _
      rw [h.availSeen, hlen, hsucc]
    avail := by
      show WrapRing.Holds p.avail (.ofNat 16 (s.taken ++ [id]).length : BitVec 16)
        (s.offered.drop (s.taken ++ [id]).length ++ s.placed)
      rw [hpending', hlen, hsucc]
      exact havail
    owners := by
      show (s.offered.drop (s.taken ++ [id]).length ++ (s.held ++ [id]) ++ _).Perm buffers
      rw [hpending', ← List.append_assoc]
      exact ((List.perm_append_singleton id _).append_right _).trans howners
    taken := by
      refine ⟨rest, ?_⟩
      rw [List.append_assoc, List.singleton_append, ← hpending]
      exact List.prefix_iff_eq_append.mp h.taken }

/-- A buffer the device has is one of the eight, and nobody else has it. -/
theorem exists_held (h : Agrees absX absY phys p s) {i : ℕ} {id : BitVec 16}
    (hi : s.held[i]? = some id) :
    ∃ k : Fin 8, id = .ofNat 16 k ∧ id ∉ s.waiting.map (·.1.setWidth 16) ∧
      s.held.Perm (id :: s.held.eraseIdx i) := by
  obtain ⟨hlt, hget⟩ := List.getElem?_eq_some_iff.mp hi
  have hmem : id ∈ s.held := List.mem_of_getElem? hi
  have hbuffers : id ∈ buffers := h.owners.mem_iff.mp
    (List.mem_append_left _ (List.mem_append_right _ hmem))
  obtain ⟨k, hk, rfl⟩ := List.mem_map.mp hbuffers
  refine ⟨⟨k, List.mem_range.mp hk⟩, rfl, fun hwaiting => ?_, ?_⟩
  · have hnodup : (s.pending ++ s.held ++ s.waiting.map (·.1.setWidth 16)).Nodup :=
      h.owners.nodup_iff.mpr (by decide)
    exact (List.nodup_append.mp hnodup).2.2 _ (List.mem_append_right _ hmem) _ hwaiting rfl
  · rw [← hget]
    exact (List.getElem_cons_eraseIdx_perm hlt).symm

theorem fill (h : Agrees absX absY phys p s) {i : ℕ} {k : Fin 8} {es : List InputEvent}
    (hi : s.held[i]? = some (.ofNat 16 k))
    (hlen : inputEventBytes * es.length ≤ eventBufBytes) :
    Agrees absX absY phys
      { p with
        buffers := Function.update p.buffers k
          (es.flatMap InputEvent.bytes ++ (p.buffers k).drop (es.flatMap InputEvent.bytes).length)
        used := Function.update p.used (WrapRing.place (p.usedIdx + .ofNat 16 s.staged))
          (.ofNat 32 k, .ofNat 32 (inputEventBytes * es.length)) }
      { s with
        held := s.held.eraseIdx i
        staged := s.staged + 1
        filled := s.filled ++ [(.ofNat 32 k, es)] } := by
  obtain ⟨-, -, hwaiting, hheld⟩ := h.exists_held hi
  have hid : (BitVec.ofNat 32 k).setWidth 16 = .ofNat 16 k := BitVec.setWidth_ofNat_of_le (by decide) k
  have hgiven : s.given.length ≤ s.filled.length := h.given_le.trans h.decoded.length_le
  have hpos : 0 < s.held.length := List.length_pos_of_mem (List.mem_of_getElem? hi)
  have howners := h.length_owners
  have hfilled := h.length_waiting
  have hstaged := h.staged
  have hdrop : ∀ n ≤ s.filled.length, (s.filled ++ [((.ofNat 32 k : BitVec 32), es)]).drop n =
      s.filled.drop n ++ [(.ofNat 32 k, es)] := fun n hn => List.drop_append_of_le_length hn
  have hused := h.used.concat (by decide) (by rw [List.length_map]; omega)
    (element (.ofNat 32 k, es))
  rw [List.length_map, BitVec.ofNat_add_ofNat, hfilled, ← h.usedIdx_add] at hused
  have hsum : s.seen + (s.staged + 1) ≤ (s.filled ++ [((.ofNat 32 k : BitVec 32), es)]).length := by
    rw [List.length_append, List.length_singleton]
    omega
  exact { h with
    usedIdx := by
      show p.usedIdx = .ofNat 16 ((s.filled ++ [_]).length - (s.staged + 1))
      rw [h.usedIdx, List.length_append, List.length_singleton, Nat.add_sub_add_right]
    used := by
      show WrapRing.Holds _ _ (((s.filled ++ [_]).drop s.given.length).map element)
      rw [hdrop _ hgiven, List.map_append]
      exact hused
    owners := by
      show (s.pending ++ s.held.eraseIdx i ++
        ((s.filled ++ [((.ofNat 32 k : BitVec 32), es)]).drop s.given.length).map
          (·.1.setWidth 16)).Perm buffers
      rw [hdrop _ hgiven, List.map_append]
      refine List.Perm.trans ?_ h.owners
      rw [List.append_assoc, List.append_assoc]
      refine List.Perm.append_left _ (List.Perm.trans ?_ (hheld.append_right _).symm)
      rw [← List.append_assoc]
      refine (List.perm_append_singleton _ _).trans ?_
      show ((BitVec.ofNat 32 k).setWidth 16 :: _).Perm _
      rw [hid]
      exact List.Perm.refl _
    written := by
      have hall := hdrop _ h.decoded.length_le
      intro b hb
      rw [hall] at hb
      obtain hb | hb := List.mem_append.mp hb
      · -- the buffers that were filled before are others
        refine (h.written b hb).fill fun hk => hwaiting (List.mem_map.mpr ⟨b, ?_, by rw [hk, hid]⟩)
        rw [← Nat.add_sub_cancel' h.given_le, ← List.drop_drop] at hb
        exact List.mem_of_mem_drop hb
      · obtain rfl := List.mem_singleton.mp hb
        exact .of_update rfl hlen
    decoded := h.decoded.trans (List.prefix_append ..)
    staged := hsum }

theorem announce (h : Agrees absX absY phys p s) {n : ℕ} (hn : n ≤ s.staged) :
    Agrees absX absY phys { p with usedIdx := p.usedIdx + .ofNat 16 n }
      { s with staged := s.staged - n } := by
  have hstaged := h.staged
  have hsum : s.seen + (s.staged - n) ≤ s.filled.length := by omega
  exact { h with
    usedIdx := by
      show p.usedIdx + .ofNat 16 n = .ofNat 16 (s.filled.length - (s.staged - n))
      rw [h.usedIdx, BitVec.ofNat_add_ofNat]
      congr 1
      omega
    staged := hsum }

/-- The parts of a memory are all that matters of it. -/
theorem sound (h : Agrees absX absY phys p s) {m : ByteMemory} (hm : parts m = p) :
    Sound absX absY phys { s with mem := m } := by
  subst hm
  exact { h with }

end Agrees

namespace Sound

theorem init (h : (inputSystem absX absY phys).init s) : Sound absX absY phys s := by
  obtain ⟨device, m, hsetup, rfl⟩ := h
  rw [setup_eq, Option.some.injEq, Prod.mk.injEq] at hsetup
  obtain ⟨rfl, rfl⟩ := hsetup
  rw [Sound, parts_filled]
  exact {
    queue := rfl
    buffersOff := rfl
    table := fun _ => rfl
    lastUsed := rfl
    availIdx := rfl
    availSeen := rfl
    usedIdx := rfl
    avail := (rfl : WrapRing.load (fun i : Fin 8 => BitVec.ofNat 16 i) (0 : BitVec 16) 8 = buffers)
    used := rfl
    owners := (List.Perm.refl buffers : buffers.Perm buffers)
    taken := List.nil_prefix
    written := by simp
    decoded := List.prefix_rfl
    given := List.prefix_rfl
    inHand := rfl
    seen := Nat.le_refl _
    staged := Nat.le_refl _
    aims := rfl
    tracks := ⟨rfl, rfl, rfl, rfl, rfl⟩
    published := rfl }

/-- **One step of the driver.** -/
theorem driverStep (h : Sound absX absY phys s) (hn : driverStep s = some s') :
    Sound absX absY phys s' := by
  rw [Inputsrv.driverStep] at hn
  split at hn
  · cases hn
  · next usedIdx hpc =>
    split at hn
    · next hlast =>
      obtain ⟨b, rest, hwaiting, hrest, hlt⟩ := h.exists_waiting hpc hlast
      -- what the driver reads in the used ring is what was filled
      have hused := h.used
      rw [hwaiting, List.map_cons] at hused
      obtain ⟨helement, -⟩ := WrapRing.holds_cons.mp hused
      rw [← h.lastUsed] at helement
      have hid : s.mem.readWord (eventq.usedRingOffset s.device.lastUsed) = b.1 :=
        congrArg Prod.fst helement
      have hlen : s.mem.readWord (eventq.usedRingOffset s.device.lastUsed + 4) = (element b).2 :=
        congrArg Prod.snd helement
      have hwritten : Written (parts s.mem) b :=
        h.written b (hrest ▸ List.mem_cons_self)
      simp only [h.queue, hid, hlen, hwritten.decodeBuffer h.buffersOff] at hn
      obtain rfl := Option.some.inj hn
      exact h.decode hpc hrest hlt
    · next hlast =>
      obtain rfl := Option.some.inj hn
      exact h.sleep hpc (Decidable.not_not.mp hlast)
  · next usedIdx id hpc =>
    obtain rfl := Option.some.inj hn
    exact (h.give hpc).sound (h.queue ▸ parts_writeAvail ..)
  · next usedIdx id hpc =>
    obtain rfl := Option.some.inj hn
    exact (h.advance hpc).sound (h.queue ▸ parts_writeAvailIdx ..)

theorem fillStep (h : Sound absX absY phys s) {i : ℕ} {es : List InputEvent}
    (hn : fillStep phys s i es = some s') : Sound absX absY phys s' := by
  rw [Inputsrv.fillStep] at hn
  split at hn
  · cases hn
  · next id hi =>
    obtain ⟨k, rfl, -⟩ := h.exists_held hi
    have hk : (BitVec.ofNat 16 k).toNat = k :=
      (BitVec.toNat_ofNat ..).trans (Nat.mod_eq_of_lt (k.isLt.trans (by decide)))
    have hd : readDescriptor s.mem ((BitVec.ofNat 16 k).toNat * descBytes) =
        eventBuffer (phys + .ofNat 64 Inputsrv.buffersOff) k := by
      rw [hk]
      exact h.table k
    have haddr : ((eventBuffer (phys + .ofNat 64 Inputsrv.buffersOff) k).addr - phys).toNat =
        Inputsrv.buffersOff + k * eventBufBytes := by
      rw [eventBuffer, BitVec.add_assoc, BitVec.add_comm, BitVec.add_sub_cancel,
        BitVec.ofNat_add_ofNat, BitVec.toNat_ofNat, Nat.mod_eq_of_lt]
      simp only [Inputsrv.buffersOff, eventBufBytes]
      omega
    have hid : (BitVec.ofNat 16 k).setWidth 32 = .ofNat 32 k :=
      BitVec.setWidth_ofNat_of_le_of_lt (by decide) (k.isLt.trans (by decide))
    simp only [hd, haddr, hid] at hn
    obtain ⟨⟨-, hlen⟩, hsome⟩ := Option.ite_none_right_eq_some.mp hn
    obtain rfl := Option.some.inj hsome
    have hlen : inputEventBytes * es.length ≤ eventBufBytes := hlen
    have hbuffer := parts_writeBuffer s.mem k (es.flatMap InputEvent.bytes)
      ((InputEvent.length_flatMap_bytes es).trans_le hlen)
    have hidx : (s.mem.writeBytes (Inputsrv.buffersOff + k * eventBufBytes)
        (es.flatMap InputEvent.bytes)).readHalf eventq.usedIdxOffset = (parts s.mem).usedIdx :=
      congrArg Parts.usedIdx hbuffer
    rw [hidx]
    exact (h.fill hi hlen).sound (by rw [parts_writeUsed, hbuffer])

/-- **One step.** -/
theorem next (h : Sound absX absY phys s) {e : Event}
    (hn : (inputSystem absX absY phys).next s e = some s') : Sound absX absY phys s' := by
  cases e with
  | wake =>
    obtain ⟨hpc, hsome⟩ := Option.ite_none_right_eq_some.mp hn
    obtain rfl := Option.some.inj hsome
    rw [h.queue]
    exact h.wake hpc
  | go => exact h.driverStep hn
  | take =>
    obtain ⟨hne, hsome⟩ := Option.ite_none_left_eq_some.mp hn
    obtain rfl := Option.some.inj hsome
    exact h.take hne
  | fill i es => exact h.fillStep hn
  | announce n =>
    obtain ⟨hle, hsome⟩ := Option.ite_none_right_eq_some.mp hn
    obtain rfl := Option.some.inj hsome
    exact (h.announce hle).sound (parts_writeUsedIdx ..)

theorem of_reach (h : (inputSystem absX absY phys).Reachable s) : Sound absX absY phys s :=
  h.invariant (fun _ => init) fun _ _ _ hs _ hn => hs.next hn

/-! ### The driver on its own -/

/-- How far the driver is from its sleep. -/
def toSleep (s : State) : ℕ :=
  match s.pc with
  | .asleep => 0
  | .draining _ => 3 * (s.seen - s.given.length) + 1
  | .giving _ _ => 3 * (s.seen - s.given.length)
  | .advancing _ _ => 3 * (s.seen - s.given.length) - 1

/-- A driver that is awake goes on, and comes nearer to its sleep. -/
theorem exists_go (h : Sound absX absY phys s) (hpc : s.pc ≠ .asleep) :
    ∃ s', Inputsrv.driverStep s = some s' ∧ toSleep s' < toSleep s ∧ s'.filled = s.filled ∧
      s'.seen = s.seen ∧ s'.staged = s.staged := by
  have hlen := h.length_decoded
  have hseen := h.seen
  rw [State.inHand] at hlen
  rw [Inputsrv.driverStep]
  split at hlen
  · next hasleep => exact absurd hasleep hpc
  · next usedIdx hdraining =>
    by_cases hlast : s.device.lastUsed ≠ usedIdx
    · obtain ⟨b, rest, -, -, hlt⟩ := h.exists_waiting hdraining hlast
      refine ⟨_, if_pos hlast, ?_, rfl, rfl, rfl⟩
      simp only [toSleep, hdraining]
      omega
    · refine ⟨_, if_neg hlast, ?_, rfl, rfl, rfl⟩
      simp only [toSleep, hdraining]
      omega
  · next usedIdx id hgiving =>
    refine ⟨_, rfl, ?_, rfl, rfl, rfl⟩
    rw [List.length_singleton] at hlen
    simp only [toSleep, hgiving]
    omega
  · next usedIdx id hadvancing =>
    refine ⟨_, rfl, ?_, rfl, rfl, rfl⟩
    rw [List.length_singleton] at hlen
    simp only [toSleep, hadvancing, List.length_append, List.length_singleton]
    omega

/-- **The driver alone gets to its sleep.** -/
theorem exists_asleep (h : Sound absX absY phys s) :
    ∃ tr s', (inputSystem absX absY phys).Path s tr s' ∧ (∀ x ∈ tr, x.2.byDriver = true) ∧
      s'.pc = .asleep ∧ s'.filled = s.filled ∧ s'.seen = s.seen ∧ s'.staged = s.staged := by
  induction hn : toSleep s using Nat.strong_induction_on generalizing s with
  | _ n ih =>
    by_cases hpc : s.pc = .asleep
    · exact ⟨[], s, .nil, by simp, hpc, rfl, rfl, rfl⟩
    · obtain ⟨s₁, hgo, hlt, hfilled, hseen, hstaged⟩ := h.exists_go hpc
      obtain ⟨tr, s', hpath, hdriver, hasleep, hfilled', hseen', hstaged'⟩ :=
        ih _ (hn ▸ hlt) (h.driverStep hgo) rfl
      exact ⟨(s, .go) :: tr, s', .cons hgo hpath, List.forall_mem_cons.mpr ⟨rfl, hdriver⟩, hasleep,
        hfilled'.trans hfilled, hseen'.trans hseen, hstaged'.trans hstaged⟩

/-- A driver that sleeps has decoded all it was shown, and given all of it back. -/
theorem decoded_of_asleep (h : Sound absX absY phys s) (hpc : s.pc = .asleep) :
    s.given.length = s.decoded.length ∧ s.decoded = s.filled.take s.seen := by
  have hlen := h.length_decoded
  have haims := h.aims
  rw [State.inHand, hpc, List.length_nil, Nat.add_zero] at hlen
  rw [Aims, hpc] at haims
  refine ⟨hlen.symm, ?_⟩
  rw [haims, ← hlen]
  exact List.prefix_iff_eq_take.mp h.decoded

/-- **The driver alone gets through all that it is shown.** -/
theorem exists_drain (h : Sound absX absY phys s) :
    ∃ tr s', (inputSystem absX absY phys).Path s tr s' ∧ (∀ x ∈ tr, x.2.byDriver = true) ∧
      s'.pc = .asleep ∧ s'.decoded = s.filled.take (s.filled.length - s.staged) := by
  obtain ⟨tr, s₁, hpath, hdriver, hasleep, hfilled, -, hstaged⟩ := h.exists_asleep
  have h₁ : Sound absX absY phys s₁ := hpath.invariant (fun _ _ _ hs hn => hs.next hn) h
  have hwake : (inputSystem absX absY phys).next s₁ .wake = some { s₁ with
      pc := .draining (s₁.mem.readHalf s₁.device.queue.usedIdxOffset)
      seen := s₁.filled.length - s₁.staged } := if_pos hasleep
  have h₂ := h₁.next hwake
  obtain ⟨tr', s', hpath', hdriver', hasleep', hfilled', hseen', -⟩ := h₂.exists_asleep
  have h' : Sound absX absY phys s' := hpath'.invariant (fun _ _ _ hs hn => hs.next hn) h₂
  refine ⟨tr ++ (s₁, .wake) :: tr', s', hpath.append (.cons hwake hpath'), fun x hx => ?_, hasleep',
    ?_⟩
  · obtain hx | hx := List.mem_append.mp hx
    · exact hdriver x hx
    · obtain rfl | hx := List.mem_cons.mp hx
      · rfl
      · exact hdriver' x hx
  · rw [(h'.decoded_of_asleep hasleep').2, hfilled', hseen']
    show s₁.filled.take (s₁.filled.length - s₁.staged) = _
    rw [hfilled, hstaged]

end Sound

end State

/-- **Each filled buffer is decoded and given back once, and in order**, and what is published
depends on the stream of the events alone. Whatever happened, the driver gets through all the
buffers it is shown. -/
theorem stream_exact {absX absY : AbsInfo} {phys : BitVec 64} {s : State}
    (h : (inputSystem absX absY phys).Reachable s) :
    s.decoded <+: s.filled ∧
      s.given <+: s.decoded.map (·.1.setWidth 16) ∧ s.decoded.length ≤ s.given.length + 1 ∧
      s.taken <+: buffers ++ s.given ∧
      s.published = messages absX absY (s.decoded.flatMap (·.2)) ∧
      (s.pc = .asleep → s.given.length = s.decoded.length ∧ s.decoded = s.filled.take s.seen) ∧
      ∃ tr s', (inputSystem absX absY phys).Path s tr s' ∧ (∀ x ∈ tr, x.2.byDriver = true) ∧
        s'.pc = .asleep ∧ s'.decoded = s.filled.take (s.filled.length - s.staged) := by
  have hs := State.Sound.of_reach h
  have hlen := hs.length_decoded
  have hhand : s.inHand.length ≤ 1 := by
    rw [State.inHand]
    split <;> simp
  exact ⟨hs.decoded, hs.given, by omega, hs.taken, hs.published, hs.decoded_of_asleep,
    hs.exists_drain⟩

/-- A queue that was just set up, for a device whose axes go up to 100. -/
def start : State :=
  ⟨filledQueue 0, ⟨eventq, buffersOff, 0, ⟨0, 100⟩, ⟨0, 100⟩, 0, 0, false⟩, .asleep, [], [], 0, 0, [],
    [], [], [], 0⟩

theorem init_start : (inputSystem ⟨0, 100⟩ ⟨0, 100⟩ 0).init start :=
  ⟨_, _, setup_eq .., rfl⟩

/-- A key and a movement, in two buffers that the device fills in the other order. -/
theorem stream_exact_movement :
    ∃ s : State, s.decoded.map (·.1) = [1, 0] ∧ s.published.map (·.tag) = [tagKey, tagPointer] ∧
      s.published = messages ⟨0, 100⟩ ⟨0, 100⟩ (s.decoded.flatMap (·.2)) ∧
      s.given <+: s.decoded.map (·.1.setWidth 16) := by
  obtain ⟨s, hs, hp⟩ : ∃ s, (inputSystem ⟨0, 100⟩ ⟨0, 100⟩ 0).Reachable s ∧
      decide (s.decoded.map (·.1) = [1, 0] ∧
        s.published.map (·.tag) = [tagKey, tagPointer]) = true :=
    EventSystem.Reachable.exists_of_run
      [.take, .take, .fill 1 [⟨ev.key, 30, 1⟩, ⟨ev.abs, axis.x, 50⟩], .announce 1, .wake, .go,
        .fill 0 [⟨ev.abs, axis.y, 100⟩, ⟨ev.syn, 0, 0⟩], .announce 1, .go, .go, .go, .wake, .go, .go,
        .go, .go]
      init_start (by decide +kernel)
  obtain ⟨hids, htags⟩ := of_decide_eq_true hp
  obtain ⟨-, hgiven, -, -, hpublished, -⟩ := stream_exact hs
  exact ⟨s, hids, htags, hpublished, hgiven⟩

end Inputsrv

end StarOS
