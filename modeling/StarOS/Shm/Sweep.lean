import StarOS.Kernel.Object
import StarOS.Lib.Holders
import StarOS.Shm.Table

/-!
# Shared and DMA memory, from its creation to the sweep

The frames of a shared buffer are recorded in a table and those of a DMA buffer in the object
itself. Neither belongs to an address space: revoking an object only stops its references
resolving, and the frames are reclaimed once, when the last task has exited, by a sweep of the
object table.

One event is one critical section. A call that makes an object goes through several of them, and
any number of calls may be under way, each between two of its own.

## What is not here

The capability tables: whether a capability could be installed is an argument, as is whether the
heap has room. Any reference may be revoked, resolvable by someone or not. The frames of the
address spaces, which the exit of a task gives back, are among those the rest of the kernel takes
and gives.

## Main definitions

* `Making`, `Backing`, `BackingEvent`, `backing` — the machine
* `Backing.sweep` — `free_reclaimable`
-/

namespace StarOS

/-- Where a `CreateShared` or a `CreateDma` is, in what follows its checks. -/
inductive Making
  /-- In `shm::create`, with so many frames still to be taken, and these taken. -/
  | filling (pages want : ℕ) (run : List ℕ)
  /-- In `shm::create`, with a run that found no place in the table. -/
  | returning (run : List ℕ)
  /-- About to enter `obj::create`. -/
  | creating (o : Object)
  /-- About to enter `install_cap_current`. -/
  | installing (o : Object) (obj : ObjectRef)
  /-- With a capability that could not be installed, about to revoke its object. -/
  | undoing (o : Object) (obj : ObjectRef)
  /-- About to give back the frames of an object that there is not. -/
  | freeing (o : Object)
  deriving DecidableEq, Repr

/-- The table of shared runs, the pool, the object table, the calls that are under way, and the
blocks the rest of the kernel holds. -/
structure Backing where
  shm : Shm
  objects : List Obj.Slot
  calls : List Making
  others : List Block

inductive BackingEvent
  | createShared (pages : ℕ) (reserve : Bool)
  | createDma (pages : ℕ)
  /-- The call at this place in the list goes on, `room` being what the heap answers. -/
  | step (i : ℕ) (room : Bool)
  /-- An object of another kind is created. -/
  | create (o : Object) (live room : Bool)
  | revoke (r : ObjectRef)
  /-- The rest of the kernel takes a block. -/
  | take (count : ℕ)
  /-- The rest of the kernel gives back a block it holds. -/
  | give (c : Block)
  deriving DecidableEq, Repr

/-- Whether an object is one the sweep frees. -/
def Object.backed : Object → Bool
  | .sharedMemory .. | .dmaBuffer .. => true
  | _ => false

/-- Give back what an object was made of. -/
def Shm.release (shm : Shm) : Object → Shm
  | .sharedMemory id _ => shm.free id
  | .dmaBuffer phys _ => { shm with pool := shm.pool.freePages phys.toNat }
  | _ => shm

namespace Backing

/-- The call at `i` goes on at `c`, or returns. -/
def put (s : Backing) (i : ℕ) (c : Option Making) : Backing :=
  { s with calls := Holders.put s.calls i c }

/-- `crate::mem::with` -/
def withPool (s : Backing) (pool : FramePool) : Backing := { s with shm := { s.shm with pool } }

/-- The next critical section of a call. -/
def advance (s : Backing) (i : ℕ) (room : Bool) : Making → Backing
  | .filling pages (want + 1) run =>
    match s.shm.pool.allocate with
    | (some frame, pool) => (s.withPool pool).put i (some (.filling pages want (run ++ [frame])))
    | (none, pool) => (s.withPool (Shm.giveBack pool run)).put i none
  | .filling pages 0 run =>
    match Shm.place s.shm.runs run room with
    | some (id, runs) =>
      { s with shm := { s.shm with runs } }.put i
        (some (.creating (.sharedMemory id (BitVec.ofNat 32 pages))))
    | none => s.put i (some (.returning run))
  | .returning run => (s.withPool (Shm.giveBack s.shm.pool run)).put i none
  | .creating o =>
    match Obj.create true room s.objects o with
    | some (obj, objects) => { s with objects }.put i (some (.installing o obj))
    | none => s.put i (some (.freeing o))
  | .installing o obj => if room then s.put i none else s.put i (some (.undoing o obj))
  | .undoing o obj =>
    { s with objects := (Obj.revoke s.objects obj).2 }.put i (some (.freeing o))
  | .freeing o => { s with shm := s.shm.release o }.put i none

/-- The effect of an event. -/
def next (s : Backing) : BackingEvent → Option Backing
  | .createShared pages reserve =>
    some <| if pages = 0 ∨ maxSharedPages < pages ∨ reserve = false then s
    else { s with calls := s.calls ++ [.filling pages pages []] }
  | .createDma pages =>
    some <| if pages = 0 ∨ maxDmaPages < pages then s
    else
      match s.shm.pool.allocPages pages with
      | (some phys, pool) =>
        { s.withPool pool with
          calls := s.calls ++
            [.creating (.dmaBuffer (BitVec.ofNat 64 phys) (BitVec.ofNat 32 pages))] }
      | (none, pool) => s.withPool pool
  | .step i room => s.calls[i]?.map (s.advance i room)
  | .create o live room =>
    if o.backed then none
    else
      match Obj.create live room s.objects o with
      | some (_, objects) => some { s with objects }
      | none => some s
  | .revoke r => some { s with objects := (Obj.revoke s.objects r).2 }
  | .take count =>
    if count ≤ 2 ^ 63 then
      some <| match s.shm.pool.allocPages count with
        | (some frame, pool) =>
          { s.withPool pool with
            others := ⟨frame / pageSize, nextPowerOfTwo (max count 1)⟩ :: s.others }
        | (none, pool) => s.withPool pool
    else none
  | .give c =>
    if c ∈ s.others then
      some { s.withPool (s.shm.pool.freePages (c.addr * pageSize)) with others := s.others.erase c }
    else none

/-- Free the runs of some ids, one after another: what is freed, and what is left. -/
def freeRuns (shm : Shm) : List ℕ → List ℕ × Shm
  | [] => ([], shm)
  | id :: ids =>
    let (frames, rest) := freeRuns (shm.free id) ids
    ((shm.withFrames id).getD [] ++ frames, rest)

/-- `free_reclaimable`, when every task has exited: the addresses it frees, in order, and what is
left. The DMA buffers are freed on the way through the table, the shared runs after it. -/
def sweep (s : Backing) : List ℕ × Backing :=
  let (objects, ids, bases) := Obj.freeReclaimable s.objects
  let bases := bases.map (·.toNat)
  let (frames, shm) := freeRuns ⟨s.shm.runs, bases.foldl (·.freePages ·) s.shm.pool⟩ ids
  (bases ++ frames, { s with shm, objects })

/-- No object with frames is revoked. -/
def keeps (s : Backing) : BackingEvent → Prop
  | .revoke r => ∀ o, Obj.get s.objects r = some o → o.backed = false
  | _ => True

end Backing

/-- Shared and DMA memory, from boot on. -/
def backing (pool : FramePool) : EventSystem Backing BackingEvent where
  init s := s = ⟨⟨[], pool⟩, [], [], []⟩
  next := Backing.next

end StarOS
