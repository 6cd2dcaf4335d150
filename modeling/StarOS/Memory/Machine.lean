import StarOS.Abi
import StarOS.Lib.EventSystem
import StarOS.Lib.Patch
import StarOS.Memory.Placements

/-!
# The memory of threads

Threads of a program share one address space, and any of them may be in the middle of a call that
changes it. What they share are the page tables. What each has for itself is a copy of the handle
to the space, with a copy of the heap cursor in it, and its own records of where objects landed.

A call is several critical sections: under the scheduler's lock an address is chosen, and outside
it the pages are mapped, in chunks between which interrupts are let through. One event is one
critical section, and any task may have the next.

## What is not here

What the tables are made of is `Arch`: here they are the partial map they stand for. Whether the
pool has a frame left is an argument, and so is where one comes from. A task takes its step where
the scheduler lets it, which is `Sched`; that the last thread out destroys the space is
`Sched.LastOut`. Which handles a task holds is `Syscall`, and how the object table resolves a
reference `Kernel.Object`. Kernel threads have no address space and make no calls.

## Bookkeeping

`log` is what was done to a space since it was built, newest first. No function of the source
reads it.

## Main definitions

* `Act` — what can be done to a space
* `MemTask`, `Memory`, `MemCall`, `MemEvent`
* `Memory.next`, `memory` — the machine
-/

namespace StarOS

open Mmu

/-- The most pages one `MapAnon` may ask for. -/
def maxAnonPages : ℕ := 4096

/-- The most pages a thread may claim for its stack. -/
def maxThreadStackPages : ℕ := 2048

/-- The most pages one `Unmap` may name. -/
def maxUnmapPages : ℕ := 4096

/-- How many pages are mapped or unmapped before interrupts are let through. -/
def chunkPages : ℕ := 16

/-- One past the highest address any user region occupies. -/
def userWindowEnd : ℕ := 0x1000000000

/-- What can be done to an address space. -/
inductive Act
  /-- A range of the anonymous region is handed out. -/
  | granted (first pages : ℕ)
  /-- An address is chosen for an object. -/
  | placed (obj : ObjectRef) (what : Mappable) (base : ℕ)
  /-- All pages of an object are mapped. -/
  | mapped (obj : ObjectRef) (what : Mappable) (base : ℕ)
  /-- What the pages from `first` on are mapped with. -/
  | wrote (first : ℕ) (descs : List (Option ℕ))
  deriving DecidableEq

/-- What it leaves in the page tables. -/
def Act.patch : Act → Patch ℕ (Option ℕ)
  | granted .. => fun _ => none
  | placed .. => fun _ => none
  | mapped _ what base => Patch.run (page base) (what.descs.map some)
  | wrote first descs => Patch.run first descs

/-- Where a task is in a call that changes its memory. -/
inductive MemPc
  /-- In none. -/
  | user
  /-- `map_anon_current`: the range is reserved, and `done` of its pages are mapped. -/
  | anon (first pages done : ℕ)
  /-- `unmap_current`: `done` of the pages are dealt with, of which `removed` were mapped. -/
  | unmap (va pages done removed : ℕ)
  /-- `spawn_thread`: the placements are copied. -/
  | copied (pages : ℕ) (placed : Placed)
  /-- The stack is reserved too, and the handle has the cursor of that moment. -/
  | reserved (heapNext base pages : ℕ) (placed : Placed)
  /-- And mapped: the thread is about to be made. -/
  | stacked (heapNext : ℕ) (placed : Placed)
  /-- `MapShared` or `MapMemory`: the capability names a live object. -/
  | resolved (obj : ObjectRef) (what : Mappable)
  /-- An address is chosen for it. -/
  | placing (obj : ObjectRef) (what : Mappable) (base : ℕ)

namespace MemPc

/-- The placements a thread about to be made will start with. -/
def copy : MemPc → Option Placed
  | copied _ placed | reserved _ _ _ placed | stacked _ placed => some placed
  | _ => none

/-- The object of a `MapShared` or `MapMemory` in progress. -/
def mapping : MemPc → Option (ObjectRef × Mappable)
  | resolved obj what | placing obj what _ => some (obj, what)
  | _ => none

end MemPc

/-- What a task has to do with memory. -/
structure MemTask where
  /-- `Task::space`; its root is `Task::ttbr0`. -/
  space : AddressSpace
  /-- Whether `exit` has yet to take the space. -/
  alive : Bool
  placed : Placed
  pc : MemPc
  /-- What its last call answered. -/
  x0 : Except KError ℕ

/-- The heap cursor of a task, if it has this space. -/
def MemTask.heapNextIn (task : MemTask) (root : ℕ) : Option ℕ :=
  if task.alive ∧ task.space.root = root then some task.space.heapNext else none

/-- The memory of every task. -/
structure Memory where
  ntasks : ℕ
  task : TaskId → MemTask
  /-- The live objects that can be mapped. -/
  object : ObjectRef → Option Mappable
  /-- What the page tables at a root map each page with. -/
  tables : ℕ → ℕ → Option ℕ
  /-- What was done to the space at a root since it was built, newest first. -/
  log : ℕ → List Act

/-- A critical section of a task, or a fault it takes. The frames are those the pool hands out for
pages, and a number of pages how many were mapped before it ran out. -/
inductive MemCall
  | exit
  /-- `MapAnon`, up to where its range is reserved. -/
  | mapAnon (pages : ℕ)
  | anonChunk (frames : List ℕ)
  | unmap (va pages : ℕ)
  | unmapChunk
  /-- `SpawnThread`, up to where the placements are copied. -/
  | spawnThread (pages : ℕ)
  | threadReserve
  | threadMap (frames : List ℕ)
  /-- The thread enters the task table, if the kernel has room for all it needs. -/
  | threadPush (room : Bool)
  | mapShared (obj : ObjectRef)
  | mapMemory (obj : ObjectRef)
  /-- The address of the object is looked up, or chosen. -/
  | place
  | mapObject (pages : ℕ)
  /-- A fault at an address where the stack may grow. -/
  | growStack (far frame : ℕ)
  /-- `MapDma` of a buffer of so many pages at `phys`. -/
  | mapDma (phys pages done : ℕ)
  deriving DecidableEq, Repr

inductive MemEvent
  /-- `spawn_user`, on a space no live task has, with the pages its image is mapped with. -/
  | spawnUser (space : AddressSpace) (image : List (ℕ × ℕ))
  /-- An object is made. -/
  | mint (obj : ObjectRef) (what : Mappable)
  | revoke (obj : ObjectRef)
  | call (t : TaskId) (c : MemCall)

namespace Memory

/-- The machine before anything has been spawned. -/
def new : Memory where
  ntasks := 0
  task _ := ⟨⟨0, 0, 0, 0⟩, false, Placements.new, .user, .ok 0⟩
  object _ := none
  tables _ _ := none
  log _ := []

/-- `Task::ttbr0` -/
def root (s : Memory) (t : TaskId) : ℕ := (s.task t).space.root

/-- A task that has not exited. -/
def Live (s : Memory) (t : TaskId) : Prop := t < s.ntasks ∧ (s.task t).alive = true

instance (s : Memory) (t : TaskId) : Decidable (s.Live t) := inferInstanceAs (Decidable (_ ∧ _))

/-- Change one task. -/
def modTask (s : Memory) (t : TaskId) (f : MemTask → MemTask) : Memory :=
  { s with task := Function.update s.task t (f (s.task t)) }

/-- A task goes on to the next critical section of its call. -/
def goto (s : Memory) (t : TaskId) (pc : MemPc) : Memory := s.modTask t fun task => { task with pc }

/-- A call of a task is over. -/
def ret (s : Memory) (t : TaskId) (x0 : Except KError ℕ) : Memory :=
  s.modTask t fun task => { task with pc := .user, x0 }

/-- Something is done to an address space. -/
def act (s : Memory) (root : ℕ) (a : Act) : Memory :=
  { s with
    tables := Function.update s.tables root (a.patch.apply (s.tables root))
    log := Function.update s.log root (a :: s.log root) }

/-- A task is appended to the table. -/
def push (s : Memory) (task : MemTask) : Memory :=
  { s with ntasks := s.ntasks + 1, task := Function.update s.task s.ntasks task }

/-! ### Processes -/

/-- `spawn_user` -/
def spawnUser (s : Memory) (space : AddressSpace) (image : List (ℕ × ℕ)) : Memory :=
  { s.push ⟨space, true, Placements.new, .user, .ok 0⟩ with
    tables := Function.update s.tables space.root fun p => image.lookup p
    log := Function.update s.log space.root [] }

/-- `exit`, as far as it changes who has the space. -/
def exit (s : Memory) (t : TaskId) : Memory := s.modTask t fun task => { task with alive := false }

/-! ### Anonymous memory -/

/-- The heap cursors of the tasks that share a space. -/
def cursors (s : Memory) (root : ℕ) : List ℕ :=
  (List.range s.ntasks).filterMap fun i => (s.task i).heapNextIn root

/-- Publish a cursor to every task sharing a space. -/
def publish (s : Memory) (root next : ℕ) : Memory :=
  { s with
    task := fun i =>
      let task := s.task i
      if task.alive ∧ task.space.root = root then
        { task with space := { task.space with heapNext := next } }
      else task }

/-- Reserve pages of anonymous address space: the new cursor, and the first address. -/
def reserveAnonShared (s : Memory) (t : TaskId) (pages : ℕ) : Option ((ℕ × ℕ) × Memory) :=
  match (s.cursors (s.root t)).max? with
  | none => none
  | some top =>
    match { (s.task t).space with heapNext := top }.reserveAnon pages with
    | (none, _) => none
    | (some va, space) =>
      some ((space.heapNext, va),
        (s.publish (s.root t) space.heapNext).act (s.root t) (.granted va pages))

/-- What a fresh page is mapped with. -/
def freshPage (frame : ℕ) : Option ℕ := some (userDataPage frame ||| swOwned)

/-- `map_anon_current`, with the checks of the system call, up to its loop. -/
def mapAnonCurrent (s : Memory) (t : TaskId) (pages : ℕ) : Memory :=
  if pages = 0 ∨ maxAnonPages < pages then s.ret t (.error .invalidArgument)
  else
    match s.reserveAnonShared t pages with
    | none => s.ret t (.error .outOfResources)
    | some ((_, va), s) => s.goto t (.anon va pages 0)

/-- One round of its loop. -/
def anonChunk (s : Memory) (t : TaskId) (first pages done : ℕ) (frames : List ℕ) :
    Option Memory :=
  let chunk := min chunkPages (pages - done)
  if chunk < frames.length then none
  else
    let s := s.act (s.root t) (.wrote (page (first + done * page4K)) (frames.map freshPage))
    if frames.length < chunk then some (s.ret t (.error .outOfResources))
    else if done + chunk < pages then some (s.goto t (.anon first pages (done + chunk)))
    else some (s.ret t (.ok first))

/-! ### Unmapping -/

/-- `unmap_current`, with the checks of the system call, up to its loop. -/
def unmapCurrent (s : Memory) (t : TaskId) (va pages : ℕ) : Memory :=
  if pages = 0 ∨ maxUnmapPages < pages ∨ ¬ page4K ∣ va then s.ret t (.error .invalidArgument)
  else if 2 ^ 64 ≤ va + pages * page4K then s.ret t (.error .invalidArgument)
  else if va < userBase ∨ userWindowEnd < va + pages * page4K then
    s.ret t (.error .invalidArgument)
  else s.goto t (.unmap va pages 0 0)

/-- One round of its loop. -/
def unmapChunk (s : Memory) (t : TaskId) (va pages done removed : ℕ) : Memory :=
  let chunk := min chunkPages (pages - done)
  let first := page (va + done * page4K)
  let removed := removed +
    (List.range chunk).countP fun i => (s.tables (s.root t) (first + i)).isSome
  let s := s.act (s.root t) (.wrote first (List.replicate chunk none))
  if done + chunk < pages then s.goto t (.unmap va pages (done + chunk) removed)
  else s.ret t (.ok removed)

/-! ### Threads -/

/-- `spawn_thread`, with the checks of the system call, up to where the stack is reserved. -/
def spawnThread (s : Memory) (t : TaskId) (pages : ℕ) : Memory :=
  if pages = 0 ∨ maxThreadStackPages < pages then s.ret t (.error .invalidArgument)
  else s.goto t (.copied pages (s.task t).placed)

/-- The stack of the thread is reserved. -/
def threadReserve (s : Memory) (t : TaskId) (pages : ℕ) (placed : Placed) : Memory :=
  match s.reserveAnonShared t pages with
  | none => s.ret t (.error .outOfResources)
  | some ((heapNext, base), s) => s.goto t (.reserved heapNext base pages placed)

/-- And mapped. -/
def threadMap (s : Memory) (t : TaskId) (heapNext base pages : ℕ) (placed : Placed)
    (frames : List ℕ) : Option Memory :=
  if pages < frames.length then none
  else
    let s := s.act (s.root t) (.wrote (page base) (frames.map freshPage))
    if frames.length < pages then some (s.ret t (.error .outOfResources))
    else some (s.goto t (.stacked heapNext placed))

/-- The thread is appended to the task table, with the handle the stack was reserved through. -/
def threadPush (s : Memory) (t : TaskId) (heapNext : ℕ) (placed : Placed) (room : Bool) : Memory :=
  if room then
    (s.push ⟨{ (s.task t).space with heapNext }, true, placed, .user, .ok 0⟩).ret t (.ok s.ntasks)
  else s.ret t (.error .outOfResources)

/-! ### Objects -/

/-- `MapShared`, up to where its object is resolved. -/
def mapShared (s : Memory) (t : TaskId) (obj : ObjectRef) : Memory :=
  match s.object obj with
  | some (.shared run) => s.goto t (.resolved obj (.shared run))
  | _ => s.ret t (.error .badHandle)

/-- `MapMemory`, up to where its object is resolved. -/
def mapMemory (s : Memory) (t : TaskId) (obj : ObjectRef) : Memory :=
  match s.object obj with
  | some (.device phys) => s.goto t (.resolved obj (.device phys))
  | _ => s.ret t (.error .badHandle)

/-- The first critical section of `map_shared_current` and of `map_device_current`. -/
def place (s : Memory) (t : TaskId) (obj : ObjectRef) (what : Mappable) : Memory :=
  match ((s.task t).placed what.window).find obj with
  -- mapped already, as far as this task knows: nothing is mapped
  | some base => s.ret t (.ok (base + what.offset))
  | none =>
    match ((s.task t).placed what.window).place obj what.pages what.pages_le with
    | none => s.ret t (.error .outOfResources)
    | some (base, placed) =>
      ((s.act (s.root t) (.placed obj what base)).modTask t fun task =>
        { task with placed := Function.update task.placed what.window placed }).goto t
          (.placing obj what base)

/-- Their second, in which the pages are mapped. -/
def mapObject (s : Memory) (t : TaskId) (obj : ObjectRef) (what : Mappable) (base pages : ℕ) :
    Option Memory :=
  if pages = what.pages then
    some ((s.act (s.root t) (.mapped obj what base)).ret t (.ok (base + what.offset)))
  else if pages < what.pages then
    some ((s.act (s.root t) (.wrote (page base) ((what.descs.take pages).map some))).ret t
      (.error .outOfResources))
  else none

/-- `map_shared_current`, up to where the pages are mapped. -/
def mapSharedCurrent (s : Memory) (t : TaskId) (obj : ObjectRef) (run : ShmRun) : Memory :=
  s.place t obj (.shared run)

/-- `map_device_current`, up to where the page is mapped. -/
def mapDeviceCurrent (s : Memory) (t : TaskId) (obj : ObjectRef) (phys : BitVec 64) : Memory :=
  s.place t obj (.device phys)

/-! ### Other pages -/

/-- `grow_stack_current`; a fault it does not answer for ends the task. -/
def growStackCurrent (s : Memory) (t : TaskId) (far frame : ℕ) : Option Memory :=
  if userStackLimit ≤ far ∧ far < userStackTop ∧ s.tables (s.root t) (page far) = none then
    some ((s.act (s.root t) (.wrote (page far) [freshPage frame])).goto t .user)
  else none

/-- `map_dma_current` -/
def mapDmaCurrent (s : Memory) (t : TaskId) (phys pages done : ℕ) : Option Memory :=
  if done ≤ pages then
    let s := s.act (s.root t) (.wrote (page userDmaVa)
      ((List.range done).map fun i => some (userDmaPage (phys + i * page4K))))
    some (s.ret t (if done = pages then .ok userDmaVa else .error .outOfResources))
  else none

/-! ### Steps -/

/-- The effect of a critical section of task `t`, which is in its call where `pc` says. -/
def call (s : Memory) (t : TaskId) : MemCall → MemPc → Option Memory
  | .exit, .user => some (s.exit t)
  | .mapAnon pages, .user => some (s.mapAnonCurrent t pages)
  | .anonChunk frames, .anon first pages done => s.anonChunk t first pages done frames
  | .unmap va pages, .user => some (s.unmapCurrent t va pages)
  | .unmapChunk, .unmap va pages done removed => some (s.unmapChunk t va pages done removed)
  | .spawnThread pages, .user => some (s.spawnThread t pages)
  | .threadReserve, .copied pages placed => some (s.threadReserve t pages placed)
  | .threadMap frames, .reserved heapNext base pages placed =>
    s.threadMap t heapNext base pages placed frames
  | .threadPush room, .stacked heapNext placed => some (s.threadPush t heapNext placed room)
  | .mapShared obj, .user => some (s.mapShared t obj)
  | .mapMemory obj, .user => some (s.mapMemory t obj)
  | .place, .resolved obj (.shared run) => some (s.mapSharedCurrent t obj run)
  | .place, .resolved obj (.device phys) => some (s.mapDeviceCurrent t obj phys)
  | .mapObject pages, .placing obj what base => s.mapObject t obj what base pages
  | .growStack far frame, .user => s.growStackCurrent t far frame
  | .mapDma phys pages done, .user => s.mapDmaCurrent t phys pages done
  | _, _ => none

/-- The effect of an event, if it can happen. -/
def next (s : Memory) : MemEvent → Option Memory
  | .spawnUser space image =>
    if space.heapNext = userHeapBase ∧ ∀ i ∈ List.range s.ntasks, (s.task i).alive = true →
        s.root i ≠ space.root then
      some (s.spawnUser space image)
    else none
  | .mint obj what =>
    if (s.object obj).isNone then
      some { s with object := Function.update s.object obj (some what) }
    else none
  | .revoke obj => some { s with object := Function.update s.object obj none }
  | .call t c => if s.Live t then s.call t c (s.task t).pc else none

end Memory

/-- The memory of every task, from boot on. -/
def memory : EventSystem Memory MemEvent where
  init s := s = .new
  next := Memory.next

end StarOS
