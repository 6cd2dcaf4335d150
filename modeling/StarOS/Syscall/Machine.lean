import StarOS.Kernel.Irq
import StarOS.Syscall.Resolve
import StarOS.Wait.Machine

/-!
# System calls and capability tables

Around the waiting machine stands the layer that turns handles into objects. A system call
resolves its handles in the caller's table, and only then waits, sends or receives; a message
carries the capability it transfers by value, and a receive installs what it received; and six
calls make an object and install a capability for it.

One event is one critical section here too. The table of a task is the one its process was spawned
with: threads share it, and any of them may be in the middle of a call. What is done to the waiting
machine is done by events of the waiting machine.

## What is not here

The calls that look a capability up and then only read or map something — `MapMemory`, `MapShared`,
`MapDma`, `SharedPages`, `DmaPhys`, `BindDma`, `IrqAck`, `FbFlip`, `EndpointPending` — change
nothing that is modelled, nor do those that take no handle and make no task. User memory is an
argument: what the caller's pointer reads as. So is what an allocator answers.

## Bookkeeping

The calls that make capabilities are numbered as they pass their checks, and their answers are
kept. No function of the source reads either.

## Main definitions

* `Mint`, `Stage`, `Sys`, `SysCall`, `SysEvent`
* `Sys.next`, `system` — the machine
-/

namespace StarOS

/-- The most sources one `WaitAny` may name. -/
def maxWaitHandles : ℕ := 16

/-- What a call that makes a capability makes it for. -/
inductive Mint
  /-- `GrantDevice` -/
  | device (phys : BitVec 64)
  /-- `GrantIrq` -/
  | interrupt (intid : BitVec 32)
  /-- `NotifyCreate` -/
  | notification (id : ℕ)
  /-- `IrqRegister`: the notification of a line. -/
  | line (intid : BitVec 32) (id : ℕ)
  /-- `CreateShared` -/
  | shared (id : ℕ) (pages : BitVec 32)
  /-- `CreateDma` -/
  | dma (phys : BitVec 64) (pages : BitVec 32)
  deriving DecidableEq, Repr

/-- The object that is made. -/
def Mint.object : Mint → Object
  | .device phys => .device phys
  | .interrupt intid => .interrupt intid
  | .notification id | .line _ id => .notification id
  | .shared id pages => .sharedMemory id pages
  | .dma phys pages => .dmaBuffer phys pages

/-- The capability to it. -/
def Mint.cap (obj : ObjectRef) : Mint → Cap
  | .device _ => .device obj
  | .interrupt _ => .irq obj
  | .notification _ | .line .. => .notification obj
  | .shared .. => .shared obj
  | .dma .. => .dma obj

/-- Where a task is in the part of a system call outside the waiting machine, and what it does when
it is next outside. -/
inductive Stage
  /-- In user mode, or in a call with nothing left to do out here. -/
  | user
  /-- In a send, the endpoint resolved and the message read. -/
  | transferring (ep : ℕ) (msg : Message) (mayBlock : Bool)
  /-- In a receive. -/
  | receiving
  /-- In a receive, with the message it returns. -/
  | received (km : KMessage)
  /-- In `wait_any`, some of the handles resolved. -/
  | resolving (todo : List Handle) (ids : List ℕ) (deadline : Option ℕ)
  /-- In `EndpointBind`, the endpoint resolved. -/
  | binding (ep : ℕ) (notif : Handle)
  /-- In call `n`, about to enter `notify::create`, for an interrupt line or for the caller. -/
  | notifying (n : ℕ) (line : Option (BitVec 32))
  /-- In call `n`, about to enter `obj::create`. -/
  | creating (n : ℕ) (m : Mint)
  /-- In call `n`, about to enter `install_cap_current`. -/
  | installing (n : ℕ) (m : Mint) (obj : ObjectRef)
  /-- In call `n`, with a capability that could not be installed. -/
  | undoing (n : ℕ) (obj : ObjectRef)
  /-- In call `n`, about to enter `irq::register`. -/
  | registering (n : ℕ) (intid : BitVec 32) (notif : ℕ) (handle : Handle)
  deriving DecidableEq, Repr

/-- The state of the kernel, as far as system calls and the capabilities they use are concerned. -/
structure Sys where
  kernel : Kernel
  objects : List Obj.Slot
  /-- The capability tables. -/
  caps : ℕ → CapTable
  /-- How many capability tables there are. -/
  ntables : ℕ
  /-- Which table a task uses. -/
  space : TaskId → ℕ
  bindings : List Irq.Binding
  stage : TaskId → Stage
  /-- How many calls that make a capability have passed their checks. -/
  calls : ℕ
  /-- What they answered. -/
  answers : List (ℕ × Except KError Handle)

/-- A system call, with what the caller's memory reads as and what the allocators answer. -/
inductive SysCall
  | send (endpoint : Handle) (msg : Option Message)
  | sendNowait (endpoint : Handle) (msg : Option Message)
  | recv (endpoint : Handle)
  | recvUntil (endpoint : Handle) (deadline : ℕ)
  | wait (notif : Handle)
  | waitAny (handles : List Handle) (deadline : ℕ)
  | sleepUntil (deadline : ℕ)
  | notifySignal (notif : Handle)
  | notifyOnExit (notif : Handle)
  | endpointBind (endpoint notif : Handle)
  | revoke (handle : Handle)
  | irqRegister (line : Handle)
  | notifyCreate
  | grantDevice (authority : Handle) (phys : BitVec 64)
  | grantIrq (authority : Handle) (intid : BitVec 32)
  | createShared (pages : ℕ) (run : Option ℕ)
  | createDma (pages : ℕ) (run : Option (BitVec 64))
  /-- `Spawn` and `SpawnImage`: a child is granted nothing. -/
  | spawn (room : Bool)
  | spawnThread (room : Bool)
  | exit
  deriving DecidableEq, Repr

/-- One critical section. -/
inductive SysEvent
  /-- An event of the waiting machine in which no task acts, or a step of a task inside it. -/
  | kernel (e : Event)
  /-- Core `c` takes interrupt `intid`. -/
  | irq (c : CpuId) (intid : BitVec 32)
  /-- The boot path creates an object. -/
  | create (object : Object) (room : Bool)
  /-- The boot path spawns a process and grants it capabilities. -/
  | spawn (grants : List Cap)
  /-- The shutdown sweep of the object table. -/
  | freeReclaimable
  /-- Task `t`, in user mode, makes a system call. -/
  | call (t : TaskId) (c : SysCall)
  /-- Task `t` goes on with its call outside the waiting machine: `room` is whether the heap has
  room, and `enabled` whether the interrupt controller accepts the line. -/
  | step (t : TaskId) (room enabled : Bool)
  deriving DecidableEq, Repr

namespace Sys

/-- The system before anything has happened. -/
def boot (clock : Option ℕ) : Sys where
  kernel := .boot clock
  objects := []
  caps _ := []
  ntables := 0
  space _ := 0
  bindings := []
  stage _ := .user
  calls := 0
  answers := []

/-- The capability table of a task. -/
def table (s : Sys) (t : TaskId) : CapTable := s.caps (s.space t)

/-- Task `t` is now at `stage`. -/
def goto (s : Sys) (t : TaskId) (stage : Stage) : Sys :=
  { s with stage := Function.update s.stage t stage }

/-- Task `t` makes call `c` of the waiting machine and goes on at `stage`. -/
def enter (s : Sys) (t : TaskId) (stage : Stage) (c : Call) : Option Sys :=
  (s.kernel.next (.call t c)).map fun kernel => { s.goto t stage with kernel }

/-- A call that makes a capability has passed its checks. -/
def begin (s : Sys) (t : TaskId) (stage : Stage) : Sys :=
  { s.goto t stage with calls := s.calls + 1 }

/-- Call `n` answers `r`. -/
def answer (s : Sys) (t : TaskId) (n : ℕ) (r : Except KError Handle) : Sys :=
  { s.goto t .user with answers := s.answers ++ [(n, r)] }

/-- The table task `t` uses is now `table`. -/
def setTable (s : Sys) (t : TaskId) (table : CapTable) : Sys :=
  { s with caps := Function.update s.caps (s.space t) table }

/-! ### Spawning

The new task is at `Stage.user`, where a slot nothing has been spawned in stays. -/

/-- `sched::spawn_user`: a process with a table of its own. -/
def spawnUser (s : Sys) (caps : CapTable) : Option Sys :=
  (s.kernel.next .spawn).map fun kernel =>
    { s with
      kernel
      caps := Function.update s.caps s.ntables caps
      ntables := s.ntables + 1
      space := Function.update s.space s.kernel.ntasks s.ntables }

/-- `sched::spawn_thread`: a thread shares the table of its creator. -/
def spawnThread (s : Sys) (t : TaskId) : Option Sys :=
  (s.kernel.next .spawn).map fun kernel =>
    { s with
      kernel
      space := Function.update s.space s.kernel.ntasks (s.space t) }

/-! ### The start of a system call -/

/-- `Send` and `SendNoWait`, up to the transferred capability. -/
def send (s : Sys) (t : TaskId) (endpoint : Handle) (msg : Option Message) (mayBlock : Bool) :
    Sys :=
  match resolveSendableEndpoint (s.table t) s.objects endpoint, msg with
  | .ok ep, some msg => s.goto t (.transferring ep msg mayBlock)
  | _, _ => s

/-- `Recv` and `RecvUntil`, up to `recv_until`. -/
def recv (s : Sys) (t : TaskId) (endpoint : Handle) (deadline : Option ℕ) : Option Sys :=
  match resolveReceivableEndpoint (s.table t) s.objects endpoint with
  | .ok ep =>
    s.enter t .receiving
      (match deadline with
        | none => .recv ep
        | some d => .recvUntil ep d)
  | .error _ => some s

/-- A call on one notification. -/
def onNotification (s : Sys) (t : TaskId) (notif : Handle) (c : ℕ → Call) : Option Sys :=
  match resolveNotification (s.table t) s.objects notif with
  | .ok id => s.enter t .user (c id)
  | .error _ => some s

/-- A call that makes a capability under a device authority. -/
def grant (s : Sys) (t : TaskId) (authority : Handle) (m : Mint) : Sys :=
  match checkAuthority (s.table t) s.objects authority with
  | .ok () => s.begin t (.creating s.calls m)
  | .error _ => s

/-- The start of a system call; one that returns an error at once changes nothing. -/
def call (s : Sys) (t : TaskId) : SysCall → Option Sys
  | .send endpoint msg => some (s.send t endpoint msg true)
  | .sendNowait endpoint msg => some (s.send t endpoint msg false)
  | .recv endpoint => s.recv t endpoint none
  -- a deadline of zero is no deadline
  | .recvUntil endpoint deadline =>
    s.recv t endpoint (if deadline = 0 then none else some deadline)
  | .wait notif => s.onNotification t notif .wait
  | .waitAny handles deadline =>
    some <| if handles = [] ∨ maxWaitHandles < handles.length then s
    else s.goto t (.resolving handles [] (if deadline = 0 then none else some deadline))
  | .sleepUntil deadline => s.enter t .user (.sleepUntil deadline)
  | .notifySignal notif => s.onNotification t notif .notifySignal
  | .notifyOnExit notif =>
    if notif = .null then s.enter t .user (.notifyOnExit none)
    else s.onNotification t notif fun id => .notifyOnExit (some id)
  | .endpointBind endpoint notif =>
    match resolveReceivableEndpoint (s.table t) s.objects endpoint with
    | .ok ep => some (s.goto t (.binding ep notif))
    | .error _ => some s
  | .revoke handle =>
    match (s.table t).resolveCap handle with
    | some cap => some { s with objects := (Obj.revoke s.objects cap.object).2 }
    | none => some s
  | .irqRegister line =>
    match resolveInterrupt (s.table t) s.objects line with
    | .ok intid => some (s.begin t (.notifying s.calls (some intid)))
    | .error _ => some s
  | .notifyCreate => some (s.begin t (.notifying s.calls none))
  | .grantDevice authority phys => some (s.grant t authority (.device phys))
  | .grantIrq authority intid => some (s.grant t authority (.interrupt intid))
  | .createShared pages run =>
    some <| match run with
      | some id =>
        if pages = 0 ∨ maxSharedPages < pages then s
        else s.begin t (.creating s.calls (.shared id (BitVec.ofNat 32 pages)))
      | none => s
  | .createDma pages run =>
    some <| match run with
      | some phys =>
        if pages = 0 ∨ maxDmaPages < pages then s
        else s.begin t (.creating s.calls (.dma phys (BitVec.ofNat 32 pages)))
      | none => s
  | .spawn room => if room then s.spawnUser emptyCaps else some s
  | .spawnThread room => if room then s.spawnThread t else some s
  | .exit => s.enter t .user .exit

/-! ### The rest of a system call -/

/-- The send of `msg`, with the capability it transfers. -/
def sendWith (s : Sys) (t : TaskId) (ep : ℕ) (msg : Message) (mayBlock : Bool)
    (cap : Option Cap) : Option Sys :=
  s.enter t .user (if mayBlock then .send ep ⟨msg, cap⟩ else .sendNowait ep ⟨msg, cap⟩)

/-- `obj::create` in call `n`. -/
def create (s : Sys) (t : TaskId) (n : ℕ) (m : Mint) (room : Bool) : Sys :=
  match Obj.create true room s.objects m.object with
  | some (obj, objects) => { s.goto t (.installing n m obj) with objects }
  | none => s.answer t n (.error .outOfResources)

/-- `install_cap_current` in call `n`. `IrqRegister` still has the line to register; and it alone
leaves its object behind when the table cannot grow. -/
def install (s : Sys) (t : TaskId) (n : ℕ) (m : Mint) (obj : ObjectRef) (room : Bool) :
    Sys :=
  match (s.table t).install room (m.cap obj), m with
  | some (handle, table), .line intid id =>
    (s.setTable t table).goto t (.registering n intid id handle)
  | some (handle, table), _ => (s.setTable t table).answer t n (.ok handle)
  | none, .line .. => s.answer t n (.error .outOfResources)
  | none, _ => s.goto t (.undoing n obj)

/-- `irq::register` in call `n`. The capability is installed already, and stays. -/
def register (s : Sys) (t : TaskId) (n : ℕ) (intid : BitVec 32) (notif : ℕ) (handle : Handle)
    (room enabled : Bool) : Sys :=
  let r := Irq.register s.bindings room enabled intid notif
  { s with bindings := r.2 }.answer t n (if r.1 then .ok handle else .error .invalidArgument)

/-- A receive installs the capability that came with its message. -/
def take (s : Sys) (t : TaskId) (km : KMessage) (room : Bool) : Sys :=
  match km.cap with
  | some cap =>
    match (s.table t).install room cap with
    | some (_, table) => (s.setTable t table).goto t .user
    | none => s.goto t .user
  | none => s.goto t .user

/-- The next critical section of a task that is between two of its call. -/
def advance (s : Sys) (t : TaskId) (room enabled : Bool) : Option Sys :=
  match s.stage t with
  | .user => none
  | .transferring ep msg mayBlock =>
    if msg.cap = .null then s.sendWith t ep msg mayBlock none
    else
      match (s.table t).resolveCap msg.cap with
      | some cap => s.sendWith t ep msg mayBlock (some cap)
      | none => some (s.goto t .user)
  -- `recv_until` answered with an error
  | .receiving => some (s.goto t .user)
  | .received km => some (s.take t km room)
  | .resolving (h :: todo) ids deadline =>
    match resolveNotification (s.table t) s.objects h with
    | .ok id => some (s.goto t (.resolving todo (ids ++ [id]) deadline))
    | .error _ => some (s.goto t .user)
  | .resolving [] ids deadline => s.enter t .user (.waitAny ids deadline)
  | .binding ep notif =>
    if notif = .null then
      (s.kernel.next (.bindNotify ep none)).map fun kernel => { s.goto t .user with kernel }
    else
      match resolveNotification (s.table t) s.objects notif with
      | .ok id =>
        (s.kernel.next (.bindNotify ep (some id))).map fun kernel =>
          { s.goto t .user with kernel }
      | .error _ => some (s.goto t .user)
  | .notifying n line =>
    if s.kernel.notify.canCreate room then
      (s.kernel.next .create).map fun kernel =>
        { s.goto t (.creating n
            (match line with
              | some intid => .line intid s.kernel.notify.create.1
              | none => .notification s.kernel.notify.create.1)) with kernel }
    else some (s.answer t n (.error .outOfResources))
  | .creating n m => some (s.create t n m room)
  | .installing n m obj => some (s.install t n m obj room)
  | .undoing n obj =>
    some ({ s with objects := (Obj.revoke s.objects obj).2 }.answer t n (.error .outOfResources))
  | .registering n intid notif handle =>
    some (s.register t n intid notif handle room enabled)

/-! ### The machine -/

/-- The message a step of the waiting machine gave a receive. -/
def delivered (k k' : Kernel) : Option KMessage :=
  (k'.log.drop k.log.length).findSome? fun
    | .received _ _ p => some p.km
    | _ => none

/-- The events of the waiting machine that are events here. -/
def passes (s : Sys) : Event → Bool
  | .tick _ | .wakeExpired | .irqJob _ | .allocate | .dispatch _ | .step _ => true
  | .preempt t => s.stage t = .user
  | .irq .. | .spawn | .create | .bindNotify .. | .call .. => false

/-- An event of the waiting machine: a receive that got its message goes on with it. -/
def kernelStep (s : Sys) (e : Event) (kernel : Kernel) : Sys :=
  match e with
  | .step t =>
    match s.stage t, delivered s.kernel kernel with
    | .receiving, some km => { s.goto t (.received km) with kernel }
    | _, _ => { s with kernel }
  | _ => { s with kernel }

/-- Whether a task can act outside the waiting machine. -/
def acts (s : Sys) (t : TaskId) : Bool :=
  (s.kernel.task t).state = .running && s.kernel.pc t = .user

/-- `ipc::endpoint_exists`, for an object that names an endpoint. -/
def live (s : Sys) : Object → Bool
  | .endpoint id => id < s.kernel.neps
  | _ => true

/-- The effect of an event, if it can happen. -/
def next (s : Sys) : SysEvent → Option Sys
  | .kernel e => if s.passes e then (s.kernel.next e).map (s.kernelStep e) else none
  | .irq c intid =>
    match Irq.lookup s.bindings intid with
    | some notif => (s.kernel.next (.irq c notif)).map fun kernel => { s with kernel }
    | none => some s
  | .create object room =>
    match Obj.create (s.live object) room s.objects object with
    | some (_, objects) => some { s with objects }
    | none => some s
  -- granted in order, at the handles from 1 on
  | .spawn grants => s.spawnUser (emptyCaps ++ grants.map some)
  | .freeReclaimable => some { s with objects := (Obj.freeReclaimable s.objects).1 }
  | .call t c => if s.acts t && s.stage t = .user then s.call t c else none
  | .step t room enabled => if s.acts t then s.advance t room enabled else none

end Sys

/-- The system, from boot on. -/
def system : EventSystem Sys SysEvent where
  init s := ∃ clock, s = .boot clock
  next := Sys.next

end StarOS
