import StarOS.Ipc.Endpoint
import StarOS.Kernel.Cap
import StarOS.Sched.Parking
import StarOS.Wait.Notify

/-!
# The waiting machine

Everything a task can wait for — a message, room for one, a signal, a time — goes through one
routine that parks it and two that wake it, while the reason for the wait is kept elsewhere, in an
endpoint or a notification under a lock of its own. This file is the machine those pieces make:
any number of tasks in any number of system calls, cores that take interrupts, and a clock.

One event is one critical section. A task is in the middle of a system call at a `Pc`, which says
what it does next and holds the locals it does it with; between two steps of it anything else can
happen. What a task or an interrupt handler is about to wake is in its list of `Job`s: a wake-up
in that list is in flight.

## What is not here

Which core runs which task is `Sched.Cores`. Here a task that is `Ready` may start to run at any
moment, and one that runs in user mode may stop. Interrupts are masked throughout the system calls
modelled, so a task in the middle of one only stops running by parking.

## Bookkeeping

A message is stamped with the endpoint that accepted it and with a number of its own, and the log
says what was accepted, received, signalled and returned. No function of the source reads either.

## Main definitions

* `Pc`, `Job`, `Kernel`, `Event`
* `Kernel.next`, `waiting` — the machine
* `Step` — everything one event can do
-/

namespace StarOS

/-- A message accepted by an endpoint: which number it was given, and by which endpoint. -/
structure Parcel where
  num : ℕ
  ep : ℕ
  km : KMessage
  deriving DecidableEq, Repr

/-- What a ring's unused slot holds. -/
def Parcel.empty : Parcel := ⟨0, 0, .empty⟩

/-- What has happened, as far as a caller could tell. -/
inductive Out
  /-- An endpoint accepted a message. -/
  | accepted (p : Parcel)
  /-- A receive of task `t` on endpoint `ep` came to hold the message it returns. -/
  | received (t : TaskId) (ep : ℕ) (p : Parcel)
  /-- A send of task `t` returned success. -/
  | sent (t : TaskId) (p : Parcel)
  /-- A live notification was signalled. -/
  | signalled (id : ℕ)
  /-- A live notification was signalled with its count at `u32::MAX`. -/
  | saturated (id : ℕ)
  /-- A wait of task `t` came to hold the index it returns, that of notification `id`. -/
  | waited (t : TaskId) (id : ℕ)
  /-- A sleep of task `t` until `deadline` returned success at `now`. -/
  | slept (t : TaskId) (deadline now : ℕ)
  deriving DecidableEq, Repr

/-- Where in the kernel a task parked: what it does when it is back. -/
inductive Resume
  /-- In `block_current`, for a send whose message waits with it. -/
  | sent (p : Parcel)
  /-- In `block_for_message`, for a receive on `ep`. -/
  | message (ep : ℕ)
  /-- In `block_until`, for a receive on `ep`. -/
  | timed (ep : ℕ)
  /-- In `block_until`, for `wait_any`. -/
  | waited (ids : List ℕ) (deadline : Option ℕ)
  /-- In `sleep_until`. -/
  | slept (deadline : ℕ)
  deriving DecidableEq, Repr

/-- What is done to others once the lock of a decision is dropped. -/
inductive Job
  /-- `notify::signal` -/
  | signal (id : ℕ)
  /-- `sched::unblock` -/
  | unblock (task : TaskId)
  /-- `sched::deliver` -/
  | deliver (task : TaskId) (p : Parcel)
  deriving DecidableEq, Repr

/-- What a task does after its jobs. -/
inductive Finish
  /-- Return to user mode. -/
  | ret
  /-- Return success from the send of `p`. -/
  | sent (p : Parcel)
  /-- Die. -/
  | exit
  deriving DecidableEq, Repr

/-- Where a task is. -/
inductive Pc
  | user
  /-- In `send_inner`, about to decide. -/
  | send (ep : ℕ) (km : KMessage) (mayBlock : Bool)
  /-- In `recv_until`, about to decide. -/
  | recv (ep : ℕ) (deadline : Option ℕ)
  /-- At the head of the loop of `wait_any`. -/
  | wait (ids : List ℕ) (deadline : Option ℕ)
  /-- At the foot of the loop of `wait_any`, about to read the clock. -/
  | waitCheck (ids : List ℕ) (deadline : ℕ)
  /-- About to enter `block_until`. -/
  | blockUntil (deadline : Option ℕ) (r : Resume)
  /-- About to enter `park_and_switch`. -/
  | park (parked : State) (r : Resume)
  /-- Back from `park_and_switch`, or still parked in it. -/
  | resume (r : Resume)
  /-- About to enter `cancel_recv_waiter`. -/
  | cancel (ep : ℕ)
  | jobs (todo : List Job) (finish : Finish)
  /-- Woken without a message, in a receive on `ep`. -/
  | panicked (ep : ℕ)
  | exited
  deriving DecidableEq, Repr

/-- The state of the machine. -/
structure Kernel where
  /-- How many tasks have been spawned. Slots are never reused. -/
  ntasks : ℕ
  task : TaskId → Parking Parcel
  pc : TaskId → Pc
  /-- The notification to signal when a task exits. -/
  deathNotify : TaskId → Option ℕ
  /-- What the interrupt handler of a core has left to do. -/
  irq : CpuId → List Job
  /-- How long the endpoint table is. -/
  neps : ℕ
  endpoint : ℕ → Endpoint Parcel
  notify : Notifications
  /-- The monotonic clock, if the machine has one. -/
  clock : Option ℕ
  /-- How many messages have been accepted. -/
  sends : ℕ
  log : List Out

/-- A system call, its handles resolved. -/
inductive Call
  | send (ep : ℕ) (km : KMessage)
  | sendNowait (ep : ℕ) (km : KMessage)
  | recv (ep : ℕ)
  | recvUntil (ep : ℕ) (deadline : ℕ)
  | wait (id : ℕ)
  | waitAny (ids : List ℕ) (deadline : Option ℕ)
  | sleepUntil (deadline : ℕ)
  | notifySignal (id : ℕ)
  | notifyOnExit (notif : Option ℕ)
  | exit
  deriving DecidableEq, Repr

/-- One critical section. -/
inductive Event
  /-- Time passes. -/
  | tick (now : ℕ)
  /-- `wake_expired`, in the epilogue of some interrupt. -/
  | wakeExpired
  /-- Core `c` takes an interrupt whose line is bound to notification `id`. -/
  | irq (c : CpuId) (id : ℕ)
  /-- The interrupt handler of core `c` does its next job. -/
  | irqJob (c : CpuId)
  | spawn
  /-- `ipc::allocate` -/
  | allocate
  /-- `notify::create` -/
  | create
  /-- `ipc::bind_notify` -/
  | bindNotify (ep : ℕ) (notif : Option ℕ)
  /-- A core takes task `t`. -/
  | dispatch (t : TaskId)
  /-- Task `t` is preempted, or yields, or leaves a core its affinity excludes. -/
  | preempt (t : TaskId)
  /-- Task `t`, in user mode, makes a system call. -/
  | call (t : TaskId) (c : Call)
  /-- Task `t` executes the critical section its `Pc` names. -/
  | step (t : TaskId)
  deriving DecidableEq, Repr

namespace Kernel

/-- The machine before anything has happened. -/
def boot (clock : Option ℕ) : Kernel where
  ntasks := 0
  task _ := .unborn
  pc _ := .exited
  deathNotify _ := none
  irq _ := []
  neps := 0
  endpoint _ := .new .empty
  notify := .empty
  clock := clock
  sends := 0
  log := []

/-- `sched::clock_now` -/
def clockNow (k : Kernel) : ℕ := k.clock.getD 0

/-- The signal owed to the notification bound to an endpoint. -/
def bound (notify : Option ℕ) : List Job := notify.toList.map .signal

/-- Task `t` is now at `pc`. -/
def goto (k : Kernel) (t : TaskId) (pc : Pc) : Kernel :=
  { k with pc := Function.update k.pc t pc }

/-! ### The critical sections of a task -/

/-- `ipc::send_inner`, up to where the endpoint lock is dropped. -/
def sendInner (k : Kernel) (t : TaskId) (ep : ℕ) (km : KMessage) (mayBlock : Bool) : Kernel :=
  let p : Parcel := ⟨k.sends, ep, km⟩
  match (k.endpoint ep).decideSend t p mayBlock with
  | (.deliver w, e) =>
    { k with
      endpoint := Function.update k.endpoint ep e
      sends := k.sends + 1
      log := k.log ++ [.accepted p]
      pc := Function.update k.pc t
        (.jobs (bound (k.endpoint ep).notify ++ [.deliver w p]) (.sent p)) }
  | (.buffered, e) =>
    { k with
      endpoint := Function.update k.endpoint ep e
      sends := k.sends + 1
      log := k.log ++ [.accepted p]
      pc := Function.update k.pc t (.jobs (bound (k.endpoint ep).notify) (.sent p)) }
  | (.block, e) =>
    { k with
      endpoint := Function.update k.endpoint ep e
      sends := k.sends + 1
      log := k.log ++ [.accepted p]
      pc := Function.update k.pc t (.park .blocked (.sent p)) }
  | (.full, _) | (.wouldBlock, _) => k.goto t .user

/-- `ipc::recv_until`, up to where the endpoint lock is dropped. -/
def recvUntil (k : Kernel) (t : TaskId) (ep : ℕ) (deadline : Option ℕ) : Kernel :=
  match (k.endpoint ep).decideRecv t with
  | (.got p, e) =>
    { k with
      endpoint := Function.update k.endpoint ep e
      log := k.log ++ [.received t ep p]
      pc := Function.update k.pc t .user }
  | (.wakeSender p tid, e) =>
    { k with
      endpoint := Function.update k.endpoint ep e
      log := k.log ++ [.received t ep p]
      pc := Function.update k.pc t
        (.jobs (bound (k.endpoint ep).notify ++ [.unblock tid]) .ret) }
  | (.block, e) =>
    { k with
      endpoint := Function.update k.endpoint ep e
      pc := Function.update k.pc t <|
        match deadline with
        | none => .park .blocked (.message ep)
        | some _ => .blockUntil deadline (.timed ep) }
  | (.full, _) => k.goto t .user

/-- The head of the loop of `notify::wait_any`: consume a signal, or give up, or register. -/
def waitAny (k : Kernel) (t : TaskId) (ids : List ℕ) (deadline : Option ℕ) : Kernel :=
  match k.notify.consumeReady ids with
  | some (_, id, notify) =>
    { k with notify, log := k.log ++ [.waited t id], pc := Function.update k.pc t .user }
  | none =>
    if deadline.any (· ≤ k.clockNow) then k.goto t .user
    else
      { k with
        notify := k.notify.register t ids
        pc := Function.update k.pc t (.blockUntil deadline (.waited ids deadline)) }

/-- The foot of the loop of `notify::wait_any`, with a deadline. -/
def waitCheck (k : Kernel) (t : TaskId) (ids : List ℕ) (deadline : ℕ) : Kernel :=
  if deadline ≤ k.clockNow then k.goto t .user else k.goto t (.wait ids (some deadline))

/-- `sched::block_until`: a deadline already past returns without parking. -/
def blockUntil (k : Kernel) (t : TaskId) (deadline : Option ℕ) (r : Resume) : Kernel :=
  match deadline with
  | none => k.goto t (.park .blocked r)
  | some d =>
    if k.clock.any (d ≤ ·) then k.goto t (.resume r) else k.goto t (.park (.sleeping d) r)

/-- `sched::park_and_switch` -/
def parkAndSwitch (k : Kernel) (t : TaskId) (parked : State) (r : Resume) : Kernel :=
  { k with
    task := Function.update k.task t ((k.task t).park parked)
    pc := Function.update k.pc t (.resume r) }

/-- A receive on `ep` takes message `p` from its mailbox. -/
def takeMailbox (k : Kernel) (t : TaskId) (ep : ℕ) (p : Parcel) : Kernel :=
  { k with
    task := Function.update k.task t (k.task t).takeMailbox
    log := k.log ++ [.received t ep p]
    pc := Function.update k.pc t .user }

/-- What a task does when it is back from parking. -/
def resume (k : Kernel) (t : TaskId) : Resume → Kernel
  | .sent p => { k with log := k.log ++ [.sent t p], pc := Function.update k.pc t .user }
  | .message ep =>
    match (k.task t).mailbox with
    | some p => k.takeMailbox t ep p
    | none => k.goto t (.panicked ep)
  | .timed ep =>
    match (k.task t).mailbox with
    | some p => k.takeMailbox t ep p
    | none => k.goto t (.cancel ep)
  | .waited ids deadline =>
    match (k.notify.deregister t ids).consumeReady ids with
    | some (_, id, notify) =>
      { k with notify, log := k.log ++ [.waited t id], pc := Function.update k.pc t .user }
    | none =>
      { k with
        notify := k.notify.deregister t ids
        pc := Function.update k.pc t <|
          match deadline with
          | none => .wait ids none
          | some d => .waitCheck ids d }
  | .slept d =>
    { k with log := k.log ++ [.slept t d k.clockNow], pc := Function.update k.pc t .user }

/-- `ipc::cancel_recv_waiter` -/
def cancelRecvWaiter (k : Kernel) (t : TaskId) (ep : ℕ) : Kernel :=
  { k with
    endpoint := Function.update k.endpoint ep ((k.endpoint ep).cancelRecvWaiter t)
    pc := Function.update k.pc t .user }

/-! ### Jobs -/

/-- What a signal leaves in the log. -/
def signalOut (n : Notification) (id : ℕ) : List Out :=
  if n.used then .signalled id :: (if n.pending = u32Max then [.saturated id] else []) else []

/-- The job done, and the jobs it leaves behind: a signal that took a waiter has it to wake. -/
def runJob (k : Kernel) : Job → Kernel × List Job
  | .signal id =>
    let (waiter, notify) := k.notify.signal id
    ({ k with notify, log := k.log ++ signalOut (k.notify.slot id) id },
      waiter.toList.map .unblock)
  | .unblock t => ({ k with task := Function.update k.task t (k.task t).unblock }, [])
  | .deliver t p => ({ k with task := Function.update k.task t ((k.task t).deliver p) }, [])

/-- The end of a call, its jobs done. -/
def finish (k : Kernel) (t : TaskId) : Finish → Kernel
  | .ret => k.goto t .user
  | .sent p => { k with log := k.log ++ [.sent t p], pc := Function.update k.pc t .user }
  | .exit =>
    { k with
      task := Function.update k.task t { k.task t with state := .dead }
      pc := Function.update k.pc t .exited }

/-- The next thing a task with jobs does. -/
def runJobs (k : Kernel) (t : TaskId) (f : Finish) : List Job → Kernel
  | [] => k.finish t f
  | job :: rest => (k.runJob job).1.goto t (.jobs ((k.runJob job).2 ++ rest) f)

/-! ### The machine -/

/-- The critical section the `Pc` of a running task names. -/
def step (k : Kernel) (t : TaskId) : Option Kernel :=
  if (k.task t).state = .running then
    match k.pc t with
    | .send ep km mayBlock => some (k.sendInner t ep km mayBlock)
    | .recv ep deadline => some (k.recvUntil t ep deadline)
    | .wait ids deadline => some (k.waitAny t ids deadline)
    | .waitCheck ids deadline => some (k.waitCheck t ids deadline)
    | .blockUntil deadline r => some (k.blockUntil t deadline r)
    | .park parked r => some (k.parkAndSwitch t parked r)
    | .resume r => some (k.resume t r)
    | .cancel ep => some (k.cancelRecvWaiter t ep)
    | .jobs todo f => some (k.runJobs t f todo)
    | .user | .panicked _ | .exited => none
  else none

/-- The start of a system call. A send or a receive on an endpoint that does not exist, and a
sleep on a machine without a clock, return an error at once; a wait names live notifications,
which the system call resolves from the caller's capabilities. -/
def call (k : Kernel) (t : TaskId) : Call → Option Kernel
  | .send ep km => some (if (k.endpoint ep).allocated then k.goto t (.send ep km true) else k)
  | .sendNowait ep km =>
    some (if (k.endpoint ep).allocated then k.goto t (.send ep km false) else k)
  | .recv ep => some (if (k.endpoint ep).allocated then k.goto t (.recv ep none) else k)
  | .recvUntil ep d => some (if (k.endpoint ep).allocated then k.goto t (.recv ep (some d)) else k)
  | .wait id => if (k.notify.slot id).used then some (k.goto t (.wait [id] none)) else none
  | .waitAny ids deadline =>
    if ids.all fun id => (k.notify.slot id).used then some (k.goto t (.wait ids deadline)) else none
  | .sleepUntil d =>
    match k.clock with
    | none => some k
    | some now =>
      if d ≤ now then some { k with log := k.log ++ [.slept t d now] }
      else some (k.goto t (.park (.sleeping d) (.slept d)))
  | .notifySignal id => some (k.goto t (.jobs [.signal id] .ret))
  | .notifyOnExit notif =>
    some { k with deathNotify := Function.update k.deathNotify t notif }
  | .exit =>
    some { k with
      deathNotify := Function.update k.deathNotify t none
      pc := Function.update k.pc t (.jobs (bound (k.deathNotify t)) .exit) }

/-- `ipc::allocate`: the first slot not handed out, or a new one. -/
def allocate (k : Kernel) : Kernel :=
  match (List.range k.neps).find? fun i => !(k.endpoint i).allocated with
  | some id =>
    { k with endpoint := Function.update k.endpoint id { Endpoint.new .empty with allocated := true } }
  | none =>
    { k with
      neps := k.neps + 1
      endpoint := Function.update k.endpoint k.neps { Endpoint.new .empty with allocated := true } }

/-- The effect of an event, if it can happen. -/
def next (k : Kernel) : Event → Option Kernel
  | .tick now =>
    match k.clock with
    | some n => if n ≤ now then some { k with clock := some now } else none
    | none => none
  | .wakeExpired => k.clock.map fun now => { k with task := fun t => (k.task t).wakeExpired now }
  | .irq c id =>
    if k.irq c = [] then some { k with irq := Function.update k.irq c [.signal id] } else none
  | .irqJob c =>
    match k.irq c with
    | [] => none
    | job :: rest =>
      some { (k.runJob job).1 with
        irq := Function.update k.irq c ((k.runJob job).2 ++ rest) }
  | .spawn =>
    some { k with
      ntasks := k.ntasks + 1
      task := Function.update k.task k.ntasks .fresh
      pc := Function.update k.pc k.ntasks .user }
  | .allocate => some k.allocate
  | .create => some { k with notify := k.notify.create.2 }
  | .bindNotify ep notif =>
    some <| if ep < k.neps then
      { k with
        endpoint := Function.update k.endpoint ep { k.endpoint ep with notify := notif } }
    else k
  | .dispatch t =>
    if (k.task t).state = .ready then
      some { k with task := Function.update k.task t { k.task t with state := .running } }
    else none
  | .preempt t =>
    if (k.task t).state = .running ∧ k.pc t = .user then
      some { k with task := Function.update k.task t { k.task t with state := .ready } }
    else none
  | .call t c => if (k.task t).state = .running ∧ k.pc t = .user then k.call t c else none
  | .step t => k.step t

end Kernel

/-- The machine, from boot on. -/
def waiting : EventSystem Kernel Event where
  init k := ∃ clock, k = .boot clock
  next := Kernel.next

end StarOS
