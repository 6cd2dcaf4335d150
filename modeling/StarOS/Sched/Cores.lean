import Mathlib.Algebra.Group.Nat.Defs
import StarOS.Kernel.Cap
import StarOS.Lib.EventSystem
import StarOS.Lib.Handover
import StarOS.Sched.Class
import StarOS.Sched.Parking

/-!
# The scheduler on several cores

One task table, one lock, any number of cores. This file is the scheduler's side of everything a
core can do to its current task: preempt it, yield, park it, migrate off it, end it, pick another
when idle; and of what anyone can do to any task: wake it, deliver to it, spawn one.

One event is one critical section of the scheduler's lock, or one context switch, which happens
with the lock dropped. `PREV` is a core's own, so `post_switch`, which takes it and then takes the
lock, is one event too.

## What is not here

Why a task parks and who wakes it is `Wait.Machine`; here any current task may park and any task
may be woken. Address spaces are left out, and so are the counters the shutdown report prints,
other than those of fairness decisions, inversions and reaped stacks.

## Bookkeeping

`last` is what the registers were when a task last used them. No function of the source reads it.

## Main definitions

* `Task`, `Core`, `Scheduler` — the state
* `Scheduler.next`, `scheduling` — the machine
* `Scheduler.handover` — what of it the handover protocol is about

## Main results

* `Scheduler.Step.of_next` — everything one event can do
-/

namespace StarOS

/-- The contents of the registers a context switch saves. -/
abbrev Context := ℕ

/-- Where a task is in `set_affinity`. -/
inductive Pinning
  /-- Not in it. -/
  | no
  /-- At the head of its loop. -/
  | check (mask : Mask)
  /-- About to enter `migrate_off`. -/
  | migrate (mask : Mask)
  /-- About to record the core it ended up on. -/
  | record
  deriving DecidableEq, Repr

/-- A schedulable task. -/
structure Task extends Parking KMessage where
  /-- The saved context. -/
  ctx : Context
  /-- Whether the slot owns its kernel stack still. -/
  stack : Bool
  /-- Some core is running this task or still saving its context. -/
  onCpu : Bool
  /-- Which cores this task may be picked by. -/
  affinity : Mask
  /-- The core that ran this task last. -/
  lastCpu : Option CpuId
  /-- Which band this task is picked in. -/
  cls : Class
  /-- Every core this task has run on since its affinity was last set. -/
  ranOn : Mask
  pinning : Pinning
  deriving DecidableEq

/-- The per-core part of the scheduler, and the core. -/
structure Core where
  /-- The task this core is running. -/
  current : Option TaskId
  /-- How many decisions this core has made, as a `u64`. -/
  picks : ℕ
  /-- The saved context of its idle loop. -/
  bootstrap : Context
  /-- `PREV`: the task this core last switched away from. -/
  prev : Option TaskId
  regs : Context
  phase : Handover.Phase TaskId
  deriving DecidableEq

/-- The scheduler state. -/
structure Scheduler where
  /-- How long the task table is. Slots are never reused. -/
  ntasks : ℕ
  task : TaskId → Task
  core : CpuId → Core
  /-- `FAIR_PICKS`, a `u64` -/
  fairPicks : ℕ
  /-- `INVERSIONS`, a `u64` -/
  inversions : ℕ
  /-- `REAPED_STACKS` -/
  reapedStacks : ℕ
  /-- What the registers were when a task last used them. -/
  last : TaskId → Context

namespace Task

/-- A task as it is spawned. -/
def spawned (ctx : Context) : Task where
  toParking := .fresh
  ctx := ctx
  stack := true
  onCpu := false
  affinity := Affinity.all
  lastCpu := none
  cls := .normal
  ranOn := 0
  pinning := .no

/-- A slot beyond the end of the table. -/
def unborn : Task := { spawned 0 with toParking := .unborn, stack := false }

/-- A task that no longer runs. -/
def runnable (t : Task) : Task := if t.state = .running then { t with state := .ready } else t

@[simp] theorem onCpu_runnable (t : Task) : t.runnable.onCpu = t.onCpu := by
  unfold runnable
  split <;> rfl

@[simp] theorem ctx_runnable (t : Task) : t.runnable.ctx = t.ctx := by
  unfold runnable
  split <;> rfl

end Task

namespace Scheduler

/-- The scheduler before anything has been spawned. -/
def new : Scheduler where
  ntasks := 0
  task _ := .unborn
  core _ := ⟨none, 0, 0, none, 0, .running⟩
  fairPicks := 0
  inversions := 0
  reapedStacks := 0
  last _ := 0

def modTask (s : Scheduler) (t : TaskId) (f : Task → Task) : Scheduler :=
  { s with task := Function.update s.task t (f (s.task t)) }

def modCore (s : Scheduler) (c : CpuId) (f : Core → Core) : Scheduler :=
  { s with core := Function.update s.core c (f (s.core c)) }

/-! ### Picking -/

/-- Whether core `cpu` may pick slot `i` now. -/
def pickable (s : Scheduler) (cpu : CpuId) (i : TaskId) : Bool :=
  (s.task i).state == .ready && Affinity.allows (s.task i).affinity cpu && !(s.task i).onCpu

/-- Whether core `cpu` is the natural home of slot `i`. -/
def sticky (s : Scheduler) (cpu : CpuId) (i : TaskId) : Bool :=
  Affinity.homedHere (s.task i).lastCpu cpu

/-- Move this core's fairness phase on by one decision. -/
def advance (s : Scheduler) (cpu : CpuId) (hadCandidate : Bool) : Scheduler :=
  if !hadCandidate then s
  else
    { s.modCore cpu fun core => { core with picks := (core.picks + 1) % 2 ^ 64 } with
      fairPicks := s.fairPicks + if Class.isFair (s.core cpu).picks then 1 else 0 }

/-- The slot core `cpu` should take next, and whether this decision was the fairness one. -/
def pick (s : Scheduler) (cpu : CpuId) (origin : TaskId) : Option (TaskId × Bool) × Scheduler :=
  let fair := Class.isFair (s.core cpu).picks
  let next := Class.choose s.ntasks origin (s.core cpu).picks (s.pickable cpu) (s.sticky cpu)
    fun i => (s.task i).cls
  (next.map (·, fair), s.advance cpu next.isSome)

/-- The slot core `cpu` should take when it is running nothing at all. -/
def pickIdle (s : Scheduler) (cpu : CpuId) : Option TaskId × Scheduler :=
  let next := Class.chooseFirst s.ntasks (s.core cpu).picks (s.pickable cpu) (s.sticky cpu)
    fun i => (s.task i).cls
  (next, s.advance cpu next.isSome)

/-- Record what a claim stepped over. -/
def account (s : Scheduler) (cpu : CpuId) (origin : Option TaskId) (next : TaskId) : Scheduler :=
  if (s.task next).cls ≠ .latency ∧ Class.outranked s.ntasks (s.task next).cls
      (fun i => some i != origin && s.pickable cpu i) (fun i => (s.task i).cls) then
    { s with inversions := s.inversions + 1 }
  else s

/-- Bit `cpu` added to the cores a task has run on. -/
def ranHere (ranOn : Mask) (cpu : CpuId) : Mask := if cpu < 64 then ranOn ||| 1 <<< cpu else ranOn

/-- Claim slot `next` for core `cpu`. -/
def take (s : Scheduler) (cpu : CpuId) (origin : Option TaskId) (next : TaskId) : Scheduler :=
  ((s.account cpu origin next).modTask next fun t =>
    { t with
      state := .running
      onCpu := true
      lastCpu := some cpu
      ranOn := ranHere t.ranOn cpu }).modCore cpu fun core => { core with current := some next }

/-! ### Leaving a core -/

/-- `reschedule`, up to the context switch. -/
def reschedule (s : Scheduler) (cpu : CpuId) (honourClass : Bool) : Scheduler :=
  match (s.core cpu).current with
  | none => s
  | some prev =>
    match s.pick cpu prev with
    | (none, s) => s
    | (some (next, fair), s) =>
      if honourClass && !Class.shouldSwitch (s.task prev).cls (s.task next).cls fair then s
      else
        let s := s.modTask prev Task.runnable
        (s.take cpu (some prev) next).modCore cpu fun core =>
          { core with prev := some prev, phase := .switching (some prev) (some next) }

/-- What `exit`, `migrate_off` and `park_and_switch` do once they have put the state of `prev`
right, up to the context switch. -/
def switchAway (s : Scheduler) (cpu : CpuId) (prev : TaskId) : Scheduler :=
  let s := s.modCore cpu fun core => { core with prev := some prev }
  match s.pick cpu prev with
  | (some (next, _), s) =>
    (s.take cpu (some prev) next).modCore cpu fun core =>
      { core with phase := .switching (some prev) (some next) }
  | (none, s) =>
    s.modCore cpu fun core =>
      { core with current := none, phase := .switching (some prev) none }

/-- `exit`, the death announced. -/
def exit (s : Scheduler) (cpu : CpuId) (prev : TaskId) : Scheduler :=
  (s.modTask prev fun t => { t with state := .dead }).switchAway cpu prev

/-- `migrate_off`: give up this core, staying runnable. -/
def migrateOff (s : Scheduler) (cpu : CpuId) (prev : TaskId) : Scheduler :=
  (s.modTask prev fun t => { t with state := .ready }).switchAway cpu prev

/-- `park_and_switch`: a wake-up already recorded is consumed instead. -/
def parkAndSwitch (s : Scheduler) (cpu : CpuId) (prev : TaskId) (parked : State) : Scheduler :=
  let s' := s.modTask prev fun t => { t with toParking := t.toParking.park parked }
  if (s.task prev).wakePending then s' else s'.switchAway cpu prev

/-- The body of the loops in `start` and `run_secondary`, up to the context switch. -/
def runIdle (s : Scheduler) (cpu : CpuId) : Scheduler :=
  match s.pickIdle cpu with
  | (some first, s) =>
    (s.take cpu none first).modCore cpu fun core =>
      { core with prev := none, phase := .switching none (some first) }
  | (none, s) => s

/-! ### Switching -/

/-- `context_switch`: save the registers as the context of `out`, and load that of `into`. -/
def contextSwitch (s : Scheduler) (cpu : CpuId) (out into : Option TaskId) : Scheduler :=
  let regs := (s.core cpu).regs
  let s :=
    match out with
    | some t => s.modTask t fun t => { t with ctx := regs }
    | none => s.modCore cpu fun core => { core with bootstrap := regs }
  s.modCore cpu fun core =>
    { core with regs := into.elim core.bootstrap fun t => (s.task t).ctx, phase := .arrived }

/-- `post_switch`: settle the task this core just switched away from, and if it exited reclaim its
kernel stack. -/
def postSwitch (s : Scheduler) (cpu : CpuId) : Scheduler :=
  let prev := (s.core cpu).prev
  let s := s.modCore cpu fun core => { core with prev := none, phase := .running }
  match prev with
  | none => s
  | some t =>
    let s := s.modTask t fun t => { t with onCpu := false }
    if (s.task t).state = .dead ∧ (s.task t).stack = true then
      { s.modTask t fun t => { t with stack := false } with reapedStacks := s.reapedStacks + 1 }
    else s

/-! ### System calls -/

/-- `set_affinity`, up to its loop. -/
def setAffinity (s : Scheduler) (t : TaskId) (mask online : Mask) : Scheduler :=
  if mask = 0 then s
  else if !Affinity.satisfiable mask online then s
  else s.modTask t fun t => { t with affinity := mask, ranOn := 0, pinning := .check mask }

/-- The rest of `set_affinity`, one step of it: leave this core for as long as it is excluded,
then record the core that is not. -/
def pin (s : Scheduler) (cpu : CpuId) (t : TaskId) : Scheduler :=
  match (s.task t).pinning with
  | .no => s
  | .check mask =>
    s.modTask t fun t =>
      { t with pinning := if Affinity.allows mask cpu then .record else .migrate mask }
  | .migrate mask => (s.modTask t fun t => { t with pinning := .check mask }).migrateOff cpu t
  | .record => s.modTask t fun t => { t with ranOn := ranHere t.ranOn cpu, pinning := .no }

/-- `set_class` -/
def setClass (s : Scheduler) (t : TaskId) (raw : ℕ) : Scheduler :=
  if raw = Class.query then s
  else
    match Class.fromRaw raw with
    | none => s
    | some new => s.modTask t fun t => { t with cls := new }

/-! ### Waking -/

/-- `unblock` -/
def unblock (s : Scheduler) (t : TaskId) : Scheduler :=
  s.modTask t fun t => { t with toParking := t.toParking.unblock }

/-- `deliver` -/
def deliver (s : Scheduler) (t : TaskId) (km : KMessage) : Scheduler :=
  s.modTask t fun t => { t with toParking := t.toParking.deliver km }

/-- `wake_expired` -/
def wakeExpired (s : Scheduler) (now : ℕ) : Scheduler :=
  { s with task := fun t => { s.task t with toParking := (s.task t).toParking.wakeExpired now } }

/-- `spawn_user` and `spawn_thread`, the task built: append it to the table. -/
def spawn (s : Scheduler) (ctx : Context) : Scheduler :=
  { s with
    ntasks := s.ntasks + 1
    task := Function.update s.task s.ntasks (.spawned ctx)
    last := Function.update s.last s.ntasks ctx }

/-! ### The machine -/

/-- What of the scheduler the handover protocol is about. -/
def handover (s : Scheduler) : Handover CpuId TaskId Context where
  current := Core.current ∘ s.core
  prev := Core.prev ∘ s.core
  phase := Core.phase ∘ s.core
  busy := Task.onCpu ∘ s.task
  ctx := Task.ctx ∘ s.task
  idle := Core.bootstrap ∘ s.core
  regs := Core.regs ∘ s.core
  last := s.last

/-- Whatever core `cpu` runs leaves `r` in its registers. -/
def exec (s : Scheduler) (cpu : CpuId) (r : Context) : Scheduler :=
  { s.modCore cpu fun core => { core with regs := r } with
    last := fun t => if s.handover.owner cpu = some t then r else s.last t }

end Scheduler

/-- One critical section of the scheduler, or one context switch. -/
inductive SchedEvent
  /-- Core `c` executes. -/
  | exec (c : CpuId) (r : Context)
  /-- Core `c` takes a timer interrupt. -/
  | preempt (c : CpuId)
  /-- Core `c`, running nothing, looks for a task. -/
  | idle (c : CpuId)
  /-- Core `c` performs its context switch. -/
  | switch (c : CpuId)
  /-- Core `c` runs `post_switch`. -/
  | settle (c : CpuId)
  | yield (c : CpuId)
  | park (c : CpuId) (parked : State)
  | exit (c : CpuId)
  | setAffinity (c : CpuId) (mask online : Mask)
  /-- The task on core `c` goes on with `set_affinity`. -/
  | pin (c : CpuId)
  | setClass (c : CpuId) (raw : ℕ)
  | unblock (t : TaskId)
  | deliver (t : TaskId) (km : KMessage)
  | wakeExpired (now : ℕ)
  | spawn (ctx : Context)
  deriving DecidableEq, Repr

namespace Scheduler

/-- The task that runs on core `c`, the core not in the middle of a switch. -/
def running (s : Scheduler) (c : CpuId) : Option TaskId :=
  if (s.core c).phase = .running then (s.core c).current else none

/-- The same, if it is not in the middle of a system call either. -/
def calling (s : Scheduler) (c : CpuId) : Option TaskId :=
  (s.running c).filter fun t => (s.task t).pinning == .no

/-- The effect of an event, if it can happen. -/
def next (s : Scheduler) : SchedEvent → Option Scheduler
  | .exec c r => some (s.exec c r)
  | .preempt c => if (s.core c).phase = .running then some (s.reschedule c true) else none
  | .idle c =>
    if (s.core c).phase = .running ∧ (s.core c).current = none then some (s.runIdle c) else none
  | .switch c =>
    match (s.core c).phase with
    | .switching out into => some (s.contextSwitch c out into)
    | _ => none
  | .settle c => if (s.core c).phase = .arrived then some (s.postSwitch c) else none
  | .yield c => (s.calling c).map fun _ => s.reschedule c false
  | .park c parked =>
    if parked.parked then (s.calling c).map fun t => s.parkAndSwitch c t parked else none
  | .exit c => (s.calling c).map fun t => s.exit c t
  | .setAffinity c mask online => (s.calling c).map fun t => s.setAffinity t mask online
  | .pin c => (s.running c).map fun t => s.pin c t
  | .setClass c raw => (s.calling c).map fun t => s.setClass t raw
  | .unblock t => if t < s.ntasks then some (s.unblock t) else none
  | .deliver t km => if t < s.ntasks then some (s.deliver t km) else none
  | .wakeExpired now => some (s.wakeExpired now)
  | .spawn ctx => some (s.spawn ctx)

theorem running_eq_some {s : Scheduler} {c : CpuId} {t : TaskId} (h : s.running c = some t) :
    (s.core c).phase = .running ∧ (s.core c).current = some t := by
  simpa [running] using h

theorem calling_eq_some {s : Scheduler} {c : CpuId} {t : TaskId} (h : s.calling c = some t) :
    (s.core c).phase = .running ∧ (s.core c).current = some t :=
  running_eq_some (Option.filter_eq_some_iff.mp h).1

/-- The ways an event can go. -/
inductive Step (s : Scheduler) : SchedEvent → Scheduler → Prop
  | exec {c : CpuId} {r : Context} : Step s (.exec c r) (s.exec c r)
  | preempt {c : CpuId} : (s.core c).phase = .running → Step s (.preempt c) (s.reschedule c true)
  | idle {c : CpuId} : (s.core c).phase = .running → (s.core c).current = none →
      Step s (.idle c) (s.runIdle c)
  | switch {c : CpuId} {out into : Option TaskId} : (s.core c).phase = .switching out into →
      Step s (.switch c) (s.contextSwitch c out into)
  | settle {c : CpuId} : (s.core c).phase = .arrived → Step s (.settle c) (s.postSwitch c)
  | yield {c : CpuId} {t : TaskId} : s.calling c = some t →
      Step s (.yield c) (s.reschedule c false)
  | park {c : CpuId} {t : TaskId} {parked : State} : s.calling c = some t → parked.parked = true →
      Step s (.park c parked) (s.parkAndSwitch c t parked)
  | exit {c : CpuId} {t : TaskId} : s.calling c = some t → Step s (.exit c) (s.exit c t)
  | setAffinity {c : CpuId} {t : TaskId} {mask online : Mask} : s.calling c = some t →
      Step s (.setAffinity c mask online) (s.setAffinity t mask online)
  | pin {c : CpuId} {t : TaskId} : s.running c = some t → Step s (.pin c) (s.pin c t)
  | setClass {c : CpuId} {t : TaskId} {raw : ℕ} : s.calling c = some t →
      Step s (.setClass c raw) (s.setClass t raw)
  | unblock {t : TaskId} : t < s.ntasks → Step s (.unblock t) (s.unblock t)
  | deliver {t : TaskId} {km : KMessage} : t < s.ntasks → Step s (.deliver t km) (s.deliver t km)
  | wakeExpired {now : ℕ} : Step s (.wakeExpired now) (s.wakeExpired now)
  | spawn {ctx : Context} : Step s (.spawn ctx) (s.spawn ctx)

/-- **The list is complete.** -/
theorem Step.of_next {s s' : Scheduler} {e : SchedEvent} (h : s.next e = some s') :
    Step s e s' := by
  cases e with
  | exec c r => exact Option.some.inj h ▸ .exec
  | preempt c =>
    obtain ⟨hp, h⟩ := Option.ite_none_right_eq_some.mp h
    exact Option.some.inj h ▸ .preempt hp
  | idle c =>
    obtain ⟨⟨hp, hc⟩, h⟩ := Option.ite_none_right_eq_some.mp h
    exact Option.some.inj h ▸ .idle hp hc
  | switch c =>
    simp only [next] at h
    split at h
    · next hp => exact Option.some.inj h ▸ .switch hp
    · cases h
  | settle c =>
    obtain ⟨hp, h⟩ := Option.ite_none_right_eq_some.mp h
    exact Option.some.inj h ▸ .settle hp
  | yield c =>
    obtain ⟨t, ht, rfl⟩ := Option.map_eq_some_iff.mp h
    exact .yield ht
  | park c parked =>
    obtain ⟨hp, h⟩ := Option.ite_none_right_eq_some.mp h
    obtain ⟨t, ht, rfl⟩ := Option.map_eq_some_iff.mp h
    exact .park ht hp
  | exit c =>
    obtain ⟨t, ht, rfl⟩ := Option.map_eq_some_iff.mp h
    exact .exit ht
  | setAffinity c mask online =>
    obtain ⟨t, ht, rfl⟩ := Option.map_eq_some_iff.mp h
    exact .setAffinity ht
  | pin c =>
    obtain ⟨t, ht, rfl⟩ := Option.map_eq_some_iff.mp h
    exact .pin ht
  | setClass c raw =>
    obtain ⟨t, ht, rfl⟩ := Option.map_eq_some_iff.mp h
    exact .setClass ht
  | unblock t =>
    obtain ⟨ht, h⟩ := Option.ite_none_right_eq_some.mp h
    exact Option.some.inj h ▸ .unblock ht
  | deliver t km =>
    obtain ⟨ht, h⟩ := Option.ite_none_right_eq_some.mp h
    exact Option.some.inj h ▸ .deliver ht
  | wakeExpired now => exact Option.some.inj h ▸ .wakeExpired
  | spawn ctx => exact Option.some.inj h ▸ .spawn

end Scheduler

/-- The scheduler and its cores, from boot on. -/
def scheduling : EventSystem Scheduler SchedEvent where
  init s := s = .new
  next := Scheduler.next

/-- **The invariant rule of the machine.** -/
theorem scheduling_invariant {I : Scheduler → Prop} (h₀ : I .new)
    (hstep : ∀ s e s', I s → Scheduler.Step s e s' → I s') {s : Scheduler}
    (h : scheduling.Reachable s) : I s :=
  h.invariant (fun _ hs => hs ▸ h₀) fun s e s' hi _ hn => hstep s e s' hi (.of_next hn)

end StarOS
