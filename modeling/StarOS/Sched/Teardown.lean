import StarOS.Sched.Lives

/-!
# Tearing an address space down

The threads of a program share one address space, and the last to exit returns it to the frame
pool. A thread that exits marks itself dead and decides whether it was the last in one critical
section of the scheduler's lock. What it was running on it leaves only after that: the core still
translates through the space until it has set its root to that of the successor.

This is the scheduler with the part of a task and of a core that is about address spaces beside
it. One event more is the core's `set_ttbr0`, and one the `destroy` of the last thread out.

## What is not here

What is in an address space is `Arch`, and that a frame handed out is not in use is `Mm.Buddy`:
here a space is built on a root that no other has.

## Bookkeeping

`home` is the space a task was spawned in, which `Task::space` says only until the task exits, and
`destroyed` how often `destroy` was called. No function of the source reads either.

## Main definitions

* `Space`, `Teardown`, `Teardown.next`, `teardown` — the machine
* `Teardown.destroys` — which space an event destroys
* `Teardown.Clear`, `Teardown.Once` — nothing uses a space any more; it is destroyed once
* `Teardown.LeftAlone` — the condition under which the last thread out is the last to leave

## Main results

* `Teardown.Step.of_next` — everything one event can do
-/

namespace StarOS

/-- What `_start` leaves in `TTBR0_EL1`, and a core's idle loop runs with: no user map at all. -/
def baseTtbr0 : ℕ := 0

/-- An address space, as far as its teardown goes. -/
structure Space where
  /-- The physical address of the level-0 table. -/
  root : ℕ
  /-- Whether a task was spawned in it. -/
  spawned : Bool
  /-- How often it was destroyed. -/
  destroyed : ℕ
  deriving DecidableEq

/-- The scheduler, and the address spaces. -/
structure Teardown where
  sched : Scheduler
  nspaces : ℕ
  space : ℕ → Space
  /-- `Task::ttbr0` -/
  ttbr0 : TaskId → ℕ
  /-- `Task::space` -/
  handle : TaskId → Option ℕ
  /-- The space a task was spawned in. -/
  home : TaskId → ℕ
  /-- `TTBR0_EL1` of a core. -/
  active : CpuId → ℕ
  /-- Whether a core in the middle of a switch has set its root. -/
  rooted : CpuId → Bool
  /-- `dead_space` of an exit in progress on a core. -/
  doomed : CpuId → Option ℕ

inductive TeardownEvent
  /-- `AddressSpace::new`, on a frame that is the root of no other space. -/
  | build (root : ℕ)
  /-- The space a spawn has built is given back: the spawn failed. -/
  | discard (id : ℕ)
  /-- `spawn_user` -/
  | spawn (id : ℕ) (ctx : Context)
  /-- `spawn_thread`, on core `c` -/
  | spawnThread (c : CpuId) (ctx : Context)
  /-- `exit`, up to where the scheduler's lock is dropped. -/
  | exit (c : CpuId)
  /-- Core `c`, about to switch, activates its successor's address space. -/
  | root (c : CpuId)
  /-- Core `c`, its own root set, destroys the space of the task it leaves. -/
  | destroy (c : CpuId)
  /-- Anything else the scheduler does. -/
  | sched (e : SchedEvent)
  deriving DecidableEq, Repr

namespace Teardown

/-- The machine before anything has been spawned. -/
def new : Teardown where
  sched := .new
  nspaces := 0
  space _ := ⟨baseTtbr0, false, 0⟩
  ttbr0 _ := baseTtbr0
  handle _ := none
  home _ := 0
  active _ := baseTtbr0
  rooted _ := false
  doomed _ := none

/-- Whether a space is built, and no task has been spawned in it. -/
def unspawned (s : Teardown) (id : ℕ) : Bool :=
  decide (id < s.nspaces) && !(s.space id).spawned && (s.space id).destroyed == 0

/-- A task is appended to the table, in space `id`. -/
def push (s : Teardown) (id : ℕ) (ctx : Context) : Teardown :=
  { s with
    sched := s.sched.spawn ctx
    ttbr0 := Function.update s.ttbr0 s.sched.ntasks (s.space id).root
    handle := Function.update s.handle s.sched.ntasks (some id)
    home := Function.update s.home s.sched.ntasks id
    space := Function.update s.space id { s.space id with spawned := true } }

/-- `AddressSpace::destroy` -/
def destroySpace (s : Teardown) (id : ℕ) : Teardown :=
  { s with
    space := Function.update s.space id
      { s.space id with destroyed := (s.space id).destroyed + 1 } }

/-- Whether a live task other than `t` names the root of `t`. -/
def shared (s : Teardown) (t : TaskId) : Bool :=
  (List.range s.sched.ntasks).any fun i =>
    i != t && (s.sched.task i).state != .dead && s.ttbr0 i == s.ttbr0 t

/-- `exit`, the death announced, up to where the scheduler's lock is dropped. -/
def exit (s : Teardown) (c : CpuId) (t : TaskId) : Teardown :=
  { s with
    sched := s.sched.exit c t
    handle := Function.update s.handle t none
    doomed := Function.update s.doomed c (if s.shared t then none else s.handle t) }

/-- The effect of an event, if it can happen. -/
def next (s : Teardown) : TeardownEvent → Option Teardown
  | .build root =>
    if root ≠ baseTtbr0 ∧ ∀ i ∈ List.range s.nspaces,
        (s.space i).destroyed = 0 → (s.space i).root ≠ root then
      some { s with
        nspaces := s.nspaces + 1
        space := Function.update s.space s.nspaces ⟨root, false, 0⟩ }
    else none
  | .discard id => if s.unspawned id then some (s.destroySpace id) else none
  | .spawn id ctx => if s.unspawned id then some (s.push id ctx) else none
  | .spawnThread c ctx => (s.sched.calling c).bind fun t => (s.handle t).map fun id => s.push id ctx
  | .exit c => (s.sched.calling c).map fun t => s.exit c t
  | .root c =>
    match (s.sched.core c).phase with
    | .switching _ into =>
      if s.rooted c then none
      else some { s with
        active := Function.update s.active c (into.elim baseTtbr0 s.ttbr0)
        rooted := Function.update s.rooted c true }
    | _ => none
  | .destroy c =>
    if s.rooted c then
      (s.doomed c).map fun id =>
        { s.destroySpace id with doomed := Function.update s.doomed c none }
    else none
  | .sched (.exit _) | .sched (.spawn _) => none
  | .sched (.switch c) =>
    if s.rooted c ∧ s.doomed c = none then
      (s.sched.next (.switch c)).map fun sched =>
        { s with sched, rooted := Function.update s.rooted c false }
    else none
  | .sched e => (s.sched.next e).map fun sched => { s with sched }

/-- The space an event that can happen destroys, if it destroys one. -/
def destroys (s : Teardown) : TeardownEvent → Option ℕ
  | .discard id => if s.unspawned id then some id else none
  | .destroy c => if s.rooted c then s.doomed c else none
  | _ => none

/-- No core translates through space `id`, and no live task names it. -/
structure Clear (s : Teardown) (id : ℕ) : Prop where
  active : ∀ c, s.active c ≠ (s.space id).root
  ttbr0 : ∀ t, s.sched.Alive t → s.ttbr0 t ≠ (s.space id).root
  handle : ∀ t, s.handle t ≠ some id

/-- Every task spawned in space `id` has exited. -/
def Ended (s : Teardown) (id : ℕ) : Prop :=
  ∀ t < s.sched.ntasks, s.home t = id → ¬ s.sched.Alive t

/-- A space is destroyed once its tasks have all exited, and once only: some core is about to, or
it is done. -/
structure Once (s : Teardown) (id : ℕ) : Prop where
  unended : ¬ s.Ended id → (s.space id).destroyed = 0 ∧ ∀ c, s.doomed c ≠ some id
  ended : s.Ended id → ((s.space id).destroyed = 0 ∧ ∃! c, s.doomed c = some id) ∨
    (s.space id).destroyed = 1 ∧ ∀ c, s.doomed c ≠ some id
  /-- A core that is about to is in the middle of its switch, which it cannot complete before. -/
  pending : ∀ c, s.doomed c = some id → (s.sched.core c).phase ≠ .running ∧
    s.next (.sched (.switch c)) = none

/-- What the teardown of address spaces is for. -/
structure Proper (s : Teardown) : Prop where
  clear : ∀ e id, s.destroys e = some id → s.Clear id
  once : ∀ id < s.nspaces, (s.space id).spawned = true → s.Once id

/-- A thread that exits as the last of its address space is the last to leave it: no other core,
on its way out of a sibling that has exited, translates through it still. -/
def LeftAlone (s : Teardown) (e : TeardownEvent) : Prop :=
  ∀ c t, e = .exit c → s.sched.calling c = some t → s.shared t = false →
    ∀ c', c' ≠ c → s.active c' ≠ s.ttbr0 t

/-! ### The steps -/

variable {s s' : Teardown} {c : CpuId} {t : TaskId} {id : ℕ}

theorem unspawned_eq_true (h : s.unspawned id = true) :
    id < s.nspaces ∧ (s.space id).spawned = false ∧ (s.space id).destroyed = 0 := by
  simp only [unspawned, Bool.and_eq_true, decide_eq_true_eq, Bool.not_eq_true', beq_iff_eq] at h
  exact ⟨h.1.1, h.1.2, h.2⟩

/-- The ways an event can go. -/
inductive Step (s : Teardown) : TeardownEvent → Teardown → Prop
  | build {root : ℕ} : root ≠ baseTtbr0 →
      (∀ i < s.nspaces, (s.space i).destroyed = 0 → (s.space i).root ≠ root) →
      Step s (.build root) { s with
        nspaces := s.nspaces + 1
        space := Function.update s.space s.nspaces ⟨root, false, 0⟩ }
  | discard {id : ℕ} : s.unspawned id = true → Step s (.discard id) (s.destroySpace id)
  | spawn {id : ℕ} {ctx : Context} : s.unspawned id = true → Step s (.spawn id ctx) (s.push id ctx)
  | spawnThread {c : CpuId} {t : TaskId} {id : ℕ} {ctx : Context} :
      s.sched.calling c = some t → s.handle t = some id →
      Step s (.spawnThread c ctx) (s.push id ctx)
  | exit {c : CpuId} {t : TaskId} : s.sched.calling c = some t → Step s (.exit c) (s.exit c t)
  | root {c : CpuId} {out into : Option TaskId} :
      (s.sched.core c).phase = .switching out into → s.rooted c = false →
      Step s (.root c) { s with
        active := Function.update s.active c (into.elim baseTtbr0 s.ttbr0)
        rooted := Function.update s.rooted c true }
  | destroy {c : CpuId} {id : ℕ} : s.rooted c = true → s.doomed c = some id →
      Step s (.destroy c)
        { s.destroySpace id with doomed := Function.update s.doomed c none }
  | sched {e : SchedEvent} {sched : Scheduler} {rooted : CpuId → Bool} :
      s.sched.next e = some sched → (∀ c, e ≠ .exit c) → (∀ ctx, e ≠ .spawn ctx) →
      (∀ c, e = .switch c → s.rooted c = true ∧ s.doomed c = none) →
      (∀ c, rooted c = if e = .switch c then false else s.rooted c) →
      Step s (.sched e) { s with sched, rooted }

/-- **The list is complete.** -/
theorem Step.of_next {e : TeardownEvent} (h : s.next e = some s') : Step s e s' := by
  cases e with
  | build root =>
    obtain ⟨⟨hbase, hfree⟩, h⟩ := Option.ite_none_right_eq_some.mp h
    exact Option.some.inj h ▸ .build hbase fun i hi => hfree i (List.mem_range.mpr hi)
  | discard id =>
    obtain ⟨hid, h⟩ := Option.ite_none_right_eq_some.mp h
    exact Option.some.inj h ▸ .discard hid
  | spawn id ctx =>
    obtain ⟨hid, h⟩ := Option.ite_none_right_eq_some.mp h
    exact Option.some.inj h ▸ .spawn hid
  | spawnThread c ctx =>
    obtain ⟨t, ht, h⟩ := Option.bind_eq_some_iff.mp h
    obtain ⟨id, hid, rfl⟩ := Option.map_eq_some_iff.mp h
    exact .spawnThread ht hid
  | exit c =>
    obtain ⟨t, ht, rfl⟩ := Option.map_eq_some_iff.mp h
    exact .exit ht
  | root c =>
    rw [next] at h
    split at h
    · next hp =>
      split at h
      · cases h
      · next hr => exact Option.some.inj h ▸ .root hp (by simpa using hr)
    · cases h
  | destroy c =>
    obtain ⟨hr, h⟩ := Option.ite_none_right_eq_some.mp h
    obtain ⟨id, hid, rfl⟩ := Option.map_eq_some_iff.mp h
    exact .destroy hr hid
  | sched e =>
    have hother : (s.sched.next e).map (fun sched => { s with sched }) = some s' →
        (∀ c, e ≠ .exit c) → (∀ ctx, e ≠ .spawn ctx) → (∀ c, e ≠ .switch c) →
        Step s (.sched e) s' := by
      intro h he hs hsw
      obtain ⟨sched, hsched, rfl⟩ := Option.map_eq_some_iff.mp h
      have hrooted : ∀ c, s.rooted c = if e = .switch c then false else s.rooted c :=
        fun c => (if_neg (hsw c)).symm
      exact .sched hsched he hs (fun c h => absurd h (hsw c)) hrooted
    cases e with
    | exit | spawn => cases h
    | switch c =>
      obtain ⟨⟨hr, hd⟩, h⟩ := Option.ite_none_right_eq_some.mp h
      obtain ⟨sched, hsched, rfl⟩ := Option.map_eq_some_iff.mp h
      refine .sched hsched nofun nofun (fun c' he => ?_) fun c' => ?_
      · obtain rfl := SchedEvent.switch.inj he
        exact ⟨hr, hd⟩
      · rcases eq_or_ne c' c with rfl | hne
        · simp
        · rw [Function.update_of_ne hne, if_neg]
          intro he
          exact hne (SchedEvent.switch.inj he).symm
    | _ => exact hother h nofun nofun nofun

/-- The scheduler is as it is by itself. -/
theorem Step.sched_next {e : TeardownEvent} (h : Step s e s') :
    s'.sched = s.sched ∨ ∃ e, s.sched.next e = some s'.sched := by
  cases h with
  | build | discard | root | destroy => exact .inl rfl
  | spawn => exact .inr ⟨.spawn _, rfl⟩
  | spawnThread => exact .inr ⟨.spawn _, rfl⟩
  | @exit c t ht => exact .inr ⟨.exit c, by rw [Scheduler.next, ht]; rfl⟩
  | sched h => exact .inr ⟨_, h⟩

end Teardown

/-- The scheduler and the address spaces, from boot on. -/
def teardown : EventSystem Teardown TeardownEvent where
  init s := s = .new
  next := Teardown.next

end StarOS
