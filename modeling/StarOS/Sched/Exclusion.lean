import StarOS.Sched.Cores

/-!
# One core at a time

The scheduler follows the handover protocol: `on_cpu` is the protocol's mark of a busy task, `PREV`
its record of the task left and not settled. So a task is the current one of one core at most, and
a core only takes a task whose context was saved in full by the core that ran it last.

## Main results

* `Scheduler.Step.handover` — the scheduler refines the protocol
* `exclusive_and_fresh`
* `Scheduler.regs_of_running` — a task runs on its own registers
-/

namespace StarOS

namespace Scheduler

variable {s s' : Scheduler} {c : CpuId} {t : TaskId}

/-! ### What the pieces do to the protocol's state -/

/-- What changes neither `on_cpu` nor the context of a task is nothing to the protocol. -/
theorem handover_modTask {f : Task → Task} (hcpu : (f (s.task t)).onCpu = (s.task t).onCpu)
    (hctx : (f (s.task t)).ctx = (s.task t).ctx) : (s.modTask t f).handover = s.handover := by
  simp [handover, modTask, Function.comp_update, Function.update_eq_self_iff, hcpu, hctx]

@[simp] theorem handover_advance (had : Bool) : (s.advance c had).handover = s.handover := by
  unfold advance
  split
  · rfl
  · simp [handover, modCore, Function.comp_update, Function.update_eq_self_iff]

@[simp] theorem core_account (origin : Option TaskId) (next : TaskId) :
    (s.account c origin next).core = s.core := by
  unfold account
  split <;> rfl

@[simp] theorem task_account (origin : Option TaskId) (next : TaskId) :
    (s.account c origin next).task = s.task := by
  unfold account
  split <;> rfl

@[simp] theorem ntasks_account (origin : Option TaskId) (next : TaskId) :
    (s.account c origin next).ntasks = s.ntasks := by
  unfold account
  split <;> rfl

@[simp] theorem last_account (origin : Option TaskId) (next : TaskId) :
    (s.account c origin next).last = s.last := by
  unfold account
  split <;> rfl

@[simp] theorem task_advance (had : Bool) : (s.advance c had).task = s.task := by
  unfold advance
  split <;> rfl

@[simp] theorem ntasks_advance (had : Bool) : (s.advance c had).ntasks = s.ntasks := by
  unfold advance
  split <;> rfl

theorem pickable_onCpu (h : s.pickable c t = true) : (s.task t).onCpu = false := by
  simp only [pickable, Bool.and_eq_true, Bool.not_eq_true'] at h
  exact h.2

/-- What is picked is on no core. -/
theorem pick_eq_some {origin next : TaskId} {fair : Bool}
    (h : s.pick c origin = (some (next, fair), s')) :
    next < s.ntasks ∧ s.pickable c next = true ∧ s'.handover = s.handover ∧ s'.task = s.task ∧
      s'.ntasks = s.ntasks := by
  unfold pick at h
  obtain ⟨hnext, rfl⟩ := Prod.mk.inj h
  obtain ⟨n, hn, heq⟩ := Option.map_eq_some_iff.mp hnext
  obtain ⟨rfl, -⟩ := Prod.mk.inj heq
  obtain ⟨hlt, -, hp⟩ := Class.choose_eq_some hn
  exact ⟨hlt, hp, handover_advance _, task_advance _, ntasks_advance _⟩

theorem pick_eq_none {origin : TaskId} (h : s.pick c origin = (none, s')) : s' = s := by
  unfold pick at h
  obtain ⟨hnext, rfl⟩ := Prod.mk.inj h
  rw [Option.map_eq_none_iff.mp hnext]
  rfl

theorem pickIdle_eq_none (h : s.pickIdle c = (none, s')) : s' = s := by
  unfold pickIdle at h
  obtain ⟨hnext, rfl⟩ := Prod.mk.inj h
  rw [hnext]
  rfl

theorem pickIdle_eq_some {next : TaskId} (h : s.pickIdle c = (some next, s')) :
    next < s.ntasks ∧ s.pickable c next = true ∧ s'.handover = s.handover ∧ s'.task = s.task ∧
      s'.ntasks = s.ntasks := by
  unfold pickIdle at h
  obtain ⟨hn, rfl⟩ := Prod.mk.inj h
  obtain ⟨hlt, hp⟩ := Class.chooseFirst_eq_some hn
  exact ⟨hlt, hp, handover_advance _, task_advance _, ntasks_advance _⟩

theorem handover_modCore_prev {prev : Option TaskId} :
    (s.modCore c fun core => { core with prev }).handover =
      { s.handover with prev := Function.update s.handover.prev c prev } := by
  simp [handover, modCore, Function.comp_update, Function.update_eq_self_iff]

/-- A claim. -/
theorem handover_take {origin : Option TaskId} {next : TaskId} {phase : Handover.Phase TaskId} :
    ((s.take c origin next).modCore c fun core => { core with phase }).handover =
      { s.handover with
        current := Function.update s.handover.current c (some next)
        phase := Function.update s.handover.phase c phase
        busy := Function.update s.handover.busy next true } := by
  simp [handover, take, modTask, modCore, Function.comp_update, Function.update_eq_self_iff]

/-- A claim made with `PREV` not yet stored. -/
theorem handover_take_prev {origin prev : Option TaskId} {next : TaskId}
    {phase : Handover.Phase TaskId} :
    ((s.take c origin next).modCore c fun core => { core with prev, phase }).handover =
      { s.handover with
        current := Function.update s.handover.current c (some next)
        prev := Function.update s.handover.prev c prev
        phase := Function.update s.handover.phase c phase
        busy := Function.update s.handover.busy next true } := by
  simp [handover, take, modTask, modCore, Function.comp_update, Function.update_eq_self_iff]

/-! ### What the events do to it -/

/-- The ways an event can go, as far as the protocol is concerned. -/
inductive Moved (s : Scheduler) (e : SchedEvent) (s' : Scheduler) : Prop
  | stay : s'.handover = s.handover → Moved s e s'
  | exec {c : CpuId} {r : Context} : s'.handover = s.handover.exec c r → Moved s e s'
  /-- Core `c` leaves what it was running for its idle loop. -/
  | leave {c : CpuId} : (s.core c).phase = .running → s'.handover = s.handover.leave c →
      Moved s e s'
  /-- Core `c` leaves what it was running for a task on no core. -/
  | take {c : CpuId} {next : TaskId} : (s.core c).phase = .running →
      (s.task next).onCpu = false →
      s'.handover = (s.handover.leave c).take c (s.core c).current next → Moved s e s'
  | switch {c : CpuId} {out into : Option TaskId} : (s.core c).phase = .switching out into →
      s'.handover = (s.handover.save c out).load c into → Moved s e s'
  | settle {c : CpuId} : e = .settle c → (s.core c).phase = .arrived →
      s'.handover = s.handover.settle c → Moved s e s'
  | spawn {r : Context} : s'.handover = s.handover.spawn s.ntasks r → Moved s e s'

variable {e : SchedEvent}

/-- Core `c` leaves what it was running, for its idle loop or for a task on no core. -/
inductive Left (s : Scheduler) (c : CpuId) (s' : Scheduler) : Prop
  | idle : (s.core c).phase = .running → s'.handover = s.handover.leave c → Left s c s'
  | take {next : TaskId} : (s.core c).phase = .running → (s.task next).onCpu = false →
      (s'.task next).state = .running →
      s'.handover = (s.handover.leave c).take c (s.core c).current next → Left s c s'

theorem Left.moved (h : Left s c s') : Moved s e s' := by
  cases h with
  | idle hp h => exact .leave hp h
  | take hp hb _ h => exact .take hp hb h

theorem state_take (origin : Option TaskId) (next : TaskId) (f : Core → Core) :
    ((((s.take c origin next).modCore c f).task next).state) = .running := by
  simp [take, modTask, modCore]

theorem left_switchAway (hp : (s.core c).phase = .running) (hc : (s.core c).current = some t) :
    Left s c (s.switchAway c t) := by
  obtain ⟨next, s₁, hpick⟩ : ∃ next s₁,
      (s.modCore c fun core => { core with prev := some t }).pick c t = (next, s₁) := ⟨_, _, rfl⟩
  rw [switchAway]
  simp only [hpick]
  cases next with
  | none =>
    obtain rfl := pick_eq_none hpick
    refine .idle hp ?_
    simp [handover, modCore, Function.comp_update, Function.update_eq_self_iff, Handover.leave, hc]
  | some next =>
    obtain ⟨-, hpickable, hs₁, -⟩ := pick_eq_some hpick
    refine .take hp (pickable_onCpu hpickable) (state_take ..) ?_
    simp only [handover_take, hs₁, handover_modCore_prev, Handover.leave, Handover.take]
    simp [handover, hc]

/-- The same after a change to the state of the task. -/
theorem left_switchAway_modTask {f : Task → Task} (hcpu : ∀ x, (f x).onCpu = x.onCpu)
    (hctx : ∀ x, (f x).ctx = x.ctx) (hp : (s.core c).phase = .running)
    (hc : (s.core c).current = some t) : Left s c ((s.modTask t f).switchAway c t) := by
  have hsame : (s.modTask t f).handover = s.handover := handover_modTask (hcpu _) (hctx _)
  have honCpu : ∀ u, ((s.modTask t f).task u).onCpu = (s.task u).onCpu :=
    congrFun (congrArg Handover.busy hsame)
  cases left_switchAway (s := s.modTask t f) hp hc with
  | idle hp h => exact .idle hp (hsame ▸ h)
  | take hp hb hrun h => exact .take hp (honCpu _ ▸ hb) hrun (hsame ▸ h)

theorem left_reschedule (hp : (s.core c).phase = .running) (honour : Bool) :
    (s.reschedule c honour).handover = s.handover ∨ Left s c (s.reschedule c honour) := by
  rw [reschedule]
  cases hc : (s.core c).current with
  | none => exact .inl rfl
  | some prev =>
    obtain ⟨next, s₁, hpick⟩ : ∃ next s₁, s.pick c prev = (next, s₁) := ⟨_, _, rfl⟩
    simp only [hpick]
    cases next with
    | none => exact .inl (by rw [pick_eq_none hpick])
    | some next =>
      obtain ⟨-, hpickable, hs₁, -⟩ := pick_eq_some hpick
      dsimp only
      split
      · exact .inl hs₁
      · refine .inr (.take hp (pickable_onCpu hpickable) (state_take ..) ?_)
        have hsame : (s₁.modTask prev Task.runnable).handover = s.handover :=
          (handover_modTask (by simp) (by simp)).trans hs₁
        simp only [handover_take_prev, hsame, Handover.leave, Handover.take]
        simp [handover, hc]

theorem left_runIdle (hp : (s.core c).phase = .running) (hc : (s.core c).current = none) :
    (s.runIdle c).handover = s.handover ∨ Left s c (s.runIdle c) := by
  obtain ⟨next, s₁, hpick⟩ : ∃ next s₁, s.pickIdle c = (next, s₁) := ⟨_, _, rfl⟩
  rw [runIdle]
  simp only [hpick]
  cases next with
  | none => exact .inl (by rw [pickIdle_eq_none hpick])
  | some next =>
    obtain ⟨-, hpickable, hs₁, -⟩ := pickIdle_eq_some hpick
    refine .inr (.take hp (pickable_onCpu hpickable) (state_take ..) ?_)
    simp only [handover_take_prev, hs₁, Handover.leave, Handover.take]
    simp [handover, hc]

theorem left_parkAndSwitch {parked : State} (ht : s.calling c = some t) :
    (s.parkAndSwitch c t parked).handover = s.handover ∨
      Left s c (s.parkAndSwitch c t parked) := by
  obtain ⟨hp, hc⟩ := calling_eq_some ht
  rw [parkAndSwitch]
  split
  · exact .inl (handover_modTask rfl rfl)
  · exact .inr (left_switchAway_modTask (fun _ => rfl) (fun _ => rfl) hp hc)

theorem left_exit (ht : s.calling c = some t) : Left s c (s.exit c t) := by
  obtain ⟨hp, hc⟩ := calling_eq_some ht
  exact left_switchAway_modTask (fun _ => rfl) (fun _ => rfl) hp hc

/-- `migrate_off`, the loop of `set_affinity` entered again. -/
theorem left_migrateOff {mask : Mask} (hp : (s.core c).phase = .running)
    (hc : (s.core c).current = some t) :
    Left s c ((s.modTask t fun t => { t with pinning := .check mask }).migrateOff c t) := by
  have htwice : (s.modTask t fun t => { t with pinning := .check mask }).migrateOff c t =
      (s.modTask t fun t => { t with pinning := .check mask, state := .ready }).switchAway c t := by
    simp [migrateOff, modTask]
  rw [htwice]
  exact left_switchAway_modTask (fun _ => rfl) (fun _ => rfl) hp hc

theorem handover_exec (r : Context) : (s.exec c r).handover = s.handover.exec c r := by
  simp [exec, handover, modCore, Function.comp_update, Function.update_eq_self_iff, Handover.exec]

theorem handover_contextSwitch (out into : Option TaskId) :
    (s.contextSwitch c out into).handover = (s.handover.save c out).load c into := by
  have hctx : ∀ t u r, (Function.update s.task t { s.task t with ctx := r } u).ctx =
      Function.update (Task.ctx ∘ s.task) t r u :=
    fun t u r => Function.apply_update (fun _ => Task.ctx) s.task t _ u
  cases out <;> cases into <;>
    simp [contextSwitch, handover, modCore, modTask, Function.comp_update,
      Function.update_eq_self_iff, Handover.save, Handover.load, hctx]

theorem handover_postSwitch : (s.postSwitch c).handover = s.handover.settle c := by
  unfold postSwitch
  cases hprev : (s.core c).prev with
  | none =>
    simp [handover, modCore, Function.comp_update, Function.update_eq_self_iff, Handover.settle,
      hprev]
  | some t =>
    dsimp only
    split <;>
      simp [handover, modCore, modTask, Function.comp_update, Function.update_eq_self_iff,
        Handover.settle, hprev]

theorem handover_spawn (r : Context) (h : (s.task s.ntasks).onCpu = false) :
    (s.spawn r).handover = s.handover.spawn s.ntasks r := by
  simp [spawn, handover, Function.comp_update, Function.update_eq_self_iff, Handover.spawn,
    Task.spawned, h]

theorem Step.moved (h : Step s e s') (hb : (s.task s.ntasks).onCpu = false) : Moved s e s' := by
  have hstay : ∀ {t : TaskId} {f : Task → Task}, (∀ x, (f x).onCpu = x.onCpu) →
      (∀ x, (f x).ctx = x.ctx) → Moved s e (s.modTask t f) :=
    fun hcpu hctx => .stay (handover_modTask (hcpu _) (hctx _))
  cases h with
  | exec => exact .exec (handover_exec _)
  | preempt hp => exact (left_reschedule hp true).elim .stay Left.moved
  | idle hp hc => exact (left_runIdle hp hc).elim .stay Left.moved
  | switch hp => exact .switch hp (handover_contextSwitch _ _)
  | settle hp => exact .settle rfl hp handover_postSwitch
  | yield ht => exact (left_reschedule (calling_eq_some ht).1 false).elim .stay Left.moved
  | park ht => exact (left_parkAndSwitch ht).elim .stay Left.moved
  | exit ht => exact (left_exit ht).moved
  | setAffinity =>
    unfold Scheduler.setAffinity
    split
    · exact .stay rfl
    · split
      · exact .stay rfl
      · exact hstay (fun _ => rfl) fun _ => rfl
  | @pin c t ht =>
    obtain ⟨hp, hc⟩ := running_eq_some ht
    unfold Scheduler.pin
    split
    · exact .stay rfl
    · exact hstay (fun _ => rfl) fun _ => rfl
    · exact (left_migrateOff hp hc).moved
    · exact hstay (fun _ => rfl) fun _ => rfl
  | setClass =>
    unfold Scheduler.setClass
    split
    · exact .stay rfl
    · split
      · exact .stay rfl
      · exact hstay (fun _ => rfl) fun _ => rfl
  | unblock | deliver => exact hstay (fun _ => rfl) fun _ => rfl
  | wakeExpired => exact .stay rfl
  | spawn => exact .spawn (handover_spawn _ hb)

/-- **The scheduler refines the handover protocol.** -/
theorem Step.handover (h : Step s e s') (hb : (s.task s.ntasks).onCpu = false) :
    Relation.ReflTransGen Handover.Step s.handover s'.handover := by
  cases h.moved hb with
  | stay h => exact h ▸ .refl
  | exec h => exact h ▸ .single .exec
  | leave hp h => exact h ▸ .single (.leave hp)
  | @take c next hp hb h =>
    have htake : Handover.Step (s.handover.leave c) _ :=
      .take (c := c) (t := next) (Function.update_self ..) hb
    exact h ▸ .tail (.single (.leave hp)) htake
  | switch hp h => exact h ▸ .single (.switch hp)
  | settle _ hp h => exact h ▸ .single (.settle hp)
  | spawn h => exact h ▸ .single (.spawn hb)

/-! ### Slots beyond the end of the table -/

/-- No slot beyond the end of the table is on a core. -/
def Bounded (s : Scheduler) : Prop := ∀ t, s.ntasks ≤ t → (s.task t).onCpu = false

theorem Bounded.modTask (h : s.Bounded) {f : Task → Task}
    (hf : ∀ x : Task, x.onCpu = false → (f x).onCpu = false) : (s.modTask t f).Bounded := by
  intro u hu
  rcases eq_or_ne u t with rfl | hne
  · simpa [Scheduler.modTask] using hf _ (h u hu)
  · simpa [Scheduler.modTask, hne] using h u hu

theorem Bounded.congr (h : s.Bounded) (hn : s'.ntasks = s.ntasks) (ht : s'.task = s.task) :
    s'.Bounded := by
  intro u hu
  rw [ht]
  exact h u (hn ▸ hu)

theorem Bounded.take (h : s.Bounded) {origin : Option TaskId} {next : TaskId}
    (hlt : next < s.ntasks) : (s.take c origin next).Bounded := by
  have hacc : (s.account c origin next).ntasks = s.ntasks := by
    unfold account
    split <;> rfl
  intro u hu
  have hle : s.ntasks ≤ u := hacc ▸ hu
  have hne : u ≠ next := by
    rintro rfl
    exact absurd hlt (Nat.not_lt.mpr hle)
  simpa [Scheduler.take, Scheduler.modTask, modCore, hne] using h u hle

theorem Bounded.switchAway (h : s.Bounded) : (s.switchAway c t).Bounded := by
  obtain ⟨next, s₁, hpick⟩ : ∃ next s₁,
      (s.modCore c fun core => { core with prev := some t }).pick c t = (next, s₁) := ⟨_, _, rfl⟩
  unfold Scheduler.switchAway
  simp only [hpick]
  cases next with
  | none => exact pick_eq_none hpick ▸ h
  | some next =>
    obtain ⟨hlt, -, -, htask, hn⟩ := pick_eq_some hpick
    exact (h.congr hn htask).take (hn ▸ hlt)

theorem Bounded.reschedule (h : s.Bounded) (honour : Bool) :
    (s.reschedule c honour).Bounded := by
  unfold Scheduler.reschedule
  cases hc : (s.core c).current with
  | none => exact h
  | some prev =>
    obtain ⟨next, s₁, hpick⟩ : ∃ next s₁, s.pick c prev = (next, s₁) := ⟨_, _, rfl⟩
    simp only [hpick]
    cases next with
    | none => exact pick_eq_none hpick ▸ h
    | some next =>
      obtain ⟨hlt, -, -, htask, hn⟩ := pick_eq_some hpick
      have hb := h.congr hn htask
      dsimp only
      split
      · exact hb
      · exact (hb.modTask (by simp)).take (show next.1 < s₁.ntasks from hn ▸ hlt)

theorem Bounded.runIdle (h : s.Bounded) : (s.runIdle c).Bounded := by
  obtain ⟨next, s₁, hpick⟩ : ∃ next s₁, s.pickIdle c = (next, s₁) := ⟨_, _, rfl⟩
  unfold Scheduler.runIdle
  simp only [hpick]
  cases next with
  | none => exact pickIdle_eq_none hpick ▸ h
  | some next =>
    obtain ⟨hlt, -, -, htask, hn⟩ := pickIdle_eq_some hpick
    exact (h.congr hn htask).take (hn ▸ hlt)

theorem Bounded.step (h : s.Bounded) (hs : Step s e s') : s'.Bounded := by
  have hmod : ∀ {t : TaskId} {f : Task → Task}, (∀ x : Task, (f x).onCpu = x.onCpu) →
      (s.modTask t f).Bounded := fun hf => h.modTask fun x hx => (hf x).trans hx
  cases hs with
  | exec => exact h
  | preempt | yield => exact h.reschedule _
  | idle => exact h.runIdle
  | @switch c out into =>
    cases out with
    | none => exact h
    | some t => exact hmod (t := t) (f := fun t => { t with ctx := (s.core c).regs }) fun _ => rfl
  | @settle c =>
    unfold postSwitch
    cases (s.core c).prev with
    | none => exact h
    | some t =>
      have hb : (s.modTask t fun t => { t with onCpu := false }).Bounded :=
        h.modTask fun _ _ => rfl
      dsimp only
      split
      · exact hb.modTask (t := t) (f := fun t => { t with stack := false }) fun _ hx => hx
      · exact hb
  | @park c t parked =>
    have hb : (s.modTask t fun t => { t with toParking := t.toParking.park parked }).Bounded :=
      hmod fun _ => rfl
    unfold parkAndSwitch
    split
    · exact hb
    · exact hb.switchAway
  | @exit c t =>
    have hb : (s.modTask t fun t => { t with state := .dead }).Bounded := hmod fun _ => rfl
    exact hb.switchAway
  | setAffinity =>
    unfold Scheduler.setAffinity
    split
    · exact h
    · split
      · exact h
      · exact hmod fun _ => rfl
  | @pin c t =>
    unfold Scheduler.pin
    split
    · exact h
    · exact hmod fun _ => rfl
    · next mask _ =>
      have hb : (s.modTask t fun t => { t with pinning := .check mask }).Bounded :=
        hmod fun _ => rfl
      have hb' : ((s.modTask t fun t => { t with pinning := .check mask }).modTask t
        fun t => { t with state := .ready }).Bounded := hb.modTask fun _ hx => hx
      exact hb'.switchAway
    · exact hmod fun _ => rfl
  | setClass =>
    unfold Scheduler.setClass
    split
    · exact h
    · split
      · exact h
      · exact hmod fun _ => rfl
  | unblock | deliver => exact hmod fun _ => rfl
  | wakeExpired => exact h
  | spawn =>
    intro u hu
    have hne : u ≠ s.ntasks := by
      rintro rfl
      exact absurd hu (Nat.not_succ_le_self _)
    simpa [Scheduler.spawn, hne] using h u (Nat.le_of_succ_le hu)

theorem sound_new : (new : Scheduler).handover.Sound where
  roles := by
    convert Ledger.exact_empty (h := (new : Scheduler).handover.roles) ?_ using 1
    · simp [new, Scheduler.handover, Task.unborn, Task.spawned]
    · rintro (c | c) <;> rfl
  settled _ _ := rfl
  switching _ _ _ h := by cases h
  regs _ _ h := by cases h
  saved _ _ := rfl

theorem sound_of_reachable (h : scheduling.Reachable s) : s.handover.Sound ∧ s.Bounded :=
  scheduling_invariant (I := fun s => s.handover.Sound ∧ s.Bounded) ⟨sound_new, fun _ _ => rfl⟩
    (fun _ _ _ hi hs => ⟨hi.1.steps (hs.handover (hi.2 _ (Nat.le_refl _))), hi.2.step hs⟩) h

/-! ### What an event does to one core -/

/-- A core takes only a task that is on no core, and whose context is what its registers were when
it ran last. -/
def TakesFresh (s s' : Scheduler) : Prop :=
  ∀ c t, (s'.core c).current = some t → (s.core c).current ≠ some t →
    (s.task t).onCpu = false ∧ (s.task t).ctx = s.last t

/-- What a core has left stays on record until it is settled. -/
def KeepsPrev (s : Scheduler) (e : SchedEvent) (s' : Scheduler) : Prop :=
  ∀ c t, (s.core c).prev = some t → (s'.core c).prev = some t ∨
    e = .settle c ∧ (s'.core c).prev = none ∧ (s'.task t).onCpu = false

theorem Moved.takesFresh (h : Moved s e s') (hs : s.handover.Sound) : TakesFresh s s' := by
  intro c t hcur hnot
  have hold : s'.handover.current c = s.handover.current c → (s.task t).onCpu = false ∧
      (s.task t).ctx = s.last t := fun h => absurd (h.symm.trans hcur) hnot
  cases h with
  | stay h | exec h | settle _ _ h | spawn h =>
    exact hold (congrFun (congrArg Handover.current h) c)
  | @switch _ out _ _ h =>
    cases out <;> exact hold (congrFun (congrArg Handover.current h) c)
  | @leave c₀ _ h =>
    have hcur' : (s.handover.leave c₀).current c = some t := h ▸ hcur
    rcases eq_or_ne c c₀ with rfl | hne
    · simp [Handover.leave] at hcur'
    · exact hold (by simp [h, Handover.leave, hne])
  | @take c₀ next _ hb h =>
    have hcur' : ((s.handover.leave c₀).take c₀ (s.core c₀).current next).current c = some t :=
      h ▸ hcur
    rcases eq_or_ne c c₀ with rfl | hne
    · obtain rfl : next = t := by simpa [Handover.take] using hcur'
      exact ⟨hb, hs.fresh hb⟩
    · exact hold (by simp [h, Handover.leave, Handover.take, hne])

theorem Moved.keepsPrev (h : Moved s e s') (hs : s.handover.Sound) : KeepsPrev s e s' := by
  intro c t hprev
  have hold : s'.handover.prev c = s.handover.prev c → (s'.core c).prev = some t ∨
      e = .settle c ∧ (s'.core c).prev = none ∧ (s'.task t).onCpu = false :=
    fun h => .inl (h.trans hprev)
  have hne : ∀ {c₀}, (s.core c₀).phase = .running → c ≠ c₀ := by
    rintro c₀ hp rfl
    exact absurd (hprev.symm.trans (hs.settled c hp)) (by simp)
  cases h with
  | stay h | exec h | spawn h => exact hold (congrFun (congrArg Handover.prev h) c)
  | @switch _ out _ _ h => cases out <;> exact hold (congrFun (congrArg Handover.prev h) c)
  | leave hp h => exact hold (by simp [h, Handover.leave, hne hp])
  | take hp _ h => exact hold (by simp [h, Handover.leave, Handover.take, hne hp])
  | @settle c₀ he _ h =>
    rcases eq_or_ne c c₀ with rfl | hne
    · have hprev' : (s'.core c).prev = (s.handover.settle c).prev c := by rw [← h]; rfl
      have hcpu : (s'.task t).onCpu = (s.handover.settle c).busy t := by rw [← h]; rfl
      have hprev₀ : s.handover.prev c = some t := hprev
      exact .inr ⟨he, by simp [hprev', Handover.settle], by simp [hcpu, Handover.settle, hprev₀]⟩
    · exact hold (by simp [h, Handover.settle, hne])

/-- A core runs a task on the task's own registers. -/
theorem regs_of_running (h : scheduling.Reachable s) (ht : s.running c = some t) :
    (s.core c).regs = s.last t := by
  obtain ⟨hp, hc⟩ := running_eq_some ht
  refine (sound_of_reachable h).1.regs c t ?_
  have hphase : s.handover.phase c = .running := hp
  rw [Handover.owner, hphase]
  exact hc

end Scheduler

open Scheduler

/-- **One core at a time, and only with a fresh context.** In every reachable state a task is the
current one of one core at most, and `on_cpu` is set exactly while it is that or in a `PREV`; and
whatever happens next, a core takes only a task whose context was saved in full, and no `PREV` is
overwritten before it is settled. -/
theorem exclusive_and_fresh {s : Scheduler} (h : scheduling.Reachable s) :
    (∀ c c' t, (s.core c).current = some t → (s.core c').current = some t → c = c') ∧
      (∀ t, (s.task t).onCpu = true ↔
        (∃ c, (s.core c).current = some t) ∨ ∃ c, (s.core c).prev = some t) ∧
      ∀ e s', scheduling.next s e = some s' → TakesFresh s s' ∧ KeepsPrev s e s' := by
  obtain ⟨hsound, hbounded⟩ := sound_of_reachable h
  refine ⟨fun _ _ _ => hsound.current_unique, fun _ => hsound.busy_iff, fun e s' hn => ?_⟩
  have hmoved := (Step.of_next hn).moved (hbounded _ (Nat.le_refl _))
  exact ⟨hmoved.takesFresh hsound, hmoved.keepsPrev hsound⟩

/-- Core 0 preempts task 0, and core 1 takes it once core 0 has saved and settled it. -/
theorem exclusive_and_fresh_run : ∃ s s',
    scheduling.run .new
      [.spawn 7, .spawn 8, .idle 0, .switch 0, .settle 0, .exec 0 42, .preempt 0, .switch 0,
        .settle 0] = some s ∧ scheduling.next s (.idle 1) = some s' ∧
      (s'.core 1).current = some 0 ∧ (s.task 0).ctx = s.last 0 ∧
      ((s.task 1).onCpu = true ↔
        (∃ c, (s.core c).current = some 1) ∨ ∃ c, (s.core c).prev = some 1) := by
  obtain ⟨s, s', hrun, hn, hnot, hcur⟩ : ∃ s s',
      scheduling.run .new
        [.spawn 7, .spawn 8, .idle 0, .switch 0, .settle 0, .exec 0 42, .preempt 0, .switch 0,
          .settle 0] = some s ∧ scheduling.next s (.idle 1) = some s' ∧
        (s.core 1).current ≠ some 0 ∧ (s'.core 1).current = some 0 :=
    ⟨_, _, rfl, rfl, by decide, by decide⟩
  have h := exclusive_and_fresh (.of_run _ rfl hrun)
  exact ⟨s, s', hrun, hn, hcur, ((h.2.2 _ s' hn).1 1 0 hcur hnot).2, h.2.1 1⟩

end StarOS
