import StarOS.Sched.Exclusion

/-!
# Lives

A task is alive until it exits, and nothing brings a dead one back: wake-ups reach only tasks that
wait, and cores take only tasks that are ready. What a core runs, or is on its way to, is alive.

## Main definitions

* `Scheduler.Alive`
* `Scheduler.Turn` — what an event does to a core

## Main results

* `Scheduler.Step.turn`, `Scheduler.Step.lives` — everything one event can do to cores and lives
* `Scheduler.alive_of_current`, `Scheduler.lt_of_alive`
-/

namespace StarOS

namespace Scheduler

variable {s s' : Scheduler} {c : CpuId} {t u : TaskId} {e : SchedEvent}

/-- Slot `t` holds a task that has not exited. -/
def Alive (s : Scheduler) (t : TaskId) : Prop := (s.task t).state ≠ .dead

/-! ### Cores -/

theorem Left.current (h : Left s c s') {c' : CpuId} (hu : (s'.core c').current = some u) :
    c' ≠ c ∧ (s.core c').current = some u ∨ (s'.task u).state = .running := by
  cases h with
  | idle _ h =>
    have hu' : (s.handover.leave c).current c' = some u := h ▸ hu
    rcases eq_or_ne c' c with rfl | hne
    · simp [Handover.leave] at hu'
    · simp only [Handover.leave, Function.update_of_ne hne] at hu'
      exact .inl ⟨hne, hu'⟩
  | @take next _ _ hrun h =>
    have hu' : ((s.handover.leave c).take c (s.core c).current next).current c' = some u := h ▸ hu
    rcases eq_or_ne c' c with rfl | hne
    · obtain rfl : next = u := by simpa [Handover.take] using hu'
      exact .inr hrun
    · simp only [Handover.take, Handover.leave, Function.update_of_ne hne] at hu'
      exact .inl ⟨hne, hu'⟩

theorem Left.phase (h : Left s c s') : (s.core c).phase = .running ∧
    ∃ into, (s'.core c).phase = .switching (s.core c).current into := by
  cases h with
  | idle hp h =>
    refine ⟨hp, none, (congrFun (congrArg Handover.phase h) c).trans ?_⟩
    simp [Handover.leave, handover]
  | @take next hp _ _ h =>
    refine ⟨hp, some next, (congrFun (congrArg Handover.phase h) c).trans ?_⟩
    simp [Handover.take]

/-- The other cores go on with what they were doing. -/
theorem Left.frame (h : Left s c s') {c' : CpuId} (hne : c' ≠ c) :
    (s'.core c').phase = (s.core c').phase ∧ (s'.core c').current = (s.core c').current := by
  cases h with
  | idle _ h =>
    refine ⟨(congrFun (congrArg Handover.phase h) c').trans ?_,
      (congrFun (congrArg Handover.current h) c').trans ?_⟩ <;>
      simp [Handover.leave, handover, hne]
  | take _ _ _ h =>
    refine ⟨(congrFun (congrArg Handover.phase h) c').trans ?_,
      (congrFun (congrArg Handover.current h) c').trans ?_⟩ <;>
      simp [Handover.take, Handover.leave, handover, hne]

/-- What an event can do to core `c`. -/
inductive Turn (s : Scheduler) (e : SchedEvent) (s' : Scheduler) (c : CpuId) : Prop
  | stay : e ≠ .switch c → (s'.core c).phase = (s.core c).phase →
      (s'.core c).current = (s.core c).current → Turn s e s' c
  | left : e ≠ .switch c → Left s c s' → Turn s e s' c
  | switch {out into : Option TaskId} : e = .switch c → (s.core c).phase = .switching out into →
      (s'.core c).phase = .arrived → (s'.core c).current = (s.core c).current → Turn s e s' c
  | settle : e ≠ .switch c → (s.core c).phase = .arrived → (s'.core c).phase = .running →
      (s'.core c).current = (s.core c).current → Turn s e s' c

theorem Turn.of_handover (he : e ≠ .switch c) (h : s'.handover = s.handover) : Turn s e s' c :=
  .stay he (congrFun (congrArg Handover.phase h) c) (congrFun (congrArg Handover.current h) c)

theorem Turn.of_left (he : e ≠ .switch c) {c₀ : CpuId}
    (h : s'.handover = s.handover ∨ Left s c₀ s') : Turn s e s' c := by
  obtain h | h := h
  · exact .of_handover he h
  · rcases eq_or_ne c c₀ with rfl | hne
    · exact .left he h
    · exact .stay he (h.frame hne).1 (h.frame hne).2

theorem Step.turn (h : Step s e s') (c : CpuId) : Turn s e s' c := by
  by_cases he : e = .switch c
  · subst he
    cases h with
    | @switch _ out into hp =>
      have hh := handover_contextSwitch (s := s) (c := c) out into
      refine .switch rfl hp ?_ ?_
      · exact (congrFun (congrArg Handover.phase hh) c).trans (by simp [Handover.load])
      · exact (congrFun (congrArg Handover.current hh) c).trans (by cases out <;> rfl)
  · have hstay : ∀ {t : TaskId} {f : Task → Task}, (∀ x, (f x).onCpu = x.onCpu) →
        (∀ x, (f x).ctx = x.ctx) → Turn s e (s.modTask t f) c :=
      fun hcpu hctx => .of_handover he (handover_modTask (hcpu _) (hctx _))
    cases h with
    | exec =>
      exact .stay he (congrFun (congrArg Handover.phase (handover_exec _)) c)
        (congrFun (congrArg Handover.current (handover_exec _)) c)
    | preempt hp => exact .of_left he (left_reschedule hp true)
    | idle hp hc => exact .of_left he (left_runIdle hp hc)
    | @switch c₀ out into hp =>
      have hh := handover_contextSwitch (s := s) (c := c₀) out into
      have hne : c ≠ c₀ := fun heq => he (heq ▸ rfl)
      refine .stay he ((congrFun (congrArg Handover.phase hh) c).trans ?_)
        ((congrFun (congrArg Handover.current hh) c).trans ?_)
      · cases out <;> exact Function.update_of_ne hne ..
      · cases out <;> rfl
    | @settle c₀ hp =>
      have hh := handover_postSwitch (s := s) (c := c₀)
      have hcur := congrFun (congrArg Handover.current hh) c
      rcases eq_or_ne c c₀ with rfl | hne
      · refine .settle he hp ?_ hcur
        exact (congrFun (congrArg Handover.phase hh) c).trans (by simp [Handover.settle])
      · refine .stay he ?_ hcur
        exact (congrFun (congrArg Handover.phase hh) c).trans (Function.update_of_ne hne ..)
    | yield ht => exact .of_left he (left_reschedule (calling_eq_some ht).1 false)
    | park ht => exact .of_left he (left_parkAndSwitch ht)
    | exit ht => exact .of_left he (.inr (left_exit ht))
    | setAffinity =>
      rw [Scheduler.setAffinity]
      split
      · exact .of_handover he rfl
      · split
        · exact .of_handover he rfl
        · exact hstay (fun _ => rfl) fun _ => rfl
    | pin ht =>
      obtain ⟨hp, hc⟩ := running_eq_some ht
      rw [Scheduler.pin]
      split
      · exact .of_handover he rfl
      · exact hstay (fun _ => rfl) fun _ => rfl
      · exact .of_left he (.inr (left_migrateOff hp hc))
      · exact hstay (fun _ => rfl) fun _ => rfl
    | setClass =>
      rw [Scheduler.setClass]
      split
      · exact .of_handover he rfl
      · split
        · exact .of_handover he rfl
        · exact hstay (fun _ => rfl) fun _ => rfl
    | unblock | deliver => exact hstay (fun _ => rfl) fun _ => rfl
    | wakeExpired => exact .of_handover he rfl
    | spawn => exact .stay he rfl rfl

theorem Turn.current (h : Turn s e s' c) (hu : (s'.core c).current = some u) :
    (s.core c).current = some u ∨ (s'.task u).state = .running := by
  cases h with
  | stay _ _ hcur | switch _ _ _ hcur | settle _ _ _ hcur => exact .inl (hcur.symm.trans hu)
  | left _ h => exact (h.current hu).imp (fun h => h.2) fun h => h

/-! ### Lives -/

/-- The same tasks are alive. -/
structure SameLives (s s' : Scheduler) : Prop where
  ntasks : s'.ntasks = s.ntasks
  alive : ∀ t, s'.Alive t ↔ s.Alive t

theorem SameLives.refl (s : Scheduler) : SameLives s s := ⟨rfl, fun _ => Iff.rfl⟩

theorem SameLives.trans {s₁ s₂ s₃ : Scheduler} (h : SameLives s₁ s₂) (h' : SameLives s₂ s₃) :
    SameLives s₁ s₃ :=
  ⟨h'.ntasks.trans h.ntasks, fun t => (h'.alive t).trans (h.alive t)⟩

theorem SameLives.of_eq (hn : s'.ntasks = s.ntasks) (ht : s'.task = s.task) : SameLives s s' := by
  refine ⟨hn, fun t => ?_⟩
  rw [Alive, Alive, ht]

theorem sameLives_modTask {f : Task → Task}
    (h : (f (s.task t)).state = .dead ↔ (s.task t).state = .dead) :
    SameLives s (s.modTask t f) := by
  refine ⟨rfl, fun u => ?_⟩
  rcases eq_or_ne u t with rfl | hne
  · simpa [Alive, modTask] using not_congr h
  · simp [Alive, modTask, hne]

theorem sameLives_take {origin : Option TaskId} (h : s.Alive t) (f : Core → Core) :
    SameLives s ((s.take c origin t).modCore c f) := by
  have hacc : SameLives s (s.account c origin t) := by
    refine .of_eq ?_ (task_account ..)
    rw [account]
    split <;> rfl
  refine hacc.trans ?_
  have hmod : SameLives (s.account c origin t) ((s.account c origin t).modTask t fun x =>
      { x with
        state := .running
        onCpu := true
        lastCpu := some c
        ranOn := ranHere x.ranOn c }) :=
    sameLives_modTask (iff_of_false (by simp) (by simpa [Alive] using h))
  exact hmod.trans (.of_eq rfl rfl)

theorem pickable_alive (h : s.pickable c t = true) : s.Alive t := by
  simp only [pickable, Bool.and_eq_true, beq_iff_eq] at h
  simp [Alive, h.1.1]

theorem sameLives_switchAway : SameLives s (s.switchAway c t) := by
  obtain ⟨next, s₁, hpick⟩ : ∃ next s₁,
      (s.modCore c fun core => { core with prev := some t }).pick c t = (next, s₁) := ⟨_, _, rfl⟩
  rw [switchAway]
  simp only [hpick]
  cases next with
  | none =>
    obtain rfl := pick_eq_none hpick
    exact .of_eq rfl rfl
  | some next =>
    obtain ⟨-, hpickable, -, htask, hn⟩ := pick_eq_some hpick
    have hsame : SameLives s s₁ := .of_eq hn htask
    exact hsame.trans (sameLives_take ((hsame.alive _).mpr (pickable_alive hpickable)) _)

theorem sameLives_reschedule (honour : Bool) : SameLives s (s.reschedule c honour) := by
  rw [reschedule]
  cases (s.core c).current with
  | none => exact .refl s
  | some prev =>
    obtain ⟨next, s₁, hpick⟩ : ∃ next s₁, s.pick c prev = (next, s₁) := ⟨_, _, rfl⟩
    simp only [hpick]
    cases next with
    | none =>
      obtain rfl := pick_eq_none hpick
      exact .refl _
    | some next =>
      obtain ⟨-, hpickable, -, htask, hn⟩ := pick_eq_some hpick
      have hsame : SameLives s s₁ := .of_eq hn htask
      dsimp only
      split
      · exact hsame
      · have hrunnable : SameLives s₁ (s₁.modTask prev Task.runnable) := by
          refine sameLives_modTask ?_
          rw [Task.runnable]
          split
          · next hr => simp [hr]
          · exact Iff.rfl
        have hboth := hsame.trans hrunnable
        exact hboth.trans (sameLives_take ((hboth.alive _).mpr (pickable_alive hpickable)) _)

theorem sameLives_runIdle : SameLives s (s.runIdle c) := by
  obtain ⟨next, s₁, hpick⟩ : ∃ next s₁, s.pickIdle c = (next, s₁) := ⟨_, _, rfl⟩
  rw [runIdle]
  simp only [hpick]
  cases next with
  | none =>
    obtain rfl := pickIdle_eq_none hpick
    exact .refl _
  | some next =>
    obtain ⟨-, hpickable, -, htask, hn⟩ := pickIdle_eq_some hpick
    have hsame : SameLives s s₁ := .of_eq hn htask
    exact hsame.trans (sameLives_take ((hsame.alive _).mpr (pickable_alive hpickable)) _)

theorem alive_exit : (s.exit c t).Alive u ↔ s.Alive u ∧ u ≠ t := by
  have hsame : SameLives (s.modTask t fun t => { t with state := .dead }) (s.exit c t) :=
    sameLives_switchAway
  refine (hsame.alive u).trans ?_
  rcases eq_or_ne u t with rfl | hne
  · simp [Alive, modTask]
  · simp [Alive, modTask, hne]

theorem ntasks_exit : (s.exit c t).ntasks = s.ntasks :=
  (sameLives_switchAway (s := s.modTask t fun t => { t with state := .dead })).ntasks

theorem alive_spawn {ctx : Context} : (s.spawn ctx).Alive u ↔ s.Alive u ∨ u = s.ntasks := by
  rcases eq_or_ne u s.ntasks with rfl | hne
  · simp [Alive, spawn, Task.spawned, Parking.fresh]
  · simp [Alive, spawn, hne]

/-- Everything an event can do to lives, what the cores run being alive. -/
inductive Lives (s : Scheduler) : SchedEvent → Scheduler → Prop
  | same {e : SchedEvent} {s' : Scheduler} : SameLives s s' → Lives s e s'
  | exit {c : CpuId} {t : TaskId} : s.calling c = some t → Lives s (.exit c) (s.exit c t)
  | spawn {ctx : Context} : Lives s (.spawn ctx) (s.spawn ctx)

theorem Step.lives (h : Step s e s') (hcur : ∀ c t, (s.core c).current = some t → s.Alive t) :
    Lives s e s' := by
  have hpark : ∀ {p : Parking KMessage} {parked : State}, parked.parked = true → p.state ≠ .dead →
      (p.park parked).state ≠ .dead := by
    intro p parked hp halive
    rw [Parking.park]
    split
    · exact halive
    · rintro rfl
      cases hp
  cases h with
  | exec => exact .same (.of_eq rfl rfl)
  | preempt => exact .same (sameLives_reschedule _)
  | idle => exact .same sameLives_runIdle
  | @switch c out into =>
    refine .same ?_
    cases out with
    | none => exact .of_eq rfl rfl
    | some t =>
      have hmod : SameLives s (s.modTask t fun t => { t with ctx := (s.core c).regs }) :=
        sameLives_modTask Iff.rfl
      exact hmod.trans (.of_eq rfl rfl)
  | @settle c =>
    refine .same ?_
    rw [postSwitch]
    cases (s.core c).prev with
    | none => exact .of_eq rfl rfl
    | some t =>
      have hcore : SameLives s (s.modCore c fun core =>
        { core with prev := none, phase := .running }) := .of_eq rfl rfl
      have hmod := hcore.trans
        (sameLives_modTask (t := t) (f := fun t => { t with onCpu := false }) Iff.rfl)
      dsimp only
      split
      · have hstack := hmod.trans
          (sameLives_modTask (t := t) (f := fun t => { t with stack := false }) Iff.rfl)
        exact hstack.trans (.of_eq rfl rfl)
      · exact hmod
  | yield => exact .same (sameLives_reschedule _)
  | @park c t parked ht hp =>
    have halive := hcur c t (calling_eq_some ht).2
    have hmod : SameLives s
        (s.modTask t fun t => { t with toParking := t.toParking.park parked }) :=
      sameLives_modTask (iff_of_false (hpark hp halive) halive)
    refine .same ?_
    rw [parkAndSwitch]
    split
    · exact hmod
    · exact hmod.trans sameLives_switchAway
  | exit ht => exact .exit ht
  | setAffinity =>
    refine .same ?_
    rw [Scheduler.setAffinity]
    split
    · exact .refl s
    · split
      · exact .refl s
      · exact sameLives_modTask Iff.rfl
  | @pin c t ht =>
    refine .same ?_
    rw [Scheduler.pin]
    split
    · exact .refl s
    · exact sameLives_modTask Iff.rfl
    · next mask _ =>
      have halive := hcur c t (running_eq_some ht).2
      have hmod : SameLives s (s.modTask t fun t => { t with pinning := .check mask }) :=
        sameLives_modTask Iff.rfl
      have hready := hmod.trans (sameLives_modTask (t := t)
        (f := fun t => { t with state := .ready })
        (iff_of_false (by simp) ((hmod.alive t).mpr halive)))
      exact hready.trans sameLives_switchAway
    · exact sameLives_modTask Iff.rfl
  | setClass =>
    refine .same ?_
    rw [Scheduler.setClass]
    split
    · exact .refl s
    · split
      · exact .refl s
      · exact sameLives_modTask Iff.rfl
  | unblock =>
    refine .same (sameLives_modTask ?_)
    rw [Parking.unblock]
    split <;> simp_all
  | deliver =>
    refine .same (sameLives_modTask ?_)
    rw [Parking.deliver]
    split <;> simp_all
  | wakeExpired =>
    refine .same ⟨rfl, fun u => not_congr ?_⟩
    show ((s.task u).toParking.wakeExpired _).state = .dead ↔ _
    rw [Parking.wakeExpired]
    split
    · split <;> simp_all
    · exact Iff.rfl
  | spawn => exact .spawn

/-! ### What a core runs is alive -/

/-- What a core runs is alive, and so are only tasks there are. -/
def Sane (s : Scheduler) : Prop :=
  (∀ c t, (s.core c).current = some t → s.Alive t) ∧ ∀ t, s.Alive t → t < s.ntasks

theorem sane_of_reachable (h : scheduling.Reachable s) : s.Sane := by
  refine h.invariant_of (J := scheduling.Reachable) (fun _ h => h) ?_ ?_
  · rintro _ rfl
    exact ⟨nofun, fun t ht => absurd rfl ht⟩
  · intro s e s' hr ⟨hcur, hlt⟩ _ hn
    have hs := Step.of_next hn
    have hrunning : ∀ {u}, (s'.task u).state = .running → s'.Alive u := fun h => by simp [Alive, h]
    cases hs.lives hcur with
    | same h =>
      refine ⟨fun c t hc => ?_, fun t ht => h.ntasks ▸ hlt t ((h.alive t).mp ht)⟩
      exact ((hs.turn c).current hc).elim (fun hc => (h.alive t).mpr (hcur c t hc)) hrunning
    | @exit c₀ t₀ ht =>
      refine ⟨fun c t hc => ?_, fun t ht => ntasks_exit.symm ▸ hlt t (alive_exit.mp ht).1⟩
      obtain ⟨hne, hold⟩ | hrun := (left_exit ht).current hc
      · -- nobody else runs the task that exits
        refine alive_exit.mpr ⟨hcur c t hold, ?_⟩
        rintro rfl
        exact hne ((sound_of_reachable hr).1.current_unique hold (calling_eq_some ht).2)
      · exact hrunning hrun
    | spawn =>
      refine ⟨fun c t hc => alive_spawn.mpr (.inl (hcur c t hc)), fun t ht => ?_⟩
      obtain ht | rfl := alive_spawn.mp ht
      · exact Nat.lt_succ_of_lt (hlt t ht)
      · exact Nat.lt_succ_self _

end Scheduler

end StarOS
