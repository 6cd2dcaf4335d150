import StarOS.Sched.Decision

/-!
# Dead kernel stacks

A task that exits stands on its kernel stack until its core has switched to another context. That
context, whatever it is, runs `post_switch` first, and finds in `PREV` whose stack to free. Five
paths write `PREV`; this file shows that none of them loses a dead task or hands over a live one.

## Main definitions

* `Scheduler.frees` — a step that frees the stack of a task

## Main results

* `Scheduler.stack_eq_false_iff` — the stacks that are gone are those of tasks that are dead and
  that no core has left and not settled
* `Scheduler.stacks_freed` — a stack is freed once, by the core its task exited on
-/

namespace StarOS

namespace Scheduler

variable {s s' : Scheduler} {e : SchedEvent} {c c' : CpuId} {t : TaskId}
  {tr : List (Scheduler × SchedEvent)} {x : Scheduler × SchedEvent}

/-- A step that frees the stack of task `t`. -/
def frees (t : TaskId) (x : Scheduler × SchedEvent) : Bool :=
  (x.1.task t).stack && (x.1.next x.2).any fun s' => !(s'.task t).stack

theorem frees_iff : frees t (s, e) = true ↔ (s.task t).stack = true ∧
    ∃ s', s.next e = some s' ∧ (s'.task t).stack = false := by
  simp [frees, Option.any_eq_true]

/-! ### What an event does to `PREV` -/

/-- A core that does not settle keeps its record, or leaves what it runs and records that. -/
theorem Step.prev (h : Step s e s') (hb : (s.task s.ntasks).onCpu = false) (he : e ≠ .settle c) :
    (s'.core c).prev = (s.core c).prev ∨
      (s.core c).phase = .running ∧ (s'.core c).prev = (s.core c).current := by
  have hof : ∀ {h' : Handover CpuId TaskId Context}, s'.handover = h' →
      (s'.core c).prev = h'.prev c := fun h => congrFun (congrArg Handover.prev h) c
  cases h.moved hb with
  | stay hh => exact .inl (hof hh)
  | exec hh => exact .inl (hof hh)
  | @leave c' hp hh =>
    by_cases hc : c = c'
    · subst hc
      exact .inr ⟨hp, (hof hh).trans (Function.update_self ..)⟩
    · exact .inl ((hof hh).trans (Function.update_of_ne hc ..))
  | @take c' next hp _ hh =>
    by_cases hc : c = c'
    · subst hc
      exact .inr ⟨hp, (hof hh).trans (Function.update_self ..)⟩
    · exact .inl ((hof hh).trans (Function.update_of_ne hc ..))
  | @switch c' out into _ hh =>
    refine .inl ((hof hh).trans ?_)
    cases out <;> rfl
  | @settle c' hset _ hh =>
    have hc : c ≠ c' := fun heq => he (heq ▸ hset)
    exact .inl ((hof hh).trans (Function.update_of_ne hc ..))
  | spawn hh => exact .inl (hof hh)

theorem prev_postSwitch : ((s.postSwitch c).core c).prev = none :=
  (congrFun (congrArg Handover.prev handover_postSwitch) c).trans (Function.update_self ..)

/-! ### What an event does to a stack -/

/-- `post_switch` frees the stack of the task it settles if that is dead. -/
theorem stack_postSwitch (t : TaskId) : ((s.postSwitch c).task t).stack =
    ((s.task t).stack && !decide ((s.core c).prev = some t ∧ (s.task t).state = .dead)) := by
  rw [postSwitch]
  cases hprev : (s.core c).prev with
  | none => simp [modCore]
  | some u =>
    dsimp only
    split
    · next hreap =>
      by_cases ht : t = u
      · subst ht
        have hdead : (s.task t).state = .dead := by simpa [modTask, modCore] using hreap.1
        simp [modTask, hdead]
      · simp [modTask, modCore, ht, Ne.symm ht]
    · next hreap =>
      by_cases ht : t = u
      · subst ht
        have hkept : (s.task t).state = .dead → (s.task t).stack = false := by
          simpa [modTask, modCore] using hreap
        by_cases hdead : (s.task t).state = .dead
        · simp [modTask, modCore, hkept hdead]
        · simp [modTask, modCore, hdead]
      · simp [modTask, modCore, ht, Ne.symm ht]

/-- Nothing else frees a stack; a task is born with one. -/
theorem Step.stack (h : Step s e s') (he : ∀ c, e ≠ .settle c) (t : TaskId) :
    (s'.task t).stack = (s.task t).stack ∨ t = s.ntasks ∧ (s'.task t).stack = true := by
  have hmod : ∀ {u : TaskId} {f : Task → Task}, (∀ y, (f y).stack = y.stack) →
      ((s.modTask u f).task t).stack = (s.task t).stack := by
    intro u f hf
    by_cases hu : t = u
    · subst hu
      simp [modTask, hf]
    · simp [modTask, hu]
  cases hd : s.decides e with
  | some c => exact .inl ((h.decided hd).stack t)
  | none =>
    cases h with
    | exec => exact .inl rfl
    | preempt =>
      rw [reschedule, Option.map_eq_none_iff.mp hd]
      exact .inl rfl
    | @switch c out into =>
      refine .inl ?_
      cases out with
      | none => rfl
      | some u => exact hmod (u := u) (f := fun y => { y with ctx := (s.core c).regs }) fun _ => rfl
    | @settle c => exact absurd rfl (he c)
    | yield ht =>
      rw [decides, (calling_eq_some ht).2] at hd
      cases hd
    | exit | idle => cases hd
    | @park c u parked hu hp =>
      rw [decides, (calling_eq_some hu).2, Option.bind_some] at hd
      split at hd
      · next hw =>
        rw [parkAndSwitch, if_pos hw]
        exact .inl (hmod fun _ => rfl)
      · cases hd
    | setAffinity =>
      refine .inl ?_
      rw [Scheduler.setAffinity]
      split
      · rfl
      · split
        · rfl
        · exact hmod fun _ => rfl
    | @pin c u hu =>
      refine .inl ?_
      rw [decides, (running_eq_some hu).2, Option.bind_some] at hd
      rw [Scheduler.pin]
      cases hpin : (s.task u).pinning with
      | no => rfl
      | check mask => exact hmod fun _ => rfl
      | record => exact hmod fun _ => rfl
      | migrate mask =>
        rw [hpin] at hd
        cases hd
    | setClass =>
      refine .inl ?_
      rw [Scheduler.setClass]
      split
      · rfl
      · split
        · rfl
        · exact hmod fun _ => rfl
    | unblock | deliver => exact .inl (hmod fun _ => rfl)
    | wakeExpired => exact .inl rfl
    | @spawn ctx =>
      by_cases ht : t = s.ntasks
      · refine .inr ⟨ht, ?_⟩
        rw [ht]
        simp [Scheduler.spawn, Task.spawned]
      · exact .inl (congrArg Task.stack (Function.update_of_ne ht ..))

/-! ### Who dies, and what is recorded of it -/

theorem Left.prev (h : Left s c s') : (s'.core c).prev = (s.core c).current := by
  cases h with
  | idle _ hh =>
    exact (congrFun (congrArg Handover.prev hh) c).trans (Function.update_self ..)
  | take _ _ _ hh =>
    exact (congrFun (congrArg Handover.prev hh) c).trans (Function.update_self ..)

/-- A task dies by calling `exit`. -/
theorem Step.dead_iff (h : Step s e s') (hs : s.Sane) (ht : t < s.ntasks) :
    (s'.task t).state = .dead ↔
      (s.task t).state = .dead ∨ ∃ c, e = .exit c ∧ s.calling c = some t := by
  have halive : ∀ {p : Scheduler}, (p.task t).state = .dead ↔ ¬ p.Alive t := not_not.symm
  rw [halive, halive]
  cases h.lives hs.1 with
  | same hsame =>
    rw [hsame.alive]
    refine (or_iff_left ?_).symm
    rintro ⟨c, rfl, hc⟩
    cases h with
    | exit hc' =>
      have hdead := (hsame.alive t).mpr (hs.1 c t (calling_eq_some hc).2)
      rw [Option.some.inj (hc'.symm.trans hc)] at hdead
      exact (alive_exit.mp hdead).2 rfl
  | @exit c₀ t₀ hc₀ =>
    rw [alive_exit, not_and_or, not_not]
    refine or_congr_right ⟨fun heq => ⟨c₀, rfl, heq ▸ hc₀⟩, ?_⟩
    rintro ⟨c, hcc, hc⟩
    obtain rfl := SchedEvent.exit.inj hcc
    exact Option.some.inj (hc.symm.trans hc₀)
  | spawn =>
    rw [alive_spawn, not_or]
    constructor
    · exact fun h => .inl h.1
    · rintro (h | ⟨c, hcc, -⟩)
      · exact ⟨h, Nat.ne_of_lt ht⟩
      · cases hcc

/-- A task new in the table is alive and has a stack. -/
theorem Step.born (h : Step s e s') (hs : s.Sane) (ht : ¬ t < s.ntasks) (ht' : t < s'.ntasks) :
    (s'.task t).stack = true ∧ s'.Alive t := by
  cases h.lives hs.1 with
  | same hsame => exact absurd (hsame.ntasks ▸ ht') ht
  | exit => exact absurd (ntasks_exit ▸ ht') ht
  | spawn =>
    obtain rfl : t = s.ntasks := Nat.le_antisymm (Nat.le_of_lt_succ ht') (Nat.not_lt.mp ht)
    simp [Alive, Scheduler.spawn, Task.spawned, Parking.fresh]

/-- **No core comes to have left a dead task later than in its `exit`.** -/
theorem Step.prev_of_dead (h : Step s e s') (hr : scheduling.Reachable s)
    (hdead : (s.task t).state = .dead) (hp : (s'.core c).prev = some t) :
    (s.core c).prev = some t ∧ e ≠ .settle c := by
  by_cases he : e = .settle c
  · subst he
    cases h with
    | settle => rw [prev_postSwitch] at hp; cases hp
  · obtain hsame | ⟨-, hleft⟩ := h.prev ((sound_of_reachable hr).2 _ (Nat.le_refl _)) he
    · exact ⟨hsame ▸ hp, he⟩
    · exact absurd hdead ((sane_of_reachable hr).1 c t (hleft ▸ hp))

/-- Two cores do not settle one task. -/
theorem prev_unique (hr : scheduling.Reachable s) (h : (s.core c).prev = some t)
    (h' : (s.core c').prev = some t) : c = c' := by
  have hrole : ∀ {d}, (s.core d).prev = some t → t ∈ s.handover.roles (.prev d) := by
    intro d hd
    simp [Handover.roles, handover, hd]
  exact Handover.Role.prev.inj ((sound_of_reachable hr).1.roles.place_unique (hrole h) (hrole h'))

theorem lt_of_prev (hr : scheduling.Reachable s) (h : (s.core c).prev = some t) :
    t < s.ntasks := by
  by_contra hge
  obtain ⟨hsound, hbound⟩ := sound_of_reachable hr
  have hbusy : s.handover.busy t = true := hsound.busy_iff.mpr (.inr ⟨c, h⟩)
  have hidle := hbound t (Nat.not_lt.mp hge)
  exact absurd (hbusy.symm.trans hidle) (by decide)

/-- What a core has still to settle stays recorded until it does. -/
theorem Step.prev_kept (h : Step s e s') (hr : scheduling.Reachable s) (he : e ≠ .settle c)
    (hp : (s.core c).prev = some t) : (s'.core c).prev = some t := by
  obtain ⟨hsound, hbound⟩ := sound_of_reachable hr
  obtain hsame | ⟨hrun, -⟩ := h.prev (hbound _ (Nat.le_refl _)) he
  · exact hsame.trans hp
  · have hnone : (s.core c).prev = none := hsound.settled c hrun
    rw [hnone] at hp
    cases hp

/-- **The stacks that are gone**: those of tasks that are dead and that no core has still to
settle. -/
theorem stack_eq_false_iff (hr : scheduling.Reachable s) (ht : t < s.ntasks) :
    (s.task t).stack = false ↔ (s.task t).state = .dead ∧ ∀ c, (s.core c).prev ≠ some t := by
  suffices h : ∀ t < s.ntasks, (s.task t).stack = false ↔
      (s.task t).state = .dead ∧ ∀ c, (s.core c).prev ≠ some t from h t ht
  refine hr.invariant_of (I := fun s => ∀ t < s.ntasks, (s.task t).stack = false ↔
    (s.task t).state = .dead ∧ ∀ c, (s.core c).prev ≠ some t) (J := scheduling.Reachable)
    (fun _ h => h) ?_ ?_
  · rintro _ rfl t ht
    cases ht
  · intro s e s' hr hi _ hn t ht'
    have hs := Step.of_next hn
    have hsane := sane_of_reachable hr
    by_cases ht : t < s.ntasks
    · have hi := hi t ht
      have hdead := hs.dead_iff hsane ht
      by_cases he : ∃ c, e = .settle c
      · obtain ⟨c, rfl⟩ := he
        have hdead : (s'.task t).state = .dead ↔ (s.task t).state = .dead := by
          rw [hdead]
          exact or_iff_left fun ⟨_, h, _⟩ => by cases h
        have hstack : (s'.task t).stack = ((s.task t).stack &&
            !decide ((s.core c).prev = some t ∧ (s.task t).state = .dead)) := by
          cases hs with
          | settle => exact stack_postSwitch t
        rw [hdead, hstack]
        by_cases hpt : (s.core c).prev = some t ∧ (s.task t).state = .dead
        · refine iff_of_true (by simp [hpt]) ⟨hpt.2, fun c' hp => ?_⟩
          obtain ⟨hp', hne⟩ := hs.prev_of_dead hr hpt.2 hp
          exact hne (by rw [prev_unique hr hp' hpt.1])
        · rw [decide_eq_false hpt, Bool.not_false, Bool.and_true, hi]
          refine and_congr_right fun hd => forall_congr' fun c' => not_congr ?_
          have hpc : (s.core c).prev ≠ some t := fun h => hpt ⟨h, hd⟩
          refine ⟨fun hp => hs.prev_kept hr ?_ hp, fun hp => (hs.prev_of_dead hr hd hp).1⟩
          rintro heq
          rw [SchedEvent.settle.inj heq] at hpc
          exact hpc hp
      · have hset : ∀ c, e ≠ .settle c := fun c h => he ⟨c, h⟩
        have hsame := (hs.stack hset t).resolve_right fun h => Nat.ne_of_lt ht h.1
        rw [hsame, hi, hdead]
        constructor
        · rintro ⟨hd, hno⟩
          exact ⟨.inl hd, fun c hp => hno c (hs.prev_of_dead hr hd hp).1⟩
        · rintro ⟨hd | ⟨c, rfl, hc⟩, hno⟩
          · exact ⟨hd, fun c hp => hno c (hs.prev_kept hr (hset c) hp)⟩
          · -- the task that exits is recorded
            have hleft : (s'.core c).prev = (s.core c).current := by
              cases hs with
              | exit hc' => exact (left_exit hc').prev
            exact absurd (hleft.trans (calling_eq_some hc).2) (hno c)
    · obtain ⟨hstack, halive⟩ := hs.born hsane ht ht'
      exact iff_of_false (by simp [hstack]) fun h => halive h.1

/-! ### Over a whole run -/

/-- **Who frees a stack**: the successor on the core the task was left on, and the task is dead. -/
theorem settles_of_frees (h : frees t (s, e) = true) :
    ∃ c, e = .settle c ∧ (s.core c).phase = .arrived ∧ (s.core c).prev = some t ∧
      (s.task t).state = .dead := by
  obtain ⟨htrue, s', hn, hfalse⟩ := frees_iff.mp h
  have hs := Step.of_next hn
  by_cases he : ∃ c, e = .settle c
  · obtain ⟨c, rfl⟩ := he
    cases hs with
    | settle hphase =>
      rw [stack_postSwitch, htrue, Bool.true_and, Bool.not_eq_false', decide_eq_true_iff] at hfalse
      exact ⟨c, rfl, hphase, hfalse⟩
  · obtain hsame | ⟨-, hborn⟩ := hs.stack (fun c h => he ⟨c, h⟩) t
    · rw [hsame, htrue] at hfalse
      cases hfalse
    · rw [hborn] at hfalse
      cases hfalse

/-- The core has switched off the stack by then, and so has every other. -/
theorem owner_ne_of_frees (hr : scheduling.Reachable s) (h : frees t (s, e) = true) (c : CpuId) :
    s.handover.owner c ≠ some t := by
  obtain ⟨c₀, -, hphase, hp, hdead⟩ := settles_of_frees h
  have hsane := sane_of_reachable hr
  have hsound := (sound_of_reachable hr).1
  intro ho
  have hprev : t ∈ s.handover.roles (.prev c₀) := by simp [Handover.roles, handover, hp]
  obtain hrole | hrole := hsound.role_of_owner ho
  · exact absurd (hsound.roles.place_unique hrole hprev) (by simp)
  · obtain rfl := Handover.Role.prev.inj (hsound.roles.place_unique hrole hprev)
    have harrived : s.handover.phase c = .arrived := hphase
    rw [Handover.owner, harrived] at ho
    exact hsane.1 c t ho hdead

/-- How often a stack has been freed. -/
theorem countP_frees (h : scheduling.Trace (fun _ _ => True) tr s) (t : TaskId) :
    tr.countP (frees t) = if t < s.ntasks ∧ (s.task t).stack = false then 1 else 0 := by
  induction h with
  | init hs =>
    obtain rfl := hs
    exact (if_neg fun h => absurd h.1 (Nat.not_lt_zero t)).symm
  | @step tr s s' e htr _ hn ih =>
    have hs := Step.of_next hn
    have hr := htr.reach
    rw [List.countP_append, ih, List.countP_singleton]
    by_cases hf : frees t (s, e) = true
    · obtain ⟨htrue, s₁, hn', hfalse⟩ := frees_iff.mp hf
      obtain rfl : s₁ = s' := Option.some.inj (hn'.symm.trans hn)
      obtain ⟨c, -, -, hp, -⟩ := settles_of_frees hf
      have ht := Nat.lt_of_lt_of_le (lt_of_prev hr hp) hs.ntasks_le
      rw [if_pos hf, if_neg fun h => absurd (htrue.symm.trans h.2) (by decide),
        if_pos ⟨ht, hfalse⟩]
    · have hnot : (s'.task t).stack = false → (s.task t).stack = false := by
        intro hfalse
        by_contra htrue
        exact hf (frees_iff.mpr ⟨by simpa using htrue, s', hn, hfalse⟩)
      rw [if_neg hf, Nat.add_zero]
      refine if_congr ⟨fun h => ⟨Nat.lt_of_lt_of_le h.1 hs.ntasks_le, ?_⟩, fun h => ⟨?_, hnot h.2⟩⟩
        rfl rfl
      · by_cases he : ∃ c, e = .settle c
        · obtain ⟨c, rfl⟩ := he
          cases hs with
          | settle => rw [stack_postSwitch, h.2, Bool.false_and]
        · have hsame := (hs.stack (fun c h => he ⟨c, h⟩) t).resolve_right
            fun hb => Nat.ne_of_lt h.1 hb.1
          exact hsame.trans h.2
      · by_contra hge
        rw [(hs.born (sane_of_reachable hr) hge h.1).1] at h
        exact absurd h.2 (by decide)

/-- A task left dead on a core called `exit` there. -/
theorem exit_of_prev (h : scheduling.Trace (fun _ _ => True) tr s) (hp : (s.core c).prev = some t)
    (hdead : (s.task t).state = .dead) : ∃ y ∈ tr, y.2 = .exit c ∧ y.1.calling c = some t := by
  induction h with
  | init hs =>
    obtain rfl := hs
    cases hp
  | @step tr s s' e htr _ hn ih =>
    have hs := Step.of_next hn
    have hr := htr.reach
    have hearlier : (s.task t).state = .dead →
        ∃ y ∈ tr ++ [(s, e)], y.2 = .exit c ∧ y.1.calling c = some t := by
      intro hd
      obtain ⟨y, hy, h⟩ := ih (hs.prev_of_dead hr hd hp).1 hd
      exact ⟨y, List.mem_append_left _ hy, h⟩
    have ht : t < s.ntasks := by
      by_contra hge
      have ht' := lt_of_prev (.step hr trivial hn) hp
      exact (hs.born (sane_of_reachable hr) hge ht').2 hdead
    obtain hd | ⟨c₀, rfl, hc₀⟩ := (hs.dead_iff (sane_of_reachable hr) ht).mp hdead
    · exact hearlier hd
    · have hp₀ : (s'.core c₀).prev = some t := by
        cases hs with
        | exit hc' => exact (left_exit hc').prev.trans (calling_eq_some hc₀).2
      obtain rfl := prev_unique (.step hr trivial hn) hp hp₀
      exact ⟨_, List.mem_append_right _ (List.mem_singleton_self _), rfl, hc₀⟩

/-- A dead task no core of some has still to settle. -/
structure Gone (cores : CpuId → Prop) (t : TaskId) (s : Scheduler) : Prop where
  reachable : scheduling.Reachable s
  lt : t < s.ntasks
  dead : (s.task t).state = .dead
  settled : ∀ c, cores c → (s.core c).prev ≠ some t

theorem Gone.step {cores : CpuId → Prop} (h : Gone cores t s) (hn : scheduling.next s e = some s') :
    Gone cores t s' where
  reachable := .step h.reachable trivial hn
  lt := Nat.lt_of_lt_of_le h.lt (Step.of_next hn).ntasks_le
  dead := ((Step.of_next hn).dead_iff (sane_of_reachable h.reachable) h.lt).mpr (.inl h.dead)
  settled c hc hp := h.settled c hc ((Step.of_next hn).prev_of_dead h.reachable h.dead hp).1

/-- Once the core it was left on has settled it, every core has. -/
theorem Gone.settle (h : Gone (· ≠ c) t s) (hn : scheduling.next s (.settle c) = some s') :
    Gone (fun _ => True) t s' where
  reachable := (h.step hn).reachable
  lt := (h.step hn).lt
  dead := (h.step hn).dead
  settled c' _ hp := by
    have hs : Step s (.settle c) s' := .of_next hn
    by_cases hc : c' = c
    · exact (hs.prev_of_dead h.reachable h.dead hp).2 (by rw [hc])
    · exact (h.step hn).settled c' hc hp

/-- A task that exits is left on its own core, and nowhere else. -/
theorem gone_exit (hr : scheduling.Reachable s) (hc : s.calling c = some t)
    (hn : scheduling.next s (.exit c) = some s') : Gone (· ≠ c) t s' := by
  have hs : Step s (.exit c) s' := .of_next hn
  have ht := (sane_of_reachable hr).2 t ((sane_of_reachable hr).1 c t (calling_eq_some hc).2)
  have hr' : scheduling.Reachable s' := .step hr trivial hn
  have hp : (s'.core c).prev = some t := by
    cases hs with
    | exit hc' => exact (left_exit hc').prev.trans (calling_eq_some hc).2
  exact ⟨hr', Nat.lt_of_lt_of_le ht hs.ntasks_le,
    (hs.dead_iff (sane_of_reachable hr) ht).mpr (.inr ⟨c, rfl, hc⟩),
    fun c' hne hp' => hne (prev_unique hr' hp' hp)⟩

theorem Gone.path {cores : CpuId → Prop} (h : Gone cores t s) (hpath : scheduling.Path s tr s') :
    Gone cores t s' :=
  hpath.invariant (I := Gone cores t) (fun _ _ _ hg hn => hg.step hn) h

/-- **A dead stack is freed once, by the core its task exited on, and no other is freed.** In every
run: a step that frees the stack of a task is `post_switch` on a core that has that task in `PREV`,
on which that task called `exit`, and no core holds its registers any more; a stack is not freed
twice; and the stack of a task that exits has been freed once, as soon as its core has gone on in
another context. -/
theorem stacks_freed (h : scheduling.Path .new tr s) :
    (∀ before x after t, tr = before ++ x :: after → frees t x = true →
      ∃ c, x.2 = .settle c ∧ (x.1.core c).prev = some t ∧
        (∀ c', x.1.handover.owner c' ≠ some t) ∧
        ∃ y ∈ before, y.2 = .exit c ∧ y.1.calling c = some t) ∧
      (∀ t, tr.countP (frees t) ≤ 1) ∧
      ∀ before x after c t, tr = before ++ x :: after → x.2 = .exit c → x.1.calling c = some t →
        (∃ y ∈ after, y.2 = .settle c) → tr.countP (frees t) = 1 := by
  have htrace : scheduling.Trace (fun _ _ => True) tr s := by
    simpa using EventSystem.Trace.append (fun _ _ => trivial) (.init rfl) h
  refine ⟨?_, fun t => ?_, ?_⟩
  · rintro before ⟨q, e⟩ after t rfl hf
    obtain ⟨q', hbefore, hrest⟩ := h.split
    cases hrest with
    | cons hn _ =>
      have hq : scheduling.Trace (fun _ _ => True) before q := by
        simpa using EventSystem.Trace.append (fun _ _ => trivial) (.init rfl) hbefore
      obtain ⟨c, rfl, -, hp, hdead⟩ := settles_of_frees hf
      exact ⟨c, rfl, hp, owner_ne_of_frees hq.reach hf, exit_of_prev hq hp hdead⟩
  · rw [countP_frees htrace t]
    split <;> decide
  · rintro before ⟨q, e⟩ after c t rfl rfl hc ⟨y, hy, hset⟩
    obtain ⟨q', hbefore, hrest⟩ := h.split
    cases hrest with
    | @cons _ _ q₁ _ _ hn hafter =>
      have hr : scheduling.Reachable q := EventSystem.Reachable.path (.init rfl) hbefore
      have hgone := gone_exit hr hc hn
      obtain ⟨mid, late, rfl, hmid, hlate⟩ := hafter.of_mem hy
      obtain ⟨p, e⟩ := y
      obtain rfl : e = .settle c := hset
      cases hlate with
      | cons hn' hlate =>
        have hend := ((hgone.path hmid).settle hn').path hlate
        have hfalse := (stack_eq_false_iff hend.reachable hend.lt).mpr
          ⟨hend.dead, fun c => hend.settled c trivial⟩
        rw [countP_frees htrace t, if_pos ⟨hend.lt, hfalse⟩]

/-- A task runs and exits, and its core is back in its idle loop. -/
def runAndExit : List SchedEvent :=
  [.spawn 0, .idle 0, .switch 0, .settle 0, .exit 0, .switch 0, .settle 0]

theorem stacks_freed_exit : 0 < (scheduling.stepsFrom .new runAndExit).countP (frees 0) ∧
    (scheduling.stepsFrom .new runAndExit).countP (frees 0) ≤ 1 := by
  obtain ⟨s, hrun⟩ : ∃ s, scheduling.run .new runAndExit = some s :=
    Option.isSome_iff_exists.mp (by decide +kernel)
  exact ⟨by decide +kernel, (stacks_freed (.of_run hrun)).2.1 0⟩

end Scheduler

end StarOS
