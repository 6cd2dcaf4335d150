import StarOS.Sched.Decision

/-!
# Affinity is respected

A task changes its mask itself, while it runs, and the core it runs on may be one the new mask
excludes: then it goes on there until it is preempted or gets to `migrate_off`. It is out of its
call only once it has seen, on the core it is on, that the mask permits that core.

## Main definitions

* `Scheduler.PinStep` — what an event does to the mask of a task
* `Scheduler.PinnedWell` — the invariant

## Main results

* `Scheduler.affinity_respected`
-/

namespace StarOS

namespace Affinity

variable {mask ranOn : Mask} {c : CpuId}

theorem shift_eq_twoPow (c : CpuId) : ((1 <<< c : ℕ) : Mask) = BitVec.twoPow 64 c := by
  refine BitVec.eq_of_toNat_eq ?_
  rw [BitVec.toNat_twoPow, Nat.one_shiftLeft]
  rfl

theorem allows_iff : allows mask c = true ↔ c < 64 ∧ mask.getLsbD c = true := by
  rw [allows, Bool.and_eq_true, decide_eq_true_iff, bne_iff_ne, shift_eq_twoPow]
  refine and_congr_right fun hc => ?_
  rw [BitVec.and_twoPow]
  split
  · next hbit =>
    refine iff_of_true (fun hzero => ?_) hbit
    have := congrArg (fun m => BitVec.getLsbD m c) hzero
    rw [BitVec.getLsbD_twoPow] at this
    simp [hc] at this
  · next hbit => exact iff_of_false (fun hne => hne rfl) hbit

/-- Every core of `ranOn` is one of `mask`. -/
def Within (ranOn mask : Mask) : Prop := ∀ c, ranOn.getLsbD c = true → mask.getLsbD c = true

theorem within_zero (mask : Mask) : Within 0 mask := by
  intro c h
  simp at h

theorem Within.ranHere (h : Within ranOn mask) (hc : allows mask c = true) :
    Within (Scheduler.ranHere ranOn c) mask := by
  obtain ⟨hlt, hbit⟩ := allows_iff.mp hc
  intro i hi
  rw [Scheduler.ranHere, if_pos hlt, shift_eq_twoPow, BitVec.getLsbD_or, Bool.or_eq_true,
    BitVec.getLsbD_twoPow, Bool.and_eq_true, decide_eq_true_iff, decide_eq_true_iff] at hi
  obtain hi | ⟨-, rfl⟩ := hi
  · exact h i hi
  · exact hbit

end Affinity

namespace Scheduler

variable {s s' : Scheduler} {e : SchedEvent} {c : CpuId} {t : TaskId} {mask : Mask}

/-! ### What an event does to the mask of a task -/

/-- What an event that is no decision does to the mask of task `t`. -/
inductive PinStep (s : Scheduler) (t : TaskId) (y : Task) : Prop
  | same : y.affinity = (s.task t).affinity → y.ranOn = (s.task t).ranOn →
      y.pinning = (s.task t).pinning → PinStep s t y
  /-- It calls `set_affinity`. -/
  | set {c : CpuId} {mask : Mask} : s.calling c = some t → y.affinity = mask → y.ranOn = 0 →
      y.pinning = .check mask → PinStep s t y
  /-- The core it is on is permitted. -/
  | stay {c : CpuId} {mask : Mask} : (s.core c).current = some t →
      (s.task t).pinning = .check mask → Affinity.allows mask c = true →
      y.affinity = (s.task t).affinity → y.ranOn = (s.task t).ranOn → y.pinning = .record →
      PinStep s t y
  /-- It is not. -/
  | away {mask : Mask} : (s.task t).pinning = .check mask →
      y.affinity = (s.task t).affinity → y.ranOn = (s.task t).ranOn → y.pinning = .migrate mask →
      PinStep s t y
  /-- It returns. -/
  | done {c : CpuId} : (s.core c).current = some t → (s.task t).pinning = .record →
      y.affinity = (s.task t).affinity → y.ranOn = ranHere (s.task t).ranOn c → y.pinning = .no →
      PinStep s t y
  | born {ctx : Context} : t = s.ntasks → y = .spawned ctx → PinStep s t y

theorem PinStep.modTask {u : TaskId} {f : Task → Task} (h : u = t → PinStep s t (f (s.task t))) :
    PinStep s t ((s.modTask u f).task t) := by
  by_cases hu : u = t
  · subst hu
    rw [show (s.modTask u f).task u = f (s.task u) from Function.update_self ..]
    exact h rfl
  · rw [show (s.modTask u f).task t = s.task t from Function.update_of_ne (Ne.symm hu) ..]
    exact .same rfl rfl rfl

theorem PinStep.of_task (h : s'.task = s.task) : PinStep s t (s'.task t) := by
  rw [h]
  exact .same rfl rfl rfl

theorem pinStep_postSwitch : PinStep s t ((s.postSwitch c).task t) := by
  rw [postSwitch]
  cases hprev : (s.core c).prev with
  | none => exact .of_task rfl
  | some u =>
    dsimp only
    split
    · by_cases hu : t = u
      · subst hu
        simp only [Scheduler.modTask, modCore, Function.update_self]
        exact .same rfl rfl rfl
      · simp only [Scheduler.modTask, modCore, Function.update_of_ne hu]
        exact .same rfl rfl rfl
    · exact PinStep.modTask (s := s) (u := u) (f := fun x => { x with onCpu := false })
        fun _ => .same rfl rfl rfl

theorem pinStep_contextSwitch (out into : Option TaskId) :
    PinStep s t ((s.contextSwitch c out into).task t) := by
  cases out with
  | none => exact .of_task rfl
  | some u =>
    exact PinStep.modTask (s := s) (u := u) (f := fun x => { x with ctx := (s.core c).regs })
      fun _ => .same rfl rfl rfl

/-- **What an event that is no decision does to the mask of a task.** -/
theorem Step.pinStep (h : Step s e s') (hd : s.decides e = none) (t : TaskId) :
    PinStep s t (s'.task t) := by
  cases h with
  | exec => exact .of_task rfl
  | @preempt c hp =>
    rw [reschedule, Option.map_eq_none_iff.mp hd]
    exact .of_task rfl
  | switch => exact pinStep_contextSwitch _ _
  | settle => exact pinStep_postSwitch
  | yield ht =>
    rw [decides, (calling_eq_some ht).2] at hd
    cases hd
  | exit | idle => cases hd
  | @park c u parked hu hp =>
    rw [decides, (calling_eq_some hu).2, Option.bind_some] at hd
    split at hd
    · next hw =>
      rw [parkAndSwitch, if_pos hw]
      exact .modTask fun _ => .same rfl rfl rfl
    · cases hd
  | @setAffinity c u mask online hu =>
    rw [Scheduler.setAffinity]
    split
    · exact .of_task rfl
    · split
      · exact .of_task rfl
      · refine .modTask fun heq => ?_
        subst heq
        exact .set hu rfl rfl rfl
  | @pin c u hu =>
    have hc := (running_eq_some hu).2
    rw [decides, hc, Option.bind_some] at hd
    rw [Scheduler.pin]
    cases hpin : (s.task u).pinning with
    | no => exact .of_task rfl
    | check mask =>
      refine .modTask fun heq => ?_
      subst heq
      by_cases hallow : Affinity.allows mask c = true
      · exact .stay hc hpin hallow rfl rfl (if_pos hallow)
      · exact .away hpin rfl rfl (if_neg hallow)
    | record =>
      refine .modTask fun heq => ?_
      subst heq
      exact .done hc hpin rfl rfl rfl
    | migrate mask =>
      rw [hpin] at hd
      cases hd
  | setClass =>
    rw [Scheduler.setClass]
    split
    · exact .of_task rfl
    · split
      · exact .of_task rfl
      · exact .modTask fun _ => .same rfl rfl rfl
  | unblock | deliver => exact .modTask fun _ => .same rfl rfl rfl
  | wakeExpired => exact .same rfl rfl rfl
  | @spawn ctx =>
    by_cases ht : t = s.ntasks
    · subst ht
      exact .born rfl (Function.update_self ..)
    · rw [show (s.spawn ctx).task t = s.task t from Function.update_of_ne ht ..]
      exact .same rfl rfl rfl

/-! ### The invariant -/

/-- A task is on a core its mask permits, unless it is about to look or to leave; it has been on
no other since the mask was set; and the mask it looks at is the one it set. -/
structure PinnedWell (s : Scheduler) : Prop where
  ranOn : ∀ t, Affinity.Within (s.task t).ranOn (s.task t).affinity
  mask : ∀ t mask, (s.task t).pinning = .check mask ∨ (s.task t).pinning = .migrate mask →
    (s.task t).affinity = mask
  core : ∀ c t, (s.core c).current = some t →
    (s.task t).pinning = .no ∨ (s.task t).pinning = .record →
      Affinity.allows (s.task t).affinity c = true

theorem pickable_allows (h : s.pickable c t = true) :
    Affinity.allows (s.task t).affinity c = true := by
  simp only [pickable, Bool.and_eq_true] at h
  exact h.1.2

/-- **A core takes no task whose mask excludes it.** -/
theorem Puts.allows (hin : s.InTable) (h : s.Puts e c t) :
    Affinity.allows (s.task t).affinity c = true :=
  pickable_allows (h.offered hin).2.2

/-- What a decision does to the cores a task has run on. -/
theorem Outcome.ranOn (h : Outcome s c s') (t : TaskId) :
    (s'.task t).ranOn = (s.task t).ranOn ∨
      s.candidate c = some t ∧ (s'.task t).ranOn = ranHere (s.task t).ranOn c := by
  cases h with
  | empty _ _ _ _ _ hran => exact .inl (hran t)
  | declined _ _ _ _ _ _ _ hran => exact .inl (hran t)
  | @taken next hfound _ _ _ _ hother hran =>
    by_cases ht : t = next
    · exact .inr ⟨ht ▸ hfound, ht ▸ hran⟩
    · exact .inl (hother t ht)

theorem PinnedWell.decision (hw : s.PinnedWell) (hin : s.InTable) (h : Step s e s')
    (hn : s.next e = some s') (hd : s.decides e = some c) : s'.PinnedWell := by
  have hsame := h.decided hd
  have hout := h.outcome hd hin
  refine ⟨fun t => ?_, fun t mask hpin => ?_, fun c' t hc' hpin => ?_⟩
  · rw [hsame.affinity]
    obtain hran | ⟨hfound, hran⟩ := hout.ranOn t
    · rw [hran]
      exact hw.ranOn t
    · rw [hran]
      exact (hw.ranOn t).ranHere (pickable_allows (Offered.of_candidate hfound).2.2)
  · rw [hsame.affinity]
    obtain heq | ⟨mask', hold, hnew⟩ := hsame.pinning t
    · exact hw.mask t mask (heq ▸ hpin)
    · have hmask : mask' = mask := by simpa [hnew] using hpin
      exact hmask ▸ hw.mask t mask' (.inr hold)
  · rw [hsame.affinity]
    have hpin' : (s.task t).pinning = .no ∨ (s.task t).pinning = .record := by
      obtain heq | ⟨mask', hold, hnew⟩ := hsame.pinning t
      · exact heq ▸ hpin
      · rw [hnew] at hpin
        obtain hpin | hpin := hpin <;> cases hpin
    by_cases hcur : (s.core c').current = some t
    · exact hw.core c' t hcur hpin'
    · exact Puts.allows hin (e := e) ⟨hcur, s', hn, hc'⟩

theorem PinnedWell.undecided (hw : s.PinnedWell) (hin : s.InTable)
    (hone : ∀ c c' t, (s.core c).current = some t → (s.core c').current = some t → c = c')
    (h : Step s e s') (hd : s.decides e = none) : s'.PinnedWell := by
  have hcur := (h.undecided hd).current
  refine ⟨fun t => ?_, fun t mask hpin => ?_, fun c t hc hpin => ?_⟩
  · cases h.pinStep hd t with
    | same haff hran => rw [haff, hran]; exact hw.ranOn t
    | set _ haff hran => rw [hran]; exact Affinity.within_zero _
    | stay _ _ _ haff hran => rw [haff, hran]; exact hw.ranOn t
    | away _ haff hran => rw [haff, hran]; exact hw.ranOn t
    | done hc hrec haff hran =>
      rw [haff, hran]
      exact (hw.ranOn t).ranHere (hw.core _ t hc (.inr hrec))
    | born _ hy => rw [hy]; exact Affinity.within_zero _
  · cases h.pinStep hd t with
    | same haff _ hpin' => rw [haff]; exact hw.mask t mask (hpin' ▸ hpin)
    | set _ haff _ hpin' =>
      rw [haff]
      simpa [hpin'] using hpin
    | stay _ _ _ _ _ hpin' => simp [hpin'] at hpin
    | away hold haff _ hpin' =>
      rw [haff, hw.mask t _ (.inl hold)]
      simpa [hpin'] using hpin
    | done _ _ _ _ hpin' => simp [hpin'] at hpin
    | born _ hy => simp [hy, Task.spawned] at hpin
  · rw [hcur] at hc
    cases h.pinStep hd t with
    | same haff _ hpin' => rw [haff]; exact hw.core c t hc (hpin' ▸ hpin)
    | set _ _ _ hpin' => simp [hpin'] at hpin
    | @stay c₀ mask hc₀ hold hallow haff =>
      -- the task is on one core only
      obtain rfl := hone c c₀ t hc hc₀
      rw [haff, hw.mask t mask (.inl hold)]
      exact hallow
    | away _ _ _ hpin' => simp [hpin'] at hpin
    | done _ hrec haff => rw [haff]; exact hw.core c t hc (.inr hrec)
    | born ht => exact absurd (hin c t hc) (by rw [ht]; exact Nat.lt_irrefl _)

theorem pinnedWell_of_reachable (h : scheduling.Reachable s) : s.PinnedWell := by
  refine h.invariant_of (J := scheduling.Reachable) (fun _ h => h) ?_ ?_
  · rintro _ rfl
    exact ⟨fun _ => Affinity.within_zero _, fun _ _ h => by simp [new, Task.unborn, Task.spawned] at h,
      nofun⟩
  · intro s e s' hr hw _ hn
    have hin := inTable_of_reachable hr
    cases hd : s.decides e with
    | none =>
      exact hw.undecided hin (fun c c' t h h' => (sound_of_reachable hr).1.current_unique h h')
        (Step.of_next hn) hd
    | some c => exact hw.decision hin (Step.of_next hn) hn hd

/-! ### A call of `set_affinity` -/

/-- A call of `set_affinity` by task `t` in state `s` that is accepted, not returned from along `tr`
and in state `s'`. -/
structure PinCall (s : Scheduler) (t : TaskId) (mask : Mask) (tr : List (Scheduler × SchedEvent))
    (s' : Scheduler) : Prop where
  accepted : ∃ c online s₁, s.calling c = some t ∧ mask ≠ 0 ∧
    Affinity.satisfiable mask online = true ∧
    s.next (.setAffinity c mask online) = some s₁ ∧ scheduling.Path s₁ tr s'
  pending : ∀ x ∈ tr, (x.1.task t).pinning ≠ .no

/-- Task `t`, on core `c`, returns from the call. -/
structure Returns (s : Scheduler) (c : CpuId) (t : TaskId) (s' : Scheduler) : Prop where
  running : s.running c = some t
  next : s.next (.pin c) = some s'
  pending : (s.task t).pinning ≠ .no
  done : (s'.task t).pinning = .no

/-- The mask of a task that is in the call stays. -/
theorem Step.affinity (h : Step s e s') (ht : t < s.ntasks) (hpin : (s.task t).pinning ≠ .no) :
    (s'.task t).affinity = (s.task t).affinity := by
  cases hd : s.decides e with
  | some c => exact (h.decided hd).affinity t
  | none =>
    cases h.pinStep hd t with
    | same haff => exact haff
    | set hc =>
      have := (Option.filter_eq_some_iff.mp hc).2
      exact absurd (by simpa using this) hpin
    | stay _ _ _ haff => exact haff
    | away _ haff => exact haff
    | done _ _ haff => exact haff
    | born heq => exact absurd ht (by rw [heq]; exact Nat.lt_irrefl _)

theorem PinCall.affinity {tr : List (Scheduler × SchedEvent)} (hin : s.InTable)
    (h : PinCall s t mask tr s') : (s'.task t).affinity = mask := by
  obtain ⟨c, online, s₁, hc, hmask, hsat, hn, hpath⟩ := h.accepted
  have ht : t < s.ntasks := hin c t (calling_eq_some hc).2
  have hs₁ : s.setAffinity t mask online = s₁ := by
    rw [next, hc] at hn
    exact Option.some.inj hn
  have hset : (s₁.task t).affinity = mask := by
    rw [← hs₁, setAffinity, if_neg hmask, if_neg (by simp [hsat])]
    simp [modTask]
  have hlt : t < s₁.ntasks := Nat.lt_of_lt_of_le ht (Step.of_next hn).ntasks_le
  have hboth : t < s'.ntasks ∧ (s'.task t).affinity = mask := by
    refine hpath.invariant_of (I := fun q => t < q.ntasks ∧ (q.task t).affinity = mask) ?_
      ⟨hlt, hset⟩ h.pending
    rintro q e q' ⟨hlt, haff⟩ hpin hn
    have hq := Step.of_next hn
    exact ⟨Nat.lt_of_lt_of_le hlt hq.ntasks_le, (hq.affinity hlt hpin).trans haff⟩
  exact hboth.2

/-- A call is returned from by a task that has recorded where it is. -/
theorem Returns.record (h : s.Returns c t s') : (s.task t).pinning = .record ∧
    s' = s.modTask t fun t => { t with ranOn := ranHere t.ranOn c, pinning := .no } := by
  have hs' : s.pin c t = s' := by
    have hn := h.next
    rw [Scheduler.next, h.running] at hn
    exact Option.some.inj hn
  have hdone := h.done
  rw [← hs']
  rw [← hs', pin] at hdone
  rw [pin]
  cases hpin : (s.task t).pinning with
  | no => exact absurd hpin h.pending
  | check mask =>
    simp only [hpin, modTask, Function.update_self] at hdone
    split at hdone <;> cases hdone
  | migrate mask =>
    have hkept := (decided_switchAway (c := c) (t := t)
      (s := (s.modTask t fun t => { t with pinning := .check mask }).modTask t
        fun t => { t with state := .ready })).pinning t
    simp only [hpin] at hdone
    rw [migrateOff] at hdone
    rw [hdone] at hkept
    simp [modTask] at hkept
  | record => exact ⟨rfl, rfl⟩

/-- **Affinity is respected**, in any interleaving: a core takes no task whose mask excludes it, a
task has only run on cores of its mask since it was set, and one that returns from `set_affinity`
is on a core of the mask it asked for. -/
theorem affinity_respected (h : scheduling.Reachable s) :
    (∀ e c t, s.Puts e c t → Affinity.allows (s.task t).affinity c = true) ∧
      (∀ t, Affinity.Within (s.task t).ranOn (s.task t).affinity) ∧
      ∀ t mask tr s₁ c s₂, PinCall s t mask tr s₁ → Returns s₁ c t s₂ →
        Affinity.allows mask c = true ∧ s₂.running c = some t ∧ (s₂.task t).affinity = mask := by
  have hin := inTable_of_reachable h
  refine ⟨fun e c t hput => hput.allows hin, (pinnedWell_of_reachable h).ranOn, ?_⟩
  intro t mask tr s₁ c s₂ hcall hret
  obtain ⟨c₀, online, s₀, -, -, -, hn, hpath⟩ := hcall.accepted
  have hr₀ : scheduling.Reachable s₀ :=
    .step (e := SchedEvent.setAffinity c₀ mask online) h trivial hn
  have hr₁ : scheduling.Reachable s₁ := hr₀.path hpath
  have haff := hcall.affinity hin
  obtain ⟨hrec, rfl⟩ := hret.record
  obtain ⟨hphase, hcur⟩ := running_eq_some hret.running
  refine ⟨haff ▸ (pinnedWell_of_reachable hr₁).core c t hcur (.inr hrec), hret.running, ?_⟩
  rw [← haff]
  simp [modTask]

/-- A task on core 1 that pins itself to core 0 and has left: it is ready, and core 1 does not take
it back. -/
theorem affinity_respected_elsewhere : ∃ s, scheduling.Reachable s ∧ (s.task 0).state = .ready ∧
    ∀ e, ¬ s.Puts e 1 0 := by
  obtain ⟨s, hr, hp⟩ := EventSystem.Reachable.exists_of_run (M := scheduling) (s := .new)
    [.spawn 0, .idle 1, .switch 1, .settle 1, .setAffinity 1 1 3, .pin 1, .pin 1, .switch 1,
      .settle 1]
    (p := fun s => (s.task 0).state == .ready && (s.task 0).affinity == 1) rfl (by decide +kernel)
  rw [Bool.and_eq_true, beq_iff_eq, beq_iff_eq] at hp
  refine ⟨s, hr, hp.1, fun e hput => ?_⟩
  have hallow := (affinity_respected hr).1 e 1 0 hput
  rw [hp.2] at hallow
  exact absurd hallow (by decide)

end Scheduler

end StarOS
