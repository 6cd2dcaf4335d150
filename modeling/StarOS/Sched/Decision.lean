import StarOS.Lib.Progress
import StarOS.Sched.Lives

/-!
# What a decision does

A core decides when it looks for a successor: preempted, yielding, parking, migrating off, exiting
or idle. The five paths differ in what they do to the task they leave and in whether they may
decline. This file says what they have in common: which slot a decision finds, and what it does to
the core, to its phase of fairness and to the two counters.

## Main definitions

* `Scheduler.decides` — the core that decides in an event
* `Scheduler.candidate` — the slot it finds
* `Scheduler.Offered` — a slot it may take
* `Scheduler.Puts` — an event puts a task on a core

## Main results

* `Scheduler.Offered.of_candidate` — what it finds it may take
* `Scheduler.Step.outcome` — nothing found, declined or taken
* `Scheduler.Step.undecided` — no other event moves a task onto a core or a phase on
* `Scheduler.Step.puts` — a task is put on a core by a decision that found it
-/

namespace StarOS

namespace Scheduler

variable {s s' s₁ s₂ : Scheduler} {e : SchedEvent} {c c' : CpuId} {t prev next : TaskId}

/-- The core that looks for a successor in an event, if any does. -/
def decides (s : Scheduler) : SchedEvent → Option CpuId
  | .preempt c | .yield c => (s.core c).current.map fun _ => c
  | .idle c | .exit c => some c
  | .park c _ =>
    (s.core c).current.bind fun t => if (s.task t).wakePending then none else some c
  | .pin c =>
    (s.core c).current.bind fun t =>
      match (s.task t).pinning with
      | .migrate _ => some c
      | .no | .check _ | .record => none
  | _ => none

/-- The slot core `c` finds when it looks for a successor. -/
def candidate (s : Scheduler) (c : CpuId) : Option TaskId :=
  match (s.core c).current with
  | some prev =>
    Class.choose s.ntasks prev (s.core c).picks (s.pickable c) (s.sticky c) fun i => (s.task i).cls
  | none =>
    Class.chooseFirst s.ntasks (s.core c).picks (s.pickable c) (s.sticky c) fun i => (s.task i).cls

/-- Core `c` may take slot `i` in place of what it runs. -/
def Offered (s : Scheduler) (c : CpuId) (i : TaskId) : Prop :=
  i < s.ntasks ∧ (s.core c).current ≠ some i ∧ s.pickable c i = true

instance (i : TaskId) : Decidable (s.Offered c i) := inferInstanceAs (Decidable (_ ∧ _ ∧ _))

/-- Taking slot `i`, core `c` steps over a more urgent one. -/
def overtakes (s : Scheduler) (c : CpuId) (i : TaskId) : Bool :=
  (s.task i).cls != .latency && Class.outranked s.ntasks (s.task i).cls
    (fun j => some j != (s.core c).current && s.pickable c j) fun j => (s.task j).cls

/-- Event `e` puts task `t` on core `c`. -/
def Puts (s : Scheduler) (e : SchedEvent) (c : CpuId) (t : TaskId) : Prop :=
  (s.core c).current ≠ some t ∧ ∃ s', s.next e = some s' ∧ (s'.core c).current = some t

instance (t : TaskId) : Decidable (s.Puts e c t) :=
  decidable_of_iff ((s.core c).current ≠ some t ∧
    (s.next e).any (fun s' => (s'.core c).current == some t) = true) <| by
      simp [Puts, Option.any_eq_true]

/-- What the cores run is in the table. -/
def InTable (s : Scheduler) : Prop := ∀ c t, (s.core c).current = some t → t < s.ntasks

/-! ### What is found -/

theorem candidate_of_none (h : (s.core c).current = none) : s.candidate c =
    Class.chooseFirst s.ntasks (s.core c).picks (s.pickable c) (s.sticky c)
      fun i => (s.task i).cls := by
  rw [candidate, h]

theorem candidate_of_some (h : (s.core c).current = some prev) : s.candidate c =
    Class.choose s.ntasks prev (s.core c).picks (s.pickable c) (s.sticky c)
      fun i => (s.task i).cls := by
  rw [candidate, h]

theorem Offered.of_candidate (h : s.candidate c = some next) : s.Offered c next := by
  cases hc : (s.core c).current with
  | none =>
    rw [candidate_of_none hc] at h
    obtain ⟨hlt, hp⟩ := Class.chooseFirst_eq_some h
    exact ⟨hlt, by simp [hc], hp⟩
  | some prev =>
    rw [candidate_of_some hc] at h
    obtain ⟨hlt, hne, hp⟩ := Class.choose_eq_some h
    exact ⟨hlt, by simpa [hc] using hne.symm, hp⟩

/-- A class scanned first is served if anything of it is on offer. -/
theorem candidate_head (hin : s.InTable) {b : Class}
    (hb : (Class.bands (s.core c).picks).head? = some b) (ht : s.Offered c t)
    (hcls : (s.task t).cls = b) : ∃ i, s.candidate c = some i ∧ (s.task i).cls = b := by
  obtain ⟨hlt, hne, hp⟩ := ht
  cases hc : (s.core c).current with
  | none =>
    rw [candidate_of_none hc]
    exact Class.chooseFirst_head hb hlt hp hcls
  | some prev =>
    rw [candidate_of_some hc]
    refine Class.choose_head (hin c prev hc) hb hlt (fun h => hne ?_) hp hcls
    rw [hc, h]

/-- **What is found steps over a more urgent slot for a reason.** -/
theorem isFair_of_candidate (hin : s.InTable) (h : s.candidate c = some next)
    (ht : s.Offered c t) (hlt : (s.task t).cls.asRaw < (s.task next).cls.asRaw) :
    Class.isFair (s.core c).picks = true ∧
      (Class.bands (s.core c).picks).head? ≠ some .latency := by
  obtain ⟨htn, hne, hp⟩ := ht
  cases hc : (s.core c).current with
  | none =>
    rw [candidate_of_none hc] at h
    exact (Class.chooseFirst_band h).2 t htn hp hlt
  | some prev =>
    rw [candidate_of_some hc] at h
    refine (Class.choose_band (hin c prev hc) h).2 t htn (fun h => hne ?_) hp hlt
    rw [hc, h]

theorem overtakes_iff {i : TaskId} : s.overtakes c i = true ↔
    ∃ t, s.Offered c t ∧ (s.task t).cls.asRaw < (s.task i).cls.asRaw := by
  simp only [overtakes, Class.outranked, Bool.and_eq_true, bne_iff_ne, List.any_eq_true,
    List.mem_range, decide_eq_true_iff, Offered]
  constructor
  · rintro ⟨-, j, hj, hlt, hne, hp⟩
    exact ⟨j, ⟨hj, fun h => hne h.symm, hp⟩, hlt⟩
  · rintro ⟨j, ⟨hj, hne, hp⟩, hlt⟩
    refine ⟨fun hl => ?_, j, hj, hlt, fun h => hne h.symm, hp⟩
    rw [hl] at hlt
    cases hcls : (s.task j).cls <;> rw [hcls] at hlt <;> exact absurd hlt (by decide)

/-! ### What a decision leaves alone -/

/-- What no decision of core `c` changes. A task that migrates is back at the head of its loop. -/
structure Decided (s : Scheduler) (c : CpuId) (s' : Scheduler) : Prop where
  ntasks : s'.ntasks = s.ntasks
  core : ∀ c', c' ≠ c → s'.core c' = s.core c'
  reaped : s'.reapedStacks = s.reapedStacks
  cls : ∀ t, (s'.task t).cls = (s.task t).cls
  affinity : ∀ t, (s'.task t).affinity = (s.task t).affinity
  stack : ∀ t, (s'.task t).stack = (s.task t).stack
  pinning : ∀ t, (s'.task t).pinning = (s.task t).pinning ∨
    ∃ mask, (s.task t).pinning = .migrate mask ∧ (s'.task t).pinning = .check mask

namespace Decided

theorem trans (h : Decided s c s₁) (h' : Decided s₁ c s₂) : Decided s c s₂ where
  ntasks := h'.ntasks.trans h.ntasks
  core c' hne := (h'.core c' hne).trans (h.core c' hne)
  reaped := h'.reaped.trans h.reaped
  cls t := (h'.cls t).trans (h.cls t)
  affinity t := (h'.affinity t).trans (h.affinity t)
  stack t := (h'.stack t).trans (h.stack t)
  pinning t := by
    obtain h' | ⟨mask, hm, hc⟩ := h'.pinning t
    · rw [h']
      exact h.pinning t
    · obtain h | ⟨mask', -, hc'⟩ := h.pinning t
      · exact .inr ⟨mask, h ▸ hm, hc⟩
      · rw [hc'] at hm
        cases hm

theorem of_eq (hn : s'.ntasks = s.ntasks) (hc : ∀ c', c' ≠ c → s'.core c' = s.core c')
    (hr : s'.reapedStacks = s.reapedStacks) (ht : s'.task = s.task) : Decided s c s' where
  ntasks := hn
  core := hc
  reaped := hr
  cls t := by rw [ht]
  affinity t := by rw [ht]
  stack t := by rw [ht]
  pinning t := .inl (by rw [ht])

theorem refl (s : Scheduler) (c : CpuId) : Decided s c s := of_eq rfl (fun _ _ => rfl) rfl rfl

theorem modCore (f : Core → Core) : Decided s c (s.modCore c f) :=
  of_eq rfl (fun _ hne => Function.update_of_ne hne ..) rfl rfl

theorem modTask {f : Task → Task} (hcls : (f (s.task t)).cls = (s.task t).cls)
    (haff : (f (s.task t)).affinity = (s.task t).affinity)
    (hstack : (f (s.task t)).stack = (s.task t).stack)
    (hpin : (f (s.task t)).pinning = (s.task t).pinning ∨
      ∃ mask, (s.task t).pinning = .migrate mask ∧ (f (s.task t)).pinning = .check mask) :
    Decided s c (s.modTask t f) := by
  have hcases : ∀ u, u ≠ t → (s.modTask t f).task u = s.task u :=
    fun u hne => Function.update_of_ne hne ..
  have hself : (s.modTask t f).task t = f (s.task t) := Function.update_self ..
  refine ⟨rfl, fun _ _ => rfl, rfl, fun u => ?_, fun u => ?_, fun u => ?_, fun u => ?_⟩ <;>
    (by_cases hu : u = t
     · subst hu
       rw [hself]
       assumption
     · rw [hcases u hu]
       try exact .inl rfl)

theorem advance (had : Bool) : Decided s c (s.advance c had) := by
  rw [Scheduler.advance]
  split
  · exact refl s c
  · exact of_eq rfl (fun _ hne => Function.update_of_ne hne ..) rfl rfl

theorem take {origin : Option TaskId} (f : Core → Core) :
    Decided s c ((s.take c origin next).modCore c f) := by
  have hacc : Decided s c (s.account c origin next) := by
    rw [Scheduler.account]
    split
    · exact of_eq rfl (fun _ _ => rfl) rfl rfl
    · exact refl s c
  have hclaim : Decided (s.account c origin next) c (s.take c origin next) :=
    (modTask rfl rfl rfl (.inl rfl)).trans (modCore _)
  exact (hacc.trans hclaim).trans (modCore f)

end Decided

theorem decided_switchAway : Decided s c (s.switchAway c t) := by
  obtain ⟨found, s₁, hpick⟩ : ∃ found s₁,
      (s.modCore c fun core => { core with prev := some t }).pick c t = (found, s₁) := ⟨_, _, rfl⟩
  have hs₁ : Decided s c s₁ := by
    obtain ⟨-, rfl⟩ := Prod.mk.inj hpick
    exact (Decided.modCore _).trans (.advance _)
  rw [switchAway]
  simp only [hpick]
  cases found with
  | none => exact hs₁.trans (.modCore _)
  | some next => exact hs₁.trans (.take _)

theorem decided_reschedule (honour : Bool) : Decided s c (s.reschedule c honour) := by
  rw [reschedule]
  cases (s.core c).current with
  | none => exact .refl s c
  | some prev =>
    obtain ⟨found, s₁, hpick⟩ : ∃ found s₁, s.pick c prev = (found, s₁) := ⟨_, _, rfl⟩
    have hs₁ : Decided s c s₁ := by
      obtain ⟨-, rfl⟩ := Prod.mk.inj hpick
      exact .advance _
    simp only [hpick]
    cases found with
    | none => exact hs₁
    | some next =>
      dsimp only
      split
      · exact hs₁
      · have hrunnable : Decided s₁ c (s₁.modTask prev Task.runnable) := by
          refine .modTask ?_ ?_ ?_ (.inl ?_) <;> rw [Task.runnable] <;> split <;> rfl
        exact (hs₁.trans hrunnable).trans (.take _)

theorem decided_runIdle : Decided s c (s.runIdle c) := by
  obtain ⟨found, s₁, hpick⟩ : ∃ found s₁, s.pickIdle c = (found, s₁) := ⟨_, _, rfl⟩
  have hs₁ : Decided s c s₁ := by
    obtain ⟨-, rfl⟩ := Prod.mk.inj hpick
    exact .advance _
  rw [runIdle]
  simp only [hpick]
  cases found with
  | none => exact hs₁
  | some next => exact hs₁.trans (.take _)

/-- **What no decision changes.** -/
theorem Step.decided (h : Step s e s') (hd : s.decides e = some c) : Decided s c s' := by
  cases h with
  | preempt hp | yield ht =>
    obtain ⟨-, -, rfl⟩ := Option.map_eq_some_iff.mp hd
    exact decided_reschedule _
  | idle hp hc =>
    obtain rfl := Option.some.inj hd
    exact decided_runIdle
  | exit ht =>
    obtain rfl := Option.some.inj hd
    exact (Decided.modTask rfl rfl rfl (.inl rfl)).trans decided_switchAway
  | @park c₀ t parked ht hp =>
    rw [decides, (calling_eq_some ht).2, Option.bind_some] at hd
    split at hd
    · cases hd
    · next hw =>
      obtain rfl := Option.some.inj hd
      rw [parkAndSwitch, if_neg hw]
      exact (Decided.modTask rfl rfl rfl (.inl rfl)).trans decided_switchAway
  | @pin c₀ t ht =>
    rw [decides, (running_eq_some ht).2, Option.bind_some] at hd
    rw [Scheduler.pin]
    cases hpin : (s.task t).pinning with
    | migrate mask =>
      rw [hpin] at hd
      obtain rfl := Option.some.inj hd
      have hcheck : Decided s c₀ (s.modTask t fun t => { t with pinning := .check mask }) :=
        .modTask rfl rfl rfl (.inr ⟨mask, hpin, rfl⟩)
      exact (hcheck.trans (.modTask rfl rfl rfl (.inl rfl))).trans decided_switchAway
    | no | check mask | record =>
      rw [hpin] at hd
      cases hd
  | exec | switch | settle | setAffinity | setClass | unblock | deliver | wakeExpired | spawn =>
    cases hd

/-! ### What a decision does -/

/-- The ways a decision of core `c` can go. -/
inductive Outcome (s : Scheduler) (c : CpuId) (s' : Scheduler) : Prop
  /-- Nothing is found. -/
  | empty : s.candidate c = none →
      ((s'.core c).current = (s.core c).current ∨ (s'.core c).current = none) →
      (s'.core c).picks = (s.core c).picks → s'.fairPicks = s.fairPicks →
      s'.inversions = s.inversions → (∀ t, (s'.task t).ranOn = (s.task t).ranOn) → Outcome s c s'
  /-- What is found is less urgent than what runs, and the core keeps that. -/
  | declined {prev next : TaskId} : s.candidate c = some next →
      (s.core c).current = some prev → (s'.core c).current = some prev →
      Class.shouldSwitch (s.task prev).cls (s.task next).cls
        (Class.isFair (s.core c).picks) = false →
      (s'.core c).picks = ((s.core c).picks + 1) % 2 ^ 64 →
      s'.fairPicks = s.fairPicks + (if Class.isFair (s.core c).picks then 1 else 0) →
      s'.inversions = s.inversions → (∀ t, (s'.task t).ranOn = (s.task t).ranOn) → Outcome s c s'
  /-- It is taken. -/
  | taken {next : TaskId} : s.candidate c = some next → (s'.core c).current = some next →
      (s'.core c).picks = ((s.core c).picks + 1) % 2 ^ 64 →
      s'.fairPicks = s.fairPicks + (if Class.isFair (s.core c).picks then 1 else 0) →
      s'.inversions = s.inversions + (if s.overtakes c next then 1 else 0) →
      (∀ t, t ≠ next → (s'.task t).ranOn = (s.task t).ranOn) →
      (s'.task next).ranOn = ranHere (s.task next).ranOn c → Outcome s c s'

/-- Another state a decision of core `c` comes out the same in: they differ in what the core
leaves. -/
structure Alike (s : Scheduler) (c : CpuId) (s₁ : Scheduler) : Prop where
  ntasks : s₁.ntasks = s.ntasks
  task : ∀ i, (s.core c).current ≠ some i → s₁.task i = s.task i
  ranOn : ∀ i, (s₁.task i).ranOn = (s.task i).ranOn
  inversions : s₁.inversions = s.inversions

namespace Alike

theorem refl (s : Scheduler) (c : CpuId) : Alike s c s :=
  ⟨rfl, fun _ _ => rfl, fun _ => rfl, rfl⟩

/-- The core has put the state of what it leaves right. -/
theorem modTask (h : Alike s c s₁) (hc : (s.core c).current = some t) {f : Task → Task}
    (hran : (f (s₁.task t)).ranOn = (s₁.task t).ranOn) : Alike s c (s₁.modTask t f) where
  ntasks := h.ntasks
  task i hi := by
    have hne : i ≠ t := fun heq => hi (heq ▸ hc)
    exact (Function.update_of_ne hne ..).trans (h.task i hi)
  ranOn i := by
    by_cases hi : i = t
    · rw [hi, ← h.ranOn t, ← hran]
      exact congrArg Task.ranOn (Function.update_self ..)
    · exact (congrArg Task.ranOn (Function.update_of_ne hi ..)).trans (h.ranOn i)
  inversions := h.inversions

theorem modCore (h : Alike s c s₁) (f : Core → Core) : Alike s c (s₁.modCore c f) :=
  ⟨h.ntasks, h.task, h.ranOn, h.inversions⟩

theorem advance (h : Alike s c s₁) (had : Bool) : Alike s c (s₁.advance c had) := by
  rw [Scheduler.advance]
  split
  · exact h
  · exact ⟨h.ntasks, h.task, h.ranOn, h.inversions⟩

/-- A decision finds the same slot. -/
theorem pick (h : Alike s c s₁) (hpicks : (s₁.core c).picks = (s.core c).picks)
    (hc : (s.core c).current = some prev) (ho : prev < s.ntasks) :
    s₁.pick c prev = ((s.candidate c).map (·, Class.isFair (s.core c).picks),
      s₁.advance c (s.candidate c).isSome) := by
  have htask : ∀ i, i ≠ prev → s₁.task i = s.task i :=
    fun i hne => h.task i fun heq => hne (Option.some.inj (heq.symm.trans hc))
  have hfound : Class.choose s₁.ntasks prev (s₁.core c).picks (s₁.pickable c) (s₁.sticky c)
      (fun i => (s₁.task i).cls) = s.candidate c := by
    rw [candidate_of_some hc, h.ntasks, hpicks]
    refine Class.choose_congr ho (fun i _ hne => ?_) (fun i _ hne => ?_) fun i _ hne => ?_
    · rw [pickable, pickable, htask i hne]
    · rw [sticky, sticky, htask i hne]
    · rw [htask i hne]
  rw [Scheduler.pick, hfound, hpicks]

/-- A claim steps over the same slots. -/
theorem account (h : Alike s c s₁) (hnext : (s.core c).current ≠ some next) :
    (s₁.account c (s.core c).current next).inversions =
      s.inversions + if s.overtakes c next then 1 else 0 := by
  have hsame : Class.outranked s₁.ntasks (s.task next).cls
      (fun i => some i != (s.core c).current && s₁.pickable c i) (fun i => (s₁.task i).cls) =
      Class.outranked s.ntasks (s.task next).cls
        (fun i => some i != (s.core c).current && s.pickable c i) fun i => (s.task i).cls := by
    rw [h.ntasks]
    refine congrArg (List.any (List.range s.ntasks)) (funext fun i => ?_)
    by_cases hi : some i = (s.core c).current
    · simp [hi]
    · have htask := h.task i fun heq => hi heq.symm
      simp only [pickable, htask]
  have hiff : (s.overtakes c next = true) ↔ (s.task next).cls ≠ .latency ∧
      Class.outranked s.ntasks (s.task next).cls
        (fun i => some i != (s.core c).current && s.pickable c i)
        (fun i => (s.task i).cls) = true := by
    rw [overtakes, Bool.and_eq_true, bne_iff_ne]
  rw [Scheduler.account, h.task next hnext, hsame]
  by_cases hover : s.overtakes c next = true
  · rw [if_pos (hiff.mp hover), if_pos hover, ← h.inversions]
  · rw [if_neg fun h => hover (hiff.mpr h), if_neg hover]
    exact h.inversions

end Alike

/-- Moving a phase on. -/
theorem picks_advance (s : Scheduler) (c : CpuId) :
    ((s.advance c true).core c).picks = ((s.core c).picks + 1) % 2 ^ 64 := by
  simp [advance, modCore]

theorem fairPicks_advance (s : Scheduler) (c : CpuId) : (s.advance c true).fairPicks =
    s.fairPicks + if Class.isFair (s.core c).picks then 1 else 0 := rfl

theorem advance_false (s : Scheduler) (c : CpuId) : s.advance c false = s := rfl

/-- A claim, once the phase has moved on. -/
theorem outcome_take (h : Alike s c s₁) (hfound : s.candidate c = some next)
    {origin : Option TaskId} (horigin : (s.core c).current = origin)
    (hpicks : (s₁.core c).picks = ((s.core c).picks + 1) % 2 ^ 64)
    (hfair : s₁.fairPicks = s.fairPicks + if Class.isFair (s.core c).picks then 1 else 0)
    {g : Core → Core} (hcur : ∀ x, (g x).current = x.current) (hg : ∀ x, (g x).picks = x.picks) :
    Outcome s c ((s₁.take c origin next).modCore c g) := by
  subst horigin
  have hnext := (Offered.of_candidate hfound).2.1
  refine .taken hfound ?_ ?_ ?_ (h.account hnext) (fun t hne => ?_) ?_
  · simp [Scheduler.modCore, take, hcur]
  · simp [Scheduler.modCore, take, hg, Scheduler.modTask, hpicks]
  · refine Eq.trans ?_ hfair
    show (s₁.account c (s.core c).current next).fairPicks = _
    rw [Scheduler.account]
    split <;> rfl
  · rw [← h.ranOn t]
    simp [Scheduler.modCore, take, Scheduler.modTask, hne]
  · rw [← h.ranOn next]
    simp [Scheduler.modCore, take, Scheduler.modTask]

theorem outcome_switchAway (h : Alike s c s₁) (hcore : s₁.core = s.core)
    (hfair : s₁.fairPicks = s.fairPicks) (hc : (s.core c).current = some prev)
    (ho : prev < s.ntasks) : Outcome s c (s₁.switchAway c prev) := by
  have halike : Alike s c (s₁.modCore c fun core => { core with prev := some prev }) := h.modCore _
  have hpicks : ((s₁.modCore c fun core => { core with prev := some prev }).core c).picks =
      (s.core c).picks := by simp [Scheduler.modCore, hcore]
  rw [switchAway]
  simp only [halike.pick hpicks hc ho]
  cases hfound : s.candidate c with
  | none =>
    refine .empty hfound (.inr ?_) ?_ hfair h.inversions h.ranOn
    · simp [Scheduler.modCore]
    · simp [Scheduler.modCore, advance_false, hcore]
  | some next =>
    dsimp only [Option.map_some, Option.isSome_some]
    refine outcome_take (halike.advance true) hfound hc ?_ ?_ (fun _ => rfl) fun _ => rfl
    · rw [picks_advance, hpicks]
    · rw [fairPicks_advance, hpicks]
      exact congrArg (· + _) hfair

theorem outcome_reschedule (hc : (s.core c).current = some prev) (ho : prev < s.ntasks)
    (honour : Bool) : Outcome s c (s.reschedule c honour) := by
  rw [reschedule, hc]
  simp only [(Alike.refl s c).pick rfl hc ho]
  cases hfound : s.candidate c with
  | none => exact .empty hfound (.inl rfl) rfl rfl rfl fun _ => rfl
  | some next =>
    have htask : (s.advance c true).task = s.task := task_advance true
    have hcur : (((s.advance c true).core c).current) = some prev := by
      simpa [advance, Scheduler.modCore] using hc
    simp only [Option.map_some, Option.isSome_some, htask]
    split
    · next hheld =>
      rw [Bool.and_eq_true, Bool.not_eq_true'] at hheld
      exact .declined hfound hc hcur hheld.2 (picks_advance s c) (fairPicks_advance s c) rfl
        fun t => by rw [htask]
    · refine outcome_take (.modTask (.advance (.refl s c) true) hc ?_) hfound hc
        (picks_advance s c) (fairPicks_advance s c) (fun _ => rfl) fun _ => rfl
      rw [Task.runnable]
      split <;> rfl

theorem outcome_runIdle (hc : (s.core c).current = none) : Outcome s c (s.runIdle c) := by
  have hpick : s.pickIdle c = (s.candidate c, s.advance c (s.candidate c).isSome) := by
    rw [pickIdle, candidate_of_none hc]
  rw [runIdle]
  simp only [hpick]
  cases hfound : s.candidate c with
  | none => exact .empty hfound (.inl rfl) rfl rfl rfl fun _ => rfl
  | some next =>
    dsimp only [Option.isSome_some]
    exact outcome_take (.advance (.refl s c) true) hfound hc (picks_advance s c)
      (fairPicks_advance s c) (fun _ => rfl) fun _ => rfl

/-- **What a decision does.** -/
theorem Step.outcome (h : Step s e s') (hd : s.decides e = some c) (hin : s.InTable) :
    Outcome s c s' := by
  cases h with
  | preempt hp | yield ht =>
    obtain ⟨prev, hc, rfl⟩ := Option.map_eq_some_iff.mp hd
    exact outcome_reschedule hc (hin _ _ hc) _
  | idle hp hc =>
    obtain rfl := Option.some.inj hd
    exact outcome_runIdle hc
  | exit ht =>
    obtain rfl := Option.some.inj hd
    have hc := (calling_eq_some ht).2
    exact outcome_switchAway (.modTask (.refl s _) hc rfl) rfl rfl hc (hin _ _ hc)
  | @park c₀ t parked ht hp =>
    have hc := (calling_eq_some ht).2
    rw [decides, hc, Option.bind_some] at hd
    split at hd
    · cases hd
    · next hw =>
      obtain rfl := Option.some.inj hd
      rw [parkAndSwitch, if_neg hw]
      exact outcome_switchAway (.modTask (.refl s _) hc rfl) rfl rfl hc (hin _ _ hc)
  | @pin c₀ t ht =>
    have hc := (running_eq_some ht).2
    rw [decides, hc, Option.bind_some] at hd
    rw [Scheduler.pin]
    cases hpin : (s.task t).pinning with
    | migrate mask =>
      rw [hpin] at hd
      obtain rfl := Option.some.inj hd
      exact outcome_switchAway (.modTask (.modTask (.refl s _) hc rfl) hc rfl) rfl rfl hc
        (hin _ _ hc)
    | no | check mask | record =>
      rw [hpin] at hd
      cases hd
  | exec | switch | settle | setAffinity | setClass | unblock | deliver | wakeExpired | spawn =>
    cases hd

/-! ### What everything else does -/

/-- What only decisions change. -/
structure Undecided (s s' : Scheduler) : Prop where
  ntasks : s.ntasks ≤ s'.ntasks
  current : ∀ c, (s'.core c).current = (s.core c).current
  picks : ∀ c, (s'.core c).picks = (s.core c).picks
  fairPicks : s'.fairPicks = s.fairPicks
  inversions : s'.inversions = s.inversions

namespace Undecided

theorem of_core (hn : s.ntasks ≤ s'.ntasks) (hcore : s'.core = s.core)
    (hf : s'.fairPicks = s.fairPicks) (hi : s'.inversions = s.inversions) : Undecided s s' :=
  ⟨hn, fun _ => by rw [hcore], fun _ => by rw [hcore], hf, hi⟩

theorem refl (s : Scheduler) : Undecided s s := of_core (Nat.le_refl _) rfl rfl rfl

/-- What else is different does not matter. -/
theorem congr (h : Undecided s s₁) (hn : s₁.ntasks ≤ s₂.ntasks) (hcore : s₂.core = s₁.core)
    (hf : s₂.fairPicks = s₁.fairPicks) (hi : s₂.inversions = s₁.inversions) : Undecided s s₂ :=
  ⟨Nat.le_trans h.ntasks hn, fun c => by rw [hcore, h.current], fun c => by rw [hcore, h.picks],
    hf.trans h.fairPicks, hi.trans h.inversions⟩

theorem modTask (h : Undecided s s₁) (f : Task → Task) : Undecided s (s₁.modTask t f) :=
  h.congr (Nat.le_refl _) rfl rfl rfl

theorem modCore (h : Undecided s s₁) {f : Core → Core} (hcur : ∀ x, (f x).current = x.current)
    (hpicks : ∀ x, (f x).picks = x.picks) : Undecided s (s₁.modCore c f) := by
  refine ⟨h.ntasks, fun c' => ?_, fun c' => ?_, h.fairPicks, h.inversions⟩
  · rw [← h.current c']
    by_cases hc : c' = c
    · subst hc
      simp [Scheduler.modCore, hcur]
    · simp [Scheduler.modCore, hc]
  · rw [← h.picks c']
    by_cases hc : c' = c
    · subst hc
      simp [Scheduler.modCore, hpicks]
    · simp [Scheduler.modCore, hc]

end Undecided

theorem undecided_contextSwitch (out into : Option TaskId) :
    Undecided s (s.contextSwitch c out into) := by
  have hcore : ∀ c', ((s.contextSwitch c out into).core c').current = (s.core c').current ∧
      ((s.contextSwitch c out into).core c').picks = (s.core c').picks := by
    intro c'
    by_cases hc : c' = c
    · subst hc
      cases out <;> simp [contextSwitch, Scheduler.modCore, Scheduler.modTask]
    · cases out <;> simp [contextSwitch, Scheduler.modCore, Scheduler.modTask, hc]
  refine ⟨?_, fun c' => (hcore c').1, fun c' => (hcore c').2, ?_, ?_⟩ <;> cases out
  case refine_1.none | refine_1.some => exact Nat.le_refl _
  all_goals rfl

theorem undecided_postSwitch : Undecided s (s.postSwitch c) := by
  rw [postSwitch]
  have hcore : Undecided s (s.modCore c fun core =>
      { core with prev := none, phase := .running }) :=
    .modCore (.refl s) (fun _ => rfl) fun _ => rfl
  cases (s.core c).prev with
  | none => exact hcore
  | some t =>
    dsimp only
    split <;> exact hcore.congr (Nat.le_refl _) rfl rfl rfl

/-- **Only a decision moves a task onto a core, or a phase on.** -/
theorem Step.undecided (h : Step s e s') (hd : s.decides e = none) : Undecided s s' := by
  cases h with
  | @exec c r =>
    have hregs : Undecided s (s.modCore c fun core => { core with regs := r }) :=
      .modCore (.refl s) (fun _ => rfl) fun _ => rfl
    exact hregs.congr (Nat.le_refl _) rfl rfl rfl
  | @preempt c hp =>
    rw [reschedule, Option.map_eq_none_iff.mp hd]
    exact .refl s
  | switch => exact undecided_contextSwitch _ _
  | settle => exact undecided_postSwitch
  | yield ht =>
    rw [decides, (calling_eq_some ht).2] at hd
    cases hd
  | exit | idle => cases hd
  | @park c t parked ht hp =>
    rw [decides, (calling_eq_some ht).2, Option.bind_some] at hd
    split at hd
    · next hw =>
      rw [parkAndSwitch, if_pos hw]
      exact .modTask (.refl s) _
    · cases hd
  | setAffinity =>
    rw [Scheduler.setAffinity]
    split
    · exact .refl s
    · split
      · exact .refl s
      · exact .modTask (.refl s) _
  | @pin c t ht =>
    rw [decides, (running_eq_some ht).2, Option.bind_some] at hd
    rw [Scheduler.pin]
    cases hpin : (s.task t).pinning with
    | no => exact .refl s
    | check mask => exact .modTask (.refl s) _
    | record => exact .modTask (.refl s) _
    | migrate mask =>
      rw [hpin] at hd
      cases hd
  | setClass =>
    rw [Scheduler.setClass]
    split
    · exact .refl s
    · split
      · exact .refl s
      · exact .modTask (.refl s) _
  | unblock | deliver => exact .modTask (.refl s) _
  | wakeExpired => exact .of_core (Nat.le_refl _) rfl rfl rfl
  | spawn => exact .of_core (Nat.le_succ _) rfl rfl rfl

/-! ### What an event puts on a core -/

/-- What decides keeps what the other cores run. -/
theorem Outcome.current (h : Outcome s c s') :
    (s'.core c).current = (s.core c).current ∨ (s'.core c).current = none ∨
      ∃ next, s.candidate c = some next ∧ (s'.core c).current = some next := by
  cases h with
  | empty _ hcur => exact hcur.imp_right .inl
  | declined _ hc hc' => exact .inl (hc'.trans hc.symm)
  | taken hfound hcur => exact .inr (.inr ⟨_, hfound, hcur⟩)

theorem Step.ntasks_le (h : Step s e s') : s.ntasks ≤ s'.ntasks := by
  cases hd : s.decides e with
  | none => exact (h.undecided hd).ntasks
  | some c => exact Nat.le_of_eq (h.decided hd).ntasks.symm

/-- **A task is put on a core by a decision of the core that found it.** -/
theorem Puts.decides (hin : s.InTable) (h : s.Puts e c t) :
    s.decides e = some c ∧ s.candidate c = some t := by
  obtain ⟨hne, s', hn, ht⟩ := h
  have hs := Step.of_next hn
  cases hd : s.decides e with
  | none => exact absurd ((hs.undecided hd).current c ▸ ht) hne
  | some c₀ =>
    by_cases hc : c = c₀
    · subst hc
      obtain hcur | hcur | ⟨next, hfound, hcur⟩ := (hs.outcome hd hin).current
      · exact absurd (hcur ▸ ht) hne
      · rw [hcur] at ht
        cases ht
      · rw [hcur] at ht
        exact ⟨rfl, Option.some.inj ht ▸ hfound⟩
    · rw [(hs.decided hd).core c hc] at ht
      exact absurd ht hne

theorem Puts.offered (hin : s.InTable) (h : s.Puts e c t) : s.Offered c t :=
  .of_candidate (h.decides hin).2

theorem Step.inTable (h : Step s e s') (hin : s.InTable) : s'.InTable := by
  intro c t ht
  refine Nat.lt_of_lt_of_le ?_ h.ntasks_le
  by_cases hcur : (s.core c).current = some t
  · exact hin c t hcur
  · cases hd : s.decides e with
    | none => exact absurd ((h.undecided hd).current c ▸ ht) hcur
    | some c₀ =>
      by_cases hc : c = c₀
      · subst hc
        obtain hsame | hnone | ⟨next, hfound, hnext⟩ := (h.outcome hd hin).current
        · exact absurd (hsame ▸ ht) hcur
        · rw [hnone] at ht
          cases ht
        · rw [hnext] at ht
          exact Option.some.inj ht ▸ (Offered.of_candidate hfound).1
      · rw [(h.decided hd).core c hc] at ht
        exact absurd ht hcur

theorem inTable_of_reachable (h : scheduling.Reachable s) : s.InTable :=
  scheduling_invariant (I := InTable) nofun (fun _ _ _ hin hs => hs.inTable hin) h

end Scheduler

end StarOS
