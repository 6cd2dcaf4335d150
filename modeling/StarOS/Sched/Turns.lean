import StarOS.Sched.Decision

/-!
# Turns within a class

Within a class a core scans the slots round-robin, but it prefers those it ran last. A task at home
on the core has its turn: each decision that takes another of its class brings it nearer, and no
more than seven in a row are declined. A task whose home is elsewhere is passed over for as long as
one that is at home waits with it, which two such tasks that take turns see to between them.

## Main definitions

* `Scheduler.Waits` — a task the core may take, and takes others of the class of
* `Scheduler.Unhindered` — nothing is preferred to it

## Main results

* `Scheduler.turn_comes` — a task to which nothing is preferred has its turn, within a number of
  decisions bounded by the length of the table
* `Scheduler.no_bound_on_turns` — no such bound holds of every task
-/

namespace StarOS

namespace Scheduler

variable {s s' : Scheduler} {e : SchedEvent} {c : CpuId} {t next prev : TaskId}
  {tr : List (Scheduler × SchedEvent)} {N : ℕ}

/-- Core `c` may take task `t`, and finds a task of its class. -/
def Waits (s : Scheduler) (c : CpuId) (t : TaskId) : Prop :=
  s.Offered c t ∧ ∃ next, s.candidate c = some next ∧ (s.task next).cls = (s.task t).cls

instance : Decidable (s.Waits c t) :=
  decidable_of_iff (s.Offered c t ∧
    (s.candidate c).any (fun next => (s.task next).cls == (s.task t).cls) = true) <| by
      simp [Waits, Option.any_eq_true]

/-- Task `t` is at home on core `c`, or nothing else of its class on offer is. -/
def Unhindered (s : Scheduler) (c : CpuId) (t : TaskId) : Prop :=
  s.sticky c t = true ∨
    ∀ i, s.Offered c i → i ≠ t → (s.task i).cls = (s.task t).cls → s.sticky c i = false

instance : Decidable (s.Unhindered c t) :=
  decidable_of_iff (s.sticky c t = true ∨ ∀ i < s.ntasks, s.Offered c i → i ≠ t →
    (s.task i).cls = (s.task t).cls → s.sticky c i = false) <|
      or_congr_right ⟨fun h i hi => h i hi.1 hi, fun h i _ hi => h i hi⟩

/-- How far off the turn of task `t` on core `c` is, in a table that does not outgrow `N`. -/
def turnOn (N : ℕ) (s : Scheduler) (c : CpuId) (t : TaskId) : ℕ :=
  match (s.core c).current with
  | some prev => Rotation.turn N prev t
  | none => N

/-- How many decisions that is at most: seven of eight may be declined. -/
def turnsLeft (N : ℕ) (s : Scheduler) (c : CpuId) (t : TaskId) : ℕ :=
  8 * turnOn N s c t + (7 - (s.core c).picks % 8)

/-! ### One decision -/

/-- **What is found comes no later in turn**, if nothing is preferred to the task that waits. -/
theorem turnOn_lt (hin : s.InTable) (hN : s.ntasks ≤ N) (hfound : s.candidate c = some next)
    (ht : s.Offered c t) (hcls : (s.task next).cls = (s.task t).cls) (hun : s.Unhindered c t)
    (hne : next ≠ t) : Rotation.turn N next t < turnOn N s c t := by
  obtain ⟨hlt, hcur, hp⟩ := ht
  have hnext := (Offered.of_candidate hfound).1
  cases hc : (s.core c).current with
  | none =>
    have hhome : s.sticky c t = true ∨ ∀ k < s.ntasks,
        (s.pickable c k && (s.task k).cls == (s.task next).cls) = true → s.sticky c k = false := by
      by_cases hst : s.sticky c t = true
      · exact .inl hst
      · refine .inr fun k hk hpk => ?_
        rw [Bool.and_eq_true, beq_iff_eq] at hpk
        by_cases hkt : k = t
        · simpa [hkt] using hst
        · exact (hun.resolve_left hst) k ⟨hk, by simp [hc], hpk.1⟩ hkt (hpk.2.trans hcls)
    rw [candidate_of_none hc] at hfound
    have hle : next ≤ t := Affinity.chooseFirst_nearest (Class.chooseFirst_band hfound).1 hlt
      (by rw [hp, hcls, Bool.true_and, beq_iff_eq]) hhome
    rw [turnOn, hc, Rotation.turn_of_lt (Nat.lt_of_le_of_ne hle hne)]
    exact Nat.lt_of_le_of_lt (Nat.sub_le t next) (Nat.lt_of_lt_of_le hlt hN)
  | some prev =>
    have htp : t ≠ prev := fun h => hcur (h ▸ hc)
    have hprev := hin c prev hc
    have hhome : s.sticky c t = true ∨ ∀ k < s.ntasks, k ≠ prev →
        (s.pickable c k && (s.task k).cls == (s.task next).cls) = true → s.sticky c k = false := by
      by_cases hst : s.sticky c t = true
      · exact .inl hst
      · refine .inr fun k hk hkp hpk => ?_
        rw [Bool.and_eq_true, beq_iff_eq] at hpk
        by_cases hkt : k = t
        · simpa [hkt] using hst
        · have hkc : (s.core c).current ≠ some k := fun h => hkp (Option.some.inj (h ▸ hc))
          exact (hun.resolve_left hst) k ⟨hk, hkc, hpk.1⟩ hkt (hpk.2.trans hcls)
    rw [candidate_of_some hc] at hfound
    have hnear := Affinity.choose_nearest hprev (Class.choose_band hprev hfound).1 hlt htp
      (by rw [hp, hcls, Bool.true_and, beq_iff_eq]) hhome
    rw [turnOn, hc]
    exact Rotation.turn_lt hprev hN hnext hlt hne hnear

/-- Seven decisions in a row may be declined, no more. -/
theorem not_fair_of_held {running candidate : Class} {picks : ℕ}
    (h : Class.shouldSwitch running candidate (Class.isFair picks) = false) : picks % 8 ≠ 7 := by
  rw [Class.shouldSwitch, Bool.or_eq_false_iff] at h
  intro h7
  rw [Class.isFair_iff.mpr h7] at h
  cases h.1

/-- **A decision takes the task that waits, or brings its turn nearer.** -/
theorem Step.turnsLeft_lt (h : Step s e s') (hn : s.next e = some s') (hin : s.InTable)
    (hN : s.ntasks ≤ N) (hd : s.decides e = some c) (hw : s.Waits c t)
    (hun : s.Unhindered c t) : s.Puts e c t ∨ turnsLeft N s' c t < turnsLeft N s c t := by
  obtain ⟨ht, found, hfound, hcls⟩ := hw
  have hwrap : ((s.core c).picks + 1) % 2 ^ 64 % 8 = ((s.core c).picks + 1) % 8 :=
    Nat.mod_mod_of_dvd _ ⟨2 ^ 61, by decide⟩
  cases h.outcome hd hin with
  | empty hempty =>
    rw [hempty] at hfound
    cases hfound
  | declined _ hc hc' hheld hpicks =>
    have hnot := not_fair_of_held hheld
    refine .inr ?_
    rw [turnsLeft, turnsLeft, turnOn, turnOn, hc, hc', hpicks, hwrap]
    omega
  | @taken next hfound' hcur hpicks =>
    obtain rfl : next = found := Option.some.inj (hfound'.symm.trans hfound)
    by_cases hne : next = t
    · exact .inl ⟨ht.2.1, s', hn, hne ▸ hcur⟩
    · have hlt := turnOn_lt hin hN hfound ht hcls hun hne
      refine .inr ?_
      rw [turnsLeft, turnsLeft, show turnOn N s' c t = Rotation.turn N next t by
        rw [turnOn, hcur]]
      omega

/-- Nothing else the core or any other does puts it off. -/
theorem Step.turnsLeft_eq (h : Step s e s') (hd : s.decides e ≠ some c) :
    turnsLeft N s' c t = turnsLeft N s c t := by
  have hsame : (s'.core c).current = (s.core c).current ∧
      (s'.core c).picks = (s.core c).picks := by
    cases hd' : s.decides e with
    | none => exact ⟨(h.undecided hd').current c, (h.undecided hd').picks c⟩
    | some c₀ =>
      have hne : c ≠ c₀ := fun heq => hd (heq ▸ hd')
      rw [(h.decided hd').core c hne]
      exact ⟨rfl, rfl⟩
  rw [turnsLeft, turnsLeft, turnOn, turnOn, hsame.1, hsame.2]

theorem turnsLeft_lt_bound (hin : s.InTable) (hN : s.ntasks ≤ N) (ht : t < N) :
    turnsLeft N s c t < 8 * N + 8 := by
  have hturn : turnOn N s c t ≤ N := by
    cases hc : (s.core c).current with
    | none => rw [turnOn, hc]
    | some prev =>
      rw [turnOn, hc]
      exact Rotation.turn_le_size (Nat.lt_of_lt_of_le (hin c prev hc) hN) ht
  rw [turnsLeft]
  omega

/-! ### A whole run -/

/-- The table only grows. -/
theorem ntasks_le_of_path (h : scheduling.Path s tr s') : s.ntasks ≤ s'.ntasks :=
  h.invariant (I := fun q => s.ntasks ≤ q.ntasks)
    (fun _ _ _ hle hn => Nat.le_trans hle (Step.of_next hn).ntasks_le) (Nat.le_refl _)

/-- **A task to which nothing is preferred has its turn**: on a path with eight decisions of a core
for each slot of the table and eight more, it is taken, if until it is the core may take it at each
of these decisions, finds a task of its class, and prefers none of those to it. -/
theorem turn_comes (hr : scheduling.Reachable s) (h : scheduling.Path s tr s') (c : CpuId)
    (t : TaskId) (hlen : 8 * s'.ntasks + 8 ≤ tr.countP fun x => x.1.decides x.2 == some c)
    (hwaits : EventSystem.Meanwhile (fun x => x.1.Puts x.2 c t)
      (fun x => x.1.decides x.2 = some c → x.1.Waits c t) tr)
    (hun : EventSystem.Meanwhile (fun x => x.1.Puts x.2 c t)
      (fun x => x.1.decides x.2 = some c → x.1.Unhindered c t) tr) :
    ∃ x ∈ tr, x.1.Puts x.2 c t := by
  have hin := inTable_of_reachable hr
  have htable : ∀ x ∈ tr, x.1.ntasks ≤ s'.ntasks := by
    intro x hx
    obtain ⟨_, _, -, -, hafter⟩ := h.of_mem hx
    exact ntasks_le_of_path hafter
  by_contra hnot
  have hmet : ∀ x ∈ tr, (x.1.decides x.2 == some c) = true →
      x.1.ntasks ≤ s'.ntasks ∧ x.1.Waits c t ∧ x.1.Unhindered c t := by
    intro x hx hd
    rw [beq_iff_eq] at hd
    obtain ⟨before, after, rfl⟩ := List.append_of_mem hx
    have hbefore : ∀ y ∈ before, ¬ y.1.Puts y.2 c t :=
      fun y hy hput => hnot ⟨y, List.mem_append_left _ hy, hput⟩
    exact ⟨htable x hx, hwaits before x after rfl hbefore hd, hun before x after rfl hbefore hd⟩
  have ht : t < s'.ntasks := by
    obtain ⟨x, hx, hd⟩ := List.countP_pos_iff.mp (Nat.lt_of_lt_of_le (by omega) hlen)
    exact Nat.lt_of_lt_of_le (hmet x hx hd).2.1.1.1 (htable x hx)
  refine hnot (EventSystem.Path.progress (I := InTable) (μ := fun s => turnsLeft s'.ntasks s c t)
    (fun s e s' hin hn => (Step.of_next hn).inTable hin) ?_ ?_ h hin (.of_forall hmet)
    (Nat.lt_of_lt_of_le (turnsLeft_lt_bound hin (ntasks_le_of_path h) ht) hlen))
  · intro s e s₁ _ hn hd
    exact Nat.le_of_eq ((Step.of_next hn).turnsLeft_eq (by simpa using hd))
  · rintro s e s₁ hin hn hd ⟨hN, hw, hun⟩
    exact (Step.of_next hn).turnsLeft_lt hn hin hN (by simpa using hd) hw hun

/-- Two tasks, and decisions of one core enough for the second to have its turn. -/
def waitingTurn : List SchedEvent :=
  [.spawn 0, .spawn 0, .idle 0, .switch 0, .settle 0] ++
    (List.replicate 23 [.preempt 0, .switch 0, .settle 0]).flatten

theorem turn_comes_second :
    ∃ x ∈ scheduling.stepsFrom .new waitingTurn, x.1.Puts x.2 0 1 := by
  obtain ⟨s', hrun, hn⟩ : ∃ s', scheduling.run .new waitingTurn = some s' ∧ s'.ntasks = 2 := by
    have : (scheduling.run .new waitingTurn).any (fun s' => s'.ntasks == 2) = true := by
      decide +kernel
    simpa [Option.any_eq_true] using this
  refine turn_comes (.init rfl) (.of_run hrun) 0 1 ?_ (by decide +kernel) (by decide +kernel)
  rw [hn]
  decide +kernel

/-! ### A task that has no turn -/

/-- A switch that is not declined, up to the context switch. -/
theorem reschedule_eq (hc : (s.core c).current = some prev) (ho : prev < s.ntasks)
    (hfound : s.candidate c = some next) {honour : Bool}
    (hswitch : Class.shouldSwitch (s.task prev).cls (s.task next).cls
      (Class.isFair (s.core c).picks) = true) :
    s.reschedule c honour =
      (((s.advance c true).modTask prev Task.runnable).take c (some prev) next).modCore c
        fun core => { core with prev := some prev, phase := .switching (some prev) (some next) } := by
  have hpick := (Alike.refl s c).pick rfl hc ho
  rw [hfound] at hpick
  rw [reschedule, hc]
  simp only [hpick, Option.map_some, Option.isSome_some, task_advance, hswitch, Bool.not_true,
    Bool.and_false, Bool.false_eq_true, if_false]

/-- Of three tasks of one class, core 0 runs `a` and may take the others. Task `b` is at home there,
task 2 is not. -/
@[mk_iff]
structure PassedOver (s : Scheduler) (a b : ℕ) : Prop where
  pair : a = 0 ∧ b = 1 ∨ a = 1 ∧ b = 0
  ntasks : s.ntasks = 3
  phase : (s.core 0).phase = .running
  current : (s.core 0).current = some a
  cls : (s.task 0).cls = .normal ∧ (s.task 1).cls = .normal ∧ (s.task 2).cls = .normal
  allows : Affinity.allows (s.task 0).affinity 0 = true ∧
    Affinity.allows (s.task 1).affinity 0 = true ∧ Affinity.allows (s.task 2).affinity 0 = true
  running : (s.task a).state = .running
  ready : (s.task b).state = .ready ∧ (s.task 2).state = .ready
  off : (s.task b).onCpu = false ∧ (s.task 2).onCpu = false
  home : (s.task a).lastCpu = some 0 ∧ (s.task b).lastCpu = some 0
  away : (s.task 2).lastCpu = some 1

namespace PassedOver

variable {a b : ℕ}

instance : Decidable (s.PassedOver a b) := decidable_of_iff' _ (passedOver_iff s a b)

theorem normal (h : s.PassedOver a b) {i : TaskId} (hi : i < 3) : (s.task i).cls = .normal := by
  obtain ⟨h0, h1, h2⟩ := h.cls
  match i, hi with
  | 0, _ => exact h0
  | 1, _ => exact h1
  | 2, _ => exact h2

theorem offered (h : s.PassedOver a b) : s.Offered 0 b ∧ s.Offered 0 2 := by
  obtain ⟨h0, h1, h2⟩ := h.allows
  obtain ⟨rfl, rfl⟩ | ⟨rfl, rfl⟩ := h.pair <;>
    simp [Offered, pickable, h.ntasks, h.current, h.ready.1, h.ready.2, h.off.1, h.off.2, h0, h1,
      h2]

/-- The core finds the one at home. -/
theorem candidate (h : s.PassedOver a b) : s.candidate 0 = some b := by
  obtain ⟨hb, ht⟩ := h.offered
  have hpair := h.pair
  have ha : a < s.ntasks := by rw [h.ntasks]; omega
  have hba : b ≠ a := by omega
  have hb3 : b < 3 := by omega
  cases hfound : s.candidate 0 with
  | none =>
    rw [candidate_of_some h.current, Class.choose_eq_none ha] at hfound
    have := hfound b hb.1 hba
    rw [hb.2.2] at this
    cases this
  | some i =>
    have hi := Offered.of_candidate hfound
    have hlt : i < 3 := h.ntasks ▸ hi.1
    have hia : i ≠ a := fun heq => hi.2.1 (heq ▸ h.current)
    rw [candidate_of_some h.current] at hfound
    have hsame : ((s.task b).cls == (s.task i).cls) = true := by
      rw [h.normal hb3, h.normal hlt]
      rfl
    have hsticky : s.sticky 0 b = true := by
      rw [sticky, Affinity.homedHere, h.home.2]
      rfl
    have hhome : s.sticky 0 i = true :=
      Affinity.choose_home ha (Class.choose_band ha hfound).1 hb.1 hba
        (by rw [hb.2.2, hsame, Bool.and_self]) hsticky
    have hi2 : i ≠ 2 := by
      rintro rfl
      rw [sticky, Affinity.homedHere, h.away] at hhome
      exact absurd hhome (by decide)
    have hib : ∀ j : ℕ, j < 3 → j ≠ a → j ≠ 2 → j = b := by omega
    rw [hib i hlt hia hi2]

/-- One turn goes by. -/
theorem turn (h : s.PassedOver a b) : ∃ s₁ s₂ s₃, s.next (.preempt 0) = some s₁ ∧
    s₁.next (.switch 0) = some s₂ ∧ s₂.next (.settle 0) = some s₃ ∧ s₃.PassedOver b a := by
  have hpair := h.pair
  have ha : a < s.ntasks := by rw [h.ntasks]; omega
  have hab : a < 3 ∧ b < 3 := by omega
  have hswitch : Class.shouldSwitch (s.task a).cls (s.task b).cls
      (Class.isFair (s.core 0).picks) = true := by
    rw [h.normal hab.1, h.normal hab.2, Class.shouldSwitch, Bool.or_eq_true]
    exact .inr (by decide)
  have hs₁ : s.reschedule 0 true = _ := reschedule_eq h.current ha h.candidate hswitch
  have hcore : ((s.reschedule 0 true).core 0).phase = .switching (some a) (some b) := by
    rw [hs₁]
    simp [modCore]
  have hphase₂ : (((s.reschedule 0 true).contextSwitch 0 (some a) (some b)).core 0).phase =
      .arrived := by
    simp [contextSwitch, modCore]
  have hn₂ : (s.reschedule 0 true).next (.switch 0) =
      some ((s.reschedule 0 true).contextSwitch 0 (some a) (some b)) := by
    simp only [next, hcore]
  have hn₃ : ((s.reschedule 0 true).contextSwitch 0 (some a) (some b)).next (.settle 0) =
      some (((s.reschedule 0 true).contextSwitch 0 (some a) (some b)).postSwitch 0) := by
    simp only [next, hphase₂, if_true]
  refine ⟨_, _, _, if_pos h.phase, hn₂, hn₃, ?_⟩
  rw [hs₁]
  obtain ⟨h0, h1, h2⟩ := h.cls
  obtain ⟨h0', h1', h2'⟩ := h.allows
  obtain ⟨rfl, rfl⟩ | ⟨rfl, rfl⟩ := hpair <;> constructor
  case inl.pair | inr.pair => simp
  all_goals
    simp [postSwitch, contextSwitch, take, modTask, modCore, Task.runnable, h.ntasks, h.running,
      h.ready, h.off, h.home, h.away, h0, h1, h2, h0', h1', h2']

/-- **Turns go by, as many as one likes**, and none is that of task 2. -/
theorem turns (hr : scheduling.Reachable s) (h : s.PassedOver a b) (n : ℕ) :
    ∃ tr s', scheduling.Path s tr s' ∧ s'.ntasks = 3 ∧
      (tr.countP fun x => x.1.decides x.2 == some 0) = n ∧
      (∀ x ∈ tr, x.1.decides x.2 = some 0 → x.1.Waits 0 2) ∧ ∀ x ∈ tr, ¬ x.1.Puts x.2 0 2 := by
  induction n generalizing s a b with
  | zero => exact ⟨[], s, .nil, h.ntasks, rfl, nofun, nofun⟩
  | succ n ih =>
    obtain ⟨s₁, s₂, s₃, hn₁, hn₂, hn₃, h'⟩ := h.turn
    have hturn : scheduling.Path s [(s, .preempt 0), (s₁, .switch 0), (s₂, .settle 0)] s₃ :=
      .cons hn₁ (.cons hn₂ (.cons hn₃ .nil))
    obtain ⟨tr, s', hpath, hntasks, hcount, hwaits, hnot⟩ := ih (hr.path hturn) h'
    have hd : s.decides (.preempt 0) = some 0 := by rw [decides, h.current]; rfl
    have hb3 : b < 3 := by have := h.pair; omega
    -- a core that switches or settles decides nothing
    have honly : ∀ x ∈ [(s, SchedEvent.preempt 0), (s₁, .switch 0), (s₂, .settle 0)],
        x.1.decides x.2 = some 0 → x = (s, .preempt 0) := by
      intro x hx hdx
      obtain rfl | rfl | rfl : x = (s, .preempt 0) ∨ x = (s₁, .switch 0) ∨ x = (s₂, .settle 0) :=
        by simpa using hx
      · rfl
      · cases hdx
      · cases hdx
    refine ⟨_ ++ tr, s', hturn.append hpath, hntasks, ?_, ?_, ?_⟩
    · rw [List.countP_append, hcount, Nat.add_comm]
      refine congrArg (n + ·) ?_
      simp only [List.countP_cons, List.countP_nil, hd]
      rfl
    · intro x hx hdx
      rcases List.mem_append.mp hx with hx | hx
      · rw [honly x hx hdx]
        refine ⟨h.offered.2, b, h.candidate, ?_⟩
        rw [h.cls.2.2]
        exact h.normal hb3
      · exact hwaits x hx hdx
    · intro x hx hput
      rcases List.mem_append.mp hx with hx | hx
      · obtain ⟨_, _, -, hbefore, -⟩ := hturn.of_mem hx
        obtain ⟨hdx, hfound⟩ := hput.decides (inTable_of_reachable (hr.path hbefore))
        rw [honly x hx hdx] at hfound
        have hb2 : b = 2 := Option.some.inj (h.candidate.symm.trans hfound)
        have := h.pair
        omega
      · exact hnot x hx hput

end PassedOver

/-- Tasks 0 and 1 pin themselves to core 0; task 2, which runs on core 1, does too. -/
def pinnedToOneCore : List SchedEvent :=
  [.spawn 0, .spawn 0, .spawn 0,
    .idle 0, .switch 0, .settle 0, .setAffinity 0 1 3, .pin 0, .pin 0,
    .yield 0, .switch 0, .settle 0, .setAffinity 0 1 3, .pin 0, .pin 0,
    .idle 1, .switch 1, .settle 1, .setAffinity 1 1 3, .pin 1, .pin 1, .switch 1, .settle 1]

/-- **No bound on turns**: two tasks at home on a core keep one that is not from it for any number
of decisions, at each of which the core may take it and finds a task of its class. -/
theorem no_bound_on_turns : ¬ ∃ bound : ℕ → ℕ, ∀ (s s' : Scheduler)
    (tr : List (Scheduler × SchedEvent)) (c : CpuId) (t : TaskId), scheduling.Reachable s →
    scheduling.Path s tr s' → bound s'.ntasks ≤ (tr.countP fun x => x.1.decides x.2 == some c) →
    EventSystem.Meanwhile (fun x => x.1.Puts x.2 c t)
      (fun x => x.1.decides x.2 = some c → x.1.Waits c t) tr →
    ∃ x ∈ tr, x.1.Puts x.2 c t := by
  rintro ⟨bound, hbound⟩
  obtain ⟨s, hr, h⟩ : ∃ s, scheduling.Reachable s ∧ s.PassedOver 1 0 := by
    obtain ⟨s, hr, hp⟩ := EventSystem.Reachable.exists_of_run (M := scheduling) (s := .new)
      pinnedToOneCore (p := fun s => decide ((s.PassedOver 1 0))) rfl (by decide +kernel)
    exact ⟨s, hr, of_decide_eq_true hp⟩
  obtain ⟨tr, s', hpath, hn, hcount, hwaits, hnot⟩ := h.turns hr (bound 3)
  obtain ⟨x, hx, hput⟩ := hbound s s' tr 0 2 hr hpath (by rw [hn, hcount]) (.of_forall hwaits)
  exact hnot x hx hput

end Scheduler

end StarOS
