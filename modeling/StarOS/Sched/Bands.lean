import StarOS.Sched.Decision

/-!
# What a class is owed

One decision in eight puts a lower class first, the two lower ones in turn, and a timer that finds
something less urgent than what runs may leave things as they are on the other seven. So in sixteen
decisions there is one for each class that nothing keeps it from.

## Main results

* `Scheduler.band_served` — no class is kept waiting for longer than that
* `Scheduler.inversions_le_fairPicks` — a more urgent task is only ever stepped over for fairness
-/

namespace StarOS

namespace Scheduler

variable {s s' : Scheduler} {e : SchedEvent} {c : CpuId} {t next : TaskId}
  {tr : List (Scheduler × SchedEvent)}

/-- A step in which core `c` decides and finds something. -/
def counted (c : CpuId) (x : Scheduler × SchedEvent) : Bool :=
  x.1.decides x.2 == some c && (x.1.candidate c).isSome

theorem counted_iff : counted c (s, e) = true ↔
    s.decides e = some c ∧ ∃ next, s.candidate c = some next := by
  rw [counted, Bool.and_eq_true, beq_iff_eq, Option.isSome_iff_exists]

/-! ### The phase -/

/-- The phase of a core moves on with each decision that counts. -/
theorem Step.picks_counted (h : Step s e s') (hin : s.InTable) (hx : counted c (s, e) = true) :
    (s'.core c).picks = ((s.core c).picks + 1) % 2 ^ 64 := by
  obtain ⟨hd, next, hfound⟩ := counted_iff.mp hx
  cases h.outcome hd hin with
  | empty hnone => rw [hnone] at hfound; cases hfound
  | declined _ _ _ _ hpicks => exact hpicks
  | taken _ _ hpicks => exact hpicks

/-- And with nothing else. -/
theorem Step.picks_not_counted (h : Step s e s') (hin : s.InTable)
    (hx : counted c (s, e) = false) : (s'.core c).picks = (s.core c).picks := by
  cases hd : s.decides e with
  | none => exact (h.undecided hd).picks c
  | some c₀ =>
    by_cases hc : c = c₀
    · subst hc
      have hnot : ∀ next, s.candidate c ≠ some next := by
        intro next hfound
        rw [counted_iff.mpr ⟨hd, next, hfound⟩] at hx
        cases hx
      cases h.outcome hd hin with
      | empty _ _ hpicks => exact hpicks
      | declined hfound => exact absurd hfound (hnot _)
      | taken hfound => exact absurd hfound (hnot _)
    · rw [(h.decided hd).core c hc]

/-! ### Sixteen decisions -/

/-- How many decisions there are to the one that is due to a class. -/
def wait (b : Class) (picks : ℕ) : ℕ := (Class.due b + 16 - picks % 16) % 16

theorem wait_lt (b : Class) (picks : ℕ) : wait b picks < 16 := Nat.mod_lt _ (by decide)

theorem wait_succ {b : Class} {picks : ℕ} (h : picks % 16 ≠ Class.due b) :
    wait b ((picks + 1) % 2 ^ 64) < wait b picks := by
  have hdue := Class.due_lt b
  -- the wrap of the counter is at a multiple of sixteen
  have hwrap : (picks + 1) % 2 ^ 64 % 16 = (picks + 1) % 16 :=
    Nat.mod_mod_of_dvd _ ⟨2 ^ 60, by decide⟩
  rw [wait, wait, hwrap]
  omega

/-- A decision that is due to a class serves it if it can. -/
theorem Step.due (h : Step s e s') (hin : s.InTable) (hd : s.decides e = some c) {b : Class}
    (hdue : (s.core c).picks % 16 = Class.due b) (ht : s.Offered c t)
    (hcls : (s.task t).cls = b) :
    ∃ i, s.candidate c = some i ∧ (s.task i).cls = b ∧ (s'.core c).current = some i := by
  obtain ⟨i, hfound, hi⟩ := candidate_head hin (Class.bands_due hdue) ht hcls
  refine ⟨i, hfound, hi, ?_⟩
  cases h.outcome hd hin with
  | empty hnone => rw [hnone] at hfound; cases hfound
  | @declined prev next hfound' _ _ hheld =>
    obtain rfl : next = i := Option.some.inj (hfound'.symm.trans hfound)
    rw [hi, Class.shouldSwitch_due hdue] at hheld
    cases hheld
  | taken hfound' hcur => rw [hcur, ← hfound', hfound]

/-- **No class waits for longer than sixteen decisions**, from any value of the phase and whatever
happens in between: of sixteen that count, at each of which something of the class was on offer,
one puts something of it on the core. -/
theorem band_served (hin : s.InTable) (h : scheduling.Path s tr s') (c : CpuId) (b : Class)
    (hlen : 16 ≤ tr.countP (counted c))
    (hoffer : ∀ x ∈ tr, counted c x = true → ∃ t, x.1.Offered c t ∧ (x.1.task t).cls = b) :
    ∃ x ∈ tr, ∃ t, x.1.Puts x.2 c t ∧ (x.1.task t).cls = b := by
  refine EventSystem.Path.progress (I := InTable) (μ := fun s => wait b (s.core c).picks)
    (fun s e s' hin hn => (Step.of_next hn).inTable hin) ?_ ?_ h hin (.of_forall hoffer)
    (Nat.lt_of_lt_of_le (wait_lt b _) hlen)
  · intro s e s' hin hn hx
    rw [(Step.of_next hn).picks_not_counted hin hx]
  · rintro s e s' hin hn hx ⟨t, ht, hcls⟩
    have hs := Step.of_next hn
    by_cases hdue : (s.core c).picks % 16 = Class.due b
    · obtain ⟨i, hfound, hi, hcur⟩ := hs.due hin (counted_iff.mp hx).1 hdue ht hcls
      exact .inl ⟨i, ⟨(Offered.of_candidate hfound).2.1, s', hn, hcur⟩, hi⟩
    · refine .inr ?_
      rw [hs.picks_counted hin hx]
      exact wait_succ hdue

/-- Two tasks of the `normal` class take turns on one core. -/
def takingTurns : List SchedEvent :=
  [.spawn 0, .spawn 0, .idle 0, .switch 0, .settle 0] ++
    (List.replicate 16 [.preempt 0, .switch 0, .settle 0]).flatten

theorem band_served_normal : ∃ x ∈ scheduling.stepsFrom .new takingTurns,
    ∃ t, x.1.Puts x.2 0 t ∧ (x.1.task t).cls = .normal := by
  obtain ⟨s', hrun⟩ : ∃ s', scheduling.run .new takingTurns = some s' :=
    Option.isSome_iff_exists.mp (by decide +kernel)
  have hoffer : (scheduling.stepsFrom .new takingTurns).all (fun x => !counted 0 x ||
      [0, 1].any fun t => decide (x.1.Offered 0 t ∧ (x.1.task t).cls = .normal)) = true := by
    decide +kernel
  refine band_served (inTable_of_reachable (.init rfl)) (.of_run hrun) 0 .normal
    (by decide +kernel) ?_
  intro x hx hcounted
  have := List.all_eq_true.mp hoffer x hx
  rw [hcounted, Bool.not_true, Bool.false_or, List.any_eq_true] at this
  obtain ⟨t, -, ht⟩ := this
  exact ⟨t, of_decide_eq_true ht⟩

/-! ### Inversions -/

/-- Event `e` puts a task on core `c` past a more urgent one the core may take. -/
def Oversteps (s : Scheduler) (e : SchedEvent) (c : CpuId) : Prop :=
  ∃ next, s.Puts e c next ∧
    ∃ t, s.Offered c t ∧ (s.task t).cls.asRaw < (s.task next).cls.asRaw

theorem Step.oversteps_iff (h : Step s e s') (hn : s.next e = some s') (hin : s.InTable) :
    s.Oversteps e c ↔ s.decides e = some c ∧ ∃ next, s.candidate c = some next ∧
      (s'.core c).current = some next ∧ s.overtakes c next = true := by
  constructor
  · rintro ⟨next, hput, hover⟩
    obtain ⟨hd, hfound⟩ := hput.decides hin
    obtain ⟨-, s₁, hn', hcur⟩ := hput
    obtain rfl : s₁ = s' := Option.some.inj (hn'.symm.trans hn)
    exact ⟨hd, next, hfound, hcur, overtakes_iff.mpr hover⟩
  · rintro ⟨-, next, hfound, hcur, hover⟩
    exact ⟨next, ⟨(Offered.of_candidate hfound).2.1, s', hn, hcur⟩, overtakes_iff.mp hover⟩

/-- **What a step does to the two counters.** -/
theorem Step.counters (h : Step s e s') (hn : s.next e = some s') (hin : s.InTable) :
    s.fairPicks ≤ s'.fairPicks ∧
      ((∃ c, s.Oversteps e c) ∧ s'.inversions = s.inversions + 1 ∧
          s'.fairPicks = s.fairPicks + 1 ∨
        (∀ c, ¬ s.Oversteps e c) ∧ s'.inversions = s.inversions) := by
  have hnone : ∀ c, s.decides e ≠ some c → ¬ s.Oversteps e c :=
    fun c hd hover => hd ((h.oversteps_iff hn hin).mp hover).1
  cases hd : s.decides e with
  | none =>
    refine ⟨Nat.le_of_eq (h.undecided hd).fairPicks.symm, .inr ⟨fun c => hnone c ?_, ?_⟩⟩
    · simp [hd]
    · exact (h.undecided hd).inversions
  | some c =>
    have honly : ¬ s.Oversteps e c → ∀ c', ¬ s.Oversteps e c' := by
      intro hnot c' hover
      have hd' := ((h.oversteps_iff hn hin).mp hover).1
      exact hnot (Option.some.inj (hd.symm.trans hd') ▸ hover)
    cases h.outcome hd hin with
    | empty hempty _ _ hfair hinv =>
      refine ⟨Nat.le_of_eq hfair.symm, .inr ⟨honly fun hover => ?_, hinv⟩⟩
      obtain ⟨-, next, hfound, -⟩ := (h.oversteps_iff hn hin).mp hover
      rw [hempty] at hfound
      cases hfound
    | @declined prev next hfound hc hc' _ _ hfair hinv =>
      refine ⟨by rw [hfair]; exact Nat.le_add_right _ _, .inr ⟨honly fun hover => ?_, hinv⟩⟩
      obtain ⟨-, next', hfound', hcur, -⟩ := (h.oversteps_iff hn hin).mp hover
      exact (Offered.of_candidate hfound').2.1 (hc.trans (hc'.symm.trans hcur))
    | @taken next hfound hcur _ hfair hinv =>
      refine ⟨by rw [hfair]; exact Nat.le_add_right _ _, ?_⟩
      by_cases hover : s.overtakes c next = true
      · obtain ⟨t, ht, hlt⟩ := overtakes_iff.mp hover
        rw [if_pos (isFair_of_candidate hin hfound ht hlt).1] at hfair
        rw [if_pos hover] at hinv
        exact .inl ⟨⟨c, (h.oversteps_iff hn hin).mpr ⟨hd, next, hfound, hcur, hover⟩⟩, hinv, hfair⟩
      · rw [if_neg hover] at hinv
        refine .inr ⟨honly fun hover' => hover ?_, hinv⟩
        obtain ⟨-, next', hfound', -, hover'⟩ := (h.oversteps_iff hn hin).mp hover'
        exact Option.some.inj (hfound'.symm.trans hfound) ▸ hover'

/-- **Inversions are for fairness.** There are never more of them counted than decisions for
fairness. What is counted is the claims that step over a more urgent task, and each of those is
made by a decision that put a lower class first. The numbers are of the events themselves: the
`u64`s that the code counts them in agree with them below `2 ^ 64` decisions for fairness. -/
theorem inversions_le_fairPicks (h : scheduling.Reachable s) :
    s.inversions ≤ s.fairPicks ∧
      (∀ e c, s.Oversteps e c → Class.isFair (s.core c).picks = true ∧
        (Class.bands (s.core c).picks).head? ≠ some .latency) ∧
      ∀ e s', s.next e = some s' →
        (∃ c, s.Oversteps e c) ∧ s'.inversions = s.inversions + 1 ∨
          (∀ c, ¬ s.Oversteps e c) ∧ s'.inversions = s.inversions := by
  have hin := inTable_of_reachable h
  refine ⟨?_, ?_, ?_⟩
  · refine h.invariant_of (I := fun s => s.inversions ≤ s.fairPicks)
      (J := scheduling.Reachable) (fun _ h => h) ?_ ?_
    · rintro _ rfl
      exact Nat.le_refl _
    · intro s e s' hr hle _ hn
      obtain ⟨hmore, ⟨-, hinv, hfair⟩ | ⟨-, hinv⟩⟩ :=
        (Step.of_next hn).counters hn (inTable_of_reachable hr)
      · rw [hinv, hfair]
        exact Nat.succ_le_succ hle
      · exact hinv ▸ Nat.le_trans hle hmore
  · rintro e c ⟨next, hput, t, ht, hlt⟩
    exact isFair_of_candidate hin (hput.decides hin).2 ht hlt
  · intro e s' hn
    obtain ⟨-, ⟨hover, hinv, -⟩ | hnot⟩ := (Step.of_next hn).counters hn hin
    · exact .inl ⟨hover, hinv⟩
    · exact .inr hnot

/-- The eighth decision of a core with two tasks of the `latency` class and one that is not. -/
theorem inversions_le_fairPicks_reversed : ∃ s, scheduling.Reachable s ∧ s.inversions = 1 ∧
    s.inversions ≤ s.fairPicks := by
  obtain ⟨s, hs, hinv⟩ := EventSystem.Reachable.exists_of_run (M := scheduling) (s := .new)
    ([.spawn 0, .spawn 0, .spawn 0, .idle 0, .switch 0, .settle 0, .setClass 0 1, .yield 0,
      .switch 0, .settle 0, .setClass 0 1] ++
      (List.replicate 6 [.preempt 0, .switch 0, .settle 0]).flatten)
    (p := fun s => s.inversions == 1) rfl (by decide +kernel)
  exact ⟨s, hs, by simpa using hinv, (inversions_le_fairPicks hs).1⟩

end Scheduler

end StarOS
