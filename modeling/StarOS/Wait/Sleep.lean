import StarOS.Wait.Wake

/-!
# Sleeping

`sleep_until` parks against a deadline and returns success when it is back. It does not look at
the clock again, so it returns early whenever anything but the clock brings it back: a wake-up
recorded for an earlier wait, which the park consumes, or an `unblock` on its way since then.

## Main results

* `sleep_cut_short` — a run in which that happens
* `sleeps_full_of_undisturbed` — without it, every sleep lasts until its deadline
-/

namespace StarOS

namespace Kernel

variable {k k' : Kernel} {e : Event} {t : TaskId}

/-- Every sleep that returned success did so at or after its deadline. -/
def SleepsFull (k : Kernel) : Prop := ∀ t d now, .slept t d now ∈ k.log → d ≤ now

/-- The clock has reached `d`. -/
def reached (k : Kernel) (d : ℕ) : Bool := k.clock.any (d ≤ ·)

theorem reached_iff {d : ℕ} : k.reached d = true ↔ ∃ now, k.clock = some now ∧ d ≤ now := by
  unfold reached
  cases k.clock <;> simp

/-- What the event does disturbs no sleep: a sleep begins with a wake-up recorded only where its
deadline has passed, an `unblock` reaches a task in a sleep only once its deadline has, and so
does a delivery that finds the task still on its way to park. -/
def sleepUndisturbed (k : Kernel) (e : Event) : Bool :=
  (match e with
    | .call t (.sleepUntil d) => !(k.task t).wakePending || k.clock.all (d ≤ ·)
    | _ => true) &&
  match k.firstJob e with
  | some (.unblock t) =>
    match (k.pc t).reason with
    | some (.slept d) => k.reached d
    | _ => true
  | some (.deliver t _) =>
    match k.pc t with
    | .park _ (.slept d) => k.reached d
    | _ => true
  | _ => true

/-- A sleep is over once the clock has reached its deadline. -/
def SleepOver (k : Kernel) (r : Resume) : Prop := ∀ d, r = .slept d → k.reached d = true

/-- Time does not go back. -/
theorem Step.reached (hs : Step k e k') {d : ℕ} (h : k.reached d = true) :
    k'.reached d = true := by
  obtain ⟨now, hc, hd⟩ := reached_iff.mp h
  rw [reached_iff]
  cases hs with
  | tick hn hle =>
    rw [hc] at hn
    obtain rfl := Option.some.inj hn
    exact ⟨_, rfl, hd.trans hle⟩
  | @irqJob _ job | @taskJob _ job => cases job <;> exact ⟨now, hc, hd⟩
  | _ => exact ⟨now, hc, hd⟩

/-- Where a sleep that returned success is recorded. -/
theorem Step.slept (hs : Step k e k') {d now : ℕ} (h : .slept t d now ∈ k'.log) :
    .slept t d now ∈ k.log ∨ k.clock = some now ∧ d ≤ now ∨
      k.pc t = .resume (.slept d) ∧ (k.task t).state = .running ∧ now = k.clockNow := by
  refine (hs.recorded h).imp id fun hnew => ?_
  cases hnew with
  | late hc hd => exact .inl ⟨hc, hd⟩
  | slept hrun hpc => exact .inr ⟨hpc, hrun, rfl⟩

end Kernel

open Kernel

theorem sleepRule : WakeRule (fun k e => k.sleepUndisturbed e = true) (∃ d, · = .slept d)
    fun k _ r => k.SleepOver r where
  untimed r := by
    rintro ⟨d, rfl⟩
    rfl
  entry k e k' t s r _ hK hok hs hnone hpc hw := by
    obtain ⟨d, rfl⟩ := hK
    rintro d' ⟨⟩
    cases hs.entered hnone hpc with
    | sleep he hc hlt =>
      subst he
      simp only [sleepUndisturbed, hw, hc, Bool.and_eq_true] at hok
      exact absurd hok.1 (by simpa using hlt)
  unblock k e k' a t rest r _ hK hok hs he hj hre _ := by
    obtain ⟨d, rfl⟩ := hK
    rintro d' ⟨⟩
    subst he
    simp only [sleepUndisturbed, firstJob_event hj, hre, Bool.and_eq_true] at hok
    exact hs.reached hok.2
  deliver k e k' a t p rest r hr hK hok hs he hj hre hb _ := by
    obtain ⟨d, rfl⟩ := hK
    rintro d' ⟨⟩
    subst he
    obtain ⟨s, hpc⟩ | hb := hb
    · simp only [sleepUndisturbed, firstJob_event hj, hpc, Bool.and_eq_true] at hok
      exact hs.reached hok.2
    · -- a sleeper is not `Blocked`
      obtain ⟨r, hpc, hfit⟩ := (shape_of_reach hr).of_parked (t := t) (by rw [hb]; rfl)
      rw [hpc] at hre
      obtain rfl := Option.some.inj hre
      rw [hb] at hfit
      cases hfit
  expire k k' t u now r _ hK hs hc _ hle hfit := by
    obtain ⟨d, rfl⟩ := hK
    rintro d' ⟨⟩
    obtain rfl := State.sleeping.inj hfit
    exact hs.reached (reached_iff.mpr ⟨now, hc, hle⟩)
  stable k e k' t r _ hK hs _ _ ho := fun d hd => hs.reached (ho d hd)

/-- **Undisturbed sleeps last.** In every run no event of which disturbs a sleep, every sleep that
returns success does so at or after its deadline. -/
theorem sleeps_full_of_undisturbed {k : Kernel}
    (h : waiting.Reach (fun k e => k.sleepUndisturbed e = true) k) : k.SleepsFull := by
  refine waiting_invariant_of (J := fun k => ∀ t r, (∃ d, r = .slept d) → k.Freed t r →
    k.SleepOver r) (fun k hk => sleepRule.over_of_freed hk) (fun _ t d now hm => by cases hm) ?_ h
  intro k e k' hJ hI _ hs t d now hm
  obtain hm | ⟨-, hle⟩ | ⟨hpc, hrun, rfl⟩ := hs.slept hm
  · exact hI t d now hm
  · exact hle
  · obtain ⟨now, hc, hle⟩ := reached_iff.mp
      (hJ t _ ⟨d, rfl⟩ (.inr ⟨hpc, by rw [hrun]; rfl⟩) d rfl)
    rw [clockNow, hc]
    exact hle

/-- A sleep nothing disturbs, from boot to its return. -/
theorem sleeps_full_of_undisturbed_run : ∃ k,
    waiting.runIf sleepUndisturbed (.boot (some 0))
      [.spawn, .dispatch 0, .call 0 (.sleepUntil 10), .step 0, .tick 12, .wakeExpired, .dispatch 0,
        .step 0] = some k ∧ .slept 0 10 12 ∈ k.log ∧ k.SleepsFull := by
  obtain ⟨k, hrun, hlog⟩ : ∃ k, waiting.runIf sleepUndisturbed (.boot (some 0))
      [.spawn, .dispatch 0, .call 0 (.sleepUntil 10), .step 0, .tick 12, .wakeExpired, .dispatch 0,
        .step 0] = some k ∧ .slept 0 10 12 ∈ k.log := ⟨_, rfl, by decide⟩
  exact ⟨k, hrun, hlog, sleeps_full_of_undisturbed
    (.of_runIf (fun _ _ _ h => h) (.init ⟨_, rfl⟩) hrun)⟩

/-- **A sleep can be cut short.** A task waits for either of two notifications; both are signalled
at once, on two cores, and each signal takes the task to wake. The first wakes it, and its wait
returns. The second finds it running and is recorded, and the task's next sleep, until time 100,
returns success at time 0. -/
theorem sleep_cut_short : ¬ ∀ k, waiting.Reachable k → k.SleepsFull := by
  obtain ⟨k, hr, hm⟩ : ∃ k, waiting.Reachable k ∧ .slept 0 100 0 ∈ k.log :=
    ⟨_, .of_run [.spawn, .create, .create, .dispatch 0, .call 0 (.waitAny [0, 1] none), .step 0,
      .step 0, .step 0, .irq 0 0, .irq 1 1, .irqJob 0, .irqJob 1, .irqJob 0, .dispatch 0, .step 0,
      .irqJob 1, .call 0 (.sleepUntil 100), .step 0, .step 0] ⟨some 0, rfl⟩ rfl, by decide⟩
  exact fun h => absurd (h k hr 0 100 0 hm) (by decide)

end StarOS
