import StarOS.Wait.Wake

/-!
# Receives

A receive that finds nothing queues itself and parks. A send that chooses it leaves the message in
its mailbox and wakes it. `Recv` takes it on trust that it was woken by a send; `RecvUntil` looks.

## Main results

* `recv_panics` — a run in which `Recv` is woken without a message
* `recvs_sound_of_undisturbed` — without stray wake-ups it is not
* `delivery_sleeps` — a run in which a delivery leaves its receiver parked
* `deliveries_wake_of_timely` — a delivery to a receiver that waits, and not against a deadline,
  does not
-/

namespace StarOS

namespace Kernel

variable {k k' : Kernel} {e : Event} {t : TaskId} {r : Resume}

/-! ### `Recv` is woken with a message -/

/-- No task was woken in `Recv` without a message, or is about to be. -/
def RecvsSound (k : Kernel) : Prop :=
  ∀ t ep, k.pc t ≠ .panicked ep ∧ (k.Freed t (.message ep) → (k.task t).mailbox ≠ none)

/-- What the event does disturbs no `Recv`: one queues itself only where no wake-up is recorded,
and an `unblock` reaches a task in one only once its message is there. -/
def recvUndisturbed (k : Kernel) (e : Event) : Bool :=
  (match e with
    | .step t =>
      match k.pc t with
      | .recv ep none =>
        let e := k.endpoint ep
        !(e.msgs.isEmpty && decide (e.receivers.length < maxWaiters)) || !(k.task t).wakePending
      | _ => true
    | _ => true) &&
  match k.firstJob e with
  | some (.unblock t) =>
    match (k.pc t).reason with
    | some (.message _) => (k.task t).mailbox.isSome
    | _ => true
  | _ => true

/-- A message stays in its mailbox for as long as the task waits. -/
theorem Step.mailbox (hs : Step k e k') (hr : (k'.pc t).reason = some r)
    (h : (k.task t).mailbox ≠ none) : (k'.task t).mailbox ≠ none := by
  cases hs.task t with
  | frame _ ht | goes _ _ _ ht | sendBlock _ _ _ _ _ ht | recvBlock _ _ _ _ _ ht
  | recvBlockUntil _ _ _ ht | register _ _ _ ht | sleep _ _ _ _ _ _ ht | past _ _ _ ht
  | prepare _ _ _ _ ht => rwa [ht]
  | dispatch _ _ ht | preempt _ _ _ ht | exit _ _ _ ht => rw [ht]; exact h
  | park _ _ _ _ ht => rwa [ht, Parking.mailbox_park]
  | expire _ _ _ ht => rwa [ht, Parking.mailbox_wakeExpired]
  | unblock _ _ _ ht => rwa [ht, Parking.mailbox_unblock]
  | deliver _ _ _ ht => simp [ht]
  | take _ _ _ _ hpc | spawn _ hpc => simp [hpc, Pc.reason] at hr

/-- A task panics when it is back in `Recv` without a message. -/
theorem Step.panicked (hs : Step k e k') {ep : ℕ} (h : k'.pc t = .panicked ep) :
    k.pc t = .panicked ep ∨ k.pc t = .resume (.message ep) ∧ (k.task t).state = .running ∧
      (k.task t).mailbox = none := by
  cases hs with
  | tick | wakeExpired | irq | allocate | create | bindNotify | bindFail | dispatch | preempt
  | callFail | sleepPast | notifyOnExit => exact .inl h
  | irqJob => exact .inl (by simpa using h)
  | spawn | callSend | callRecv | callWait | callSleep | callSignal | callExit | sendDeliver
  | sendBuffered | sendBlock | sendFail | recvGot | recvWakeSender | recvBlock | recvBlockUntil
  | recvFail | waitTaken | waitPast | waitRegister | waitCheckPast | waitCheckAgain
  | blockUntilPast | blockUntilPark | park | resumeSent | resumeMessage | resumeTimeout
  | resumeTaken | resumeSlept | cancel | taskJob | ret | retSent | exit =>
    exact .inl (of_update h (by simp))
  | resumeAgain _ _ _ hq =>
    refine .inl (of_update h ?_)
    obtain ⟨-, rfl⟩ | ⟨d, -, rfl⟩ := hq <;> simp
  | @resumePanic t₀ ep₀ hrun hpc hm =>
    rcases eq_or_ne t t₀ with rfl | ht
    · obtain rfl := Pc.panicked.inj ((Function.update_self ..).symm.trans h)
      exact .inr ⟨hpc, hrun, hm⟩
    · exact .inl ((Function.update_of_ne ht ..).symm.trans h)

end Kernel

open Kernel

theorem recvRule : WakeRule (fun k e => k.recvUndisturbed e = true) (∃ ep, · = .message ep)
    fun k t _ => (k.task t).mailbox ≠ none where
  untimed r := by
    rintro ⟨ep, rfl⟩
    rfl
  entry k e k' t s r _ hK hok hs hnone hpc hw := by
    obtain ⟨ep, rfl⟩ := hK
    cases hs.entered hnone hpc with
    | @recv _ ep' he hfrom hd =>
      cases Endpoint.decideRecv_case hd with
      | block hm _ _ hrec =>
        have hroom : (k.endpoint ep).receivers.length < maxWaiters := by
          have := ep'.length_receivers_le
          rw [hrec, List.length_append, List.length_singleton] at this
          omega
        subst he
        simp [recvUndisturbed, hfrom, hw, hm, hroom] at hok
  unblock k e k' a t rest r _ hK hok hs he hj hre hre' := by
    obtain ⟨ep, rfl⟩ := hK
    subst he
    simp only [recvUndisturbed, firstJob_event hj, hre, Bool.and_eq_true] at hok
    exact hs.mailbox hre' (Option.isSome_iff_ne_none.mp hok.2)
  deliver k e k' a t p rest r _ _ _ _ _ _ _ _ hm := by simp [hm]
  expire k k' t u now r _ hK _ _ _ _ hfit := by
    obtain ⟨ep, rfl⟩ := hK
    cases hfit
  stable k e k' t r _ _ hs _ hre' ho := hs.mailbox hre' ho

/-- **Undisturbed receives are sound.** In every run no event of which disturbs a `Recv`, no task
is ever woken in one without a message, and a wake-up recorded where one is about to park was
recorded by the delivery of its message. -/
theorem recvs_sound_of_undisturbed {k : Kernel}
    (h : waiting.Reach (fun k e => k.recvUndisturbed e = true) k) : k.RecvsSound := by
  have hpan : ∀ t ep, k.pc t ≠ .panicked ep := by
    refine waiting_invariant_of (J := fun k => ∀ t ep, k.Freed t (.message ep) →
      (k.task t).mailbox ≠ none) (I := fun k => ∀ t ep, k.pc t ≠ .panicked ep)
      (fun k hk t ep => recvRule.over_of_freed hk t _ ⟨ep, rfl⟩) (fun _ t ep hp => by cases hp) ?_ h
    intro k e k' hJ hI _ hs t ep hp
    obtain hp | ⟨hpc, hrun, hm⟩ := hs.panicked hp
    · exact hI t ep hp
    · exact hJ t ep (.inr ⟨hpc, by rw [hrun]; rfl⟩) hm
  exact fun t ep => ⟨hpan t ep, recvRule.over_of_freed h t _ ⟨ep, rfl⟩⟩

/-- A `Recv` that parks and is sent a message, from boot to its return. -/
theorem recvs_sound_of_undisturbed_run : ∃ k,
    waiting.runIf recvUndisturbed (.boot none)
      [.spawn, .spawn, .allocate, .dispatch 0, .dispatch 1, .call 0 (.recv 0), .step 0, .step 0,
        .call 1 (.send 0 .empty), .step 1, .step 1, .dispatch 0, .step 0] = some k ∧
      .received 0 0 ⟨0, 0, .empty⟩ ∈ k.log ∧ k.RecvsSound := by
  obtain ⟨k, hrun, hlog⟩ : ∃ k, waiting.runIf recvUndisturbed (.boot none)
      [.spawn, .spawn, .allocate, .dispatch 0, .dispatch 1, .call 0 (.recv 0), .step 0, .step 0,
        .call 1 (.send 0 .empty), .step 1, .step 1, .dispatch 0, .step 0] = some k ∧
      .received 0 0 ⟨0, 0, .empty⟩ ∈ k.log := ⟨_, rfl, by decide⟩
  exact ⟨k, hrun, hlog, recvs_sound_of_undisturbed
    (.of_runIf (fun _ _ _ h => h) (.init ⟨_, rfl⟩) hrun)⟩

/-- **`Recv` can be woken without a message.** A task waits for either of two notifications; both
are signalled at once, on two cores, and the second signal's wake-up is recorded after the wait
has returned. The task's next `Recv` consumes it, does not park, and finds its mailbox empty. -/
theorem recv_panics : ¬ ∀ k, waiting.Reachable k → k.RecvsSound := by
  obtain ⟨k, hr, hp⟩ : ∃ k, waiting.Reachable k ∧ k.pc 0 = .panicked 0 :=
    ⟨_, .of_run [.spawn, .allocate, .create, .create, .dispatch 0, .call 0 (.waitAny [0, 1] none),
      .step 0, .step 0, .step 0, .irq 0 0, .irq 1 1, .irqJob 0, .irqJob 1, .irqJob 0, .dispatch 0,
      .step 0, .irqJob 1, .call 0 (.recv 0), .step 0, .step 0, .step 0] ⟨none, rfl⟩ rfl, by decide⟩
  exact fun h => (h k hr 0 0).1 hp

/-! ### A delivery wakes its receiver -/

namespace Kernel

/-- No parked task has a message in its mailbox and no wake-up in flight. -/
def DeliveriesWake (k : Kernel) : Prop :=
  ∀ t, (k.task t).mailbox ≠ none → (k.task t).state.parked = true →
    ∃ a, .unblock t ∈ k.jobsOf a

/-- A delivery reaches its receiver in a receive, and not `Sleeping`. -/
def deliversInTime (k : Kernel) (e : Event) : Bool :=
  match k.firstJob e with
  | some (.deliver t _) =>
    (k.pc t).receives &&
      match (k.task t).state with
      | .sleeping _ => false
      | _ => true
  | _ => true

/-- A task with a message in its mailbox is in the receive it was sent to, and awake, and has the
wake-up recorded until it has come past its park. -/
structure Awake (k : Kernel) (t : TaskId) : Prop where
  receives : (k.pc t).receives = true
  awake : (k.task t).state.parked = false
  recorded : (∀ r, k.pc t ≠ .resume r) → (k.task t).wakePending = true

theorem Awake.step (hsh : k.Shape) (hok : k.deliversInTime e = true)
    (h : (k.task t).mailbox ≠ none → k.Awake t) (hs : Step k e k')
    (hm : (k'.task t).mailbox ≠ none) : k'.Awake t := by
  -- a task that is not in a receive has nothing in its mailbox
  have hnone : (k.pc t).receives = false → (k.task t).mailbox = none := by
    intro hr
    by_contra hm
    have := (h hm).receives
    simp [hr] at this
  cases hs.task t with
  | frame hpc ht =>
    rw [ht] at hm
    obtain ⟨h₁, h₂, h₃⟩ := h hm
    exact ⟨by rwa [hpc], by rwa [ht], by rwa [hpc, ht]⟩
  | goes _ _ _ ht hrec =>
    rw [ht] at hm
    exact absurd (hrec (h hm).receives) hm
  | sendBlock _ _ hfrom _ _ ht | recvBlock _ _ hfrom _ _ ht | recvBlockUntil _ hfrom _ ht
  | register _ hfrom _ ht | sleep _ _ hfrom _ _ _ ht =>
    rw [ht] at hm
    exact absurd (hnone (by rw [hfrom]; rfl)) hm
  | past _ hfrom hpc ht =>
    rw [ht] at hm
    obtain ⟨h₁, h₂, -⟩ := h hm
    exact ⟨by rw [hpc]; rwa [hfrom] at h₁, by rwa [ht], fun hne => absurd hpc (hne _)⟩
  | prepare _ hfrom _ hpc ht =>
    rw [ht] at hm
    obtain ⟨h₁, h₂, h₃⟩ := h hm
    refine ⟨by rw [hpc]; rwa [hfrom] at h₁, by rwa [ht], fun _ => ?_⟩
    rw [ht]
    exact h₃ (by simp [hfrom])
  | park _ _ hfrom hpc ht =>
    rw [ht, Parking.mailbox_park] at hm
    obtain ⟨h₁, h₂, h₃⟩ := h hm
    refine ⟨by rw [hpc]; rwa [hfrom] at h₁, ?_, fun hne => absurd hpc (hne _)⟩
    -- the delivery recorded its wake-up, so it does not park
    rw [ht, Parking.park, if_pos (h₃ (by simp [hfrom]))]
    exact h₂
  | take _ _ _ _ _ ht => exact absurd (by rw [ht]; rfl) hm
  | exit _ hfrom _ ht =>
    rw [ht] at hm
    exact absurd (hnone (by rw [hfrom]; rfl)) hm
  | spawn _ _ ht => exact absurd (by rw [ht]; rfl) hm
  | dispatch _ hpc ht =>
    rw [ht] at hm
    obtain ⟨h₁, -, h₃⟩ := h hm
    exact ⟨by rwa [hpc], by rw [ht]; rfl, by rwa [hpc, ht]⟩
  | preempt _ huser _ ht =>
    rw [ht] at hm
    exact absurd (hnone (by rw [huser]; rfl)) hm
  | expire _ _ hpc ht =>
    rw [ht, Parking.mailbox_wakeExpired] at hm
    obtain ⟨h₁, h₂, h₃⟩ := h hm
    rw [Parking.not_parked_wakeExpired h₂] at ht
    exact ⟨by rwa [hpc], by rwa [ht], by rwa [hpc, ht]⟩
  | unblock _ _ hk ht =>
    rw [ht, Parking.mailbox_unblock] at hm
    obtain ⟨h₁, h₂, -⟩ := h hm
    exact ⟨by rwa [hk.eq_of_receives h₁], by rw [ht, Parking.parked_unblock],
      fun _ => by rw [ht, Parking.wakePending_unblock h₂]⟩
  | deliver he hj hk ht =>
    subst he
    rw [deliversInTime, firstJob_event hj, Bool.and_eq_true] at hok
    obtain ⟨hrec, hnot⟩ := hok
    refine ⟨by rwa [hk.eq_of_receives hrec], ?_, fun hne => ?_⟩
    · rw [ht, Parking.parked_deliver]
      cases hst : (k.task t).state <;> simp_all [State.parked]
    · -- before its park a task is not parked, so the delivery is recorded
      rw [hk.eq_of_receives hrec] at hne
      rw [ht]
      refine Parking.wakePending_deliver (fun hb => ?_) _
      have := hsh.not_parked hne
      simp [hb, State.parked] at this

end Kernel

/-- **Timely deliveries wake.** In every run in which each delivery reaches its receiver in a
receive, and not parked against a deadline, a task with a message in its mailbox is awake: it is
not parked, and where it has yet to come to its park the wake-up is recorded, so it will not. -/
theorem deliveries_wake_of_timely {k : Kernel}
    (h : waiting.Reach (fun k e => k.deliversInTime e = true) k) :
    k.DeliveriesWake ∧ ∀ t, (k.task t).mailbox ≠ none → (k.task t).state.parked = false ∧
      ∀ s r, k.pc t = .park s r → (k.task t).wakePending = true := by
  have key : ∀ t, (k.task t).mailbox ≠ none → k.Awake t := by
    refine waiting_invariant_of (J := Shape) (I := fun k => ∀ t, (k.task t).mailbox ≠ none →
      k.Awake t) (fun _ hk => shape_of_reach hk) (fun _ t hm => absurd rfl hm) ?_ h
    exact fun k e k' hsh hI hok hs t hm => Awake.step hsh hok (hI t) hs hm
  refine ⟨fun t hm hp => ?_, fun t hm => ⟨(key t hm).awake, fun s r hpc => ?_⟩⟩
  · simp [(key t hm).awake] at hp
  · exact (key t hm).recorded (by simp [hpc])

/-- A delivery that races its receiver to the park: the receiver does not park. -/
theorem deliveries_wake_of_timely_run : ∃ k,
    waiting.runIf deliversInTime (.boot (some 0))
      [.spawn, .spawn, .allocate, .dispatch 0, .dispatch 1, .call 0 (.recvUntil 0 10), .step 0,
        .step 0, .call 1 (.send 0 .empty), .step 1, .step 1] = some k ∧
      (k.task 0).mailbox = some ⟨0, 0, .empty⟩ ∧ (k.task 0).wakePending = true := by
  obtain ⟨k, hrun, hm, hpc⟩ : ∃ k, waiting.runIf deliversInTime (.boot (some 0))
      [.spawn, .spawn, .allocate, .dispatch 0, .dispatch 1, .call 0 (.recvUntil 0 10), .step 0,
        .step 0, .call 1 (.send 0 .empty), .step 1, .step 1] = some k ∧
      (k.task 0).mailbox = some ⟨0, 0, .empty⟩ ∧ k.pc 0 = .park (.sleeping 10) (.timed 0) :=
    ⟨_, rfl, by decide, by decide⟩
  have := deliveries_wake_of_timely (.of_runIf (fun _ _ _ h => h) (.init ⟨_, rfl⟩) hrun)
  exact ⟨k, hrun, hm, (this.2 0 (by simp [hm])).2 _ _ hpc⟩

/-- **A delivery can leave its receiver parked.** A task parks in `RecvUntil` with a deadline, and
a message is delivered to it: it has the message, it sleeps on, and nothing is on its way to wake
it. -/
theorem delivery_sleeps : ¬ ∀ k, waiting.Reachable k → k.DeliveriesWake := by
  obtain ⟨k, hr, hm, hp, hn, h₀, h₁, hirq⟩ : ∃ k, waiting.Reachable k ∧
      (k.task 0).mailbox ≠ none ∧ (k.task 0).state.parked = true ∧ k.ntasks = 2 ∧
      (k.pc 0).todo = [] ∧ (k.pc 1).todo = [] ∧ k.irq = fun _ => [] :=
    ⟨_, .of_run [.spawn, .spawn, .allocate, .dispatch 0, .dispatch 1, .call 0 (.recvUntil 0 10),
      .step 0, .step 0, .step 0, .call 1 (.send 0 .empty), .step 1, .step 1, .step 1]
      ⟨some 0, rfl⟩ rfl, by decide, by decide, rfl, by decide, by decide, rfl⟩
  intro h
  obtain ⟨a, ha⟩ := h k hr 0 hm hp
  -- nobody has anything left to do
  cases a with
  | core c => simp [jobsOf, hirq] at ha
  | task t =>
    rcases t with - | - | t
    · simp [jobsOf, h₀] at ha
    · simp [jobsOf, h₁] at ha
    · have := (shape_of_reach hr).unborn (t + 2) (by omega)
      simp [jobsOf, this, Pc.todo] at ha

end StarOS
