import StarOS.Wait.Step

/-!
# What one event can do to one task

A task is at some `Pc` and has some `Parking`; this file is the list of everything an event of the
machine can do to that pair. Most of what is proved about waiting is about one task at a time, and
is proved by cases on `TaskStep`.

## Main definitions

* `Pc.reason` — what a task on its way to park, or parked, or just back, is waiting for
* `Kernel.TaskStep`
* `Kernel.Shape` — how a task's place in the kernel and its state fit together

## Main results

* `Kernel.Step.task` — the list is complete
* `Kernel.shape_of_reach`
-/

namespace StarOS

variable {k k' : Kernel} {e : Event} {t : TaskId}

/-- What a task on its way to park, or parked, or just back, is waiting for. -/
def Pc.reason : Pc → Option Resume
  | .blockUntil _ r | .park _ r | .resume r => some r
  | _ => none

/-- In a receive, from queueing to taking the message. -/
def Pc.receives (pc : Pc) : Bool :=
  match pc.reason with
  | some (.message _) | some (.timed _) => true
  | _ => false

namespace Kernel

/-- The place of `t` is the same, or it has jobs to do and goes on with them. -/
def PcKept (k k' : Kernel) (t : TaskId) : Prop :=
  k'.pc t = k.pc t ∨ (∃ todo f, k.pc t = .jobs todo f) ∧ ∃ todo f, k'.pc t = .jobs todo f

/-- The ways an event can treat task `t`. -/
inductive TaskStep (k : Kernel) (e : Event) (k' : Kernel) (t : TaskId) : Prop
  | frame : k'.pc t = k.pc t → k'.task t = k.task t → TaskStep k e k' t
  /-- It goes on with its call, or starts or ends one, with nothing to wait for. -/
  | goes : (k.task t).state = .running → k.pc t ≠ .exited → (k'.pc t).reason = none →
      k'.task t = k.task t → ((k.pc t).receives = true → (k.task t).mailbox = none) →
      TaskStep k e k' t
  /-- It blocks in a send. -/
  | sendBlock {ep : ℕ} {km : KMessage} {mayBlock : Bool} {ep' : Endpoint Parcel} : e = .step t →
      (k.task t).state = .running → k.pc t = .send ep km mayBlock →
      (k.endpoint ep).decideSend t ⟨k.sends, ep, km⟩ mayBlock = (.block, ep') →
      k'.pc t = .park .blocked (.sent ⟨k.sends, ep, km⟩) → k'.task t = k.task t →
      k'.sends = k.sends + 1 → TaskStep k e k' t
  /-- It blocks in a receive. -/
  | recvBlock {ep : ℕ} {ep' : Endpoint Parcel} : e = .step t →
      (k.task t).state = .running → k.pc t = .recv ep none →
      (k.endpoint ep).decideRecv t = (.block, ep') →
      k'.pc t = .park .blocked (.message ep) → k'.task t = k.task t → TaskStep k e k' t
  /-- It queues in a receive with a deadline. -/
  | recvBlockUntil {ep d : ℕ} : (k.task t).state = .running → k.pc t = .recv ep (some d) →
      k'.pc t = .blockUntil (some d) (.timed ep) → k'.task t = k.task t → TaskStep k e k' t
  /-- It registers with the notifications it waits for. -/
  | register {ids : List ℕ} {deadline : Option ℕ} : (k.task t).state = .running →
      k.pc t = .wait ids deadline → k'.pc t = .blockUntil deadline (.waited ids deadline) →
      k'.task t = k.task t → k.notify.consumeReady ids = none →
      k'.notify = k.notify.register t ids → TaskStep k e k' t
  /-- It starts a sleep. -/
  | sleep {d now : ℕ} : e = .call t (.sleepUntil d) → (k.task t).state = .running →
      k.pc t = .user → k.clock = some now → now < d →
      k'.pc t = .park (.sleeping d) (.slept d) → k'.task t = k.task t → TaskStep k e k' t
  /-- Its deadline has passed before it parks. -/
  | past {d : ℕ} {r : Resume} : (k.task t).state = .running → k.pc t = .blockUntil (some d) r →
      k'.pc t = .resume r → k'.task t = k.task t → TaskStep k e k' t
  /-- It is about to park in state `s`. -/
  | prepare {deadline : Option ℕ} {s : State} {r : Resume} : (k.task t).state = .running →
      k.pc t = .blockUntil deadline r →
      deadline = none ∧ s = .blocked ∨ (∃ d, deadline = some d ∧ s = .sleeping d) →
      k'.pc t = .park s r → k'.task t = k.task t → TaskStep k e k' t
  /-- It parks, or declines to. -/
  | park {s : State} {r : Resume} : e = .step t → (k.task t).state = .running →
      k.pc t = .park s r → k'.pc t = .resume r → k'.task t = (k.task t).park s → TaskStep k e k' t
  /-- It takes the message left for it. -/
  | take {ep : ℕ} {r : Resume} {p : Parcel} : (k.task t).state = .running → k.pc t = .resume r →
      r = .message ep ∨ r = .timed ep → (k.task t).mailbox = some p → k'.pc t = .user →
      k'.task t = (k.task t).takeMailbox → TaskStep k e k' t
  | exit : (k.task t).state = .running → k.pc t = .jobs [] .exit → k'.pc t = .exited →
      k'.task t = { k.task t with state := .dead } → TaskStep k e k' t
  | spawn : t < k'.ntasks → k'.pc t = .user → k'.task t = .fresh → TaskStep k e k' t
  | dispatch : (k.task t).state = .ready → k'.pc t = k.pc t →
      k'.task t = { k.task t with state := .running } → TaskStep k e k' t
  | preempt : (k.task t).state = .running → k.pc t = .user → k'.pc t = k.pc t →
      k'.task t = { k.task t with state := .ready } → TaskStep k e k' t
  /-- The clock is compared with its deadline. -/
  | expire {now : ℕ} : e = .wakeExpired → k.clock = some now → k'.pc t = k.pc t →
      k'.task t = (k.task t).wakeExpired now → TaskStep k e k' t
  /-- Actor `a` wakes it. -/
  | unblock {a : Actor} {rest : List Job} : e = a.event → k.jobsOf a = .unblock t :: rest →
      PcKept k k' t → k'.task t = (k.task t).unblock → TaskStep k e k' t
  /-- Actor `a` delivers a message to it. -/
  | deliver {a : Actor} {p : Parcel} {rest : List Job} : e = a.event →
      k.jobsOf a = .deliver t p :: rest →
      PcKept k k' t → k'.task t = (k.task t).deliver p → TaskStep k e k' t

theorem TaskStep.of_goes {t₀ : TaskId} {q : Pc} (hrun : (k.task t₀).state = .running)
    (hne : k.pc t₀ ≠ .exited) (hq : q.reason = none) (hpc : k'.pc = Function.update k.pc t₀ q)
    (htask : k'.task = k.task)
    (hm : (k.pc t₀).receives = true → (k.task t₀).mailbox = none) : TaskStep k e k' t := by
  rcases eq_or_ne t t₀ with rfl | h
  · exact .goes hrun hne (by rw [hpc, Function.update_self, hq]) (by rw [htask]) hm
  · exact .frame (by rw [hpc, Function.update_of_ne h]) (by rw [htask])

/-- A step of `t₀` alone is nothing to anyone else. -/
theorem TaskStep.of_own {t₀ : TaskId} {q : Pc} {x : Parking Parcel}
    (hpc : k'.pc = Function.update k.pc t₀ q) (htask : k'.task = Function.update k.task t₀ x)
    (h : t = t₀ → TaskStep k e k' t₀) : TaskStep k e k' t := by
  rcases eq_or_ne t t₀ with rfl | hne
  · exact h rfl
  · exact .frame (by rw [hpc, Function.update_of_ne hne]) (by rw [htask, Function.update_of_ne hne])

/-- A job is something to the task it wakes only. -/
theorem TaskStep.of_job {a : Actor} {job : Job} {rest : List Job} (he : e = a.event)
    (ha : k.jobsOf a = job :: rest) (hpc : PcKept k k' t) (htask : k'.task = (k.runJob job).1.task)
    (hother : k'.task t = k.task t → TaskStep k e k' t) : TaskStep k e k' t := by
  cases job with
  | signal id => exact hother (by rw [htask]; rfl)
  | unblock w =>
    rcases eq_or_ne t w with rfl | hne
    · exact .unblock he ha hpc (by rw [htask]; exact Function.update_self ..)
    · exact hother (by rw [htask]; exact Function.update_of_ne hne ..)
  | deliver w p =>
    rcases eq_or_ne t w with rfl | hne
    · exact .deliver he ha hpc (by rw [htask]; exact Function.update_self ..)
    · exact hother (by rw [htask]; exact Function.update_of_ne hne ..)

/-- **The list is complete.** -/
theorem Step.task (h : Step k e k') (t : TaskId) : TaskStep k e k' t := by
  cases h with
  | tick | irq | allocate | create | bindNotify | bindFail | callFail | sleepPast
  | notifyOnExit =>
    exact .frame rfl rfl
  | wakeExpired hc => exact .expire rfl hc rfl rfl
  | irqJob hj =>
    exact .of_job (a := .core _) rfl hj (.inl (by simp)) rfl (.frame (by simp))
  | spawn =>
    exact .of_own rfl rfl fun _ =>
      .spawn (Nat.lt_succ_self _) (Function.update_self ..) (Function.update_self ..)
  | @dispatch t₀ hready =>
    rcases eq_or_ne t t₀ with rfl | hne
    · exact .dispatch hready rfl (Function.update_self ..)
    · exact .frame rfl (Function.update_of_ne hne ..)
  | @preempt t₀ hrun huser =>
    rcases eq_or_ne t t₀ with rfl | hne
    · exact .preempt hrun huser rfl (Function.update_self ..)
    · exact .frame rfl (Function.update_of_ne hne ..)
  | callSend hrun hpc | callRecv hrun hpc | callWait hrun hpc | callSignal hrun hpc
  | callExit hrun hpc | sendDeliver hrun hpc | sendBuffered hrun hpc | sendFail hrun hpc
  | recvGot hrun hpc | recvWakeSender hrun hpc | recvFail hrun hpc | waitTaken hrun hpc
  | waitPast hrun hpc | waitCheckPast hrun hpc | waitCheckAgain hrun hpc | resumeSent hrun hpc
  | resumeTaken hrun hpc | resumeSlept hrun hpc | cancel hrun hpc | ret hrun hpc
  | retSent hrun hpc =>
    exact .of_goes hrun (by simp [hpc]) rfl rfl rfl (by simp [hpc, Pc.receives, Pc.reason])
  | resumePanic hrun hpc hm | resumeTimeout hrun hpc hm =>
    exact .of_goes hrun (by simp [hpc]) rfl rfl rfl fun _ => hm
  | resumeAgain hrun hpc _ hq =>
    refine .of_goes hrun (by simp [hpc]) ?_ rfl rfl (by simp [hpc, Pc.receives, Pc.reason])
    obtain ⟨-, rfl⟩ | ⟨d, -, rfl⟩ := hq <;> rfl
  | callSleep hrun hpc hc hlt =>
    exact .of_own rfl (Function.update_eq_self ..).symm fun _ =>
      .sleep rfl hrun hpc hc hlt (Function.update_self ..) rfl
  | sendBlock hrun hpc hd =>
    exact .of_own rfl (Function.update_eq_self ..).symm fun _ =>
      .sendBlock rfl hrun hpc hd (Function.update_self ..) rfl rfl
  | recvBlock hrun hpc hd =>
    exact .of_own rfl (Function.update_eq_self ..).symm fun _ =>
      .recvBlock rfl hrun hpc hd (Function.update_self ..) rfl
  | recvBlockUntil hrun hpc =>
    exact .of_own rfl (Function.update_eq_self ..).symm fun _ =>
      .recvBlockUntil hrun hpc (Function.update_self ..) rfl
  | @waitRegister t₀ _ _ hrun hpc hc =>
    rcases eq_or_ne t t₀ with rfl | hne
    · exact .register hrun hpc (Function.update_self ..) rfl hc rfl
    · exact .frame (Function.update_of_ne hne ..) rfl
  | blockUntilPast hrun hpc =>
    exact .of_own rfl (Function.update_eq_self ..).symm fun _ =>
      .past hrun hpc (Function.update_self ..) rfl
  | blockUntilPark hrun hpc hs =>
    exact .of_own rfl (Function.update_eq_self ..).symm fun _ =>
      .prepare hrun hpc hs (Function.update_self ..) rfl
  | park hrun hpc =>
    exact .of_own rfl rfl fun _ =>
      .park rfl hrun hpc (Function.update_self ..) (Function.update_self ..)
  | resumeMessage hrun hpc hr hm =>
    exact .of_own rfl rfl fun _ =>
      .take hrun hpc hr hm (Function.update_self ..) (Function.update_self ..)
  | exit hrun hpc =>
    exact .of_own rfl rfl fun _ =>
      .exit hrun hpc (Function.update_self ..) (Function.update_self ..)
  | @taskJob t₀ job rest f hrun hpc =>
    have hj : k.jobsOf (.task t₀) = job :: rest := by rw [jobsOf, hpc]; rfl
    rcases eq_or_ne t t₀ with rfl | hne
    · refine .of_job (a := .task t) rfl hj (.inr ⟨⟨_, _, hpc⟩, _, _, Function.update_self ..⟩) rfl
        fun htask => ?_
      exact .goes hrun (by simp [hpc]) (by simp [Pc.reason]) htask
        (by simp [hpc, Pc.receives, Pc.reason])
    · exact .of_job (a := .task t₀) rfl hj (.inl (Function.update_of_ne hne ..)) rfl
        (.frame (Function.update_of_ne hne ..))

theorem PcKept.reason (h : PcKept k k' t) : (k'.pc t).reason = (k.pc t).reason := by
  obtain h | ⟨⟨_, _, h⟩, _, _, h'⟩ := h
  · rw [h]
  · rw [h, h']
    rfl

theorem PcKept.eq_of_receives (h : PcKept k k' t) (hr : (k.pc t).receives = true) :
    k'.pc t = k.pc t := by
  obtain h | ⟨⟨_, _, h⟩, -⟩ := h
  · exact h
  · simp [h, Pc.receives, Pc.reason] at hr

/-- A task that waits for something is where it was. -/
theorem PcKept.eq (h : PcKept k k' t) {r : Resume} (hr : (k'.pc t).reason = some r) :
    k'.pc t = k.pc t := by
  obtain h | ⟨-, _, _, h'⟩ := h
  · exact h
  · simp [h', Pc.reason] at hr

/-- An actor that does its next job goes nowhere else. -/
theorem Step.pcKept {a : Actor} {job : Job} {rest : List Job} (hs : Step k a.event k')
    (ha : k.jobsOf a = job :: rest) (t : TaskId) : PcKept k k' t := by
  obtain ⟨c, rfl, rfl⟩ | ⟨t₀, f, rfl, hj, rfl⟩ := hs.of_job ha
  · exact .inl (by simp)
  · rcases eq_or_ne t t₀ with rfl | hne
    · exact .inr ⟨⟨_, _, hj⟩, _, _, Function.update_self ..⟩
    · exact .inl (Function.update_of_ne hne ..)

end Kernel

/-! ### Where a task is and what state it is in -/

/-- Whether a task that waits for `r` parks in state `s`. -/
def Resume.Fits : Resume → State → Prop
  | .sent _, s | .message _, s | .waited _ none, s => s = .blocked
  | .timed _, s => ∃ u, s = .sleeping u
  | .waited _ (some d), s | .slept d, s => s = .sleeping d

theorem Resume.Fits.parked {r : Resume} {s : State} (h : r.Fits s) : s.parked = true := by
  cases r with
  | sent | message | slept => exact h ▸ rfl
  | timed => exact h.choose_spec ▸ rfl
  | waited ids deadline => cases deadline <;> exact h ▸ rfl

/-- A task is parked only inside `park_and_switch`, and in the state its wait calls for. -/
def ShapeAt (x : Parking Parcel) : Pc → Prop
  | .resume r => x.state.parked = true → r.Fits x.state
  | .park s r => x.state.parked = false ∧ r.Fits s
  | .blockUntil deadline r => x.state.parked = false ∧
      ((∃ ep d, deadline = some d ∧ r = .timed ep) ∨ ∃ ids, r = .waited ids deadline)
  | _ => x.state.parked = false

theorem shapeAt_of_not_parked {x : Parking Parcel} (hx : x.state.parked = false) {pc : Pc}
    (hpc : pc.reason = none) : ShapeAt x pc := by
  cases pc <;> first | exact hx | simp [Pc.reason] at hpc

/-- A wake-up, or the lack of one, keeps a task where its state says. -/
theorem ShapeAt.wake {x y : Parking Parcel} {pc : Pc} (h : ShapeAt x pc)
    (hy : y.state.parked = true → y.state = x.state) : ShapeAt y pc := by
  have hnot : x.state.parked = false → y.state.parked = false := by
    intro hx
    by_contra hne
    rw [Bool.not_eq_false] at hne
    rw [hy hne, hx] at hne
    exact Bool.false_ne_true hne
  cases pc with
  | resume r => exact fun hp => hy hp ▸ h (hy hp ▸ hp)
  | park | blockUntil => exact ⟨hnot h.1, h.2⟩
  | _ => exact hnot h

theorem ShapeAt.kept {x : Parking Parcel} (h : ShapeAt x (k.pc t)) (hk : Kernel.PcKept k k' t) :
    ShapeAt x (k'.pc t) := by
  obtain hk | ⟨⟨_, _, hk⟩, _, _, hk'⟩ := hk
  · rwa [hk]
  · rw [hk] at h
    rw [hk']
    exact h

namespace Kernel

/-- Every task is where its state says, and a slot nothing was spawned in is nowhere. -/
structure Shape (k : Kernel) : Prop where
  task : ∀ t, ShapeAt (k.task t) (k.pc t)
  unborn : ∀ t, k.ntasks ≤ t → k.pc t = .exited

/-- A parked task is in `park_and_switch`, in the state its wait calls for. -/
theorem Shape.of_parked (h : k.Shape) (hp : (k.task t).state.parked = true) :
    ∃ r, k.pc t = .resume r ∧ r.Fits (k.task t).state := by
  have hx := h.task t
  have hnot : (k.task t).state.parked ≠ false := by simp [hp]
  cases hpc : k.pc t with
  | resume r =>
    rw [hpc] at hx
    exact ⟨r, rfl, hx hp⟩
  | park | blockUntil =>
    rw [hpc] at hx
    exact absurd hx.1 hnot
  | _ =>
    rw [hpc] at hx
    exact absurd hx hnot

theorem Step.ntasks_le (h : Step k e k') : k.ntasks ≤ k'.ntasks := by
  cases h with
  | spawn => exact Nat.le_succ _
  | @irqJob _ job | @taskJob _ job => cases job <;> exact Nat.le_refl _
  | _ => exact Nat.le_refl _

theorem Shape.not_parked (h : k.Shape) (hne : ∀ r, k.pc t ≠ .resume r) :
    (k.task t).state.parked = false := by
  cases hp : (k.task t).state.parked with
  | false => rfl
  | true =>
    obtain ⟨r, hr, -⟩ := h.of_parked hp
    exact absurd hr (hne r)

theorem Shape.step (h : k.Shape) (hs : Step k e k') : k'.Shape := by
  have hnot : ∀ {x : Parking Parcel} {s : State}, x.state = s → s.parked = false →
      x.state.parked = false := fun hx hp => hx ▸ hp
  refine ⟨fun t => ?_, fun t ht => ?_⟩
  · have hx := h.task t
    cases hs.task t with
    | frame hpc ht => rwa [hpc, ht]
    | goes hrun _ hr ht => exact shapeAt_of_not_parked (by rw [ht, hrun]; rfl) hr
    | sendBlock _ hrun _ _ hpc ht | recvBlock _ hrun _ _ hpc ht =>
      rw [hpc, ht]
      exact ⟨hnot hrun rfl, rfl⟩
    | sleep _ hrun _ _ _ hpc ht =>
      rw [hpc, ht]
      exact ⟨hnot hrun rfl, rfl⟩
    | recvBlockUntil hrun _ hpc ht =>
      rw [hpc, ht]
      exact ⟨hnot hrun rfl, .inl ⟨_, _, rfl, rfl⟩⟩
    | register hrun _ hpc ht =>
      rw [hpc, ht]
      exact ⟨hnot hrun rfl, .inr ⟨_, rfl⟩⟩
    | past hrun _ hpc ht =>
      rw [hpc, ht]
      exact fun hp => absurd (hp.symm.trans (hnot hrun rfl)) (by simp)
    | prepare hrun hbu hs hpc ht =>
      rw [hbu] at hx
      rw [hpc, ht]
      refine ⟨hnot hrun rfl, ?_⟩
      obtain ⟨rfl, rfl⟩ | ⟨d, rfl, rfl⟩ := hs <;>
        obtain ⟨-, ⟨_, _, hd, rfl⟩ | ⟨_, rfl⟩⟩ := hx <;> simp_all [Resume.Fits]
    | park _ hrun hpk hpc ht =>
      rw [hpk] at hx
      rw [hpc, ht]
      intro hp
      unfold Parking.park at hp ⊢
      split
      · next hw =>
        rw [if_pos hw] at hp
        exact absurd (hp.symm.trans (hnot hrun rfl)) (by simp)
      · exact hx.2
    | take hrun _ _ _ hpc ht => exact shapeAt_of_not_parked (by rw [ht]; exact hnot hrun rfl) (by rw [hpc]; rfl)
    | exit _ _ hpc ht => exact shapeAt_of_not_parked (by rw [ht]; rfl) (by rw [hpc]; rfl)
    | spawn _ hpc ht => exact shapeAt_of_not_parked (by rw [ht]; rfl) (by rw [hpc]; rfl)
    | dispatch _ hpc ht | preempt _ _ hpc ht =>
      rw [hpc, ht]
      exact hx.wake (by simp [State.parked])
    | expire _ _ hpc ht =>
      rw [hpc, ht]
      exact hx.wake fun hp => Parking.state_wakeExpired hp
    | unblock _ _ hk ht =>
      rw [ht]
      exact (hx.wake (by simp)).kept hk
    | deliver _ _ hk ht =>
      rw [ht]
      exact (hx.wake fun hp => Parking.state_deliver hp).kept hk
  · have hle := h.unborn t (hs.ntasks_le.trans ht)
    cases hs.task t with
    | frame hpc | dispatch _ hpc | preempt _ _ hpc | expire _ _ hpc => exact hpc.trans hle
    | goes _ hne => exact absurd hle hne
    | spawn hlt => exact absurd ht (Nat.not_le.mpr hlt)
    | exit _ _ hpc => exact hpc
    | unblock _ _ hk | deliver _ _ hk =>
      obtain hk | ⟨⟨_, _, hk⟩, -⟩ := hk
      · exact hk.trans hle
      · simp [hk] at hle
    | sendBlock _ _ hpc | recvBlock _ _ hpc | recvBlockUntil _ hpc | register _ hpc
    | sleep _ _ hpc | past _ hpc | prepare _ hpc | park _ _ hpc | take _ hpc =>
      simp [hpc] at hle

theorem shape_of_reach {ok : Kernel → Event → Prop} (h : waiting.Reach ok k) : k.Shape :=
  waiting_invariant (fun _ => ⟨fun _ => rfl, fun _ _ => rfl⟩) (fun _ _ _ hi _ hs => hi.step hs) h

end Kernel

end StarOS
