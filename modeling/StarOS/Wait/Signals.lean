import StarOS.Wait.TaskStep

/-!
# Signals are neither lost nor doubled

A task registers with the notifications it waits for under one lock and parks under another, and a
signal can come in between, or after it was woken by another one. The invariant is that each
notification a registered task waits for is either still quiet and will wake it, or has: the
wake-up is in flight, or recorded, or the task is already out of its park and will look.

## Main definitions

* `Kernel.OneWaiter` — no two tasks wait for one notification
* `Kernel.Woken`, `Kernel.Quiet`, `Kernel.WaitInv` — the invariant
* `Kernel.Balanced` — the account of one notification's signals

## Main results

* `signals_kept`
-/

namespace StarOS

/-- The notifications a task in a wait waits for. -/
def Pc.waitIds : Pc → List ℕ
  | .wait ids _ | .waitCheck ids _ => ids
  | pc =>
    match pc.reason with
    | some (.waited ids _) => ids
    | _ => []

theorem Pc.waitIds_of_reason {pc : Pc} {ids : List ℕ} {deadline : Option ℕ}
    (h : pc.reason = some (.waited ids deadline)) : pc.waitIds = ids := by
  cases pc <;> simp_all [Pc.waitIds, Pc.reason]

namespace Kernel

variable {k k' : Kernel} {e : Event} {t : TaskId}

/-- No two tasks wait for one notification. -/
def OneWaiter (k : Kernel) : Prop :=
  ∀ t t' id, id ∈ (k.pc t).waitIds → id ∈ (k.pc t').waitIds → t = t'

/-- `OneWaiter`, checked on the tasks there are. -/
def oneWaiter (k : Kernel) : Bool :=
  (List.range k.ntasks).all fun t => (List.range k.ntasks).all fun t' =>
    t == t' || (k.pc t).waitIds.all fun id => !(k.pc t').waitIds.contains id

theorem Shape.oneWaiter (hsh : k.Shape) (h : k.oneWaiter = true) : k.OneWaiter := by
  have hborn : ∀ t id, id ∈ (k.pc t).waitIds → t < k.ntasks := by
    intro t id hid
    by_contra hle
    rw [hsh.unborn t (Nat.not_lt.mp hle)] at hid
    cases hid
  intro t t' id hid hid'
  simp only [Kernel.oneWaiter, List.all_eq_true, List.mem_range, Bool.or_eq_true, beq_iff_eq] at h
  obtain h | h := h t (hborn t id hid) t' (hborn t' id hid')
  · exact h
  · simpa [hid'] using h id hid

/-- No task is parked in a wait for a live notification with signals pending, unless its wake-up
is in flight. -/
def NoLostSignal (k : Kernel) : Prop :=
  ∀ t ids deadline id, k.pc t = .resume (.waited ids deadline) →
    (k.task t).state.parked = true → id ∈ ids → (k.notify.slot id).used = true →
    (k.notify.slot id).pending ≠ 0 → ∃ a, .unblock t ∈ k.jobsOf a

/-! ### The account of a notification -/

/-- How often notification `id` has been signalled. -/
def signals (log : List Out) (id : ℕ) : ℕ := log.count (.signalled id)

/-- How often it was signalled with its count at `u32::MAX`. -/
def saturations (log : List Out) (id : ℕ) : ℕ := log.count (.saturated id)

/-- How many waits have returned its index. -/
def waits (log : List Out) (id : ℕ) : ℕ :=
  log.countP fun
    | .waited _ i => i == id
    | _ => false

/-- The signals sent to a notification were consumed by waits, or are pending, or came on top of a
full count. -/
structure Balanced (n : Notification) (log : List Out) (id : ℕ) : Prop where
  le : n.pending ≤ u32Max
  unused : n.used = false → n.pending = 0
  account : waits log id + n.pending + saturations log id = signals log id

variable {n n' : Notification} {log : List Out} {id : ℕ}

/-- Who waits is not part of the account. -/
theorem Balanced.congr (h : Balanced n log id) (hu : n'.used = n.used)
    (hp : n'.pending = n.pending) : Balanced n' log id :=
  ⟨hp ▸ h.le, fun h' => hp ▸ h.unused (hu ▸ h'), hp ▸ h.account⟩

/-- Nor is what happens to anything else. -/
theorem Balanced.emit (h : Balanced n log id) {out : List Out} (hs : .signalled id ∉ out)
    (hsat : .saturated id ∉ out) (hw : ∀ t, .waited t id ∉ out) :
    Balanced n (log ++ out) id := by
  have hwaits : waits out id = 0 := by
    refine List.countP_eq_zero.mpr fun o ho => ?_
    cases o with
    | waited t i =>
      rintro hi
      exact hw t (beq_iff_eq.mp hi ▸ ho)
    | _ => exact Bool.false_ne_true
  refine ⟨h.le, h.unused, ?_⟩
  simp only [waits, saturations, signals, List.countP_append, List.count_append,
    List.count_eq_zero.mpr hs, List.count_eq_zero.mpr hsat] at hwaits ⊢
  rw [hwaits]
  exact h.account

theorem Balanced.consume (h : Balanced n log id) (hp : 0 < n.pending) :
    Balanced n.consume (log ++ [.waited t id]) id := by
  have := h.account
  have := h.le
  refine ⟨?_, fun hu => ?_, ?_⟩
  · simp only [Notification.consume]
    omega
  · exact absurd (h.unused hu) hp.ne'
  · simp [waits, signals, saturations, Notification.consume, List.count_append] at *
    omega

theorem Balanced.signal (h : Balanced n log id) (hu : n.used = true) :
    Balanced n.signal (log ++ signalOut n id) id := by
  have := h.account
  have := h.le
  refine ⟨Nat.min_le_right .., fun h' => by simp [Notification.signal, hu] at h', ?_⟩
  unfold signalOut
  rw [if_pos hu]
  split
  · simp_all [waits, signals, saturations, Notification.signal, List.count_append]
    omega
  · simp [waits, signals, saturations, Notification.signal, List.count_append] at *
    omega

/-- The account of each notification is kept by doing a job. -/
theorem Balanced.runJob {job : Job} (h : ∀ id, Balanced (k.notify.slot id) k.log id) (id : ℕ) :
    Balanced ((k.runJob job).1.notify.slot id) (k.runJob job).1.log id := by
  cases job with
  | unblock | deliver => exact h id
  | signal id₀ =>
    simp only [Kernel.runJob, Notifications.signal]
    split
    · next hu =>
      rcases eq_or_ne id id₀ with rfl | hne
      · simpa using (h id).signal hu
      · have hout : ∀ {o}, o ∈ signalOut (k.notify.slot id₀) id₀ → o = .signalled id₀ ∨
            o = .saturated id₀ := mem_signalOut
        simp only [Function.update_of_ne hne]
        refine (h id).emit (fun hm => ?_) (fun hm => ?_) (fun t hm => ?_) <;>
          obtain ho | ho := hout hm <;> cases ho <;> exact hne rfl
    · next hu => simpa [signalOut, hu] using h id

/-- Nor by consuming a signal. -/
theorem Balanced.consumeReady {m m' : Notifications} {ids : List ℕ} {index id₀ : ℕ}
    (h : ∀ id, Balanced (m.slot id) log id) (hc : m.consumeReady ids = some (index, id₀, m'))
    (id : ℕ) : Balanced (m'.slot id) (log ++ [.waited t id₀]) id := by
  obtain ⟨-, -, hp, rfl⟩ := Notifications.consumeReady_eq_some hc
  rcases eq_or_ne id id₀ with rfl | hne
  · simpa using (h id).consume hp
  · simp only [Function.update_of_ne hne]
    exact (h id).emit (by simp) (by simp) (by simp [hne])

theorem Balanced.step (h : ∀ id, Balanced (k.notify.slot id) k.log id)
    (hlen : ∀ i, k.notify.len ≤ i → (k.notify.slot i).used = false) (hs : Step k e k') (id : ℕ) :
    Balanced (k'.notify.slot id) k'.log id := by
  cases hs with
  | irqJob | taskJob => exact runJob h id
  | @create id₀ notify hc =>
    obtain ⟨hu, hslot, -⟩ := Notifications.create_eq hlen hc
    simp only [hslot]
    rcases eq_or_ne id id₀ with rfl | hne
    · have hacc := (h id).account
      rw [(h id).unused hu] at hacc
      rw [Function.update_self]
      exact ⟨Nat.zero_le _, by simp [Notification.fresh], hacc⟩
    · rw [Function.update_of_ne hne]
      exact h id
  | waitTaken _ _ hc => exact consumeReady h hc id
  | resumeTaken _ _ hc => exact consumeReady (fun id => (h id).congr (by simp) (by simp)) hc id
  | waitRegister | resumeAgain => exact (h id).congr (by simp) (by simp)
  | sleepPast | sendDeliver | sendBuffered | sendBlock | recvGot | recvWakeSender | resumeSent
  | resumeMessage | resumeSlept | retSent => exact (h id).emit (by simp) (by simp) (by simp)
  | _ => exact h id

/-! ### Wake-ups -/

/-- Task `t` will come out of its wait, or has: the wake-up is in flight; or it is recorded, and
the task has yet to come to its park; or the task is out of its park. -/
def Woken (k : Kernel) (t : TaskId) : Prop :=
  (∃ a, .unblock t ∈ k.jobsOf a) ∨
    (∀ r, k.pc t ≠ .resume r) ∧ (k.task t).wakePending = true ∨
    (k.task t).state.parked = false ∧ ∃ r, k.pc t = .resume r

/-- Notification `id` has no signals pending, and the next will wake `t`. -/
def Quiet (k : Kernel) (t : TaskId) (id : ℕ) : Prop :=
  (k.notify.slot id).waiter = some t ∧ (k.notify.slot id).pending = 0

/-- Only live notifications are waited for, and each is covered from registration on. -/
structure WaitInv (k : Kernel) : Prop where
  len : ∀ i, k.notify.len ≤ i → (k.notify.slot i).used = false
  used : ∀ t, ∀ id ∈ (k.pc t).waitIds, (k.notify.slot id).used = true
  covered : ∀ t ids deadline id, (k.pc t).reason = some (.waited ids deadline) → id ∈ ids →
    k.Quiet t id ∨ k.Woken t

/-- What wakes a task keeps it woken until its wait is over. -/
theorem Woken.step (hsh : k.Shape) (h : k.Woken t) (hs : Step k e k') {r r' : Resume}
    (hr : (k.pc t).reason = some r) (hr' : (k'.pc t).reason = some r') : k'.Woken t := by
  have hnone : (k.pc t).reason ≠ none := by simp [hr]
  have hnone' : (k'.pc t).reason ≠ none := by simp [hr']
  obtain ⟨a, ha⟩ | ⟨hpc, hw⟩ | ⟨hnp, q, hq⟩ := h
  · obtain hkept | ⟨rfl, rest, hj⟩ := hs.jobs_kept hsh.unborn ha
    · exact .inl ⟨a, hkept⟩
    · -- the wake-up is performed
      have htask : k'.task t = (k.task t).unblock := by
        rw [(hs.job_done hj).1]
        exact Function.update_self ..
      have hkept := (hs.pcKept hj t).eq hr'
      by_cases hpc : ∃ q, k'.pc t = .resume q
      · exact .inr (.inr ⟨by rw [htask, Parking.parked_unblock], hpc⟩)
      · have hne : ∀ q, k'.pc t ≠ .resume q := fun q hq => hpc ⟨q, hq⟩
        refine .inr (.inl ⟨hne, ?_⟩)
        rw [htask]
        exact Parking.wakePending_unblock (hsh.not_parked fun q => hkept ▸ hne q)
  · have hnp := hsh.not_parked hpc
    cases hs.task t with
    | frame hk ht => exact .inr (.inl ⟨by rwa [hk], by rwa [ht]⟩)
    | prepare _ _ _ hk ht => exact .inr (.inl ⟨by simp [hk], by rwa [ht]⟩)
    | past _ _ hk ht => exact .inr (.inr ⟨by rwa [ht], _, hk⟩)
    | park _ _ _ hk ht => exact .inr (.inr ⟨by rwa [ht, Parking.park, if_pos hw], _, hk⟩)
    | dispatch _ hk ht => exact .inr (.inl ⟨by rwa [hk], by rwa [ht]⟩)
    | expire _ _ hk ht =>
      exact .inr (.inl ⟨by rwa [hk], by rwa [ht, Parking.wakePending_wakeExpired]⟩)
    | unblock _ _ hk ht =>
      refine .inr (.inl ⟨by rwa [hk.eq hr'], ?_⟩)
      rw [ht]
      exact Parking.wakePending_unblock hnp
    | deliver _ _ hk ht =>
      refine .inr (.inl ⟨by rwa [hk.eq hr'], ?_⟩)
      rw [ht]
      exact Parking.wakePending_deliver (by rintro hb; simp [hb, State.parked] at hnp) _
    | sendBlock _ _ hfrom | recvBlock _ _ hfrom | recvBlockUntil _ hfrom | register _ hfrom
    | sleep _ _ hfrom | preempt _ hfrom =>
      exact absurd (by rw [hfrom]; rfl) hnone
    | goes _ _ hto => exact absurd hto hnone'
    | take _ _ _ _ hto | exit _ _ hto | spawn _ hto => exact absurd (by rw [hto]; rfl) hnone'
  · cases hs.task t with
    | frame hk ht => exact .inr (.inr ⟨by rwa [ht], q, by rwa [hk]⟩)
    | dispatch _ hk ht => exact .inr (.inr ⟨by rw [ht]; rfl, q, by rwa [hk]⟩)
    | expire _ _ hk ht =>
      exact .inr (.inr ⟨by rwa [ht, Parking.not_parked_wakeExpired hnp], q, by rwa [hk]⟩)
    | unblock _ _ hk ht =>
      exact .inr (.inr ⟨by rw [ht, Parking.parked_unblock], q, by rwa [hk.eq hr']⟩)
    | deliver _ _ hk ht =>
      exact .inr (.inr ⟨by rw [ht, Parking.parked_deliver, hnp]; rfl, q, by rwa [hk.eq hr']⟩)
    | sendBlock _ _ hfrom | recvBlock _ _ hfrom | recvBlockUntil _ hfrom | register _ hfrom
    | sleep _ _ hfrom | preempt _ hfrom =>
      exact absurd (by rw [hfrom]; rfl) hnone
    | past _ hfrom | prepare _ hfrom | park _ _ hfrom => simp [hfrom] at hq
    | goes _ _ hto => exact absurd hto hnone'
    | take _ _ _ _ hto | exit _ _ hto | spawn _ hto => exact absurd (by rw [hto]; rfl) hnone'

/-- A quiet notification stays the waiter's until a signal takes the waiter from it. -/
theorem Quiet.step (hi : k.WaitInv) (hone : k.OneWaiter) {ids : List ℕ} {deadline : Option ℕ}
    (hr : (k.pc t).reason = some (.waited ids deadline)) (hid : id ∈ ids) (hq : k.Quiet t id)
    (hs : Step k e k') (hr' : (k'.pc t).reason = some (.waited ids deadline)) :
    k'.Quiet t id ∨ ∃ a, .unblock t ∈ k'.jobsOf a := by
  have hmem : id ∈ (k.pc t).waitIds := by rwa [Pc.waitIds_of_reason hr]
  have hrunJob : ∀ job : Job, (k.runJob job).1.Quiet t id ∨ .unblock t ∈ (k.runJob job).2 := by
    intro job
    cases job with
    | unblock | deliver => exact .inl hq
    | signal id₀ =>
      simp only [Kernel.runJob, Notifications.signal, Quiet]
      rcases eq_or_ne id id₀ with rfl | hne
      · simp [hi.used t id hmem, hq.1]
      · split
        · exact .inl (by simpa [hne] using And.intro hq.1 hq.2)
        · exact .inl hq
  have hready : ∀ {m m' : Notifications} {ids index id₀}, (m.slot id).waiter = some t →
      (m.slot id).pending = 0 → m.consumeReady ids = some (index, id₀, m') →
      (m'.slot id).waiter = some t ∧ (m'.slot id).pending = 0 := by
    intro m m' ids index id₀ hw h0 hc
    obtain ⟨-, -, hp, rfl⟩ := Notifications.consumeReady_eq_some hc
    have hne : id ≠ id₀ := by
      rintro rfl
      exact absurd h0 hp.ne'
    simpa [hne] using And.intro hw h0
  cases hs with
  | @irqJob c job rest hj =>
    exact (hrunJob job).imp (fun h => h) fun hm => ⟨.core c, by simp [jobsOf, hm]⟩
  | @taskJob t₀ job rest f _ hpc =>
    exact (hrunJob job).imp (fun h => h) fun hm => ⟨.task t₀, by simp [jobsOf, Pc.todo, hm]⟩
  | create hc =>
    obtain ⟨hu, hslot, -⟩ := Notifications.create_eq hi.len hc
    refine .inl ?_
    simp only [Quiet, hslot]
    rw [Function.update_of_ne]
    · exact hq
    · rintro rfl
      exact absurd ((hi.used t id hmem).symm.trans hu) (by simp)
  | waitTaken _ _ hc => exact .inl (hready hq.1 hq.2 hc)
  | @waitRegister t₀ ids₀ deadline₀ _ hpc =>
    refine .inl ?_
    have hnot : id ∉ ids₀ := by
      intro hid₀
      have := hone t t₀ id hmem (by rw [hpc]; exact hid₀)
      subst this
      simp [hpc, Pc.reason] at hr
    simpa [Quiet, Notifications.register, hnot] using hq
  | @resumeTaken t₀ ids₀ _ _ _ _ _ hpc hc =>
    have hne : t ≠ t₀ := by
      rintro rfl
      simp [Pc.reason] at hr'
    exact .inl (hready (Notifications.waiter_deregister ids₀ hq.1 hne) (by simpa using hq.2) hc)
  | @resumeAgain t₀ ids₀ _ _ _ hpc _ hto =>
    have hne : t ≠ t₀ := by
      rintro rfl
      obtain ⟨-, rfl⟩ | ⟨_, -, rfl⟩ := hto <;> simp [Pc.reason] at hr'
    exact .inl ⟨Notifications.waiter_deregister ids₀ hq.1 hne, by simpa using hq.2⟩
  | _ => exact .inl hq

/-- Only `create` changes what is in use. -/
theorem Step.notify_kept (hs : Step k e k') :
    (∃ id, k.notify.create = (id, k'.notify)) ∨
      k'.notify.len = k.notify.len ∧ ∀ i, (k'.notify.slot i).used = (k.notify.slot i).used := by
  have hrunJob : ∀ job : Job, (k.runJob job).1.notify.len = k.notify.len ∧
      ∀ i, ((k.runJob job).1.notify.slot i).used = (k.notify.slot i).used := by
    intro job
    cases job with
    | unblock | deliver => exact ⟨rfl, fun _ => rfl⟩
    | signal id₀ =>
      exact ⟨Notifications.len_signal k.notify id₀, Notifications.used_signal k.notify id₀⟩
  cases hs with
  | irqJob | taskJob => exact .inr (hrunJob _)
  | create hc => exact .inl ⟨_, hc⟩
  | waitTaken _ _ hc => exact .inr (Notifications.used_consumeReady hc)
  | @resumeTaken t₀ ids₀ _ _ _ _ _ _ hc =>
    obtain ⟨hl, hu⟩ := Notifications.used_consumeReady hc
    exact .inr ⟨hl, fun i => by rw [hu, Notifications.used_deregister]⟩
  | waitRegister => exact .inr ⟨rfl, fun i => Notifications.used_register ..⟩
  | resumeAgain => exact .inr ⟨rfl, fun i => Notifications.used_deregister ..⟩
  | _ => exact .inr ⟨rfl, fun _ => rfl⟩

/-- Nothing is in use beyond the end of the table. -/
theorem Step.notify_len (hs : Step k e k')
    (hlen : ∀ i, k.notify.len ≤ i → (k.notify.slot i).used = false) :
    ∀ i, k'.notify.len ≤ i → (k'.notify.slot i).used = false := by
  obtain ⟨_, hc⟩ | ⟨hl, hu⟩ := hs.notify_kept
  · exact (Notifications.create_eq hlen hc).2.2
  · exact fun i hi => (hu i).trans (hlen i (hl ▸ hi))

/-- A notification in use stays in use. -/
theorem Step.used (hs : Step k e k')
    (hlen : ∀ i, k.notify.len ≤ i → (k.notify.slot i).used = false)
    (hu : (k.notify.slot id).used = true) : (k'.notify.slot id).used = true := by
  obtain ⟨id₀, hc⟩ | ⟨-, hkept⟩ := hs.notify_kept
  · obtain ⟨hu₀, hslot, -⟩ := Notifications.create_eq hlen hc
    have hne : id ≠ id₀ := by
      rintro rfl
      exact absurd (hu.symm.trans hu₀) (by simp)
    simpa [hslot, hne] using hu
  · exact (hkept id).trans hu

/-- What a task waits for it waited for before, or has just resolved from its capabilities. -/
theorem Step.waitIds (hs : Step k e k') (hid : id ∈ (k'.pc t).waitIds) :
    id ∈ (k.pc t).waitIds ∨ (∃ c, e = .call t c) ∧ (k.notify.slot id).used = true := by
  have hupdate : ∀ {t₀ : TaskId} {q : Pc}, id ∈ (Function.update k.pc t₀ q t).waitIds →
      (id ∈ q.waitIds →
        id ∈ (k.pc t₀).waitIds ∨ (∃ c, e = .call t₀ c) ∧ (k.notify.slot id).used = true) →
      id ∈ (k.pc t).waitIds ∨ (∃ c, e = .call t c) ∧ (k.notify.slot id).used = true := by
    intro t₀ q hid hq
    rcases eq_or_ne t t₀ with rfl | hne
    · exact hq (by simpa using hid)
    · exact .inl (by simpa [hne] using hid)
  cases hs with
  | tick | wakeExpired | irq | allocate | create | bindNotify | bindFail | callFail | dispatch
  | preempt | sleepPast | notifyOnExit =>
    exact .inl hid
  | irqJob => exact .inl (by simpa using hid)
  | callWait _ _ hu => exact hupdate hid fun h => .inr ⟨⟨_, rfl⟩, hu id h⟩
  | waitRegister _ hpc | waitCheckAgain _ hpc | blockUntilPast _ hpc | blockUntilPark _ hpc
  | park _ hpc =>
    refine hupdate hid fun h => .inl ?_
    rw [hpc]
    exact h
  | resumeAgain _ hpc _ hto =>
    refine hupdate hid fun h => .inl ?_
    rw [hpc]
    obtain ⟨-, rfl⟩ | ⟨d, -, rfl⟩ := hto <;> exact h
  | _ => exact hupdate hid fun h => by simp [Pc.waitIds, Pc.reason] at h

theorem WaitInv.step (hi : k.WaitInv) (hsh : k.Shape) (hone : k.OneWaiter) (hs : Step k e k') :
    k'.WaitInv where
  len := hs.notify_len hi.len
  used t id hid := hs.used hi.len ((hs.waitIds hid).elim (hi.used t id) fun h => h.2)
  covered t ids deadline id hr' hid := by
    by_cases hr : (k.pc t).reason = some (.waited ids deadline)
    · obtain hq | hw := hi.covered t ids deadline id hr hid
      · exact (hq.step hi hone hr hid hs hr').imp (fun h => h) .inl
      · exact .inr (hw.step hsh hs hr hr')
    · -- it has just registered
      cases hs.task t with
      | @register ids₀ deadline₀ _ hpc hto _ hc hn =>
        rw [hto] at hr'
        obtain ⟨rfl, rfl⟩ := Resume.waited.inj (Option.some.inj hr')
        have hu := hi.used t id (by rw [hpc]; exact hid)
        have hp := Notifications.consumeReady_eq_none hc hid hu
        refine .inl ?_
        simp [Quiet, hn, Notifications.register, hid, hu, hp]
      | frame hk | dispatch _ hk | preempt _ _ hk | expire _ _ hk =>
        exact absurd (hk ▸ hr') hr
      | unblock _ _ hk | deliver _ _ hk => exact absurd (hk.reason ▸ hr') hr
      | past _ hfrom hto | prepare _ hfrom _ hto | park _ _ hfrom hto =>
        rw [hto] at hr'
        rw [hfrom] at hr
        exact absurd hr' hr
      | goes _ _ hto => simp [hto] at hr'
      | sendBlock _ _ _ _ hto | recvBlock _ _ _ _ hto | recvBlockUntil _ _ hto
      | sleep _ _ _ _ _ hto | take _ _ _ _ hto | exit _ _ hto | spawn _ hto =>
        simp [hto, Pc.reason] at hr'

theorem WaitInv.noLostSignal (hi : k.WaitInv) : k.NoLostSignal := by
  intro t ids deadline id hpc hparked hid _ hp
  obtain hq | ha | ⟨hne, -⟩ | ⟨hnp, -⟩ := hi.covered t ids deadline id (by rw [hpc]; rfl) hid
  · exact absurd hq.2 hp
  · exact ha
  · exact absurd hpc (hne _)
  · exact absurd (hparked.symm.trans hnp) (by simp)

end Kernel

/-- **Signals are neither lost nor doubled**: in every run in which no two tasks ever wait for one
notification, no task is parked in a wait for a live notification with signals pending unless its
wake-up is in flight; and the waits that returned a notification's index and the signals still
pending there are as many as the signals it was sent, until one comes on top of a full count. -/
theorem signals_kept {k : Kernel} (h : waiting.Reach (fun k _ => k.OneWaiter) k) :
    k.NoLostSignal ∧ ∀ id, .saturated id ∉ k.log →
      Kernel.waits k.log id + (k.notify.slot id).pending = Kernel.signals k.log id := by
  have hinv : k.WaitInv ∧ ∀ id, Kernel.Balanced (k.notify.slot id) k.log id := by
    refine waiting_invariant_of (I := fun k => k.WaitInv ∧
      ∀ id, Kernel.Balanced (k.notify.slot id) k.log id) (fun _ h => Kernel.shape_of_reach h) (fun clock => ?_)
      (fun k e k' hsh hi hone hs => ?_) h
    · refine ⟨⟨fun _ _ => rfl, fun t id hid => ?_, fun t ids deadline id hr => ?_⟩, fun id => ?_⟩
      · simp [Kernel.boot, Pc.waitIds, Pc.reason] at hid
      · simp [Kernel.boot, Pc.reason] at hr
      · exact ⟨Nat.zero_le _, fun _ => rfl, rfl⟩
    · exact ⟨hi.1.step hsh hone hs, Kernel.Balanced.step hi.2 hi.1.len hs⟩
  refine ⟨hinv.1.noLostSignal, fun id hsat => ?_⟩
  have hacc := (hinv.2 id).account
  rwa [Kernel.saturations, List.count_eq_zero.mpr hsat, Nat.add_zero] at hacc

/-- A task waits for either of two notifications, and both are signalled before it has parked: it
does not park, its wait returns the one, and the other stays pending. -/
theorem signals_kept_run : ∃ k,
    waiting.runIf (fun k _ => k.oneWaiter) (.boot none)
      [.spawn, .create, .create, .dispatch 0, .call 0 (.waitAny [0, 1] none), .step 0, .irq 0 0,
        .irq 1 1, .irqJob 0, .irqJob 1, .step 0, .irqJob 1, .step 0, .irqJob 0, .step 0] = some k ∧
      .waited 0 0 ∈ k.log ∧
      Kernel.waits k.log 1 + (k.notify.slot 1).pending = Kernel.signals k.log 1 := by
  obtain ⟨k, hrun, hlog, hsat⟩ : ∃ k, waiting.runIf (fun k _ => k.oneWaiter) (.boot none)
      [.spawn, .create, .create, .dispatch 0, .call 0 (.waitAny [0, 1] none), .step 0, .irq 0 0,
        .irq 1 1, .irqJob 0, .irqJob 1, .step 0, .irqJob 1, .step 0, .irqJob 0, .step 0] =
          some k ∧ .waited 0 0 ∈ k.log ∧ .saturated 1 ∉ k.log :=
    ⟨_, rfl, by decide, by decide⟩
  have hr : waiting.Reach (fun k _ => k.OneWaiter) k := EventSystem.Reach.of_runIf
    (fun _ _ hr h => (Kernel.shape_of_reach hr).oneWaiter h) (.init ⟨none, rfl⟩) hrun
  exact ⟨k, hrun, hlog, (signals_kept hr).2 1 hsat⟩

end StarOS
