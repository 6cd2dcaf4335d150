import StarOS.Wait.TaskStep

/-!
# The wake rule

Every way out of `park_and_switch` is a wake-up of some kind: one recorded before the task parked,
an `unblock` or a delivery after it did, or the clock. None of them says which wait it was meant
for. So whether a task only comes back once what it waits for has come to pass depends on where
the wake-ups went, and this file says what has to be known of them.

## Main definitions

* `Kernel.Freed` — a task that waits for `r` and will not wait any longer
* `WakeRule` — what must hold of the wake-ups for a task to be freed only when its wait is over

## Main results

* `Kernel.Step.freed` — everything that frees a task
* `WakeRule.over_of_freed` — the rule
-/

namespace StarOS

/-- Waits entered by `block_until`, which a deadline can end. -/
def Resume.timeable : Resume → Bool
  | .timed _ | .waited _ _ => true
  | .sent _ | .message _ | .slept _ => false

namespace Kernel

variable {k k' : Kernel} {e : Event} {t : TaskId} {r : Resume}

/-- Task `t` waits for `r` and will not wait any longer: it has not parked and a wake-up is
recorded, or it is out of its park. -/
def Freed (k : Kernel) (t : TaskId) (r : Resume) : Prop :=
  (∃ s, k.pc t = .park s r ∧ (k.task t).wakePending = true) ∨
    k.pc t = .resume r ∧ (k.task t).state.parked = false

theorem Freed.reason (h : k.Freed t r) : (k.pc t).reason = some r := by
  obtain ⟨s, h, -⟩ | ⟨h, -⟩ := h <;> rw [h] <;> rfl

/-- What freed a task. -/
inductive FreedBy (k : Kernel) (e : Event) (k' : Kernel) (t : TaskId) (r : Resume) : Prop
  | already : k.Freed t r → FreedBy k e k' t r
  /-- A wake-up was recorded when it was about to park. -/
  | entry {s : State} : (k.pc t).reason = none → k'.pc t = .park s r →
      (k.task t).wakePending = true → FreedBy k e k' t r
  | unblock {a : Actor} {rest : List Job} : e = a.event → k.jobsOf a = .unblock t :: rest →
      (k.pc t).reason = some r → FreedBy k e k' t r
  /-- A delivery, to a task that is `Blocked` or has not parked. -/
  | deliver {a : Actor} {p : Parcel} {rest : List Job} : e = a.event →
      k.jobsOf a = .deliver t p :: rest → (k.pc t).reason = some r →
      ((∃ s, k.pc t = .park s r) ∨ (k.task t).state = .blocked) → (k'.task t).mailbox = some p →
      FreedBy k e k' t r
  | expire {u now : ℕ} : e = .wakeExpired → k.clock = some now →
      (k.task t).state = .sleeping u → u ≤ now → k.pc t = .resume r → FreedBy k e k' t r

/-- **Everything that frees a task** from a wait no deadline ends. -/
theorem Step.freed (hs : Step k e k') (hsh : k.Shape) (hr : r.timeable = false)
    (hf : k'.Freed t r) : FreedBy k e k' t r := by
  have hre := hf.reason
  cases hs.task t with
  | frame hpc ht =>
    refine .already ?_
    rwa [Freed, hpc, ht] at hf
  | goes _ _ hq => simp [hq] at hre
  | recvBlockUntil _ _ hpc | register _ _ hpc =>
    rw [hpc] at hre
    obtain rfl := Option.some.inj hre
    simp [Resume.timeable] at hr
  | sendBlock _ _ hfrom _ hpc ht | recvBlock _ _ hfrom _ hpc ht | sleep _ _ hfrom _ _ hpc ht =>
    obtain ⟨s, hp, hw⟩ | ⟨hp, -⟩ := hf
    · exact .entry (by rw [hfrom]; rfl) hp (by rwa [ht] at hw)
    · simp [hp] at hpc
  | past _ hfrom hpc | prepare _ hfrom _ hpc =>
    rw [hpc] at hre
    obtain rfl := Option.some.inj hre
    have hx := hsh.task t
    rw [hfrom] at hx
    obtain ⟨-, ⟨_, _, -, rfl⟩ | ⟨_, rfl⟩⟩ := hx <;> simp [Resume.timeable] at hr
  | park _ _ hfrom hpc ht =>
    rw [hpc] at hre
    obtain rfl := Option.some.inj hre
    refine .already ?_
    obtain ⟨s, hp, -⟩ | ⟨-, hnp⟩ := hf
    · simp [hp] at hpc
    · -- it is not parked, so it found the wake-up
      refine .inl ⟨_, hfrom, ?_⟩
      by_contra hw
      have hfit := hsh.task t
      rw [hfrom] at hfit
      rw [ht, Parking.park, if_neg hw] at hnp
      exact absurd (hnp.symm.trans hfit.2.parked) Bool.false_ne_true
  | take _ _ _ _ hpc | exit _ _ hpc | spawn _ hpc => simp [hpc, Pc.reason] at hre
  | dispatch hready hpc ht =>
    refine .already ?_
    rw [Freed, hpc, ht] at hf
    exact hf.imp id fun h => ⟨h.1, by rw [hready]; rfl⟩
  | preempt _ huser hpc => simp [hpc, huser, Pc.reason] at hre
  | expire he hc hpc ht =>
    rw [Freed, hpc, ht, Parking.wakePending_wakeExpired] at hf
    obtain hf | ⟨hp, hnp⟩ := hf
    · exact .already (.inl hf)
    · cases hpk : (k.task t).state.parked with
      | false => exact .already (.inr ⟨hp, hpk⟩)
      | true =>
        obtain h | ⟨u, hu, hle⟩ := Parking.parked_wakeExpired hpk
        · exact absurd (hnp.symm.trans h) Bool.false_ne_true
        · exact .expire he hc hu hle hp
  | unblock he hj hk => exact .unblock he hj (hk.reason ▸ hre)
  | @deliver a p rest he hj hk ht =>
    have hmail : (k'.task t).mailbox = some p := by rw [ht, Parking.mailbox_deliver]
    have hpc := hk.eq hre
    obtain ⟨s, hp, -⟩ | ⟨hp, hnp⟩ := hf
    · exact .deliver he hj (hk.reason ▸ hre) (.inl ⟨s, hpc ▸ hp⟩) hmail
    · rw [ht, Parking.parked_deliver] at hnp
      cases hpk : (k.task t).state.parked with
      | false => exact .already (.inr ⟨hpc ▸ hp, hpk⟩)
      | true => exact .deliver he hj (hk.reason ▸ hre) (.inr (by simpa [hpk] using hnp)) hmail

/-- How a task comes to be on its way to park, in a wait no deadline ends. -/
inductive Entered (k : Kernel) (e : Event) (t : TaskId) : Resume → Prop
  | send {ep : ℕ} {km : KMessage} {mayBlock : Bool} {ep' : Endpoint Parcel} : e = .step t →
      k.pc t = .send ep km mayBlock →
      (k.endpoint ep).decideSend t ⟨k.sends, ep, km⟩ mayBlock = (.block, ep') →
      Entered k e t (.sent ⟨k.sends, ep, km⟩)
  | recv {ep : ℕ} {ep' : Endpoint Parcel} : e = .step t → k.pc t = .recv ep none →
      (k.endpoint ep).decideRecv t = (.block, ep') → Entered k e t (.message ep)
  | sleep {d now : ℕ} : e = .call t (.sleepUntil d) → k.clock = some now → now < d →
      Entered k e t (.slept d)

theorem Step.entered (hs : Step k e k') (hnone : (k.pc t).reason = none) {s : State}
    (hpc : k'.pc t = .park s r) : Entered k e t r := by
  cases hs.task t with
  | sendBlock he _ hfrom hd hto =>
    obtain ⟨-, rfl⟩ := Pc.park.inj (hpc.symm.trans hto)
    exact .send he hfrom hd
  | recvBlock he _ hfrom hd hto =>
    obtain ⟨-, rfl⟩ := Pc.park.inj (hpc.symm.trans hto)
    exact .recv he hfrom hd
  | sleep he _ _ hc hlt hto =>
    obtain ⟨-, rfl⟩ := Pc.park.inj (hpc.symm.trans hto)
    exact .sleep he hc hlt
  | frame hto | dispatch _ hto | preempt _ _ hto | expire _ _ hto =>
    rw [← hto, hpc] at hnone
    simp [Pc.reason] at hnone
  | unblock _ _ hk | deliver _ _ hk =>
    rw [← hk.reason, hpc] at hnone
    simp [Pc.reason] at hnone
  | goes _ _ hq => simp [hpc, Pc.reason] at hq
  | recvBlockUntil _ _ hto | register _ _ hto | take _ _ _ _ hto | exit _ _ hto
  | spawn _ hto =>
    simp [hpc] at hto
  | past _ hfrom | prepare _ hfrom | park _ _ hfrom => simp [hfrom, Pc.reason] at hnone

end Kernel

/-- What has to be known of the wake-ups of a run, for the tasks that wait for an `r` in `K` to be
freed only once `Over` says their wait is. -/
structure WakeRule (ok : Kernel → Event → Prop) (K : Resume → Prop)
    (Over : Kernel → TaskId → Resume → Prop) : Prop where
  /-- No deadline ends these waits. -/
  untimed : ∀ r, K r → r.timeable = false
  /-- A wait that begins with a wake-up recorded is over. -/
  entry : ∀ k e k' t s r, waiting.Reach ok k → K r → ok k e → k.Step e k' → (k.pc t).reason = none →
    k'.pc t = .park s r → (k.task t).wakePending = true → Over k' t r
  /-- An `unblock` comes when the wait is over. -/
  unblock : ∀ k e k' a t rest r, waiting.Reach ok k → K r → ok k e → k.Step e k' →
    e = a.event → k.jobsOf a = .unblock t :: rest → (k.pc t).reason = some r →
    (k'.pc t).reason = some r → Over k' t r
  /-- A delivery that frees the task comes when the wait is over, or ends it. -/
  deliver : ∀ k e k' a t p rest r, waiting.Reach ok k → K r → ok k e → k.Step e k' →
    e = a.event → k.jobsOf a = .deliver t p :: rest → (k.pc t).reason = some r →
    ((∃ s, k.pc t = .park s r) ∨ (k.task t).state = .blocked) → (k'.task t).mailbox = some p →
    Over k' t r
  /-- A deadline ends the wait. -/
  expire : ∀ k k' t u now r, waiting.Reach ok k → K r → k.Step .wakeExpired k' → k.clock = some now →
    (k.task t).state = .sleeping u → u ≤ now → r.Fits (.sleeping u) → Over k' t r
  /-- A wait that is over stays over. -/
  stable : ∀ k e k' t r, waiting.Reach ok k → K r → k.Step e k' → (k.pc t).reason = some r →
    (k'.pc t).reason = some r → Over k t r → Over k' t r

/-- **The wake rule.** -/
theorem WakeRule.over_of_freed {ok : Kernel → Event → Prop} {K : Resume → Prop}
    {Over : Kernel → TaskId → Resume → Prop} (W : WakeRule ok K Over) {k : Kernel}
    (h : waiting.Reach ok k) : ∀ t r, K r → k.Freed t r → Over k t r := by
  induction h with
  | init hi =>
    obtain ⟨clock, rfl⟩ := hi
    intro t r _ hf
    exact absurd hf.reason (by simp [Kernel.boot, Pc.reason])
  | @step k k' e hr hok hn ih =>
    have hs := Kernel.Step.of_next hn
    have hsh := Kernel.shape_of_reach hr
    intro t r hK hf
    cases hs.freed hsh (W.untimed r hK) hf with
    | already hf₀ => exact W.stable k e k' t r hr hK hs hf₀.reason hf.reason (ih t r hK hf₀)
    | entry hnone hpc hw => exact W.entry k e k' t _ r hr hK hok hs hnone hpc hw
    | unblock he hj hre => exact W.unblock k e k' _ t _ r hr hK hok hs he hj hre hf.reason
    | deliver he hj hre hb hm => exact W.deliver k e k' _ t _ _ r hr hK hok hs he hj hre hb hm
    | expire he hc hu hle hpc =>
      have hfit := hsh.task t
      rw [hpc] at hfit
      have := hfit (by rw [hu]; rfl)
      exact W.expire k k' t _ _ r hr hK (he ▸ hs) hc hu hle (hu ▸ this)

end StarOS
