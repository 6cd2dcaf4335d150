import StarOS.Wait.Wake

/-!
# Blocking sends

A send that finds the ring full leaves its message in the endpoint's queue of blocked senders and
parks until a receiver has taken it from there. It does not look at the queue when it is back, so
it returns success with its message still queued whenever anything but that receiver brings it
back.

## Main results

* `send_returns_early` — a run in which that happens
* `sends_complete_of_undisturbed` — without it, a send that has returned has left the queue
-/

namespace StarOS

namespace Kernel

variable {k k' : Kernel} {e : Event} {t : TaskId} {p : Parcel}

/-- Message `p` waits with its sender. -/
def queued (k : Kernel) (p : Parcel) : Bool :=
  (k.endpoint p.ep).senders.any fun w => decide (w.2 = p)

theorem queued_iff : k.queued p = true ↔ ∃ w ∈ (k.endpoint p.ep).senders, w.2 = p := by
  simp [queued]

/-- No send that returned success has its message waiting with it still. -/
def SendsComplete (k : Kernel) : Prop :=
  ∀ t p, .sent t p ∈ k.log → ∀ w ∈ (k.endpoint p.ep).senders, w.2 ≠ p

/-- What the event does disturbs no blocked send: a send blocks only where no wake-up is recorded,
and a wake-up reaches a task blocked in a send only once its message has left the queue. -/
def sendUndisturbed (k : Kernel) (e : Event) : Bool :=
  (match e with
    | .step t =>
      match k.pc t with
      | .send ep _ true =>
        let e := k.endpoint ep
        !(e.receivers.isEmpty && e.msgs.length == ringCap && decide (e.senders.length < maxWaiters))
          || !(k.task t).wakePending
      | _ => true
    | _ => true) &&
  match k.firstJob e with
  | some (.unblock t) | some (.deliver t _) =>
    match (k.pc t).reason with
    | some (.sent p) => !k.queued p
    | _ => true
  | _ => true

/-! ### The queues of blocked senders -/

/-- Only a send puts a message in a queue of blocked senders, and it is a new message. -/
theorem Step.senders (hs : Step k e k') {ep : ℕ} {w : TaskId × Parcel}
    (hw : w ∈ (k'.endpoint ep).senders) :
    w ∈ (k.endpoint ep).senders ∨ w.2.num = k.sends ∧ k'.sends = k.sends + 1 := by
  have key : ∀ {ep₀ : ℕ} {e' : Endpoint Parcel}, (∀ w ∈ e'.senders, w ∈ (k.endpoint ep₀).senders) →
      w ∈ (Function.update k.endpoint ep₀ e' ep).senders → w ∈ (k.endpoint ep).senders := by
    intro ep₀ e' hsub hw
    rcases eq_or_ne ep ep₀ with rfl | hne
    · rw [Function.update_self] at hw
      exact hsub w hw
    · rwa [Function.update_of_ne hne] at hw
  cases hs with
  | allocate => exact .inl (key (by simp [Endpoint.senders, Endpoint.new]) hw)
  | bindNotify | cancel =>
    refine .inl (key ?_ hw)
    exact fun _ h => h
  | sendDeliver _ _ hd =>
    cases Endpoint.decideSend_case hd with
    | deliver _ _ hs => exact .inl (key (fun w h => hs ▸ h) hw)
  | sendBuffered _ _ hd =>
    cases Endpoint.decideSend_case hd with
    | buffered _ _ _ hs => exact .inl (key (fun w h => hs ▸ h) hw)
  | @sendBlock _ ep₀ _ _ _ _ _ hd =>
    cases Endpoint.decideSend_case hd with
    | block _ _ _ _ hs =>
      rcases eq_or_ne ep ep₀ with rfl | hne
      · simp only [Function.update_self, hs, List.mem_append, List.mem_singleton] at hw
        obtain hw | rfl := hw
        · exact .inl hw
        · exact .inr ⟨rfl, rfl⟩
      · simp only [Function.update_of_ne hne] at hw
        exact .inl hw
  | recvGot _ _ hd =>
    cases Endpoint.decideRecv_case hd with
    | got _ _ _ hs => exact .inl (key (by simp [hs]) hw)
  | recvWakeSender _ _ hd =>
    cases Endpoint.decideRecv_case hd with
    | wakeSender _ _ hs => exact .inl (key (fun w h => hs ▸ List.mem_cons_of_mem _ h) hw)
  | recvBlock _ _ hd | recvBlockUntil _ _ hd =>
    cases Endpoint.decideRecv_case hd with
    | block _ _ hs => exact .inl (key (fun w h => hs ▸ h) hw)
  | @irqJob _ job | @taskJob _ job => cases job <;> exact .inl hw
  | _ => exact .inl hw

/-- A message that has been accepted does not come to wait with a sender. -/
theorem Step.not_queued (hs : Step k e k') (hnum : p.num < k.sends) (h : k.queued p = false) :
    k'.queued p = false := by
  rw [Bool.eq_false_iff, Ne, queued_iff] at h ⊢
  rintro ⟨w, hw, rfl⟩
  obtain hw | ⟨hn, -⟩ := hs.senders hw
  · exact h ⟨w, hw, rfl⟩
  · exact absurd hnum (by omega)

/-! ### Sends under way -/

/-- A send that only has jobs left to do deposited its message, or handed it over. -/
theorem Step.finishing (hs : Step k e k') {todo : List Job} (h : k'.pc t = .jobs todo (.sent p)) :
    (∃ todo, k.pc t = .jobs todo (.sent p)) ∨ p.num = k.sends ∧ k'.sends = k.sends + 1 ∧
      (k'.endpoint p.ep).senders = (k.endpoint p.ep).senders := by
  cases hs with
  | tick | wakeExpired | irq | allocate | create | bindNotify | bindFail | dispatch | preempt
  | callFail | sleepPast | notifyOnExit => exact .inl ⟨_, h⟩
  | irqJob => exact .inl ⟨_, by simpa using h⟩
  | spawn | callSend | callRecv | callWait | callSleep | callSignal | callExit | sendBlock
  | sendFail | recvGot | recvWakeSender | recvBlock | recvBlockUntil | recvFail | waitTaken
  | waitPast | waitRegister | waitCheckPast | waitCheckAgain | blockUntilPast | blockUntilPark
  | park | resumeSent | resumeMessage | resumePanic | resumeTimeout | resumeTaken | resumeSlept
  | cancel | ret | retSent | exit => exact .inl ⟨_, of_update h (by simp)⟩
  | resumeAgain _ _ _ hq =>
    refine .inl ⟨_, of_update h ?_⟩
    obtain ⟨-, rfl⟩ | ⟨d, -, rfl⟩ := hq <;> simp
  | @taskJob t₀ job rest f _ hpc =>
    rcases eq_or_ne t t₀ with rfl | ht
    · obtain ⟨-, rfl⟩ := Pc.jobs.inj ((Function.update_self ..).symm.trans h)
      exact .inl ⟨_, hpc⟩
    · exact .inl ⟨_, (Function.update_of_ne ht ..).symm.trans h⟩
  | @sendDeliver t₀ w ep km mayBlock e' _ hpc hd =>
    rcases eq_or_ne t t₀ with rfl | ht
    · obtain ⟨-, hp⟩ := Pc.jobs.inj ((Function.update_self ..).symm.trans h)
      obtain rfl := Finish.sent.inj hp
      cases Endpoint.decideSend_case hd with
      | deliver _ _ hs => exact .inr ⟨rfl, rfl, by simpa using hs⟩
    · exact .inl ⟨_, (Function.update_of_ne ht ..).symm.trans h⟩
  | @sendBuffered t₀ ep km mayBlock e' _ hpc hd =>
    rcases eq_or_ne t t₀ with rfl | ht
    · obtain ⟨-, hp⟩ := Pc.jobs.inj ((Function.update_self ..).symm.trans h)
      obtain rfl := Finish.sent.inj hp
      cases Endpoint.decideSend_case hd with
      | buffered _ _ _ hs => exact .inr ⟨rfl, rfl, by simpa using hs⟩
    · exact .inl ⟨_, (Function.update_of_ne ht ..).symm.trans h⟩

/-- A send that waits has been accepted. -/
theorem Step.waitsSent (hs : Step k e k') (h : (k'.pc t).reason = some (.sent p)) :
    (k.pc t).reason = some (.sent p) ∨ p.num = k.sends ∧ k'.sends = k.sends + 1 := by
  cases hs.task t with
  | sendBlock _ _ _ _ hpc _ hsends =>
    rw [hpc] at h
    obtain rfl := Resume.sent.inj (Option.some.inj h)
    exact .inr ⟨rfl, hsends⟩
  | frame hpc | dispatch _ hpc | preempt _ _ hpc | expire _ _ hpc => exact .inl (hpc ▸ h)
  | unblock _ _ hk | deliver _ _ hk => exact .inl (hk.reason ▸ h)
  | goes _ _ hq => simp [hq] at h
  | past _ hfrom hpc | prepare _ hfrom _ hpc | park _ _ hfrom hpc =>
    rw [hpc] at h
    exact .inl (by rw [hfrom]; exact h)
  | recvBlock _ _ _ _ hpc | recvBlockUntil _ _ hpc | register _ _ hpc | sleep _ _ _ _ _ hpc
  | take _ _ _ _ hpc | exit _ _ hpc | spawn _ hpc => simp [hpc, Pc.reason] at h

/-- Where a send that returned success is recorded. -/
theorem Step.sent (hs : Step k e k') (h : .sent t p ∈ k'.log) :
    .sent t p ∈ k.log ∨ k.pc t = .resume (.sent p) ∧ (k.task t).state = .running ∨
      k.pc t = .jobs [] (.sent p) := by
  refine (hs.recorded h).imp id fun hnew => ?_
  cases hnew with
  | unblocked hrun hpc => exact .inl ⟨hpc, hrun⟩
  | sent hpc => exact .inr hpc

/-- Every send that has decided is of a message that was accepted, and one that has not blocked
left nothing in the queue. -/
structure SendInv (k : Kernel) : Prop where
  senders : ∀ ep, ∀ w ∈ (k.endpoint ep).senders, w.2.num < k.sends
  waits : ∀ t p, (k.pc t).reason = some (.sent p) → p.num < k.sends
  finishing : ∀ t todo p, k.pc t = .jobs todo (.sent p) → p.num < k.sends ∧ k.queued p = false

theorem SendInv.step (h : k.SendInv) (hs : Step k e k') : k'.SendInv := by
  have hle := hs.sends_le
  refine ⟨fun ep w hw => ?_, fun t p hp => ?_, fun t todo p hp => ?_⟩
  · obtain hw | ⟨hn, hsends⟩ := hs.senders hw
    · exact (h.senders ep w hw).trans_le hle
    · omega
  · obtain hp | ⟨hn, hsends⟩ := hs.waitsSent hp
    · exact (h.waits t p hp).trans_le hle
    · omega
  · obtain ⟨todo, hp⟩ | ⟨hn, hsends, hq⟩ := hs.finishing hp
    · obtain ⟨hn, hq⟩ := h.finishing t todo p hp
      exact ⟨hn.trans_le hle, hs.not_queued hn hq⟩
    · refine ⟨by omega, ?_⟩
      rw [Bool.eq_false_iff, Ne, queued_iff, hq]
      rintro ⟨w, hw, rfl⟩
      exact absurd (h.senders _ w hw) (by omega)

theorem sendInv_of_reach {ok : Kernel → Event → Prop} (h : waiting.Reach ok k) : k.SendInv :=
  waiting_invariant (I := SendInv)
    (fun _ => ⟨by simp [boot, Endpoint.senders, Endpoint.new], by simp [boot, Pc.reason],
      by simp [boot]⟩)
    (fun _ _ _ hi _ hs => hi.step hs) h

end Kernel

open Kernel

theorem sendRule : WakeRule (fun k e => k.sendUndisturbed e = true) (∃ p, · = .sent p)
    fun k _ r => ∀ p, r = .sent p → k.queued p = false where
  untimed r := by
    rintro ⟨p, rfl⟩
    rfl
  entry k e k' t s r hr hK hok hs hnone hpc hw := by
    obtain ⟨p, rfl⟩ := hK
    cases hs.entered hnone hpc with
    | @send ep km mayBlock ep' he hfrom hd =>
      cases Endpoint.decideSend_case hd with
      | block hrec _ _ hfull hsend hmay =>
        have hroom : (k.endpoint ep).senders.length < maxWaiters := by
          have := ep'.length_senders_le
          rw [hsend, List.length_append, List.length_singleton] at this
          omega
        subst he hmay
        simp [sendUndisturbed, hfrom, hw, hrec, hfull, hroom] at hok
  unblock k e k' a t rest r hr hK hok hs he hj hre _ := by
    rintro p rfl
    subst he
    simp only [sendUndisturbed, firstJob_event hj, hre, Bool.and_eq_true] at hok
    exact hs.not_queued ((sendInv_of_reach hr).waits t p hre) (by simpa using hok.2)
  deliver k e k' a t p rest r hr hK hok hs he hj hre _ _ := by
    rintro p rfl
    subst he
    simp only [sendUndisturbed, firstJob_event hj, hre, Bool.and_eq_true] at hok
    exact hs.not_queued ((sendInv_of_reach hr).waits t p hre) (by simpa using hok.2)
  expire k k' t u now r _ hK _ _ _ _ hfit := by
    obtain ⟨p, rfl⟩ := hK
    cases hfit
  stable k e k' t r hr _ hs hre _ ho := by
    rintro p rfl
    exact hs.not_queued ((sendInv_of_reach hr).waits t p hre) (ho p rfl)

/-- **Undisturbed sends complete.** In every run no event of which disturbs a blocked send, a send
that has returned success has no entry left in the queue of blocked senders. -/
theorem sends_complete_of_undisturbed {k : Kernel}
    (h : waiting.Reach (fun k e => k.sendUndisturbed e = true) k) : k.SendsComplete := by
  have key : ∀ t p, .sent t p ∈ k.log → p.num < k.sends ∧ k.queued p = false := by
    refine waiting_invariant_of (J := fun k => k.SendInv ∧ ∀ t p, k.Freed t (.sent p) →
      k.queued p = false) (I := fun k => ∀ t p, .sent t p ∈ k.log → p.num < k.sends ∧
      k.queued p = false) (fun k hk => ⟨sendInv_of_reach hk, fun t p hf =>
        sendRule.over_of_freed hk t _ ⟨p, rfl⟩ hf p rfl⟩) (fun _ t p hm => by cases hm) ?_ h
    rintro k e k' ⟨hinv, hover⟩ hI _ hs t p hm
    obtain ⟨hn, hq⟩ : p.num < k.sends ∧ k.queued p = false := by
      obtain hm | ⟨hpc, hrun⟩ | hpc := hs.sent hm
      · exact hI t p hm
      · exact ⟨hinv.waits t p (by rw [hpc]; rfl), hover t p (.inr ⟨hpc, by rw [hrun]; rfl⟩)⟩
      · exact hinv.finishing t [] p hpc
    exact ⟨hn.trans_le hs.sends_le, hs.not_queued hn hq⟩
  rintro t p hm w hw rfl
  exact absurd (queued_iff.mpr ⟨w, hw, rfl⟩) (by simp [(key t w.2 hm).2])

/-- A send that blocks until a receiver has drained the ring, from boot to its return. -/
theorem sends_complete_of_undisturbed_run : ∃ k,
    waiting.runIf sendUndisturbed (.boot none)
      [.spawn, .spawn, .allocate, .dispatch 0, .dispatch 1, .call 0 (.send 0 .empty), .step 0,
        .step 0, .call 0 (.send 0 .empty), .step 0, .step 0, .call 0 (.send 0 .empty), .step 0,
        .step 0, .call 1 (.recv 0), .step 1, .step 1, .dispatch 0, .step 0] = some k ∧
      .sent 0 ⟨2, 0, .empty⟩ ∈ k.log ∧ k.SendsComplete := by
  obtain ⟨k, hrun, hlog⟩ : ∃ k, waiting.runIf sendUndisturbed (.boot none)
      [.spawn, .spawn, .allocate, .dispatch 0, .dispatch 1, .call 0 (.send 0 .empty), .step 0,
        .step 0, .call 0 (.send 0 .empty), .step 0, .step 0, .call 0 (.send 0 .empty), .step 0,
        .step 0, .call 1 (.recv 0), .step 1, .step 1, .dispatch 0, .step 0] = some k ∧
      .sent 0 ⟨2, 0, .empty⟩ ∈ k.log := ⟨_, rfl, by decide⟩
  exact ⟨k, hrun, hlog, sends_complete_of_undisturbed
    (.of_runIf (fun _ _ _ h => h) (.init ⟨_, rfl⟩) hrun)⟩

/-- **A blocked send can return early.** A task is left with a wake-up recorded, as in
`sleep_cut_short`, and makes three sends on an endpoint nobody receives from. The third finds the
ring full, queues its message, and returns success at once. -/
theorem send_returns_early : ¬ ∀ k, waiting.Reachable k → k.SendsComplete := by
  obtain ⟨k, hr, hm, hw⟩ : ∃ k, waiting.Reachable k ∧ .sent 0 ⟨2, 0, .empty⟩ ∈ k.log ∧
      (0, ⟨2, 0, .empty⟩) ∈ (k.endpoint 0).senders :=
    ⟨_, .of_run [.spawn, .allocate, .create, .create, .dispatch 0, .call 0 (.waitAny [0, 1] none),
      .step 0, .step 0, .step 0, .irq 0 0, .irq 1 1, .irqJob 0, .irqJob 1, .irqJob 0, .dispatch 0,
      .step 0, .irqJob 1, .call 0 (.send 0 .empty), .step 0, .step 0, .call 0 (.send 0 .empty),
      .step 0, .step 0, .call 0 (.send 0 .empty), .step 0, .step 0, .step 0] ⟨none, rfl⟩ rfl,
      by decide, by decide⟩
  exact fun h => h k hr 0 _ hm _ hw rfl

end StarOS
