import StarOS.Wait.Signals

/-!
# Readiness is not missed

A program that serves an endpoint along with other things does not block in a receive. It binds a
notification to the endpoint, and in each round asks `EndpointPending` first and waits on the
notification where that answers zero. The message it waits for may come from a send that buffers,
or from somebody else's receive, which moves a blocked sender's message into the ring; either way
the signal is sent after the endpoint's lock was dropped, and one signal may stand for many
messages. The invariant is that from the answer on, through the wait, whatever the ring holds is
announced: counted in the notification, or with a signal in flight.

## Main definitions

* `Poller`, `Polling`, `polling` — the machine with one program's rounds beside it
* `Poller.InRounds` — that program keeps to its rounds, and nobody else waits with it
* `Poller.Missed` — it sleeps through a message
* `Kernel.Announced` — the invariant

## Main results

* `no_missed_readiness`
-/

namespace StarOS

/-- The notifications a call waits for. -/
def Call.waitsFor : Call → List ℕ
  | .wait id => [id]
  | .waitAny ids _ => ids
  | _ => []

namespace Kernel

variable {k k' : Kernel} {e : Event} {t : TaskId} {ep id : ℕ}

/-- Whatever the ring of `ep` holds is announced by notification `id`: a signal is pending there,
or in flight. -/
def Announced (k : Kernel) (ep id : ℕ) : Prop :=
  (k.endpoint ep).msgs = [] ∨ (k.notify.slot id).pending ≠ 0 ∨ ∃ a, .signal id ∈ k.jobsOf a

/-- Endpoint `ep` exists and is bound to notification `id`, which is in use. -/
structure Bound (k : Kernel) (ep id : ℕ) : Prop where
  lt : ep < k.neps
  allocated : (k.endpoint ep).allocated = true
  notify : (k.endpoint ep).notify = some id
  used : (k.notify.slot id).used = true

/-- A call waits for what it names. -/
theorem waitIds_call {c : Call} (h : k.next (.call t c) = some k')
    (hid : id ∈ (k'.pc t).waitIds) : id ∈ c.waitsFor := by
  simp only [next, Option.ite_none_right_eq_some] at h
  obtain ⟨⟨-, hpc⟩, h⟩ := h
  cases c with
  | send | sendNowait | recv | recvUntil =>
    obtain rfl := Option.some.inj h
    split at hid
    · simp [goto, Pc.waitIds, Pc.reason] at hid
    · simp [hpc, Pc.waitIds, Pc.reason] at hid
  | wait | waitAny =>
    simp only [call, Option.ite_none_right_eq_some] at h
    obtain rfl := Option.some.inj h.2
    simpa [goto, Pc.waitIds, Call.waitsFor] using hid
  | sleepUntil d =>
    rw [call] at h
    split at h
    · obtain rfl := Option.some.inj h
      simp [hpc, Pc.waitIds, Pc.reason] at hid
    · split at h
      · obtain rfl := Option.some.inj h
        simp [hpc, Pc.waitIds, Pc.reason] at hid
      · obtain rfl := Option.some.inj h
        simp [goto, Pc.waitIds, Pc.reason] at hid
  | notifySignal | exit =>
    obtain rfl := Option.some.inj h
    simp [goto, Pc.waitIds, Pc.reason] at hid
  | notifyOnExit =>
    obtain rfl := Option.some.inj h
    simp [hpc, Pc.waitIds, Pc.reason] at hid

/-! ### What a step does to a binding -/

/-- A binding stays until somebody binds anew. -/
theorem Bound.step (h : k.Bound ep id) (hs : Step k e k')
    (hlen : ∀ i, k.notify.len ≤ i → (k.notify.slot i).used = false)
    (hbind : ∀ notif, e = .bindNotify ep notif → notif = some id) : k'.Bound ep id := by
  have hused := hs.used hlen h.used
  have hupdate : ∀ {ep₀ : ℕ} {x : Endpoint Parcel}, x.allocated = (k.endpoint ep₀).allocated →
      x.notify = (k.endpoint ep₀).notify →
      (Function.update k.endpoint ep₀ x ep).allocated = true ∧
        (Function.update k.endpoint ep₀ x ep).notify = some id := by
    intro ep₀ x ha hn
    rcases eq_or_ne ep ep₀ with rfl | hne
    · rw [Function.update_self, ha, hn]
      exact ⟨h.allocated, h.notify⟩
    · rw [Function.update_of_ne hne]
      exact ⟨h.allocated, h.notify⟩
  cases hs with
  | sendDeliver _ _ hd | sendBuffered _ _ hd | sendBlock _ _ hd =>
    obtain ⟨ha, hn⟩ := hupdate (Endpoint.kept_decideSend hd).1 (Endpoint.kept_decideSend hd).2
    exact ⟨h.lt, ha, hn, hused⟩
  | recvGot _ _ hd | recvWakeSender _ _ hd | recvBlock _ _ hd | recvBlockUntil _ _ hd =>
    obtain ⟨ha, hn⟩ := hupdate (Endpoint.kept_decideRecv hd).1 (Endpoint.kept_decideRecv hd).2
    exact ⟨h.lt, ha, hn, hused⟩
  | @cancel t ep₀ =>
    obtain ⟨ha, hn⟩ := hupdate (x := (k.endpoint ep₀).cancelRecvWaiter t) rfl rfl
    exact ⟨h.lt, ha, hn, hused⟩
  | @allocate ep₀ n hfree =>
    -- the slot taken is not the one bound
    have hne : ep ≠ ep₀ := by
      rintro rfl
      obtain ⟨ha, -, -⟩ | ⟨rfl, -⟩ := hfree
      · exact absurd (h.allocated.symm.trans ha) (by simp)
      · exact Nat.lt_irrefl _ h.lt
    have hle : k.neps ≤ n := by
      obtain ⟨-, -, rfl⟩ | ⟨-, rfl⟩ := hfree
      · exact Nat.le_refl _
      · exact Nat.le_succ _
    refine ⟨Nat.lt_of_lt_of_le h.lt hle, ?_, ?_, hused⟩
    · simpa [hne] using h.allocated
    · simpa [hne] using h.notify
  | @bindNotify ep₀ notif _ =>
    rcases eq_or_ne ep ep₀ with rfl | hne
    · obtain rfl := hbind notif rfl
      exact ⟨h.lt, by simpa using h.allocated, by simp, hused⟩
    · exact ⟨h.lt, by simpa [hne] using h.allocated, by simpa [hne] using h.notify, hused⟩
  | @irqJob _ job | @taskJob _ job => cases job <;> exact ⟨h.lt, h.allocated, h.notify, hused⟩
  | _ => exact ⟨h.lt, h.allocated, h.notify, hused⟩

/-- A message that arrives in an empty ring leaves a signal in flight: it was buffered by a send,
or moved there by a receive. -/
theorem Bound.arrives (h : k.Bound ep id) (hs : Step k e k') (hm : (k.endpoint ep).msgs = []) :
    (k'.endpoint ep).msgs = [] ∨ ∃ a, .signal id ∈ k'.jobsOf a := by
  have hupdate : ∀ {ep₀ : ℕ} {x : Endpoint Parcel}, ((k.endpoint ep₀).msgs = [] → x.msgs = []) →
      (Function.update k.endpoint ep₀ x ep).msgs = [] := by
    intro ep₀ x hx
    rcases eq_or_ne ep ep₀ with rfl | hne
    · rw [Function.update_self]
      exact hx hm
    · rwa [Function.update_of_ne hne]
  have hsignal : ∀ {t : TaskId} {ep₀ : ℕ} {f : Finish} (rest : List Job), ep = ep₀ →
      .signal id ∈
        (Function.update k.pc t (.jobs (bound (k.endpoint ep₀).notify ++ rest) f) t).todo := by
    rintro t _ f rest rfl
    rw [Function.update_self, h.notify]
    exact List.mem_cons_self ..
  cases hs with
  | sendDeliver _ _ hd =>
    refine .inl (hupdate fun hm => ?_)
    cases Endpoint.decideSend_case hd with
    | deliver _ hm' _ => exact hm'.trans hm
  | @sendBuffered t ep₀ km mayBlock _ _ _ hd =>
    by_cases heq : ep = ep₀
    · refine .inr ⟨.task t, ?_⟩
      have hmem := hsignal (t := t) (f := .sent ⟨k.sends, ep₀, km⟩) [] heq
      rwa [List.append_nil] at hmem
    · refine .inl ?_
      simpa [heq] using hm
  | sendBlock _ _ hd =>
    refine .inl (hupdate fun hm => ?_)
    cases Endpoint.decideSend_case hd with
    | block _ _ hm' _ _ _ => exact hm'.trans hm
  | recvGot _ _ hd =>
    refine .inl (hupdate fun hm => ?_)
    cases Endpoint.decideRecv_case hd with
    | got hm' _ _ _ => rw [hm] at hm'; cases hm'
  | @recvWakeSender t _ ep₀ _ _ _ _ _ hd =>
    by_cases heq : ep = ep₀
    · exact .inr ⟨.task t, hsignal _ heq⟩
    · refine .inl ?_
      simpa [heq] using hm
  | recvBlock _ _ hd | recvBlockUntil _ _ hd =>
    refine .inl (hupdate fun hm => ?_)
    cases Endpoint.decideRecv_case hd with
    | block _ hm' _ _ => exact hm'
  | cancel => exact .inl (hupdate fun hm => hm)
  | allocate => exact .inl (hupdate fun _ => rfl)
  | bindNotify => exact .inl (hupdate fun hm => hm)
  | irqJob | taskJob =>
    refine .inl ?_
    simpa using hm
  | _ => exact .inl hm

/-- Pending signals stay until a task that waits for them takes one. -/
theorem Step.pending_kept (hs : Step k e k')
    (hlen : ∀ i, k.notify.len ≤ i → (k.notify.slot i).used = false)
    (hu : (k.notify.slot id).used = true) (hp : (k.notify.slot id).pending ≠ 0) :
    (k'.notify.slot id).pending ≠ 0 ∨ ∃ t, id ∈ (k.pc t).waitIds ∧ k'.pc t = .user := by
  have hrunJob : ∀ job : Job, ((k.runJob job).1.notify.slot id).pending ≠ 0 := by
    intro job
    cases job with
    | unblock | deliver => exact hp
    | signal id₀ =>
      simp only [runJob, Notifications.signal]
      split
      · rcases eq_or_ne id id₀ with rfl | hne
        · simp [Notification.signal, u32Max]
        · simpa [hne] using hp
      · exact hp
  have hready : ∀ {m m' : Notifications} {ids : List ℕ} {index id₀ : ℕ},
      (m.slot id).pending ≠ 0 → m.consumeReady ids = some (index, id₀, m') →
      (m'.slot id).pending ≠ 0 ∨ id ∈ ids := by
    intro m m' ids index id₀ hm hc
    obtain ⟨hget, -, -, rfl⟩ := Notifications.consumeReady_eq_some hc
    rcases eq_or_ne id id₀ with rfl | hne
    · exact .inr (List.mem_of_getElem? hget)
    · exact .inl (by simpa [hne] using hm)
  cases hs with
  | irqJob | taskJob => exact .inl (hrunJob _)
  | create hc =>
    obtain ⟨hu₀, hslot, -⟩ := Notifications.create_eq hlen hc
    refine .inl ?_
    simp only [hslot]
    rw [Function.update_of_ne]
    · exact hp
    · rintro rfl
      exact absurd (hu.symm.trans hu₀) (by simp)
  | @waitTaken t₀ _ _ _ _ _ _ hpc hc =>
    refine (hready hp hc).imp (fun h => h) fun hid => ⟨t₀, ?_, Function.update_self ..⟩
    rw [hpc]
    exact hid
  | @resumeTaken t₀ _ _ _ _ _ _ hpc hc =>
    refine (hready (by simpa using hp) hc).imp (fun h => h) fun hid =>
      ⟨t₀, ?_, Function.update_self ..⟩
    rw [hpc]
    exact hid
  | waitRegister | resumeAgain => exact .inl (by simpa using hp)
  | _ => exact .inl hp

/-- What is announced stays announced, until a task that waits for the notification comes out of
its wait. -/
theorem Announced.step (h : k.Announced ep id) (hb : k.Bound ep id) (hs : Step k e k')
    (hsh : k.Shape) (hlen : ∀ i, k.notify.len ≤ i → (k.notify.slot i).used = false) :
    k'.Announced ep id ∨ ∃ t, id ∈ (k.pc t).waitIds ∧ k'.pc t = .user := by
  obtain hm | hp | ⟨a, ha⟩ := h
  · obtain hm' | ha := hb.arrives hs hm
    · exact .inl (.inl hm')
    · exact .inl (.inr (.inr ha))
  · exact (hs.pending_kept hlen hb.used hp).imp (fun hp' => .inr (.inl hp')) fun ht => ht
  · obtain hkept | ⟨rfl, rest, hj⟩ := hs.jobs_kept hsh.unborn ha
    · exact .inl (.inr (.inr ⟨a, hkept⟩))
    · -- the signal is sent, and counted
      refine .inl (.inr (.inl ?_))
      rw [(hs.job_done hj).2.1, runJob]
      simp [Notifications.signal, hb.used, Notification.signal, u32Max]

theorem notify_len_of_reach {ok : Kernel → Event → Prop} (h : waiting.Reach ok k) :
    ∀ i, k.notify.len ≤ i → (k.notify.slot i).used = false :=
  waiting_invariant (I := fun k => ∀ i, k.notify.len ≤ i → (k.notify.slot i).used = false)
    (fun _ _ _ => rfl) (fun _ _ _ hlen _ hs => hs.notify_len hlen) h

end Kernel

/-! ### A program that polls -/

/-- A task that serves an endpoint, and the notification bound to it. -/
structure Poller where
  task : TaskId
  ep : ℕ
  notif : ℕ

/-- The machine, and what the poller knows. -/
structure Polling where
  kernel : Kernel
  /-- In this round, the poller's last check answered that nothing is buffered. -/
  checked : Bool

inductive PollEvent
  | kernel (e : Event)
  /-- The poller, in user mode, makes the `EndpointPending` call. -/
  | pending
  deriving DecidableEq, Repr

namespace Poller

variable {p : Poller} {s s' : Polling} {e : PollEvent}

/-- Whether an event is the poller's call that waits for its notification. -/
def waits (p : Poller) : Event → Bool
  | .call t c => t == p.task && c.waitsFor.contains p.notif
  | _ => false

/-- The effect of an event. A round ends with the wait. -/
def next (p : Poller) (s : Polling) : PollEvent → Option Polling
  | .kernel e => (s.kernel.next e).map fun k => ⟨k, s.checked && !p.waits e⟩
  | .pending =>
    if (s.kernel.task p.task).state = .running ∧ s.kernel.pc p.task = .user then
      some { s with checked := decide ((s.kernel.endpoint p.ep).pending = 0) }
    else none

/-- The endpoint stays bound, nobody else waits for the notification, and the poller waits for it
only in a round in which it was answered that nothing is buffered. -/
structure InRounds (p : Poller) (s : Polling) (e : PollEvent) : Prop where
  bound : ∀ notif, e = .kernel (.bindNotify p.ep notif) → notif = some p.notif
  alone : ∀ t, p.notif ∈ (s.kernel.pc t).waitIds → t = p.task
  round : ∀ e₀, e = .kernel e₀ → p.waits e₀ = true → s.checked = true

/-- `InRounds`, checked on the tasks there are. -/
def inRounds (p : Poller) (s : Polling) (e : PollEvent) : Bool :=
  (match e with
    | .kernel (.bindNotify ep notif) => ep != p.ep || notif == some p.notif
    | .kernel e₀ => !p.waits e₀ || s.checked
    | .pending => true) &&
  (List.range s.kernel.ntasks).all fun t =>
    t == p.task || !(s.kernel.pc t).waitIds.contains p.notif

theorem InRounds.of_inRounds (hsh : s.kernel.Shape) (h : p.inRounds s e = true) :
    p.InRounds s e := by
  simp only [inRounds, Bool.and_eq_true] at h
  refine ⟨?_, fun t ht => ?_, ?_⟩
  · rintro notif rfl
    simpa using h.1
  · have hborn : t < s.kernel.ntasks := by
      by_contra hle
      rw [hsh.unborn t (Nat.not_lt.mp hle)] at ht
      cases ht
    have := List.all_eq_true.mp h.2 t (List.mem_range.mpr hborn)
    simpa [ht] using this
  · rintro e₀ rfl hw
    cases e₀ <;> first | simpa [hw] using h.1 | simp [waits] at hw

/-- The poller is parked in its wait while the ring of its endpoint holds a message, no signal is
pending, and none is in flight. -/
structure Missed (p : Poller) (k : Kernel) : Prop where
  waiting : p.notif ∈ (k.pc p.task).waitIds
  parked : (k.task p.task).state.parked = true
  ring : (k.endpoint p.ep).pending ≠ 0
  pending : (k.notify.slot p.notif).pending = 0
  signals : ∀ a, .signal p.notif ∉ k.jobsOf a

end Poller

/-- The machine with a poller beside it, from any state on in which its endpoint is bound and
nobody waits for the notification yet. -/
def polling (p : Poller) : EventSystem Polling PollEvent where
  init s := waiting.Reachable s.kernel ∧ s.kernel.Bound p.ep p.notif ∧
    (∀ t, p.notif ∉ (s.kernel.pc t).waitIds) ∧ s.checked = false
  next := p.next

namespace Poller

variable {p : Poller} {s s' : Polling} {e : PollEvent}

/-- The poller's check changes nothing in the kernel. -/
theorem reachable {ok : Polling → PollEvent → Prop} (h : (polling p).Reach ok s) :
    waiting.Reachable s.kernel := by
  refine h.simulate Polling.kernel (fun s (hs : (polling p).init s) => hs.1) ?_
  intro s e s' _ _ hn hr
  cases e with
  | kernel e =>
    obtain ⟨k, hk, rfl⟩ := Option.map_eq_some_iff.mp hn
    exact hr.step trivial hk
  | pending =>
    simp only [polling, next, Option.ite_none_right_eq_some] at hn
    exact Option.some.inj hn.2 ▸ hr

/-- Once it was answered that nothing is buffered, and until its wait is over, the poller is told
of whatever comes. -/
structure Told (p : Poller) (s : Polling) : Prop where
  bound : s.kernel.Bound p.ep p.notif
  asked : p.notif ∈ (s.kernel.pc p.task).waitIds → s.checked = false
  announced : s.checked = true ∨ p.notif ∈ (s.kernel.pc p.task).waitIds →
    s.kernel.Announced p.ep p.notif

theorem Told.kernel {e : Event} {k' : Kernel} (h : p.Told s) (hr : waiting.Reachable s.kernel)
    (hok : p.InRounds s (.kernel e)) (hn : s.kernel.next e = some k') :
    p.Told ⟨k', s.checked && !p.waits e⟩ := by
  have hs := Kernel.Step.of_next hn
  have hsh := Kernel.shape_of_reach hr
  have hlen := Kernel.notify_len_of_reach hr
  -- a wait that is new was started by the poller's call
  have hnew : p.notif ∈ (k'.pc p.task).waitIds →
      p.notif ∈ (s.kernel.pc p.task).waitIds ∨ p.waits e = true := by
    intro hid
    obtain hid' | ⟨⟨c, rfl⟩, -⟩ := hs.waitIds hid
    · exact .inl hid'
    · exact .inr (by simpa [waits] using Kernel.waitIds_call hn hid)
  have hchecked : (s.checked && !p.waits e) = true → s.checked = true := fun hc =>
    (Bool.and_eq_true _ _ ▸ hc).1
  refine ⟨h.bound.step hs hlen fun notif he => hok.bound notif (he ▸ rfl), fun hid => ?_,
    fun hc => ?_⟩
  · obtain hid' | hw := hnew hid
    · rw [h.asked hid', Bool.false_and]
    · rw [hw, Bool.not_true, Bool.and_false]
  · have hann : s.kernel.Announced p.ep p.notif := by
      obtain hc | hid := hc
      · exact h.announced (.inl (hchecked hc))
      · obtain hid' | hw := hnew hid
        · exact h.announced (.inr hid')
        · exact h.announced (.inl (hok.round e rfl hw))
    obtain hann' | ⟨t, hid, huser⟩ := hann.step h.bound hs hsh hlen
    · exact hann'
    · -- the poller came out of its wait, and has yet to ask again
      obtain rfl := hok.alone t hid
      have hfalse := h.asked hid
      obtain hc | hid' := hc
      · exact absurd (hfalse.symm.trans (hchecked hc)) (by simp)
      · simp only [huser] at hid'
        cases hid'

theorem Told.next (h : p.Told s) (hr : waiting.Reachable s.kernel) (hok : p.InRounds s e)
    (hn : p.next s e = some s') : p.Told s' := by
  cases e with
  | kernel e =>
    obtain ⟨k', hk, rfl⟩ := Option.map_eq_some_iff.mp hn
    exact h.kernel hr hok hk
  | pending =>
    simp only [Poller.next, Option.ite_none_right_eq_some] at hn
    obtain ⟨⟨-, hpc⟩, hn⟩ := hn
    obtain rfl := Option.some.inj hn
    have hnot : p.notif ∉ (s.kernel.pc p.task).waitIds := by
      rw [hpc]
      simp [Pc.waitIds, Pc.reason]
    refine ⟨h.bound, fun hid => absurd hid hnot, fun hc => ?_⟩
    obtain hc | hid := hc
    · exact .inl (Endpoint.pending_eq_zero.mp (of_decide_eq_true hc))
    · exact absurd hid hnot

end Poller

/-- **No missed readiness**: in every run in which the poller keeps to its rounds and nobody else
waits for its notification, it is never parked in its wait while the ring of its endpoint holds a
message, no signal is pending, and none is in flight. -/
theorem no_missed_readiness {p : Poller} {s : Polling} (h : (polling p).Reach p.InRounds s) :
    ¬ p.Missed s.kernel := by
  rintro ⟨hid, -, hring, hpending, hnone⟩
  have htold : p.Told s := by
    refine h.invariant_of (J := fun s => waiting.Reachable s.kernel) (fun s => Poller.reachable)
      (fun s ⟨_, hb, hnot, hc⟩ => ?_) fun s e s' hr ht hok hn => ht.next hr hok hn
    refine ⟨hb, fun hid => absurd hid (hnot _), fun hw => ?_⟩
    obtain hw | hid := hw
    · exact absurd (hc.symm.trans hw) (by simp)
    · exact absurd hid (hnot _)
  obtain hm | hp | ⟨a, ha⟩ := htold.announced (.inr hid)
  · exact hring (Endpoint.pending_eq_zero.mpr hm)
  · exact hp hpending
  · exact hnone a ha

/-- A poller that was answered zero parks, and a send then buffers its message and has yet to
signal: the message is not missed. -/
theorem no_missed_readiness_run : ∃ k s,
    waiting.run (.boot none) [.spawn, .spawn, .create, .allocate, .bindNotify 0 (some 0),
      .dispatch 0, .dispatch 1] = some k ∧
    (polling ⟨0, 0, 0⟩).runIf (Poller.inRounds ⟨0, 0, 0⟩) ⟨k, false⟩
      [.pending, .kernel (.call 0 (.wait 0)), .kernel (.step 0), .kernel (.step 0),
        .kernel (.step 0), .kernel (.call 1 (.sendNowait 0 .empty)), .kernel (.step 1)] = some s ∧
    (s.kernel.task 0).state.parked = true ∧ (s.kernel.endpoint 0).pending = 1 ∧
    (s.kernel.notify.slot 0).pending = 0 ∧ ¬ Poller.Missed ⟨0, 0, 0⟩ s.kernel := by
  obtain ⟨k, s, hk, hs, hb, hidle, hparked, hring, hpending⟩ : ∃ k s,
      waiting.run (.boot none) [.spawn, .spawn, .create, .allocate, .bindNotify 0 (some 0),
        .dispatch 0, .dispatch 1] = some k ∧
      (polling ⟨0, 0, 0⟩).runIf (Poller.inRounds ⟨0, 0, 0⟩) ⟨k, false⟩
        [.pending, .kernel (.call 0 (.wait 0)), .kernel (.step 0), .kernel (.step 0),
          .kernel (.step 0), .kernel (.call 1 (.sendNowait 0 .empty)), .kernel (.step 1)] = some s ∧
      k.Bound 0 0 ∧ (∀ t ∈ List.range k.ntasks, 0 ∉ (k.pc t).waitIds) ∧
      (s.kernel.task 0).state.parked = true ∧ (s.kernel.endpoint 0).pending = 1 ∧
      (s.kernel.notify.slot 0).pending = 0 :=
    ⟨_, _, rfl, rfl, ⟨by decide, by decide, by decide, by decide⟩, by decide, by decide, by decide,
      by decide⟩
  have hreach : waiting.Reachable k := EventSystem.Reachable.of_run _ ⟨none, rfl⟩ hk
  have hnot : ∀ t, 0 ∉ (k.pc t).waitIds := by
    intro t
    rcases Nat.lt_or_ge t k.ntasks with hlt | hle
    · exact hidle t (List.mem_range.mpr hlt)
    · rw [(Kernel.shape_of_reach hreach).unborn t hle]
      simp [Pc.waitIds, Pc.reason]
  have hr : (polling ⟨0, 0, 0⟩).Reach (Poller.InRounds ⟨0, 0, 0⟩) s :=
    EventSystem.Reach.of_runIf
      (fun _ _ hr h => .of_inRounds (Kernel.shape_of_reach (Poller.reachable hr)) h)
      (.init ⟨hreach, hb, hnot, rfl⟩) hs
  exact ⟨k, s, hk, hs, hparked, hring, hpending, no_missed_readiness hr⟩

end StarOS
