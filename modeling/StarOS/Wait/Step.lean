import StarOS.Lib.EventSystem
import StarOS.Wait.Machine

/-!
# Everything one event can do

`Step k e k'` lists the ways event `e` can take the machine from `k` to `k'`, each with what it
found on the way. Every invariant of the machine is proved by cases on it, and no proof outside
this file unfolds a critical section.

## Main definitions

* `Kernel.Step`
* `Actor`, `Kernel.jobsOf` — who has wake-ups in flight

## Main results

* `Kernel.Step.of_next` — the list is complete
* `Kernel.Step.recorded` — where a record in the log comes from
* `waiting_invariant` — the invariant rule of the machine
-/

namespace StarOS

/-! ### Who has wake-ups in flight -/

/-- A task in the middle of a call, or a core in the middle of an interrupt. -/
inductive Actor
  | task (t : TaskId)
  | core (c : CpuId)
  deriving DecidableEq, Repr

/-- The event in which an actor does its next job. -/
def Actor.event : Actor → Event
  | .task t => .step t
  | .core c => .irqJob c

/-- The message a call sends. -/
def Call.message : Call → Option KMessage
  | .send _ km | .sendNowait _ km => some km
  | _ => none

/-- The jobs a task has to do. -/
def Pc.todo : Pc → List Job
  | .jobs todo _ => todo
  | _ => []

namespace Kernel

variable {k k' : Kernel} {e : Event}

/-- The jobs an actor has to do. -/
def jobsOf (k : Kernel) : Actor → List Job
  | .task t => (k.pc t).todo
  | .core c => k.irq c

/-- The wake-up an event performs, if it performs one. -/
def firstJob (k : Kernel) : Event → Option Job
  | .step t => (k.jobsOf (.task t)).head?
  | .irqJob c => (k.jobsOf (.core c)).head?
  | _ => none

theorem firstJob_event {a : Actor} {job : Job} {rest : List Job} (h : k.jobsOf a = job :: rest) :
    k.firstJob a.event = some job := by
  cases a <;> simp [Actor.event, firstJob, h]

theorem mem_signalOut {n : Notification} {id : ℕ} {o : Out} (h : o ∈ signalOut n id) :
    o = .signalled id ∨ o = .saturated id := by
  unfold signalOut at h
  split at h
  · split at h <;> simp_all
  · simp at h

/-- What another task's entry was, it was before. -/
theorem of_update {α : Type*} {f : TaskId → α} {t t₀ : TaskId} {x y : α}
    (h : Function.update f t₀ x t = y) (hne : x ≠ y) : f t = y := by
  rcases eq_or_ne t t₀ with rfl | ht
  · exact absurd (by simpa using h) hne
  · rwa [Function.update_of_ne ht] at h

/-! ### The list -/

/-- The ways an event can go. -/
inductive Step (k : Kernel) : Event → Kernel → Prop
  | tick {n now : ℕ} : k.clock = some n → n ≤ now → Step k (.tick now) { k with clock := some now }
  | wakeExpired {now : ℕ} : k.clock = some now →
      Step k .wakeExpired { k with task := fun t => (k.task t).wakeExpired now }
  | irq {c : CpuId} {id : ℕ} : k.irq c = [] →
      Step k (.irq c id) { k with irq := Function.update k.irq c [.signal id] }
  | irqJob {c : CpuId} {job : Job} {rest : List Job} : k.irq c = job :: rest →
      Step k (.irqJob c) { (k.runJob job).1 with
        irq := Function.update k.irq c ((k.runJob job).2 ++ rest) }
  | spawn : Step k .spawn { k with
      ntasks := k.ntasks + 1
      task := Function.update k.task k.ntasks .fresh
      pc := Function.update k.pc k.ntasks .user }
  | allocate {id n : ℕ} :
      ((k.endpoint id).allocated = false ∧ id < k.neps ∧ n = k.neps ∨
        id = k.neps ∧ n = k.neps + 1) →
      Step k .allocate { k with
        neps := n
        endpoint := Function.update k.endpoint id { Endpoint.new .empty with allocated := true } }
  | create {id : ℕ} {notify : Notifications} : k.notify.create = (id, notify) →
      Step k .create { k with notify }
  | bindNotify {ep : ℕ} {notif : Option ℕ} : ep < k.neps →
      Step k (.bindNotify ep notif) { k with
        endpoint := Function.update k.endpoint ep { k.endpoint ep with notify := notif } }
  | dispatch {t : TaskId} : (k.task t).state = .ready →
      Step k (.dispatch t) { k with
        task := Function.update k.task t { k.task t with state := .running } }
  | preempt {t : TaskId} : (k.task t).state = .running → k.pc t = .user →
      Step k (.preempt t) { k with
        task := Function.update k.task t { k.task t with state := .ready } }
  /-- There is no such endpoint. -/
  | bindFail {ep : ℕ} {notif : Option ℕ} : Step k (.bindNotify ep notif) k
  /-- A call that returns an error at once. -/
  | callFail {t : TaskId} {c : Call} : Step k (.call t c) k
  | callSend {t : TaskId} {c : Call} {ep : ℕ} {km : KMessage} {mayBlock : Bool} :
      (k.task t).state = .running → k.pc t = .user → (k.endpoint ep).allocated = true →
      c.message = some km →
      Step k (.call t c) { k with pc := Function.update k.pc t (.send ep km mayBlock) }
  | callRecv {t : TaskId} {c : Call} {ep : ℕ} {deadline : Option ℕ} :
      (k.task t).state = .running → k.pc t = .user → (k.endpoint ep).allocated = true →
      Step k (.call t c) { k with pc := Function.update k.pc t (.recv ep deadline) }
  | callWait {t : TaskId} {c : Call} {ids : List ℕ} {deadline : Option ℕ} :
      (k.task t).state = .running → k.pc t = .user →
      (∀ id ∈ ids, (k.notify.slot id).used = true) →
      Step k (.call t c) { k with pc := Function.update k.pc t (.wait ids deadline) }
  | callSleep {t : TaskId} {d now : ℕ} : (k.task t).state = .running → k.pc t = .user →
      k.clock = some now → now < d →
      Step k (.call t (.sleepUntil d)) { k with
        pc := Function.update k.pc t (.park (.sleeping d) (.slept d)) }
  | sleepPast {t : TaskId} {d now : ℕ} : (k.task t).state = .running → k.pc t = .user →
      k.clock = some now → d ≤ now →
      Step k (.call t (.sleepUntil d)) { k with log := k.log ++ [.slept t d now] }
  | callSignal {t : TaskId} {id : ℕ} : (k.task t).state = .running → k.pc t = .user →
      Step k (.call t (.notifySignal id)) { k with
        pc := Function.update k.pc t (.jobs [.signal id] .ret) }
  | notifyOnExit {t : TaskId} {notif : Option ℕ} : (k.task t).state = .running → k.pc t = .user →
      Step k (.call t (.notifyOnExit notif)) { k with
        deathNotify := Function.update k.deathNotify t notif }
  | callExit {t : TaskId} : (k.task t).state = .running → k.pc t = .user →
      Step k (.call t .exit) { k with
        deathNotify := Function.update k.deathNotify t none
        pc := Function.update k.pc t (.jobs (bound (k.deathNotify t)) .exit) }
  | sendDeliver {t w : TaskId} {ep : ℕ} {km : KMessage} {mayBlock : Bool} {e : Endpoint Parcel} :
      (k.task t).state = .running → k.pc t = .send ep km mayBlock →
      (k.endpoint ep).decideSend t ⟨k.sends, ep, km⟩ mayBlock = (.deliver w, e) →
      Step k (.step t) { k with
        endpoint := Function.update k.endpoint ep e
        sends := k.sends + 1
        log := k.log ++ [.accepted ⟨k.sends, ep, km⟩]
        pc := Function.update k.pc t
          (.jobs (bound (k.endpoint ep).notify ++ [.deliver w ⟨k.sends, ep, km⟩])
            (.sent ⟨k.sends, ep, km⟩)) }
  | sendBuffered {t : TaskId} {ep : ℕ} {km : KMessage} {mayBlock : Bool} {e : Endpoint Parcel} :
      (k.task t).state = .running → k.pc t = .send ep km mayBlock →
      (k.endpoint ep).decideSend t ⟨k.sends, ep, km⟩ mayBlock = (.buffered, e) →
      Step k (.step t) { k with
        endpoint := Function.update k.endpoint ep e
        sends := k.sends + 1
        log := k.log ++ [.accepted ⟨k.sends, ep, km⟩]
        pc := Function.update k.pc t
          (.jobs (bound (k.endpoint ep).notify) (.sent ⟨k.sends, ep, km⟩)) }
  | sendBlock {t : TaskId} {ep : ℕ} {km : KMessage} {mayBlock : Bool} {e : Endpoint Parcel} :
      (k.task t).state = .running → k.pc t = .send ep km mayBlock →
      (k.endpoint ep).decideSend t ⟨k.sends, ep, km⟩ mayBlock = (.block, e) →
      Step k (.step t) { k with
        endpoint := Function.update k.endpoint ep e
        sends := k.sends + 1
        log := k.log ++ [.accepted ⟨k.sends, ep, km⟩]
        pc := Function.update k.pc t (.park .blocked (.sent ⟨k.sends, ep, km⟩)) }
  | sendFail {t : TaskId} {ep : ℕ} {km : KMessage} {mayBlock : Bool} :
      (k.task t).state = .running → k.pc t = .send ep km mayBlock →
      Step k (.step t) { k with pc := Function.update k.pc t .user }
  | recvGot {t : TaskId} {ep : ℕ} {deadline : Option ℕ} {p : Parcel} {e : Endpoint Parcel} :
      (k.task t).state = .running → k.pc t = .recv ep deadline →
      (k.endpoint ep).decideRecv t = (.got p, e) →
      Step k (.step t) { k with
        endpoint := Function.update k.endpoint ep e
        log := k.log ++ [.received t ep p]
        pc := Function.update k.pc t .user }
  | recvWakeSender {t tid : TaskId} {ep : ℕ} {deadline : Option ℕ} {p : Parcel}
      {e : Endpoint Parcel} :
      (k.task t).state = .running → k.pc t = .recv ep deadline →
      (k.endpoint ep).decideRecv t = (.wakeSender p tid, e) →
      Step k (.step t) { k with
        endpoint := Function.update k.endpoint ep e
        log := k.log ++ [.received t ep p]
        pc := Function.update k.pc t
          (.jobs (bound (k.endpoint ep).notify ++ [.unblock tid]) .ret) }
  | recvBlock {t : TaskId} {ep : ℕ} {e : Endpoint Parcel} :
      (k.task t).state = .running → k.pc t = .recv ep none →
      (k.endpoint ep).decideRecv t = (.block, e) →
      Step k (.step t) { k with
        endpoint := Function.update k.endpoint ep e
        pc := Function.update k.pc t (.park .blocked (.message ep)) }
  | recvBlockUntil {t : TaskId} {ep d : ℕ} {e : Endpoint Parcel} :
      (k.task t).state = .running → k.pc t = .recv ep (some d) →
      (k.endpoint ep).decideRecv t = (.block, e) →
      Step k (.step t) { k with
        endpoint := Function.update k.endpoint ep e
        pc := Function.update k.pc t (.blockUntil (some d) (.timed ep)) }
  | recvFail {t : TaskId} {ep : ℕ} {deadline : Option ℕ} :
      (k.task t).state = .running → k.pc t = .recv ep deadline →
      Step k (.step t) { k with pc := Function.update k.pc t .user }
  | waitTaken {t : TaskId} {ids : List ℕ} {deadline : Option ℕ} {index id : ℕ}
      {notify : Notifications} :
      (k.task t).state = .running → k.pc t = .wait ids deadline →
      k.notify.consumeReady ids = some (index, id, notify) →
      Step k (.step t) { k with
        notify, log := k.log ++ [.waited t id], pc := Function.update k.pc t .user }
  | waitPast {t : TaskId} {ids : List ℕ} {deadline : Option ℕ} :
      (k.task t).state = .running → k.pc t = .wait ids deadline →
      Step k (.step t) { k with pc := Function.update k.pc t .user }
  | waitRegister {t : TaskId} {ids : List ℕ} {deadline : Option ℕ} :
      (k.task t).state = .running → k.pc t = .wait ids deadline →
      k.notify.consumeReady ids = none →
      Step k (.step t) { k with
        notify := k.notify.register t ids
        pc := Function.update k.pc t (.blockUntil deadline (.waited ids deadline)) }
  | waitCheckPast {t : TaskId} {ids : List ℕ} {d : ℕ} :
      (k.task t).state = .running → k.pc t = .waitCheck ids d →
      Step k (.step t) { k with pc := Function.update k.pc t .user }
  | waitCheckAgain {t : TaskId} {ids : List ℕ} {d : ℕ} :
      (k.task t).state = .running → k.pc t = .waitCheck ids d →
      Step k (.step t) { k with pc := Function.update k.pc t (.wait ids (some d)) }
  | blockUntilPast {t : TaskId} {d : ℕ} {r : Resume} :
      (k.task t).state = .running → k.pc t = .blockUntil (some d) r →
      k.clock.any (d ≤ ·) = true →
      Step k (.step t) { k with pc := Function.update k.pc t (.resume r) }
  | blockUntilPark {t : TaskId} {deadline : Option ℕ} {s : State} {r : Resume} :
      (k.task t).state = .running → k.pc t = .blockUntil deadline r →
      deadline = none ∧ s = .blocked ∨ (∃ d, deadline = some d ∧ s = .sleeping d) →
      Step k (.step t) { k with pc := Function.update k.pc t (.park s r) }
  | park {t : TaskId} {s : State} {r : Resume} :
      (k.task t).state = .running → k.pc t = .park s r →
      Step k (.step t) { k with
        task := Function.update k.task t ((k.task t).park s)
        pc := Function.update k.pc t (.resume r) }
  | resumeSent {t : TaskId} {p : Parcel} :
      (k.task t).state = .running → k.pc t = .resume (.sent p) →
      Step k (.step t) { k with
        log := k.log ++ [.sent t p], pc := Function.update k.pc t .user }
  | resumeMessage {t : TaskId} {ep : ℕ} {r : Resume} {p : Parcel} :
      (k.task t).state = .running → k.pc t = .resume r → r = .message ep ∨ r = .timed ep →
      (k.task t).mailbox = some p →
      Step k (.step t) { k with
        task := Function.update k.task t (k.task t).takeMailbox
        log := k.log ++ [.received t ep p]
        pc := Function.update k.pc t .user }
  | resumePanic {t : TaskId} {ep : ℕ} :
      (k.task t).state = .running → k.pc t = .resume (.message ep) →
      (k.task t).mailbox = none →
      Step k (.step t) { k with pc := Function.update k.pc t (.panicked ep) }
  | resumeTimeout {t : TaskId} {ep : ℕ} :
      (k.task t).state = .running → k.pc t = .resume (.timed ep) → (k.task t).mailbox = none →
      Step k (.step t) { k with pc := Function.update k.pc t (.cancel ep) }
  | resumeTaken {t : TaskId} {ids : List ℕ} {deadline : Option ℕ} {index id : ℕ}
      {notify : Notifications} :
      (k.task t).state = .running → k.pc t = .resume (.waited ids deadline) →
      (k.notify.deregister t ids).consumeReady ids = some (index, id, notify) →
      Step k (.step t) { k with
        notify, log := k.log ++ [.waited t id], pc := Function.update k.pc t .user }
  | resumeAgain {t : TaskId} {ids : List ℕ} {deadline : Option ℕ} {pc : Pc} :
      (k.task t).state = .running → k.pc t = .resume (.waited ids deadline) →
      (k.notify.deregister t ids).consumeReady ids = none →
      deadline = none ∧ pc = .wait ids none ∨
        (∃ d, deadline = some d ∧ pc = .waitCheck ids d) →
      Step k (.step t) { k with
        notify := k.notify.deregister t ids, pc := Function.update k.pc t pc }
  | resumeSlept {t : TaskId} {d : ℕ} :
      (k.task t).state = .running → k.pc t = .resume (.slept d) →
      Step k (.step t) { k with
        log := k.log ++ [.slept t d k.clockNow], pc := Function.update k.pc t .user }
  | cancel {t : TaskId} {ep : ℕ} :
      (k.task t).state = .running → k.pc t = .cancel ep →
      Step k (.step t) { k with
        endpoint := Function.update k.endpoint ep ((k.endpoint ep).cancelRecvWaiter t)
        pc := Function.update k.pc t .user }
  | taskJob {t : TaskId} {job : Job} {rest : List Job} {f : Finish} :
      (k.task t).state = .running → k.pc t = .jobs (job :: rest) f →
      Step k (.step t) { (k.runJob job).1 with
        pc := Function.update k.pc t (.jobs ((k.runJob job).2 ++ rest) f) }
  | ret {t : TaskId} :
      (k.task t).state = .running → k.pc t = .jobs [] .ret →
      Step k (.step t) { k with pc := Function.update k.pc t .user }
  | retSent {t : TaskId} {p : Parcel} :
      (k.task t).state = .running → k.pc t = .jobs [] (.sent p) →
      Step k (.step t) { k with
        log := k.log ++ [.sent t p], pc := Function.update k.pc t .user }
  | exit {t : TaskId} :
      (k.task t).state = .running → k.pc t = .jobs [] .exit →
      Step k (.step t) { k with
        task := Function.update k.task t { k.task t with state := .dead }
        pc := Function.update k.pc t .exited }

@[simp] theorem pc_runJob (k : Kernel) (job : Job) : (k.runJob job).1.pc = k.pc := by
  cases job <;> rfl

theorem Step.of_sendInner {t : TaskId} {ep : ℕ} {km : KMessage} {mayBlock : Bool}
    (hrun : (k.task t).state = .running) (hpc : k.pc t = .send ep km mayBlock) :
    Step k (.step t) (k.sendInner t ep km mayBlock) := by
  unfold sendInner
  obtain ⟨act, e, hd⟩ : ∃ act e, (k.endpoint ep).decideSend t ⟨k.sends, ep, km⟩ mayBlock =
    (act, e) := ⟨_, _, rfl⟩
  simp only [hd]
  cases act with
  | deliver w => exact .sendDeliver hrun hpc hd
  | buffered => exact .sendBuffered hrun hpc hd
  | block => exact .sendBlock hrun hpc hd
  | full | wouldBlock => exact .sendFail hrun hpc

theorem Step.of_recvUntil {t : TaskId} {ep : ℕ} {deadline : Option ℕ}
    (hrun : (k.task t).state = .running) (hpc : k.pc t = .recv ep deadline) :
    Step k (.step t) (k.recvUntil t ep deadline) := by
  unfold recvUntil
  obtain ⟨act, e, hd⟩ : ∃ act e, (k.endpoint ep).decideRecv t = (act, e) := ⟨_, _, rfl⟩
  simp only [hd]
  cases act with
  | got p => exact .recvGot hrun hpc hd
  | wakeSender p tid => exact .recvWakeSender hrun hpc hd
  | block =>
    cases deadline with
    | none => exact .recvBlock hrun hpc hd
    | some d => exact .recvBlockUntil hrun hpc hd
  | full => exact .recvFail hrun hpc

theorem Step.of_waitAny {t : TaskId} {ids : List ℕ} {deadline : Option ℕ}
    (hrun : (k.task t).state = .running) (hpc : k.pc t = .wait ids deadline) :
    Step k (.step t) (k.waitAny t ids deadline) := by
  unfold waitAny
  cases hc : k.notify.consumeReady ids with
  | some r => exact .waitTaken hrun hpc hc
  | none =>
    dsimp only
    split
    · exact .waitPast hrun hpc
    · exact .waitRegister hrun hpc hc

theorem Step.of_blockUntil {t : TaskId} {deadline : Option ℕ} {r : Resume}
    (hrun : (k.task t).state = .running) (hpc : k.pc t = .blockUntil deadline r) :
    Step k (.step t) (k.blockUntil t deadline r) := by
  unfold blockUntil
  cases deadline with
  | none => exact .blockUntilPark hrun hpc (.inl ⟨rfl, rfl⟩)
  | some d =>
    dsimp only
    split
    · next hpast => exact .blockUntilPast hrun hpc hpast
    · exact .blockUntilPark hrun hpc (.inr ⟨d, rfl, rfl⟩)

theorem Step.of_resume {t : TaskId} {r : Resume} (hrun : (k.task t).state = .running)
    (hpc : k.pc t = .resume r) : Step k (.step t) (k.resume t r) := by
  cases r with
  | sent p => exact .resumeSent hrun hpc
  | message ep =>
    unfold resume
    cases hm : (k.task t).mailbox with
    | some p => exact .resumeMessage hrun hpc (.inl rfl) hm
    | none => exact .resumePanic hrun hpc hm
  | timed ep =>
    unfold resume
    cases hm : (k.task t).mailbox with
    | some p => exact .resumeMessage hrun hpc (.inr rfl) hm
    | none => exact .resumeTimeout hrun hpc hm
  | waited ids deadline =>
    unfold resume
    dsimp only
    cases hc : (k.notify.deregister t ids).consumeReady ids with
    | some r => exact .resumeTaken hrun hpc hc
    | none =>
      refine .resumeAgain hrun hpc hc ?_
      cases deadline with
      | none => exact .inl ⟨rfl, rfl⟩
      | some d => exact .inr ⟨d, rfl, rfl⟩
  | slept d => exact .resumeSlept hrun hpc

theorem Step.of_step {t : TaskId} (h : k.step t = some k') : Step k (.step t) k' := by
  unfold step at h
  split at h
  · next hrun =>
    split at h <;> first | obtain rfl := Option.some.inj h | simp at h
    · next hpc => exact .of_sendInner hrun hpc
    · next hpc => exact .of_recvUntil hrun hpc
    · next hpc => exact .of_waitAny hrun hpc
    · next hpc =>
      unfold waitCheck
      split
      · exact .waitCheckPast hrun hpc
      · exact .waitCheckAgain hrun hpc
    · next hpc => exact .of_blockUntil hrun hpc
    · next hpc => exact .park hrun hpc
    · next hpc => exact .of_resume hrun hpc
    · next hpc => exact .cancel hrun hpc
    · next todo f hpc =>
      cases todo with
      | nil =>
        cases f with
        | ret => exact .ret hrun hpc
        | sent p => exact .retSent hrun hpc
        | exit => exact .exit hrun hpc
      | cons job rest =>
        unfold runJobs goto
        dsimp only
        rw [pc_runJob]
        exact .taskJob hrun hpc
  · simp at h

theorem Step.of_call {t : TaskId} {c : Call} (hrun : (k.task t).state = .running)
    (hpc : k.pc t = .user) (h : k.call t c = some k') : Step k (.call t c) k' := by
  cases c with
  | send ep km | sendNowait ep km =>
    obtain rfl := Option.some.inj h
    split
    · next ha => exact .callSend hrun hpc ha rfl
    · exact .callFail
  | recv ep | recvUntil ep d =>
    obtain rfl := Option.some.inj h
    split
    · next ha => exact .callRecv hrun hpc ha
    · exact .callFail
  | wait id =>
    simp only [call, Option.ite_none_right_eq_some] at h
    obtain ⟨hu, h⟩ := h
    obtain rfl := Option.some.inj h
    exact .callWait hrun hpc (by simpa using hu)
  | waitAny ids deadline =>
    simp only [call, Option.ite_none_right_eq_some] at h
    obtain ⟨hu, h⟩ := h
    obtain rfl := Option.some.inj h
    exact .callWait hrun hpc (by simpa using hu)
  | sleepUntil d =>
    unfold call at h
    dsimp only at h
    split at h
    · exact Option.some.inj h ▸ .callFail
    · next now hc =>
      split at h
      · next hle => exact Option.some.inj h ▸ .sleepPast hrun hpc hc hle
      · next hgt => exact Option.some.inj h ▸ .callSleep hrun hpc hc (Nat.lt_of_not_le hgt)
  | notifySignal id => exact Option.some.inj h ▸ .callSignal hrun hpc
  | notifyOnExit notif => exact Option.some.inj h ▸ .notifyOnExit hrun hpc
  | exit => exact Option.some.inj h ▸ .callExit hrun hpc

/-- **The list is complete.** -/
theorem Step.of_next {e : Event} (h : k.next e = some k') : Step k e k' := by
  cases e with
  | tick now =>
    unfold next at h
    cases hc : k.clock with
    | none => simp [hc] at h
    | some n =>
      simp only [hc, Option.ite_none_right_eq_some] at h
      exact Option.some.inj h.2 ▸ .tick hc h.1
  | wakeExpired =>
    obtain ⟨now, hc, rfl⟩ := Option.map_eq_some_iff.mp h
    exact .wakeExpired hc
  | irq c id =>
    simp only [next, Option.ite_none_right_eq_some] at h
    exact Option.some.inj h.2 ▸ .irq h.1
  | irqJob c =>
    unfold next at h
    cases hc : k.irq c with
    | nil => simp [hc] at h
    | cons job rest =>
      simp only [hc] at h
      exact Option.some.inj h ▸ .irqJob hc
  | spawn => exact Option.some.inj h ▸ .spawn
  | allocate =>
    obtain rfl := Option.some.inj h
    unfold Kernel.allocate
    cases hf : (List.range k.neps).find? fun i => !(k.endpoint i).allocated with
    | some id =>
      have hid := List.mem_range.mp (List.mem_of_find?_eq_some hf)
      exact .allocate (.inl ⟨by simpa using List.find?_some hf, hid, rfl⟩)
    | none => exact .allocate (.inr ⟨rfl, rfl⟩)
  | create => exact Option.some.inj h ▸ .create rfl
  | bindNotify ep notif =>
    obtain rfl := Option.some.inj h
    split
    · next hlt => exact .bindNotify hlt
    · exact .bindFail
  | dispatch t =>
    simp only [next, Option.ite_none_right_eq_some] at h
    exact Option.some.inj h.2 ▸ .dispatch h.1
  | preempt t =>
    simp only [next, Option.ite_none_right_eq_some] at h
    exact Option.some.inj h.2 ▸ .preempt h.1.1 h.1.2
  | call t c =>
    simp only [next, Option.ite_none_right_eq_some] at h
    exact .of_call h.1.1 h.1.2 h.2
  | step t => exact .of_step h

/-! ### What goes into the log -/

/-- An event that leads to `k'` records `o`, for the reason given. -/
inductive Says (k k' : Kernel) : Out → Prop
  | accepted {t : TaskId} {ep : ℕ} {km : KMessage} {mayBlock : Bool} :
      k.pc t = .send ep km mayBlock → k'.sends = k.sends + 1 →
      Says k k' (.accepted ⟨k.sends, ep, km⟩)
  | taken {t : TaskId} {ep : ℕ} {p : Parcel} : p ∈ (k.endpoint ep).msgs →
      Says k k' (.received t ep p)
  | collected {t : TaskId} {ep : ℕ} {p : Parcel} : (k.task t).mailbox = some p →
      Says k k' (.received t ep p)
  | sent {t : TaskId} {p : Parcel} : k.pc t = .jobs [] (.sent p) → Says k k' (.sent t p)
  | unblocked {t : TaskId} {p : Parcel} : (k.task t).state = .running →
      k.pc t = .resume (.sent p) → Says k k' (.sent t p)
  | signalled {id : ℕ} : Says k k' (.signalled id)
  | saturated {id : ℕ} : Says k k' (.saturated id)
  | waited {t : TaskId} {id : ℕ} : Says k k' (.waited t id)
  | late {t : TaskId} {d now : ℕ} : k.clock = some now → d ≤ now → Says k k' (.slept t d now)
  | slept {t : TaskId} {d : ℕ} : (k.task t).state = .running → k.pc t = .resume (.slept d) →
      Says k k' (.slept t d k.clockNow)

theorem says_signalOut {n : Notification} {id : ℕ} : ∀ o ∈ signalOut n id, Says k k' o := by
  intro o ho
  obtain rfl | rfl := mem_signalOut ho
  · exact .signalled
  · exact .saturated

/-- The log grows by what is recorded. -/
theorem Step.log (hs : Step k e k') : ∃ new, k'.log = k.log ++ new ∧ ∀ o ∈ new, Says k k' o := by
  have one : ∀ {o}, k'.log = k.log ++ [o] → Says k k' o →
      ∃ new, k'.log = k.log ++ new ∧ ∀ o ∈ new, Says k k' o := by
    intro o hlog ho
    refine ⟨[o], hlog, fun o' ho' => ?_⟩
    obtain rfl := List.mem_singleton.mp ho'
    exact ho
  have none : k'.log = k.log → ∃ new, k'.log = k.log ++ new ∧ ∀ o ∈ new, Says k k' o :=
    fun hlog => ⟨[], by simp [hlog], by simp⟩
  cases hs with
  | sendDeliver _ hpc | sendBuffered _ hpc | sendBlock _ hpc => exact one rfl (.accepted hpc rfl)
  | recvGot _ _ hd =>
    cases Endpoint.decideRecv_case hd with
    | got hm => exact one rfl (.taken (by simp [hm]))
  | recvWakeSender _ _ hd =>
    cases Endpoint.decideRecv_case hd with
    | wakeSender hm => exact one rfl (.taken (by simp [hm]))
  | resumeMessage _ _ _ hm => exact one rfl (.collected hm)
  | waitTaken | resumeTaken => exact one rfl .waited
  | resumeSent hrun hpc => exact one rfl (.unblocked hrun hpc)
  | retSent _ hpc => exact one rfl (.sent hpc)
  | sleepPast _ _ hc hd => exact one rfl (.late hc hd)
  | resumeSlept hrun hpc => exact one rfl (.slept hrun hpc)
  | @irqJob _ job | @taskJob _ job =>
    cases job with
    | signal id => exact ⟨_, rfl, says_signalOut⟩
    | unblock | deliver => exact none rfl
  | _ => exact none rfl

/-- A record that is there was there, or is made now. -/
theorem Step.recorded (hs : Step k e k') {o : Out} (h : o ∈ k'.log) : o ∈ k.log ∨ Says k k' o := by
  obtain ⟨new, hlog, hnew⟩ := hs.log
  rw [hlog, List.mem_append] at h
  exact h.imp id (hnew o)

theorem Step.sends_le (hs : Step k e k') : k.sends ≤ k'.sends := by
  cases hs with
  | sendDeliver | sendBuffered | sendBlock => exact Nat.le_succ _
  | @irqJob _ job | @taskJob _ job => cases job <;> exact Nat.le_refl _
  | _ => exact Nat.le_refl _

/-! ### Jobs -/

@[simp] theorem endpoint_runJob (k : Kernel) (job : Job) :
    (k.runJob job).1.endpoint = k.endpoint := by
  cases job <;> rfl

/-- An actor that has jobs does the first of them, and nothing else. -/
theorem Step.of_job {a : Actor} {job : Job} {rest : List Job} (hs : Step k a.event k')
    (ha : k.jobsOf a = job :: rest) :
    (∃ c, a = .core c ∧ k' = { (k.runJob job).1 with
        irq := Function.update k.irq c ((k.runJob job).2 ++ rest) }) ∨
      ∃ t f, a = .task t ∧ k.pc t = .jobs (job :: rest) f ∧ k' = { (k.runJob job).1 with
        pc := Function.update k.pc t (.jobs ((k.runJob job).2 ++ rest) f) } := by
  cases a with
  | core c =>
    cases hs with
    | irqJob hj =>
      obtain ⟨rfl, rfl⟩ := List.cons.inj (hj.symm.trans ha)
      exact .inl ⟨c, rfl, rfl⟩
  | task t =>
    have hpc : ∀ {pc : Pc}, k.pc t = pc → pc.todo = job :: rest := fun h => by rw [← h]; exact ha
    cases hs with
    | taskJob _ hj =>
      obtain ⟨rfl, rfl⟩ := List.cons.inj (hpc hj)
      exact .inr ⟨t, _, rfl, hj, rfl⟩
    | sendDeliver _ h | sendBuffered _ h | sendBlock _ h | sendFail _ h | recvGot _ h
    | recvWakeSender _ h | recvBlock _ h | recvBlockUntil _ h | recvFail _ h | waitTaken _ h
    | waitPast _ h | waitRegister _ h | waitCheckPast _ h | waitCheckAgain _ h
    | blockUntilPast _ h | blockUntilPark _ h | park _ h | resumeSent _ h | resumeMessage _ h
    | resumePanic _ h | resumeTimeout _ h | resumeTaken _ h | resumeAgain _ h | resumeSlept _ h
    | cancel _ h | ret _ h | retSent _ h | exit _ h => cases hpc h

theorem Step.job_done {a : Actor} {job : Job} {rest : List Job} (hs : Step k a.event k')
    (ha : k.jobsOf a = job :: rest) : k'.task = (k.runJob job).1.task ∧
      k'.notify = (k.runJob job).1.notify ∧ k'.jobsOf a = (k.runJob job).2 ++ rest := by
  obtain ⟨c, rfl, rfl⟩ | ⟨t, f, rfl, -, rfl⟩ := hs.of_job ha
  · exact ⟨rfl, rfl, Function.update_self ..⟩
  · exact ⟨rfl, rfl, by simp [jobsOf, Pc.todo]⟩

theorem mem_todo_update {t t₀ : TaskId} {q : Pc} {job : Job} (h₀ : (k.pc t₀).todo = [])
    (hj : job ∈ (k.pc t).todo) : job ∈ (Function.update k.pc t₀ q t).todo := by
  rcases eq_or_ne t t₀ with rfl | hne
  · rw [h₀] at hj
    cases hj
  · rwa [Function.update_of_ne hne]

@[simp] theorem irq_runJob (k : Kernel) (job : Job) : (k.runJob job).1.irq = k.irq := by
  cases job <;> rfl

/-- A job stays in flight until its actor does it. -/
theorem Step.jobs_kept (hs : Step k e k') (hunborn : ∀ t, k.ntasks ≤ t → k.pc t = .exited)
    {a : Actor} {job : Job} (hj : job ∈ k.jobsOf a) :
    job ∈ k'.jobsOf a ∨ e = a.event ∧ ∃ rest, k.jobsOf a = job :: rest := by
  cases a with
  | core c =>
    cases hs with
    | @irq c₀ id h₀ =>
      rcases eq_or_ne c c₀ with rfl | hne
      · simp [jobsOf, h₀] at hj
      · exact .inl (by simpa [jobsOf, hne] using hj)
    | @irqJob c₀ job₀ rest h₀ =>
      rcases eq_or_ne c c₀ with rfl | hne
      · simp only [jobsOf, h₀, List.mem_cons] at hj
        obtain rfl | hj := hj
        · exact .inr ⟨rfl, rest, h₀⟩
        · exact .inl (by simp [jobsOf, hj])
      · exact .inl (by simpa [jobsOf, hne] using hj)
    | taskJob => exact .inl (by simpa [jobsOf] using hj)
    | _ => exact .inl hj
  | task t =>
    cases hs with
    | tick | wakeExpired | irq | allocate | create | bindNotify | bindFail | dispatch | preempt
    | callFail | sleepPast | notifyOnExit => exact .inl hj
    | irqJob => exact .inl (by simpa [jobsOf] using hj)
    | spawn => exact .inl (mem_todo_update (by rw [hunborn _ (Nat.le_refl _)]; rfl) hj)
    | callSend _ h | callRecv _ h | callWait _ h | callSleep _ h | callSignal _ h | callExit _ h
    | sendDeliver _ h | sendBuffered _ h | sendBlock _ h | sendFail _ h | recvGot _ h
    | recvWakeSender _ h | recvBlock _ h | recvBlockUntil _ h | recvFail _ h | waitTaken _ h
    | waitPast _ h | waitRegister _ h | waitCheckPast _ h | waitCheckAgain _ h
    | blockUntilPast _ h | blockUntilPark _ h | park _ h | resumeSent _ h | resumeMessage _ h
    | resumePanic _ h | resumeTimeout _ h | resumeTaken _ h | resumeAgain _ h | resumeSlept _ h
    | cancel _ h | ret _ h | retSent _ h | exit _ h =>
      exact .inl (mem_todo_update (by rw [h]; rfl) hj)
    | @taskJob t₀ job₀ rest f _ h₀ =>
      rcases eq_or_ne t t₀ with rfl | hne
      · simp only [jobsOf, h₀, Pc.todo, List.mem_cons] at hj
        obtain rfl | hj := hj
        · exact .inr ⟨rfl, rest, by rw [jobsOf, h₀]; rfl⟩
        · exact .inl (by simp [jobsOf, Pc.todo, hj])
      · exact .inl (by simpa [jobsOf, hne] using hj)

end Kernel

/-- **The invariant rule of the machine**, under a guard on its steps. -/
theorem waiting_invariant {ok : Kernel → Event → Prop} {I : Kernel → Prop}
    (h₀ : ∀ clock, I (.boot clock))
    (hstep : ∀ k e k', I k → ok k e → Kernel.Step k e k' → I k') {k : Kernel}
    (h : waiting.Reach ok k) : I k :=
  h.invariant (fun _ ⟨clock, hk⟩ => hk ▸ h₀ clock) fun k e k' hi hok hn =>
    hstep k e k' hi hok (.of_next hn)

/-- The same for an invariant whose step needs a second one, already established. -/
theorem waiting_invariant_of {ok : Kernel → Event → Prop} {I J : Kernel → Prop}
    (hJ : ∀ k, waiting.Reach ok k → J k) (h₀ : ∀ clock, I (.boot clock))
    (hstep : ∀ k e k', J k → I k → ok k e → Kernel.Step k e k' → I k') {k : Kernel}
    (h : waiting.Reach ok k) : I k :=
  h.invariant_of hJ (fun _ ⟨clock, hk⟩ => hk ▸ h₀ clock) fun k e k' hj hi hok hn =>
    hstep k e k' hj hi hok (.of_next hn)

end StarOS
