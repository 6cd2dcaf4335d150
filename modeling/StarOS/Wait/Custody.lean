import StarOS.Lib.Mail
import StarOS.Wait.TaskStep

/-!
# Exactly once, at the right endpoint

The endpoints, the senders with a delivery to make and the mailboxes are a `Mail` system, as long
as no receive whose deadline has passed finds itself no longer queued when it cancels. Then a
sender has taken it off the queue and its delivery is under way; the receive returns nonetheless,
and the message arrives in the mailbox of a task that is no longer waiting for it, for the task's
next receive to take, on whatever endpoint that is.

## Main definitions

* `Kernel.mail` — the messages of the machine and where they are
* `Kernel.Custody` — what the machine owes each message

## Main results

* `Kernel.Step.mail` — the machine refines the mail system
* `message_astray` — a run that returns a message from the wrong endpoint
* `custody_of_queued` — without such a cancellation it does not happen
-/

namespace StarOS

/-- The message whose acceptance is recorded. -/
def Out.acceptance : Out → Option Parcel
  | .accepted p => some p
  | _ => none

/-- The message whose receipt is recorded, with the endpoint it was received from. -/
def Out.receipt : Out → Option (ℕ × Parcel)
  | .received _ ep p => some (ep, p)
  | _ => none

/-- The delivery a job is. -/
def Job.delivery : Job → Option (TaskId × Parcel)
  | .deliver t p => some (t, p)
  | _ => none

/-- The deliveries a task has yet to make. -/
def Pc.deliveries (pc : Pc) : List (TaskId × Parcel) := pc.todo.filterMap Job.delivery

/-- The endpoint a task is receiving from. -/
def Pc.awaits : Pc → Option ℕ
  | .cancel ep | .panicked ep => some ep
  | pc =>
    match pc.reason with
    | some (.message ep) | some (.timed ep) => some ep
    | _ => none

/-- The endpoint a task is about to make a decision on. -/
def Pc.decides : Pc → Option ℕ
  | .send ep _ _ | .recv ep _ => some ep
  | _ => none

namespace Kernel

variable {k k' : Kernel} {e : Event} {t : TaskId}

/-- The messages of the machine and where they are. -/
def mail (k : Kernel) : Mail TaskId ℕ Parcel where
  ring := Endpoint.msgs ∘ k.endpoint
  senders := Endpoint.senders ∘ k.endpoint
  queue := Endpoint.receivers ∘ k.endpoint
  flight := Pc.deliveries ∘ k.pc
  mailbox := Parking.mailbox ∘ k.task
  awaits := Pc.awaits ∘ k.pc
  accepted := k.log.filterMap Out.acceptance
  returned := k.log.filterMap Out.receipt

/-- Every message accepted is in exactly one place: a ring, with a blocked sender, in flight, in a
mailbox, or returned; it has been returned once at most; and by a receive on the endpoint that
accepted it. -/
def Custody (k : Kernel) : Prop :=
  k.mail.holds.Exact {p | .accepted p ∈ k.log} ∧ ∀ t ep p, .received t ep p ∈ k.log → p.ep = ep

/-- A receive that cancels is still queued. -/
def cancelsQueued (k : Kernel) : Event → Bool
  | .step t =>
    match k.pc t with
    | .cancel ep => (k.endpoint ep).receivers.contains t
    | _ => true
  | _ => true

/-- What the mail system needs to know of the machine: endpoints not handed out are empty, and
nobody uses one; interrupt handlers deliver no messages; and messages are numbered. -/
structure Tidy (k : Kernel) : Prop where
  spare : ∀ ep, k.neps ≤ ep → (k.endpoint ep).allocated = false
  empty : ∀ ep, (k.endpoint ep).allocated = false → (k.endpoint ep).msgs = [] ∧
    (k.endpoint ep).receivers = [] ∧ (k.endpoint ep).senders = []
  decides : ∀ t ep, (k.pc t).decides = some ep → (k.endpoint ep).allocated = true
  irq : ∀ c, ∀ job ∈ k.irq c, job.delivery = none
  num : ∀ p, .accepted p ∈ k.log → p.num < k.sends

@[simp] theorem filterMap_bound (n : Option ℕ) : (bound n).filterMap Job.delivery = [] := by
  cases n <;> rfl

@[simp] theorem filterMap_unblock (w : Option TaskId) :
    w.toList.filterMap (Job.delivery ∘ Job.unblock) = [] := by
  cases w <;> rfl

/-- A signal is nothing to do with any message. -/
@[simp] theorem filterMap_signalOut (n : Notification) (id : ℕ) :
    (signalOut n id).filterMap Out.acceptance = [] ∧
      (signalOut n id).filterMap Out.receipt = [] := by
  unfold signalOut
  split
  · split <;> exact ⟨rfl, rfl⟩
  · exact ⟨rfl, rfl⟩

theorem mem_accepted {p : Parcel} : p ∈ k.mail.accepted ↔ .accepted p ∈ k.log := by
  refine List.mem_filterMap.trans ⟨?_, fun h => ⟨_, h, rfl⟩⟩
  rintro ⟨o, ho, hp⟩
  cases o with
  | accepted q =>
    obtain rfl := Option.some.inj hp
    exact ho
  | _ => cases hp

theorem mem_returned {ep : ℕ} {p : Parcel} :
    (ep, p) ∈ k.mail.returned ↔ ∃ t, .received t ep p ∈ k.log := by
  refine List.mem_filterMap.trans ⟨?_, fun ⟨t, h⟩ => ⟨_, h, rfl⟩⟩
  rintro ⟨o, ho, hp⟩
  cases o with
  | received t ep' q =>
    obtain ⟨rfl, rfl⟩ := Prod.mk.inj (Option.some.inj hp)
    exact ⟨t, ho⟩
  | _ => cases hp

/-- The next message to be accepted has not been. -/
theorem Tidy.fresh (hi : k.Tidy) {p : Parcel} (hp : p.num = k.sends) : p ∉ k.mail.accepted :=
  fun h => absurd (hi.num p (mem_accepted.mp h)) (by omega)

/-- The mailbox of a task that is in no receive is empty. -/
theorem mailbox_of_awaits (hsound : k.mail.Sound Parcel.ep) (h : (k.pc t).awaits = none) :
    (k.task t).mailbox = none := by
  cases hm : (k.task t).mailbox with
  | none => rfl
  | some p =>
    have hmem : (t, p.ep) ∈ Mail.tickets Parcel.ep k.mail (.mailbox t) := by
      simp [Mail.tickets, Kernel.mail, hm]
    have hw : (k.pc t).awaits = some p.ep := hsound.tickets.mem hmem
    simp [h] at hw

/-- **The machine refines the mail system.** -/
theorem Step.mail (hs : Step k e k') (hi : k.Tidy) (hsh : k.Shape)
    (hsound : k.mail.Sound Parcel.ep) (hok : k.cancelsQueued e = true) :
    Relation.ReflTransGen (Mail.Step Parcel.ep) k.mail k'.mail := by
  have hstay : k'.mail = k.mail → Relation.ReflTransGen (Mail.Step Parcel.ep) k.mail k'.mail :=
    fun h => h ▸ .refl
  cases hs with
  | tick | irq | create | bindFail | callFail | notifyOnExit => exact hstay rfl
  | wakeExpired =>
    refine hstay ?_
    simp only [Kernel.mail, Mail.mk.injEq, true_and, and_true]
    funext t
    simp
  | bindNotify =>
    refine hstay ?_
    simp [Kernel.mail, Function.comp_update, Endpoint.msgs, Endpoint.senders, Endpoint.receivers]
  | dispatch | preempt =>
    refine hstay ?_
    simp [Kernel.mail, Function.comp_update]
  | sleepPast =>
    refine hstay ?_
    simp [Kernel.mail, Out.acceptance, Out.receipt]
  | callSend _ hpc | callRecv _ hpc | callWait _ hpc | callSleep _ hpc | callSignal _ hpc
  | callExit _ hpc | sendFail _ hpc | recvFail _ hpc | waitPast _ hpc | waitRegister _ hpc
  | waitCheckPast _ hpc | waitCheckAgain _ hpc | blockUntilPast _ hpc | blockUntilPark _ hpc
  | resumePanic _ hpc | resumeTimeout _ hpc | ret _ hpc | park _ hpc | exit _ hpc =>
    refine hstay ?_
    simp [Kernel.mail, Function.comp_update, Function.update_eq_self_iff, Pc.deliveries, hpc,
      Pc.todo, Pc.awaits, Pc.reason, Job.delivery]
  | waitTaken _ hpc | resumeSent _ hpc | resumeTaken _ hpc | resumeSlept _ hpc | retSent _ hpc =>
    refine hstay ?_
    simp [Kernel.mail, Function.comp_update, Function.update_eq_self_iff, Pc.deliveries, hpc,
      Pc.todo, Pc.awaits, Pc.reason, Out.acceptance, Out.receipt]
  | resumeAgain _ hpc _ hto =>
    refine hstay ?_
    obtain ⟨-, rfl⟩ | ⟨d, -, rfl⟩ := hto <;>
      simp [Kernel.mail, Function.comp_update, Function.update_eq_self_iff, Pc.deliveries, hpc,
        Pc.todo, Pc.awaits, Pc.reason]
  | spawn =>
    refine hstay ?_
    have hpc := hsh.unborn _ (Nat.le_refl _)
    have hbox : (k.task k.ntasks).mailbox = none :=
      mailbox_of_awaits hsound (by rw [hpc]; rfl)
    simp [Kernel.mail, Function.comp_update, Function.update_eq_self_iff, Pc.deliveries, hpc,
      Pc.todo, Pc.awaits, Pc.reason, hbox, Parking.fresh]
  | @allocate id n hid =>
    refine hstay ?_
    have hspare : (k.endpoint id).allocated = false := by
      obtain ⟨h, -⟩ | ⟨rfl, -⟩ := hid
      · exact h
      · exact hi.spare _ (Nat.le_refl _)
    obtain ⟨hm, hr, hsd⟩ := hi.empty id hspare
    simp only [Kernel.mail, Function.comp_update, Mail.mk.injEq, Function.update_eq_self_iff,
      Function.comp_apply, hm, hr, hsd]
    exact ⟨rfl, rfl, rfl, trivial, trivial, trivial, trivial, trivial⟩
  | @irqJob c job rest hj =>
    refine hstay ?_
    cases job with
    | signal id => simp [Kernel.mail, runJob]
    | unblock w => simp [Kernel.mail, runJob, Function.comp_update, Function.update_eq_self_iff]
    | deliver w p => simpa [Job.delivery] using hi.irq c (.deliver w p) (by simp [hj])
  | @taskJob t job rest f _ hpc =>
    cases job with
    | signal id =>
      refine hstay ?_
      simp [Kernel.mail, runJob, Function.comp_update, Function.update_eq_self_iff, Pc.deliveries,
        hpc, Pc.todo, Pc.awaits, Pc.reason, Job.delivery, List.filterMap_cons]
    | unblock w =>
      refine hstay ?_
      simp [Kernel.mail, runJob, Function.comp_update, Function.update_eq_self_iff, Pc.deliveries,
        hpc, Pc.todo, Pc.awaits, Pc.reason, Job.delivery, List.filterMap_cons]
    | deliver w p =>
      have hflight : k.mail.flight t = (w, p) :: rest.filterMap Job.delivery := by
        simp [Kernel.mail, Pc.deliveries, hpc, Pc.todo, Job.delivery]
      have hstep : Mail.Step Parcel.ep k.mail _ := .land hflight
      refine .single ?_
      convert hstep using 1
      simp [Kernel.mail, runJob, Function.comp_update, Function.update_eq_self_iff, Pc.deliveries,
        hpc, Pc.todo, Pc.awaits, Pc.reason]
  | @sendDeliver t w ep km mayBlock e' _ hpc hd =>
    cases Endpoint.decideSend_case hd with
    | deliver hr hm hsd =>
      have hstep : Mail.Step Parcel.ep k.mail _ := .hand (t := t) (w := w) (x := ⟨k.sends, ep, km⟩)
        (hi.fresh rfl) (by simpa [Kernel.mail] using hr)
      refine .single ?_
      convert hstep using 1
      simp [Kernel.mail, Function.comp_update, Pc.deliveries, hpc, Pc.todo, Pc.awaits, Pc.reason,
        Job.delivery, hm, hsd, Out.acceptance, Out.receipt]
  | @sendBuffered t ep km mayBlock e' _ hpc hd =>
    cases Endpoint.decideSend_case hd with
    | buffered hr hr' hm hsd =>
      have hstep : Mail.Step Parcel.ep k.mail _ := .buffer (x := ⟨k.sends, ep, km⟩) (hi.fresh rfl)
      refine .single ?_
      convert hstep using 1
      simp [Kernel.mail, Function.comp_update, Pc.deliveries, hpc, Pc.todo, Pc.awaits, Pc.reason,
        hr, hr', hm, hsd, Out.acceptance, Out.receipt, Function.update_eq_self_iff]
  | @sendBlock t ep km mayBlock e' _ hpc hd =>
    cases Endpoint.decideSend_case hd with
    | block hr hr' hm _ hsd =>
      have hstep : Mail.Step Parcel.ep k.mail _ :=
        .wait (t := t) (x := ⟨k.sends, ep, km⟩) (hi.fresh rfl)
      refine .single ?_
      convert hstep using 1
      simp [Kernel.mail, Function.comp_update, Pc.deliveries, hpc, Pc.todo, Pc.awaits, Pc.reason,
        hr, hr', hm, hsd, Out.acceptance, Out.receipt, Function.update_eq_self_iff]
  | @recvGot t ep deadline p e' _ hpc hd =>
    cases Endpoint.decideRecv_case hd with
    | got hm hr hsd hsd' =>
      have hstep : Mail.Step Parcel.ep k.mail _ :=
        .take (e := ep) (x := p) (by simpa [Kernel.mail] using hm)
      refine .single ?_
      convert hstep using 1
      simp [Kernel.mail, Function.comp_update, Pc.deliveries, hpc, Pc.todo, Pc.awaits, Pc.reason,
        hr, hsd, hsd', Out.acceptance, Out.receipt, Function.update_eq_self_iff]
  | @recvWakeSender t tid ep deadline p e' _ hpc hd =>
    cases Endpoint.decideRecv_case hd with
    | @wakeSender _ q _ rest hm hm' hsd hr =>
      have hring : k.mail.ring ep = p :: rest := by simpa [Kernel.mail] using hm
      have htake : Mail.Step Parcel.ep k.mail _ := .take hring
      refine .tail (.single htake) ?_
      have hstep : Mail.Step Parcel.ep _ _ :=
        .promote (m := { k.mail with
          ring := Function.update k.mail.ring ep rest
          returned := k.mail.returned ++ [(ep, p)] }) (e := ep) (d := (tid, q))
          (by simpa [Kernel.mail] using hsd)
      convert hstep using 1
      simp [Kernel.mail, Function.comp_update, Pc.deliveries, hpc, Pc.todo, Pc.awaits, Pc.reason,
        Job.delivery, hr, hm', Out.acceptance, Out.receipt, Function.update_eq_self_iff]
  | @recvBlock t ep e' _ hpc hd | @recvBlockUntil t ep _ e' _ hpc hd =>
    cases Endpoint.decideRecv_case hd with
    | block hm hm' hsd hr =>
      have hstep : Mail.Step Parcel.ep k.mail _ :=
        .join (t := t) (e := ep) (by simp [Kernel.mail, hpc, Pc.awaits, Pc.reason])
      refine .single ?_
      convert hstep using 1
      simp [Kernel.mail, Function.comp_update, Pc.deliveries, hpc, Pc.todo, Pc.awaits, Pc.reason,
        hr, hm, hm', hsd, Function.update_eq_self_iff]
  | @resumeMessage t ep r p _ hpc hr hm =>
    have hawaits : (k.pc t).awaits = some ep := by
      rw [hpc]
      obtain rfl | rfl := hr <;> rfl
    have hstep : Mail.Step Parcel.ep k.mail _ :=
      .collect (t := t) (e := ep) (x := p) (by simpa [Kernel.mail] using hawaits)
        (by simpa [Kernel.mail] using hm)
    refine .single ?_
    convert hstep using 1
    simp [Kernel.mail, Function.comp_update, Pc.deliveries, hpc, Pc.todo, Pc.awaits, Pc.reason,
      Parking.takeMailbox, Out.acceptance, Out.receipt, Function.update_eq_self_iff]
  | @cancel t ep _ hpc =>
    have hmem : t ∈ (k.endpoint ep).receivers := by simpa [cancelsQueued, hpc] using hok
    have hstep : Mail.Step Parcel.ep k.mail _ :=
      .retract (t := t) (e := ep) (by simp [Kernel.mail, hpc, Pc.awaits])
        (by simpa [Kernel.mail] using hmem)
    refine .single ?_
    convert hstep using 1
    simp [Kernel.mail, Function.comp_update, Pc.deliveries, hpc, Pc.todo, Pc.awaits, Pc.reason,
      Function.update_eq_self_iff]

/-! ### The machine is tidy -/

/-- The table of endpoints grows, and only `allocate` hands one out. -/
theorem Step.allocated_cases (hs : Step k e k') (ep : ℕ) : k.neps ≤ k'.neps ∧
    ((k'.endpoint ep).allocated = (k.endpoint ep).allocated ∨
      ep < k'.neps ∧ (k'.endpoint ep).allocated = true) := by
  have hupdate : ∀ {ep₀ : ℕ} {e' : Endpoint Parcel},
      e'.allocated = (k.endpoint ep₀).allocated →
      (Function.update k.endpoint ep₀ e' ep).allocated = (k.endpoint ep).allocated := by
    intro ep₀ e' he'
    rcases eq_or_ne ep ep₀ with rfl | hne
    · simpa using he'
    · simp [hne]
  cases hs with
  | @allocate id n hid =>
    refine ⟨by show k.neps ≤ n; omega, ?_⟩
    rcases eq_or_ne ep id with rfl | hne
    · exact .inr ⟨by show ep < n; omega, by simp⟩
    · exact .inl (by simp [hne])
  | bindNotify | cancel => exact ⟨Nat.le_refl _, .inl (hupdate rfl)⟩
  | sendDeliver _ _ hd | sendBuffered _ _ hd | sendBlock _ _ hd =>
    exact ⟨Nat.le_refl _, .inl (hupdate (Endpoint.kept_decideSend hd).1)⟩
  | recvGot _ _ hd | recvWakeSender _ _ hd | recvBlock _ _ hd | recvBlockUntil _ _ hd =>
    exact ⟨Nat.le_refl _, .inl (hupdate (Endpoint.kept_decideRecv hd).1)⟩
  | @irqJob _ job | @taskJob _ job => cases job <;> exact ⟨Nat.le_refl _, .inl rfl⟩
  | _ => exact ⟨Nat.le_refl _, .inl rfl⟩

/-- An endpoint handed out stays so. -/
theorem Step.allocated (hs : Step k e k') {ep : ℕ} (h : (k.endpoint ep).allocated = true) :
    (k'.endpoint ep).allocated = true :=
  (hs.allocated_cases ep).2.elim (fun he => he.trans h) fun h => h.2

/-- What an endpoint that is not handed out looks like does not change. -/
theorem Step.spare (hs : Step k e k') (hi : k.Tidy) {ep : ℕ}
    (h : (k'.endpoint ep).allocated = false) : (k.endpoint ep).allocated = false ∧
      (k'.endpoint ep).msgs = (k.endpoint ep).msgs ∧
      (k'.endpoint ep).receivers = (k.endpoint ep).receivers ∧
      (k'.endpoint ep).senders = (k.endpoint ep).senders := by
  have hspare : (k.endpoint ep).allocated = false := by
    cases ha : (k.endpoint ep).allocated with
    | false => rfl
    | true => exact absurd (h.symm.trans (hs.allocated ha)) (by simp)
  refine ⟨hspare, ?_⟩
  have hupdate : ∀ {ep₀ : ℕ} {e' : Endpoint Parcel}, (ep = ep₀ →
      e'.msgs = (k.endpoint ep₀).msgs ∧ e'.receivers = (k.endpoint ep₀).receivers ∧
        e'.senders = (k.endpoint ep₀).senders) →
      (Function.update k.endpoint ep₀ e' ep).msgs = (k.endpoint ep).msgs ∧
        (Function.update k.endpoint ep₀ e' ep).receivers = (k.endpoint ep).receivers ∧
        (Function.update k.endpoint ep₀ e' ep).senders = (k.endpoint ep).senders := by
    intro ep₀ e' he'
    rcases eq_or_ne ep ep₀ with rfl | hne
    · simpa using he' rfl
    · simp [hne]
  cases hs with
  | allocate =>
    refine hupdate ?_
    rintro rfl
    simp at h
  | bindNotify => exact hupdate fun _ => ⟨rfl, rfl, rfl⟩
  | cancel =>
    refine hupdate ?_
    rintro rfl
    simp [(hi.empty _ hspare).2.1]
  | sendDeliver _ hpc | sendBuffered _ hpc | sendBlock _ hpc =>
    refine hupdate ?_
    rintro rfl
    exact absurd (hspare.symm.trans (hi.decides _ _ (by rw [hpc]; rfl))) (by simp)
  | recvGot _ hpc | recvWakeSender _ hpc | recvBlock _ hpc | recvBlockUntil _ hpc =>
    refine hupdate ?_
    rintro rfl
    exact absurd (hspare.symm.trans (hi.decides _ _ (by rw [hpc]; rfl))) (by simp)
  | irqJob | taskJob => simp
  | _ => exact ⟨rfl, rfl, rfl⟩

/-- Only a send accepts a message, and it is a new one. -/
theorem Step.accepted (hs : Step k e k') {p : Parcel} (h : .accepted p ∈ k'.log) :
    .accepted p ∈ k.log ∨ p.num = k.sends ∧ k'.sends = k.sends + 1 := by
  refine (hs.recorded h).imp id fun hnew => ?_
  cases hnew with
  | accepted _ hsends => exact ⟨rfl, hsends⟩

/-- A task about to decide was already, or has just made the call. -/
theorem Step.decides (hs : Step k e k') {ep : ℕ} (h : (k'.pc t).decides = some ep) :
    (k.pc t).decides = some ep ∨ (k.endpoint ep).allocated = true := by
  have hupdate : ∀ {t₀ : TaskId} {q : Pc}, (Function.update k.pc t₀ q t).decides = some ep →
      (q.decides = some ep → (k.endpoint ep).allocated = true) →
      (k.pc t).decides = some ep ∨ (k.endpoint ep).allocated = true := by
    intro t₀ q h hq
    rcases eq_or_ne t t₀ with rfl | hne
    · exact .inr (hq (by simpa using h))
    · exact .inl (by simpa [hne] using h)
  cases hs with
  | tick | wakeExpired | irq | allocate | create | bindNotify | bindFail | callFail | dispatch
  | preempt | sleepPast | notifyOnExit =>
    exact .inl h
  | irqJob => exact .inl (by simpa using h)
  | callSend _ _ ha | callRecv _ _ ha =>
    refine hupdate h fun hq => ?_
    obtain rfl := Option.some.inj hq
    exact ha
  | resumeAgain _ _ _ hto =>
    refine hupdate h fun hq => ?_
    obtain ⟨-, rfl⟩ | ⟨d, -, rfl⟩ := hto <;> cases hq
  | _ => exact hupdate h fun hq => by cases hq

theorem runJob_delivery {job job' : Job} (h : job' ∈ (k.runJob job).2) : job'.delivery = none := by
  cases job with
  | signal id =>
    obtain ⟨w, -, rfl⟩ := List.mem_map.mp h
    rfl
  | unblock | deliver => cases h

/-- Interrupt handlers deliver no messages. -/
theorem Step.irq_delivery (hs : Step k e k') (hi : ∀ c, ∀ job ∈ k.irq c, job.delivery = none) :
    ∀ c, ∀ job ∈ k'.irq c, job.delivery = none := by
  intro c job hj
  cases hs with
  | @irq c₀ id =>
    rcases eq_or_ne c c₀ with rfl | hne
    · simp only [Function.update_self, List.mem_singleton] at hj
      exact hj ▸ rfl
    · exact hi c job (by simpa [hne] using hj)
  | @irqJob c₀ job₀ rest h₀ =>
    rcases eq_or_ne c c₀ with rfl | hne
    · simp only [Function.update_self, List.mem_append] at hj
      exact hj.elim runJob_delivery fun hj => hi c job (by simp [h₀, hj])
    · exact hi c job (by simpa [hne] using hj)
  | taskJob => exact hi c job (by simpa using hj)
  | _ => exact hi c job hj

theorem Tidy.step (hi : k.Tidy) (hs : Step k e k') : k'.Tidy where
  spare ep hle := by
    obtain ⟨hneps, he | ⟨hlt, -⟩⟩ := hs.allocated_cases ep
    · exact he.trans (hi.spare ep (hneps.trans hle))
    · exact absurd hle (Nat.not_le.mpr hlt)
  empty ep h := by
    obtain ⟨hspare, hm, hr, hsd⟩ := hs.spare hi h
    rw [hm, hr, hsd]
    exact hi.empty ep hspare
  decides t ep h := hs.allocated ((hs.decides h).elim (hi.decides t ep) fun h => h)
  irq := hs.irq_delivery hi.irq
  num p h := by
    obtain h | ⟨hn, hsends⟩ := hs.accepted h
    · exact (hi.num p h).trans_le hs.sends_le
    · omega

theorem tidy_of_reach {ok : Kernel → Event → Prop} (h : waiting.Reach ok k) : k.Tidy :=
  waiting_invariant (I := Tidy)
    (fun _ => ⟨fun _ _ => rfl, fun _ _ => ⟨rfl, rfl, rfl⟩, by simp [boot, Pc.decides],
      by simp [boot], by simp [boot]⟩)
    (fun _ _ _ hi _ hs => hi.step hs) h

theorem sound_boot (clock : Option ℕ) : (boot clock).mail.Sound Parcel.ep where
  messages := by
    convert Ledger.exact_empty (h := (boot clock).mail.holds) ?_ using 1
    · simp [boot, Kernel.mail]
    · rintro (e | e | u | u | _) <;> rfl
  tickets := by
    convert Ledger.exact_empty (h := (boot clock).mail.tickets Parcel.ep) ?_ using 1
    · simp [boot, Kernel.mail, Pc.awaits, Pc.reason]
    · rintro (e | u | u) <;> rfl
  ring _ _ h := by cases h
  senders _ _ h := by cases h
  returned _ h := by cases h

theorem sound_of_reach (h : waiting.Reach (fun k e => k.cancelsQueued e = true) k) :
    k.mail.Sound Parcel.ep := by
  refine waiting_invariant_of (J := fun k => k.Tidy ∧ k.Shape)
    (I := fun k => k.mail.Sound Parcel.ep) (fun _ h => ⟨tidy_of_reach h, shape_of_reach h⟩)
    sound_boot (fun k e k' hJ hI hok hs => ?_) h
  exact hI.steps (hs.mail hJ.1 hJ.2 hI hok)

end Kernel

open Kernel

/-- **Exactly once, at the right endpoint.** In every run in which a receive that cancels is still
queued, every message accepted is in exactly one place, and has been returned at most once and
only by receives on the endpoint that accepted it. -/
theorem custody_of_queued {k : Kernel}
    (h : waiting.Reach (fun k e => k.cancelsQueued e = true) k) : k.Custody := by
  have hsound := sound_of_reach h
  refine ⟨?_, fun t ep p hm => hsound.returned (ep, p) (mem_returned.mpr ⟨t, hm⟩)⟩
  have := hsound.messages
  simpa only [mem_accepted] using this

/-- A receive times out and leaves the queue, and the message sent next is received once. -/
theorem custody_of_queued_run : ∃ k,
    waiting.runIf cancelsQueued (.boot (some 0))
      [.spawn, .spawn, .allocate, .dispatch 0, .dispatch 1, .call 0 (.recvUntil 0 10), .step 0,
        .step 0, .step 0, .tick 10, .wakeExpired, .dispatch 0, .step 0, .step 0,
        .call 1 (.send 0 .empty), .step 1, .step 1, .call 0 (.recv 0), .step 0] = some k ∧
      .received 0 0 ⟨0, 0, .empty⟩ ∈ k.log ∧ k.Custody := by
  obtain ⟨k, hrun, hlog⟩ : ∃ k, waiting.runIf cancelsQueued (.boot (some 0))
      [.spawn, .spawn, .allocate, .dispatch 0, .dispatch 1, .call 0 (.recvUntil 0 10), .step 0,
        .step 0, .step 0, .tick 10, .wakeExpired, .dispatch 0, .step 0, .step 0,
        .call 1 (.send 0 .empty), .step 1, .step 1, .call 0 (.recv 0), .step 0] = some k ∧
      .received 0 0 ⟨0, 0, .empty⟩ ∈ k.log := ⟨_, rfl, by decide⟩
  exact ⟨k, hrun, hlog, custody_of_queued (.of_runIf (fun _ _ _ h => h) (.init ⟨_, rfl⟩) hrun)⟩

/-- **A message can go astray.** A task's receive on endpoint 0 passes its deadline when a sender
has just taken the task off the queue. The receive finds no message, has nothing to take off the
queue, and returns; then the message arrives. The task's next receive, on endpoint 1, returns it. -/
theorem message_astray : ¬ ∀ k, waiting.Reachable k → k.Custody := by
  obtain ⟨k, hr, hm⟩ : ∃ k, waiting.Reachable k ∧ .received 0 1 ⟨0, 0, .empty⟩ ∈ k.log :=
    ⟨_, .of_run [.spawn, .spawn, .allocate, .allocate, .dispatch 0, .dispatch 1,
      .call 0 (.recvUntil 0 10), .step 0, .step 0, .step 0, .call 1 (.send 0 .empty), .step 1,
      .tick 10, .wakeExpired, .dispatch 0, .step 0, .step 0, .step 1, .call 0 (.recv 1), .step 0,
      .step 0, .step 0] ⟨some 0, rfl⟩ rfl, by decide⟩
  exact fun h => absurd ((h k hr).2 0 1 _ hm) (by decide)

end StarOS
