import StarOS.Lib.Trace
import StarOS.Syscall.Step
import StarOS.Wait.Carry

/-!
# Where capabilities come from

Every capability in a table was granted when its process was spawned, or made by a call of one of
the table's tasks, or came in a message; and a message has the capability its sender's table held
at the handle it named. So no run of system calls makes an endpoint right out of nothing, and only
a device authority makes a device or an interrupt.

One call leaves a capability behind when it fails: `IrqRegister` installs the notification's
capability and only then registers the line, and does not take it back when that is refused. The
other calls that make capabilities undo what they did.

## Main definitions

* `Sys.grants`, `Sys.sends`, `Sys.mints`, `Sys.creates` — what a step does
* `Sys.NoAmplification`

## Main results

* `Sys.Step.tables`, `Sys.Step.carried` — where what is held after a step comes from
* `Sys.endpoints_granted`, `Sys.devices_authorized` — what no run makes
* `registration_leaves_capability` — a run in which a failed call leaves a capability
* `no_amplification_of_registrable` — without such a failure there is none
-/

namespace StarOS

open EventSystem

namespace Sys

variable {s s' : Sys} {e : SysEvent} {tr : List (Sys × SysEvent)} {c : Cap} {T n : ℕ}
  {t : TaskId} {km : KMessage} {o : Object} {obj : ObjectRef}

/-! ### What a step does -/

/-- The table a step spawns a process with, and what it grants there. -/
def grants (s : Sys) : SysEvent → Option (ℕ × List Cap)
  | .spawn caps => some (s.ntables, caps)
  | _ => none

/-- The capability a step takes from the table of a task that sends it. -/
def sends (s : Sys) : SysEvent → Option Cap
  | .step t _ _ =>
    match s.stage t with
    | .transferring _ msg _ => (s.table t).resolveCap msg.cap
    | _ => none
  | _ => none

/-- The capability a step of a call installs for an object the call made: the table, the number
of the call, and the capability. -/
def mints (s : Sys) : SysEvent → Option (ℕ × ℕ × Cap)
  | .step t room _ =>
    match s.stage t with
    | .installing n m obj =>
      ((s.table t).install room (m.cap obj)).map fun _ => (s.space t, n, m.cap obj)
    | _ => none
  | _ => none

/-- The object a step of a call makes: the number of the call, the object, and the reference. -/
def creates (s : Sys) : SysEvent → Option (ℕ × Object × ObjectRef)
  | .step t room _ =>
    match s.stage t with
    | .creating n m => (Obj.create true room s.objects m.object).map fun r => (n, m.object, r.1)
    | _ => none
  | _ => none

/-- Capability `c` was granted in table `T` when its process was spawned. -/
def Granted (tr : List (Sys × SysEvent)) (T : ℕ) (c : Cap) : Prop :=
  Once tr fun s e => ∃ caps, s.grants e = some (T, caps) ∧ c ∈ caps

/-- Capability `c` was in the table of a task that sent it, when it did. -/
def Sent (tr : List (Sys × SysEvent)) (c : Cap) : Prop := Once tr fun s e => s.sends e = some c

/-- Call `n` installed `c` in table `T`. -/
def Minted (tr : List (Sys × SysEvent)) (T n : ℕ) (c : Cap) : Prop :=
  Once tr fun s e => s.mints e = some (T, n, c)

/-- Call `n` made object `o`, and `obj` refers to it. -/
def Created (tr : List (Sys × SysEvent)) (n : ℕ) (o : Object) (obj : ObjectRef) : Prop :=
  Once tr fun s e => s.creates e = some (n, o, obj)

/-- Call `n` asked for object `o`, and its task held a capability to a live device authority. -/
def Authorized (tr : List (Sys × SysEvent)) (n : ℕ) (o : Object) : Prop :=
  Once tr fun s e => ∃ t c authority m a, e = .call t c ∧ s.calls = n ∧
    c.privileged = some (authority, m) ∧ m.object = o ∧
    (s.table t).resolveCap authority = some (.deviceAuthority a) ∧
    Obj.get s.objects a = some .deviceAuthority

/-- Call `n` answered with a handle, or is about to register its line. -/
def Succeeds (s : Sys) (n : ℕ) : Prop :=
  (∃ handle, (n, .ok handle) ∈ s.answers) ∨ ∃ t, (s.stage t).pending = some n

/-- Capability `c` is in a table or in a message, the messages that receives are about to return
among them. -/
inductive Held (s : Sys) (c : Cap) : Prop
  | table {T : ℕ} : some c ∈ s.caps T → Held s c
  | message {km : KMessage} : s.kernel.Carries km → km.cap = some c → Held s c
  | received {t : TaskId} {km : KMessage} : s.stage t = .received km → km.cap = some c → Held s c

/-- Every capability in a table was granted there at spawn, made there by a call that succeeds, or
sent; those in messages were sent, from the table of their sender; endpoint rights are those
granted at spawn; and a device or interrupt capability that was not is to an object made by a call
of a task that held a live device authority. -/
structure NoAmplification (tr : List (Sys × SysEvent)) (s : Sys) : Prop where
  tables : ∀ T c, some c ∈ s.caps T →
    Granted tr T c ∨ (∃ n, Minted tr T n c ∧ s.Succeeds n) ∨ Sent tr c
  messages : ∀ km c, s.kernel.Carries km → km.cap = some c → Sent tr c
  endpoints : ∀ obj send recv, s.Held (.endpoint obj send recv) →
    ∃ T, Granted tr T (.endpoint obj send recv)
  devices : ∀ obj c, c = .device obj ∨ c = .irq obj → s.Held c →
    (∃ T, Granted tr T c) ∨ ∃ T n o, Authorized tr n o ∧ Created tr n o obj ∧ Minted tr T n c ∧
      (c = .device obj ∧ (∃ phys, o = .device phys) ∨
        c = .irq obj ∧ ∃ intid, o = .interrupt intid)

/-! ### Where what is held comes from -/

/-- What is in a table after one table has changed. -/
theorem mem_setTable {table : CapTable} (h : some c ∈ (s.setTable t table).caps T) :
    some c ∈ s.caps T ∨ T = s.space t ∧ some c ∈ table := by
  rcases eq_or_ne T (s.space t) with rfl | hne
  · exact .inr ⟨rfl, by simpa [setTable] using h⟩
  · exact .inl (by simpa [setTable, hne] using h)

theorem mints_eq_some : s.mints e = some (T, n, c) ↔
    ∃ t room enabled m obj handle table, e = .step t room enabled ∧
      s.stage t = .installing n m obj ∧ s.space t = T ∧ Mint.cap obj m = c ∧
      (s.table t).install room c = some (handle, table) := by
  constructor
  · intro h
    cases e with
    | step t room enabled =>
      simp only [mints] at h
      split at h
      · next n' m obj hst =>
        obtain ⟨⟨handle, table⟩, hi, hr⟩ := Option.map_eq_some_iff.mp h
        simp only [Prod.mk.injEq] at hr
        obtain ⟨rfl, rfl, rfl⟩ := hr
        exact ⟨t, room, enabled, m, obj, handle, table, rfl, hst, rfl, rfl, hi⟩
      · cases h
    | _ => cases h
  · rintro ⟨t, room, enabled, m, obj, handle, table, rfl, hst, rfl, rfl, hi⟩
    simp [mints, hst, hi]

/-- **What is in a table after a step** was there, is granted, is made by a call, or came in a
message that a receive returns. -/
theorem Step.tables (hs : Step s e s') (h : some c ∈ s'.caps T) :
    some c ∈ s.caps T ∨ (∃ caps, s.grants e = some (T, caps) ∧ c ∈ caps) ∨
      (∃ n, s.mints e = some (T, n, c)) ∨
      ∃ t km, s.stage t = .received km ∧ km.cap = some c := by
  cases hs with
  | spawn =>
    simp only at h
    rcases eq_or_ne T s.ntables with rfl | hne
    · exact .inr (.inl ⟨_, rfl, by simpa [emptyCaps] using h⟩)
    · exact .inl (by simpa [hne] using h)
  | spawnChild =>
    simp only at h
    rcases eq_or_ne T s.ntables with rfl | hne
    · simp [emptyCaps] at h
    · exact .inl (by simpa [hne] using h)
  | install hst hi =>
    obtain h | ⟨rfl, hm⟩ := mem_setTable h
    · exact .inl h
    · obtain h | rfl := CapTable.mem_install hi hm
      · exact .inl h
      · exact .inr (.inr (.inl
          ⟨_, mints_eq_some.mpr ⟨_, _, _, _, _, _, _, rfl, hst, rfl, rfl, hi⟩⟩))
  | installLine hst hi =>
    obtain h | ⟨rfl, hm⟩ := mem_setTable h
    · exact .inl h
    · obtain h | rfl := CapTable.mem_install hi hm
      · exact .inl h
      · exact .inr (.inr (.inl
          ⟨_, mints_eq_some.mpr ⟨_, _, _, _, _, _, _, rfl, hst, rfl, rfl, hi⟩⟩))
  | take hst hcap hi =>
    obtain h | ⟨rfl, hm⟩ := mem_setTable h
    · exact .inl h
    · obtain h | rfl := CapTable.mem_install hi hm
      · exact .inl h
      · exact .inr (.inr (.inr ⟨_, _, hst, hcap⟩))
  | _ => exact .inl h

/-- A step of the waiting machine that is no call carries nothing new. -/
theorem carried_of_next {k k' : Kernel} {e : Event} (hk : k.next e = some k')
    (he : ∀ t c, e = .call t c → c.message = none) (h : k'.Carries km) : k.Carries km := by
  obtain h | ⟨t, c, rfl, hc⟩ := (Kernel.Step.of_next hk).carries h
  · exact h
  · simp [he t c rfl] at hc

/-- **What is in a message after a step** was, or is sent now. -/
theorem Step.carried (hs : Step s e s') (h : s'.kernel.Carries km) (hc : km.cap = some c) :
    s.kernel.Carries km ∨ s.sends e = some c := by
  cases hs with
  | kernel hk hcall =>
    exact .inl (carried_of_next hk (fun t c he => absurd he (hcall t c)) h)
  | deliver _ hk | irq hk | spawn hk | spawnChild hk | spawnThread hk | bind _ hk
  | notify _ _ hk =>
    exact .inl (carried_of_next hk (fun t c he => by cases he) h)
  | enter _ hk hm =>
    refine .inl (carried_of_next hk (fun t c he => ?_) h)
    cases he
    exact hm
  | enterWait _ hk =>
    refine .inl (carried_of_next hk (fun t c he => ?_) h)
    cases he
    rfl
  | transfer hst hcap hm hk =>
    refine ((Kernel.Step.of_next hk).carries h).imp id ?_
    rintro ⟨t, c', he, hc'⟩
    cases he
    obtain rfl := Option.some.inj (hm.symm.trans hc')
    simpa [sends, hst] using hcap _ hc
  | _ => exact .inl h

/-- A message that a receive is about to return was, or was carried. -/
theorem Step.received (hs : Step s e s') (h : s'.stage t = .received km) :
    s.stage t = .received km ∨ s.kernel.Carries km := by
  have hgoto : ∀ {t₀ : TaskId} {st : Stage},
      Function.update s.stage t₀ st t = .received km → st ≠ .received km →
      s.stage t = .received km := by
    intro t₀ st h hst
    rcases eq_or_ne t t₀ with rfl | hne
    · exact absurd (by simpa using h) hst
    · simpa [hne] using h
  cases hs with
  | same | kernel | irq | create | spawn | freeReclaimable | revoke | spawnChild | spawnThread =>
    exact .inl h
  | @deliver t₀ km₀ kernel hst hk hd =>
    rcases eq_or_ne t t₀ with rfl | hne
    · simp only [goto, Function.update_self, Stage.received.injEq] at h
      subst h
      obtain ⟨o, ho, hkm⟩ := List.exists_of_findSome?_eq_some hd
      cases o with
      | received t₁ ep p =>
        obtain rfl := Option.some.inj hkm
        exact .inr ((Kernel.Step.of_next hk).returns ho)
      | _ => cases hkm
    · exact .inl (by simpa [goto, hne] using h)
  | enter _ _ _ hstage =>
    refine .inl (hgoto h ?_)
    obtain rfl | rfl := hstage <;> simp
  | _ => exact .inl (hgoto h (by simp))

/-- Whatever is held after a step was held, is granted, or is made by a call. -/
theorem Step.held (hs : Step s e s') (h : s'.Held c) :
    s.Held c ∨ (∃ T caps, s.grants e = some (T, caps) ∧ c ∈ caps) ∨
      ∃ T n, s.mints e = some (T, n, c) := by
  cases h with
  | table h =>
    obtain h | ⟨caps, hg⟩ | ⟨n, hm⟩ | ⟨t, km, hst, hc⟩ := hs.tables h
    · exact .inl (.table h)
    · exact .inr (.inl ⟨_, caps, hg⟩)
    · exact .inr (.inr ⟨_, n, hm⟩)
    · exact .inl (.received hst hc)
  | message h hc =>
    obtain h | hsent := hs.carried h hc
    · exact .inl (.message h hc)
    · -- what is sent is in the table of its sender
      unfold sends at hsent
      split at hsent
      · split at hsent
        · exact .inl (.table (CapTable.mem_of_resolveCap hsent))
        · cases hsent
      · cases hsent
  | received h hc =>
    obtain h | h := hs.received h
    · exact .inl (.received h hc)
    · exact .inl (.message h hc)

/-! ### What no run makes -/

/-- What a task between two steps of a call knows of how it came there. -/
def Stage.Sound (tr : List (Sys × SysEvent)) : Stage → Prop
  | .creating n m => m.privileged = true → Authorized tr n m.object
  | .installing n m obj => Created tr n m.object obj ∧
      (m.privileged = true → Authorized tr n m.object)
  | .received km => ∀ c, km.cap = some c → Sent tr c
  | _ => True

theorem Stage.Sound.snoc {st : Stage} (h : Stage.Sound tr st) :
    Stage.Sound (tr ++ [(s, e)]) st := by
  cases st with
  | creating => exact fun hp => (h hp).snoc
  | installing => exact ⟨h.1.snoc, fun hp => (h.2 hp).snoc⟩
  | received => exact fun c hc => (h c hc).snoc
  | _ => trivial

/-- What is in messages was sent, and every call is where it is for a reason. -/
structure Accounted (tr : List (Sys × SysEvent)) (s : Sys) : Prop where
  messages : ∀ km c, s.kernel.Carries km → km.cap = some c → Sent tr c
  stages : ∀ t, Stage.Sound tr (s.stage t)

theorem Accounted.step (h : Accounted tr s) (hs : Step s e s') :
    Accounted (tr ++ [(s, e)]) s' := by
  refine ⟨fun km c hcar hc => ?_, fun t => ?_⟩
  · obtain hcar | hsent := hs.carried hcar hc
    · exact (h.messages km c hcar hc).snoc
    · exact once_now hsent
  · have hgoto : ∀ {t₀ : TaskId} {st : Stage}, Stage.Sound (tr ++ [(s, e)]) st →
        Stage.Sound (tr ++ [(s, e)]) (Function.update s.stage t₀ st t) := by
      intro t₀ st hst
      rcases eq_or_ne t t₀ with rfl | hne
      · simpa using hst
      · simpa [hne] using (h.stages t).snoc
    have hold := (h.stages t).snoc (s := s) (e := e)
    cases hs with
    | same | kernel | irq | create | spawn | freeReclaimable | revoke | spawnChild | spawnThread =>
      exact hold
    | deliver hst hk hd =>
      refine hgoto fun c hc => ?_
      obtain ⟨o, ho, hkm⟩ := List.exists_of_findSome?_eq_some hd
      cases o with
      | received t₁ ep p =>
        obtain rfl := Option.some.inj hkm
        exact (h.messages _ c ((Kernel.Step.of_next hk).returns ho) hc).snoc
      | _ => cases hkm
    | enter _ _ _ hstage =>
      refine hgoto ?_
      obtain rfl | rfl := hstage <;> trivial
    | grant _ hc ha =>
      refine hgoto fun _ => once_now ?_
      obtain ⟨a, hcap, hget⟩ := checkAuthority_eq_ok ha
      exact ⟨_, _, _, _, a, rfl, rfl, hc, rfl, hcap, hget⟩
    | allocated _ hm | notify _ hm => exact hgoto fun hp => by simp [hm] at hp
    | @make t₀ room enabled n m obj objects hst hc =>
      have hprev := h.stages t₀
      rw [hst] at hprev
      refine hgoto ⟨once_now ?_, fun hp => (hprev hp).snoc⟩
      simp [creates, hst, hc]
    | _ => exact hgoto trivial

variable {ok : Sys → SysEvent → Prop}

theorem accounted (h : system.Trace ok tr s) : Accounted tr s := by
  refine h.invariant (fun s hs => ?_) fun tr s e s' hi _ hn => hi.step (.of_next hn)
  obtain ⟨clock, rfl⟩ := hs
  exact ⟨fun km c hcar => absurd hcar (Kernel.not_carries_boot clock), fun t => trivial⟩

/-- Whatever is held was granted or made by a call. -/
theorem held_origin (h : system.Trace ok tr s) (hc : s.Held c) :
    (∃ T, Granted tr T c) ∨ ∃ T n, Minted tr T n c := by
  revert c
  refine h.invariant (I := fun tr s => ∀ {c}, s.Held c →
    (∃ T, Granted tr T c) ∨ ∃ T n, Minted tr T n c) (fun s hs c hc => ?_)
    fun tr s e s' hi _ hn c hc => ?_
  · obtain ⟨clock, rfl⟩ := hs
    cases hc with
    | table h => simp [boot] at h
    | message h => exact absurd h (Kernel.not_carries_boot clock)
    | received h => cases h
  · obtain hc | ⟨T, caps, hg⟩ | ⟨T, n, hm⟩ := (Step.of_next hn).held hc
    · obtain ⟨T, hg⟩ | ⟨T, n, hm⟩ := hi hc
      · exact .inl ⟨T, hg.snoc⟩
      · exact .inr ⟨T, n, hm.snoc⟩
    · exact .inl ⟨T, once_now ⟨caps, hg⟩⟩
    · exact .inr ⟨T, n, once_now hm⟩

/-- What a call makes, it makes of the object it created, with the authority that takes. -/
theorem of_minted (h : system.Trace ok tr s) (hm : Minted tr T n c) :
    ∃ (m : Mint) (obj : ObjectRef), m.cap obj = c ∧ Created tr n m.object obj ∧
      (m.privileged = true → Authorized tr n m.object) := by
  obtain ⟨⟨s₁, e₁⟩, hx, hmint⟩ := hm
  obtain ⟨tr₁, hpre, htr₁⟩ := h.of_mem hx
  obtain ⟨t, _, _, m, obj, _, _, -, hst, -, hcap, -⟩ := mints_eq_some.mp hmint
  have hsound := (accounted htr₁).stages t
  rw [hst] at hsound
  exact ⟨m, obj, hcap, hsound.1.of_initial hpre, fun hp => (hsound.2 hp).of_initial hpre⟩

/-- **Endpoint rights never grow**: every capability to an endpoint was granted as it is. -/
theorem endpoints_granted (h : system.Trace ok tr s) {send recv : Bool}
    (hc : s.Held (.endpoint obj send recv)) : ∃ T, Granted tr T (.endpoint obj send recv) := by
  obtain hg | ⟨T, n, hm⟩ := held_origin h hc
  · exact hg
  · obtain ⟨m, obj', hcap, -⟩ := of_minted h hm
    cases m <;> cases hcap

/-- **Devices and interrupts take authority.** -/
theorem devices_authorized (h : system.Trace ok tr s) (hk : c = .device obj ∨ c = .irq obj)
    (hc : s.Held c) : (∃ T, Granted tr T c) ∨ ∃ T n o, Authorized tr n o ∧ Created tr n o obj ∧
      Minted tr T n c ∧ (c = .device obj ∧ (∃ phys, o = .device phys) ∨
        c = .irq obj ∧ ∃ intid, o = .interrupt intid) := by
  refine (held_origin h hc).imp id ?_
  rintro ⟨T, n, hm⟩
  obtain ⟨m, obj', hcap, hcre, hauth⟩ := of_minted h hm
  refine ⟨T, n, m.object, ?_⟩
  cases m with
  | device phys =>
    obtain rfl | rfl := hk
    · obtain rfl := Cap.device.inj hcap
      exact ⟨hauth rfl, hcre, hm, .inl ⟨rfl, phys, rfl⟩⟩
    · cases hcap
  | interrupt intid =>
    obtain rfl | rfl := hk
    · cases hcap
    · obtain rfl := Cap.irq.inj hcap
      exact ⟨hauth rfl, hcre, hm, .inr ⟨rfl, intid, rfl⟩⟩
  | notification | line | shared | dma => obtain rfl | rfl := hk <;> cases hcap

/-! ### Calls that fail -/

/-- A line about to be registered is free, there is room for its binding, and the controller
accepts it. -/
def registrable (s : Sys) : SysEvent → Bool
  | .step t room enabled =>
    match s.stage t with
    | .registering _ intid _ _ => Irq.canRegister s.bindings room enabled intid
    | _ => true
  | _ => true

/-- Answers are kept. -/
theorem Step.answers (hs : Step s e s') : s.answers <+: s'.answers := by
  cases hs with
  | install | undo | register | notifyFail | makeFail | installLineFail =>
    exact List.prefix_append ..
  | _ => exact List.prefix_refl _

/-- A registration that is due is made, where it can be. -/
theorem Step.pending (hs : Step s e s') (hok : s.registrable e = true)
    (h : (s.stage t).pending = some n) :
    (s'.stage t).pending = some n ∨ ∃ handle, (n, .ok handle) ∈ s'.answers := by
  have hgoto : ∀ {t₀ : TaskId} {st : Stage}, (s.stage t₀).pending = none →
      (Function.update s.stage t₀ st t).pending = some n := by
    intro t₀ st h₀
    rcases eq_or_ne t t₀ with rfl | hne
    · simp [h] at h₀
    · simpa [hne] using h
  cases hs with
  | same | kernel | irq | create | spawn | freeReclaimable | revoke | spawnChild | spawnThread =>
    exact .inl h
  | @register t₀ room enabled n₀ intid id handle bindings r hst hr =>
    rcases eq_or_ne t t₀ with rfl | hne
    · simp only [registrable, hst] at hok
      rw [hst, Stage.pending, Option.some.injEq] at h
      subst h
      exact .inr ⟨handle, by simp [answer, hr hok]⟩
    · exact .inl (by simpa [answer, goto, hne] using h)
  | ret hcall =>
    refine .inl (hgoto ?_)
    generalize s.stage _ = st at hcall
    cases st <;> first | rfl | cases hcall
  | deliver hst | send hst | enter hst | waitAny hst | endpointBind hst | notifying hst
  | grant hst | allocated hst | transfer hst | resolve hst | enterWait hst | bind hst | notify hst
  | make hst | install hst | installLine hst | installFail hst | undo hst | notifyFail hst
  | makeFail hst | installLineFail hst | take hst =>
    exact .inl (hgoto (by rw [hst]; rfl))

/-- A call that has succeeded has, and one that is about to will, where its line can be
registered. -/
theorem Step.succeeds (hs : Step s e s') (hok : s.registrable e = true) (h : s.Succeeds n) :
    s'.Succeeds n := by
  obtain ⟨handle, h⟩ | ⟨t, h⟩ := h
  · exact .inl ⟨handle, hs.answers.subset h⟩
  · obtain h | h := hs.pending hok h
    · exact .inr ⟨t, h⟩
    · exact .inl h

/-- A call that installs its capability succeeds, but for the registration of a line. -/
theorem Step.succeeds_of_mints (hs : Step s e s') (hm : s.mints e = some (T, n, c)) :
    s'.Succeeds n := by
  obtain ⟨t, room, enabled, m, obj, handle, table, rfl, hst, rfl, rfl, hi⟩ := mints_eq_some.mp hm
  have hstage : ∀ {st : Stage}, s.stage t = st → st = .installing n m obj :=
    fun h => h.symm.trans hst
  cases hs with
  | same h => exact absurd rfl (h t room enabled)
  | install h =>
    obtain ⟨rfl, rfl, rfl⟩ := Stage.installing.inj (hstage h)
    exact .inl ⟨_, List.mem_append_right _ (List.mem_singleton_self _)⟩
  | installLine h =>
    obtain ⟨rfl, rfl, rfl⟩ := Stage.installing.inj (hstage h)
    exact .inr ⟨t, by simp [goto, Stage.pending]⟩
  | installFail h hi' | installLineFail h hi' =>
    obtain ⟨rfl, rfl, rfl⟩ := Stage.installing.inj (hstage h)
    simp [hi] at hi'
  | ret hcall => simp [hst, Stage.call] at hcall
  | transfer h | resolve h | enterWait h | bind h | notify h | make h | undo h | register h
  | notifyFail h | makeFail h | take h => cases hstage h

/-- Every call that made a capability succeeds. -/
theorem minted_succeeds (h : system.Trace (fun s e => s.registrable e = true) tr s)
    (hm : Minted tr T n c) : s.Succeeds n := by
  revert hm
  refine h.invariant (I := fun tr s => Minted tr T n c → s.Succeeds n) (fun s _ hm => ?_)
    fun tr s e s' hi hok hn hm => ?_
  · obtain ⟨x, hx, -⟩ := hm
    cases hx
  · obtain hm | hm := once_snoc.mp hm
    · exact (Step.of_next hn).succeeds hok (hi hm)
    · exact (Step.of_next hn).succeeds_of_mints hm

/-- What is in a table was granted there, made there, or sent. -/
theorem table_origin {ok : Sys → SysEvent → Prop} (h : system.Trace ok tr s)
    (hc : some c ∈ s.caps T) :
    Granted tr T c ∨ (∃ n, Minted tr T n c) ∨ Sent tr c := by
  revert T c
  refine h.invariant_of (I := fun tr s => ∀ {c T}, some c ∈ s.caps T →
    Granted tr T c ∨ (∃ n, Minted tr T n c) ∨ Sent tr c) (fun tr s => accounted)
    (fun s hs c T hc => ?_) fun tr s e s' hacc hi _ hn c T hc => ?_
  · obtain ⟨clock, rfl⟩ := hs
    simp [boot] at hc
  · obtain hc | hg | ⟨n, hm⟩ | ⟨t, km, hst, hkm⟩ := (Step.of_next hn).tables hc
    · obtain hg | ⟨n, hm⟩ | hsent := hi hc
      · exact .inl hg.snoc
      · exact .inr (.inl ⟨n, hm.snoc⟩)
      · exact .inr (.inr hsent.snoc)
    · exact .inl (once_now hg)
    · exact .inr (.inl ⟨n, once_now hm⟩)
    · have hsound := hacc.stages t
      rw [hst] at hsound
      exact .inr (.inr (hsound c hkm).snoc)

end Sys

open Sys

/-- A device manager makes an interrupt capability and registers the line twice. -/
def secondRegistration : List SysEvent :=
  [.create .deviceAuthority true, .spawn [.deviceAuthority ⟨0, 0⟩], .kernel (.dispatch 0),
    .call 0 (.grantIrq 1 33), .step 0 true true, .step 0 true true,
    .call 0 (.irqRegister 2), .step 0 true true, .step 0 true true, .step 0 true true,
    .step 0 true true,
    .call 0 (.irqRegister 2), .step 0 true true, .step 0 true true, .step 0 true true,
    .step 0 true true]

/-- The second registration is refused, since the line is bound, and leaves the notification's
capability in the table. -/
theorem registration_leaves_capability :
    ¬ ∀ tr s, system.Trace (fun _ _ => True) tr s → NoAmplification tr s := by
  intro hall
  obtain ⟨s, hrun, hcap, hanswers, hstage⟩ : ∃ s, system.run (boot none) secondRegistration = some s ∧
      some (.notification ⟨3, 0⟩) ∈ s.caps 0 ∧
      s.answers = [(0, .ok 2), (1, .ok 3), (2, .error .invalidArgument)] ∧
      ∀ t, s.stage t = .user :=
    ⟨_, rfl, by decide, rfl, fun t => by cases t <;> rfl⟩
  have hinit : system.Trace (fun _ _ => True) [] (boot none) := .init ⟨none, rfl⟩
  have htr := hinit.of_runIf (fun _ _ _ _ => trivial) hrun
  obtain ⟨x, hx, caps, hg, hc⟩ | ⟨n, ⟨x, hx, hm⟩, hn⟩ | ⟨x, hx, hsent⟩ :=
    (hall _ _ htr).tables 0 _ hcap
  · have hnone : ∀ x ∈ system.stepsFrom (boot none) secondRegistration,
        ∀ r ∈ x.1.grants x.2, Cap.notification ⟨3, 0⟩ ∉ r.2 := by decide
    exact hnone x hx _ hg hc
  · have htwo : ∀ x ∈ system.stepsFrom (boot none) secondRegistration,
        ∀ r ∈ x.1.mints x.2, r.2.2 = .notification ⟨3, 0⟩ → r.2.1 = 2 := by decide
    obtain rfl : n = 2 := htwo x hx _ hm rfl
    obtain ⟨handle, hok⟩ | ⟨t, ht⟩ := hn
    · simp [hanswers] at hok
    · simp [hstage, Stage.pending] at ht
  · have hnone : ∀ x ∈ system.stepsFrom (boot none) secondRegistration,
        x.1.sends x.2 = none := by decide
    simp [hnone x hx] at hsent

/-- **No amplification, of the lines that can be registered.** In every run in which each line is
free when it is registered, and the controller accepts it, every capability in a table was granted
there at spawn, made there by a call that succeeds, or sent; those in messages were in the table of
their sender as it sent them; endpoint rights are those granted at spawn; and devices and
interrupts are, or a call made them of a task that held a live device authority. -/
theorem no_amplification_of_registrable {tr : List (Sys × SysEvent)} {s : Sys}
    (h : system.Trace (fun s e => s.registrable e = true) tr s) : NoAmplification tr s where
  tables T c hc := by
    obtain hg | ⟨n, hm⟩ | hsent := table_origin h hc
    · exact .inl hg
    · exact .inr (.inl ⟨n, hm, minted_succeeds h hm⟩)
    · exact .inr (.inr hsent)
  messages km c hcar hc := (accounted h).messages km c hcar hc
  endpoints obj send recv hc := endpoints_granted h hc
  devices obj c hk hc := devices_authorized h hk hc

/-- A device manager makes an interrupt capability and sends it to a driver, which registers the
line. -/
def delegatedRegistration : List SysEvent :=
  [.kernel .allocate, .create (.endpoint 0) true, .create .deviceAuthority true,
    .spawn [.deviceAuthority ⟨1, 0⟩, .endpoint ⟨0, 0⟩ true false],
    .spawn [.endpoint ⟨0, 0⟩ false true], .kernel (.dispatch 0), .kernel (.dispatch 1),
    .call 0 (.grantIrq 1 33), .step 0 true true, .step 0 true true,
    .call 0 (.send 2 (some { Message.new 0 with cap := 3 })), .step 0 true true,
    .kernel (.step 0), .kernel (.step 0),
    .call 1 (.recv 1), .kernel (.step 1), .step 1 true true,
    .call 1 (.irqRegister 2), .step 1 true true, .step 1 true true, .step 1 true true,
    .step 1 true true]

theorem no_amplification_of_registrable_run : ∃ tr s,
    system.Trace (fun s e => s.registrable e = true) tr s ∧
      s.caps 1 = [none, some (.endpoint ⟨0, 0⟩ false true), some (.irq ⟨2, 0⟩),
        some (.notification ⟨3, 0⟩)] ∧ NoAmplification tr s := by
  obtain ⟨s, hrun, hcaps⟩ : ∃ s, system.runIf registrable (boot none) delegatedRegistration =
      some s ∧ s.caps 1 = [none, some (.endpoint ⟨0, 0⟩ false true), some (.irq ⟨2, 0⟩),
        some (.notification ⟨3, 0⟩)] := ⟨_, rfl, by decide⟩
  have hinit : system.Trace (fun s e => s.registrable e = true) [] (boot none) :=
    .init ⟨none, rfl⟩
  have htr := hinit.of_runIf (fun _ _ _ h => h) hrun
  exact ⟨_, s, htr, hcaps, no_amplification_of_registrable htr⟩

end StarOS
