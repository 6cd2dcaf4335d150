import StarOS.Syscall.Machine
import StarOS.Wait.Step

/-!
# Everything one system event can do

`Sys.Step s e s'` lists the ways event `e` can take the system from `s` to `s'`, each with what
it found on the way.

## Main definitions

* `Sys.Step`

## Main results

* `Sys.Step.of_next` — the list is complete
* `Sys.Step.kernel_next` — the waiting machine inside makes its own steps
* `system_kernel` — so whatever holds in its runs holds here
-/

namespace StarOS

/-- The mints that need a device authority. -/
def Mint.privileged : Mint → Bool
  | .device _ | .interrupt _ => true
  | .notification _ | .line .. | .shared .. | .dma .. => false

/-- What a call asks for that only a device authority may have made, and the handle it names the
authority by. -/
def SysCall.privileged : SysCall → Option (Handle × Mint)
  | .grantDevice authority phys => some (authority, .device phys)
  | .grantIrq authority intid => some (authority, .interrupt intid)
  | _ => none

/-- The number of the call a task is in, if it makes a capability. -/
def Stage.call : Stage → Option ℕ
  | .notifying n _ | .creating n _ | .installing n _ _ | .undoing n _ | .registering n .. => some n
  | .user | .transferring .. | .receiving | .received _ | .resolving .. | .binding .. => none

/-- The call whose capability is installed, and whose line is not registered yet. -/
def Stage.pending : Stage → Option ℕ
  | .registering n .. => some n
  | _ => none

namespace Sys

variable {s s' : Sys} {e : SysEvent}

/-- The ways an event can go. -/
inductive Step (s : Sys) : SysEvent → Sys → Prop
  /-- Nothing is changed: an error at once, or an interrupt nobody registered for. -/
  | same {e : SysEvent} : (∀ t room enabled, e ≠ .step t room enabled) → Step s e s
  /-- An event of the waiting machine in which no receive gets its message. -/
  | kernel {e : Event} {kernel : Kernel} : s.kernel.next e = some kernel →
      (∀ t c, e ≠ .call t c) → Step s (.kernel e) { s with kernel }
  | deliver {t : TaskId} {km : KMessage} {kernel : Kernel} :
      s.stage t = .receiving → s.kernel.next (.step t) = some kernel →
      delivered s.kernel kernel = some km →
      Step s (.kernel (.step t)) { s.goto t (.received km) with kernel }
  | irq {c : CpuId} {intid : BitVec 32} {notif : ℕ} {kernel : Kernel} :
      s.kernel.next (.irq c notif) = some kernel → Step s (.irq c intid) { s with kernel }
  | create {object : Object} {room : Bool} {obj : ObjectRef} {objects : List Obj.Slot} :
      Obj.create (s.live object) room s.objects object = some (obj, objects) →
      Step s (.create object room) { s with objects }
  | spawn {grants : List Cap} {kernel : Kernel} : s.kernel.next .spawn = some kernel →
      Step s (.spawn grants) { s with
        kernel
        caps := Function.update s.caps s.ntables (emptyCaps ++ grants.map some)
        ntables := s.ntables + 1
        space := Function.update s.space s.kernel.ntasks s.ntables }
  | freeReclaimable :
      Step s .freeReclaimable { s with objects := (Obj.freeReclaimable s.objects).1 }
  | send {t : TaskId} {c : SysCall} {handle : Handle} {ep : ℕ} {msg : Message} {mayBlock : Bool} :
      s.stage t = .user → resolveSendableEndpoint (s.table t) s.objects handle = .ok ep →
      Step s (.call t c) (s.goto t (.transferring ep msg mayBlock))
  /-- A call that goes on in the waiting machine, without a message. -/
  | enter {t : TaskId} {sc : SysCall} {stage : Stage} {c : Call} {kernel : Kernel} :
      s.stage t = .user → s.kernel.next (.call t c) = some kernel → c.message = none →
      stage = .user ∨ stage = .receiving →
      Step s (.call t sc) { s.goto t stage with kernel }
  | waitAny {t : TaskId} {todo : List Handle} {deadline : Option ℕ} {d : ℕ} :
      s.stage t = .user →
      Step s (.call t (.waitAny todo d)) (s.goto t (.resolving todo [] deadline))
  | endpointBind {t : TaskId} {endpoint notif : Handle} {ep : ℕ} : s.stage t = .user →
      resolveReceivableEndpoint (s.table t) s.objects endpoint = .ok ep →
      Step s (.call t (.endpointBind endpoint notif)) (s.goto t (.binding ep notif))
  | revoke {t : TaskId} {handle : Handle} {cap : Cap} :
      (s.table t).resolveCap handle = some cap →
      Step s (.call t (.revoke handle)) { s with objects := (Obj.revoke s.objects cap.object).2 }
  | notifying {t : TaskId} {c : SysCall} {line : Option (BitVec 32)} : s.stage t = .user →
      Step s (.call t c) (s.begin t (.notifying s.calls line))
  | grant {t : TaskId} {c : SysCall} {authority : Handle} {m : Mint} : s.stage t = .user →
      c.privileged = some (authority, m) → checkAuthority (s.table t) s.objects authority = .ok () →
      Step s (.call t c) (s.begin t (.creating s.calls m))
  | allocated {t : TaskId} {c : SysCall} {m : Mint} : s.stage t = .user → m.privileged = false →
      Step s (.call t c) (s.begin t (.creating s.calls m))
  | spawnChild {t : TaskId} {kernel : Kernel} : s.kernel.next .spawn = some kernel →
      Step s (.call t (.spawn true)) { s with
        kernel
        caps := Function.update s.caps s.ntables emptyCaps
        ntables := s.ntables + 1
        space := Function.update s.space s.kernel.ntasks s.ntables }
  | spawnThread {t : TaskId} {kernel : Kernel} : s.kernel.next .spawn = some kernel →
      Step s (.call t (.spawnThread true)) { s with
        kernel
        space := Function.update s.space s.kernel.ntasks (s.space t) }
  | transfer {t : TaskId} {room enabled : Bool} {ep : ℕ} {msg : Message} {mayBlock : Bool}
      {cap : Option Cap} {c : Call} {kernel : Kernel} :
      s.stage t = .transferring ep msg mayBlock →
      (∀ c ∈ cap, (s.table t).resolveCap msg.cap = some c) → c.message = some ⟨msg, cap⟩ →
      s.kernel.next (.call t c) = some kernel →
      Step s (.step t room enabled) { s.goto t .user with kernel }
  /-- A call that makes no capability returns. -/
  | ret {t : TaskId} {room enabled : Bool} : (s.stage t).call = none →
      Step s (.step t room enabled) (s.goto t .user)
  | resolve {t : TaskId} {room enabled : Bool} {h : Handle} {todo : List Handle} {id : ℕ}
      {ids : List ℕ} {deadline : Option ℕ} : s.stage t = .resolving (h :: todo) ids deadline →
      resolveNotification (s.table t) s.objects h = .ok id →
      Step s (.step t room enabled) (s.goto t (.resolving todo (ids ++ [id]) deadline))
  | enterWait {t : TaskId} {room enabled : Bool} {ids : List ℕ} {deadline : Option ℕ}
      {kernel : Kernel} : s.stage t = .resolving [] ids deadline →
      s.kernel.next (.call t (.waitAny ids deadline)) = some kernel →
      Step s (.step t room enabled) { s.goto t .user with kernel }
  | bind {t : TaskId} {room enabled : Bool} {ep : ℕ} {notif : Handle} {n : Option ℕ}
      {kernel : Kernel} : s.stage t = .binding ep notif →
      s.kernel.next (.bindNotify ep n) = some kernel →
      Step s (.step t room enabled) { s.goto t .user with kernel }
  | notify {t : TaskId} {room enabled : Bool} {n : ℕ} {line : Option (BitVec 32)} {m : Mint}
      {kernel : Kernel} : s.stage t = .notifying n line → m.privileged = false →
      s.kernel.next .create = some kernel →
      Step s (.step t room enabled) { s.goto t (.creating n m) with kernel }
  | make {t : TaskId} {room enabled : Bool} {n : ℕ} {m : Mint} {obj : ObjectRef}
      {objects : List Obj.Slot} : s.stage t = .creating n m →
      Obj.create true room s.objects m.object = some (obj, objects) →
      Step s (.step t room enabled) { s.goto t (.installing n m obj) with objects }
  | install {t : TaskId} {room enabled : Bool} {n : ℕ} {m : Mint} {obj : ObjectRef}
      {handle : Handle} {table : CapTable} : s.stage t = .installing n m obj →
      (s.table t).install room (m.cap obj) = some (handle, table) →
      Step s (.step t room enabled) ((s.setTable t table).answer t n (.ok handle))
  | installLine {t : TaskId} {room enabled : Bool} {n : ℕ} {intid : BitVec 32} {id : ℕ}
      {obj : ObjectRef} {handle : Handle} {table : CapTable} :
      s.stage t = .installing n (.line intid id) obj →
      (s.table t).install room (.notification obj) = some (handle, table) →
      Step s (.step t room enabled) ((s.setTable t table).goto t (.registering n intid id handle))
  | installFail {t : TaskId} {room enabled : Bool} {n : ℕ} {m : Mint} {obj : ObjectRef} :
      s.stage t = .installing n m obj → (s.table t).install room (m.cap obj) = none →
      Step s (.step t room enabled) (s.goto t (.undoing n obj))
  | undo {t : TaskId} {room enabled : Bool} {n : ℕ} {obj : ObjectRef} :
      s.stage t = .undoing n obj →
      Step s (.step t room enabled)
        ({ s with objects := (Obj.revoke s.objects obj).2 }.answer t n (.error .outOfResources))
  | register {t : TaskId} {room enabled : Bool} {n : ℕ} {intid : BitVec 32} {id : ℕ}
      {handle : Handle} {bindings : List Irq.Binding} {r : Except KError Handle} :
      s.stage t = .registering n intid id handle →
      (Irq.canRegister s.bindings room enabled intid = true → r = .ok handle) →
      Step s (.step t room enabled) ({ s with bindings }.answer t n r)
  | notifyFail {t : TaskId} {room enabled : Bool} {n : ℕ} {line : Option (BitVec 32)} :
      s.stage t = .notifying n line →
      Step s (.step t room enabled) (s.answer t n (.error .outOfResources))
  | makeFail {t : TaskId} {room enabled : Bool} {n : ℕ} {m : Mint} :
      s.stage t = .creating n m →
      Step s (.step t room enabled) (s.answer t n (.error .outOfResources))
  | installLineFail {t : TaskId} {room enabled : Bool} {n : ℕ} {m : Mint} {obj : ObjectRef} :
      s.stage t = .installing n m obj → (s.table t).install room (m.cap obj) = none →
      Step s (.step t room enabled) (s.answer t n (.error .outOfResources))
  | take {t : TaskId} {room enabled : Bool} {km : KMessage} {cap : Cap} {handle : Handle}
      {table : CapTable} : s.stage t = .received km → km.cap = some cap →
      (s.table t).install room cap = some (handle, table) →
      Step s (.step t room enabled) ((s.setTable t table).goto t .user)

/-- A call that returns an error at once. -/
theorem Step.refused {t : TaskId} {c : SysCall} : Step s (.call t c) s := .same (by simp)

theorem Step.of_enter {t : TaskId} {sc : SysCall} {stage : Stage} {c : Call}
    (hst : s.stage t = .user) (h : s.enter t stage c = some s') (hc : c.message = none)
    (hstage : stage = .user ∨ stage = .receiving) : Step s (.call t sc) s' := by
  obtain ⟨kernel, hk, rfl⟩ := Option.map_eq_some_iff.mp h
  exact .enter hst hk hc hstage

theorem Step.of_onNotification {t : TaskId} {sc : SysCall} {notif : Handle} {c : ℕ → Call}
    (hst : s.stage t = .user) (h : s.onNotification t notif c = some s')
    (hc : ∀ id, (c id).message = none) : Step s (.call t sc) s' := by
  unfold onNotification at h
  split at h
  · exact .of_enter hst h (hc _) (.inl rfl)
  · exact Option.some.inj h ▸ .refused

theorem Step.of_recv {t : TaskId} {sc : SysCall} {endpoint : Handle} {deadline : Option ℕ}
    (hst : s.stage t = .user) (h : s.recv t endpoint deadline = some s') :
    Step s (.call t sc) s' := by
  unfold recv at h
  split at h
  · exact .of_enter hst h (by cases deadline <;> rfl) (.inr rfl)
  · exact Option.some.inj h ▸ .refused

theorem Step.of_send {t : TaskId} {c : SysCall} {endpoint : Handle} {msg : Option Message}
    {mayBlock : Bool} (hst : s.stage t = .user) :
    Step s (.call t c) (s.send t endpoint msg mayBlock) := by
  unfold Sys.send
  split
  · next hr => exact .send hst hr
  · exact .refused

theorem Step.of_grant {t : TaskId} {c : SysCall} {authority : Handle} {m : Mint}
    (hst : s.stage t = .user) (hc : c.privileged = some (authority, m)) :
    Step s (.call t c) (s.grant t authority m) := by
  unfold Sys.grant
  split
  · next ha => exact .grant hst hc ha
  · exact .refused

theorem Step.of_call {t : TaskId} {c : SysCall} (hst : s.stage t = .user)
    (h : s.call t c = some s') : Step s (.call t c) s' := by
  cases c with
  | send | sendNowait => exact Option.some.inj h ▸ .of_send hst
  | recv | recvUntil =>
    simp only [call] at h
    exact .of_recv hst h
  | wait | notifySignal => exact .of_onNotification hst h fun _ => rfl
  | waitAny handles deadline =>
    obtain rfl := Option.some.inj h
    split
    · exact .refused
    · exact .waitAny hst
  | sleepUntil => exact .of_enter hst h rfl (.inl rfl)
  | notifyOnExit notif =>
    simp only [call] at h
    split at h
    · exact .of_enter hst h rfl (.inl rfl)
    · exact .of_onNotification hst h fun _ => rfl
  | endpointBind endpoint notif =>
    simp only [call] at h
    split at h
    · next hr => exact Option.some.inj h ▸ .endpointBind hst hr
    · exact Option.some.inj h ▸ .refused
  | revoke handle =>
    simp only [call] at h
    split at h
    · next hr => exact Option.some.inj h ▸ .revoke hr
    · exact Option.some.inj h ▸ .refused
  | irqRegister line =>
    simp only [call] at h
    split at h
    · exact Option.some.inj h ▸ .notifying hst
    · exact Option.some.inj h ▸ .refused
  | notifyCreate => exact Option.some.inj h ▸ .notifying hst
  | grantDevice | grantIrq => exact Option.some.inj h ▸ .of_grant hst rfl
  | createShared pages run | createDma pages run =>
    obtain rfl := Option.some.inj h
    split
    · split
      · exact .refused
      · exact .allocated hst rfl
    · exact .refused
  | spawn room =>
    cases room with
    | false => exact Option.some.inj h ▸ .refused
    | true =>
      simp only [call, if_true] at h
      obtain ⟨kernel, hk, rfl⟩ := Option.map_eq_some_iff.mp h
      exact .spawnChild hk
  | spawnThread room =>
    cases room with
    | false => exact Option.some.inj h ▸ .refused
    | true =>
      simp only [call, if_true] at h
      obtain ⟨kernel, hk, rfl⟩ := Option.map_eq_some_iff.mp h
      exact .spawnThread hk
  | exit => exact .of_enter hst h rfl (.inl rfl)

theorem Step.of_create {t : TaskId} {room enabled : Bool} {n : ℕ} {m : Mint}
    (hst : s.stage t = .creating n m) :
    Step s (.step t room enabled) (s.create t n m room) := by
  unfold Sys.create
  split
  · next hc => exact .make hst hc
  · exact .makeFail hst

theorem Step.of_install {t : TaskId} {room enabled : Bool} {n : ℕ} {m : Mint} {obj : ObjectRef}
    (hst : s.stage t = .installing n m obj) :
    Step s (.step t room enabled) (s.install t n m obj room) := by
  unfold Sys.install
  split
  · next hi => exact .installLine hst hi
  · exact .install hst (by assumption)
  · next hi => exact .installLineFail hst hi
  · exact .installFail hst (by assumption)

theorem Step.of_take {t : TaskId} {room enabled : Bool} {km : KMessage}
    (hst : s.stage t = .received km) : Step s (.step t room enabled) (s.take t km room) := by
  unfold Sys.take
  split
  · next hc =>
    split
    · next hi => exact .take hst hc hi
    · exact .ret (by rw [hst]; rfl)
  · exact .ret (by rw [hst]; rfl)

theorem Step.of_sendWith {t : TaskId} {room enabled : Bool} {ep : ℕ} {msg : Message}
    {mayBlock : Bool} {cap : Option Cap} (h : s.sendWith t ep msg mayBlock cap = some s')
    (hst : s.stage t = .transferring ep msg mayBlock)
    (hcap : ∀ c ∈ cap, (s.table t).resolveCap msg.cap = some c) :
    Step s (.step t room enabled) s' := by
  obtain ⟨kernel, hk, rfl⟩ := Option.map_eq_some_iff.mp h
  exact .transfer hst hcap (by cases mayBlock <;> rfl) hk

theorem Step.of_advance {t : TaskId} {room enabled : Bool}
    (h : s.advance t room enabled = some s') : Step s (.step t room enabled) s' := by
  unfold advance at h
  split at h
  · cases h
  · next ep msg mayBlock hst =>
    split at h
    · exact .of_sendWith h hst (by simp)
    · split at h
      · next cap hr => exact .of_sendWith h hst (by simpa using hr)
      · exact Option.some.inj h ▸ .ret (by rw [hst]; rfl)
  · next hst => exact Option.some.inj h ▸ .ret (by rw [hst]; rfl)
  · next hst => exact Option.some.inj h ▸ .of_take hst
  · next hst =>
    split at h
    · next hr => exact Option.some.inj h ▸ .resolve hst hr
    · exact Option.some.inj h ▸ .ret (by rw [hst]; rfl)
  · next hst =>
    obtain ⟨kernel, hk, rfl⟩ := Option.map_eq_some_iff.mp h
    exact .enterWait hst hk
  · next hst =>
    split at h
    · obtain ⟨kernel, hk, rfl⟩ := Option.map_eq_some_iff.mp h
      exact .bind hst hk
    · split at h
      · obtain ⟨kernel, hk, rfl⟩ := Option.map_eq_some_iff.mp h
        exact .bind hst hk
      · exact Option.some.inj h ▸ .ret (by rw [hst]; rfl)
  · next n line hst =>
    split at h
    · obtain ⟨kernel, hk, rfl⟩ := Option.map_eq_some_iff.mp h
      exact .notify hst (by cases line <;> rfl) hk
    · exact Option.some.inj h ▸ .notifyFail hst
  · next hst => exact Option.some.inj h ▸ .of_create hst
  · next hst => exact Option.some.inj h ▸ .of_install hst
  · next hst => exact Option.some.inj h ▸ .undo hst
  · next hst =>
    refine Option.some.inj h ▸ .register hst fun hok => ?_
    rw [Irq.register_fst, hok, if_pos rfl]

/-- **The list is complete.** -/
theorem Step.of_next (h : s.next e = some s') : Step s e s' := by
  cases e with
  | kernel e =>
    simp only [next, Option.ite_none_right_eq_some, Option.map_eq_some_iff] at h
    obtain ⟨hp, kernel, hk, rfl⟩ := h
    have hcall : ∀ t c, e ≠ .call t c := by
      rintro t c rfl
      cases hp
    unfold kernelStep
    split
    · split
      · next hst hd => exact .deliver hst hk hd
      · exact .kernel hk hcall
    · exact .kernel hk hcall
  | irq c intid =>
    simp only [next] at h
    split at h
    · obtain ⟨kernel, hk, rfl⟩ := Option.map_eq_some_iff.mp h
      exact .irq hk
    · exact Option.some.inj h ▸ .same (by simp)
  | create object room =>
    simp only [next] at h
    split at h
    · next hc => exact Option.some.inj h ▸ .create hc
    · exact Option.some.inj h ▸ .same (by simp)
  | spawn grants =>
    simp only [next] at h
    obtain ⟨kernel, hk, rfl⟩ := Option.map_eq_some_iff.mp h
    exact .spawn hk
  | freeReclaimable => exact Option.some.inj h ▸ .freeReclaimable
  | call t c =>
    simp only [next, Option.ite_none_right_eq_some, Bool.and_eq_true, decide_eq_true_eq] at h
    exact .of_call h.1.2 h.2
  | step t room enabled =>
    simp only [next, Option.ite_none_right_eq_some] at h
    exact .of_advance h.2

/-- The waiting machine inside makes its own steps. -/
theorem Step.kernel_next (hs : Step s e s') :
    s'.kernel = s.kernel ∨ ∃ e, s.kernel.next e = some s'.kernel := by
  cases hs with
  | kernel hk | deliver _ hk | irq hk | spawn hk | enter _ hk | spawnChild hk | spawnThread hk
  | transfer _ _ _ hk | enterWait _ hk | bind _ hk | notify _ _ hk => exact .inr ⟨_, hk⟩
  | _ => exact .inl rfl

end Sys

/-- **Whatever holds of every run of the waiting machine holds of the one inside the system.** -/
theorem system_kernel {ok : Sys → SysEvent → Prop} {s : Sys} (h : system.Reach ok s) :
    waiting.Reachable s.kernel := by
  refine h.simulate Sys.kernel (fun s hs => ?_) fun s e s' _ _ hn hr => ?_
  · obtain ⟨clock, rfl⟩ := hs
    exact .init ⟨clock, rfl⟩
  obtain heq | ⟨e', he'⟩ := (Sys.Step.of_next hn).kernel_next
  · exact heq ▸ hr
  · exact hr.step trivial he'

end StarOS
