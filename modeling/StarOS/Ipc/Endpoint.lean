import Mathlib.Data.List.Count
import Mathlib.Data.List.Nodup
import StarOS.Abi
import StarOS.Lib.EventSystem
import StarOS.Lib.Queue

/-!
# An endpoint and its three queues

An endpoint is a ring of messages nobody has taken, a queue of tasks waiting for one, and a queue
of tasks waiting to leave one, each of the latter with the message it could not deposit. A send
and a receive each make one decision about the three with the endpoint lock held, and act on it
after the lock is dropped. This file is about the decisions; what happens between a decision and
its action is the subject of `Wait.Machine`.

## Main definitions

* `Endpoint.decideSend`, `Endpoint.decideRecv`, `Endpoint.cancelRecvWaiter`
* `Endpoint.Law` — which of the queues can be occupied together
* `Endpoint.Ledger` — an endpoint with the record of the decisions made on it

## Main results

* `Endpoint.SendCase`, `Endpoint.RecvCase` — everything a decision can do
* `Endpoint.queue_law` — first in, first out, over any sequence of decisions
-/

namespace StarOS

/-- Capacity of an endpoint's ring. -/
def ringCap : ℕ := 2

/-- How many tasks can be blocked, in each direction, on one endpoint. -/
def maxWaiters : ℕ := 4

/-- A rendezvous point for messages of type `α`. -/
structure Endpoint (α : Type*) where
  /-- Whether this slot of the table has been handed out. -/
  allocated : Bool
  /-- Messages nobody has taken. -/
  ring : RingBuffer α ringCap
  /-- Tasks blocked in a receive. -/
  recvWaiters : BoundedQueue TaskId maxWaiters
  /-- Tasks blocked in a send, each with its message. -/
  sendWaiters : BoundedQueue (TaskId × α) maxWaiters
  /-- The notification to signal when a message arrives. -/
  notify : Option ℕ

namespace Endpoint

variable {α : Type*}

/-- An endpoint not handed out, its ring filled with `x`. -/
def new (x : α) : Endpoint α where
  allocated := false
  ring := .empty x (by decide)
  recvWaiters := .empty
  sendWaiters := .empty
  notify := none

def pushMsg (e : Endpoint α) (km : α) : Option (Endpoint α) :=
  (e.ring.push km).map fun ring => { e with ring }

def popMsg (e : Endpoint α) : Option (α × Endpoint α) :=
  e.ring.pop.map fun (km, ring) => (km, { e with ring })

def pushRecvWaiter (e : Endpoint α) (task : TaskId) : Option (Endpoint α) :=
  (e.recvWaiters.push task).map fun recvWaiters => { e with recvWaiters }

def popRecvWaiter (e : Endpoint α) : Option (TaskId × Endpoint α) :=
  e.recvWaiters.pop.map fun (task, recvWaiters) => (task, { e with recvWaiters })

def pushSendWaiter (e : Endpoint α) (task : TaskId) (km : α) : Option (Endpoint α) :=
  (e.sendWaiters.push (task, km)).map fun sendWaiters => { e with sendWaiters }

def popSendWaiter (e : Endpoint α) : Option ((TaskId × α) × Endpoint α) :=
  e.sendWaiters.pop.map fun (waiter, sendWaiters) => (waiter, { e with sendWaiters })

/-- What a send does once the endpoint lock is dropped. -/
inductive SendAction
  | deliver (w : TaskId)
  | buffered
  | block
  | full
  /-- No room, and the caller asked not to wait. -/
  | wouldBlock
  deriving DecidableEq, Repr

/-- The decision a send makes. -/
def decideSend (e : Endpoint α) (me : TaskId) (km : α) (mayBlock : Bool) :
    SendAction × Endpoint α :=
  match e.popRecvWaiter with
  | some (w, e) => (.deliver w, e)
  | none =>
    match e.pushMsg km with
    | some e => (.buffered, e)
    | none =>
      if !mayBlock then (.wouldBlock, e)
      else
        match e.pushSendWaiter me km with
        | some e => (.block, e)
        | none => (.full, e)

/-- What a receive does once the endpoint lock is dropped. -/
inductive RecvAction (α : Type*)
  | got (km : α)
  /-- A blocked sender's message went into the slot just freed. -/
  | wakeSender (km : α) (tid : TaskId)
  | block
  | full
  deriving DecidableEq, Repr

/-- The decision a receive makes. -/
def decideRecv (e : Endpoint α) (me : TaskId) : RecvAction α × Endpoint α :=
  match e.popMsg with
  | some (km, e) =>
    match e.popSendWaiter with
    -- the source drops what `push_msg` answers
    | some ((tid, skm), e) => (.wakeSender km tid, (e.pushMsg skm).getD e)
    | none => (.got km, e)
  | none =>
    match e.pushRecvWaiter me with
    | some e => (.block, e)
    | none => (.full, e)

/-- Take `task` out of the queue of blocked receivers, if it is there. -/
def cancelRecvWaiter (e : Endpoint α) (task : TaskId) : Endpoint α :=
  { e with recvWaiters := e.recvWaiters.remove task }

/-- How many messages are buffered. Blocked senders are not counted. -/
def pending (e : Endpoint α) : ℕ := e.ring.len

/-! ### What a decision can do

The contents of the three queues, and each decision by what it does to them. -/

/-- The ring's messages, oldest first. -/
def msgs (e : Endpoint α) : List α := e.ring.toList

/-- The blocked receivers, oldest first. -/
def receivers (e : Endpoint α) : List TaskId := e.recvWaiters.items

/-- The blocked senders with their messages, oldest first. -/
def senders (e : Endpoint α) : List (TaskId × α) := e.sendWaiters.items

theorem pending_eq_zero {e : Endpoint α} : e.pending = 0 ↔ e.msgs = [] :=
  RingBuffer.toList_eq_nil.symm

@[simp] theorem msgs_new (x : α) : (new x).msgs = [] := rfl

@[simp] theorem receivers_new (x : α) : (new x).receivers = [] := rfl

@[simp] theorem senders_new (x : α) : (new x).senders = [] := rfl

@[simp] theorem msgs_cancelRecvWaiter (e : Endpoint α) (t : TaskId) :
    (e.cancelRecvWaiter t).msgs = e.msgs := rfl

@[simp] theorem receivers_cancelRecvWaiter (e : Endpoint α) (t : TaskId) :
    (e.cancelRecvWaiter t).receivers = e.receivers.erase t := rfl

@[simp] theorem senders_cancelRecvWaiter (e : Endpoint α) (t : TaskId) :
    (e.cancelRecvWaiter t).senders = e.senders := rfl

theorem length_receivers_le (e : Endpoint α) : e.receivers.length ≤ maxWaiters :=
  e.recvWaiters.fits

theorem length_senders_le (e : Endpoint α) : e.senders.length ≤ maxWaiters := e.sendWaiters.fits

theorem pushMsg_eq_some {e e' : Endpoint α} {km : α} (h : e.pushMsg km = some e') :
    e'.msgs = e.msgs ++ [km] ∧ e'.receivers = e.receivers ∧ e'.senders = e.senders := by
  obtain ⟨ring, hr, rfl⟩ := Option.map_eq_some_iff.mp h
  exact ⟨RingBuffer.toList_push hr, rfl, rfl⟩

theorem pushMsg_eq_none {e : Endpoint α} {km : α} :
    e.pushMsg km = none ↔ e.msgs.length = ringCap := by
  rw [pushMsg, Option.map_eq_none_iff]
  exact RingBuffer.push_eq_none

theorem popMsg_eq_some {e e' : Endpoint α} {km : α} (h : e.popMsg = some (km, e')) :
    e.msgs = km :: e'.msgs ∧ e'.receivers = e.receivers ∧ e'.senders = e.senders := by
  obtain ⟨⟨_, ring⟩, hr, heq⟩ := Option.map_eq_some_iff.mp h
  obtain ⟨rfl, rfl⟩ := Prod.mk.inj heq
  exact ⟨RingBuffer.toList_pop hr, rfl, rfl⟩

theorem popMsg_eq_none {e : Endpoint α} (h : e.popMsg = none) : e.msgs = [] :=
  RingBuffer.pop_eq_none.mp (Option.map_eq_none_iff.mp h)

theorem pushRecvWaiter_eq_some {e e' : Endpoint α} {t : TaskId}
    (h : e.pushRecvWaiter t = some e') :
    e'.receivers = e.receivers ++ [t] ∧ e'.msgs = e.msgs ∧ e'.senders = e.senders := by
  obtain ⟨q, hq, rfl⟩ := Option.map_eq_some_iff.mp h
  exact ⟨BoundedQueue.push_eq_some hq, rfl, rfl⟩

theorem popRecvWaiter_eq_some {e e' : Endpoint α} {t : TaskId}
    (h : e.popRecvWaiter = some (t, e')) :
    e.receivers = t :: e'.receivers ∧ e'.msgs = e.msgs ∧ e'.senders = e.senders := by
  obtain ⟨⟨_, q⟩, hq, heq⟩ := Option.map_eq_some_iff.mp h
  obtain ⟨rfl, rfl⟩ := Prod.mk.inj heq
  exact ⟨BoundedQueue.pop_eq_some hq, rfl, rfl⟩

theorem popRecvWaiter_eq_none {e : Endpoint α} (h : e.popRecvWaiter = none) :
    e.receivers = [] :=
  BoundedQueue.pop_eq_none (Option.map_eq_none_iff.mp h)

theorem pushSendWaiter_eq_some {e e' : Endpoint α} {t : TaskId} {km : α}
    (h : e.pushSendWaiter t km = some e') :
    e'.senders = e.senders ++ [(t, km)] ∧ e'.msgs = e.msgs ∧ e'.receivers = e.receivers := by
  obtain ⟨q, hq, rfl⟩ := Option.map_eq_some_iff.mp h
  exact ⟨BoundedQueue.push_eq_some hq, rfl, rfl⟩

theorem popSendWaiter_eq_some {e e' : Endpoint α} {w : TaskId × α}
    (h : e.popSendWaiter = some (w, e')) :
    e.senders = w :: e'.senders ∧ e'.msgs = e.msgs ∧ e'.receivers = e.receivers := by
  obtain ⟨⟨_, q⟩, hq, heq⟩ := Option.map_eq_some_iff.mp h
  obtain ⟨rfl, rfl⟩ := Prod.mk.inj heq
  exact ⟨BoundedQueue.pop_eq_some hq, rfl, rfl⟩

theorem popSendWaiter_eq_none {e : Endpoint α} (h : e.popSendWaiter = none) : e.senders = [] :=
  BoundedQueue.pop_eq_none (Option.map_eq_none_iff.mp h)

/-- Everything a send's decision can do to the queues. -/
inductive SendCase (e : Endpoint α) (me : TaskId) (km : α) (mayBlock : Bool) (e' : Endpoint α) :
    SendAction → Prop
  | deliver {w : TaskId} : e.receivers = w :: e'.receivers → e'.msgs = e.msgs →
      e'.senders = e.senders → SendCase e me km mayBlock e' (.deliver w)
  | buffered : e.receivers = [] → e'.receivers = [] → e'.msgs = e.msgs ++ [km] →
      e'.senders = e.senders → e.msgs.length < ringCap → SendCase e me km mayBlock e' .buffered
  | block : e.receivers = [] → e'.receivers = [] → e'.msgs = e.msgs → e.msgs.length = ringCap →
      e'.senders = e.senders ++ [(me, km)] → mayBlock = true → SendCase e me km mayBlock e' .block
  | full : e' = e → SendCase e me km mayBlock e' .full
  | wouldBlock : e' = e → SendCase e me km mayBlock e' .wouldBlock

theorem decideSend_case {e e' : Endpoint α} {me : TaskId} {km : α} {mayBlock : Bool}
    {act : SendAction} (h : e.decideSend me km mayBlock = (act, e')) :
    SendCase e me km mayBlock e' act := by
  obtain rfl : (e.decideSend me km mayBlock).1 = act := by rw [h]
  obtain rfl : (e.decideSend me km mayBlock).2 = e' := by rw [h]
  clear h
  rw [decideSend]
  cases hw : e.popRecvWaiter with
  | some p =>
    obtain ⟨hr, hm, hs⟩ := popRecvWaiter_eq_some hw
    exact .deliver hr hm hs
  | none =>
    have hr := popRecvWaiter_eq_none hw
    cases hp : e.pushMsg km with
    | some e' =>
      obtain ⟨hm, hr', hs⟩ := pushMsg_eq_some hp
      have hne : e.msgs.length ≠ ringCap := fun hfull => by simp [pushMsg_eq_none.mpr hfull] at hp
      exact .buffered hr (hr'.trans hr) hm hs (Nat.lt_of_le_of_ne e.ring.length_toList_le hne)
    | none =>
      have hfull := pushMsg_eq_none.mp hp
      cases mayBlock with
      | false => exact .wouldBlock rfl
      | true =>
        cases hq : e.pushSendWaiter me km with
        | some e' =>
          obtain ⟨hs, hm, hr'⟩ := pushSendWaiter_eq_some hq
          exact .block hr (hr'.trans hr) hm hfull hs rfl
        | none => exact .full rfl

/-- Everything a receive's decision can do to the queues. -/
inductive RecvCase (e : Endpoint α) (me : TaskId) (e' : Endpoint α) : RecvAction α → Prop
  | got {km : α} : e.msgs = km :: e'.msgs → e'.receivers = e.receivers → e.senders = [] →
      e'.senders = [] → RecvCase e me e' (.got km)
  | wakeSender {km skm : α} {tid : TaskId} {rest : List α} : e.msgs = km :: rest →
      e'.msgs = rest ++ [skm] → e.senders = (tid, skm) :: e'.senders →
      e'.receivers = e.receivers → RecvCase e me e' (.wakeSender km tid)
  | block : e.msgs = [] → e'.msgs = [] → e'.senders = e.senders →
      e'.receivers = e.receivers ++ [me] → RecvCase e me e' .block
  | full : e' = e → e.msgs = [] → RecvCase e me e' .full

theorem decideRecv_case {e e' : Endpoint α} {me : TaskId} {act : RecvAction α}
    (h : e.decideRecv me = (act, e')) : RecvCase e me e' act := by
  obtain rfl : (e.decideRecv me).1 = act := by rw [h]
  obtain rfl : (e.decideRecv me).2 = e' := by rw [h]
  clear h
  rw [decideRecv]
  cases hp : e.popMsg with
  | some p =>
    obtain ⟨km, e₁⟩ := p
    obtain ⟨hm, hr, hs⟩ := popMsg_eq_some hp
    cases hw : e₁.popSendWaiter with
    | none =>
      have hs' := popSendWaiter_eq_none hw
      simp only [hw]
      exact .got hm hr (hs ▸ hs') hs'
    | some q =>
      obtain ⟨⟨tid, skm⟩, e₂⟩ := q
      obtain ⟨hs₂, hm₂, hr₂⟩ := popSendWaiter_eq_some hw
      -- the slot just freed takes the sender's message
      cases hq : e₂.pushMsg skm with
      | none =>
        have hfull := pushMsg_eq_none.mp hq
        have hle : e.msgs.length ≤ ringCap := e.ring.length_toList_le
        rw [hm, List.length_cons, ← hm₂, hfull] at hle
        exact absurd hle (Nat.not_succ_le_self _)
      | some e₃ =>
        obtain ⟨hm₃, hr₃, hs₃⟩ := pushMsg_eq_some hq
        simp only [hw, hq, Option.getD_some]
        have hmsgs : e₃.msgs = e₁.msgs ++ [skm] := by simpa [hm₂] using hm₃
        have hsenders : e.senders = (tid, skm) :: e₃.senders := by simpa [hs₃, ← hs] using hs₂
        exact .wakeSender hm hmsgs hsenders (hr₃.trans (hr₂.trans hr))
  | none =>
    have hm := popMsg_eq_none hp
    cases hw : e.pushRecvWaiter me with
    | none => exact .full rfl hm
    | some e' =>
      obtain ⟨hr, hm', hs⟩ := pushRecvWaiter_eq_some hw
      exact .block hm (hm'.trans hm) hs hr

/-- A receive is refused where as many wait as there is room for. -/
theorem length_of_full {e e' : Endpoint α} {me : TaskId} (h : e.decideRecv me = (.full, e')) :
    e.receivers.length = maxWaiters := by
  rw [decideRecv] at h
  split at h
  · split at h
    · cases h
    · cases h
  · split at h
    · cases h
    · next hnone => exact BoundedQueue.push_eq_none (Option.map_eq_none_iff.mp hnone)

/-- The messages an endpoint stores: in the ring, or with a blocked sender. -/
def stored (e : Endpoint α) : List α := e.msgs ++ e.senders.map Prod.snd

@[simp] theorem stored_cancelRecvWaiter (e : Endpoint α) (t : TaskId) :
    (e.cancelRecvWaiter t).stored = e.stored := rfl

/-- A send stores its message, or nothing. -/
theorem mem_stored_decideSend {e e' : Endpoint α} {me : TaskId} {km x : α} {mayBlock : Bool}
    {act : SendAction} (h : e.decideSend me km mayBlock = (act, e')) (hx : x ∈ e'.stored) :
    x ∈ e.stored ∨ x = km := by
  cases decideSend_case h with
  | deliver _ hm hs => exact .inl (by simpa [stored, hm, hs] using hx)
  | buffered _ _ hm hs =>
    simp only [stored, hm, hs, List.mem_append, List.mem_singleton] at hx ⊢
    tauto
  | block _ _ hm _ hs =>
    simp only [stored, hm, hs, List.map_append, List.map_cons, List.map_nil, List.mem_append,
      List.mem_singleton] at hx ⊢
    tauto
  | full he | wouldBlock he => exact .inl (he ▸ hx)

/-- A receive stores nothing. -/
theorem mem_stored_decideRecv {e e' : Endpoint α} {me : TaskId} {x : α} {act : RecvAction α}
    (h : e.decideRecv me = (act, e')) (hx : x ∈ e'.stored) : x ∈ e.stored := by
  cases decideRecv_case h with
  | got hm _ hs hs' => simp_all [stored]
  | wakeSender hm hm' hs _ =>
    simp only [stored, hm, hm', hs, List.map_cons, List.mem_append, List.mem_cons] at hx ⊢
    tauto
  | block hm hm' hs _ => simpa [stored, hm, hm', hs] using hx
  | full he _ => exact he ▸ hx

/-- No decision frees an endpoint or hands one out, or changes which notification is bound. -/
theorem kept_decideSend {e e' : Endpoint α} {me : TaskId} {km : α} {mayBlock : Bool}
    {act : SendAction} (h : e.decideSend me km mayBlock = (act, e')) :
    e'.allocated = e.allocated ∧ e'.notify = e.notify := by
  obtain rfl : (e.decideSend me km mayBlock).2 = e' := by rw [h]
  clear h
  rw [decideSend, popRecvWaiter, pushMsg, pushSendWaiter]
  cases e.recvWaiters.pop <;> cases e.ring.push km <;> cases mayBlock <;>
    cases e.sendWaiters.push (me, km) <;> exact ⟨rfl, rfl⟩

theorem kept_decideRecv {e e' : Endpoint α} {me : TaskId} {act : RecvAction α}
    (h : e.decideRecv me = (act, e')) : e'.allocated = e.allocated ∧ e'.notify = e.notify := by
  obtain rfl : (e.decideRecv me).2 = e' := by rw [h]
  clear h
  rw [decideRecv, popMsg, pushRecvWaiter]
  cases e.ring.pop with
  | none => cases e.recvWaiters.push me <;> exact ⟨rfl, rfl⟩
  | some x =>
    obtain ⟨km, ring⟩ := x
    unfold popSendWaiter
    dsimp only [Option.map_some]
    cases e.sendWaiters.pop with
    | none => exact ⟨rfl, rfl⟩
    | some w =>
      obtain ⟨⟨tid, skm⟩, senders⟩ := w
      dsimp only [Option.map_some, pushMsg]
      cases ring.push skm <;> exact ⟨rfl, rfl⟩

/-! ### Which queues can be occupied together -/

/-- A receiver waits only where there is nothing to take, and a sender only where there is no
room. -/
structure Law (e : Endpoint α) : Prop where
  receivers : e.receivers ≠ [] → e.msgs = [] ∧ e.senders = []
  senders : e.senders ≠ [] → e.msgs.length = ringCap

theorem Law.decideSend {e e' : Endpoint α} (h : e.Law) {me : TaskId} {km : α} {mayBlock : Bool}
    {act : SendAction} (hd : e.decideSend me km mayBlock = (act, e')) : e'.Law := by
  cases decideSend_case hd with
  | deliver hr hm hs =>
    obtain ⟨hm₀, hs₀⟩ := h.receivers (by simp [hr])
    exact ⟨fun _ => ⟨hm.trans hm₀, hs.trans hs₀⟩, fun hne => absurd (hs.trans hs₀) hne⟩
  | buffered hr hr' hm hs hlt =>
    refine ⟨fun hne => absurd hr' hne, fun hne => ?_⟩
    exact absurd (h.senders (hs ▸ hne)) hlt.ne
  | block hr hr' hm hfull hs => exact ⟨fun hne => absurd hr' hne, fun _ => hm ▸ hfull⟩
  | full he | wouldBlock he => exact he ▸ h

theorem Law.decideRecv {e e' : Endpoint α} (h : e.Law) {me : TaskId} {act : RecvAction α}
    (hd : e.decideRecv me = (act, e')) : e'.Law := by
  cases decideRecv_case hd with
  | got hm hr hs hs' =>
    refine ⟨fun hne => ?_, fun hne => absurd hs' hne⟩
    simp [(h.receivers (hr ▸ hne)).1] at hm
  | wakeSender hm hm' hs hr =>
    refine ⟨fun hne => ?_, fun _ => ?_⟩
    · simp [(h.receivers (hr ▸ hne)).1] at hm
    · have hfull := h.senders (by simp [hs])
      simpa [hm, hm'] using hfull
  | block hm hm' hs hr =>
    -- the ring is empty, so by the law no sender waits
    have hs₀ : e.senders = [] := by
      by_contra hne
      have hfull := h.senders hne
      simp [hm, ringCap] at hfull
    exact ⟨fun _ => ⟨hm', hs.trans hs₀⟩, fun hne => absurd (hs.trans hs₀) hne⟩
  | full he => exact he ▸ h

theorem Law.cancelRecvWaiter {e : Endpoint α} (h : e.Law) (t : TaskId) :
    (e.cancelRecvWaiter t).Law := by
  refine ⟨fun hne => h.receivers fun hnil => hne ?_, h.senders⟩
  rw [receivers_cancelRecvWaiter, hnil, List.erase_nil]

/-! ### The record of an endpoint

An endpoint together with the decisions made on it, oldest first. A receiver is recorded by its
wait, numbered as it is queued: one task may wait many times, and to choose or to cancel a
receiver is to do so to one of its waits. -/

/-- What a decision leaves in the record. -/
inductive Entry (α : Type*)
  /-- A message was accepted from a sender. -/
  | accepted (km : α)
  /-- A message was handed to a receiver. -/
  | handed (km : α)
  /-- Task `t` was queued as a receiver: this is wait `n`. -/
  | queued (n : ℕ) (t : TaskId)
  /-- A sender chose wait `n`, of task `t`. -/
  | chosen (n : ℕ) (t : TaskId)
  /-- Wait `n`, of task `t`, was cancelled. -/
  | cancelled (n : ℕ) (t : TaskId)

/-- An endpoint and its record. -/
structure Record (α : Type*) where
  endpoint : Endpoint α
  /-- The waits of the queued receivers, in the order of the queue. -/
  waits : List (ℕ × TaskId)
  /-- How many waits there have been. -/
  count : ℕ
  log : List (Entry α)

/-- A decision to be made. -/
inductive Op (α : Type*)
  | send (me : TaskId) (km : α)
  | sendNowait (me : TaskId) (km : α)
  | recvUntil (me : TaskId)
  | cancelRecvWaiter (task : TaskId)

namespace Record

/-- A send's decision, recorded. -/
def sendInner (r : Record α) (me : TaskId) (km : α) (mayBlock : Bool) : Record α :=
  match r.endpoint.decideSend me km mayBlock with
  | (.deliver w, endpoint) =>
    { r with
      endpoint
      waits := r.waits.drop 1
      log := r.log ++ [.accepted km, .handed km] ++
        (r.waits.take 1).map fun wait => .chosen wait.1 w }
  | (.buffered, endpoint) | (.block, endpoint) =>
    { r with endpoint, log := r.log ++ [.accepted km] }
  | (_, endpoint) => { r with endpoint }

/-- A receive's decision, recorded. -/
def recvUntil (r : Record α) (me : TaskId) : Record α :=
  match r.endpoint.decideRecv me with
  | (.got km, endpoint) | (.wakeSender km _, endpoint) =>
    { r with endpoint, log := r.log ++ [.handed km] }
  | (.block, endpoint) =>
    { endpoint
      waits := r.waits ++ [(r.count, me)]
      count := r.count + 1
      log := r.log ++ [.queued r.count me] }
  | (.full, endpoint) => { r with endpoint }

/-- A cancellation, recorded: the oldest wait of the task, if it has one. -/
def cancelRecvWaiter (r : Record α) (task : TaskId) : Record α :=
  { r with
    endpoint := r.endpoint.cancelRecvWaiter task
    waits := r.waits.eraseP (·.2 = task)
    log := r.log ++ (r.waits.find? (·.2 = task)).toList.map fun wait => .cancelled wait.1 task }

def step (r : Record α) : Op α → Record α
  | .send me km => r.sendInner me km true
  | .sendNowait me km => r.sendInner me km false
  | .recvUntil me => r.recvUntil me
  | .cancelRecvWaiter task => r.cancelRecvWaiter task

end Record

/-- One endpoint, from its allocation on, under any sequence of decisions. -/
def decisions (α : Type*) : EventSystem (Record α) (Op α) where
  init r := ∃ x, r = ⟨{ new x with allocated := true }, [], 0, []⟩
  next r op := some (r.step op)

/-- The messages accepted, in the order of acceptance. -/
def accepted (log : List (Entry α)) : List α :=
  log.filterMap fun
    | .accepted km => some km
    | _ => none

/-- The messages handed out, in the order they were. -/
def handed (log : List (Entry α)) : List α :=
  log.filterMap fun
    | .handed km => some km
    | _ => none

/-- The waits there have been. -/
def queued (log : List (Entry α)) : List (ℕ × TaskId) :=
  log.filterMap fun
    | .queued n t => some (n, t)
    | _ => none

/-- The waits senders chose. -/
def chosen (log : List (Entry α)) : List (ℕ × TaskId) :=
  log.filterMap fun
    | .chosen n t => some (n, t)
    | _ => none

/-- The waits that were cancelled. -/
def cancelled (log : List (Entry α)) : List (ℕ × TaskId) :=
  log.filterMap fun
    | .cancelled n t => some (n, t)
    | _ => none

section Log

variable (log log' : List (Entry α))

@[simp] theorem accepted_append : accepted (log ++ log') = accepted log ++ accepted log' :=
  List.filterMap_append

@[simp] theorem handed_append : handed (log ++ log') = handed log ++ handed log' :=
  List.filterMap_append

@[simp] theorem queued_append : queued (log ++ log') = queued log ++ queued log' :=
  List.filterMap_append

@[simp] theorem chosen_append : chosen (log ++ log') = chosen log ++ chosen log' :=
  List.filterMap_append

@[simp] theorem cancelled_append : cancelled (log ++ log') = cancelled log ++ cancelled log' :=
  List.filterMap_append

end Log

/-! ### The invariant -/

/-- The record agrees with the queues. -/
structure Record.Inv (r : Record α) : Prop where
  law : r.endpoint.Law
  /-- A message accepted was handed out, or is in the ring, or waits with its sender, and the
  three are in that order. -/
  fifo : accepted r.log = handed r.log ++ r.endpoint.msgs ++ r.endpoint.senders.map Prod.snd
  /-- The waits are those of the queued receivers. -/
  waits : r.waits.map Prod.snd = r.endpoint.receivers
  /-- The waits are numbered in order. -/
  numbered : (queued r.log).map Prod.fst = List.range r.count
  /-- A wait was chosen, or was cancelled, or is queued. -/
  settled : ∀ w, (queued r.log).count w =
    (chosen r.log).count w + (cancelled r.log).count w + r.waits.count w

theorem Record.Inv.sendInner {r : Record α} (h : r.Inv) (me : TaskId) (km : α) (mayBlock : Bool) :
    (r.sendInner me km mayBlock).Inv := by
  obtain ⟨act, e', hd⟩ : ∃ act e', r.endpoint.decideSend me km mayBlock = (act, e') :=
    ⟨_, _, rfl⟩
  have hlaw := h.law.decideSend hd
  have hfifo := h.fifo
  have hwaits := h.waits
  rw [Record.sendInner]
  rw [hd]
  cases decideSend_case hd with
  | deliver hr hm hs =>
    -- nothing is in the ring and no sender waits, so what is handed over is the oldest message
    obtain ⟨hm₀, hs₀⟩ := h.law.receivers (by simp [hr])
    rw [hr] at hwaits
    obtain ⟨⟨n, w⟩, rest, hwl, rfl, hrest⟩ := List.map_eq_cons_iff.mp hwaits
    refine ⟨hlaw, ?_, ?_, ?_, fun v => ?_⟩
    · rw [hm₀, hs₀] at hfifo
      simpa [hm, hs, hm₀, hs₀, accepted, handed, hwl] using hfifo
    · simpa [hwl] using hrest
    · simpa [queued, hwl] using h.numbered
    · have hset := h.settled v
      simp [queued, chosen, cancelled, hwl, List.count_cons] at hset ⊢
      omega
  | buffered hr hr' hm hs hlt =>
    -- there is room, so no sender waits in front of the message
    have hs₀ : r.endpoint.senders = [] := by
      by_contra hne
      exact hlt.ne (h.law.senders hne)
    refine ⟨hlaw, ?_, hwaits.trans (hr.trans hr'.symm), ?_, fun v => ?_⟩
    · rw [hs₀] at hfifo hs
      simpa [accepted, handed, hm, hs] using congrArg (· ++ [km]) hfifo
    · simpa [queued] using h.numbered
    · simpa [queued, chosen, cancelled] using h.settled v
  | block hr hr' hm _ hs =>
    refine ⟨hlaw, ?_, hwaits.trans (hr.trans hr'.symm), ?_, fun v => ?_⟩
    · simpa [accepted, handed, hm, hs] using congrArg (· ++ [km]) hfifo
    · simpa [queued] using h.numbered
    · simpa [queued, chosen, cancelled] using h.settled v
  | full he | wouldBlock he => exact ⟨hlaw, he ▸ h.fifo, he ▸ h.waits, h.numbered, h.settled⟩

theorem Record.Inv.recvUntil {r : Record α} (h : r.Inv) (me : TaskId) : (r.recvUntil me).Inv := by
  obtain ⟨act, e', hd⟩ : ∃ act e', r.endpoint.decideRecv me = (act, e') := ⟨_, _, rfl⟩
  have hlaw := h.law.decideRecv hd
  have hfifo := h.fifo
  have hwaits := h.waits
  rw [Record.recvUntil]
  rw [hd]
  cases decideRecv_case hd with
  | got hm hr hs hs' =>
    refine ⟨hlaw, ?_, hwaits.trans hr.symm, ?_, fun v => ?_⟩
    · simpa [accepted, handed, hm, hs, hs'] using hfifo
    · simpa [queued] using h.numbered
    · simpa [queued, chosen, cancelled] using h.settled v
  | wakeSender hm hm' hs hr =>
    refine ⟨hlaw, ?_, hwaits.trans hr.symm, ?_, fun v => ?_⟩
    · simpa [accepted, handed, hm, hm', hs] using hfifo
    · simpa [queued] using h.numbered
    · simpa [queued, chosen, cancelled] using h.settled v
  | block hm hm' hs hr =>
    refine ⟨hlaw, ?_, ?_, ?_, fun v => ?_⟩
    · simpa [accepted, handed, hm, hm', hs] using hfifo
    · simpa [hr] using hwaits
    · simpa [queued, List.range_succ] using h.numbered
    · have hset := h.settled v
      simp [queued, chosen, cancelled, List.count_cons] at hset ⊢
      omega
  | full he => exact ⟨hlaw, he ▸ h.fifo, he ▸ h.waits, h.numbered, h.settled⟩

/-- Removing the first entry that meets `p` removes the entry `find?` answers with. -/
theorem count_eraseP {β : Type*} [BEq β] [LawfulBEq β] (p : β → Bool) (l : List β) (v : β) :
    l.count v = (l.find? p).toList.count v + (l.eraseP p).count v := by
  induction l with
  | nil => rfl
  | cons x l ih =>
    cases hp : p x with
    | true => simp [List.find?_cons_of_pos hp, List.eraseP_cons_of_pos hp, List.count_cons,
        Nat.add_comm]
    | false =>
      rw [List.find?_cons_of_neg (by simp [hp]), List.eraseP_cons_of_neg (by simp [hp]),
        List.count_cons, List.count_cons, ih]
      omega

theorem Record.Inv.cancelRecvWaiter {r : Record α} (h : r.Inv) (t : TaskId) :
    (r.cancelRecvWaiter t).Inv := by
  -- the entry logged, if any, is the wait removed
  obtain ⟨found, hfound⟩ : ∃ found, r.waits.find? (·.2 = t) = found := ⟨_, rfl⟩
  have hlog : ∃ log : List (Entry α), found.toList.map (fun w => .cancelled w.1 t) = log ∧
      accepted log = [] ∧ handed log = [] ∧ queued log = [] ∧ chosen log = [] ∧
      cancelled log = found.toList := by
    cases found with
    | none => exact ⟨_, rfl, rfl, rfl, rfl, rfl, rfl⟩
    | some w =>
      obtain rfl : w.2 = t := by simpa using List.find?_some hfound
      exact ⟨_, rfl, rfl, rfl, rfl, rfl, rfl⟩
  obtain ⟨log, hlog, hacc, hhand, hq, hch, hcan⟩ := hlog
  rw [Record.cancelRecvWaiter]
  rw [hfound, hlog]
  refine ⟨h.law.cancelRecvWaiter t, ?_, ?_, ?_, fun v => ?_⟩
  · simpa [hacc, hhand] using h.fifo
  · rw [receivers_cancelRecvWaiter, ← h.waits, List.erase_eq_eraseP, List.eraseP_map]
    have hp : (fun x => t == x) ∘ Prod.snd = fun w : ℕ × TaskId => decide (w.2 = t) := by
      funext w
      simp [eq_comm, Bool.beq_eq_decide_eq]
    rw [hp]
  · simpa [hq] using h.numbered
  · have hset := h.settled v
    rw [count_eraseP (fun w => decide (w.2 = t)) r.waits, hfound] at hset
    simp only [queued_append, chosen_append, cancelled_append, hq, hch, hcan, List.append_nil,
      List.count_append]
    omega

theorem Record.Inv.step {r : Record α} (h : r.Inv) (op : Op α) : (r.step op).Inv := by
  cases op with
  | send me km => exact h.sendInner me km true
  | sendNowait me km => exact h.sendInner me km false
  | recvUntil me => exact h.recvUntil me
  | cancelRecvWaiter task => exact h.cancelRecvWaiter task

theorem inv_of_reachable {r : Record α} (hr : (decisions α).Reachable r) : r.Inv := by
  refine hr.invariant ?_ fun s op s' hi _ hn => ?_
  · rintro _ ⟨x, rfl⟩
    exact ⟨⟨by simp [receivers, new], by simp [senders, new]⟩, rfl, rfl, rfl, fun w => rfl⟩
  · obtain rfl := Option.some.inj hn
    exact hi.step op

/-! ### Cancelled receivers -/

theorem nodup_queued {r : Record α} (h : r.Inv) : (queued r.log).Nodup :=
  .of_map Prod.fst (h.numbered ▸ List.nodup_range)

theorem perm_queued {r : Record α} (h : r.Inv) :
    (queued r.log).Perm (chosen r.log ++ cancelled r.log ++ r.waits) :=
  List.perm_iff_count.mpr fun w => by simp [h.settled w, Nat.add_assoc]

/-- The waits of task `t` that senders chose. -/
def chosenOf (t : TaskId) (log : List (Entry α)) : List (ℕ × TaskId) :=
  (chosen log).filter (·.2 = t)

/-- A task that is not queued is not chosen, and is not queued by another task's receive. -/
theorem not_chosen_step {r : Record α} {t : TaskId} {op : Op α} (hop : op ≠ .recvUntil t)
    (ht : t ∉ r.endpoint.receivers) :
    t ∉ (r.step op).endpoint.receivers ∧ chosenOf t (r.step op).log = chosenOf t r.log := by
  have hsend : ∀ me km mayBlock, t ∉ (r.sendInner me km mayBlock).endpoint.receivers ∧
      chosenOf t (r.sendInner me km mayBlock).log = chosenOf t r.log := by
    intro me km mayBlock
    obtain ⟨act, e', hd⟩ : ∃ act e', r.endpoint.decideSend me km mayBlock = (act, e') :=
      ⟨_, _, rfl⟩
    rw [Record.sendInner]
    rw [hd]
    cases decideSend_case hd with
    | deliver hr =>
      rw [hr, List.mem_cons, not_or] at ht
      refine ⟨ht.2, ?_⟩
      rcases r.waits with _ | ⟨w, rest⟩ <;> simp [chosenOf, chosen, Ne.symm ht.1]
    | buffered _ hr' | block _ hr' => exact ⟨by simp [hr'], by simp [chosenOf, chosen]⟩
    | full he | wouldBlock he => exact ⟨he ▸ ht, rfl⟩
  cases op with
  | send me km => exact hsend me km true
  | sendNowait me km => exact hsend me km false
  | recvUntil me =>
    have hme : t ≠ me := fun heq => hop (heq ▸ rfl)
    obtain ⟨act, e', hd⟩ : ∃ act e', r.endpoint.decideRecv me = (act, e') := ⟨_, _, rfl⟩
    simp only [Record.step, Record.recvUntil]
    rw [hd]
    cases decideRecv_case hd with
    | got _ hr | wakeSender _ _ _ hr => exact ⟨by simpa [hr] using ht, by simp [chosenOf, chosen]⟩
    | block _ _ _ hr => exact ⟨by simp [hr, ht, hme], by simp [chosenOf, chosen]⟩
    | full he => exact ⟨he ▸ ht, rfl⟩
  | cancelRecvWaiter task =>
    refine ⟨fun hm => ht (List.mem_of_mem_erase hm), ?_⟩
    simp only [Record.step, Record.cancelRecvWaiter, chosenOf, chosen_append]
    simp [chosen]

theorem not_chosen_run {r r' : Record α} {t : TaskId} {ops : List (Op α)}
    (hops : .recvUntil t ∉ ops) (ht : t ∉ r.endpoint.receivers)
    (hrun : (decisions α).run r ops = some r') : chosenOf t r'.log = chosenOf t r.log := by
  induction ops generalizing r with
  | nil => exact Option.some.inj hrun ▸ rfl
  | cons op ops ih =>
    rw [List.mem_cons, not_or] at hops
    obtain ⟨ht', hstep⟩ := not_chosen_step (Ne.symm hops.1) ht
    exact (ih hops.2 ht' hrun).trans hstep

/-- **The queue law.** After any sequence of decisions on an endpoint: a queued receiver means an
empty ring and no waiting sender, and a waiting sender means a full ring; the messages accepted
are those handed out followed by those in the ring followed by those that wait with their senders,
in that order; every wait was chosen once, or cancelled once, or is queued, and only one of these;
and a task cancelled where it was queued once is not chosen again before it receives again. -/
theorem queue_law {r : Record α} (hr : (decisions α).Reachable r) :
    (r.endpoint.receivers ≠ [] → r.endpoint.msgs = [] ∧ r.endpoint.senders = []) ∧
    (r.endpoint.senders ≠ [] → r.endpoint.msgs.length = ringCap) ∧
    handed r.log <+: accepted r.log ∧
    accepted r.log = handed r.log ++ r.endpoint.msgs ++ r.endpoint.senders.map Prod.snd ∧
    (∀ w, w ∈ cancelled r.log → w ∉ chosen r.log) ∧
    (chosen r.log ++ cancelled r.log ++ r.waits).Nodup ∧
    (queued r.log).Perm (chosen r.log ++ cancelled r.log ++ r.waits) ∧
    r.waits.map Prod.snd = r.endpoint.receivers ∧
    ∀ t ops r', r.endpoint.receivers.count t ≤ 1 → .recvUntil t ∉ ops →
      (decisions α).run r (.cancelRecvWaiter t :: ops) = some r' →
      chosenOf t r'.log = chosenOf t r.log := by
  have h := inv_of_reachable hr
  have hnd : (chosen r.log ++ cancelled r.log ++ r.waits).Nodup :=
    (perm_queued h).nodup_iff.mp (nodup_queued h)
  refine ⟨h.law.receivers, h.law.senders, ?_, h.fifo, fun w hc hm => ?_, hnd, perm_queued h,
    h.waits, fun t ops r' hone hops hrun => ?_⟩
  · rw [h.fifo, List.append_assoc]
    exact List.prefix_append _ _
  · exact (List.nodup_append.mp (List.nodup_append.mp hnd).1).2.2 w hm w hc rfl
  · have ht : t ∉ (r.step (.cancelRecvWaiter t)).endpoint.receivers := by
      rw [← List.count_eq_zero]
      simp only [Record.step, Record.cancelRecvWaiter, receivers_cancelRecvWaiter,
        List.count_erase_self]
      omega
    refine (not_chosen_run (r := r.step (.cancelRecvWaiter t)) hops ht hrun).trans ?_
    simp only [Record.step, Record.cancelRecvWaiter, chosenOf, chosen_append]
    simp [chosen]

/-- Two receivers queue, the first is cancelled, and four messages are sent: the second receiver
takes the first of them, and the last has to wait with its sender. -/
theorem queue_law_backlog : ∃ r : Record ℕ, (decisions ℕ).Reachable r ∧
    cancelled r.log = [(0, 1)] ∧ chosen r.log = [(1, 2)] ∧ r.endpoint.senders = [(3, 13)] ∧
    r.endpoint.msgs.length = ringCap := by
  obtain ⟨r, hr, hcan, hch, hs⟩ : ∃ r : Record ℕ, (decisions ℕ).Reachable r ∧
      cancelled r.log = [(0, 1)] ∧ chosen r.log = [(1, 2)] ∧ r.endpoint.senders = [(3, 13)] :=
    ⟨_, .of_run [.recvUntil 1, .recvUntil 2, .cancelRecvWaiter 1, .send 3 10, .sendNowait 3 11,
      .send 4 12, .send 3 13, .sendNowait 4 14] ⟨0, rfl⟩ rfl, rfl, rfl, rfl⟩
  exact ⟨r, hr, hcan, hch, hs, (queue_law hr).2.1 (by simp [hs])⟩

end Endpoint

end StarOS
