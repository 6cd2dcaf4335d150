import StarOS.Ipc.Endpoint
import StarOS.Syscall.Resolve

/-!
# A receive that fails

A receive takes a message first, or waits for one, and only then installs the capability that comes
with it and copies it to where the caller asks. The table may be full by then, and the caller may
have asked for a place it cannot write. The message is gone then, and with it the sender that waited
for its slot.

Here a call is one function of what it reads. What others do while it waits is an argument: what the
caller finds in its mailbox when it is back, the queue it takes itself out of if that is nothing,
its capability table when it has a message, and whether there is room and the place can be written.

## Main definitions

* `ReceiveState`, `Meanwhile`, with `ReceiveState.recv` — a call
* `ReceiveState.Unchanged` — what a call that fails should leave
* `ReceiveState.Goes` — what arrives can be handed over

## Main results

* `ReceiveState.recvUntil_spec` — the message a call comes to hold
* `ReceiveState.recv_unchanged_iff`
-/

namespace StarOS

/-- What a receive reads before it waits. -/
structure ReceiveState where
  me : TaskId
  /-- The caller's capability table. -/
  table : CapTable
  objects : List Obj.Slot
  /-- How long the endpoint table is. -/
  neps : ℕ
  endpoint : ℕ → Endpoint KMessage

/-- What it reads after that. -/
structure Meanwhile where
  /-- The caller's mailbox when it has been woken. -/
  mailbox : Option KMessage
  /-- The endpoint when the deadline has won. -/
  endpoint : Endpoint KMessage
  table : CapTable
  /-- Room for one more capability. -/
  room : Bool
  /-- Whether the bytes of a message at the caller's pointer can be written. -/
  range : Bool

/-- The two calls, with their arguments in registers. -/
inductive ReceiveCall
  | recv (endpoint : Handle) (ptr : BitVec 64)
  | recvUntil (endpoint : Handle) (ptr deadline : BitVec 64)
  deriving DecidableEq, Repr

/-- What a call answers and what it changes: the endpoints when it has decided, what it takes from
the mailbox, the table of the caller, and whether a sender had chosen the caller when it gave up. -/
structure Receipt where
  result : Except KError Unit
  endpoint : ℕ → Endpoint KMessage
  taken : Option KMessage
  table : CapTable
  chosen : Bool

namespace ReceiveCall

def endpoint : ReceiveCall → Handle
  | .recv endpoint _ | .recvUntil endpoint _ _ => endpoint

def ptr : ReceiveCall → BitVec 64
  | .recv _ ptr | .recvUntil _ ptr _ => ptr

/-- A deadline of zero is no deadline. -/
def deadline : ReceiveCall → Option (BitVec 64)
  | .recv _ _ => none
  | .recvUntil _ _ deadline => if deadline ≠ 0 then some deadline else none

end ReceiveCall

def userPtrOk (ptr : BitVec 64) (range : Bool) : Bool := decide (ptr.toNat % 8 = 0) && range

namespace ReceiveState

/-- `recv_until`: a message or an error, or a panic of a task that is woken without a message. -/
def recvUntil (s : ReceiveState) (m : Meanwhile) (ep : ℕ) (deadline : Option (BitVec 64)) :
    Option (Except KError KMessage × Receipt) :=
  let refused (err : KError) (endpoint : ℕ → Endpoint KMessage) (chosen : Bool) : Receipt :=
    ⟨.error err, endpoint, none, m.table, chosen⟩
  if ep < s.neps ∧ (s.endpoint ep).allocated = true then
    let (action, e) := (s.endpoint ep).decideRecv s.me
    let endpoint := Function.update s.endpoint ep e
    match action with
    | .got km | .wakeSender km _ => some (.ok km, ⟨.ok (), endpoint, none, m.table, false⟩)
    | .block =>
      match m.mailbox with
      | some km => some (.ok km, ⟨.ok (), endpoint, some km, m.table, false⟩)
      | none =>
        match deadline with
        | none => none
        | some _ =>
          -- The caller takes itself out of the queue, if it is still there.
          some (.error .wouldBlock,
            refused .wouldBlock endpoint (decide (s.me ∉ m.endpoint.receivers)))
    | .full => some (.error .outOfResources, refused .outOfResources endpoint false)
  else some (.error .invalidArgument, refused .invalidArgument s.endpoint false)

/-- The message is copied to the caller. -/
def writeUserMsg (m : Meanwhile) (ptr : BitVec 64) (r : Receipt) : Receipt :=
  if userPtrOk ptr m.range then r else { r with result := .error .invalidArgument }

/-- `Recv` and `RecvUntil`. -/
def recv (s : ReceiveState) (m : Meanwhile) (c : ReceiveCall) : Option Receipt :=
  match resolveReceivableEndpoint s.table s.objects c.endpoint with
  | .error err => some ⟨.error err, s.endpoint, none, m.table, false⟩
  | .ok ep =>
    match s.recvUntil m ep c.deadline with
    | none => none
    | some (.error _, r) => some r
    | some (.ok km, r) =>
      match km.cap with
      | none => some (writeUserMsg m c.ptr r)
      | some cap =>
        match m.table.install m.room cap with
        | none => some { r with result := .error .outOfResources }
        | some (_, table) => some (writeUserMsg m c.ptr { r with table })

/-- What a call that fails should leave: every message and every waiting sender where it was, the
mailbox and the table as they were, and no sender that has chosen the caller. -/
structure Unchanged (s : ReceiveState) (m : Meanwhile) (r : Receipt) : Prop where
  msgs : ∀ ep, (r.endpoint ep).msgs = (s.endpoint ep).msgs
  senders : ∀ ep, (r.endpoint ep).senders = (s.endpoint ep).senders
  taken : r.taken = none
  table : r.table = m.table
  chosen : r.chosen = false

/-- The message that arrives: the oldest in the ring or, if the caller waits, the one in its
mailbox. -/
def arrives (s : ReceiveState) (m : Meanwhile) (ep : ℕ) : Option KMessage :=
  match (s.endpoint ep).msgs with
  | km :: _ => some km
  | [] => if (s.endpoint ep).receivers.length < maxWaiters then m.mailbox else none

/-- What arrives at an endpoint can be handed over, and one that gives up is still in the queue. -/
def GoesAt (s : ReceiveState) (m : Meanwhile) (c : ReceiveCall) (ep : ℕ) : Prop :=
  match s.arrives m ep with
  | some km => userPtrOk c.ptr m.range = true ∧ (km.cap ≠ none → m.table.canInstall m.room = true)
  | none => (s.endpoint ep).receivers.length < maxWaiters → c.deadline ≠ none →
      s.me ∈ m.endpoint.receivers

/-- The same of the endpoint a call names, where it names one. -/
def Goes (s : ReceiveState) (m : Meanwhile) (c : ReceiveCall) : Prop :=
  ∀ ep, resolveReceivableEndpoint s.table s.objects c.endpoint = .ok ep → ep < s.neps →
    (s.endpoint ep).allocated = true → s.GoesAt m c ep

variable {s : ReceiveState} {m : Meanwhile} {c : ReceiveCall} {ep : ℕ}

/-! ### The message -/

/-- The decision of a receive, by what it does to the endpoint and by what arrives. -/
theorem decide_cases (s : ReceiveState) (ep : ℕ) :
    (∃ km e, ((s.endpoint ep).decideRecv s.me = (.got km, e) ∨
        ∃ tid, (s.endpoint ep).decideRecv s.me = (.wakeSender km tid, e)) ∧
      (∃ rest, (s.endpoint ep).msgs = km :: rest) ∧
      ¬(e.msgs = (s.endpoint ep).msgs ∧ e.senders = (s.endpoint ep).senders)) ∨
    (∃ e, (s.endpoint ep).decideRecv s.me = (.block, e) ∧ (s.endpoint ep).msgs = [] ∧
      (s.endpoint ep).receivers.length < maxWaiters ∧ e.msgs = (s.endpoint ep).msgs ∧
        e.senders = (s.endpoint ep).senders) ∨
    ((s.endpoint ep).decideRecv s.me = (.full, s.endpoint ep) ∧ (s.endpoint ep).msgs = [] ∧
      ¬(s.endpoint ep).receivers.length < maxWaiters) := by
  rcases hd : (s.endpoint ep).decideRecv s.me with ⟨action, e⟩
  cases Endpoint.decideRecv_case hd with
  | got hmsgs =>
    refine .inl ⟨_, e, .inl rfl, ⟨_, hmsgs⟩, fun hsame => ?_⟩
    have hlen := congrArg List.length hmsgs
    rw [hsame.1, List.length_cons] at hlen
    omega
  | wakeSender hmsgs _ hsenders =>
    refine .inl ⟨_, e, .inr ⟨_, rfl⟩, ⟨_, hmsgs⟩, fun hsame => ?_⟩
    have hlen := congrArg List.length hsenders
    rw [hsame.2, List.length_cons] at hlen
    omega
  | block hmsgs hmsgs' hsenders hreceivers =>
    refine .inr (.inl ⟨e, rfl, hmsgs, ?_, hmsgs'.trans hmsgs.symm, hsenders⟩)
    have hle := e.length_receivers_le
    rw [hreceivers, List.length_append, List.length_singleton] at hle
    omega
  | full he hmsgs =>
    obtain rfl := he
    exact .inr (.inr ⟨rfl, hmsgs, (Endpoint.length_of_full hd).not_lt⟩)

/-- **What a receive comes to hold**, and whether it has changed anything: a message that arrives,
and then it has; nothing, and then it has where a sender has chosen it; or it panics. -/
theorem recvUntil_spec (s : ReceiveState) (m : Meanwhile) (deadline : Option (BitVec 64))
    (hep : ep < s.neps ∧ (s.endpoint ep).allocated = true) :
    (∃ km r, s.recvUntil m ep deadline = some (.ok km, r) ∧ s.arrives m ep = some km ∧
      r.result = .ok () ∧ r.table = m.table ∧
        ∀ result table, ¬s.Unchanged m { r with result := result, table := table }) ∨
    (∃ err r, s.recvUntil m ep deadline = some (.error err, r) ∧ s.arrives m ep = none ∧
      r.result = .error err ∧ (s.Unchanged m r ↔
        ((s.endpoint ep).receivers.length < maxWaiters → deadline ≠ none →
          s.me ∈ m.endpoint.receivers))) ∨
    (s.recvUntil m ep deadline = none ∧ s.arrives m ep = none ∧ deadline = none) := by
  rw [recvUntil, if_pos hep, arrives]
  rcases s.decide_cases ep with ⟨km, e, hact, ⟨rest, hmsgs⟩, hlost⟩ |
    ⟨e, hact, hmsgs, hroom, hsame⟩ | ⟨hact, hmsgs, hfull⟩
  · have hheld : ∀ result table, ¬s.Unchanged m
        ⟨result, Function.update s.endpoint ep e, none, table, false⟩ := by
      intro result table h
      have hmsgs' := h.msgs ep
      have hsenders' := h.senders ep
      dsimp only at hmsgs' hsenders'
      rw [Function.update_self] at hmsgs' hsenders'
      exact hlost ⟨hmsgs', hsenders'⟩
    rw [hmsgs]
    rcases hact with hact | ⟨tid, hact⟩
    · rw [hact]
      exact .inl ⟨km, _, rfl, rfl, rfl, rfl, hheld⟩
    · rw [hact]
      exact .inl ⟨km, _, rfl, rfl, rfl, rfl, hheld⟩
  · rw [hact, hmsgs]
    dsimp only
    rw [if_pos hroom]
    cases hbox : m.mailbox with
    | some km =>
      refine .inl ⟨km, _, rfl, rfl, rfl, rfl, fun result table h => ?_⟩
      cases h.taken
    | none =>
      cases deadline with
      | none => exact .inr (.inr ⟨rfl, rfl, rfl⟩)
      | some d =>
        refine .inr (.inl ⟨_, _, rfl, rfl, rfl, ?_⟩)
        constructor
        · intro h _ _
          exact not_not.1 (of_decide_eq_false h.chosen)
        · intro h
          have hupdate : ∀ ep', (Function.update s.endpoint ep e ep').msgs = (s.endpoint ep').msgs ∧
              (Function.update s.endpoint ep e ep').senders = (s.endpoint ep').senders := by
            intro ep'
            rcases eq_or_ne ep' ep with rfl | hne
            · rw [Function.update_self]
              exact hsame
            · rw [Function.update_of_ne hne]
              exact ⟨rfl, rfl⟩
          exact ⟨fun ep' => (hupdate ep').1, fun ep' => (hupdate ep').2, rfl, rfl,
            decide_eq_false (not_not.2 (h hroom (Option.some_ne_none d)))⟩
  · rw [hact, hmsgs]
    dsimp only
    rw [if_neg hfull, Function.update_eq_self]
    refine .inr (.inl ⟨_, _, rfl, rfl, rfl, ?_⟩)
    exact iff_of_true ⟨fun _ => rfl, fun _ => rfl, rfl, rfl, rfl⟩ fun hroom => absurd hroom hfull

/-! ### The call -/

/-- Once a message is held the call fails exactly where it cannot be handed over. -/
theorem recv_holding {km : KMessage} {r : Receipt} (hok : r.result = .ok ())
    (hlost : ∀ result table, ¬s.Unchanged m { r with result := result, table := table })
    (hep : resolveReceivableEndpoint s.table s.objects c.endpoint = .ok ep)
    (hrecv : s.recvUntil m ep c.deadline = some (.ok km, r)) :
    (∀ r' err, s.recv m c = some r' → r'.result = .error err → s.Unchanged m r') ↔
      userPtrOk c.ptr m.range = true ∧ (km.cap ≠ none → m.table.canInstall m.room = true) := by
  -- the copy decides when the capability is in the table, or there is none
  have hwrite : ∀ table, (∀ r' err, some (writeUserMsg m c.ptr { r with table := table }) =
      some r' → r'.result = .error err → s.Unchanged m r') ↔ userPtrOk c.ptr m.range = true := by
    intro table
    rw [writeUserMsg]
    constructor
    · intro h
      by_contra hptr
      rw [if_neg hptr] at h
      exact hlost _ _ (h _ _ rfl rfl)
    · intro hptr r' err heq herr
      rw [if_pos hptr] at heq
      obtain rfl := Option.some.inj heq
      rw [show _ = _ from hok] at herr
      cases herr
  have hcan := fun cap => CapTable.install_isSome m.room m.table cap
  rw [recv, hep]
  dsimp only
  rw [hrecv]
  dsimp only
  cases hcap : km.cap with
  | none =>
    refine (hwrite r.table).trans ?_
    simp
  | some cap =>
    have hcan := hcan cap
    dsimp only
    cases hinstall : m.table.install m.room cap with
    | none =>
      rw [hinstall] at hcan
      dsimp only
      refine iff_of_false (fun h => ?_) fun h => ?_
      · exact hlost _ _ (h _ _ rfl rfl)
      · rw [← hcan] at h
        exact absurd (h.2 (Option.some_ne_none cap)) Bool.false_ne_true
    | some installed =>
      obtain ⟨handle, table⟩ := installed
      rw [hinstall] at hcan
      dsimp only
      refine (hwrite table).trans ?_
      rw [← hcan]
      simp

/-- **A call that fails leaves everything as it was**, exactly where what arrives can be handed over
and one that gives up is still in the queue. -/
theorem recv_unchanged_iff (s : ReceiveState) (m : Meanwhile) (c : ReceiveCall) :
    (∀ r err, s.recv m c = some r → r.result = .error err → s.Unchanged m r) ↔ s.Goes m c := by
  have hnothing : ∀ err, s.Unchanged m ⟨.error err, s.endpoint, none, m.table, false⟩ := fun _ =>
    ⟨fun _ => rfl, fun _ => rfl, rfl, rfl, rfl⟩
  cases hres : resolveReceivableEndpoint s.table s.objects c.endpoint with
  | error err =>
    refine iff_of_true (fun r err' heq _ => ?_) fun ep hep => ?_
    · rw [recv, hres] at heq
      obtain rfl := Option.some.inj heq
      exact hnothing err
    · rw [hres] at hep
      cases hep
  | ok ep =>
    by_cases hep : ep < s.neps ∧ (s.endpoint ep).allocated = true
    · have hgoes : s.Goes m c ↔ s.GoesAt m c ep := by
        refine ⟨fun h => h ep hres hep.1 hep.2, fun h ep' hep' _ _ => ?_⟩
        rw [hres] at hep'
        obtain rfl := Except.ok.inj hep'
        exact h
      rw [hgoes, GoesAt]
      rcases s.recvUntil_spec m c.deadline hep with ⟨km, r, hrecv, harrives, hok, -, hlost⟩ |
        ⟨err, r, hrecv, harrives, herr, hiff⟩ | ⟨hrecv, harrives, hdeadline⟩
      · rw [harrives]
        exact recv_holding hok hlost hres hrecv
      · rw [harrives]
        refine Iff.trans ⟨fun h => h r err ?_ herr, fun h r' err' heq _ => ?_⟩ hiff
        · rw [recv, hres]
          dsimp only
          rw [hrecv]
        · rw [recv, hres] at heq
          dsimp only at heq
          rw [hrecv] at heq
          obtain rfl := Option.some.inj heq
          exact h
      · rw [harrives]
        refine iff_of_true (fun r err heq => ?_) fun _ hne => absurd hdeadline hne
        rw [recv, hres] at heq
        dsimp only at heq
        rw [hrecv] at heq
        cases heq
    · refine iff_of_true (fun r err heq _ => ?_) fun ep' hep' hlt halloc => ?_
      · rw [recv, hres] at heq
        dsimp only at heq
        rw [recvUntil, if_neg hep] at heq
        obtain rfl := Option.some.inj heq
        exact hnothing _
      · rw [hres] at hep'
        obtain rfl := Except.ok.inj hep'
        exact absurd ⟨hlt, halloc⟩ hep

theorem one_le_ringCap : 1 ≤ ringCap := by
  decide

/-- One endpoint, with one message in its ring, and a capability to it. -/
def oneMessage : ReceiveState where
  me := 0
  table := [none, some (.endpoint ⟨0, 0⟩ true true)]
  objects := [⟨0, some (.endpoint 0)⟩]
  neps := 1
  endpoint _ :=
    { Endpoint.new KMessage.empty with
      allocated := true
      ring := ⟨fun _ => .empty, 0, 1, one_le_ringCap, one_le_ringCap⟩ }

/-- A receive to a pointer that is not aligned fails, and the message is gone. -/
theorem recv_loses : ∃ (m : Meanwhile) (r : Receipt),
    oneMessage.recv m (.recv 1 1) = some r ∧ r.result = .error .invalidArgument ∧
      ¬oneMessage.Unchanged m r := by
  refine ⟨⟨none, .new .empty, [none], true, true⟩, _, rfl, rfl, fun h => ?_⟩
  have hlen := congrArg List.length (h.msgs 0)
  revert hlen
  decide

end ReceiveState

end StarOS
