import Mathlib.Data.List.FinRange
import StarOS.Abi
import StarOS.Lib.EventSystem
import StarOS.Lib.Queue

/-!
# The display server's outbox

An event for a client goes out with a send that never blocks, and an endpoint takes only a few
messages. What does not fit is held, in a short queue per client that is flushed at the top of
every turn of the server's loop, and when that is full the *newest* event is dropped, because order
is the one thing a stream of button transitions cannot survive losing.

Whether an endpoint has room is the client's doing and is not modelled: `accepts` answers the
nonblocking sends one after another, and every result holds whatever it answers.

## Main definitions

* `Display.Outbox`, `Outbox.flush`, `Outbox.send`
* `Display.traffic` — a server that sends and flushes in any order

## Main results

* `Display.traffic_kept` — what a client has received, followed by what is held for it, is what was
  produced for it and not dropped, in the order it was produced
* `Display.events_in_order`
-/

namespace StarOS

namespace Display

/-- The most clients the server has room for. -/
abbrev maxClients : ℕ := 6

/-- A client, by its index in the server's tables. -/
abbrev Client := Fin maxClients

/-- How many events the server holds for one client that is not keeping up. -/
def outboxDepth : ℕ := 8

/-- The clients' endpoints, as far as the server's nonblocking sends meet them. -/
structure Endpoints where
  /-- What each client's endpoint has taken, in the order it took it. -/
  delivered : Client → List Message
  /-- How many nonblocking sends there have been. -/
  sends : ℕ

/-- Hand an event to a client, unchanged, and say whether it fitted. -/
def push (accepts : ℕ → Bool) (w : Endpoints) (client : Client) (event : Message) :
    Bool × Endpoints :=
  if accepts w.sends then
    (true, ⟨Function.update w.delivered client (w.delivered client ++ [event]), w.sends + 1⟩)
  else (false, ⟨w.delivered, w.sends + 1⟩)

/-- What became of one event. Three outcomes and not two, because "held" is neither of the
others. -/
inductive Delivery
  | sent
  | held
  | dropped
  deriving DecidableEq, Repr

/-- Events per client that would not fit when they were produced: a ring each. -/
structure Outbox where
  /-- The rings. -/
  queues : Client → RingBuffer Message outboxDepth

namespace Outbox

variable (accepts : ℕ → Bool)

/-- The outbox with nothing held. -/
def new : Outbox := ⟨fun _ => .empty (.new 0) (by decide)⟩

/-- What is held for a client, oldest first. -/
def held (o : Outbox) (client : Client) : List Message := (o.queues client).toList

/-- One client's ring replaced. -/
def set (o : Outbox) (client : Client) (ring : RingBuffer Message outboxDepth) : Outbox :=
  ⟨Function.update o.queues client ring⟩

/-- The inner loop of `flush`, with at most `n` events left to try. -/
def flushClient (client : Client) : ℕ → Outbox × Endpoints × BitVec 32 →
    Outbox × Endpoints × BitVec 32
  | 0, s => s
  | n + 1, (o, w, routed) =>
    match (o.queues client).pop with
    | none => (o, w, routed)
    | some (event, rest) =>
      match push accepts w client event with
      | (false, w') => (o, w', routed)
      | (true, w') => flushClient client n (o.set client rest, w', routed + 1)

/-- Try to deliver everything held for each of the first `clients` clients, oldest first, stopping
at the first one that will not fit. -/
def flush (o : Outbox) (w : Endpoints) (clients : ℕ) (routed : BitVec 32) :
    Outbox × Endpoints × BitVec 32 :=
  ((List.finRange maxClients).take clients).foldl
    (fun s client => flushClient accepts client (s.1.queues client).len s) (o, w, routed)

/-- Send now, queue it for the next turn, or drop it. -/
def send (o : Outbox) (w : Endpoints) (client : Client) (event : Message) :
    Delivery × Outbox × Endpoints :=
  -- anything already queued goes first even if the endpoint has room
  let (fitted, w) := if (o.queues client).len = 0 then push accepts w client event else (false, w)
  if fitted then (.sent, o, w)
  else match (o.queues client).push event with
    | none => (.dropped, o, w)
    | some ring => (.held, o.set client ring, w)

@[simp] theorem held_set_self (o : Outbox) (client : Client)
    (ring : RingBuffer Message outboxDepth) : (o.set client ring).held client = ring.toList := by
  simp [held, set]

theorem held_set_of_ne {client c : Client} (h : c ≠ client) (o : Outbox)
    (ring : RingBuffer Message outboxDepth) : (o.set client ring).held c = o.held c := by
  simp [held, set, Function.update_of_ne h]

end Outbox

theorem push_true {accepts : ℕ → Bool} {w w' : Endpoints} {client : Client} {event : Message}
    (h : push accepts w client event = (true, w')) :
    w'.delivered = Function.update w.delivered client (w.delivered client ++ [event]) := by
  rw [push] at h
  split at h
  · obtain ⟨-, rfl⟩ := Prod.mk.inj h
    rfl
  · simp at h

theorem push_false {accepts : ℕ → Bool} {w w' : Endpoints} {client : Client} {event : Message}
    (h : push accepts w client event = (false, w')) :
    w'.delivered = w.delivered ∧ ∃ n, accepts n = false := by
  rw [push] at h
  split at h
  · simp at h
  · next hno =>
    obtain ⟨-, rfl⟩ := Prod.mk.inj h
    exact ⟨rfl, w.sends, by simpa using hno⟩

/-! ### One flush, one send

Both are stated for every client at once: what happens at the client served, and that nothing
happens at the others. -/

/-- From `(o, w)` to `(o', w')` every client has been handed a front part of what was held for
it, oldest first, and the rest is still held. -/
def HandsOver (o : Outbox) (w : Endpoints) (o' : Outbox) (w' : Endpoints) : Prop :=
  ∀ c, ∃ out, o.held c = out ++ o'.held c ∧ w'.delivered c = w.delivered c ++ out

theorem HandsOver.refl (o : Outbox) (w : Endpoints) : HandsOver o w o w := fun _ => ⟨[], by simp⟩

theorem HandsOver.trans {o o' o'' : Outbox} {w w' w'' : Endpoints} (h : HandsOver o w o' w')
    (h' : HandsOver o' w' o'' w'') : HandsOver o w o'' w'' := by
  intro c
  obtain ⟨out, hheld, hdelivered⟩ := h c
  obtain ⟨out', hheld', hdelivered'⟩ := h' c
  refine ⟨out ++ out', ?_, ?_⟩
  · rw [hheld, hheld', List.append_assoc]
  · rw [hdelivered', hdelivered, List.append_assoc]

/-- One event of the loop: the oldest held event goes out. -/
theorem HandsOver.one {accepts : ℕ → Bool} {o : Outbox} {w w' : Endpoints} {client : Client}
    {event : Message} {rest : RingBuffer Message outboxDepth}
    (hpop : (o.queues client).pop = some (event, rest))
    (hpush : push accepts w client event = (true, w')) : HandsOver o w (o.set client rest) w' := by
  intro c
  rw [push_true hpush]
  by_cases hc : c = client
  · subst hc
    refine ⟨[event], ?_, by simp⟩
    rw [Outbox.held_set_self]
    exact RingBuffer.toList_pop hpop
  · refine ⟨[], ?_, ?_⟩
    · rw [Outbox.held_set_of_ne hc, List.nil_append]
    · rw [Function.update_of_ne hc, List.append_nil]

/-- **The inner loop** hands over a front part of what is held, in order. -/
theorem Outbox.flushClient_spec {accepts : ℕ → Bool} {client : Client} (n : ℕ)
    (s : Outbox × Endpoints × BitVec 32) :
    HandsOver s.1 s.2.1 (flushClient accepts client n s).1
      (flushClient accepts client n s).2.1 := by
  induction n generalizing s with
  | zero => exact HandsOver.refl _ _
  | succ n ih =>
    obtain ⟨o, w, routed⟩ := s
    rw [flushClient]
    split
    · exact HandsOver.refl _ _
    · next event rest hpop =>
      split
      · next w' hpush =>
        intro c
        exact ⟨[], by simp, by simp [(push_false hpush).1]⟩
      · next w' hpush => exact (HandsOver.one hpop hpush).trans (ih (_, _, _))

/-- **A flush** hands each client a front part of what is held for it. -/
theorem Outbox.flush_spec (accepts : ℕ → Bool) (o : Outbox) (w : Endpoints) (clients : ℕ)
    (routed : BitVec 32) :
    HandsOver o w (o.flush accepts w clients routed).1 (o.flush accepts w clients routed).2.1 := by
  have loop : ∀ (cs : List Client) (s : Outbox × Endpoints × BitVec 32),
      HandsOver s.1 s.2.1
        (cs.foldl (fun s c => flushClient accepts c (s.1.queues c).len s) s).1
        (cs.foldl (fun s c => flushClient accepts c (s.1.queues c).len s) s).2.1 := by
    intro cs
    induction cs with
    | nil => exact fun s => HandsOver.refl _ _
    | cons c cs ih => exact fun s => (flushClient_spec _ s).trans (ih _)
  exact loop _ (o, w, routed)

/-- What one send does, by its outcome. The client's new event is behind everything held for it
whichever way it goes, and it is dropped only behind `outboxDepth` others. -/
structure Sends (o : Outbox) (w : Endpoints) (client : Client) (event : Message) (d : Delivery)
    (o' : Outbox) (w' : Endpoints) : Prop where
  /-- What the client has and what is held for it, with the new event last unless it is dropped. -/
  here : w'.delivered client ++ o'.held client =
    w.delivered client ++ o.held client ++ if d = .dropped then [] else [event]
  /-- Nothing happens at any other client. -/
  elsewhere : ∀ c ≠ client, w'.delivered c = w.delivered c ∧ o'.held c = o.held c
  /-- An event is dropped only behind a full queue. -/
  full : d = .dropped → (o.held client).length = outboxDepth

theorem Outbox.send_spec (accepts : ℕ → Bool) (o : Outbox) (w : Endpoints) (client : Client)
    (event : Message) :
    Sends o w client event (o.send accepts w client event).1 (o.send accepts w client event).2.1
      (o.send accepts w client event).2.2 := by
  -- what the first test leaves: the send that fitted, or the endpoints as they were
  have key : ∀ fitted w', (if (o.queues client).len = 0 then push accepts w client event
      else (false, w)) = (fitted, w') →
      (fitted = true ∧ o.held client = [] ∧
        w'.delivered = Function.update w.delivered client (w.delivered client ++ [event])) ∨
      (fitted = false ∧ w'.delivered = w.delivered) := by
    intro fitted w' h
    split at h
    · next hlen =>
      cases fitted with
      | true => exact .inl ⟨rfl, RingBuffer.toList_eq_nil.mpr hlen, push_true h⟩
      | false => exact .inr ⟨rfl, (push_false h).1⟩
    · obtain ⟨rfl, rfl⟩ := Prod.mk.inj h
      exact .inr ⟨rfl, rfl⟩
  rw [send]
  rcases hf : (if (o.queues client).len = 0 then push accepts w client event
      else (false, w)) with ⟨fitted, w'⟩
  obtain ⟨rfl, hnil, hw⟩ | ⟨rfl, hw⟩ := key fitted w' hf
  · refine ⟨?_, ?_, nofun⟩
    · simp [hw, hnil]
    · intro c hc
      exact ⟨by simp [hw, Function.update_of_ne hc], rfl⟩
  · simp only [Bool.false_eq_true, if_false]
    split
    · next hpush =>
      refine ⟨by simp [hw], fun c _ => ⟨by rw [hw], rfl⟩, ?_⟩
      exact fun _ => RingBuffer.push_eq_none.mp hpush
    · next ring hpush =>
      refine ⟨?_, ?_, nofun⟩
      · rw [hw, held_set_self, RingBuffer.toList_push hpush, List.append_assoc]
        rfl
      · intro c hc
        exact ⟨by rw [hw], held_set_of_ne hc ..⟩

/-! ### Runs -/

/-- The server's sending side, with the events it has produced and what became of each when it was
produced. -/
structure Traffic where
  outbox : Outbox
  endpoints : Endpoints
  /-- Events delivered, and events dropped, as the server counts them. -/
  routed : BitVec 32
  dropped : BitVec 32
  /-- The events produced for each client, oldest first. -/
  produced : Client → List (Message × Delivery)

/-- What the server may do next. -/
inductive Action
  /-- An event is produced for a client. -/
  | send (client : Client) (event : Message)
  /-- The held events of the first `clients` clients are tried again. -/
  | flush (clients : ℕ)

namespace Traffic

variable (accepts : ℕ → Bool)

/-- One action. The counters go as they do where the server sends and flushes. -/
def act (t : Traffic) : Action → Traffic
  | .send client event =>
    let (d, o, w) := t.outbox.send accepts t.endpoints client event
    { outbox := o
      endpoints := w
      routed := if d = .sent then t.routed + 1 else t.routed
      dropped := if d = .dropped then t.dropped + 1 else t.dropped
      produced := Function.update t.produced client (t.produced client ++ [(event, d)]) }
  | .flush clients =>
    let (o, w, routed) := t.outbox.flush accepts t.endpoints clients t.routed
    { t with outbox := o, endpoints := w, routed := routed }

/-- The events produced for a client that were not dropped. -/
def kept (t : Traffic) (client : Client) : List Message :=
  ((t.produced client).filter (·.2 ≠ .dropped)).map Prod.fst

/-- How many of a client's events were dropped. -/
def drops (t : Traffic) (client : Client) : ℕ :=
  (t.produced client).countP (·.2 = .dropped)

end Traffic

/-- Sends and flushes in any order, from a server that has produced nothing yet. -/
def traffic (accepts : ℕ → Bool) : EventSystem Traffic Action where
  init t := t.outbox = .new ∧ (∀ c, t.endpoints.delivered c = []) ∧ ∀ c, t.produced c = []
  next t a := some (t.act accepts a)

variable {accepts : ℕ → Bool} {t : Traffic}

theorem Traffic.kept_send (t : Traffic) (client c : Client) (event : Message) :
    (t.act accepts (.send client event)).kept c =
      t.kept c ++ if c = client ∧ (t.outbox.send accepts t.endpoints client event).1 ≠ .dropped
        then [event] else [] := by
  by_cases hc : c = client
  · subst hc
    simp only [act, kept, Function.update_self, List.filter_append, List.map_append, true_and]
    congr 1
    split <;> simp_all
  · simp [act, kept, hc]

/-- **Order.** What a client has received, followed by what is held for it, is what was produced
for it and not dropped. -/
theorem traffic_kept (h : (traffic accepts).Reachable t) (c : Client) :
    t.endpoints.delivered c ++ t.outbox.held c = t.kept c := by
  refine h.invariant (I := fun t => ∀ c, t.endpoints.delivered c ++ t.outbox.held c = t.kept c)
    ?_ ?_ c
  · rintro t ⟨ho, hd, hp⟩ c
    rw [ho, hd, Traffic.kept, hp]
    rfl
  · rintro t a _ ih - hn c
    obtain rfl := Option.some.inj hn
    cases a with
    | send client event =>
      have hs := t.outbox.send_spec accepts t.endpoints client event
      rw [Traffic.kept_send, ← ih]
      by_cases hc : c = client
      · subst hc
        refine hs.here.trans ?_
        congr 1
        split <;> simp_all
      · obtain ⟨hd, hh⟩ := hs.elsewhere c hc
        simp only [Traffic.act, hd, hh, hc, false_and, if_false, List.append_nil]
    | flush clients =>
      obtain ⟨out, hheld, hdelivered⟩ :=
        t.outbox.flush_spec accepts t.endpoints clients t.routed c
      show _ = t.kept c
      rw [← ih, hheld]
      simp only [Traffic.act, hdelivered, List.append_assoc]

theorem Traffic.kept_sublist (t : Traffic) (c : Client) :
    (t.kept c).Sublist ((t.produced c).map Prod.fst) :=
  List.filter_sublist.map _

theorem Traffic.length_kept (t : Traffic) (c : Client) :
    (t.produced c).length = (t.kept c).length + t.drops c := by
  rw [kept, drops, List.length_map, ← List.countP_eq_length_filter, Nat.add_comm,
    List.length_eq_countP_add_countP (fun x : Message × Delivery => decide (x.2 = .dropped))]
  congr 1
  refine List.countP_congr fun x _ => ?_
  simp

/-- **Events arrive in order.** Whatever the endpoints accept and refuse, each client has received
a subsequence of what was produced for it, none of it twice: with what is held it is exactly what
was not dropped. Produced is delivered, dropped and held; and an event is dropped only when
`outboxDepth` events are held for its client. -/
theorem events_in_order {accepts : ℕ → Bool} {t : Traffic} (h : (traffic accepts).Reachable t)
    (client : Client) :
    (t.endpoints.delivered client).Sublist ((t.produced client).map Prod.fst) ∧
      t.endpoints.delivered client ++ t.outbox.held client = t.kept client ∧
      (t.produced client).length =
        (t.endpoints.delivered client).length + t.drops client +
          (t.outbox.held client).length ∧
      ∀ event, (t.outbox.send accepts t.endpoints client event).1 = .dropped →
        (t.outbox.held client).length = outboxDepth := by
  have hkept := traffic_kept h client
  refine ⟨?_, hkept, ?_, fun event => (t.outbox.send_spec accepts t.endpoints client event).full⟩
  · refine .trans ?_ (t.kept_sublist client)
    rw [← hkept]
    exact List.sublist_append_left ..
  · rw [t.length_kept, ← hkept, List.length_append]
    omega

/-- One event held behind a full endpoint goes out before the next. -/
theorem events_in_order_held :
    let accepts : ℕ → Bool := fun n => decide (0 < n)
    let t₀ : Traffic := ⟨.new, ⟨fun _ => [], 0⟩, 0, 0, fun _ => []⟩
    let t := ((t₀.act accepts (.send 2 (.new 1))).act accepts (.send 2 (.new 2))).act accepts
      (.flush 6)
    (t.endpoints.delivered 2).Sublist ((t.produced 2).map Prod.fst) ∧
      t.endpoints.delivered 2 = [.new 1, .new 2] := by
  intro accepts t₀ t
  have hr : (traffic accepts).Reachable t :=
    .step (.step (.step (.init ⟨rfl, fun _ => rfl, fun _ => rfl⟩) trivial rfl) trivial rfl)
      trivial rfl
  exact ⟨(events_in_order hr 2).1, by decide⟩

end Display

end StarOS
