import Mathlib.Data.Multiset.MapFold
import Mathlib.Logic.Function.Basic
import Mathlib.Logic.Relation
import StarOS.Lib.Custody

/-!
# Mail: messages handed over outside the lock

A message system in which a box keeps its messages in a ring, the messages there was no room for
with their senders, and the receivers it has none for in a queue. A sender who finds a receiver
queued takes it off the queue and hands the message over *later*, into a mailbox of the
receiver's. Between the two anything can happen, and only one thing can go wrong: the receiver
stops waiting.

So two kinds of thing must be kept account of. The messages; and the receivers' *tickets*, one for
each receive under way, which say that a receiver waits at a box: a ticket is in the queue, or with
the sender on its way to the receiver, or in the mailbox with the message. As long as a receive
only ends by a message or by taking its own ticket out of the queue, both ledgers are exact.

## Main definitions

* `Mail`, `Mail.Step` — the system and what can happen in it
* `Mail.holds`, `Mail.tickets` — where the messages and the tickets are

## Main results

* `Mail.Sound.step`, `Mail.Sound.steps` — both ledgers stay exact, and no message leaves the box it was sent to
-/

/-- Boxes `ε`, parties `τ`, messages `μ`. -/
structure Mail (τ ε μ : Type*) where
  /-- The messages of a box, oldest first. -/
  ring : ε → List μ
  /-- The messages a box has no room for, each with its sender. -/
  senders : ε → List (τ × μ)
  /-- The receivers a box has no message for. -/
  queue : ε → List τ
  /-- The messages a party is about to hand over, each with its receiver. -/
  flight : τ → List (τ × μ)
  mailbox : τ → Option μ
  /-- The box a party is receiving from. -/
  awaits : τ → Option ε
  accepted : List μ
  /-- The messages received, each with the box it was received from. -/
  returned : List (ε × μ)

namespace Mail

variable {τ ε μ : Type*}

/-! ### Where things are -/

/-- Where a message can be. -/
inductive Place (τ ε : Type*)
  | ring (e : ε)
  | sender (e : ε)
  | flight (t : τ)
  | mailbox (t : τ)
  | returned
  deriving DecidableEq

/-- The messages in each place. -/
def holds (m : Mail τ ε μ) : Ledger (Place τ ε) μ
  | .ring e => m.ring e
  | .sender e => (m.senders e).map Prod.snd
  | .flight t => (m.flight t).map Prod.snd
  | .mailbox t => (m.mailbox t).toList
  | .returned => m.returned.map Prod.snd

/-- Where a ticket can be. -/
inductive TicketPlace (τ ε : Type*)
  | queue (e : ε)
  | flight (t : τ)
  | mailbox (t : τ)
  deriving DecidableEq

variable (addr : μ → ε)

/-- The tickets in each place, each a receiver and the box it waits at; a ticket that is out of the
queue is for the box of its message. -/
def tickets (m : Mail τ ε μ) : Ledger (TicketPlace τ ε) (τ × ε)
  | .queue e => (m.queue e).map (·, e)
  | .flight t => (m.flight t).map fun d => (d.1, addr d.2)
  | .mailbox t => (m.mailbox t).toList.map (t, addr ·)

/-- The system is sound: no message is lost or doubled, no receive is, and no message is at a box
other than its own. -/
structure Sound (m : Mail τ ε μ) : Prop where
  messages : (holds m).Exact {x | x ∈ m.accepted}
  tickets : (tickets addr m).Exact {w | m.awaits w.1 = some w.2}
  ring : ∀ e, ∀ x ∈ m.ring e, addr x = e
  senders : ∀ e, ∀ d ∈ m.senders e, addr d.2 = e
  returned : ∀ d ∈ m.returned, addr d.2 = d.1

/-! ### What can happen -/

/-- One event. -/
inductive Step [DecidableEq τ] [DecidableEq ε] (m : Mail τ ε μ) : Mail τ ε μ → Prop
  /-- Sender `t` takes receiver `w` off the queue, for a message to hand over. -/
  | hand {t w : τ} {x : μ} {rest : List τ} : x ∉ m.accepted → m.queue (addr x) = w :: rest →
      Step m { m with
        queue := Function.update m.queue (addr x) rest
        flight := Function.update m.flight t ((w, x) :: m.flight t)
        accepted := m.accepted ++ [x] }
  /-- A message goes into the ring. -/
  | buffer {x : μ} : x ∉ m.accepted →
      Step m { m with
        ring := Function.update m.ring (addr x) (m.ring (addr x) ++ [x])
        accepted := m.accepted ++ [x] }
  /-- A message waits with its sender. -/
  | wait {t : τ} {x : μ} : x ∉ m.accepted →
      Step m { m with
        senders := Function.update m.senders (addr x) (m.senders (addr x) ++ [(t, x)])
        accepted := m.accepted ++ [x] }
  /-- A message that waited with its sender goes into the ring. -/
  | promote {e : ε} {d : τ × μ} {rest : List (τ × μ)} : m.senders e = d :: rest →
      Step m { m with
        ring := Function.update m.ring e (m.ring e ++ [d.2])
        senders := Function.update m.senders e rest }
  /-- The oldest message of a ring is received. -/
  | take {e : ε} {x : μ} {rest : List μ} : m.ring e = x :: rest →
      Step m { m with
        ring := Function.update m.ring e rest
        returned := m.returned ++ [(e, x)] }
  /-- A receiver queues. -/
  | join {t : τ} {e : ε} : m.awaits t = none →
      Step m { m with
        queue := Function.update m.queue e (m.queue e ++ [t])
        awaits := Function.update m.awaits t (some e) }
  /-- Sender `t` hands a message over. -/
  | land {t : τ} {d : τ × μ} {rest : List (τ × μ)} : m.flight t = d :: rest →
      Step m { m with
        flight := Function.update m.flight t rest
        mailbox := Function.update m.mailbox d.1 (some d.2) }
  /-- A receiver takes the message left for it. -/
  | collect {t : τ} {e : ε} {x : μ} : m.awaits t = some e → m.mailbox t = some x →
      Step m { m with
        mailbox := Function.update m.mailbox t none
        awaits := Function.update m.awaits t none
        returned := m.returned ++ [(e, x)] }
  /-- A receiver takes itself off the queue. -/
  | retract {t : τ} {e : ε} : m.awaits t = some e → t ∈ m.queue e →
      Step m { m with
        queue := Function.update m.queue e ((m.queue e).erase t)
        awaits := Function.update m.awaits t none }

variable {addr} {m m' : Mail τ ε μ}

/-- What a mailbox holds is for the box its owner is receiving from. -/
theorem Sound.addr_of_mailbox (h : m.Sound addr) {t : τ} {e : ε} {x : μ} (ht : m.awaits t = some e)
    (hx : m.mailbox t = some x) : addr x = e := by
  have hmem : (t, addr x) ∈ Mail.tickets addr m (.mailbox t) := by simp [Mail.tickets, hx]
  have hw : m.awaits t = some (addr x) := h.tickets.mem hmem
  exact Option.some.inj (hw.symm.trans ht)

/-- There is room in the mailbox a message is on its way to. -/
theorem Sound.mailbox_of_flight (h : m.Sound addr) {t : τ} {d : τ × μ} (hd : d ∈ m.flight t) :
    m.mailbox d.1 = none := by
  have hmem : (d.1, addr d.2) ∈ Mail.tickets addr m (.flight t) := by
    exact Multiset.mem_coe.mpr (List.mem_map_of_mem (f := fun d => (d.1, addr d.2)) hd)
  have hw : m.awaits d.1 = some (addr d.2) := h.tickets.mem hmem
  cases hx : m.mailbox d.1 with
  | none => rfl
  | some y =>
    have hbox : (d.1, addr y) ∈ Mail.tickets addr m (.mailbox d.1) := by simp [Mail.tickets, hx]
    have hy : addr y = addr d.2 := h.addr_of_mailbox hw hx
    rw [hy] at hbox
    exact absurd (h.tickets.place_unique hmem hbox) (by simp)

theorem mem_accepted_append {x : μ} :
    {y | y ∈ m.accepted ++ [x]} = insert x {y | y ∈ m.accepted} := by
  ext y
  simp [or_comm]

/-- A receive begun. -/
theorem awaits_update_some [DecidableEq τ] {t : τ} {e : ε} (ht : m.awaits t = none) :
    {w : τ × ε | Function.update m.awaits t (some e) w.1 = some w.2} =
      insert (t, e) {w | m.awaits w.1 = some w.2} := by
  ext ⟨u, e'⟩
  rcases eq_or_ne u t with rfl | hne
  · simp [ht, eq_comm]
  · simp [hne]

/-- A receive ended. -/
theorem awaits_update_none [DecidableEq τ] {t : τ} {e : ε} (ht : m.awaits t = some e) :
    {w : τ × ε | Function.update m.awaits t none w.1 = some w.2} =
      {w | m.awaits w.1 = some w.2} \ {(t, e)} := by
  ext ⟨u, e'⟩
  rcases eq_or_ne u t with rfl | hne
  · simp [ht, eq_comm]
  · simp [hne]

variable [DecidableEq τ] [DecidableEq ε]

/-- Each step keeps account of the messages. -/
theorem Sound.messages_step (h : m.Sound addr) (hs : Step addr m m') :
    (holds m').Exact {x | x ∈ m'.accepted} := by
  have hcons : ∀ {l : List μ} {x : μ}, ((l ++ [x] : List μ) : Multiset μ) = x ::ₘ l := by
    intro l x
    rw [Multiset.cons_coe]
    exact Multiset.coe_eq_coe.mpr (List.perm_append_singleton x l)
  cases hs with
  | @hand t w x rest hx hq =>
    rw [mem_accepted_append]
    refine h.messages.mint (p := .flight t) hx (by simp [holds]) ?_
    rintro (e | e | u | u | _) hne <;> simp_all [holds]
  | @buffer x hx =>
    rw [mem_accepted_append]
    refine h.messages.mint (p := .ring (addr x)) hx (by simp [holds, hcons]) ?_
    rintro (e | e | u | u | _) hne <;> simp_all [holds]
  | @wait t x hx =>
    rw [mem_accepted_append]
    refine h.messages.mint (p := .sender (addr x)) hx (by simp [holds, hcons]) ?_
    rintro (e | e | u | u | _) hne <;> simp_all [holds]
  | @promote e d rest hd =>
    refine h.messages.move (x := d.2) (p := .sender e) (q := .ring e) (by simp)
      (by simp [holds, hd]) (by simp [holds, hcons]) ?_
    rintro (e | e | u | u | _) hne hne' <;> simp_all [holds]
  | @take e x rest hx =>
    refine h.messages.move (x := x) (p := .ring e) (q := .returned) (by simp)
      (by simp [holds, hx]) (by simp [holds, hcons]) ?_
    rintro (e | e | u | u | _) hne hne' <;> simp_all [holds]
  | join => exact h.messages.congr fun p => by cases p <;> rfl
  | @land t d rest hd =>
    have hnone := h.mailbox_of_flight (t := t) (d := d) (by simp [hd])
    refine h.messages.move (x := d.2) (p := .flight t) (q := .mailbox d.1) (by simp)
      (by simp [holds, hd]) (by simp [holds, hnone]) ?_
    rintro (e | e | u | u | _) hne hne' <;> simp_all [holds]
  | @collect t e x ht hx =>
    refine h.messages.move (x := x) (p := .mailbox t) (q := .returned) (by simp)
      (by simp [holds, hx]) (by simp [holds, hcons]) ?_
    rintro (e | e | u | u | _) hne hne' <;> simp_all [holds]
  | retract => exact h.messages.congr fun p => by cases p <;> rfl

/-- Each step keeps account of the tickets. -/
theorem Sound.tickets_step (h : m.Sound addr) (hs : Step addr m m') :
    (Mail.tickets addr m').Exact {w | m'.awaits w.1 = some w.2} := by
  cases hs with
  | @hand t w x rest hx hq =>
    refine h.tickets.move (x := (w, addr x)) (p := .queue (addr x)) (q := .flight t) (by simp)
      (by simp [Mail.tickets, hq]) (by simp [Mail.tickets]) ?_
    rintro (e | u | u) hne hne' <;> simp_all [Mail.tickets]
  | @join t e ht =>
    rw [awaits_update_some ht]
    refine h.tickets.mint (p := .queue e) (by simp [ht]) ?_ ?_
    · simp only [Mail.tickets, Function.update_self, List.map_append, List.map_cons, List.map_nil,
        Multiset.cons_coe]
      exact Multiset.coe_eq_coe.mpr (List.perm_append_singleton _ _)
    · rintro (e' | u | u) hne <;> simp_all [Mail.tickets]
  | @land t d rest hd =>
    have hnone := h.mailbox_of_flight (t := t) (d := d) (by simp [hd])
    refine h.tickets.move (x := (d.1, addr d.2)) (p := .flight t) (q := .mailbox d.1) (by simp)
      (by simp [Mail.tickets, hd]) (by simp [Mail.tickets, hnone]) ?_
    rintro (e | u | u) hne hne' <;> simp_all [Mail.tickets]
  | @collect t e x ht hx =>
    rw [awaits_update_none ht]
    refine h.tickets.burn (p := .mailbox t) ?_ ?_
    · simp [Mail.tickets, hx, h.addr_of_mailbox ht hx]
    · rintro (e' | u | u) hne <;> simp_all [Mail.tickets]
  | @retract t e ht hmem =>
    rw [awaits_update_none ht]
    refine h.tickets.burn (p := .queue e) ?_ ?_
    · simp only [Mail.tickets, Function.update_self, Multiset.cons_coe]
      exact Multiset.coe_eq_coe.mpr ((List.perm_cons_erase hmem).map (·, e))
    · rintro (e' | u | u) hne <;> simp_all [Mail.tickets]
  | _ => exact h.tickets.congr fun p => by cases p <;> rfl

/-- **The system stays sound.** -/
theorem Sound.step (h : m.Sound addr) (hs : Step addr m m') : m'.Sound addr where
  messages := h.messages_step hs
  tickets := h.tickets_step hs
  ring e y hy := by
    cases hs with
    | @buffer x _ =>
      rcases eq_or_ne e (addr x) with rfl | hne
      · simp only [Function.update_self, List.mem_append, List.mem_singleton] at hy
        exact hy.elim (h.ring _ y) fun hy => hy ▸ rfl
      · exact h.ring e y (by simpa [hne] using hy)
    | @promote e₀ d rest hd =>
      rcases eq_or_ne e e₀ with rfl | hne
      · simp only [Function.update_self, List.mem_append, List.mem_singleton] at hy
        exact hy.elim (h.ring e y) fun hy => hy ▸ h.senders e d (by simp [hd])
      · exact h.ring e y (by simpa [hne] using hy)
    | @take e₀ x rest hx =>
      rcases eq_or_ne e e₀ with rfl | hne
      · simp only [Function.update_self] at hy
        exact h.ring e y (by simp [hx, hy])
      · exact h.ring e y (by simpa [hne] using hy)
    | _ => exact h.ring e y hy
  senders e d hd := by
    cases hs with
    | @wait t x _ =>
      rcases eq_or_ne e (addr x) with rfl | hne
      · simp only [Function.update_self, List.mem_append, List.mem_singleton] at hd
        exact hd.elim (h.senders _ d) fun hd => hd ▸ rfl
      · exact h.senders e d (by simpa [hne] using hd)
    | @promote e₀ d₀ rest hd₀ =>
      rcases eq_or_ne e e₀ with rfl | hne
      · simp only [Function.update_self] at hd
        exact h.senders e d (by simp [hd₀, hd])
      · exact h.senders e d (by simpa [hne] using hd)
    | _ => exact h.senders e d hd
  returned d hd := by
    cases hs with
    | @take e x rest hx =>
      obtain hd | hd := List.mem_append.mp hd
      · exact h.returned d hd
      · obtain rfl := List.mem_singleton.mp hd
        exact h.ring e x (by simp [hx])
    | @collect t e x ht hx =>
      obtain hd | hd := List.mem_append.mp hd
      · exact h.returned d hd
      · obtain rfl := List.mem_singleton.mp hd
        exact h.addr_of_mailbox ht hx
    | _ => exact h.returned d hd

/-- However many steps it makes. -/
theorem Sound.steps (h : m.Sound addr) (hs : Relation.ReflTransGen (Step addr) m m') :
    m'.Sound addr := by
  induction hs with
  | refl => exact h
  | tail _ hs ih => exact ih.step hs

end Mail
