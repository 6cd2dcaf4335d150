import StarOS.Libc.QueueRun

/-!
# What a queue promises

A thread that has put itself on a queue will not be forgotten: it stays on the queue until somebody
takes it off, and who takes it off unparks it. So in every state it is on the queue, or somebody
who works on that queue is about to unpark it, or it has a signal, until it parks.

## Main definitions

* `Threads.Queues.Due` — somebody is about to unpark a thread
* `Threads.Queues.Promised`

## Main results

* `Threads.Queues.Promised.next`
-/

namespace StarOS

namespace Threads

open Links

variable {Thread Place : Type} {s s' : Queues Thread Place} {t u x : Thread} {q : Place}
  {a : Act Place}

/-- The queue an operation works on. -/
def Op.place : Op Thread Place → Option Place
  | .idle => none
  | .pushLock q | .pushSwap q | .pushLoad q | .pushNext q _ | .pushHead q | .pushUnlock q
  | .takeLock q | .takeSwap q | .takeClear q _ _ | .takeNext q _ _ | .takeUnlock q _ | .wakeNext q _
  | .wakeUnpark q _ _ | .popLock q | .popLoad q | .popNext q _ | .popClear q _ _ | .popStore q _ _
  | .popUnlock q _ | .popUnpark q _ => some q

/-- How an operation was begun. -/
def Op.begun : Op Thread Place → Option (Act Place)
  | .idle => none
  | .pushLock q | .pushSwap q | .pushLoad q | .pushNext q _ | .pushHead q | .pushUnlock q =>
    some (.push q)
  | .takeLock q | .takeSwap q | .takeClear q _ _ | .takeNext q _ _ | .takeUnlock q _ | .wakeNext q _
  | .wakeUnpark q _ _ => some (.take q)
  | .popLock q | .popLoad q | .popNext q _ | .popClear q _ _ | .popStore q _ _ | .popUnlock q _
  | .popUnpark q _ => some (.pop q)

theorem Op.begun_eq_none {o : Op Thread Place} : o.begun = none ↔ o = .idle := by
  cases o <;> simp [begun]

/-- The places of a pop before it has taken a thread off the queue. -/
def Op.PopsNext (q : Place) : Op Thread Place → Prop
  | .popLock q' | .popLoad q' | .popNext q' _ | .popClear q' _ _ | .popStore q' _ _ => q' = q
  | _ => False

theorem Op.PopsNext.begun {o : Op Thread Place} (h : o.PopsNext q) : o.begun = some (.pop q) := by
  cases o <;> first | exact h.elim | exact congrArg (fun q => some (Act.pop q)) h

theorem Op.PopsNext.place {o : Op Thread Place} (h : o.PopsNext q) : o.place = some q := by
  cases o <;> first | exact h.elim | exact congrArg some h

/-- The thread that an operation has taken off a queue and is about to unpark. -/
def Op.Wakes (t : Thread) : Op Thread Place → Prop
  | .wakeUnpark _ thread _ | .popUnpark _ thread => thread = t
  | .popUnlock _ head => head = some t
  | _ => False

/-- **Somebody who works on the queue is about to unpark the thread.** -/
def Queues.Due (s : Queues Thread Place) (q : Place) (t : Thread) : Prop :=
  ∃ v, (s.op v).place = some q ∧ (From s.next (s.op v).list t ∨ (s.op v).Wakes t)

/-- A thread is on the queue, or about to be unparked by somebody who works on it, or has a
signal. -/
def Queues.Promised (s : Queues Thread Place) (q : Place) (t : Thread) : Prop :=
  s.Linked q t ∨ s.Due q t ∨ 0 < s.signals t

variable [DecidableEq Thread] [DecidableEq Place]

/-- An operation works on one queue until it is over. -/
theorem Queues.place_of_go (h : s.go t = some s') :
    (s'.op t).place = (s.op t).place ∨ s'.op t = .idle := by
  have hgoes := goes_of_go h
  generalize ho : s.op t = o at hgoes
  cases hgoes with
  | pushSpin | takeSpin | popSpin => exact .inl (by rw [ho])
  | pushUnlock | takeNobody | wakeLast | popNobody | popUnpark => exact .inr (goTo_op ..)
  | _ => exact .inl (by rw [goTo_op]; rfl)

theorem begun_of_go (h : s.go t = some s') :
    (s'.op t).begun = (s.op t).begun ∨ s'.op t = .idle := by
  have hgoes := Queues.goes_of_go h
  generalize ho : s.op t = o at hgoes
  cases hgoes with
  | pushSpin | takeSpin | popSpin => exact .inl (by rw [ho])
  | pushUnlock | takeNobody | wakeLast | popNobody | popUnpark => exact .inr (goTo_op ..)
  | _ => exact .inl (by rw [goTo_op]; rfl)

/-- What begins is what was called. -/
theorem begun_of_act {a a' : Act Place} (h : s.act (t, a) = some s')
    (hidle : s.op t = .idle) (hb : (s'.op t).begun = some a') : a' = a := by
  cases a with
  | go => simp [Queues.act, Queues.go, hidle] at h
  | park =>
    rw [Queues.act] at h
    split at h
    · obtain rfl := Option.some.inj h
      simp [hidle, Op.begun] at hb
    · simp at h
  | push q | take q | pop q =>
    rw [Queues.act, if_pos hidle] at h
    obtain rfl := Option.some.inj h
    rw [goTo_op] at hb
    exact (Option.some.inj hb).symm

/-- No operation begins with the lock of a queue. -/
theorem Queues.not_locks_of_act (h : s.act (t, a) = some s') (hidle : s.op t = .idle) (q : Place) :
    ¬ (s'.op t).Locks q := by
  cases a with
  | go => simp [act, go, hidle] at h
  | park =>
    rw [act] at h
    split at h
    · obtain rfl := Option.some.inj h
      rw [hidle]
      exact id
    · simp at h
  | push q | take q | pop q =>
    rw [act, if_pos hidle] at h
    obtain rfl := Option.some.inj h
    rw [goTo_op]
    exact id

/-- Signals are consumed by parks only. -/
theorem Queues.signals_le (h : s.act (t, a) = some s') (hpark : ¬ (t = x ∧ a = .park)) :
    s.signals x ≤ s'.signals x := by
  have hunpark : ∀ y, s.signals x ≤ (s.unpark y).signals x := by
    intro y
    by_cases hx : x = y
    · subst hx
      simp [unpark]
    · simp [unpark, Function.update_of_ne hx]
  cases a with
  | go =>
    have hgoes := goes_of_go h
    generalize s.op t = o at hgoes
    cases hgoes with
    | wakeLast | wakeUnpark | popUnpark => exact hunpark _
    | _ => exact Nat.le_refl _
  | park =>
    rw [act] at h
    split at h
    · obtain rfl := Option.some.inj h
      exact Nat.le_of_eq (Function.update_of_ne (fun hx => hpark ⟨hx.symm, rfl⟩) ..).symm
    · simp at h
  | push q | take q | pop q =>
    rw [act] at h
    split at h
    · obtain rfl := Option.some.inj h
      exact Nat.le_refl _
    · simp at h

section Next

variable {home : Thread → Home Thread Place} (h : Placed s home) (hlocked : s.Locked)
  (hsafe : s.LinksSafely (t, a)) (hn : s.act (t, a) = some s')
include h hlocked hsafe hn

/-- What is due is due until it is done. -/
theorem Placed.due_next (hx : s.Due q x) : s'.Due q x ∨ 0 < s'.signals x := by
  obtain ⟨v, hplace, hx⟩ := hx
  by_cases hv : v = t
  · subst hv
    obtain rfl : a = .go := by
      by_contra hne
      rw [Queues.idle_of_act hn hne] at hplace
      simp [Op.place] at hplace
    obtain hlist | hwakes := hx
    · obtain hlist' | ⟨-, -, q', hop⟩ := h.list_next hlocked hsafe hn hlist
      · refine .inl ⟨v, ?_, .inl hlist'⟩
        refine ((Queues.place_of_go hn).resolve_right fun hidle => ?_).trans hplace
        rw [hidle] at hlist'
        exact not_from_none hlist'
      · have hgoes := Queues.goes_of_go hn
        rw [hop] at hgoes hplace
        cases hgoes
        exact .inl ⟨v, by rw [goTo_op]; exact hplace, .inr (by rw [goTo_op]; rfl)⟩
    · have hgoes := Queues.goes_of_go hn
      generalize ho : s.op v = o at hgoes hwakes hplace
      cases hgoes with
      | wakeLast | wakeUnpark | popUnpark =>
        obtain rfl := hwakes
        exact .inr (by simp [Queues.goTo, Queues.unpark])
      | popUnlock =>
        refine .inl ⟨v, by rw [goTo_op]; exact hplace, .inr ?_⟩
        rw [goTo_op]
        exact Option.some.inj hwakes
      | popNobody => simp [Op.Wakes] at hwakes
      | _ => exact hwakes.elim
  · have hop := Queues.op_of_ne hn hv
    refine .inl ⟨v, by rw [hop]; exact hplace, hx.imp (fun hlist => ?_) fun hw => by rw [hop]; exact hw⟩
    exact (h.list_next hlocked hsafe hn hlist).resolve_right fun hw => hv hw.1.symm

/-- Who takes a thread off a queue is about to unpark it. -/
theorem Placed.linked_or_due (hx : s.Linked q x) : s'.Linked q x ∨ s'.Due q x := by
  obtain hstay | ⟨rfl, ⟨next, hop⟩ | ⟨hop, hlist⟩⟩ := h.linked_next hlocked hsafe hn hx
  · exact .inl hstay
  · have hgoes := Queues.goes_of_go hn
    rw [hop] at hgoes
    cases hgoes
    exact .inr ⟨t, by rw [goTo_op]; rfl, .inr (by rw [goTo_op]; rfl)⟩
  · refine .inr ⟨t, ?_, .inl hlist⟩
    refine ((Queues.place_of_go hn).resolve_right fun hidle => ?_).trans (by rw [hop]; rfl)
    rw [hidle] at hlist
    exact not_from_none hlist

omit hsafe hn in
/-- A thread that is popped was on the queue, and is about to be unparked. -/
theorem Placed.popped {next : Option Thread} (hsafe : s.LinksSafely (t, .go))
    (hn : s.act (t, .go) = some s') (hop : s.op t = .popStore q x next) :
    s.Linked q x ∧ ¬ s'.Linked q x ∧ s'.Due q x := by
  have hknows := h.knows t
  rw [hop] at hknows
  have h' := h.next hlocked hsafe hn
  refine ⟨?_, fun hlinked => ?_, ?_⟩
  · rw [Queues.Linked, hknows.1]
    exact .here
  · have hhome := h'.linked_iff.mp hlinked
    rw [Queues.moves, hop, rehome, Function.update_self] at hhome
    simp at hhome
  · have hgoes := Queues.goes_of_go hn
    rw [hop] at hgoes
    cases hgoes
    exact ⟨t, by rw [goTo_op]; rfl, .inr (by rw [goTo_op]; rfl)⟩

/-- A thread that is about to be unparked, or has a signal, has one in the end. -/
theorem Placed.due_or_signal_next (hpark : ¬ (t = x ∧ a = .park))
    (hx : s.Due q x ∨ 0 < s.signals x) : s'.Due q x ∨ 0 < s'.signals x := by
  obtain hdue | hsignal := hx
  · exact h.due_next hlocked hsafe hn hdue
  · exact .inr (Nat.lt_of_lt_of_le hsignal (Queues.signals_le hn hpark))

/-- **A promise is kept** until the thread parks. -/
theorem Placed.promised_next (hpark : ¬ (t = x ∧ a = .park)) (hx : s.Promised q x) :
    s'.Promised q x := by
  obtain hlinked | hx := hx
  · exact (h.linked_or_due hlocked hsafe hn hlinked).imp_right .inl
  · exact .inr (h.due_or_signal_next hlocked hsafe hn hpark hx)

end Next

/-- **Who has pushed itself is promised a signal**, if its flag was set only because it was on that
queue, or was just taken off it. -/
theorem Placed.promised_of_push {home : Thread → Home Thread Place} (h : Placed s home)
    (hlocked : s.Locked) (hsafe : s.LinksSafely (t, .go)) (hn : s.act (t, .go) = some s')
    (hbegun : (s.op t).begun = some (.push q))
    (hend : s'.op t = .idle ∨ s'.op t = .pushUnlock q)
    (hflag : s.op t = .pushSwap q → s.queued t = 1 → s.Linked q t ∨ s.Due q t)
    (hunlock : s.op t = .pushUnlock q → s.Promised q t) : s'.Promised q t := by
  have hkeep := h.promised_next (x := t) (q := q) hlocked hsafe hn (by simp)
  have hgoes := Queues.goes_of_go hn
  generalize ho : s.op t = o at hgoes hbegun hflag hunlock
  cases hgoes with
  | pushSwapped hset =>
    obtain rfl : _ = q := by simpa [Op.begun] using hbegun
    exact hkeep ((hflag rfl hset).imp_right .inl)
  | pushHead =>
    obtain rfl : _ = q := by simpa [Op.begun] using hbegun
    refine .inl ?_
    simp only [Queues.Linked, Queues.goTo, Queues.setHead, Function.update_self]
    exact .here
  | pushUnlock =>
    obtain rfl : _ = q := by simpa [Op.begun] using hbegun
    exact hkeep (hunlock rfl)
  | pushSpin =>
    rw [ho] at hend
    simp at hend
  | pushLock | pushSwap | pushLoad | pushNext =>
    rw [goTo_op] at hend
    simp at hend
  | _ => simp [Op.begun] at hbegun

end Threads

end StarOS
