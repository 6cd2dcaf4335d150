import StarOS.Libc.Calls

/-!
# Condition variables

A thread that waits for a condition variable puts itself on its queue, unlocks the mutex and parks.
A signal pops one thread and a broadcast takes all of them. So a signal wakes one that waits as long
as the queue holds those who wait and nobody else.

It does not after a deadline has passed, or after a thread was woken by a signal that was meant for
something else: that thread goes on without taking itself off the queue. There it may be popped in
place of one that waits, and with its flag set it is not put on the queue when it waits again.

## Main definitions

* `Threads.Waiting` — a thread has begun to wait, and was neither taken off the queue nor left
* `Threads.State.WaitsSafely` — the condition on a step
* `Threads.CondWakes` — what signals and broadcasts are for

## Main results

* `Threads.cond_wakes`
-/

namespace StarOS

namespace Threads

open Links

variable {Thread : Type} [DecidableEq Thread] {s s' : State Thread} {t u x : Thread} {e : Event}
  {c : ℕ} {tr : List (State Thread × (Thread × Event))}

/-- A thread that has begun to wait: its push on the queue ends. -/
def Enters (c : ℕ) (t : Thread) (s : State Thread) (e : Thread × Event) : Prop :=
  e = (t, .go) ∧ s.queues.op t = .pushUnlock (.cond c)

/-- The park of a thread that waits ends: it was woken, or its deadline has passed. -/
def Leaves (c : ℕ) (t : Thread) (s : State Thread) (e : Thread × Event) : Prop :=
  e.1 = t ∧ s.queues.op t = .idle ∧ ∃ m timed, s.pc t = .condPark c m timed

/-- A signal or a broadcast takes the thread off the queue, to unpark it. -/
def Chosen (c : ℕ) (t : Thread) (s : State Thread) (e : Thread × Event) : Prop :=
  e.2 = .go ∧ ((∃ next, s.queues.op e.1 = .popStore (.cond c) t next) ∨
    s.queues.op e.1 = .takeSwap (.cond c) ∧ s.queues.Linked (.cond c) t)

/-- **A thread waits**: it has begun to, and was neither woken since nor timed out. -/
def Waiting (tr : List (State Thread × (Thread × Event))) (c : ℕ) (t : Thread) : Prop :=
  EventSystem.Since tr (Enters c t) fun s e => Leaves c t s e ∨ Chosen c t s e

/-- **The condition on a step.** A thread that links itself is on no list that is still walked; a
thread that begins to wait has its flag clear; and a thread does not leave its wait while it is on
the queue. -/
def State.WaitsSafely (s : State Thread) (c : ℕ) : Thread × Event → Prop
  | (t, e) => s.LinksSafely (t, e) ∧
    (s.queues.op t = .pushSwap (.cond c) → s.queues.queued t ≠ 1) ∧
    (Leaves c t s (t, e) → ¬ s.queues.Linked (.cond c) t)

/-! ### The queue holds those who wait -/

/-- What is on the queue of a condition variable. -/
structure QueueWaits (c : ℕ) (tr : List (State Thread × (Thread × Event))) (s : State Thread) :
    Prop where
  linked : ∀ t, Waiting tr c t → s.queues.Linked (.cond c) t
  pushed : ∀ t, s.queues.op t = .pushUnlock (.cond c) → s.queues.Linked (.cond c) t
  waits : ∀ t, s.queues.Linked (.cond c) t →
    Waiting tr c t ∨ s.queues.op t = .pushUnlock (.cond c)

/-- What a step of a thread is for the queues. -/
theorem State.queues_next (hn : s.next (t, e) = some s') :
    (s'.queues = s.queues ∧ s.queues.op t = .idle) ∨
      ∃ a, s.queues.act (t, a) = some s'.queues ∧ (a = .go ↔ s.queues.op t ≠ .idle) ∧
        (a = .go → e = .go) := by
  cases step_of_next hn with
  | queue hbusy hact => exact .inr ⟨.go, hact, iff_of_true rfl hbusy, fun _ => rfl⟩
  | does hidle => exact .inl ⟨rfl, hidle⟩
  | @calls _ _ _ a _ hidle _ hact =>
    have ha : a ≠ .go := by
      rintro rfl
      simp [Queues.act, Queues.go, hidle] at hact
    exact .inr ⟨a, hact, iff_of_false ha (not_not.mpr hidle), fun h => absurd h ha⟩

section Next

variable (h : QueueWaits c tr s) (htidy : s.queues.Tidy) (hok : s.WaitsSafely c (t, e))
  (hn : s.next (t, e) = some s')
include htidy hok hn

/-- A thread stays on the queue until it is chosen. -/
theorem linked_of_not_chosen (hx : s.queues.Linked (.cond c) x) (hno : ¬ Chosen c x s (t, e)) :
    s'.queues.Linked (.cond c) x := by
  obtain ⟨hlocked, home, hplaced⟩ := htidy
  obtain ⟨heq, -⟩ | ⟨a, hact, -, hgo⟩ := State.queues_next hn
  · rw [heq]
    exact hx
  · obtain hstay | ⟨rfl, hoff⟩ := hplaced.linked_next hlocked hok.1.act hact hx
    · exact hstay
    · exact absurd ⟨hgo rfl, hoff.imp_right fun hoff => ⟨hoff.1, hx⟩⟩ hno

/-- A thread that is chosen is off the queue. -/
theorem not_linked_of_chosen (hx : Chosen c x s (t, e)) : ¬ s'.queues.Linked (.cond c) x := by
  obtain ⟨rfl, hx⟩ := hx
  obtain ⟨hlocked, home, hplaced⟩ := htidy
  have hbusy : s.queues.op t ≠ .idle := by
    obtain ⟨next, hop⟩ | ⟨hop, -⟩ := hx <;> rw [hop] <;> simp
  obtain ⟨-, hidle⟩ | ⟨a, hact, hiff, -⟩ := State.queues_next hn
  · exact absurd hidle hbusy
  · obtain rfl := hiff.mpr hbusy
    have h' := hplaced.next (a := .go) hlocked hok.1 hact
    rw [h'.linked_iff, Queues.moves]
    obtain ⟨next, hop⟩ | ⟨hop, hlinked⟩ := hx
    · simp [hop, rehome]
    · have hqueued := hplaced.head_queued hlocked (by rw [hop]; rfl) (by rw [hop]; simp) hlinked
      simp [hop, rehome, hqueued]

include h

theorem QueueWaits.pushed_next (x : Thread) (hx : s'.queues.op x = .pushUnlock (.cond c)) :
    s'.queues.Linked (.cond c) x := by
  by_cases hxt : x = t
  · subst hxt
    cases State.step_of_next hn with
    | queue hbusy hact =>
      have hgoes := Queues.goes_of_go hact
      generalize hop : s.queues.op x = o at hgoes
      cases hgoes with
      | pushSwapped hflag =>
        dsimp only at hx
        rw [goTo_op] at hx
        obtain rfl := Op.pushUnlock.inj hx
        exact absurd hflag (hok.2.1 hop)
      | pushHead =>
        dsimp only at hx
        rw [goTo_op] at hx
        obtain rfl := Op.pushUnlock.inj hx
        simp only [Queues.Linked, Queues.goTo, Queues.setHead, Function.update_self]
        exact .here
      | pushSpin | takeSpin | popSpin =>
        rw [hop] at hx
        simp at hx
      | _ =>
        dsimp only at hx
        rw [goTo_op] at hx
        simp at hx
    | does hidle =>
      rw [hidle] at hx
      simp at hx
    | calls hidle _ hact =>
      exact absurd (by rw [hx]; rfl) (Queues.not_locks_of_act hact hidle (.cond c))
  · rw [State.op_of_ne hn hxt] at hx
    refine linked_of_not_chosen htidy hok hn (h.pushed x hx) ?_
    -- it has the lock of the queue, so nobody else takes it off
    rintro ⟨-, hoff⟩
    have hlocks : (s.queues.op t).Locks (.cond c) := by
      obtain ⟨next, hop⟩ | ⟨hop, -⟩ := hoff <;> rw [hop] <;> rfl
    exact hxt ((htidy.1 _).unique (by rw [hx]; rfl) hlocks)

theorem QueueWaits.linked_next (x : Thread) (hx : Waiting (tr ++ [(s, (t, e))]) c x) :
    s'.queues.Linked (.cond c) x := by
  obtain ⟨heq, hop⟩ | ⟨hwaits, hno⟩ := EventSystem.since_snoc.mp hx
  · obtain ⟨rfl, rfl⟩ := Prod.mk.inj heq
    refine linked_of_not_chosen htidy hok hn (h.pushed t hop) ?_
    rintro ⟨-, ⟨next, hoff⟩ | ⟨hoff, -⟩⟩ <;> rw [hop] at hoff <;> simp at hoff
  · exact linked_of_not_chosen htidy hok hn (h.linked x hwaits) fun hch => hno (.inr hch)

theorem QueueWaits.waits_next (x : Thread) (hx : s'.queues.Linked (.cond c) x) :
    Waiting (tr ++ [(s, (t, e))]) c x ∨ s'.queues.op x = .pushUnlock (.cond c) := by
  obtain hlinked | ⟨rfl, hop⟩ := State.linked_of_next htidy hok.1 hn hx
  · obtain hwaits | hop := h.waits x hlinked
    · refine .inl (EventSystem.since_snoc.mpr (.inr ⟨hwaits, ?_⟩))
      rintro (hleaves | hchosen)
      · obtain rfl : t = x := hleaves.1
        exact hok.2.2 hleaves hlinked
      · exact not_linked_of_chosen htidy hok hn hchosen hx
    · by_cases hxt : x = t
      · subst hxt
        cases State.step_of_next hn with
        | queue => exact .inl (EventSystem.since_snoc.mpr (.inl ⟨rfl, hop⟩))
        | does hidle | calls hidle =>
          rw [hidle] at hop
          simp at hop
      · exact .inr (by rw [State.op_of_ne hn hxt, hop])
  · cases State.step_of_next hn with
    | queue hbusy hact =>
      have hgoes := Queues.goes_of_go hact
      rw [hop] at hgoes
      cases hgoes
      exact .inr (goTo_op ..)
    | does hidle | calls hidle =>
      rw [hidle] at hop
      simp at hop

end Next

theorem queueWaits_of_trace
    (h : (threadSystem Thread).Trace (fun s e => s.WaitsSafely c e) tr s) : QueueWaits c tr s := by
  refine EventSystem.Trace.invariant_of (I := fun tr s => QueueWaits c tr s)
    (J := fun _ s => s.queues.Tidy)
    (fun _ _ ht => tidy_of_run (fun _ ⟨_, _⟩ hok => hok.1) ht.reach) ?_ ?_ h
  · rintro _ ⟨count, rfl⟩
    exact ⟨fun t ht => absurd ht EventSystem.not_since_nil, fun t ht => by simp [Queues.new] at ht,
      fun t ht => absurd ht not_from_none⟩
  · rintro tr s ⟨t, e⟩ s' htidy hI hok hn
    exact ⟨hI.linked_next htidy hok hn, hI.pushed_next htidy hok hn, hI.waits_next htidy hok hn⟩

/-! ### Who is taken off the queue is unparked -/

/-- The thread that a pop has found at the head of a queue, and still has to take off it. -/
def Op.Pops (t : Thread) : Op Thread Place → Prop
  | .popNext _ head | .popClear _ head _ | .popStore _ head _ => head = t
  | _ => False

/-- A thread goes on to unpark another. -/
def State.Owes (s : State Thread) (u t : Thread) : Prop :=
  From s.queues.next (s.queues.op u).list t ∨ (s.queues.op u).Wakes t ∨ (s.queues.op u).Pops t

/-- A thread unparks another. -/
def Unparks (u t : Thread) (s : State Thread) (e : Thread × Event) : Prop :=
  e = (u, .go) ∧ ((∃ q next, s.queues.op u = .wakeUnpark q t next) ∨
    ∃ q, s.queues.op u = .popUnpark q t)

theorem State.owes_next (htidy : s.queues.Tidy) (hsafe : s.LinksSafely (t, e))
    (hn : s.next (t, e) = some s') (hx : s.Owes u x) : s'.Owes u x ∨ Unparks u x s (t, e) := by
  obtain ⟨hlocked, home, hplaced⟩ := htidy
  by_cases hu : u = t
  · subst hu
    cases State.step_of_next hn with
    | queue hbusy hact =>
      obtain hlist | hx := hx
      · obtain hlist | ⟨-, -, q, hop⟩ := hplaced.list_next (a := .go) hlocked hsafe hact hlist
        · exact .inl (.inl hlist)
        · have hgoes := Queues.goes_of_go hact
          rw [hop] at hgoes
          cases hgoes
          exact .inl (.inr (.inl (by dsimp only; rw [goTo_op]; rfl)))
      · have hgoes := Queues.goes_of_go hact
        rw [Unparks]
        rw [Owes]
        dsimp only
        generalize s.queues.op u = o at hgoes hx
        cases hgoes with
        | wakeLast | wakeUnpark =>
          obtain rfl : _ = x := hx.resolve_right id
          exact .inr ⟨rfl, .inl ⟨_, _, rfl⟩⟩
        | popUnpark =>
          obtain rfl : _ = x := hx.resolve_right id
          exact .inr ⟨rfl, .inr ⟨_, rfl⟩⟩
        | popNext | popClear =>
          rw [goTo_op]
          exact .inl (.inr hx)
        | popStore =>
          rw [goTo_op]
          exact .inl (.inr (.inl (congrArg some (hx.resolve_left id))))
        | popUnlock =>
          rw [goTo_op]
          exact .inl (.inr (.inl (Option.some.inj (hx.resolve_right id))))
        | popNobody => simp [Op.Wakes, Op.Pops] at hx
        | _ => exact (hx.elim id id).elim
    | does hidle | calls hidle =>
      rw [Owes, hidle] at hx
      exact (hx.elim not_from_none fun h => h.elim id id).elim
  · refine .inl ?_
    rw [Owes, State.op_of_ne hn hu]
    refine hx.imp_left fun hlist => ?_
    have hkeep : ∀ {a}, s.queues.act (t, a) = some s'.queues → From s'.queues.next (s'.queues.op u).list x :=
      fun hact => (hplaced.list_next hlocked hsafe.act hact hlist).resolve_right fun h => hu h.1.symm
    rw [← State.op_of_ne hn hu]
    cases State.step_of_next hn with
    | queue _ hact => exact hkeep hact
    | does => exact hlist
    | calls _ _ hact => exact hkeep hact

/-! ### The main result -/

/-- What signals and broadcasts of a condition variable are for. They find the queue in one step,
and have done what they do when the thread is in no operation on a queue any more. -/
structure CondWakes (c : ℕ) (tr : List (State Thread × (Thread × Event))) (s : State Thread) :
    Prop where
  /-- A signal unparks one that waits, if there is one. -/
  signal : ∀ before s₀ after u, tr = before ++ (s₀, (u, .go)) :: after →
    s₀.queues.op u = .popLoad (.cond c) → s.queues.op u = .idle → (∃ t, Waiting before c t) →
    ∃ t, Waiting before c t ∧ EventSystem.Once after (Unparks u t)
  /-- A broadcast unparks all that wait. -/
  broadcast : ∀ before s₀ after u, tr = before ++ (s₀, (u, .go)) :: after →
    s₀.queues.op u = .takeSwap (.cond c) → s.queues.op u = .idle → ∀ t, Waiting before c t →
    EventSystem.Once after (Unparks u t)

/-- **Condition variables.** In every run that meets the condition, a signal unparks a thread that
waits, if there is one, and a broadcast unparks all of them. -/
theorem cond_wakes (Thread : Type) [DecidableEq Thread] (c : ℕ)
    (tr : List (State Thread × (Thread × Event))) (s : State Thread)
    (h : (threadSystem Thread).Trace (fun s e => s.WaitsSafely c e) tr s) : CondWakes c tr s := by
  have htidy : ∀ {tr s}, (threadSystem Thread).Trace (fun s e => s.WaitsSafely c e) tr s →
      s.queues.Tidy := fun ht => tidy_of_run (fun _ ⟨_, _⟩ hok => hok.1) ht.reach
  have hdone : ∀ {before after s₀ u t}, tr = before ++ (s₀, (u, .go)) :: after →
      s.queues.op u = .idle →
      (∀ s', (threadSystem Thread).Trace (fun s e => s.WaitsSafely c e) before s₀ →
        s₀.WaitsSafely c (u, .go) → s₀.next (u, .go) = some s' → s'.Owes u t) →
      EventSystem.Once after (Unparks u t) := by
    intro before after s₀ u t htr hidle howes
    refine (EventSystem.Trace.holds_until (P := fun s : State Thread => s.Owes u t) (D := Unparks u t) ?_ h htr
      howes).resolve_left fun hx => ?_
    · exact fun tr s ⟨_, _⟩ s' ht hok hn hx => State.owes_next (htidy ht) hok.1 hn hx
    · rw [State.Owes, hidle] at hx
      exact hx.elim not_from_none fun h => h.elim id id
  refine ⟨fun before s₀ after u htr hop hidle ⟨x, hx⟩ => ?_,
    fun before s₀ after u htr hop hidle t ht => hdone htr hidle fun s' ht₀ hok hn => ?_⟩
  · have ht₀ := (htr ▸ h).of_append
    have hwaits := queueWaits_of_trace ht₀
    obtain ⟨hlocked, -⟩ := htidy ht₀
    -- who waits is on the queue, so the queue has a head
    cases hhead : s₀.queues.head (.cond c) with
    | none =>
      have hlinked := hwaits.linked x hx
      rw [Queues.Linked, hhead] at hlinked
      exact absurd hlinked not_from_none
    | some t =>
      have hlinked : s₀.queues.Linked (.cond c) t := by
        rw [Queues.Linked, hhead]
        exact .here
      -- nobody else has the lock of the queue, so the head waits
      have ht : Waiting before c t := by
        refine (hwaits.waits t hlinked).resolve_right fun hpush => ?_
        obtain rfl := (hlocked (.cond c)).unique (t := t) (u := u) (by rw [hpush]; rfl) (by rw [hop]; rfl)
        rw [hop] at hpush
        simp at hpush
      refine ⟨t, ht, hdone htr hidle fun s' _ hok hn => ?_⟩
      cases State.step_of_next hn with
      | queue _ hact =>
        have hgoes := Queues.goes_of_go hact
        rw [hop] at hgoes
        cases hgoes with
        | popNone hnone =>
          rw [hnone] at hhead
          simp at hhead
        | popLoad hsome =>
          obtain rfl := Option.some.inj (hhead.symm.trans hsome)
          exact .inr (.inr (by dsimp only; rw [goTo_op]; rfl))
      | does hidle | calls hidle =>
        rw [hop] at hidle
        simp at hidle
  · obtain ⟨hlocked, home, hplaced⟩ := htidy ht₀
    cases State.step_of_next hn with
    | queue _ hact =>
      obtain hstay | ⟨-, ⟨next, hop'⟩ | ⟨-, hlist⟩⟩ :=
        hplaced.linked_next (a := .go) hlocked hok.1 hact ((queueWaits_of_trace ht₀).linked t ht)
      · -- the queue is empty now
        have hgoes := Queues.goes_of_go hact
        rw [hop] at hgoes
        cases hgoes with
        | takeNone | takeSwap =>
          simp only [Queues.Linked, Queues.goTo, Queues.setHead, Function.update_self] at hstay
          exact absurd hstay not_from_none
      · rw [hop] at hop'
        simp at hop'
      · exact .inl hlist
    | does hidle | calls hidle =>
      rw [hop] at hidle
      simp at hidle

/-! ### Few threads -/

/-- A thread that links itself is the only one at work on a queue and finds its flag clear, and the
queue of condition variable 0 is empty when a wait ends. -/
def waitsCalmly (s : State (Fin 2)) : Fin 2 × Event → Bool
  | (t, _) => match s.queues.op t, s.pc t with
    | .pushSwap _, _ => decide (s.queues.queued t ≠ 1 ∧ ∀ u, u ≠ t → s.queues.op u = .idle)
    | .idle, .condPark _ _ _ => decide (s.queues.head (.cond 0) = none)
    | _, _ => true

theorem waitsSafely_of_calmly {s : State (Fin 2)} {e : Fin 2 × Event} (h : waitsCalmly s e = true) :
    s.WaitsSafely 0 e := by
  obtain ⟨t, e⟩ := e
  rw [waitsCalmly] at h
  refine ⟨linksSafely_of_alone fun q hop => ?_, fun hop => ?_, fun ⟨_, hidle, m, timed, hpc⟩ => ?_⟩
  · rw [hop] at h
    exact (of_decide_eq_true h).2
  · rw [hop] at h
    exact (of_decide_eq_true h).1
  · rw [hidle, hpc] at h
    rw [Queues.Linked, of_decide_eq_true h]
    exact not_from_none

/-- Thread 0 waits for condition variable 0, and thread 1 signals it. -/
def signalling : List (Fin 2 × Event) :=
  (0, .call (.lock 0 .wait)) :: goes 0 1 ++ (0, .call (.condWait 0 0 false)) :: goes 0 10 ++
    (1, .call (.signal 0)) :: goes 1 7

theorem cond_wakes_signalled : ∃ tr s,
    (threadSystem (Fin 2)).Trace (fun s e => s.WaitsSafely 0 e) tr s ∧ CondWakes 0 tr s ∧
      0 < s.queues.signals 0 := by
  obtain ⟨s, hs, hp⟩ := EventSystem.Trace.exists_of_runIf (M := threadSystem (Fin 2))
    (fun s e => s.WaitsSafely 0 e) (b := waitsCalmly) (fun _ _ => waitsSafely_of_calmly)
    signalling (p := fun s => decide (0 < s.queues.signals 0)) ⟨fun _ => 0, rfl⟩ (by decide +kernel)
  exact ⟨_, s, hs, cond_wakes _ 0 _ s hs, of_decide_eq_true hp⟩

/-- A step that neither ends the wait of a thread nor takes it off a queue. -/
def keeps (t : Fin 3) (s : State (Fin 3)) (e : Fin 3 × Event) : Bool :=
  match s.queues.op e.1, s.pc e.1 with
  | .idle, .condPark _ _ _ => decide (e.1 ≠ t)
  | .popStore _ head _, _ => decide (head ≠ t)
  | .takeSwap _, _ => false
  | _, _ => true

theorem not_ends_of_keeps {s : State (Fin 3)} {t : Fin 3} {e : Fin 3 × Event} {c : ℕ}
    (h : keeps t s e = true) : ¬ (Leaves c t s e ∨ Chosen c t s e) := by
  obtain ⟨u, e⟩ := e
  rw [keeps] at h
  rintro (⟨hut, hidle, m, timed, hpc⟩ | ⟨-, ⟨next, hop⟩ | ⟨hop, -⟩⟩)
  · obtain rfl : u = t := hut
    rw [hidle, hpc] at h
    exact of_decide_eq_true h rfl
  · rw [hop] at h
    exact of_decide_eq_true h rfl
  · rw [hop] at h
    simp at h

/-- Thread 1 waits for a condition variable, and after it thread 0, whose deadline passes: it goes
on, but stays the head of the queue. Then thread 2 signals. -/
def signallingLate : List (Fin 3 × Event) :=
  (1, .call (.lock 1 .wait)) :: goes 1 1 ++ (1, .call (.condWait 0 1 false)) :: goes 1 10 ++
    (0, .call (.lock 0 .wait)) :: goes 0 1 ++ (0, .call (.condWait 0 0 true)) :: goes 0 10 ++
    (0, .expire) :: (2, .call (.signal 0)) :: goes 2 7

/-- The steps of the three. -/
def lateSteps : List (State (Fin 3) × (Fin 3 × Event)) :=
  (threadSystem (Fin 3)).stepsFrom ⟨.new, .new fun _ => 0, fun _ => .out⟩ signallingLate

/-- Thread 2 unparks thread 0, if any. -/
def unparksZero (s : State (Fin 3)) : Bool :=
  match s.queues.op 2 with
  | .popUnpark _ t => decide (t = 0)
  | .wakeUnpark _ _ _ => false
  | _ => true

/-- The signal, in the 30th step, pops thread 0, which does not wait any more; thread 1 does. -/
theorem cond_misses : ¬ ∀ tr s,
    (threadSystem (Fin 3)).Trace (fun _ _ => True) tr s → CondWakes 0 tr s := by
  intro h
  obtain ⟨s, hs, hidle⟩ := EventSystem.Trace.exists_of_runIf (M := threadSystem (Fin 3))
    (fun _ _ => True) (b := fun _ _ => true) (fun _ _ _ => trivial) signallingLate
    (p := fun s => decide (s.queues.op 2 = .idle)) ⟨fun _ => 0, rfl⟩ (by decide +kernel)
  obtain ⟨hlen, hev, hop⟩ : ∃ h : 29 < lateSteps.length, lateSteps[29].2 = (2, .go) ∧
    lateSteps[29].1.queues.op 2 = .popLoad (.cond 0) := by decide +kernel
  have hsplit : lateSteps = lateSteps.take 29 ++ (lateSteps[29].1, 2, .go) :: lateSteps.drop 30 := by
    rw [← hev, Prod.eta, ← List.drop_eq_getElem_cons hlen, List.take_append_drop]
  have hwaits : Waiting (lateSteps.take 29) 0 1 := by
    obtain ⟨hlen, henters⟩ : ∃ h : 8 < (lateSteps.take 29).length,
      (lateSteps.take 29)[8].2 = (1, .go) ∧
        (lateSteps.take 29)[8].1.queues.op 1 = .pushUnlock (.cond 0) := by decide +kernel
    have hkeeps : ∀ y ∈ (lateSteps.take 29).drop 9, keeps 1 y.1 y.2 = true := by decide +kernel
    exact EventSystem.since_of_getElem hlen henters fun y hy => not_ends_of_keeps (hkeeps y hy)
  have hleft : ¬ Waiting (lateSteps.take 29) 0 0 := by
    obtain ⟨hlen, hexpire, hidle, hpc⟩ : ∃ h : 26 < (lateSteps.take 29).length,
      (lateSteps.take 29)[26].2 = (0, .expire) ∧
        (lateSteps.take 29)[26].1.queues.op 0 = .idle ∧
        (lateSteps.take 29)[26].1.pc 0 = .condPark 0 0 true := by decide +kernel
    have hlater : ∀ y ∈ (lateSteps.take 29).drop 27, y.2.1 ≠ 0 := by decide +kernel
    refine EventSystem.not_since_of_getElem hlen (fun henters => ?_) (.inl ?_) fun y hy henters => ?_
    · have := hexpire.symm.trans henters.1
      simp at this
    · exact ⟨by rw [hexpire], hidle, 0, true, hpc⟩
    · exact hlater y hy (by rw [henters.1])
  have hzero : ∀ y ∈ lateSteps.drop 30, unparksZero y.1 = true := by decide +kernel
  obtain ⟨t, ht, y, hy, -, hunparks⟩ :=
    (h _ s hs).signal _ _ _ 2 hsplit hop (of_decide_eq_true hidle) ⟨1, hwaits⟩
  have htest := hzero y hy
  obtain ⟨q, next, hop⟩ | ⟨q, hop⟩ := hunparks
  · rw [unparksZero, hop] at htest
    simp at htest
  · rw [unparksZero, hop] at htest
    obtain rfl : t = 0 := of_decide_eq_true htest
    exact hleft ht

end Threads

end StarOS
