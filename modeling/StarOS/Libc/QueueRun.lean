import StarOS.Libc.Linked

/-!
# Runs of the queues of parked threads

As long as every thread that links itself is on no list that is still walked, the queues are what
they are meant to be: a thread is on one queue at most and once, every list ends, the flag of a
thread says whether it is on a queue, and whoever takes a queue wakes all that were on it.

A thread on a list that was taken has its flag cleared before the list is walked for the second
time, and may be running: it was unparked for another reason, or has not parked yet. If it links
itself then, its link leads the walk into the other queue.

## Main definitions

* `Threads.WellLinked`
* `Threads.Ends` — a thread on its own gets to the end of its operation

## Main results

* `Threads.well_linked`
-/

namespace StarOS

namespace Threads

open Links

variable {Thread Place : Type} [DecidableEq Thread] [DecidableEq Place]
  {s s' : Queues Thread Place} {t u x : Thread} {q : Place} {a : Act Place}
  {tr : List (Queues Thread Place × (Thread × Act Place))}

/-! ### Walks end -/

/-- By itself a thread gets to the end of its operation. -/
def Ends (s : Queues Thread Place) (u : Thread) : Prop :=
  ∃ n, ∃ s', (queueSystem Thread Place).run s (List.replicate n (u, .go)) = some s' ∧
    s'.op u = .idle

theorem Ends.of_go (hgo : s.go u = some s') (h : Ends s' u) : Ends s u := by
  obtain ⟨n, s'', hrun, hidle⟩ := h
  refine ⟨n + 1, s'', ?_, hidle⟩
  rw [List.replicate_succ, EventSystem.run, EventSystem.runIf, if_pos rfl]
  show (s.go u).bind _ = _
  rw [hgo]
  exact hrun

omit [DecidableEq Place] in
theorem goTo_op (s : Queues Thread Place) (u : Thread) (p : Op Thread Place) :
    (s.goTo u p).op u = p := Function.update_self ..

theorem Ends.idle (hidle : s.op u = .idle) : Ends s u := ⟨0, s, rfl, hidle⟩

theorem Ends.wake {thread : Thread} {l : List Thread} (hop : s.op u = .wakeNext q thread)
    (hl : Chain s.next (some thread) l) : Ends s u := by
  induction l generalizing s thread with
  | nil => exact absurd hl (by simp [Chain])
  | cons c l ih =>
    obtain ⟨heq, hl⟩ := hl
    obtain rfl := Option.some.inj heq
    refine .of_go (by rw [Queues.go, hop]) ?_
    cases hnext : s.next thread with
    | none =>
      refine .of_go (by rw [Queues.go, goTo_op]) ?_
      exact .idle (goTo_op ..)
    | some next =>
      refine .of_go (by rw [Queues.go, goTo_op]) ?_
      rw [hnext] at hl
      exact ih (goTo_op ..) hl

theorem Ends.unlock {head : Thread} {l : List Thread} (hop : s.op u = .takeUnlock q (some head))
    (hl : Chain s.next (some head) l) : Ends s u := by
  refine .of_go (by rw [Queues.go, hop]) ?_
  exact .wake (goTo_op ..) hl

theorem go_takeNext {head thread : Thread} (hop : s.op u = .takeNext q head thread) :
    s.go u = some (match s.next thread with
      | none => s.goTo u (.takeUnlock q (some head))
      | some next => s.goTo u (.takeClear q head next)) := by
  rw [Queues.go, hop]
  dsimp only
  cases s.next thread <;> rfl

theorem Ends.take {head thread : Thread} {l r : List Thread}
    (hop : s.op u = .takeClear q head thread) (hl : Chain s.next (some head) l)
    (hr : Chain s.next (some thread) r) : Ends s u := by
  induction r generalizing s thread with
  | nil => exact absurd hr (by simp [Chain])
  | cons c r ih =>
    obtain ⟨heq, hr⟩ := hr
    obtain rfl := Option.some.inj heq
    refine .of_go (by rw [Queues.go, hop]) (.of_go (go_takeNext (goTo_op ..)) ?_)
    show Ends (match s.next thread with | none => _ | some _ => _) u
    cases hnext : s.next thread with
    | none => exact .unlock (goTo_op ..) hl
    | some next =>
      rw [hnext] at hr
      exact ih (goTo_op ..) hl hr

/-- The places where a thread walks a list that it has taken. -/
def Op.Walking : Op Thread Place → Prop
  | .takeClear _ _ _ | .takeNext _ _ _ | .takeUnlock _ (some _) | .wakeNext _ _
  | .wakeUnpark _ _ _ => True
  | _ => False

variable {home : Thread → Home Thread Place}

theorem Placed.ends (h : Placed s home) (hop : (s.op u).Walking) : Ends s u := by
  obtain ⟨l, hl, -⟩ := (h.walks u).list
  obtain ⟨r, hr, -⟩ := (h.walks u).rest
  cases ho : s.op u with
  | takeClear q head thread =>
    rw [ho] at hl hr
    exact .take ho hl hr
  | takeNext q head thread =>
    rw [ho] at hl hr
    refine .of_go (go_takeNext ho) ?_
    cases hnext : s.next thread with
    | none => exact .unlock (goTo_op ..) hl
    | some next =>
      rw [Queues.rest, hnext] at hr
      exact .take (goTo_op ..) hl hr
  | takeUnlock q head =>
    cases head with
    | none =>
      rw [ho] at hop
      exact hop.elim
    | some head =>
      rw [ho] at hl
      exact .unlock ho hl
  | wakeNext q thread =>
    rw [ho] at hl
    exact .wake ho hl
  | wakeUnpark q thread next =>
    cases next with
    | none => exact .of_go (by rw [Queues.go, ho]) (.idle (goTo_op ..))
    | some next =>
      have hgo : s.go u = some ((s.unpark thread).goTo u (.wakeNext q next)) := by
        rw [Queues.go, ho]
      rw [ho] at hl
      exact .of_go hgo (.wake (goTo_op ..) hl)
  | _ =>
    rw [ho] at hop
    exact hop.elim

/-! ### Everybody is woken -/

/-- `u` has unparked `t` in one of the steps. -/
def Unparked (u t : Thread) (steps : List (Queues Thread Place × (Thread × Act Place))) : Prop :=
  ∃ x ∈ steps, x.2 = (u, .go) ∧ ∃ q next, x.1.op u = .wakeUnpark q t next

/-- A thread that was on a queue when `u` took it: it is still on the list, or about to be unparked,
or it has been. -/
def Owed (s : Queues Thread Place) (u t : Thread)
    (steps : List (Queues Thread Place × (Thread × Act Place))) : Prop :=
  From s.next (s.op u).list t ∨ (∃ q next, s.op u = .wakeUnpark q t next) ∨ Unparked u t steps

/-- None of the steps is one in which `u` takes a queue. -/
def NotTaken (u : Thread) (steps : List (Queues Thread Place × (Thread × Act Place))) : Prop :=
  ∀ x ∈ steps, x.2 = (u, .go) → ∀ q, x.1.op u ≠ .takeSwap q

theorem Owed.next {steps : List (Queues Thread Place × (Thread × Act Place))} (h : Placed s home)
    (hlocked : s.Locked) (hsafe : s.LinksSafely (t, a)) (hn : s.act (t, a) = some s')
    (hx : Owed s u x steps) : Owed s' u x (steps ++ [(s, (t, a))]) := by
  obtain hlist | ⟨q, next, hop⟩ | ⟨y, hy, hdone⟩ := hx
  · obtain hlist | ⟨rfl, rfl, q, hop⟩ := h.list_next hlocked hsafe hn hlist
    · exact .inl hlist
    · have hgoes := Queues.goes_of_go hn
      rw [hop] at hgoes
      cases hgoes
      exact .inr (.inl ⟨q, _, goTo_op ..⟩)
  · by_cases hu : u = t
    · subst hu
      obtain rfl : a = .go := by
        by_contra hne
        have := Queues.idle_of_act hn hne
        rw [hop] at this
        simp at this
      exact .inr (.inr ⟨_, List.mem_append_right _ (List.mem_singleton_self _), rfl, q, next, hop⟩)
    · exact .inr (.inl ⟨q, next, by rw [Queues.op_of_ne hn hu, hop]⟩)
  · exact .inr (.inr ⟨y, List.mem_append_left _ hy, hdone⟩)

/-! ### The main result -/

/-- What the queues are meant to be, after the steps of `tr`. -/
structure WellLinked (tr : List (Queues Thread Place × (Thread × Act Place)))
    (s : Queues Thread Place) : Prop where
  /-- No thread is on two queues. -/
  one : ∀ q q' t, s.Linked q t → s.Linked q' t → q = q'
  /-- Every queue ends, and no thread is on it twice. -/
  ends : ∀ q, ∃ l, Chain s.next (s.head q) l ∧ l.Nodup
  /-- Between operations the flag of a thread says whether it is on a queue. -/
  flag : (∀ u, s.op u = .idle) → ∀ t, s.queued t = 1 ↔ ∃ q, s.Linked q t
  /-- Every list that is walked ends, and so does the walk. -/
  walks : ∀ u, (s.op u).Walking → (∃ l, Chain s.next (s.op u).list l ∧ l.Nodup) ∧ Ends s u
  /-- Once the walk of a list that was taken is over, all that were on the queue have been
  unparked. -/
  woken : ∀ before s₀ after u q, tr = before ++ (s₀, (u, .go)) :: after → s₀.op u = .takeSwap q →
    NotTaken u after → s.op u = .idle → ∀ t, s₀.Linked q t → Unparked u t after

/-- The queues are locked and every thread has one place. -/
def Queues.Tidy (s : Queues Thread Place) : Prop := s.Locked ∧ ∃ home, Placed s home

theorem Queues.Tidy.next (h : s.Tidy) (hsafe : s.LinksSafely (t, a)) (hn : s.act (t, a) = some s') :
    s'.Tidy := by
  obtain ⟨hlocked, home, hplaced⟩ := h
  exact ⟨hlocked.next hn, _, hplaced.next hlocked hsafe hn⟩

omit [DecidableEq Thread] [DecidableEq Place] in
theorem tidy_new : (Queues.new : Queues Thread Place).Tidy :=
  ⟨fun _ => .empty (fun h => h rfl) fun _ => id, _, placed_new⟩

theorem tidy_of_reach (h : (queueSystem Thread Place).Reach Queues.LinksSafely s) : s.Tidy := by
  refine h.invariant ?_ fun _ _ _ hI hok hn => hI.next hok hn
  rintro _ rfl
  exact tidy_new

/-- What a thread owes those that were on a queue when it took it. -/
theorem owed_of_trace (h : (queueSystem Thread Place).Trace Queues.LinksSafely tr s) :
    ∀ before s₀ after u q, tr = before ++ (s₀, (u, .go)) :: after → s₀.op u = .takeSwap q →
      NotTaken u after → ∀ t, s₀.Linked q t → Owed s u t after := by
  induction h with
  | init => exact fun before s₀ after u q h => absurd h (by simp)
  | @step tr s₁ s₂ e ht hok hn ih =>
    intro before s₀ after u q htr hop hnot t hlinked
    obtain ⟨hlocked, home, hplaced⟩ := tidy_of_reach ht.reach
    obtain ⟨v, a⟩ := e
    rcases List.eq_nil_or_concat after with rfl | ⟨after, last, rfl⟩
    · -- the queue was taken in the last step
      obtain ⟨-, heq⟩ := List.append_inj' htr rfl
      obtain ⟨rfl, hev⟩ := Prod.mk.inj (List.singleton_inj.mp heq)
      obtain ⟨rfl, rfl⟩ := Prod.mk.inj hev
      obtain hstay | ⟨-, ⟨next, hstore⟩ | ⟨-, hlist⟩⟩ := hplaced.linked_next hlocked hok hn hlinked
      · -- the queue is empty now
        have hgoes := Queues.goes_of_go hn
        rw [hop] at hgoes
        cases hgoes with
        | takeNone | takeSwap =>
          simp only [Queues.Linked, Queues.goTo, Queues.setHead, Function.update_self] at hstay
          exact absurd hstay not_from_none
      · rw [hop] at hstore
        simp at hstore
      · exact .inl hlist
    · rw [List.concat_eq_append] at htr hnot ⊢
      rw [← List.cons_append, ← List.append_assoc] at htr
      obtain ⟨htr', heq⟩ := List.append_inj' htr rfl
      obtain rfl := List.singleton_inj.mp heq
      have := ih before s₀ after u q htr' hop (fun x hx => hnot x (List.mem_append_left _ hx)) t hlinked
      exact this.next hplaced hlocked hok hn

/-- **The queues are well linked** in every run in which each thread that links itself is on no list
that is still walked. -/
theorem well_linked (Thread Place : Type) [DecidableEq Thread] [DecidableEq Place]
    (tr : List (Queues Thread Place × (Thread × Act Place))) (s : Queues Thread Place)
    (h : (queueSystem Thread Place).Trace Queues.LinksSafely tr s) : WellLinked tr s := by
  obtain ⟨hlocked, home, hplaced⟩ := tidy_of_reach h.reach
  refine ⟨fun q q' t hq hq' => ?_, fun q => ?_, fun hidle t => ?_, fun u hu => ⟨?_, hplaced.ends hu⟩,
    fun before s₀ after u q htr hop hnot hidle t hlinked => ?_⟩
  · rcases hplaced.linked_iff.mp hq with hq | hq <;>
      rcases hplaced.linked_iff.mp hq' with hq' | hq' <;> rw [hq] at hq' <;> cases hq' <;> rfl
  · obtain ⟨l, hl, -⟩ := hplaced.queue q
    exact ⟨l, hl, hl.nodup⟩
  · rw [hplaced.flag t, hidle t]
    constructor
    · rintro (hpush | ⟨q, hq⟩ | ⟨u, hu⟩)
      · exact hpush.elim
      · exact ⟨q, hplaced.linked_iff.mpr (.inl hq)⟩
      · have := hplaced.list_iff.mpr (.inl hu)
        rw [hidle u] at this
        exact absurd this not_from_none
    · rintro ⟨q, hq⟩
      refine .inr (.inl ⟨q, (hplaced.linked_iff.mp hq).resolve_right fun hleave => ?_⟩)
      obtain ⟨u, next, hu⟩ := hplaced.leaving t q hleave
      rw [hidle u] at hu
      simp at hu
  · obtain ⟨l, hl, -⟩ := (hplaced.walks u).list
    exact ⟨l, hl, hl.nodup⟩
  · obtain hlist | ⟨q', next, hop'⟩ | hdone := owed_of_trace h before s₀ after u q htr hop hnot t hlinked
    · rw [hidle] at hlist
      exact absurd hlist not_from_none
    · rw [hidle] at hop'
      simp at hop'
    · exact hdone

/-! ### A thread that links itself on a list that is walked -/

/-- One thread pushes itself. -/
def pushes {Place : Type} (t : ℕ) (q : Place) : List (ℕ × Act Place) :=
  (t, .push q) :: List.replicate 6 (t, .go)

/-- Thread 0 waits on queue 0 and thread 2 on queue 1. Thread 1 takes queue 0, and when it has
cleared the flag of thread 0 that one goes over to queue 1. The walk follows, clears the flag of
thread 2, and thread 2 pushes itself once more, on queue 0. -/
def straying : List (ℕ × Act ℕ) :=
  pushes 0 0 ++ pushes 2 1 ++ (1, .take 0) :: List.replicate 3 (1, .go) ++ pushes 0 1 ++
    List.replicate 4 (1, .go) ++ pushes 2 0

theorem linked_twice : ¬ ∀ tr s, (queueSystem ℕ ℕ).Trace (fun _ _ => True) tr s → WellLinked tr s := by
  intro h
  obtain ⟨s, hs, hp⟩ : ∃ s, (queueSystem ℕ ℕ).Reachable s ∧
      decide (s.head 0 = some 2 ∧ s.head 1 = some 0 ∧ s.next 0 = some 2) = true :=
    EventSystem.Reachable.exists_of_run straying rfl (by decide +kernel)
  obtain ⟨h0, h1, h2⟩ := of_decide_eq_true hp
  obtain ⟨tr, htr⟩ := hs.trace
  refine absurd ((h tr s htr).one 0 1 2 ?_ ?_) (by decide)
  · rw [Queues.Linked, h0]
    exact .here
  · rw [Queues.Linked, h1]
    exact .there (by rw [h2]; exact .here)

/-- Nobody walks a list while a thread links itself. -/
def calm (s : Queues (Fin 2) ℕ) : Fin 2 × Act ℕ → Bool
  | (t, _) => match s.op t with
    | .pushSwap _ => decide (∀ u, s.op u = .idle ∨ s.op u = s.op t)
    | _ => true

theorem linksSafely_of_calm {s : Queues (Fin 2) ℕ} {e : Fin 2 × Act ℕ} (h : calm s e = true) :
    s.LinksSafely e := by
  obtain ⟨t, a⟩ := e
  cases a with
  | go =>
    intro q hop _
    rw [calm, hop] at h
    have hall := of_decide_eq_true h
    rintro (⟨u, hu⟩ | ⟨u, q', next, hu⟩)
    · rcases hall u with hidle | hidle <;> rw [hidle] at hu <;> exact not_from_none hu
    · rcases hall u with hidle | hidle <;> rw [hu] at hidle <;> simp at hidle
  | _ => trivial

theorem well_linked_take : ∃ tr s, (queueSystem (Fin 2) ℕ).Trace Queues.LinksSafely tr s ∧
    s.op 1 = .wakeUnpark 0 0 none ∧ WellLinked tr s := by
  -- thread 0 waits, and thread 1 takes the queue
  obtain ⟨s, hs, hp⟩ : ∃ s, (queueSystem (Fin 2) ℕ).Reach Queues.LinksSafely s ∧
      decide (s.op 1 = .wakeUnpark 0 0 none) = true :=
    EventSystem.Reach.exists_of_runIf (b := calm) (fun _ _ => linksSafely_of_calm)
      ((0, .push 0) :: List.replicate 6 (0, .go) ++ (1, .take 0) :: List.replicate 6 (1, .go)) rfl
      (by decide +kernel)
  obtain ⟨tr, htr⟩ := hs.trace
  exact ⟨tr, s, htr, of_decide_eq_true hp, well_linked _ _ tr s htr⟩

end Threads

end StarOS
