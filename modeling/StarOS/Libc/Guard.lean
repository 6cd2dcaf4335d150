import StarOS.Lib.Exclusion
import StarOS.Lib.Trace

/-!
# Guards of function-local statics

A static of a function is constructed by the first thread that comes to it. Its guard has two bytes:
the first says that it is constructed, the second that a thread is at it. A thread that wins the
second byte looks at the first once more, since another may have finished in between.

Each load, store and exchange of `__cxa_guard_acquire`, `__cxa_guard_release` and
`__cxa_guard_abort` is a step of its own here, and any thread may take the next one.

## Main definitions

* `Guard.Pc`, `Guard.step` — where a thread is, and what it does next
* `Guard.guardSystem`

## Main results

* `Guard.constructed_once`
-/

namespace StarOS

namespace Guard

/-- The two bytes of a guard. -/
structure Bytes where
  /-- Already constructed. -/
  done : BitVec 8
  /-- Construction in progress. -/
  busy : BitVec 8

/-- Where a thread is. -/
inductive Pc
  /-- In none of the three functions, and without the construction. -/
  | out
  /-- Acquiring: about to look whether it is constructed. -/
  | look
  /-- About to exchange the second byte. -/
  | claim
  /-- It was taken: about to look whether somebody else has finished. -/
  | relook
  /-- About to yield. -/
  | yield
  /-- It was free: about to look once more. -/
  | confirm
  /-- Somebody else has finished: about to give the second byte back. -/
  | unclaim
  /-- `__cxa_guard_acquire` has returned 1. -/
  | building
  /-- Releasing: about to say that it is constructed. -/
  | publish
  /-- About to give the second byte back. -/
  | finish
  /-- Aborting: about to give the second byte back. -/
  | cancel
  deriving DecidableEq

/-- What a thread inside one of the functions does next: what it leaves in the guard, where it goes,
and what `__cxa_guard_acquire` returns, if that is what it does. -/
def step (guard : Bytes) : Pc → Option (Bytes × Pc × Option ℕ)
  | .out | .building => none
  | .look => if guard.done ≠ 0 then some (guard, .out, some 0) else some (guard, .claim, none)
  | .claim =>
    if guard.busy = 0 then some ({ guard with busy := 1 }, .confirm, none)
    else some (guard, .relook, none)
  | .relook => if guard.done ≠ 0 then some (guard, .out, some 0) else some (guard, .yield, none)
  | .yield => some (guard, .claim, none)
  | .confirm =>
    if guard.done ≠ 0 then some (guard, .unclaim, none) else some (guard, .building, some 1)
  | .unclaim => some ({ guard with busy := 0 }, .out, some 0)
  | .publish => some ({ guard with done := 1 }, .finish, none)
  | .finish => some ({ guard with busy := 0 }, .out, none)
  | .cancel => some ({ guard with busy := 0 }, .out, none)

/-- What a thread may do: call one of the functions, or go on in the one it is in. -/
inductive Act
  | acquire
  | release
  | abort
  | go
  deriving DecidableEq

variable {Thread : Type} [DecidableEq Thread]

/-- A guard and the threads that use it. -/
structure State (Thread : Type) where
  guard : Bytes
  pc : Thread → Pc

/-- A thread goes to another place. -/
def State.move (s : State Thread) (t : Thread) (guard : Bytes) (p : Pc) : State Thread where
  guard := guard
  pc := Function.update s.pc t p

/-- What a thread does that calls a function or goes on in one. Only a thread that has the
construction releases it or aborts. -/
def act (guard : Bytes) : Pc → Act → Option (Bytes × Pc × Option ℕ)
  | .out, .acquire => some (guard, .look, none)
  | .building, .release => some (guard, .publish, none)
  | .building, .abort => some (guard, .cancel, none)
  | p, .go => step guard p
  | _, _ => none

/-- One step of one thread. -/
def State.next (s : State Thread) : Thread × Act → Option (State Thread)
  | (t, a) => (act s.guard (s.pc t) a).map fun (guard, p, _) => s.move t guard p

/-- What `__cxa_guard_acquire` returns in a step, if it returns in it. -/
def State.returned (s : State Thread) : Thread × Act → Option ℕ
  | (t, a) => (act s.guard (s.pc t) a).bind fun (_, _, value) => value

/-- Any number of threads and one guard, which is all zeros to begin with. -/
def guardSystem (Thread : Type) [DecidableEq Thread] : EventSystem (State Thread) (Thread × Act) where
  init s := s = ⟨⟨0, 0⟩, fun _ => .out⟩
  next := State.next

/-! ### What one step can do -/

/-- The places of a thread that has won the second byte and not given it back. -/
def Pc.Owns : Pc → Prop
  | .confirm | .unclaim | .building | .publish | .finish | .cancel => True
  | .out | .look | .claim | .relook | .yield => False

/-- The places between a successful acquire and the end of its release or abort. -/
def Pc.Inside : Pc → Prop
  | .building | .publish | .finish | .cancel => True
  | .out | .look | .claim | .relook | .yield | .confirm | .unclaim => False

theorem Pc.Inside.owns {p : Pc} (h : p.Inside) : p.Owns := by
  cases p <;> trivial

/-- **What a thread does**, step by step: the places it goes from and to, the bytes it leaves and
what is returned. -/
inductive Acts (guard : Bytes) : Pc → Act → Bytes → Pc → Option ℕ → Prop
  | acquire : Acts guard .out .acquire guard .look none
  | looked : guard.done ≠ 0 → Acts guard .look .go guard .out (some 0)
  | notYet : guard.done = 0 → Acts guard .look .go guard .claim none
  | claimed : guard.busy = 0 → Acts guard .claim .go { guard with busy := 1 } .confirm none
  | taken : guard.busy ≠ 0 → Acts guard .claim .go guard .relook none
  | relooked : guard.done ≠ 0 → Acts guard .relook .go guard .out (some 0)
  | waits : guard.done = 0 → Acts guard .relook .go guard .yield none
  | yielded : Acts guard .yield .go guard .claim none
  | tooLate : guard.done ≠ 0 → Acts guard .confirm .go guard .unclaim none
  | confirmed : guard.done = 0 → Acts guard .confirm .go guard .building (some 1)
  | unclaimed : Acts guard .unclaim .go { guard with busy := 0 } .out (some 0)
  | release : Acts guard .building .release guard .publish none
  | published : Acts guard .publish .go { guard with done := 1 } .finish none
  | finished : Acts guard .finish .go { guard with busy := 0 } .out none
  | abort : Acts guard .building .abort guard .cancel none
  | cancelled : Acts guard .cancel .go { guard with busy := 0 } .out none

section Act

variable {guard guard' : Bytes} {p q : Pc} {a : Act} {value : Option ℕ}

theorem Acts.of_act {x : Bytes × Pc × Option ℕ} (h : act guard q a = some x) :
    Acts guard q a x.1 x.2.1 x.2.2 := by
  cases q <;> cases a <;> simp only [act, step, reduceCtorEq] at h <;> try (split at h)
  all_goals
    obtain rfl := Option.some.inj h
    constructor
  all_goals first | assumption | exact not_not.mp ‹_›

/-- The second byte is taken by a thread that then owns it, given back by one that did, and left
alone by all others. -/
theorem Acts.busy (h : Acts guard q a guard' p value) :
    ((p.Owns ↔ q.Owns) ∧ guard'.busy = guard.busy) ∨
      (guard.busy = 0 ∧ p.Owns ∧ guard'.busy ≠ 0) ∨ (q.Owns ∧ ¬ p.Owns ∧ guard'.busy = 0) := by
  cases h <;> simp_all [Pc.Owns]

/-- The first byte is set by a release and never cleared. -/
theorem Acts.done (h : Acts guard q a guard' p value) :
    guard'.done ≠ 0 ↔ guard.done ≠ 0 ∨ q = .publish := by
  cases h <;> simp

theorem Acts.publish (h : Acts guard q a guard' p value) : p = .publish ↔ a = .release := by
  cases h <;> simp

theorem Acts.building_of_release (h : Acts guard q .release guard' p value) : q = .building := by
  cases h
  rfl

theorem Acts.returned_zero (h : Acts guard q a guard' p (some 0)) :
    guard.done ≠ 0 ∨ q = .unclaim := by
  cases h with
  | looked h => exact .inl h
  | relooked h => exact .inl h
  | unclaimed => exact .inr rfl

/-- A thread comes to have the construction, or to an abort, from a place where it owned. -/
theorem Acts.fresh (h : Acts guard q a guard' p value) (hp : p = .building ∨ p = .cancel) :
    q = .confirm ∧ guard.done = 0 ∨ q = .building := by
  cases h with
  | confirmed h => exact .inl ⟨rfl, h⟩
  | abort => exact .inr rfl
  | _ => simp at hp

theorem Acts.unclaim (h : Acts guard q a guard' .unclaim value) : guard.done ≠ 0 := by
  cases h
  assumption

end Act

theorem State.acts_of_next {s s' : State Thread} {t : Thread} {a : Act}
    (h : s.next (t, a) = some s') : ∃ guard p value, Acts s.guard (s.pc t) a guard p value ∧
      s.returned (t, a) = value ∧ s' = s.move t guard p := by
  obtain ⟨⟨guard, p, value⟩, hact, rfl⟩ := Option.map_eq_some_iff.mp h
  exact ⟨guard, p, value, .of_act hact, by rw [returned, hact]; rfl, rfl⟩

variable {s s' : State Thread} {t u : Thread} {a : Act} {tr : List (State Thread × (Thread × Act))}

@[simp] theorem State.move_guard (guard : Bytes) (p : Pc) : (s.move t guard p).guard = guard := rfl

theorem State.move_pc_self (guard : Bytes) (p : Pc) : (s.move t guard p).pc t = p :=
  Function.update_self ..

theorem State.move_pc_of_ne (guard : Bytes) (p : Pc) (h : u ≠ t) :
    (s.move t guard p).pc u = s.pc u :=
  Function.update_of_ne h ..

/-! ### One at a time -/

/-- The second byte excludes. -/
def State.Exclusive (s : State Thread) : Prop := Excludes (s.guard.busy ≠ 0) Pc.Owns s.pc

theorem State.Exclusive.next (h : s.Exclusive) (hn : s.next (t, a) = some s') : s'.Exclusive := by
  obtain ⟨guard, p, value, hacts, -, rfl⟩ := acts_of_next hn
  obtain ⟨hside, hbusy⟩ | ⟨hfree, hp, htaken⟩ | ⟨hq, hp, hfree⟩ := hacts.busy
  · exact h.stay hside (by rw [move_guard, hbusy])
  · exact h.enter (not_not.mpr hfree) hp htaken
  · exact h.leave hq hp (not_not.mpr hfree)

/-! ### One release -/

/-- How often a release was called. -/
def releases (tr : List (State Thread × (Thread × Act))) : ℕ :=
  tr.countP fun x => x.2.2 = .release

/-- It is constructed, or about to be said to be. -/
def State.Announced (s : State Thread) : Prop := s.guard.done ≠ 0 ∨ ∃ t, s.pc t = .publish

theorem State.announced_next (hn : s.next (t, a) = some s') :
    s'.Announced ↔ s.Announced ∨ a = .release := by
  obtain ⟨guard, p, value, hacts, -, rfl⟩ := acts_of_next hn
  constructor
  · rintro (hdone | ⟨u, hu⟩)
    · exact .inl ((hacts.done.mp hdone).imp_right fun h => ⟨t, h⟩)
    · by_cases hut : u = t
      · subst hut
        rw [move_pc_self] at hu
        exact .inr (hacts.publish.mp hu)
      · rw [move_pc_of_ne _ _ hut] at hu
        exact .inl (.inr ⟨u, hu⟩)
  · rintro ((hdone | ⟨u, hu⟩) | hrel)
    · exact .inl (hacts.done.mpr (.inl hdone))
    · by_cases hut : u = t
      · subst hut
        exact .inl (hacts.done.mpr (.inr hu))
      · exact .inr ⟨u, by rw [move_pc_of_ne _ _ hut, hu]⟩
    · exact .inr ⟨t, by rw [move_pc_self]; exact hacts.publish.mpr hrel⟩

/-- What holds of a guard after the steps of `tr`. -/
structure Settled (tr : List (State Thread × (Thread × Act))) (s : State Thread) : Prop where
  exclusive : s.Exclusive
  /-- It is constructed once it has been released, and that once. -/
  released : releases tr = 1 ∧ s.Announced ∨ releases tr = 0 ∧ ¬ s.Announced
  /-- Whoever has the construction is the first to. -/
  fresh : ∀ t, s.pc t = .building ∨ s.pc t = .cancel → ¬ s.Announced
  /-- Whoever came too late gives up because it is constructed. -/
  late : ∀ t, s.pc t = .unclaim → s.guard.done ≠ 0

theorem Settled.next (h : Settled tr s) (hn : s.next (t, a) = some s') :
    Settled (tr ++ [(s, (t, a))]) s' := by
  have hann := State.announced_next hn
  obtain ⟨guard, p, value, hacts, -, rfl⟩ := State.acts_of_next hn
  constructor
  · exact h.exclusive.next hn
  · rw [releases, List.countP_append, List.countP_singleton, hann]
    by_cases hrel : a = .release
    · subst hrel
      have hno := h.fresh t (.inl hacts.building_of_release)
      obtain ⟨hcount, -⟩ := h.released.resolve_left fun hyes => hno hyes.2
      rw [releases] at hcount
      simp [hcount]
    · simpa [hrel, releases] using h.released
  · intro u hu hyes
    rw [hann] at hyes
    by_cases hut : u = t
    · subst hut
      rw [State.move_pc_self] at hu
      obtain ⟨hq, hdone⟩ | hq := hacts.fresh hu
      · obtain (hyes | ⟨v, hv⟩) | rfl := hyes
        · exact hyes hdone
        · obtain rfl := h.exclusive.unique (P := Pc.Owns) (t := v) (u := u) (hv ▸ trivial) (hq ▸ trivial)
          simp [hv] at hq
        · rw [hacts.building_of_release] at hq
          simp at hq
      · obtain hyes | rfl := hyes
        · exact h.fresh u (.inl hq) hyes
        · rw [hacts.publish.mpr rfl] at hu
          simp at hu
    · rw [State.move_pc_of_ne _ _ hut] at hu
      obtain hyes | rfl := hyes
      · exact h.fresh u hu hyes
      · refine hut (h.exclusive.unique ?_ (hacts.building_of_release ▸ trivial))
        rcases hu with hu | hu <;> exact hu ▸ trivial
  · intro u hu
    refine hacts.done.mpr (.inl ?_)
    by_cases hut : u = t
    · subst hut
      rw [State.move_pc_self] at hu
      subst hu
      exact hacts.unclaim
    · rw [State.move_pc_of_ne _ _ hut] at hu
      exact h.late u hu

theorem settled_of_trace (h : (guardSystem Thread).Trace (fun _ _ => True) tr s) : Settled tr s := by
  refine h.invariant ?_ fun _ _ _ _ hI _ hn => hI.next hn
  rintro _ rfl
  refine ⟨.empty (by simp) fun _ => id, .inr ⟨rfl, ?_⟩, ?_, ?_⟩
  · rintro (h | ⟨_, h⟩)
    · exact h rfl
    · simp at h
  · rintro _ (h | h) <;> simp at h
  · rintro _ h
    simp at h

/-! ### Claiming -/

/-- By itself a thread gets to a successful acquire. -/
def State.Claimable (s : State Thread) (t : Thread) : Prop :=
  ∃ acts : List Act, ∃ s', (guardSystem Thread).run s (acts.map (t, ·)) = some s' ∧
    s'.pc t = .building

theorem State.Claimable.of_next (hn : s.next (t, a) = some s') (h : s'.Claimable t) :
    s.Claimable t := by
  obtain ⟨acts, s'', hrun, hpc⟩ := h
  refine ⟨a :: acts, s'', ?_, hpc⟩
  rw [List.map_cons, EventSystem.run, EventSystem.runIf, if_pos rfl]
  show (s.next (t, a)).bind _ = _
  rw [hn]
  exact hrun

theorem State.Claimable.of_act {guard : Bytes} {p : Pc} {value : Option ℕ}
    (hact : act s.guard (s.pc t) a = some (guard, p, value)) (h : (s.move t guard p).Claimable t) :
    s.Claimable t :=
  .of_next (a := a) (by rw [next, hact]; rfl) h

section Claim

variable (hbusy : s.guard.busy = 0) (hdone : s.guard.done = 0)
include hbusy hdone

theorem State.claimable_claim (hpc : s.pc t = .claim) : s.Claimable t := by
  refine .of_act (a := .go) (by rw [hpc, act, step, if_pos hbusy]) ?_
  have hconfirm : act { s.guard with busy := 1 } .confirm .go =
      some ({ s.guard with busy := 1 }, .building, some 1) := by
    rw [act, step]
    exact if_neg (not_not.mpr hdone)
  refine .of_act (a := .go) ((congrArg (act _ · .go) (move_pc_self ..)).trans hconfirm) ?_
  exact ⟨[], _, rfl, move_pc_self ..⟩

theorem State.claimable_look (hpc : s.pc t = .look) : s.Claimable t := by
  refine .of_act (a := .go) (by rw [hpc, act, step, if_neg (not_not.mpr hdone)]) ?_
  exact claimable_claim hbusy hdone (move_pc_self ..)

theorem State.claimable_yield (hpc : s.pc t = .yield) : s.Claimable t := by
  refine .of_act (a := .go) (by rw [hpc, act, step]) ?_
  exact claimable_claim hbusy hdone (move_pc_self ..)

/-- Where nobody is at it and it is not constructed, any thread may claim it. -/
theorem State.claimable (hout : ¬ (s.pc t).Owns) : s.Claimable t := by
  cases hpc : s.pc t with
  | out =>
    refine .of_act (a := .acquire) (by rw [hpc, act]) ?_
    exact claimable_look hbusy hdone (move_pc_self ..)
  | look => exact claimable_look hbusy hdone hpc
  | claim => exact claimable_claim hbusy hdone hpc
  | relook =>
    refine .of_act (a := .go) (by rw [hpc, act, step, if_neg (not_not.mpr hdone)]) ?_
    exact claimable_yield hbusy hdone (move_pc_self ..)
  | yield => exact claimable_yield hbusy hdone hpc
  | _ =>
    rw [hpc] at hout
    exact absurd trivial hout

end Claim

/-- **Statics are constructed once.** In every run of any number of threads on one guard: at most
one thread is between a successful acquire and the end of its release or abort; a release is called
at most once; an acquire returns 0 only after one has said that it is constructed; and where nobody
is at the construction, as right after an abort, and no release was called, every thread may claim
it. -/
theorem constructed_once (Thread : Type) [DecidableEq Thread]
    (tr : List (State Thread × (Thread × Act))) (s : State Thread)
    (h : (guardSystem Thread).Trace (fun _ _ => True) tr s) :
    (∀ t u, (s.pc t).Inside → (s.pc u).Inside → t = u) ∧
    releases tr ≤ 1 ∧
    (∀ e, s.returned e = some 0 →
      s.guard.done ≠ 0 ∧ EventSystem.Once tr fun _ e => e.2 = .release) ∧
    (∀ t s', s.pc t = .cancel → s.next (t, .go) = some s' → (∀ u, ¬ (s'.pc u).Owns) ∧
      releases tr = 0) ∧
    ((∀ u, ¬ (s.pc u).Owns) → releases tr = 0 → ∀ t, s.Claimable t) := by
  have hI := settled_of_trace h
  refine ⟨fun t u ht hu => hI.exclusive.unique ht.owns hu.owns, ?_, ?_, ?_, ?_⟩
  · rcases hI.released with h | h <;> omega
  · rintro ⟨t, a⟩ hret
    obtain ⟨⟨guard, p, value⟩, hact, rfl⟩ := Option.bind_eq_some_iff.mp hret
    have hdone : s.guard.done ≠ 0 := by
      obtain hdone | hlate := (Acts.of_act hact).returned_zero
      · exact hdone
      · exact hI.late t hlate
    refine ⟨hdone, ?_⟩
    obtain ⟨hone, -⟩ := hI.released.resolve_right fun hno => hno.2 (.inl hdone)
    obtain ⟨x, hx, hrel⟩ := List.countP_pos_iff.mp (hone ▸ Nat.zero_lt_one : 0 < releases tr)
    exact ⟨x, hx, of_decide_eq_true hrel⟩
  · intro t s' hpc hn
    have hexcl := hI.exclusive.next hn
    rw [State.next, hpc] at hn
    obtain rfl := Option.some.inj hn
    refine ⟨hexcl.not_mem_of_free (by simp), ?_⟩
    exact (hI.released.resolve_left fun h => hI.fresh t (.inr hpc) h.2).1
  · intro hout hrel t
    refine State.claimable ?_ ?_ (hout t)
    · by_contra hbusy
      obtain ⟨u, hu⟩ := hI.exclusive.exists_mem hbusy
      exact hout u hu
    · by_contra hdone
      exact (hI.released.resolve_left fun h => by omega).2 (.inl hdone)

/-- A thread claims the construction, another comes while it has it, and the first gives it up. -/
def givenUp (t u : Fin 2) : List (Fin 2 × Act) :=
  [(t, .acquire), (t, .go), (t, .go), (t, .go), (u, .acquire), (u, .go), (u, .go), (t, .abort),
    (t, .go)]

/-- The other then constructs, and the first asks again. -/
def takenOver (t u : Fin 2) : List (Fin 2 × Act) :=
  givenUp t u ++ [(u, .go), (u, .go), (u, .go), (u, .go), (u, .release), (u, .go), (u, .go),
    (t, .acquire)]

/-- The construction that was given up may be claimed, and the one that was not is made once: the
acquire that comes behind returns 0. -/
theorem constructed_once_two :
    (∃ tr s, (guardSystem (Fin 2)).Trace (fun _ _ => True) tr s ∧ s.pc 1 = .relook ∧
      s.Claimable 1) ∧
    ∃ tr s, (guardSystem (Fin 2)).Trace (fun _ _ => True) tr s ∧ s.returned (0, .go) = some 0 ∧
      releases tr ≤ 1 ∧ s.guard.done ≠ 0 ∧ EventSystem.Once tr fun _ e => e.2 = .release := by
  constructor
  · obtain ⟨s, hs, hp⟩ := EventSystem.Trace.exists_of_runIf (M := guardSystem (Fin 2))
      (fun _ _ => True) (b := fun _ _ => true) (fun _ _ _ => trivial) (givenUp 0 1)
      (p := fun s => decide (s.pc 0 = .out ∧ s.pc 1 = .relook)) rfl (by decide +kernel)
    obtain ⟨hzero, hone⟩ := of_decide_eq_true hp
    have hnone : ∀ u : Fin 2, ¬ (s.pc u).Owns := by
      intro u
      obtain rfl | rfl : u = 0 ∨ u = 1 := by omega
      · rw [hzero]
        exact id
      · rw [hone]
        exact id
    exact ⟨_, s, hs, hone, (constructed_once _ _ s hs).2.2.2.2 hnone (by decide +kernel) 1⟩
  · obtain ⟨s, hs, hp⟩ := EventSystem.Trace.exists_of_runIf (M := guardSystem (Fin 2))
      (fun _ _ => True) (b := fun _ _ => true) (fun _ _ _ => trivial) (takenOver 0 1)
      (p := fun s => decide (s.returned (0, .go) = some 0)) rfl (by decide +kernel)
    obtain ⟨-, hreleases, hreturned, -⟩ := constructed_once _ _ s hs
    have hzero := of_decide_eq_true hp
    obtain ⟨hdone, honce⟩ := hreturned _ hzero
    exact ⟨_, s, hs, hzero, hreleases, hdone, honce⟩

end Guard

end StarOS
