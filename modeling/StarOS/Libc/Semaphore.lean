import Mathlib.Algebra.Group.Nat.Defs
import StarOS.Lib.Cover
import StarOS.Libc.Calls

/-!
# Semaphores

A post adds one to the count and pops one thread from the queue; a wait that finds no count pushes
itself, looks once more, and parks. So every count that was posted since somebody parks comes with
one who looks for it: the post itself, until it has popped a thread, and then the thread it popped.

A thread may win a count and return while it is on the queue, and it may be popped twice for one
look at the count. What was posted for such a pop is then looked for by nobody, although somebody is
parked below it.

## Main definitions

* `Threads.State.posts`, `Threads.State.takes` — the steps that change the count
* `Threads.State.PostsSafely` — the condition on a step
* `Threads.State.Comes` — a thread will look at the count

## Main results

* `Threads.sem_safe`
-/

namespace StarOS

namespace Threads

open Links

variable {Thread : Type} [DecidableEq Thread] {s s' : State Thread} {t u x : Thread} {e : Event}
  {i : ℕ} {mem : Memory Thread} {p : Pc} {eff : Effect Thread}
  {tr : List (State Thread × (Thread × Event))}

/-! ### What steps do to a count -/

/-- The places inside `sem_wait`. -/
def Pc.InWait (i : ℕ) (p : Pc) : Prop :=
  p = .semLoad i .wait ∨ (∃ count, p = .semTake i count .wait) ∨ p = .semCheck i ∨ p = .semPark i

/-- A place where the count is exchanged next, and will be. -/
def Memory.Wins (mem : Memory Thread) (i : ℕ) (p : Pc) : Prop :=
  ∃ how, p = .semTake i (mem.count i) how

/-- A count is raised by a post, lowered by a wait that wins, and left alone by all others. -/
theorem Does.sem (h : Does mem t p e eff) (i : ℕ) :
    (p ≠ .semPost i ∧ ¬ mem.Wins i p ∧ eff.mem.count i = mem.count i) ∨
      (p = .semPost i ∧ e = .go ∧ eff.mem.count i = mem.count i + 1 ∧
        eff.queue = some (.pop (.sem i)) ∧ eff.pc = .out) ∨
      (mem.Wins i p ∧ e = .go ∧ eff.mem.count i = mem.count i - 1 ∧ eff.queue = none ∧
        eff.pc = .out) := by
  cases h
  case posted i' =>
    by_cases hi : i = i'
    · subst hi
      exact .inr (.inl ⟨rfl, rfl, Function.update_self .., rfl, rfl⟩)
    · exact .inl ⟨fun h => hi (Pc.semPost.inj h).symm, by simp [Memory.Wins],
        Function.update_of_ne hi ..⟩
  case semTaken i' count how heq =>
    by_cases hi : i = i'
    · subst hi
      exact .inr (.inr ⟨⟨how, by rw [heq]⟩, rfl, by rw [heq]; exact Function.update_self .., rfl, rfl⟩)
    · exact .inl ⟨by simp, fun ⟨_, h⟩ => hi (Pc.semTake.inj h).1.symm, Function.update_of_ne hi ..⟩
  case semLost i' count hne =>
    refine .inl ⟨by simp, fun ⟨_, h⟩ => ?_, rfl⟩
    obtain ⟨rfl, rfl, -⟩ := Pc.semTake.inj h
    exact hne rfl
  case semFails i' count how hne hhow =>
    refine .inl ⟨by simp, fun ⟨_, h⟩ => ?_, by cases how <;> rfl⟩
    obtain ⟨rfl, rfl, -⟩ := Pc.semTake.inj h
    exact hne rfl
  case lockFails _ how _ | semNone _ how _ | readTaken _ how _ | readBack _ how | writeTaken _ how _ =>
    cases how <;> exact .inl ⟨by simp, by simp [Memory.Wins], rfl⟩
  all_goals exact .inl ⟨by simp, by simp [Memory.Wins], rfl⟩

/-- A thread in `sem_wait` stays there and looks at the count again, unless it finds none, or wins
one. -/
theorem Does.inWait (h : Does mem t p e eff) (hp : p.InWait i) :
    (eff.pc.InWait i ∧ eff.pc ≠ .semPark i ∧
      (eff.queue = none ∨ eff.queue = some .park ∧ p = .semPark i)) ∨
      mem.count i = 0 ∧ eff.mem = mem ∨ mem.Wins i p := by
  obtain rfl | ⟨count, rfl⟩ | rfl | rfl := hp
  · cases h with
    | semNone hnone => exact .inr (.inl ⟨hnone, rfl⟩)
    | semSome => exact .inl ⟨.inr (.inl ⟨_, rfl⟩), by simp, .inl rfl⟩
  · cases h with
    | semTaken heq => exact .inr (.inr ⟨_, by rw [heq]⟩)
    | semLost => exact .inl ⟨.inl rfl, by simp, .inl rfl⟩
    | semFails _ hhow => exact absurd rfl hhow
  · cases h with
    | semParks hnone => exact .inr (.inl ⟨hnone, rfl⟩)
    | semAgain => exact .inl ⟨.inl rfl, by simp, .inl rfl⟩
  · cases h with
    | semPark => exact .inl ⟨.inl rfl, by simp, .inr ⟨rfl, rfl⟩⟩

/-- A thread parks when there is no count. -/
theorem Does.park_of_none (h : Does mem t p e eff) (hp : eff.pc = .semPark i) :
    mem.count i = 0 ∧ eff.mem = mem := by
  cases h
  case lockFails _ how _ | semNone _ how _ | semFails _ _ how _ _ | readTaken _ how _ | readBack _ how
      | writeTaken _ how _ =>
    cases how <;> simp [How.fail] at hp
  case retry attempt => cases attempt <;> simp [Attempt.pc] at hp
  all_goals simp_all

/-! ### The count -/

/-- A step adds one to the count: a post. -/
def State.posts (s : State Thread) (i : ℕ) : Thread × Event → Bool
  | (t, .go) => s.queues.op t = .idle ∧ s.pc t = .semPost i
  | _ => false

/-- A step takes one of the count: a wait succeeds. -/
def State.takes (s : State Thread) (i : ℕ) : Thread × Event → Bool
  | (t, .go) => match s.pc t with
    | .semTake i' count _ => s.queues.op t = .idle ∧ i' = i ∧ s.mem.count i = count
    | _ => false
  | _ => false

/-- The count is below its bound when a post adds one. -/
def State.Fits (s : State Thread) (i : ℕ) (e : Thread × Event) : Prop :=
  s.posts i e = true → (s.mem.count i).toNat + 1 < 2 ^ 32

/-- No wait is about to take one of nothing. -/
def State.Loaded (s : State Thread) (i : ℕ) : Prop :=
  ∀ t count how, s.pc t = .semTake i count how → count ≠ 0

theorem Does.loaded (h : Does mem t p e eff) {count : BitVec 32} {how : How}
    (hp : eff.pc = .semTake i count how) : count ≠ 0 := by
  cases h
  case lockFails _ how _ | semNone _ how _ | semFails _ _ how _ _ | readTaken _ how _ | readBack _ how
      | writeTaken _ how _ =>
    cases how <;> simp [How.fail] at hp
  case retry attempt => cases attempt <;> simp [Attempt.pc] at hp
  case semSome i' how' hsome =>
    obtain ⟨rfl, rfl, rfl⟩ := Pc.semTake.inj hp
    exact hsome
  all_goals simp_all

theorem loaded_of_run {ok : State Thread → Thread × Event → Prop}
    (h : (threadSystem Thread).Reach ok s) (i : ℕ) : s.Loaded i := by
  refine EventSystem.Reach.invariant (I := fun s => s.Loaded i) ?_ ?_ h
  · rintro _ ⟨count, rfl⟩ t count how hpc
    simp at hpc
  · rintro s ⟨t, e⟩ s' hI - hn u count how hpc
    obtain ⟨-, heq⟩ | ⟨eff, hdoes, -, heq⟩ := State.mem_next hn
    · rw [heq] at hpc
      exact hI u count how hpc
    · rw [heq] at hpc
      by_cases hu : u = t
      · subst hu
        rw [Function.update_self] at hpc
        exact hdoes.loaded hpc
      · rw [Function.update_of_ne hu] at hpc
        exact hI u count how hpc

theorem State.posts_iff :
    s.posts i (t, e) = true ↔ e = .go ∧ s.queues.op t = .idle ∧ s.pc t = .semPost i := by
  cases e <;> simp [posts]

theorem State.takes_iff :
    s.takes i (t, e) = true ↔ e = .go ∧ s.queues.op t = .idle ∧ s.mem.Wins i (s.pc t) := by
  cases e with
  | go =>
    rw [takes, Memory.Wins]
    split
    · next i' count how hpc =>
      rw [hpc]
      simp only [decide_eq_true_eq, Pc.semTake.injEq, true_and]
      constructor
      · rintro ⟨hidle, rfl, rfl⟩
        exact ⟨hidle, how, rfl, rfl, rfl⟩
      · rintro ⟨hidle, -, rfl, rfl, -⟩
        exact ⟨hidle, rfl, rfl⟩
    · next hpc =>
      refine iff_of_false (by simp) ?_
      rintro ⟨-, -, how, h⟩
      exact hpc _ _ _ h
  | _ => simp [takes]

/-- **What a step does to a count.** -/
theorem State.count_next (hloaded : s.Loaded i) (hfits : s.Fits i (t, e))
    (hn : s.next (t, e) = some s') :
    (s.mem.count i).toNat + (s.posts i (t, e)).toNat =
      (s'.mem.count i).toNat + (s.takes i (t, e)).toNat := by
  have hidle : ∀ {eff}, s.queues.op t = .idle → Does s.mem t (s.pc t) e eff →
      (s.mem.count i).toNat + (s.posts i (t, e)).toNat =
        (eff.mem.count i).toNat + (s.takes i (t, e)).toNat := by
    intro eff hidle hdoes
    obtain ⟨hpost, hwins, heq⟩ | ⟨hpc, rfl, heq, -⟩ | ⟨hwins, rfl, heq, -⟩ := hdoes.sem i
    · rw [Bool.eq_false_iff.mpr fun h => hpost (posts_iff.mp h).2.2,
        Bool.eq_false_iff.mpr fun h => hwins (takes_iff.mp h).2.2, heq]
    · have hposts := posts_iff.mpr ⟨rfl, hidle, hpc⟩
      have hroom := hfits hposts
      have htakes : s.takes i (t, .go) = false := by
        refine Bool.eq_false_iff.mpr fun h => ?_
        obtain ⟨how, hpc'⟩ := (takes_iff.mp h).2.2
        rw [hpc] at hpc'
        simp at hpc'
      rw [hposts, htakes, heq, BitVec.toNat_add_of_lt hroom]
      rfl
    · obtain ⟨how, hpc⟩ := hwins
      have hne := hloaded t _ how hpc
      have hposts : s.posts i (t, .go) = false := by
        refine Bool.eq_false_iff.mpr fun h => ?_
        have hpc' := (posts_iff.mp h).2.2
        rw [hpc] at hpc'
        simp at hpc'
      have hone : 1 ≤ (s.mem.count i).toNat := Nat.one_le_iff_ne_zero.mpr fun h =>
        hne (BitVec.eq_of_toNat_eq h)
      rw [hposts, takes_iff.mpr ⟨rfl, hidle, how, hpc⟩, heq, BitVec.toNat_sub_of_le hone]
      exact (Nat.sub_add_cancel hone).symm
  cases step_of_next hn with
  | queue hbusy =>
    rw [Bool.eq_false_iff.mpr fun h => hbusy (posts_iff.mp h).2.1,
      Bool.eq_false_iff.mpr fun h => hbusy (takes_iff.mp h).2.1]
  | does h hdoes | calls h hdoes => exact hidle h hdoes

/-- **The count** is what it began with and what was posted, less what was taken. -/
theorem count_of_trace (h : (threadSystem Thread).Trace (fun s e => s.Fits i e) tr s) :
    ((EventSystem.start tr s).mem.count i).toNat + tr.countP (fun x => x.1.posts i x.2) =
      (s.mem.count i).toNat + tr.countP fun x => x.1.takes i x.2 := by
  refine EventSystem.Trace.invariant_of (J := fun _ s => s.Loaded i)
    (I := fun tr s => ((EventSystem.start tr s).mem.count i).toNat +
      tr.countP (fun x => x.1.posts i x.2) =
        (s.mem.count i).toNat + tr.countP fun x => x.1.takes i x.2)
    (fun _ _ ht => loaded_of_run ht.reach i) (fun _ _ => rfl) ?_ h
  rintro tr s ⟨t, e⟩ s' hloaded hI hfits hn
  have hstep := State.count_next hloaded hfits hn
  rw [EventSystem.start_snoc, List.countP_append, List.countP_append, List.countP_singleton,
    List.countP_singleton]
  cases hp : s.posts i (t, e) <;> cases hq : s.takes i (t, e) <;> rw [hp, hq] at hstep <;>
    simp at hstep ⊢ <;> omega

/-! ### Nobody is forgotten -/

/-- **The condition on a step.** A thread that links itself is on no list that is still walked; a
thread that pushes itself on the semaphore's queue and finds its flag set is on this queue, or was
just taken off it; and a pop that takes a thread off it while there is a count takes one that is
parked in `sem_wait`, or one that is inside it and not about to be unparked already, or leaves nobody
parked there on the queue. -/
def State.PostsSafely (s : State Thread) (i : ℕ) : Thread × Event → Prop
  | (t, e) => s.LinksSafely (t, e) ∧
    (s.queues.op t = .pushSwap (.sem i) → s.queues.queued t = 1 →
      s.queues.Linked (.sem i) t ∨ s.queues.Due (.sem i) t) ∧
    ∀ head next, s.queues.op t = .popStore (.sem i) head next → s.mem.count i ≠ 0 →
      (s.pc head).InWait i ∧ (s.pc head = .semPark i ∨
        ¬ s.queues.Due (.sem i) head ∧ s.queues.signals head = 0) ∨
        ∀ x, s.queues.Linked (.sem i) x → x ≠ head → s.pc x ≠ .semPark i

/-- A thread will take a count, or see none, or pop a thread that will: it is about to pop one, or
is in `sem_wait` and either not on the queue, or not parked and about to be unparked. -/
def State.Comes (s : State Thread) (i : ℕ) (u : Thread) : Prop :=
  (s.queues.op u).PopsNext (.sem i) ∨ (s.pc u).InWait i ∧
    (s.queues.op u = .idle ∧ ¬ s.queues.Linked (.sem i) u ∨
      s.pc u ≠ .semPark i ∧ (s.queues.Due (.sem i) u ∨ 0 < s.queues.signals u))

/-- What keeps those who wait for a semaphore from being forgotten: who parks is promised a signal,
and while one is parked on the queue, for each count somebody comes. -/
structure State.Tended (s : State Thread) (i : ℕ) : Prop where
  promised : ∀ t, (s.pc t).awaits = some (.sem i) →
    s.queues.op t = .idle ∨ s.queues.op t = .pushUnlock (.sem i) → s.queues.Promised (.sem i) t
  covered : (∃ t, s.queues.Linked (.sem i) t ∧ s.pc t = .semPark i) →
    Covers (s.Comes i) (s.mem.count i).toNat

section Next

variable (h : s.Tended i) (htidy : s.queues.Tidy) (hcalling : s.Calling)
  (hok : s.PostsSafely i (t, e)) (hn : s.next (t, e) = some s')
include htidy hok hn

/-- What the others do lets a thread come. -/
theorem State.Comes.next_of_ne (hu : u ≠ t) (hcomes : s.Comes i u) : s'.Comes i u := by
  rw [Comes, op_of_ne hn hu, pc_of_ne hn hu]
  refine hcomes.imp_right fun ⟨hin, hcomes⟩ => ⟨hin, hcomes.imp ?_ ?_⟩
  · rintro ⟨hidle, hnot⟩
    refine ⟨hidle, fun hlinked => ?_⟩
    obtain hlinked | ⟨rfl, -⟩ := linked_of_next htidy hok.1 hn hlinked
    · exact hnot hlinked
    · exact hu rfl
  · exact And.imp_right (due_or_signal_next htidy hok.1 hn (.inl (Ne.symm hu)))

/-- A thread in the middle of an operation on a queue goes on to come, unless it pops another. -/
theorem State.Comes.next_of_busy (hbusy : s.queues.op t ≠ .idle)
    (hlinked : ∃ x, s.queues.Linked (.sem i) x)
    (hstore : ∀ head next, s.queues.op t ≠ .popStore (.sem i) head next) (hcomes : s.Comes i t) :
    s'.Comes i t := by
  obtain ⟨-, -, hpc, hact⟩ := go_of_busy hn hbusy
  rw [Comes, hpc]
  obtain hpops | ⟨hin, ⟨hidle, -⟩ | ⟨hpark, hcoming⟩⟩ := hcomes
  · refine .inl ?_
    have hgoes := Queues.goes_of_go hact
    generalize ho : s.queues.op t = o at hgoes hpops hstore
    generalize s'.queues = queues at hgoes
    cases hgoes with
    | popSpin =>
      rw [ho]
      exact hpops
    | popLock | popLoad | popNext | popClear =>
      rw [goTo_op]
      exact hpops
    | popNone hnone =>
      obtain rfl := hpops
      obtain ⟨x, hx⟩ := hlinked
      rw [Queues.Linked, hnone] at hx
      exact absurd hx not_from_none
    | popStore =>
      obtain rfl := hpops
      exact absurd rfl (hstore _ _)
    | _ => exact hpops.elim
  · exact absurd hidle hbusy
  · exact .inr ⟨hin, .inr ⟨hpark, due_or_signal_next htidy hok.1 hn (.inr hbusy) hcoming⟩⟩

/-- A thread that finds a count it does not win goes on to come. -/
theorem State.Comes.next_of_idle (hidle : s.queues.op t = .idle) (hcount : s.mem.count i ≠ 0)
    (hwins : ¬ s.mem.Wins i (s.pc t)) (hcomes : s.Comes i t) : s'.Comes i t := by
  obtain hpops | ⟨hin, hcomes⟩ := hcomes
  · rw [hidle] at hpops
    exact hpops.elim
  · obtain ⟨eff, hdoes, -, hpc, hnone, hsome⟩ := does_of_idle hn hidle
    obtain ⟨hin', hpark', hqueue⟩ | ⟨hzero, -⟩ | hwins' := hdoes.inWait hin
    · refine .inr ⟨by rwa [hpc, Function.update_self], ?_⟩
      rw [hpc, Function.update_self]
      obtain ⟨-, hnot⟩ | ⟨hpark, hcoming⟩ := hcomes
      · refine .inl ⟨?_, fun hlinked => hnot ?_⟩
        · obtain hqueue | ⟨hqueue, -⟩ := hqueue
          · rw [hnone hqueue, hidle]
          · have hact := hsome _ hqueue
            rw [Queues.act] at hact
            split at hact
            · rw [← Option.some.inj hact]
              exact hidle
            · simp at hact
        · refine (linked_of_next htidy hok.1 hn hlinked).resolve_right ?_
          rintro ⟨-, hop⟩
          rw [hidle] at hop
          simp at hop
      · obtain hqueue | ⟨-, heq⟩ := hqueue
        · exact .inr ⟨hpark', by rwa [hnone hqueue]⟩
        · exact absurd heq hpark
    · exact absurd hzero hcount
    · exact absurd hwins' hwins

include h hcalling

theorem State.Tended.covered_next (hloaded : s.Loaded i)
    (hwaits' : ∃ x, s'.queues.Linked (.sem i) x ∧ s'.pc x = .semPark i) :
    Covers (s'.Comes i) (s'.mem.count i).toNat := by
  obtain ⟨x, hlinked', hpark'⟩ := hwaits'
  by_cases hidle : s.queues.op t = .idle
  · obtain ⟨eff, hdoes, hmem, hpc, hnone, hsome⟩ := does_of_idle hn hidle
    rw [hmem]
    by_cases hxt : x = t
    · -- it has just parked
      subst hxt
      rw [hpc, Function.update_self] at hpark'
      obtain ⟨hzero, heq⟩ := hdoes.park_of_none hpark'
      rw [heq, hzero]
      exact .zero
    · rw [pc_of_ne hn hxt] at hpark'
      have hlinked := (linked_of_next htidy hok.1 hn hlinked').resolve_right fun h => hxt h.1.symm
      have hcover := h.covered ⟨x, hlinked, hpark'⟩
      obtain ⟨-, hwins, heq⟩ | ⟨hpost, -, heq, hqueue, -⟩ | ⟨⟨how, hwins⟩, -, heq, -⟩ := hdoes.sem i
      · rw [heq]
        by_cases hzero : s.mem.count i = 0
        · rw [hzero]
          exact .zero
        · refine hcover.mono fun u hu => ?_
          by_cases hut : u = t
          · subst hut
            exact hu.next_of_idle htidy hok hn hidle hzero hwins
          · exact hu.next_of_ne htidy hok hn hut
      · -- who posts comes for it
        have hnot : ¬ s.Comes i t := by
          rintro (hpops | ⟨hin, -⟩)
          · rw [hidle] at hpops
            exact hpops.elim
          · simp [Pc.InWait, hpost] at hin
        have hact := hsome _ hqueue
        rw [Queues.act, if_pos hidle] at hact
        have hcomes : s'.Comes i t := by
          refine .inl ?_
          rw [← Option.some.inj hact, goTo_op]
          rfl
        rw [heq]
        refine (hcover.add hnot hcomes fun u hu => ?_).of_le ?_
        · exact hu.next_of_ne htidy hok hn fun hut => hnot (hut ▸ hu)
        · rw [BitVec.toNat_add]
          exact Nat.mod_le ..
      · have hone : 1 ≤ (s.mem.count i).toNat := Nat.one_le_iff_ne_zero.mpr fun hzero =>
          hloaded t _ how hwins (BitVec.eq_of_toNat_eq hzero)
        rw [heq]
        refine (hcover.lose fun u hut hu => hu.next_of_ne htidy hok hn hut).of_le ?_
        exact (BitVec.toNat_sub_of_le hone).le
  · obtain ⟨rfl, hmem, hpc, hact⟩ := go_of_busy hn hidle
    rw [hpc] at hpark'
    have hlinked : s.queues.Linked (.sem i) x := by
      refine (linked_of_next htidy hok.1 hn hlinked').resolve_right ?_
      rintro ⟨-, hop⟩
      have hcalls := hcalling x (.push (.sem i)) (by rw [hop]; rfl)
      rw [hpark'] at hcalls
      exact hcalls
    have hcover := h.covered ⟨x, hlinked, hpark'⟩
    rw [hmem]
    by_cases hzero : s.mem.count i = 0
    · rw [hzero]
      exact .zero
    by_cases hstore : ∃ head next, s.queues.op t = .popStore (.sem i) head next
    · obtain ⟨head, next, hstore⟩ := hstore
      obtain ⟨hlocked, home, hplaced⟩ := id htidy
      obtain ⟨hhead, hoff, hdue⟩ := hplaced.popped (t := t) hlocked hok.1 hact hstore
      obtain ⟨hin, hsafe⟩ | hnobody := hok.2.2 head next hstore hzero
      · -- the thread that was popped comes now
        have hnopop : ¬ (s.queues.op head).PopsNext (.sem i) := fun hpops => by
          have hcalls := hcalling head _ hpops.begun
          obtain hp | ⟨count, hp⟩ | hp | hp := hin <;> rw [hp] at hcalls <;> exact hcalls
        have hne : head ≠ t := by
          rintro rfl
          exact hnopop (by rw [hstore]; rfl)
        refine hcover.swap (a := t) (b := head) ?_ (.inr ⟨hpc ▸ hin, ?_⟩) fun u hut hu =>
          hu.next_of_ne htidy hok hn hut
        · rintro (hpops | ⟨-, ⟨-, hnot⟩ | ⟨hpark, hcoming⟩⟩)
          · exact hnopop hpops
          · exact hnot hhead
          · obtain ⟨hdue, hsignal⟩ := hsafe.resolve_left hpark
            exact hcoming.elim hdue fun hpos => by omega
        · by_cases hpark : s.pc head = .semPark i
          · refine .inl ⟨?_, hoff⟩
            rw [op_of_ne hn hne]
            refine hcalling.idle fun a => ?_
            rw [hpark]
            exact id
          · exact .inr ⟨hpc ▸ hpark, .inl hdue⟩
      · refine absurd hpark' (hnobody x hlinked ?_)
        rintro rfl
        exact hoff hlinked'
    · refine hcover.mono fun u hu => ?_
      by_cases hut : u = t
      · subst hut
        exact hu.next_of_busy htidy hok hn hidle ⟨x, hlinked⟩ fun head next hop => hstore ⟨head, next, hop⟩
      · exact hu.next_of_ne htidy hok hn hut

end Next

theorem tended_of_run (h : (threadSystem Thread).Reach (fun s e => s.PostsSafely i e) s) :
    s.Tended i := by
  refine EventSystem.Reach.invariant_of (I := fun s => s.Tended i)
    (J := fun s => s.queues.Tidy ∧ s.Calling ∧ s.Loaded i)
    (fun s hs => ⟨tidy_of_run (fun _ ⟨_, _⟩ hok => hok.1) hs, calls_of_run hs, loaded_of_run hs i⟩)
    ?_ ?_ h
  · rintro _ ⟨count, rfl⟩
    exact ⟨fun t ht => by simp [Pc.awaits] at ht, fun ⟨t, _, ht⟩ => by simp at ht⟩
  · rintro s ⟨t, e⟩ s' ⟨htidy, hcalling, hloaded⟩ hI hok hn
    exact ⟨State.awaits_next htidy hcalling hok.1 hok.2.1 hn hI.promised,
      hI.covered_next htidy hcalling hok hn hloaded⟩

/-! ### The main result -/

/-- A thread is in the middle of an operation on a semaphore: it works on its queue, posts, looks at
the count, or has been woken. -/
def State.BusyWith (s : State Thread) (i : ℕ) (u : Thread) : Prop :=
  (s.queues.op u).place = some (.sem i) ∨ s.pc u = .semPost i ∨
    (s.pc u).InWait i ∧ (s.pc u = .semPark i → 0 < s.queues.signals u)

/-- **Semaphores.** In every run whose posts keep the count below its bound, what the count began
with and what was posted is the count and what was taken. And in every run that meets the condition,
no thread is left parked without a signal for a semaphore that has a count and that nobody is busy
with. -/
theorem sem_safe (Thread : Type) [DecidableEq Thread] (i : ℕ) :
    (∀ tr s, (threadSystem Thread).Trace (fun s e => s.Fits i e) tr s →
      ((EventSystem.start tr s).mem.count i).toNat + tr.countP (fun x => x.1.posts i x.2) =
        (s.mem.count i).toNat + tr.countP fun x => x.1.takes i x.2) ∧
    ∀ s, (threadSystem Thread).Reach (fun s e => s.PostsSafely i e) s → s.mem.count i ≠ 0 →
      (∀ u, ¬ s.BusyWith i u) → ∀ t, s.pc t = .semPark i → 0 < s.queues.signals t := by
  refine ⟨fun tr s h => count_of_trace h, fun s hs hcount hnone t ht => ?_⟩
  have htended := tended_of_run hs
  have hcalling := calls_of_run hs
  have hpromised : ∀ u, s.pc u = .semPark i → s.queues.Promised (.sem i) u := fun u hu =>
    htended.promised u (by rw [hu]; rfl) (.inl (hcalling.idle fun a => by rw [hu]; exact id))
  have hdue : ∀ x, ¬ s.queues.Due (.sem i) x := fun x ⟨v, hplace, _⟩ => hnone v (.inl hplace)
  obtain hlinked | hdone | hsignal := hpromised t ht
  · refine absurd (BitVec.eq_of_toNat_eq ?_) hcount
    refine (htended.covered ⟨t, hlinked, ht⟩).eq_zero fun u hu => ?_
    obtain hpops | ⟨hin, hcomes⟩ := hu
    · exact hnone u (.inl hpops.place)
    · -- it is in no operation, so it is parked, off the queue, and has a signal
      refine hnone u (.inr (.inr ⟨hin, fun hpark => ?_⟩))
      obtain ⟨-, hnot⟩ | ⟨hno, -⟩ := hcomes
      · exact ((hpromised u hpark).resolve_left hnot).resolve_left (hdue u)
      · exact absurd hpark hno
  · exact absurd hdone (hdue t)
  · exact hsignal

/-! ### Two threads -/

/-- A thread that links itself is the only one at work on a queue and finds its flag clear, a pop
takes a thread that is parked for semaphore 0, and the count is small. -/
def postsCalmly (s : State (Fin 2)) : Fin 2 × Event → Bool
  | (t, _) => decide ((s.mem.count 0).toNat + 1 < 2 ^ 32) && match s.queues.op t with
    | .pushSwap _ => decide (s.queues.queued t ≠ 1 ∧ ∀ u, u ≠ t → s.queues.op u = .idle)
    | .popStore _ head _ => decide (s.pc head = .semPark 0)
    | _ => true

theorem postsSafely_of_calmly {s : State (Fin 2)} {e : Fin 2 × Event} (h : postsCalmly s e = true) :
    s.Fits 0 e ∧ s.PostsSafely 0 e := by
  obtain ⟨t, e⟩ := e
  rw [postsCalmly, Bool.and_eq_true] at h
  obtain ⟨hroom, h⟩ := h
  refine ⟨fun _ => of_decide_eq_true hroom, linksSafely_of_alone fun q hop => ?_,
    fun hop hflag => ?_, fun head next hop _ => ?_⟩ <;> rw [hop] at h
  · exact (of_decide_eq_true h).2
  · exact absurd hflag (of_decide_eq_true h).1
  · have hpark := of_decide_eq_true h
    exact .inl ⟨.inr (.inr (.inr hpark)), .inl hpark⟩

theorem not_busyWith_of_out {s : State (Fin 2)} (hidle : ∀ u, s.queues.op u = .idle) {u : Fin 2}
    (hout : s.pc u = .out ∨ s.pc u = .semPark 0 ∧ s.queues.signals u = 0) : ¬ s.BusyWith 0 u := by
  rintro (hplace | hpost | ⟨hin, hsignal⟩)
  · rw [hidle] at hplace
    simp [Op.place] at hplace
  · obtain hpc | ⟨hpc, -⟩ := hout <;> simp [hpc] at hpost
  · obtain hpc | ⟨hpc, hno⟩ := hout
    · simp [Pc.InWait, hpc] at hin
    · have := hsignal hpc
      omega

theorem sem_safe_post : ∃ tr s, (threadSystem (Fin 2)).Trace (fun s e => s.Fits 0 e) tr s ∧
    ((EventSystem.start tr s).mem.count 0).toNat + tr.countP (fun x => x.1.posts 0 x.2) =
      (s.mem.count 0).toNat + tr.countP (fun x => x.1.takes 0 x.2) ∧
    s.mem.count 0 = 1 ∧ ∀ t, s.pc t = .semPark 0 → 0 < s.queues.signals t := by
  -- thread 0 waits, thread 1 posts for it, and then once more
  obtain ⟨s, hs, hp⟩ := EventSystem.Trace.exists_of_runIf (M := threadSystem (Fin 2))
    (fun s e => s.Fits 0 e ∧ s.PostsSafely 0 e) (b := postsCalmly)
    (fun _ _ => postsSafely_of_calmly)
    ((0, .call (.semWait 0 .wait)) :: goes 0 8 ++ (1, .call (.post 0)) :: goes 1 8 ++ goes 0 3 ++
      (1, .call (.post 0)) :: goes 1 4)
    (p := fun s => decide (s.mem.count 0 = 1 ∧ (∀ u, s.pc u = .out) ∧ ∀ u, s.queues.op u = .idle))
    ⟨fun _ => 0, rfl⟩ (by decide +kernel)
  obtain ⟨hcount, hout, hidle⟩ := of_decide_eq_true hp
  have hfits := hs.mono fun _ _ hok => hok.1
  refine ⟨_, s, hfits, (sem_safe _ 0).1 _ s hfits, hcount, ?_⟩
  refine (sem_safe _ 0).2 s (hs.mono fun _ _ hok => hok.2).reach ?_ fun u =>
    not_busyWith_of_out hidle (.inl (hout u))
  rw [hcount]
  decide

/-- Thread 0 waits for a condition variable and its deadline passes, so it stays on that queue. Then
it waits for a semaphore: its flag is set and it is not on the semaphore's queue when thread 1
posts. -/
theorem sem_strands : ¬ ∀ (s : State (Fin 2)), (threadSystem (Fin 2)).Reachable s →
    s.mem.count 0 ≠ 0 → (∀ u, ¬ s.BusyWith 0 u) → ∀ t, s.pc t = .semPark 0 →
    0 < s.queues.signals t := by
  intro h
  obtain ⟨s, hs, hp⟩ : ∃ s, (threadSystem (Fin 2)).Reachable s ∧
      decide (s.mem.count 0 = 1 ∧ s.pc 0 = .semPark 0 ∧ s.pc 1 = .out ∧ s.queues.signals 0 = 0 ∧
        ∀ u, s.queues.op u = .idle) = true :=
    EventSystem.Reachable.exists_of_run
      ((0, .call (.lock 0 .wait)) :: goes 0 1 ++ (0, .call (.condWait 0 0 true)) :: goes 0 10 ++
        (0, .expire) :: goes 0 1 ++ (0, .call (.semWait 0 .wait)) :: goes 0 5 ++
        (1, .call (.post 0)) :: goes 1 4)
      ⟨fun _ => 0, rfl⟩ (by decide +kernel)
  obtain ⟨hcount, h0, h1, hsignals, hidle⟩ := of_decide_eq_true hp
  have hout : ∀ u, s.pc u = .out ∨ s.pc u = .semPark 0 ∧ s.queues.signals u = 0 := by
    intro u
    obtain rfl | rfl : u = 0 ∨ u = 1 := by omega
    · exact .inr ⟨h0, hsignals⟩
    · exact .inl h1
  have := h s hs (by rw [hcount]; decide) (fun u => not_busyWith_of_out hidle (hout u)) 0 h0
  omega

end Threads

end StarOS
