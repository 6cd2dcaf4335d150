import StarOS.Libc.Calls

/-!
# Mutexes

A thread that finds a mutex taken puts itself on its queue, tries once more, and parks; who unlocks
pops one thread and unparks it. So while the mutex is free and somebody waits on the queue, somebody
else is on the way: who unlocked it and has not popped yet, or a thread in the lock that will try.

That is so as long as the threads on the queue are those in the lock. But a thread has one link and
one flag for all queues, and one that leaves a wait by a deadline or a stray signal stays on the
queue it waited in. It is not put on the queue of a mutex then, and on the queue of a mutex it takes
the place of a thread that waits.

## Main definitions

* `Threads.State.Held` — the holder of a mutex
* `Threads.State.LocksSafely` — the condition on a step
* `Threads.State.Minded` — while a mutex is free somebody comes for those who wait

## Main results

* `Threads.mutex_safe`
-/

namespace StarOS

namespace Threads

open Links

variable {Thread : Type} [DecidableEq Thread] {s s' : State Thread} {t u x : Thread} {e : Event}
  {m : ℕ} {mem : Memory Thread} {p : Pc} {eff : Effect Thread}

/-! ### What steps do to a mutex -/

/-- The places of a thread that exchanges the state next. -/
def Pc.Tries (m : ℕ) (p : Pc) : Prop := (∃ how, p = .lockTry m how) ∨ p = .lockRetry m

/-- The places inside `Mutex::lock`. -/
def Pc.InLock (m : ℕ) (p : Pc) : Prop :=
  p = .lockTry m .wait ∨ p = .lockRetry m ∨ p = .lockPark m

/-- A mutex is taken by a thread that tries, given back by one that unlocks, and left alone by all
others. -/
theorem Does.mutex (h : Does mem t p e eff) (m : ℕ) :
    (eff.mem.state m = mem.state m ∧ eff.mem.holds m = mem.holds m) ∨
      (p.Tries m ∧ mem.state m = 0 ∧ eff.mem.state m ≠ 0 ∧
        eff.mem.holds m = Function.update (mem.holds m) t true) ∨
      ((∃ wait, p = .unlockStore m wait) ∧ eff.queue = some (.pop (.mutex m)) ∧
        eff.mem.state m = 0 ∧ eff.mem.holds m = Function.update (mem.holds m) t false) := by
  have hset : ∀ (m' : ℕ) (value : BitVec 32) (held : Bool), m ≠ m' →
      ((mem.setState m' value).setHolds m' t held).state m = mem.state m ∧
        ((mem.setState m' value).setHolds m' t held).holds m = mem.holds m := fun m' value held hm =>
    ⟨Function.update_of_ne hm .., Function.update_of_ne hm ..⟩
  cases h
  case locked m' how hfree =>
    by_cases hm : m = m'
    · subst hm
      exact .inr (.inl ⟨.inl ⟨how, rfl⟩, hfree, by simp [Memory.setState, Memory.setHolds],
        Function.update_self ..⟩)
    · exact .inl (hset m' 1 true hm)
  case relocked m' hfree =>
    by_cases hm : m = m'
    · subst hm
      exact .inr (.inl ⟨.inr rfl, hfree, by simp [Memory.setState, Memory.setHolds],
        Function.update_self ..⟩)
    · exact .inl (hset m' 1 true hm)
  case unlocked m' =>
    by_cases hm : m = m'
    · subst hm
      exact .inr (.inr ⟨⟨_, rfl⟩, rfl, Function.update_self .., Function.update_self ..⟩)
    · exact .inl (hset m' 0 false hm)
  case unlockedFor m' c timed =>
    by_cases hm : m = m'
    · subst hm
      exact .inr (.inr ⟨⟨_, rfl⟩, rfl, Function.update_self .., Function.update_self ..⟩)
    · exact .inl (hset m' 0 false hm)
  case lockFails _ how _ | semNone _ how _ | semFails _ _ how _ _ | readTaken _ how _ | readBack _ how
      | writeTaken _ how _ =>
    cases how <;> exact .inl ⟨rfl, rfl⟩
  all_goals exact .inl ⟨rfl, rfl⟩

/-- Who tries a free mutex gets it. -/
theorem Does.state_of_tries (h : Does mem t p e eff) (hp : p.Tries m) (hfree : mem.state m = 0) :
    eff.mem.state m ≠ 0 := by
  obtain ⟨how, rfl⟩ | rfl := hp
  · cases h with
    | locked => simp [Memory.setState, Memory.setHolds]
    | lockFails hne => exact absurd hfree hne
  · cases h with
    | relocked => simp [Memory.setState, Memory.setHolds]
    | relockFails hne => exact absurd hfree hne

/-- A thread comes into `Mutex::lock` by its first try. -/
theorem Does.inLock (h : Does mem t p e eff) (hp : eff.pc.InLock m) :
    p.InLock m ∨ eff.pc = .lockTry m .wait := by
  cases h
  case lockFails m' how hne =>
    cases how
    case wait =>
      obtain rfl : m' = m := by simpa [How.fail, Pc.InLock] using hp
      exact .inl (.inl rfl)
    all_goals simp [How.fail, Pc.InLock] at hp
  case semNone _ how _ | semFails _ _ how _ _ | readTaken _ how _ | readBack _ how
      | writeTaken _ how _ =>
    cases how <;> simp [How.fail, Pc.InLock] at hp
  case retry attempt => cases attempt <;> simp [Attempt.pc, Pc.InLock] at hp
  all_goals simp_all [Pc.InLock]

/-- A thread unlocks what it holds. -/
theorem Does.holds_of_unlock {wait : Option (ℕ × Bool)} (h : Does mem t p e eff)
    (hp : eff.pc = .unlockStore m wait) : mem.holds m t = true ∧ eff.mem = mem := by
  cases h
  case lockFails m' how hne =>
    cases how <;> simp [How.fail] at hp
  case semNone _ how _ | semFails _ _ how _ _ | readTaken _ how _ | readBack _ how
      | writeTaken _ how _ =>
    cases how <;> simp [How.fail] at hp
  case retry attempt => cases attempt <;> simp [Attempt.pc] at hp
  all_goals simp_all

/-! ### One holder -/

/-- A mutex is locked while one thread holds it, and who is about to unlock it holds it. -/
structure State.Held (s : State Thread) (m : ℕ) : Prop where
  holder : Excludes (s.mem.state m ≠ 0) (fun held => held = true) (s.mem.holds m)
  unlocking : ∀ t wait, s.pc t = .unlockStore m wait → s.mem.holds m t = true

theorem State.Held.next (h : s.Held m) (hn : s.next (t, e) = some s') : s'.Held m := by
  obtain ⟨hmem, hpc⟩ | ⟨eff, hdoes, hmem, hpc⟩ := mem_next hn
  · exact ⟨hmem ▸ h.holder, hmem ▸ hpc ▸ h.unlocking⟩
  · refine ⟨?_, fun u wait hu => ?_⟩
    · rw [hmem]
      obtain ⟨hstate, hholds⟩ | ⟨-, hfree, htaken, hholds⟩ | ⟨⟨wait, hp⟩, -, hfree, hholds⟩ :=
        hdoes.mutex m
      · rw [hstate, hholds]
        exact h.holder
      · rw [hholds]
        exact h.holder.enter (not_not.mpr hfree) rfl htaken
      · rw [hholds]
        exact h.holder.leave (h.unlocking t wait hp) (by simp) (not_not.mpr hfree)
    · rw [hpc] at hu
      rw [hmem]
      by_cases hut : u = t
      · subst hut
        rw [Function.update_self] at hu
        obtain ⟨hholds, heq⟩ := hdoes.holds_of_unlock hu
        rw [heq]
        exact hholds
      · rw [Function.update_of_ne hut] at hu
        have hholds := h.unlocking u wait hu
        obtain ⟨-, heq⟩ | ⟨-, hfree, -, heq⟩ | ⟨-, -, -, heq⟩ := hdoes.mutex m
        · rw [heq]
          exact hholds
        · rw [heq, Function.update_of_ne hut]
          exact hholds
        · rw [heq, Function.update_of_ne hut]
          exact hholds

theorem held_of_run {ok : State Thread → Thread × Event → Prop}
    (h : (threadSystem Thread).Reach ok s) (m : ℕ) : s.Held m := by
  refine EventSystem.Reach.invariant (I := fun s => s.Held m) ?_
    (fun _ ⟨_, _⟩ _ hI _ hn => State.Held.next hI hn) h
  rintro _ ⟨count, rfl⟩
  exact ⟨.empty (fun h => h rfl) fun _ => by simp [Memory.new], fun _ _ h => by simp at h⟩

/-! ### Nobody is forgotten -/

/-- **The condition on a step.** A thread that links itself is on no list that is still walked; a
thread that pushes itself on the mutex's queue and finds its flag set is on this queue, or was just
taken off it; and a pop that takes a thread off it while the mutex is free takes one that is inside
its lock, or leaves nobody of those there. -/
def State.LocksSafely (s : State Thread) (m : ℕ) : Thread × Event → Prop
  | (t, e) => s.LinksSafely (t, e) ∧
    (s.queues.op t = .pushSwap (.mutex m) → s.queues.queued t = 1 →
      s.queues.Linked (.mutex m) t ∨ s.queues.Due (.mutex m) t) ∧
    ∀ head next, s.queues.op t = .popStore (.mutex m) head next → s.mem.state m = 0 →
      (s.pc head).InLock m ∨
        ∀ x, s.queues.Linked (.mutex m) x → x ≠ head → ¬ (s.pc x).InLock m

/-- A thread will take the mutex or wake one that waits for it: it is about to pop one, or to try,
or it will be unparked. -/
def State.Rescues (s : State Thread) (m : ℕ) (u : Thread) : Prop :=
  (s.queues.op u).PopsNext (.mutex m) ∨ (s.pc u).Tries m ∨
    s.pc u = .lockPark m ∧ (s.queues.Due (.mutex m) u ∨ 0 < s.queues.signals u)

/-- A thread inside `Mutex::lock` is on the queue. -/
def State.Waits (s : State Thread) (m : ℕ) (t : Thread) : Prop :=
  s.queues.Linked (.mutex m) t ∧ (s.pc t).InLock m

/-- What keeps those who wait for a mutex from being forgotten: who parks is promised a signal, and
while the mutex is free somebody comes for those who wait. -/
structure State.Minded (s : State Thread) (m : ℕ) : Prop where
  promised : ∀ t, s.pc t = .lockPark m ∨ s.pc t = .lockRetry m ∧
    (s.queues.op t = .idle ∨ s.queues.op t = .pushUnlock (.mutex m)) →
    s.queues.Promised (.mutex m) t
  rescued : s.mem.state m = 0 → (∃ t, s.Waits m t) → ∃ u, s.Rescues m u

section Next

variable (h : s.Minded m) (htidy : s.queues.Tidy) (hcalling : s.Calling)
  (hok : s.LocksSafely m (t, e)) (hn : s.next (t, e) = some s')
include h htidy hcalling hok hn

theorem State.Minded.promised_next (u : Thread) (hu : s'.pc u = .lockPark m ∨
    s'.pc u = .lockRetry m ∧
      (s'.queues.op u = .idle ∨ s'.queues.op u = .pushUnlock (.mutex m))) :
    s'.queues.Promised (.mutex m) u := by
  refine State.awaits_next htidy hcalling hok.1 hok.2.1 hn (fun x hx hop => h.promised x ?_) u ?_ ?_
  · obtain hpc | hpc := Pc.awaits_mutex.mp hx
    · exact .inr ⟨hpc, hop⟩
    · exact .inl hpc
  · exact Pc.awaits_mutex.mpr (hu.symm.imp_left And.left)
  · obtain hpc | ⟨-, hop⟩ := hu
    · refine .inl ((hcalling.next hn).idle fun a => ?_)
      rw [hpc]
      exact id
    · exact hop

omit h hcalling hn in
/-- A pop that goes on comes to a thread that waits, if one does. -/
theorem State.Minded.rescued_of_pop {queues : Queues Thread Place}
    (hact : s.queues.act (t, .go) = some queues) (hfree : s.mem.state m = 0)
    (hpops : (s.queues.op t).PopsNext (.mutex m)) (hx : s.Waits m x)
    (hx' : queues.Linked (.mutex m) x) : ∃ u, State.Rescues ⟨queues, s.mem, s.pc⟩ m u := by
  obtain ⟨hlocked, home, hplaced⟩ := htidy
  have hgoes := Queues.goes_of_go hact
  generalize ho : s.queues.op t = o at hgoes hpops
  cases hgoes with
  | popSpin => exact ⟨t, .inl (by dsimp only; rw [ho]; exact hpops)⟩
  | popLock | popLoad | popNext | popClear =>
    exact ⟨t, .inl (by dsimp only; rw [goTo_op]; exact hpops)⟩
  | popNone hnone =>
    obtain rfl := hpops
    have hlinked := hx.1
    rw [Queues.Linked, hnone] at hlinked
    exact absurd hlinked not_from_none
  | @popStore q head next =>
    obtain rfl := hpops
    obtain hin | hnobody := hok.2.2 head next ho hfree
    · -- the thread that was popped will try
      refine ⟨head, .inr ?_⟩
      obtain hpc | hpc | hpc := hin
      · exact .inl (.inl ⟨_, hpc⟩)
      · exact .inl (.inr hpc)
      · exact .inr ⟨hpc, .inl (hplaced.popped hlocked hok.1 hact ho).2.2⟩
    · refine absurd hx.2 (hnobody x hx.1 ?_)
      rintro rfl
      exact (hplaced.popped hlocked hok.1 hact ho).2.1 hx'
  | _ => exact hpops.elim

omit htidy hcalling hok hn in
/-- A step outside the queues leaves somebody to come. -/
theorem State.Minded.rescued_of_does {queues : Queues Thread Place} (hidle : s.queues.op t = .idle)
    (hdoes : Does s.mem t (s.pc t) e eff) (hfree' : eff.mem.state m = 0)
    (hlinked : ∀ x, queues.Linked (.mutex m) x → s.queues.Linked (.mutex m) x)
    (hop : ∀ u, u ≠ t → queues.op u = s.queues.op u)
    (hcoming : ∀ u, u ≠ t → s.queues.Due (.mutex m) u ∨ 0 < s.queues.signals u →
      queues.Due (.mutex m) u ∨ 0 < queues.signals u)
    (hpop : eff.queue = some (.pop (.mutex m)) → queues.op t = .popLock (.mutex m))
    (hx : State.Waits ⟨queues, eff.mem, Function.update s.pc t eff.pc⟩ m x) :
    ∃ u, State.Rescues ⟨queues, eff.mem, Function.update s.pc t eff.pc⟩ m u := by
  have htries : eff.pc.Tries m →
      ∃ u, State.Rescues ⟨queues, eff.mem, Function.update s.pc t eff.pc⟩ m u := fun htries =>
    ⟨t, .inr (.inl (by dsimp only; rw [Function.update_self]; exact htries))⟩
  have hother : ∀ u, u ≠ t → Function.update s.pc t eff.pc u = s.pc u := fun u hu =>
    Function.update_of_ne hu ..
  obtain ⟨hstate, -⟩ | ⟨-, -, htaken, -⟩ | ⟨-, hqueue, -, -⟩ := hdoes.mutex m
  · have hfree : s.mem.state m = 0 := hstate ▸ hfree'
    by_cases hnew : x = t ∧ ¬ (s.pc t).InLock m
    · obtain ⟨rfl, hout⟩ := hnew
      have hin := hx.2
      dsimp only at hin
      rw [Function.update_self] at hin
      exact htries (.inl ⟨_, (hdoes.inLock hin).resolve_left hout⟩)
    · have hwaits : s.Waits m x := by
        refine ⟨hlinked x hx.1, ?_⟩
        by_cases hxt : x = t
        · rw [hxt]
          exact not_not.mp fun hout => hnew ⟨hxt, hout⟩
        · rw [← hother x hxt]
          exact hx.2
      obtain ⟨u, hu⟩ := h.rescued hfree ⟨x, hwaits⟩
      by_cases hut : u = t
      · subst hut
        obtain hpops | htry | ⟨hpc, -⟩ := hu
        · rw [hidle] at hpops
          exact hpops.elim
        · exact absurd hfree' (hdoes.state_of_tries htry hfree)
        · rw [hpc] at hdoes
          cases hdoes
          exact htries (.inl ⟨_, rfl⟩)
      · refine ⟨u, ?_⟩
        rw [State.Rescues, hop u hut]
        dsimp only
        rw [hother u hut]
        exact hu.imp_right (.imp_right fun ⟨hpc, hc⟩ => ⟨hpc, hcoming u hut hc⟩)
  · exact absurd hfree' htaken
  · exact ⟨t, .inl (by dsimp only; rw [hpop hqueue]; rfl)⟩

theorem State.Minded.rescued_next (hfree' : s'.mem.state m = 0) (hwaits' : ∃ x, s'.Waits m x) :
    ∃ u, s'.Rescues m u := by
  obtain ⟨x, hlinked', hin'⟩ := hwaits'
  have htidy' := htidy
  obtain ⟨hlocked, home, hplaced⟩ := htidy
  cases step_of_next hn with
  | queue hbusy hact =>
    obtain hlinked | ⟨-, rfl, hop⟩ :=
      hplaced.linked_of_next (a := .go) hlocked hok.1 hact hlinked'
    · obtain ⟨u, hpops | htries | ⟨hpc, hcoming⟩⟩ := h.rescued hfree' ⟨x, hlinked, hin'⟩
      · by_cases hu : u = t
        · subst hu
          exact rescued_of_pop htidy' hok hact hfree' hpops ⟨hlinked, hin'⟩ hlinked'
        · exact ⟨u, .inl (by rw [Queues.op_of_ne hact hu]; exact hpops)⟩
      · exact ⟨u, .inr (.inl htries)⟩
      · exact ⟨u, .inr (.inr ⟨hpc,
          hplaced.due_or_signal_next (a := .go) hlocked hok.1 hact (by simp) hcoming⟩)⟩
    · -- a thread that links itself is trying
      have hcalls := hcalling t (.push (.mutex m)) (by rw [hop]; rfl)
      refine ⟨t, .inr (.inl (.inr ?_))⟩
      obtain hin | hin | hin := hin' <;> dsimp only at hin <;> rw [hin] at hcalls
      · exact hcalls.elim
      · exact hin
      · exact hcalls.elim
  | does hidle hdoes =>
    exact h.rescued_of_does hidle hdoes hfree' (fun _ => id) (fun _ _ => rfl)
      (fun _ _ => id) (fun hq => by simp at hq) ⟨hlinked', hin'⟩
  | @calls _ _ _ a _ hidle hdoes hact =>
    refine h.rescued_of_does hidle hdoes hfree' (fun y hy => ?_)
      (fun u hu => Queues.op_of_ne hact hu) (fun u hu => ?_) (fun hq => ?_) ⟨hlinked', hin'⟩
    · refine (hplaced.linked_of_next hlocked hok.1.act hact hy).resolve_right ?_
      rintro ⟨-, rfl, hop⟩
      rw [hidle] at hop
      simp at hop
    · exact hplaced.due_or_signal_next hlocked hok.1.act hact fun h => hu h.1.symm
    · obtain rfl := Option.some.inj hq
      rw [Queues.act, if_pos hidle] at hact
      obtain rfl := Option.some.inj hact
      exact goTo_op ..

end Next

theorem minded_of_run (h : (threadSystem Thread).Reach (fun s e => s.LocksSafely m e) s) :
    s.Minded m := by
  refine EventSystem.Reach.invariant_of (I := fun s => s.Minded m)
    (J := fun s => s.queues.Tidy ∧ s.Calling)
    (fun s hs => ⟨tidy_of_run (fun _ ⟨_, _⟩ hok => hok.1) hs, calls_of_run hs⟩) ?_ ?_ h
  · rintro _ ⟨count, rfl⟩
    refine ⟨fun t ht => ?_, fun _ ⟨t, ht, hin⟩ => ?_⟩
    · simp at ht
    · simp [Pc.InLock] at hin
  · rintro s ⟨t, e⟩ s' ⟨htidy, hcalling⟩ hI hok hn
    exact ⟨hI.promised_next htidy hcalling hok hn, hI.rescued_next htidy hcalling hok hn⟩

/-- A thread is in the middle of an operation on a mutex: it works on its queue, tries, unlocks, or
has been woken. -/
def State.Busy (s : State Thread) (m : ℕ) (u : Thread) : Prop :=
  (s.queues.op u).place = some (.mutex m) ∨ (s.pc u).Tries m ∨
    (∃ wait, s.pc u = .unlockStore m wait) ∨ s.pc u = .lockPark m ∧ 0 < s.queues.signals u

/-- **Mutexes.** In every run one thread at most holds a mutex. And in every run that meets the
condition, no thread is left parked without a signal in the lock of a mutex that is free and that
nobody is busy with. -/
theorem mutex_safe (Thread : Type) [DecidableEq Thread] (m : ℕ) :
    (∀ s, (threadSystem Thread).Reachable s → ∀ t u, s.mem.holds m t = true →
      s.mem.holds m u = true → t = u) ∧
    ∀ s, (threadSystem Thread).Reach (fun s e => s.LocksSafely m e) s → s.mem.state m = 0 →
      (∀ u, ¬ s.Busy m u) → ∀ t, s.pc t = .lockPark m → 0 < s.queues.signals t := by
  refine ⟨fun s hs t u ht hu => (held_of_run hs m).holder.unique ht hu, fun s hs hfree hnone t ht => ?_⟩
  have hminded := minded_of_run hs
  have hdue : ∀ x, ¬ s.queues.Due (.mutex m) x := fun x ⟨v, hplace, _⟩ => hnone v (.inl hplace)
  obtain hlinked | hdone | hsignal := hminded.promised t (.inl ht)
  · obtain ⟨u, hpops | htries | ⟨hpc, hcoming⟩⟩ :=
      hminded.rescued hfree ⟨t, hlinked, .inr (.inr ht)⟩
    · exact absurd (.inl hpops.place) (hnone u)
    · exact absurd (.inr (.inl htries)) (hnone u)
    · exact absurd (.inr (.inr (.inr ⟨hpc, hcoming.resolve_left (hdue u)⟩))) (hnone u)
  · exact absurd hdone (hdue t)
  · exact hsignal

/-! ### Two threads -/

/-- A thread that links itself is the only one at work on a queue and finds its flag clear, and
a pop takes a thread that waits in the lock of mutex 0. -/
def locksCalmly (s : State (Fin 2)) : Fin 2 × Event → Bool
  | (t, _) => match s.queues.op t with
    | .pushSwap _ => decide (s.queues.queued t ≠ 1 ∧ ∀ u, u ≠ t → s.queues.op u = .idle)
    | .popStore _ head _ => decide (s.pc head = .lockPark 0)
    | _ => true

theorem locksSafely_of_calmly {s : State (Fin 2)} {e : Fin 2 × Event} (h : locksCalmly s e = true) :
    s.LocksSafely 0 e := by
  obtain ⟨t, e⟩ := e
  refine ⟨linksSafely_of_alone fun q hop => ?_, fun hop hflag => ?_, fun head next hop _ => ?_⟩ <;>
    rw [locksCalmly, hop] at h
  · exact (of_decide_eq_true h).2
  · exact absurd hflag (of_decide_eq_true h).1
  · exact .inl (.inr (.inr (of_decide_eq_true h)))

theorem not_busy_of_out {s : State (Fin 2)} {m : ℕ} (hidle : ∀ u, s.queues.op u = .idle)
    {u : Fin 2} (hout : s.pc u = .out ∨ s.pc u = .lockPark m ∧ s.queues.signals u = 0) :
    ¬ s.Busy m u := by
  rintro (hplace | htries | ⟨wait, hpc⟩ | ⟨hpc, hsignal⟩)
  · rw [hidle] at hplace
    simp [Op.place] at hplace
  · obtain hpc | ⟨hpc, -⟩ := hout <;> simp [Pc.Tries, hpc] at htries
  · obtain hpc' | ⟨hpc', -⟩ := hout <;> simp [hpc'] at hpc
  · obtain hpc' | ⟨hpc', hno⟩ := hout
    · simp [hpc'] at hpc
    · omega

theorem mutex_safe_handover : ∃ s, (threadSystem (Fin 2)).Reach (fun s e => s.LocksSafely 0 e) s ∧
    (∀ t u, s.mem.holds 0 t = true → s.mem.holds 0 u = true → t = u) ∧
    ∀ t, s.pc t = .lockPark 0 → 0 < s.queues.signals t := by
  -- thread 1 waits for thread 0, which unlocks and wakes it, and then unlocks as well
  obtain ⟨s, hs, hp⟩ : ∃ s, (threadSystem (Fin 2)).Reach (fun s e => s.LocksSafely 0 e) s ∧
      decide (s.mem.state 0 = 0 ∧ (∀ u, s.pc u = .out) ∧ ∀ u, s.queues.op u = .idle) = true :=
    EventSystem.Reach.exists_of_runIf (b := locksCalmly) (fun _ _ => locksSafely_of_calmly)
      ((0, .call (.lock 0 .wait)) :: goes 0 1 ++ (1, .call (.lock 0 .wait)) :: goes 1 8 ++
        (0, .call (.unlock 0)) :: goes 0 8 ++ goes 1 2 ++ (1, .call (.unlock 0)) :: goes 1 4)
      ⟨fun _ => 0, rfl⟩ (by decide +kernel)
  obtain ⟨hfree, hout, hidle⟩ := of_decide_eq_true hp
  refine ⟨s, hs, (mutex_safe _ 0).1 s (hs.mono fun _ _ _ => trivial), ?_⟩
  exact (mutex_safe _ 0).2 s hs hfree fun u => not_busy_of_out hidle (.inl (hout u))

/-- Thread 0 waits for a condition variable and its deadline passes, so it stays on that queue.
Thread 1 has the mutex by then. Thread 0 waits for it, but its flag is set and it is not on the
queue of the mutex when thread 1 unlocks. -/
theorem mutex_strands : ¬ ∀ (s : State (Fin 2)), (threadSystem (Fin 2)).Reachable s →
    s.mem.state 0 = 0 → (∀ u, ¬ s.Busy 0 u) → ∀ t, s.pc t = .lockPark 0 → 0 < s.queues.signals t := by
  intro h
  obtain ⟨s, hs, hp⟩ : ∃ s, (threadSystem (Fin 2)).Reachable s ∧
      decide (s.mem.state 0 = 0 ∧ s.pc 0 = .lockPark 0 ∧ s.pc 1 = .out ∧ s.queues.signals 0 = 0 ∧
        ∀ u, s.queues.op u = .idle) = true :=
    EventSystem.Reachable.exists_of_run
      ((0, .call (.lock 0 .wait)) :: goes 0 1 ++ (0, .call (.condWait 0 0 true)) :: goes 0 10 ++
        (1, .call (.lock 0 .wait)) :: goes 1 1 ++ (0, .expire) :: goes 0 5 ++
        (1, .call (.unlock 0)) :: goes 1 4)
      ⟨fun _ => 0, rfl⟩ (by decide +kernel)
  obtain ⟨hfree, h0, h1, hsignals, hidle⟩ := of_decide_eq_true hp
  have hout : ∀ u, s.pc u = .out ∨ s.pc u = .lockPark 0 ∧ s.queues.signals u = 0 := by
    intro u
    obtain rfl | rfl : u = 0 ∨ u = 1 := by omega
    · exact .inr ⟨h0, hsignals⟩
    · exact .inl h1
  have := h s hs hfree (fun u => not_busy_of_out hidle (hout u)) 0 h0
  omega

end Threads

end StarOS
