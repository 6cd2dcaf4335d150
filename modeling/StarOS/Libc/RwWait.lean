import StarOS.Libc.RwLock

/-!
# Waiting for read-write locks

A thread that finds a lock taken puts itself on its queue, looks once more, and parks; who unlocks,
or backs out as a writer, takes the whole queue and unparks it. A reader that backs out wakes
nobody, but in `read_lock` it looks at the flag again, so it comes into the lock or waits for a
writer that will take the queue.

A reader that only tries does not look again. When a writer has seen it and parks, and it was the
last one, nobody wakes the writer.

## Main definitions

* `Threads.State.BacksSafely` — the condition on a step
* `Threads.State.Obliged` — a thread will take the queue, or wait for one that will

## Main results

* `Threads.rwlock_safe`
-/

namespace StarOS

namespace Threads

variable {Thread : Type} [DecidableEq Thread] {s s' : State Thread} {t u x : Thread} {e : Event}
  {l : ℕ} {mem : Memory Thread} {p : Pc} {eff : Effect Thread}

/-! ### Who comes -/

/-- A thread is parked for a lock. -/
def Pc.RwParked (l : ℕ) (p : Pc) : Prop := p = .readPark l ∨ p = .writePark l

/-- The places in `read_lock` of a thread that is not counted and has to look at the flag. -/
def Pc.InRead (l : ℕ) (p : Pc) : Prop :=
  p = .readCheck l ∨ p = .readLook l .wait ∨ p = .readAdd l .wait

/-- The places of a take before it has taken the queue. -/
def Op.TakesNext (q : Place) : Op Thread Place → Prop
  | .takeLock q' | .takeSwap q' => q' = q
  | _ => False

omit [DecidableEq Thread] in
theorem Op.TakesNext.place {o : Op Thread Place} {q : Place} (h : o.TakesNext q) :
    o.place = some q := by
  cases o <;> first | exact h.elim | exact congrArg some h

/-- A thread will take the queue of a lock, or wait for one that will: it is about to take it, has
the flag, is counted as a reader, or is in `read_lock`. -/
def State.Obliged (s : State Thread) (l : ℕ) (u : Thread) : Prop :=
  (s.queues.op u).TakesNext (.rwlock l) ∨ s.mem.Flagged l u (s.pc u) ∨
    s.mem.share l u (s.pc u) ≠ 0 ∨ (s.pc u).InRead l

/-- **The condition on a step.** A thread that links itself is on no list that is still walked; a
thread that pushes itself on the lock's queue and finds its flag set is on this queue, or was just
taken off it; the readers do not wrap; and a try or a timed call that backs out as the last reader
while the writer flag is clear finds nobody parked on the queue. -/
def State.BacksSafely (s : State Thread) (l : ℕ) : Thread × Event → Prop
  | (t, e) => s.LinksSafely (t, e) ∧
    (s.queues.op t = .pushSwap (.rwlock l) → s.queues.queued t = 1 →
      s.queues.Linked (.rwlock l) t ∨ s.queues.Due (.rwlock l) t) ∧
    s.Room l (t, e) ∧
    ∀ how, how ≠ .wait → s.pc t = .readBack l how → s.mem.readers l = 1 → s.mem.writer l = 0 →
      ∀ x, s.queues.Linked (.rwlock l) x → ¬ (s.pc x).RwParked l

/-- A thread parks when it has seen the flag set, or a reader. -/
theorem Does.rwPark (h : Does mem t p e eff) (hp : eff.pc.RwParked l) :
    eff.mem = mem ∧ (mem.writer l ≠ 0 ∨ mem.readers l ≠ 0) := by
  cases h
  case retry attempt => cases attempt <;> simp [Attempt.pc, Pc.RwParked] at hp
  case lockFails _ how _ | semNone _ how _ | semFails _ _ how _ _ | readTaken _ how _ | writeTaken _ how _
      | readBack _ how =>
    cases how <;> simp [How.fail, Pc.RwParked] at hp
  case readParks l' hset | writeSees l' hset =>
    obtain rfl : l' = l := by simpa [Pc.RwParked] using hp
    exact ⟨rfl, .inl hset⟩
  case writeParks l' hsome =>
    obtain rfl : l' = l := by simpa [Pc.RwParked] using hp
    exact ⟨rfl, .inr hsome⟩
  all_goals simp [Pc.RwParked] at hp

/-- A thread in `read_lock` goes on there, unless it sees the flag set. -/
theorem Does.inRead (h : Does mem t p e eff) (hp : p.InRead l) :
    eff.pc.InRead l ∨ eff.mem.share l t eff.pc ≠ 0 ∨ mem.writer l ≠ 0 ∧ eff.mem = mem := by
  obtain rfl | rfl | rfl := hp
  · cases h with
    | readParks hset => exact .inr (.inr ⟨hset, rfl⟩)
    | readAgain => exact .inl (.inr (.inl rfl))
  · cases h with
    | readFree => exact .inl (.inr (.inr rfl))
    | readTaken => exact .inl (.inl rfl)
  · cases h with
    | readAdd => exact .inr (.inl (by simp [Memory.share, Pc.Announced]))

theorem Does.backOut {how : How} (h : Does mem t (.readBack l how) e eff) :
    (how = .wait → eff.pc = .readCheck l) ∧ eff.mem.readers l = mem.readers l - 1 ∧
      eff.mem.writer l = mem.writer l := by
  cases h
  cases how <;> simp [How.fail, Memory.setReaders]

theorem Does.leave (h : Does mem t (.readerLeave l) e eff) :
    eff.queue = some (.take (.rwlock l)) := by
  cases h
  rfl

/-- What keeps those who wait for a lock from being forgotten: who parks is promised a signal, and
while one is parked on the queue, somebody comes. -/
structure State.Heeded (s : State Thread) (l : ℕ) : Prop where
  promised : ∀ t, (s.pc t).awaits = some (.rwlock l) →
    s.queues.op t = .idle ∨ s.queues.op t = .pushUnlock (.rwlock l) →
    s.queues.Promised (.rwlock l) t
  obliged : (∃ x, s.queues.Linked (.rwlock l) x ∧ (s.pc x).RwParked l) → ∃ u, s.Obliged l u

section Next

variable (h : s.Heeded l) (htidy : s.queues.Tidy) (hcalling : s.Calling) (hguarded : s.Guarded l)
  (hguarded' : s'.Guarded l) (hok : s.BacksSafely l (t, e)) (hn : s.next (t, e) = some s')

include hguarded' in
/-- Somebody comes while the flag is set or there are readers. -/
theorem State.Guarded.exists_obliged (hset : s'.mem.writer l ≠ 0 ∨ s'.mem.readers l ≠ 0) :
    ∃ u, s'.Obliged l u := by
  obtain hset | hsome := hset
  · obtain ⟨u, hu⟩ := hguarded'.flag.exists_mem hset
    exact ⟨u, .inr (.inl hu)⟩
  · obtain ⟨u, hu⟩ := hguarded'.exists_share hsome
    exact ⟨u, .inr (.inr (.inl hu))⟩

include hn in
theorem State.Obliged.next_of_ne (hu : u ≠ t) (ho : s.Obliged l u) : s'.Obliged l u := by
  rw [Obliged, op_of_ne hn hu, pc_of_ne hn hu]
  obtain ⟨hmem, -⟩ | ⟨eff, hdoes, hmem, -⟩ := mem_next hn
  · rw [hmem]
    exact ho
  · rw [hmem, Memory.Flagged, Memory.share, (hdoes.others l hu).1, (hdoes.others l hu).2]
    exact ho

include hn in
/-- A thread in the middle of an operation on a queue still comes, unless it takes the queue. -/
theorem State.Obliged.next_of_busy (hbusy : s.queues.op t ≠ .idle)
    (hlinked : s.queues.Linked (.rwlock l) x) (hlinked' : s'.queues.Linked (.rwlock l) x)
    (ho : s.Obliged l t) : s'.Obliged l t := by
  obtain ⟨-, hmem, hpc, hact⟩ := go_of_busy hn hbusy
  rw [Obliged, hmem, hpc]
  refine ho.imp_left fun htakes => ?_
  have hgoes := Queues.goes_of_go hact
  generalize ho : s.queues.op t = o at hgoes htakes
  generalize s'.queues = queues at hgoes hlinked'
  cases hgoes with
  | takeSpin =>
    rw [ho]
    exact htakes
  | takeLock =>
    rw [goTo_op]
    exact htakes
  | takeNone hnone =>
    obtain rfl := htakes
    rw [Queues.Linked, hnone] at hlinked
    exact absurd hlinked Links.not_from_none
  | takeSwap =>
    -- nobody is left on the queue
    obtain rfl := htakes
    simp only [Queues.Linked, Queues.goTo, Queues.setHead, Function.update_self] at hlinked'
    exact absurd hlinked' Links.not_from_none
  | _ => exact htakes.elim

include hguarded hguarded' hok hn in
/-- What the next step of its call makes of a thread that comes. -/
theorem State.Obliged.next_of_idle (hidle : s.queues.op t = .idle)
    (hlinked : s.queues.Linked (.rwlock l) x) (hpark : (s.pc x).RwParked l)
    (ho : s.Obliged l t) : ∃ u, s'.Obliged l u := by
  obtain ⟨eff, hdoes, hmem, hpc, -, hsome⟩ := does_of_idle hn hidle
  have htakes : eff.queue = some (.take (.rwlock l)) → ∃ u, s'.Obliged l u := fun hqueue => by
    have hact := hsome _ hqueue
    rw [Queues.act, if_pos hidle] at hact
    refine ⟨t, .inl ?_⟩
    rw [← Option.some.inj hact, goTo_op]
    rfl
  have hself : eff.mem.Flagged l t eff.pc ∨ eff.mem.share l t eff.pc ≠ 0 ∨ eff.pc.InRead l →
      ∃ u, s'.Obliged l u := fun hself => by
    refine ⟨t, .inr ?_⟩
    rw [hmem, hpc, Function.update_self]
    exact hself
  obtain htake | hflagged | hshare | hin := ho
  · rw [hidle] at htake
    exact htake.elim
  · obtain ⟨-, hside⟩ | ⟨-, -, hin⟩ | ⟨-, -, hqueue, -⟩ := hdoes.writer l
    · exact hself (.inl (hside.mpr hflagged))
    · exact hself (.inl hin)
    · exact htakes hqueue
  · obtain ⟨-, heq⟩ | ⟨how, -, -, heq⟩ | ⟨hp, -, -⟩ := hdoes.readers l
    · exact hself (.inr (.inl (by rwa [heq])))
    · exact hself (.inr (.inl (by omega)))
    · obtain hp | ⟨how, hp⟩ := hp
      · rw [hp] at hdoes
        exact htakes hdoes.leave
      · have hback := hok.2.2.2 how
        have hone := hguarded.readers_pos hshare
        rw [hp] at hdoes
        obtain ⟨hwait, hreaders, hwriter⟩ := hdoes.backOut
        by_cases hhow : how = .wait
        · exact hself (.inr (.inr (.inl (hwait hhow))))
        · -- others are counted, or have the flag, or nobody is parked
          refine hguarded'.exists_obliged ?_
          rw [hmem, hreaders, hwriter]
          by_cases hzero : s.mem.writer l = 0
          · refine .inr fun hlast => ?_
            refine hback hhow hp ?_ hzero x hlinked hpark
            have hlast := congrArg BitVec.toNat hlast
            rw [BitVec.toNat_sub_of_le hone] at hlast
            refine BitVec.eq_of_toNat_eq ?_
            change (s.mem.readers l).toNat - 1 = 0 at hlast
            show (s.mem.readers l).toNat = 1
            omega
          · exact .inl hzero
  · obtain hin' | hshare' | ⟨hset, heq⟩ := hdoes.inRead hin
    · exact hself (.inr (.inr hin'))
    · exact hself (.inr (.inl hshare'))
    · refine hguarded'.exists_obliged (.inl ?_)
      rw [hmem, heq]
      exact hset

include h htidy hcalling hguarded hguarded' hok hn

theorem State.Heeded.obliged_next
    (hwaits' : ∃ x, s'.queues.Linked (.rwlock l) x ∧ (s'.pc x).RwParked l) :
    ∃ u, s'.Obliged l u := by
  obtain ⟨x, hlinked', hpark'⟩ := hwaits'
  have hlinked : s.queues.Linked (.rwlock l) x ∨ s.queues.op x = .pushHead (.rwlock l) :=
    (linked_of_next htidy hok.1 hn hlinked').imp_right And.right
  by_cases hidle : s.queues.op t = .idle
  · obtain ⟨eff, hdoes, hmem, hpc, -⟩ := does_of_idle hn hidle
    by_cases hxt : x = t
    · -- it has just parked
      subst hxt
      rw [hpc, Function.update_self] at hpark'
      obtain ⟨heq, hset⟩ := hdoes.rwPark hpark'
      exact hguarded'.exists_obliged (by rwa [hmem, heq])
    · rw [pc_of_ne hn hxt] at hpark'
      have hlinked := (linked_of_next htidy hok.1 hn hlinked').resolve_right fun h => hxt h.1.symm
      obtain ⟨u, hu⟩ := h.obliged ⟨x, hlinked, hpark'⟩
      by_cases hut : u = t
      · subst hut
        exact hu.next_of_idle hguarded hguarded' hok hn hidle hlinked hpark'
      · exact ⟨u, hu.next_of_ne hn hut⟩
  · obtain ⟨rfl, hmem, hpc, -⟩ := go_of_busy hn hidle
    rw [hpc] at hpark'
    have hlinked : s.queues.Linked (.rwlock l) x := by
      refine hlinked.resolve_right fun hop => ?_
      have hcalls := hcalling x (.push (.rwlock l)) (by rw [hop]; rfl)
      obtain hp | hp := hpark' <;> rw [hp] at hcalls <;> exact hcalls
    obtain ⟨u, hu⟩ := h.obliged ⟨x, hlinked, hpark'⟩
    by_cases hut : u = t
    · subst hut
      exact ⟨u, hu.next_of_busy hn hidle hlinked hlinked'⟩
    · exact ⟨u, hu.next_of_ne hn hut⟩

end Next

theorem heeded_of_run (h : (threadSystem Thread).Reach (fun s e => s.BacksSafely l e) s) :
    s.Heeded l := by
  have hroom : ∀ (s : State Thread) e, s.BacksSafely l e → s.Room l e :=
    fun s ⟨_, _⟩ hok => hok.2.2.1
  refine EventSystem.Reach.invariant_of (I := fun s => s.Heeded l)
    (J := fun s => s.queues.Tidy ∧ s.Calling ∧ s.Guarded l)
    (fun s hs => ⟨tidy_of_run (fun _ ⟨_, _⟩ hok => hok.1) hs, calls_of_run hs,
      guarded_of_run hroom hs⟩) ?_ ?_ h
  · rintro _ ⟨count, rfl⟩
    refine ⟨fun t ht => by simp [Pc.awaits] at ht, fun ⟨t, _, ht⟩ => ?_⟩
    simp [Pc.RwParked] at ht
  · rintro s ⟨t, e⟩ s' ⟨htidy, hcalling, hguarded⟩ hI hok hn
    exact ⟨State.awaits_next htidy hcalling hok.1 hok.2.1 hn hI.promised,
      hI.obliged_next htidy hcalling hguarded (hguarded.next hok.2.2.1 hn) hok hn⟩

/-! ### The main result -/

/-- The places in the calls of a lock. -/
def Pc.InRw (l : ℕ) : Pc → Prop
  | .readLook l' _ | .readAdd l' _ | .readRelook l' _ | .readBack l' _ | .readCheck l' | .readPark l'
  | .writeClaim l' _ | .writeLook l' _ | .writeOwn l' | .writeBack l' _ | .writePush l'
  | .writeCheck l' | .writeRecheck l' | .writePark l' | .unlockOwner l' | .unlockWriter l'
  | .clearOwner l' | .clearWriter l' | .readerLeave l' => l' = l
  | _ => False

/-- A thread is in the middle of an operation on a lock: it works on its queue, or is in a call and
not parked, or has been woken. -/
def State.BusyRw (s : State Thread) (l : ℕ) (u : Thread) : Prop :=
  (s.queues.op u).place = some (.rwlock l) ∨
    (s.pc u).InRw l ∧ ((s.pc u).RwParked l → 0 < s.queues.signals u)

/-- **Read-write locks.** In every run whose readers do not wrap, a writer has the lock alone, and
no reader is counted off where there is none. And in every run that meets the condition, no thread
is left parked without a signal for a lock that nobody holds and nobody is busy with. -/
theorem rwlock_safe (Thread : Type) [DecidableEq Thread] (l : ℕ) :
    (∀ s, (threadSystem Thread).Reach (fun s e => s.Room l e) s →
      (∀ t, s.mem.writes l t = true → ∀ u, (s.mem.writes l u = true → u = t) ∧ s.mem.reads l u = 0) ∧
      ∀ t, (s.pc t = .readerLeave l ∨ ∃ how, s.pc t = .readBack l how) → s.mem.readers l ≠ 0) ∧
    ∀ s, (threadSystem Thread).Reach (fun s e => s.BacksSafely l e) s →
      (∀ u, s.mem.writes l u = false ∧ s.mem.reads l u = 0) → (∀ u, ¬ s.BusyRw l u) →
      ∀ t, (s.pc t).RwParked l → 0 < s.queues.signals t := by
  refine ⟨fun s hs => ?_, fun s hs hfree hnone t ht => ?_⟩
  · have hguarded := guarded_of_run (fun _ _ hok => hok) hs
    refine ⟨fun t ht u => ⟨fun hu => hguarded.flag.unique (.inr hu) (.inr ht),
      hguarded.alone t (.inr ht) u⟩, fun t ht hzero => ?_⟩
    have hshare := hguarded.share_of_none hzero t
    have hknows := hguarded.knows t
    obtain hp | ⟨how, hp⟩ := ht <;> rw [hp] at hshare hknows
    · have := hknows rfl
      rw [Memory.share] at hshare
      omega
    · simp [Memory.share, Pc.Announced] at hshare
  · have hheeded := heeded_of_run hs
    have hcalling := calls_of_run hs
    have hdue : ∀ x, ¬ s.queues.Due (.rwlock l) x := by
      rintro x ⟨v, hplace, -⟩
      exact hnone v (.inl hplace)
    have hawaits : (s.pc t).awaits = some (.rwlock l) := by
      obtain hp | hp := ht <;> rw [hp] <;> rfl
    have hidle : s.queues.op t = .idle := hcalling.idle fun a => by
      obtain hp | hp := ht <;> rw [hp] <;> exact id
    obtain hlinked | hdone | hsignal := hheeded.promised t hawaits (.inl hidle)
    · obtain ⟨u, htakes | hflagged | hshare | hin⟩ := hheeded.obliged ⟨t, hlinked, ht⟩
      · exact absurd (.inl htakes.place) (hnone u)
      · have hclaims := hflagged.resolve_right (by simp [(hfree u).1])
        refine absurd (.inr ?_) (hnone u)
        cases hp : s.pc u <;> rw [hp] at hclaims <;> simp [Pc.Claims] at hclaims <;>
          exact ⟨hclaims, by simp [Pc.RwParked]⟩
      · rw [Memory.share, (hfree u).2] at hshare
        refine absurd (.inr ?_) (hnone u)
        cases hp : s.pc u <;> rw [hp] at hshare <;> simp [Pc.Announced] at hshare <;>
          exact ⟨hshare, by simp [Pc.RwParked]⟩
      · refine absurd (.inr ?_) (hnone u)
        obtain hp | hp | hp := hin <;> rw [hp] <;> exact ⟨rfl, by simp [Pc.RwParked]⟩
    · exact absurd hdone (hdue t)
    · exact hsignal

/-! ### Two threads -/

/-- A thread that links itself is the only one at work on a queue and finds its flag clear, there
are few readers, and no reader backs out. -/
def backsCalmly (s : State (Fin 2)) : Fin 2 × Event → Bool
  | (t, _) => decide ((s.mem.readers 0).toNat + 1 < 2 ^ 32) && match s.queues.op t, s.pc t with
    | _, .readBack _ _ => false
    | .pushSwap _, _ => decide (s.queues.queued t ≠ 1 ∧ ∀ u, u ≠ t → s.queues.op u = .idle)
    | _, _ => true

theorem backsSafely_of_calmly {s : State (Fin 2)} {e : Fin 2 × Event} (h : backsCalmly s e = true) :
    s.Room 0 e ∧ s.BacksSafely 0 e := by
  obtain ⟨t, e⟩ := e
  rw [backsCalmly, Bool.and_eq_true] at h
  obtain ⟨hroom, h⟩ := h
  have hback : ∀ l how, s.pc t ≠ .readBack l how := fun l how hpc => by
    rw [hpc] at h
    cases s.queues.op t <;> simp at h
  have hpush : ∀ q, s.queues.op t = .pushSwap q →
      s.queues.queued t ≠ 1 ∧ ∀ u, u ≠ t → s.queues.op u = .idle := fun q hop => by
    rw [hop] at h
    cases hpc : s.pc t
    case readBack l how => exact absurd hpc (hback l how)
    all_goals
      rw [hpc] at h
      exact of_decide_eq_true h
  refine ⟨fun _ _ => of_decide_eq_true hroom, linksSafely_of_alone fun q hop => (hpush q hop).2,
    fun hop hflag => ?_, fun _ _ => of_decide_eq_true hroom, fun how _ hpc => ?_⟩
  · exact absurd hflag (hpush _ hop).1
  · exact absurd hpc (hback 0 how)

theorem not_busyRw_of_out {s : State (Fin 2)} (hidle : ∀ u, s.queues.op u = .idle) {u : Fin 2}
    (hout : s.pc u = .out ∨ s.pc u = .writePark 0 ∧ s.queues.signals u = 0) : ¬ s.BusyRw 0 u := by
  rintro (hplace | ⟨hin, hsignal⟩)
  · rw [hidle] at hplace
    simp [Op.place] at hplace
  · obtain hpc | ⟨hpc, hno⟩ := hout
    · rw [hpc] at hin
      exact hin
    · have := hsignal (.inr hpc)
      omega

theorem rwlock_safe_handover : ∃ s, (threadSystem (Fin 2)).Reach (fun s e => s.BacksSafely 0 e) s ∧
    ((∀ t, s.mem.writes 0 t = true → ∀ u, (s.mem.writes 0 u = true → u = t) ∧ s.mem.reads 0 u = 0) ∧
      ∀ t, (s.pc t = .readerLeave 0 ∨ ∃ how, s.pc t = .readBack 0 how) → s.mem.readers 0 ≠ 0) ∧
    ∀ t, (s.pc t).RwParked 0 → 0 < s.queues.signals t := by
  -- thread 1 waits for thread 0 to unlock, has the lock for writing, and unlocks as well
  obtain ⟨s, hs, hp⟩ : ∃ s,
      (threadSystem (Fin 2)).Reach (fun s e => s.Room 0 e ∧ s.BacksSafely 0 e) s ∧
      decide ((∀ u, s.mem.writes 0 u = false ∧ s.mem.reads 0 u = 0) ∧ (∀ u, s.pc u = .out) ∧
        ∀ u, s.queues.op u = .idle) = true :=
    EventSystem.Reach.exists_of_runIf (b := backsCalmly) (fun _ _ => backsSafely_of_calmly)
      ((0, .call (.readLock 0 .wait)) :: goes 0 3 ++ (1, .call (.writeLock 0 .wait)) :: goes 1 14 ++
        (0, .call (.rwUnlock 0)) :: goes 0 9 ++ goes 1 4 ++ (1, .call (.rwUnlock 0)) :: goes 1 7)
      ⟨fun _ => 0, rfl⟩ (by decide +kernel)
  obtain ⟨hfree, hout, hidle⟩ := of_decide_eq_true hp
  have hsafe := hs.mono fun _ _ hok => hok.2
  refine ⟨s, hsafe, (rwlock_safe _ 0).1 s (hs.mono fun _ _ hok => hok.1), ?_⟩
  exact (rwlock_safe _ 0).2 s hsafe hfree fun u => not_busyRw_of_out hidle (.inl (hout u))

/-- Thread 1 tries to get the lock for reading and announces itself. Thread 0 claims it for writing,
so thread 1 will back out; but thread 0 sees the reader, backs out, and parks. Then thread 1 backs
out and tells nobody. -/
theorem rwlock_strands : ¬ ∀ (s : State (Fin 2)), (threadSystem (Fin 2)).Reachable s →
    (∀ u, s.mem.writes 0 u = false ∧ s.mem.reads 0 u = 0) → (∀ u, ¬ s.BusyRw 0 u) →
    ∀ t, (s.pc t).RwParked 0 → 0 < s.queues.signals t := by
  intro h
  obtain ⟨s, hs, hp⟩ : ∃ s, (threadSystem (Fin 2)).Reachable s ∧
      decide ((∀ u, s.mem.writes 0 u = false ∧ s.mem.reads 0 u = 0) ∧ s.pc 0 = .writePark 0 ∧
        s.pc 1 = .out ∧ s.queues.signals 0 = 0 ∧ ∀ u, s.queues.op u = .idle) = true :=
    EventSystem.Reachable.exists_of_run
      ((1, .call (.readLock 0 .once)) :: goes 1 2 ++ (0, .call (.writeLock 0 .wait)) :: goes 0 1 ++
        goes 1 1 ++ goes 0 14 ++ goes 1 1)
      ⟨fun _ => 0, rfl⟩ (by decide +kernel)
  obtain ⟨hfree, h0, h1, hsignals, hidle⟩ := of_decide_eq_true hp
  have hout : ∀ u, s.pc u = .out ∨ s.pc u = .writePark 0 ∧ s.queues.signals u = 0 := by
    intro u
    obtain rfl | rfl : u = 0 ∨ u = 1 := by omega
    · exact .inr ⟨h0, hsignals⟩
    · exact .inl h1
  have := h s hs hfree (fun u => not_busyRw_of_out hidle (hout u)) 0 (.inr h0)
  omega

end Threads

end StarOS
