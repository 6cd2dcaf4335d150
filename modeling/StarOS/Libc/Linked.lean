import StarOS.Libc.Queue

/-!
# Where the threads are linked

A thread is in one place at a time: on a queue, on a list that somebody has taken and still walks,
or nowhere. Its link is its own, so no other list is touched when it links itself, provided it is
nowhere when it does. It is somewhere while its flag is set; but a list that was taken is walked
once more with the flags cleared, and a thread on it that links itself then takes the walk with it
to another queue.

## Main definitions

* `Threads.Queues.Linked`, `Threads.Queues.Walked` — on a queue, or on a list that is still walked
* `Threads.Queues.LinksSafely` — a thread that links itself is on no list that is still walked
* `Threads.Placed` — every thread has one place

## Main results

* `Threads.Placed.next` — a step of a thread that links itself safely moves threads from place to
  place
-/

namespace StarOS

namespace Threads

open Links

variable {Thread Place : Type} {s s' : Queues Thread Place} {t u x : Thread} {q : Place}
  {a : Act Place}

/-! ### The lock of a queue -/

/-- The places of an operation where it has the lock of `q`. -/
def Op.Locks (q : Place) : Op Thread Place → Prop
  | .pushSwap q' | .pushLoad q' | .pushNext q' _ | .pushHead q' | .pushUnlock q' | .takeSwap q'
  | .takeClear q' _ _ | .takeNext q' _ _ | .takeUnlock q' _ | .popLoad q' | .popNext q' _
  | .popClear q' _ _ | .popStore q' _ _ | .popUnlock q' _ => q' = q
  | .idle | .pushLock _ | .takeLock _ | .wakeNext _ _ | .wakeUnpark _ _ _ | .popLock _
  | .popUnpark _ _ => False

/-- The locks of the queues exclude. -/
def Queues.Locked (s : Queues Thread Place) : Prop :=
  ∀ q, Excludes (s.lock q ≠ 0) (Op.Locks q) s.op

section Locks

variable [DecidableEq Thread] [DecidableEq Place]

/-- What a step does to the lock of a queue. -/
theorem Goes.lock {o : Op Thread Place} (h : Goes s t o s') (ho : s.op t = o) (q : Place) :
    ∃ p, s'.op = Function.update s.op t p ∧
      ((p.Locks q ↔ o.Locks q) ∧ s'.lock q = s.lock q ∨
        s.lock q = 0 ∧ p.Locks q ∧ s'.lock q ≠ 0 ∨ o.Locks q ∧ ¬ p.Locks q ∧ s'.lock q = 0) := by
  have hset : ∀ q' (value : BitVec 32), q' ≠ q → (s.setLock q' value).lock q = s.lock q :=
    fun q' value hq => Function.update_of_ne (Ne.symm hq) ..
  cases h with
  | @pushLock q' hfree | @takeLock q' hfree | @popLock q' hfree =>
    refine ⟨_, rfl, ?_⟩
    by_cases hq : q' = q
    · subst hq
      exact .inr (.inl ⟨hfree, rfl, by simp [Queues.goTo, Queues.setLock]⟩)
    · exact .inl ⟨by simp [Op.Locks, hq], hset _ _ hq⟩
  | @pushUnlock q' | @takeNobody q' | @takeUnlock q' | @popNobody q' | @popUnlock q' =>
    refine ⟨_, rfl, ?_⟩
    by_cases hq : q' = q
    · subst hq
      exact .inr (.inr ⟨rfl, by simp [Op.Locks], by simp [Queues.goTo, Queues.setLock]⟩)
    · exact .inl ⟨by simp [Op.Locks, hq], hset _ _ hq⟩
  | pushSpin | takeSpin | popSpin =>
    exact ⟨_, (Function.update_eq_self_iff.mpr ho.symm).symm, .inl ⟨.rfl, rfl⟩⟩
  | _ => exact ⟨_, rfl, .inl ⟨.rfl, rfl⟩⟩

theorem Queues.Locked.next (h : s.Locked) (hn : s.act (t, a) = some s') : s'.Locked := by
  have hcall : ∀ p : Op Thread Place, (∀ q, ¬ p.Locks q) →
      (if s.op t = .idle then some (s.goTo t p) else none) = some s' → s'.Locked := by
    intro p hp hn q
    split at hn
    · next hidle =>
      obtain rfl := Option.some.inj hn
      exact (h q).stay (iff_of_false (hp q) (by rw [hidle]; exact id)) .rfl
    · simp at hn
  cases a with
  | push q => exact hcall _ (fun _ => id) hn
  | take q => exact hcall _ (fun _ => id) hn
  | pop q => exact hcall _ (fun _ => id) hn
  | park =>
    rw [act] at hn
    split at hn
    · obtain rfl := Option.some.inj hn
      exact h
    · simp at hn
  | go =>
    intro q
    obtain ⟨p, hop, ⟨hside, hlock⟩ | ⟨hfree, hp, htaken⟩ | ⟨ho, hp, hfree⟩⟩ :=
      (goes_of_go hn).lock rfl q
    · rw [hop]
      exact (h q).stay hside (by rw [hlock])
    · rw [hop]
      exact (h q).enter (not_not.mpr hfree) hp htaken
    · rw [hop]
      exact (h q).leave ho hp (not_not.mpr hfree)

end Locks

/-! ### Where a thread is linked -/

/-- A thread is on a queue. -/
def Queues.Linked (s : Queues Thread Place) (q : Place) (t : Thread) : Prop :=
  From s.next (s.head q) t

/-- The first thread of a list that was taken and is still to be walked. -/
def Op.list : Op Thread Place → Option Thread
  | .takeClear _ head _ | .takeNext _ head _ | .takeUnlock _ (some head) | .wakeNext _ head => some head
  | .wakeUnpark _ _ next => next
  | _ => none

/-- A thread is on a list that is still walked, or still the head of a queue that is popped, with
its flag cleared. -/
def Queues.Walked (s : Queues Thread Place) (t : Thread) : Prop :=
  (∃ u, From s.next (s.op u).list t) ∨ ∃ u q next, s.op u = .popStore q t next

/-- **A thread that links itself is on no list that is still walked.** -/
def Queues.LinksSafely (s : Queues Thread Place) : Thread × Act Place → Prop
  | (t, .go) => ∀ q, s.op t = .pushSwap q → s.queued t ≠ 1 → ¬ s.Walked t
  | _ => True

/-- The one place where a thread is linked. -/
inductive Home (Thread Place : Type)
  | nowhere
  /-- On a queue. -/
  | queued (q : Place)
  /-- The head of a queue, with its flag cleared. -/
  | leaving (q : Place)
  /-- On the list that a thread has taken, with its flag set. -/
  | taken (u : Thread)
  /-- On the list that a thread has taken, with its flag cleared. -/
  | walked (u : Thread)

/-- The places between setting the flag and being the head. -/
def Op.Pushing : Op Thread Place → Prop
  | .pushLoad _ | .pushNext _ _ | .pushHead _ => True
  | _ => False

/-- The first thread of a list whose flag is still to be cleared. -/
def Queues.rest (s : Queues Thread Place) : Op Thread Place → Option Thread
  | .takeClear _ _ thread => some thread
  | .takeNext _ _ thread => s.next thread
  | _ => none

variable {home home' : Thread → Home Thread Place}

/-- The list that a thread walks. -/
structure Walks (s : Queues Thread Place) (home : Thread → Home Thread Place) (u : Thread)
    (op : Op Thread Place) : Prop where
  list : ∃ l, Chain s.next op.list l ∧ ∀ x, x ∈ l ↔ home x = .taken u ∨ home x = .walked u
  rest : ∃ l, Chain s.next (s.rest op) l ∧ ∀ x, x ∈ l ↔ home x = .taken u

/-- What a thread knows that has the lock of a queue. -/
def Knows (s : Queues Thread Place) (home : Thread → Home Thread Place) (u : Thread) :
    Op Thread Place → Prop
  | .pushLoad _ => home u = .nowhere
  | .pushNext q head => home u = .nowhere ∧ s.head q = head
  | .pushHead q => home u = .nowhere ∧ s.next u = s.head q
  | .takeNext _ _ thread => home thread = .walked u
  | .popNext q head => s.head q = some head ∧ home head = .queued q
  | .popClear q head next => s.head q = some head ∧ home head = .queued q ∧ s.next head = next
  | .popStore q head next => s.head q = some head ∧ home head = .leaving q ∧ s.next head = next
  | _ => True

/-- **Every thread has one place.** -/
structure Placed (s : Queues Thread Place) (home : Thread → Home Thread Place) : Prop where
  queue : ∀ q, ∃ l, Chain s.next (s.head q) l ∧
    ∀ x, x ∈ l ↔ home x = .queued q ∨ home x = .leaving q
  walks : ∀ u, Walks s home u (s.op u)
  knows : ∀ u, Knows s home u (s.op u)
  flag : ∀ x, s.queued x = 1 ↔
    (s.op x).Pushing ∨ (∃ q, home x = .queued q) ∨ ∃ u, home x = .taken u
  leaving : ∀ x q, home x = .leaving q → ∃ u next, s.op u = .popStore q x next

/-- The places a thread may move threads from and to in a step. -/
def Home.Of (op : Op Thread Place) (t : Thread) : Home Thread Place → Prop
  | .nowhere => True
  | .queued q | .leaving q => op.Locks q
  | .taken u | .walked u => u = t

theorem placed_new : Placed (.new : Queues Thread Place) fun _ => .nowhere := by
  refine ⟨fun q => ⟨[], rfl, by simp⟩, fun u => ⟨⟨[], rfl, by simp⟩, ⟨[], rfl, by simp⟩⟩,
    fun _ => trivial, fun x => ?_, by simp⟩
  simp [Queues.new, Op.Pushing]

/-- A thread that walks the same list as before. -/
theorem Walks.of_eq {o p : Op Thread Place} (h : Walks s home t o) (hnext : s'.next = s.next)
    (hlist : p.list = o.list) (hrest : s'.rest p = s.rest o) : Walks s' home t p := by
  obtain ⟨hl, hr⟩ := h
  refine ⟨?_, ?_⟩
  · rw [hlist, hnext]
    exact hl
  · rw [hrest, hnext]
    exact hr

section Where

variable (h : Placed s home)
include h

theorem Placed.linked_iff : s.Linked q x ↔ home x = .queued q ∨ home x = .leaving q := by
  obtain ⟨l, hl, hin⟩ := h.queue q
  rw [Queues.Linked, hl.from_iff, hin]

theorem Placed.list_iff : From s.next (s.op u).list x ↔ home x = .taken u ∨ home x = .walked u := by
  obtain ⟨l, hl, hin⟩ := (h.walks u).list
  rw [hl.from_iff, hin]

theorem Placed.walked_of_leaving (hx : home x = .leaving q) : s.Walked x := by
  obtain ⟨u, next, hu⟩ := h.leaving x q hx
  exact .inr ⟨u, q, next, hu⟩

/-- A thread that is pushing itself is nowhere yet. -/
theorem Placed.not_pushing (hx : home x ≠ .nowhere) : ¬ (s.op x).Pushing := by
  intro hpushing
  have hknown := h.knows x
  cases hop : s.op x with
  | pushLoad q =>
    rw [hop] at hknown
    exact hx hknown
  | pushNext q head =>
    rw [hop] at hknown
    exact hx hknown.1
  | pushHead q =>
    rw [hop] at hknown
    exact hx hknown.1
  | _ =>
    rw [hop] at hpushing
    exact hpushing

/-- A thread that is free to link itself is nowhere. -/
theorem Placed.nowhere (hflag : s.queued t ≠ 1) (hwalked : ¬ s.Walked t) : home t = .nowhere := by
  cases hhome : home t with
  | nowhere => rfl
  | queued q => exact absurd ((h.flag t).mpr (.inr (.inl ⟨q, hhome⟩))) hflag
  | leaving q => exact absurd (h.walked_of_leaving hhome) hwalked
  | taken u => exact absurd ((h.flag t).mpr (.inr (.inr ⟨u, hhome⟩))) hflag
  | walked u => exact absurd (.inl ⟨u, h.list_iff.mpr (.inr hhome)⟩) hwalked

/-- The head of a queue that a thread has the lock of, and does not pop, has its flag set. -/
theorem Placed.head_queued (hlocked : s.Locked) (hlock : (s.op t).Locks q)
    (hstore : ∀ x next, s.op t ≠ .popStore q x next) (hx : s.Linked q x) : home x = .queued q := by
  obtain hx | hx := h.linked_iff.mp hx
  · exact hx
  · obtain ⟨u, next, hu⟩ := h.leaving x q hx
    obtain rfl := (hlocked q).unique (t := u) (u := t) (by rw [hu]; rfl) hlock
    exact absurd hu (hstore x next)

end Where

variable [DecidableEq Thread]

/-- What is left of the invariant to show for a step of `t` that moves threads between its own
places only. -/
theorem Placed.of_frame {p : Op Thread Place} (h : Placed s home) (hlocked : s.Locked)
    (hop : s'.op = Function.update s.op t p)
    (hnext : ∀ x, s'.next x ≠ s.next x → x = t ∧ home x = .nowhere)
    (hhead : ∀ q, s'.head q ≠ s.head q → (s.op t).Locks q)
    (hhome : ∀ x, home' x ≠ home x → (home x).Of (s.op t) t ∧ (home' x).Of (s.op t) t ∧
      (home x = .nowhere → x = t))
    (hqueue : ∀ q, (s'.head q = s.head q ∧ ∀ x, (home' x = .queued q ∨ home' x = .leaving q) ↔
        (home x = .queued q ∨ home x = .leaving q)) ∨
      ∃ l, Chain s'.next (s'.head q) l ∧ ∀ x, x ∈ l ↔ home' x = .queued q ∨ home' x = .leaving q)
    (hwalks : Walks s' home' t p) (hknows : Knows s' home' t p)
    (hflag : ∀ x, s'.queued x = 1 ↔
      (s'.op x).Pushing ∨ (∃ q, home' x = .queued q) ∨ ∃ u, home' x = .taken u)
    (hleaving : ∀ x q, home' x = .leaving q → ∃ u next, s'.op u = .popStore q x next) :
    Placed s' home' := by
  have hsame : ∀ x, home x ≠ .nowhere → s'.next x = s.next x := by
    intro x hx
    by_contra hne
    exact hx (hnext x hne).2
  have hwalker : ∀ u, u ≠ t → ∀ x, (home' x = .taken u ↔ home x = .taken u) ∧
      (home' x = .walked u ↔ home x = .walked u) := by
    intro u hu x
    by_cases hx : home' x = home x
    · rw [hx]
      exact ⟨.rfl, .rfl⟩
    · obtain ⟨hold, hnew, -⟩ := hhome x hx
      refine ⟨iff_of_false ?_ ?_, iff_of_false ?_ ?_⟩ <;> intro heq <;>
        first
          | exact hu (show u = t by rw [heq] at hold; exact hold)
          | exact hu (show u = t by rw [heq] at hnew; exact hnew)
  have hnowhere : ∀ u, u ≠ t → home u = .nowhere → home' u = .nowhere := by
    intro u hu hnow
    by_contra hne
    exact hu ((hhome u (by rw [hnow]; exact hne)).2.2 hnow)
  have hexcl : ∀ u, u ≠ t → ∀ q, (s.op u).Locks q → ¬ (s.op t).Locks q := fun u hu q hul htl =>
    hu ((hlocked q).unique hul htl)
  have hqueued : ∀ u, u ≠ t → ∀ q, (s.op u).Locks q → ∀ x,
      home x = .queued q ∨ home x = .leaving q → home' x = home x := by
    intro u hu q hul x hx
    by_contra hne
    obtain ⟨hold, -⟩ := hhome x hne
    rcases hx with hx | hx <;> rw [hx] at hold <;> exact hexcl u hu q hul hold
  have hheads : ∀ u, u ≠ t → ∀ q, (s.op u).Locks q → s'.head q = s.head q := by
    intro u hu q hul
    by_contra hne
    exact hexcl u hu q hul (hhead q hne)
  have hother : ∀ u, u ≠ t → s'.op u = s.op u := fun u hu => by rw [hop, Function.update_of_ne hu]
  refine ⟨fun q => ?_, fun u => ?_, fun u => ?_, hflag, hleaving⟩
  · obtain ⟨heq, hmem⟩ | hdone := hqueue q
    · obtain ⟨l, hl, hin⟩ := h.queue q
      refine ⟨l, ?_, fun x => (hin x).trans (hmem x).symm⟩
      rw [heq]
      refine hl.congr fun x hx => hsame x fun hnow => ?_
      have := (hin x).mp hx
      rw [hnow] at this
      simp at this
    · exact hdone
  · by_cases hu : u = t
    · subst hu
      rw [hop, Function.update_self]
      exact hwalks
    · rw [hother u hu]
      obtain ⟨l, hl, hin⟩ := (h.walks u).list
      obtain ⟨r, hr, hrin⟩ := (h.walks u).rest
      have hlist : ∀ x, home x = .taken u ∨ home x = .walked u → s'.next x = s.next x :=
        fun x hx => hsame x (by rcases hx with hx | hx <;> rw [hx] <;> simp)
      have hrest : s'.rest (s.op u) = s.rest (s.op u) := by
        have hknown := h.knows u
        cases hopu : s.op u <;> rw [hopu] at hknown <;> try rfl
        exact hlist _ (.inr hknown)
      refine ⟨⟨l, ?_, fun x => ?_⟩, ⟨r, ?_, fun x => ?_⟩⟩
      · exact hl.congr fun x hx => hlist x ((hin x).mp hx)
      · rw [hin x, (hwalker u hu x).1, (hwalker u hu x).2]
      · rw [hrest]
        exact hr.congr fun x hx => hlist x (.inl ((hrin x).mp hx))
      · rw [hrin x, (hwalker u hu x).1]
  · by_cases hu : u = t
    · subst hu
      rw [hop, Function.update_self]
      exact hknows
    · rw [hother u hu]
      have hknown := h.knows u
      have hheads := hheads u hu
      have hqueued := hqueued u hu
      have hnextu : s'.next u = s.next u := by
        by_contra hne
        exact hu (hnext u hne).1
      cases hopu : s.op u with
      | pushLoad q =>
        rw [hopu] at hknown
        exact hnowhere u hu hknown
      | pushNext q head =>
        rw [hopu] at hknown
        exact ⟨hnowhere u hu hknown.1, by rw [hheads q (by rw [hopu]; rfl)]; exact hknown.2⟩
      | pushHead q =>
        rw [hopu] at hknown
        exact ⟨hnowhere u hu hknown.1, by rw [hheads q (by rw [hopu]; rfl), hnextu]; exact hknown.2⟩
      | takeNext q head thread =>
        rw [hopu] at hknown
        exact (hwalker u hu thread).2.mpr hknown
      | popNext q head =>
        rw [hopu] at hknown
        have hl : (s.op u).Locks q := by rw [hopu]; rfl
        exact ⟨by rw [hheads q hl]; exact hknown.1,
          by rw [hqueued q hl _ (.inl hknown.2)]; exact hknown.2⟩
      | popClear q head next =>
        rw [hopu] at hknown
        have hl : (s.op u).Locks q := by rw [hopu]; rfl
        exact ⟨by rw [hheads q hl]; exact hknown.1,
          by rw [hqueued q hl _ (.inl hknown.2.1)]; exact hknown.2.1,
          by rw [hsame _ (by rw [hknown.2.1]; simp)]; exact hknown.2.2⟩
      | popStore q head next =>
        rw [hopu] at hknown
        have hl : (s.op u).Locks q := by rw [hopu]; rfl
        exact ⟨by rw [hheads q hl]; exact hknown.1,
          by rw [hqueued q hl _ (.inr hknown.2.1)]; exact hknown.2.1,
          by rw [hsame _ (by rw [hknown.2.1]; simp)]; exact hknown.2.2⟩
      | _ => trivial

/-- A step that moves no thread. -/
theorem Placed.quiet {p : Op Thread Place} (h : Placed s home) (hlocked : s.Locked)
    (hop : s'.op = Function.update s.op t p) (hnext : s'.next = s.next) (hhead : s'.head = s.head)
    (hqueued : s'.queued = s.queued) (hpush : p.Pushing ↔ (s.op t).Pushing)
    (hstore : ∀ q x next, s.op t ≠ .popStore q x next) (hwalks : Walks s' home t p)
    (hknows : Knows s' home t p) : Placed s' home := by
  refine h.of_frame hlocked hop (fun x hx => absurd (congrFun hnext x) hx)
    (fun q hq => absurd (congrFun hhead q) hq) (fun x hx => absurd rfl hx)
    (fun q => .inl ⟨congrFun hhead q, fun _ => .rfl⟩) hwalks hknows (fun x => ?_) fun x q hx => ?_
  · rw [hqueued, h.flag x, hop]
    by_cases hx : x = t
    · subst hx
      rw [Function.update_self, hpush]
    · rw [Function.update_of_ne hx]
  · obtain ⟨u, next, hu⟩ := h.leaving x q hx
    refine ⟨u, next, ?_⟩
    rw [hop, Function.update_of_ne (by rintro rfl; exact hstore q x next hu), hu]

/-- Where the next step of a thread's operation moves threads. -/
def rehome [DecidableEq Place] (home : Thread → Home Thread Place) (t : Thread) :
    Op Thread Place → Thread → Home Thread Place
  | .pushHead q => Function.update home t (.queued q)
  | .takeSwap q => fun x => match home x with
    | .queued q' => if q' = q then .taken t else .queued q'
    | other => other
  | .takeClear _ _ thread => Function.update home thread (.walked t)
  | .wakeNext _ thread => Function.update home thread .nowhere
  | .popClear q head _ => Function.update home head (.leaving q)
  | .popStore _ head _ => Function.update home head .nowhere
  | _ => home

/-- A thread that is at one of two places stays there when one that is at neither is moved. -/
theorem at_update {v w p : Home Thread Place} (hx : home x = v ∨ home x = w)
    (hu : ¬ (home u = v ∨ home u = w)) :
    Function.update home u p x = v ∨ Function.update home u p x = w := by
  rw [Function.update_of_ne]
  · exact hx
  · rintro rfl
    exact hu hx

theorem of_at_update {v w p : Home Thread Place}
    (hx : Function.update home u p x = v ∨ Function.update home u p x = w) :
    x = u ∧ (p = v ∨ p = w) ∨ home x = v ∨ home x = w := by
  by_cases hxu : x = u
  · subst hxu
    rw [Function.update_self] at hx
    exact .inl ⟨rfl, hx⟩
  · rw [Function.update_of_ne hxu] at hx
    exact .inr hx

section Steps

/-- A thread that is half off a queue stays so unless it is its popper's turn. -/
theorem Placed.leaving_next {p : Op Thread Place} (h : Placed s home)
    (hop : s'.op = Function.update s.op t p) (hstore : ∀ q x next, s.op t ≠ .popStore q x next)
    (hx : home x = .leaving q) : ∃ u next, s'.op u = .popStore q x next := by
  obtain ⟨u, next, hu⟩ := h.leaving x q hx
  refine ⟨u, next, ?_⟩
  rw [hop, Function.update_of_ne (by rintro rfl; exact hstore q x next hu), hu]

variable (h : Placed s home) (hlocked : s.Locked)
include h hlocked

theorem Placed.pushSwap (hop : s.op t = .pushSwap q) (hflag : s.queued t ≠ 1)
    (hwalked : ¬ s.Walked t) : Placed ((s.setQueued t 1).goTo t (.pushLoad q)) home := by
  have hwalks := h.walks t
  rw [hop] at hwalks
  refine h.of_frame hlocked rfl (fun x hx => absurd rfl hx) (fun q hq => absurd rfl hq)
    (fun x hx => absurd rfl hx) (fun q => .inl ⟨rfl, fun _ => .rfl⟩) (hwalks.of_eq rfl rfl rfl)
    (h.nowhere hflag hwalked) (fun x => ?_)
    fun x q' hx => h.leaving_next rfl (fun q x next => by rw [hop]; simp) hx
  by_cases hx : x = t
  · subst hx
    simp [Queues.goTo, Queues.setQueued, Op.Pushing]
  · simpa [Queues.goTo, Queues.setQueued, Function.update_of_ne hx] using h.flag x

theorem Placed.pushNext {head : Option Thread} (hop : s.op t = .pushNext q head) :
    Placed ((s.setNext t head).goTo t (.pushHead q)) home := by
  have hwalks := h.walks t
  have hknows := h.knows t
  rw [hop] at hwalks hknows
  obtain ⟨hnow, hhead⟩ := hknows
  have hnext : ∀ x, x ≠ t → ((s.setNext t head).goTo t (.pushHead q)).next x = s.next x :=
    fun x hx => Function.update_of_ne hx ..
  refine h.of_frame hlocked rfl (fun x hx => ?_) (fun q hq => absurd rfl hq)
    (fun x hx => absurd rfl hx) (fun q => .inl ⟨rfl, fun _ => .rfl⟩) ?_ ⟨hnow, ?_⟩ (fun x => ?_)
    fun x q' hx => h.leaving_next rfl (fun q x next => by rw [hop]; simp) hx
  · obtain rfl : x = t := by
      by_contra hne
      exact hx (hnext x hne)
    exact ⟨rfl, hnow⟩
  · -- the list it walks is empty
    obtain ⟨⟨l, hl, hin⟩, ⟨r, hr, hrin⟩⟩ := hwalks
    obtain rfl := Chain.eq_nil hl
    obtain rfl := Chain.eq_nil hr
    exact ⟨⟨[], rfl, hin⟩, ⟨[], rfl, hrin⟩⟩
  · rw [← hhead]
    exact Function.update_self ..
  · by_cases hx : x = t
    · subst hx
      have := h.flag x
      rw [hop] at this
      simpa [Queues.goTo, Queues.setNext, Op.Pushing] using this
    · simpa [Queues.goTo, Queues.setNext, Function.update_of_ne hx] using h.flag x

theorem Placed.pushHead [DecidableEq Place] (hop : s.op t = .pushHead q) :
    Placed ((s.setHead q (some t)).goTo t (.pushUnlock q)) (Function.update home t (.queued q)) := by
  have hwalks := h.walks t
  have hknows := h.knows t
  rw [hop] at hwalks hknows
  obtain ⟨hnow, hhead⟩ := hknows
  have hother : ∀ x, x ≠ t → Function.update home t (.queued q) x = home x :=
    fun x hx => Function.update_of_ne hx ..
  refine h.of_frame hlocked rfl (fun x hx => absurd rfl hx) (fun q' hq => ?_) (fun x hx => ?_)
    (fun q' => ?_) ?_ trivial (fun x => ?_) fun x q' hx => ?_
  · rw [hop]
    by_contra hne
    exact hq (Function.update_of_ne (Ne.symm hne) ..)
  · obtain rfl : x = t := by
      by_contra hne
      exact hx (hother x hne)
    rw [hnow, Function.update_self, hop]
    exact ⟨trivial, rfl, fun _ => rfl⟩
  · by_cases hq : q' = q
    · subst hq
      obtain ⟨l, hl, hin⟩ := h.queue q'
      refine .inr ⟨t :: l, ⟨?_, ?_⟩, fun x => ?_⟩
      · exact Function.update_self ..
      · rw [← hhead] at hl
        exact hl
      · by_cases hx : x = t
        · subst hx
          simp
        · rw [List.mem_cons, or_iff_right hx, hin, hother x hx]
    · refine .inl ⟨Function.update_of_ne hq .., fun x => ?_⟩
      by_cases hx : x = t
      · subst hx
        simp [hnow, Ne.symm hq]
      · rw [hother x hx]
  · obtain ⟨⟨l, hl, hin⟩, ⟨r, hr, hrin⟩⟩ := hwalks
    obtain rfl := Chain.eq_nil hl
    obtain rfl := Chain.eq_nil hr
    refine ⟨⟨[], rfl, fun x => ?_⟩, ⟨[], rfl, fun x => ?_⟩⟩
    · by_cases hx : x = t
      · subst hx
        simp
      · rw [hother x hx, hin]
    · by_cases hx : x = t
      · subst hx
        simp
      · rw [hother x hx, hrin]
  · by_cases hx : x = t
    · subst hx
      have := (h.flag x).mpr (.inl (by rw [hop]; trivial))
      simpa [Queues.goTo, Queues.setHead, Op.Pushing] using this
    · rw [hother x hx]
      simpa [Queues.goTo, Queues.setHead, Function.update_of_ne hx] using h.flag x
  · by_cases hxt : x = t
    · subst hxt
      simp at hx
    · rw [hother x hxt] at hx
      exact h.leaving_next rfl (fun q x next => by rw [hop]; simp) hx

/-- A step that moves one thread, which is somewhere, and begins and ends outside a push. -/
theorem Placed.of_update {p : Op Thread Place} {c : Thread} {v : Home Thread Place}
    (hop : s'.op = Function.update s.op t p) (hnext : s'.next = s.next)
    (hhead : ∀ q, s'.head q ≠ s.head q → (s.op t).Locks q) (hold : (home c).Of (s.op t) t)
    (hnew : v.Of (s.op t) t) (hc : home c ≠ .nowhere) (ho : ¬ (s.op t).Pushing) (hp : ¬ p.Pushing)
    (hqueue : ∀ q, (s'.head q = s.head q ∧ ((v = .queued q ∨ v = .leaving q) ↔
        (home c = .queued q ∨ home c = .leaving q))) ∨
      ∃ l, Chain s'.next (s'.head q) l ∧
        ∀ x, x ∈ l ↔ Function.update home c v x = .queued q ∨ Function.update home c v x = .leaving q)
    (hwalks : Walks s' (Function.update home c v) t p)
    (hknows : Knows s' (Function.update home c v) t p)
    (hqueued : ∀ x, x ≠ c → s'.queued x = s.queued x)
    (hflag : s'.queued c = 1 ↔ (∃ q, v = .queued q) ∨ ∃ u, v = .taken u)
    (hleaving : ∀ x q, Function.update home c v x = .leaving q →
      ∃ u next, s'.op u = .popStore q x next) :
    Placed s' (Function.update home c v) := by
  have hother : ∀ x, x ≠ c → Function.update home c v x = home x :=
    fun x hx => Function.update_of_ne hx ..
  have hpush : ∀ x, (s'.op x).Pushing ↔ (s.op x).Pushing := by
    intro x
    rw [hop]
    by_cases hx : x = t
    · subst hx
      rw [Function.update_self]
      exact iff_of_false hp ho
    · rw [Function.update_of_ne hx]
  refine h.of_frame hlocked hop (fun x hx => absurd (congrFun hnext x) hx) hhead (fun x hx => ?_)
    (fun q => ?_) hwalks hknows (fun x => ?_) hleaving
  · obtain rfl : x = c := by
      by_contra hne
      exact hx (hother x hne)
    rw [Function.update_self]
    exact ⟨hold, hnew, fun hnow => absurd hnow hc⟩
  · refine (hqueue q).imp_left fun ⟨heq, hiff⟩ => ⟨heq, fun x => ?_⟩
    by_cases hx : x = c
    · subst hx
      rw [Function.update_self, hiff]
    · rw [hother x hx]
  · by_cases hx : x = c
    · subst hx
      rw [hflag, Function.update_self, hpush, or_iff_right (h.not_pushing hc)]
    · rw [hqueued x hx, hother x hx, hpush]
      exact h.flag x

theorem Placed.takeClear {head thread : Thread} (hop : s.op t = .takeClear q head thread) :
    Placed ((s.setQueued thread 0).goTo t (.takeNext q head thread))
      (Function.update home thread (.walked t)) := by
  obtain ⟨⟨l, hl, hin⟩, ⟨r, hr, hrin⟩⟩ := h.walks t
  rw [hop] at hl hr
  obtain ⟨r, rfl, hr'⟩ := Chain.eq_cons hr
  have hnot := hr.not_mem_tail
  have hhome : home thread = .taken t := (hrin thread).mp List.mem_cons_self
  refine h.of_update hlocked rfl rfl (fun q hq => absurd rfl hq) (by rw [hhome]; rfl) rfl
    (by rw [hhome]; simp) (by rw [hop]; exact id) id
    (fun q => .inl ⟨rfl, iff_of_false (by simp) (by rw [hhome]; simp)⟩) ?_ ?_
    (fun x hx => Function.update_of_ne hx ..) ?_ fun x q' hx => ?_
  · refine ⟨⟨l, hl, fun x => ?_⟩, ⟨r, hr', fun x => ?_⟩⟩
    · rw [hin]
      by_cases hx : x = thread
      · subst hx
        simp [hhome]
      · rw [Function.update_of_ne hx]
    · by_cases hx : x = thread
      · subst hx
        simp [hnot]
      · rw [Function.update_of_ne hx, ← hrin, List.mem_cons, or_iff_right hx]
  · exact Function.update_self ..
  · simp [Queues.goTo, Queues.setQueued]
  · by_cases hxt : x = thread
    · subst hxt
      simp at hx
    · rw [Function.update_of_ne hxt] at hx
      exact h.leaving_next rfl (fun q x next => by rw [hop]; simp) hx

theorem Placed.wakeNext {thread : Thread} (hop : s.op t = .wakeNext q thread) :
    Placed (s.goTo t (.wakeUnpark q thread (s.next thread)))
      (Function.update home thread .nowhere) := by
  obtain ⟨⟨l, hl, hin⟩, ⟨r, hr, hrin⟩⟩ := h.walks t
  rw [hop] at hl hr
  obtain ⟨l, rfl, hl'⟩ := Chain.eq_cons hl
  obtain rfl := Chain.eq_nil hr
  have hnot := hl.not_mem_tail
  have hhome : home thread = .walked t :=
    ((hin thread).mp List.mem_cons_self).resolve_left fun ht =>
      absurd ((hrin thread).mpr ht) List.not_mem_nil
  refine h.of_update hlocked rfl rfl (fun q hq => absurd rfl hq) (by rw [hhome]; rfl) trivial
    (by rw [hhome]; simp) (by rw [hop]; exact id) id
    (fun q => .inl ⟨rfl, iff_of_false (by simp) (by rw [hhome]; simp)⟩) ?_ trivial
    (fun x hx => rfl) ?_ fun x q' hx => ?_
  · refine ⟨⟨l, hl', fun x => ?_⟩, ⟨[], rfl, fun x => ?_⟩⟩
    · by_cases hx : x = thread
      · subst hx
        simp [hnot]
      · rw [Function.update_of_ne hx, ← hin, List.mem_cons, or_iff_right hx]
    · by_cases hx : x = thread
      · subst hx
        simp
      · rw [Function.update_of_ne hx, ← hrin]
  · have := h.flag thread
    rw [hhome, or_iff_right (h.not_pushing (by rw [hhome]; simp))] at this
    simpa [Queues.goTo] using this
  · by_cases hxt : x = thread
    · subst hxt
      simp at hx
    · rw [Function.update_of_ne hxt] at hx
      exact h.leaving_next rfl (fun q x next => by rw [hop]; simp) hx

theorem Placed.popClear {head : Thread} {next : Option Thread}
    (hop : s.op t = .popClear q head next) :
    Placed ((s.setQueued head 0).goTo t (.popStore q head next))
      (Function.update home head (.leaving q)) := by
  have hwalks := h.walks t
  have hknows := h.knows t
  rw [hop] at hwalks hknows
  obtain ⟨hhead, hhome, hnext⟩ := hknows
  obtain ⟨⟨l, hl, hin⟩, ⟨r, hr, hrin⟩⟩ := hwalks
  obtain rfl := Chain.eq_nil hl
  obtain rfl := Chain.eq_nil hr
  have hlock : (s.op t).Locks q := by rw [hop]; rfl
  refine h.of_update hlocked rfl rfl (fun q hq => absurd rfl hq) (by rw [hhome]; exact hlock) hlock
    (by rw [hhome]; simp) (by rw [hop]; exact id) id (fun q' => .inl ⟨rfl, ?_⟩) ?_
    ⟨hhead, Function.update_self .., hnext⟩ (fun x hx => Function.update_of_ne hx ..) ?_
    fun x q' hx => ?_
  · rw [hhome]
    simp
  · refine ⟨⟨[], rfl, fun x => ?_⟩, ⟨[], rfl, fun x => ?_⟩⟩
    · by_cases hx : x = head
      · subst hx
        simp
      · rw [Function.update_of_ne hx, ← hin]
    · by_cases hx : x = head
      · subst hx
        simp
      · rw [Function.update_of_ne hx, ← hrin]
  · simp [Queues.goTo, Queues.setQueued]
  · by_cases hxh : x = head
    · subst hxh
      rw [Function.update_self] at hx
      obtain rfl := Home.leaving.inj hx
      exact ⟨t, next, Function.update_self ..⟩
    · rw [Function.update_of_ne hxh] at hx
      exact h.leaving_next rfl (fun q x next => by rw [hop]; simp) hx

theorem Placed.popStore [DecidableEq Place] {head : Thread} {next : Option Thread}
    (hop : s.op t = .popStore q head next) :
    Placed ((s.setHead q next).goTo t (.popUnlock q (some head)))
      (Function.update home head .nowhere) := by
  have hwalks := h.walks t
  have hknows := h.knows t
  rw [hop] at hwalks hknows
  obtain ⟨hhead, hhome, hnext⟩ := hknows
  obtain ⟨⟨l, hl, hin⟩, ⟨r, hr, hrin⟩⟩ := hwalks
  obtain rfl := Chain.eq_nil hl
  obtain rfl := Chain.eq_nil hr
  have hlock : (s.op t).Locks q := by rw [hop]; rfl
  refine h.of_update hlocked rfl rfl (fun q' hq => ?_) (by rw [hhome]; exact hlock) trivial
    (by rw [hhome]; simp) (by rw [hop]; exact id) id (fun q' => ?_) ?_ trivial
    (fun x hx => rfl) ?_ fun x q' hx => ?_
  · by_contra hne
    refine hq (Function.update_of_ne ?_ ..)
    rintro rfl
    exact hne hlock
  · by_cases hq : q' = q
    · subst hq
      obtain ⟨cells, hcells, hmem⟩ := h.queue q'
      rw [hhead] at hcells
      obtain ⟨cells, rfl, hcells'⟩ := hcells.eq_cons
      refine .inr ⟨cells, ?_, fun x => ?_⟩
      · rw [hnext] at hcells'
        show Chain s.next (Function.update s.head q' next q') cells
        rw [Function.update_self]
        exact hcells'
      · by_cases hx : x = head
        · subst hx
          simp [hcells.not_mem_tail]
        · rw [Function.update_of_ne hx, ← hmem, List.mem_cons, or_iff_right hx]
    · refine .inl ⟨Function.update_of_ne hq .., iff_of_false (by simp) ?_⟩
      rw [hhome]
      simp [Ne.symm hq]
  · refine ⟨⟨[], rfl, fun x => ?_⟩, ⟨[], rfl, fun x => ?_⟩⟩
    · by_cases hx : x = head
      · subst hx
        simp
      · rw [Function.update_of_ne hx, ← hin]
    · by_cases hx : x = head
      · subst hx
        simp
      · rw [Function.update_of_ne hx, ← hrin]
  · have := h.flag head
    rw [hhome, or_iff_right (h.not_pushing (by rw [hhome]; simp))] at this
    simpa [Queues.goTo, Queues.setHead] using this
  · by_cases hxh : x = head
    · subst hxh
      simp at hx
    · rw [Function.update_of_ne hxh] at hx
      obtain ⟨u, next', hu⟩ := h.leaving x q' hx
      refine ⟨u, next', ?_⟩
      rw [Queues.goTo]
      dsimp only
      rw [Function.update_of_ne, ← hu]
      · rfl
      · rintro rfl
        rw [hop] at hu
        exact hxh (Op.popStore.inj hu).2.1.symm

theorem Placed.takeSwap [DecidableEq Place] {head : Thread} (hop : s.op t = .takeSwap q)
    (hhead : s.head q = some head) :
    Placed ((s.setHead q none).goTo t (.takeClear q head head)) (rehome home t (.takeSwap q)) := by
  have hlock : (s.op t).Locks q := by rw [hop]; rfl
  obtain ⟨⟨l, hl, hin⟩, ⟨r, hr, hrin⟩⟩ := h.walks t
  rw [hop] at hl hr
  obtain rfl := Chain.eq_nil hl
  obtain rfl := Chain.eq_nil hr
  obtain ⟨cells, hcells, hmem⟩ := h.queue q
  have hqueued : ∀ x, x ∈ cells → home x = .queued q := fun x hx =>
    h.head_queued hlocked hlock (by rw [hop]; simp) (h.linked_iff.mpr ((hmem x).mp hx))
  have hmoved : ∀ x, home x = .queued q → rehome home t (.takeSwap q) x = .taken t := by
    intro x hx
    simp only [rehome, hx, if_true]
  have hother : ∀ x, home x ≠ .queued q → rehome home t (.takeSwap q) x = home x := by
    intro x hx
    simp only [rehome]
    split
    · next q' hq' =>
      rw [if_neg, hq']
      rintro rfl
      exact hx hq'
    · rfl
  have htaken : ∀ x, rehome home t (.takeSwap q) x = .taken t ↔ home x = .queued q := by
    intro x
    by_cases hx : home x = .queued q
    · exact iff_of_true (hmoved x hx) hx
    · rw [hother x hx]
      exact iff_of_false (fun ht => absurd ((hrin x).mpr ht) List.not_mem_nil) hx
  have hwalked : ∀ x, rehome home t (.takeSwap q) x ≠ .walked t := by
    intro x
    by_cases hx : home x = .queued q
    · rw [hmoved x hx]
      simp
    · rw [hother x hx]
      exact fun hw => absurd ((hin x).mpr (.inr hw)) List.not_mem_nil
  refine h.of_frame hlocked rfl (fun x hx => absurd rfl hx) (fun q' hq => ?_) (fun x hx => ?_)
    (fun q' => ?_) ?_ trivial (fun x => ?_) fun x q' hx => ?_
  · by_contra hne
    refine hq (Function.update_of_ne ?_ ..)
    rintro rfl
    exact hne hlock
  · have hxq : home x = .queued q := by
      by_contra hne
      exact hx (hother x hne)
    rw [hmoved x hxq, hxq]
    exact ⟨hlock, rfl, by simp⟩
  · by_cases hq : q' = q
    · subst hq
      refine .inr ⟨[], Function.update_self .., fun x => iff_of_false List.not_mem_nil ?_⟩
      by_cases hx : home x = .queued q'
      · rw [hmoved x hx]
        simp
      · rw [hother x hx]
        rintro (hx' | hx')
        · exact hx hx'
        · obtain ⟨u, next, hu⟩ := h.leaving x q' hx'
          obtain rfl := (hlocked q').unique (t := u) (u := t) (by rw [hu]; rfl) hlock
          rw [hop] at hu
          simp at hu
    · refine .inl ⟨Function.update_of_ne hq .., fun x => ?_⟩
      by_cases hx : home x = .queued q
      · rw [hmoved x hx, hx]
        simp [Ne.symm hq]
      · rw [hother x hx]
  · rw [hhead] at hcells
    have hall : ∀ x, x ∈ cells ↔ home x = .queued q := fun x =>
      ⟨hqueued x, fun hx => (hmem x).mpr (.inl hx)⟩
    refine ⟨⟨cells, hcells, fun x => ?_⟩, ⟨cells, hcells, fun x => ?_⟩⟩
    · rw [hall, htaken, or_iff_left (hwalked x)]
    · rw [hall, htaken]
  · have hpush : (((s.setHead q none).goTo t (.takeClear q head head)).op x).Pushing ↔
        (s.op x).Pushing := by
      by_cases hx : x = t
      · subst hx
        simp [Queues.goTo, hop, Op.Pushing]
      · simp [Queues.goTo, Queues.setHead, Function.update_of_ne hx]
    rw [hpush]
    by_cases hx : home x = .queued q
    · have := h.flag x
      rw [hx] at this
      rw [hmoved x hx]
      simpa [Queues.goTo, Queues.setHead] using this
    · rw [hother x hx]
      exact h.flag x
  · by_cases hxq : home x = .queued q
    · rw [hmoved x hxq] at hx
      simp at hx
    · rw [hother x hxq] at hx
      exact h.leaving_next rfl (fun q x next => by rw [hop]; simp) hx

/-- **One step of an operation** moves threads from place to place. -/
theorem Placed.goes [DecidableEq Place] {o : Op Thread Place} (ho : s.op t = o)
    (hsafe : s.LinksSafely (t, .go)) (hg : Goes s t o s') : Placed s' (rehome home t o) := by
  have hwalks := h.walks t
  have hknows := h.knows t
  rw [ho] at hwalks hknows
  have hlock : ∀ q, o.Locks q → (s.op t).Locks q := fun q hq => by rw [ho]; exact hq
  have hquiet : ∀ {p : Op Thread Place}, s'.op = Function.update s.op t p → s'.next = s.next →
      s'.head = s.head → s'.queued = s.queued → (p.Pushing ↔ o.Pushing) →
      (∀ q x next, o ≠ .popStore q x next) → p.list = o.list → s'.rest p = s.rest o →
      Knows s' home t p → Placed s' home := by
    intro p hop hnext hhead hqueued hpush hstore hlist hrest hp
    exact h.quiet hlocked hop hnext hhead hqueued (by rw [hpush, ho]) (by rw [ho]; exact hstore)
      (hwalks.of_eq hnext hlist hrest) hp
  cases hg with
  | pushSpin | takeSpin | popSpin => exact h
  | pushLock => exact hquiet rfl rfl rfl rfl .rfl (by simp) rfl rfl trivial
  | pushSwapped hflag =>
    refine hquiet rfl rfl rfl ?_ .rfl (by simp) rfl rfl trivial
    exact Function.update_eq_self_iff.mpr hflag.symm
  | pushSwap hflag => exact h.pushSwap hlocked ho hflag (hsafe _ ho hflag)
  | pushLoad => exact hquiet rfl rfl rfl rfl .rfl (by simp) rfl rfl ⟨hknows, rfl⟩
  | pushNext => exact h.pushNext hlocked ho
  | pushHead => exact h.pushHead hlocked ho
  | pushUnlock => exact hquiet rfl rfl rfl rfl .rfl (by simp) rfl rfl trivial
  | takeLock => exact hquiet rfl rfl rfl rfl .rfl (by simp) rfl rfl trivial
  | @takeNone q hhead =>
    have hnobody : rehome home t (.takeSwap q) = home := by
      funext x
      simp only [rehome]
      split
      · next q' hq' =>
        rw [if_neg, hq']
        rintro rfl
        have hx := h.linked_iff.mpr (.inl hq')
        rw [Queues.Linked, hhead] at hx
        exact not_from_none hx
      · rfl
    rw [hnobody]
    refine hquiet rfl rfl ?_ rfl .rfl (by simp) rfl rfl trivial
    exact Function.update_eq_self_iff.mpr hhead.symm
  | takeSwap hhead => exact h.takeSwap hlocked ho hhead
  | takeClear => exact h.takeClear hlocked ho
  | takeLast hnext => exact hquiet rfl rfl rfl rfl .rfl (by simp) rfl hnext.symm trivial
  | takeNext hnext => exact hquiet rfl rfl rfl rfl .rfl (by simp) rfl hnext.symm trivial
  | takeNobody => exact hquiet rfl rfl rfl rfl .rfl (by simp) rfl rfl trivial
  | takeUnlock => exact hquiet rfl rfl rfl rfl .rfl (by simp) rfl rfl trivial
  | wakeNext => exact h.wakeNext hlocked ho
  | wakeLast => exact hquiet rfl rfl rfl rfl .rfl (by simp) rfl rfl trivial
  | wakeUnpark => exact hquiet rfl rfl rfl rfl .rfl (by simp) rfl rfl trivial
  | popLock => exact hquiet rfl rfl rfl rfl .rfl (by simp) rfl rfl trivial
  | popNone => exact hquiet rfl rfl rfl rfl .rfl (by simp) rfl rfl trivial
  | popLoad hhead =>
    refine hquiet rfl rfl rfl rfl .rfl (by simp) rfl rfl ⟨hhead, ?_⟩
    refine h.head_queued hlocked (hlock _ rfl) (by rw [ho]; simp) ?_
    rw [Queues.Linked, hhead]
    exact .here
  | popNext => exact hquiet rfl rfl rfl rfl .rfl (by simp) rfl rfl ⟨hknows.1, hknows.2, rfl⟩
  | popClear => exact h.popClear hlocked ho
  | popStore => exact h.popStore hlocked ho
  | popNobody => exact hquiet rfl rfl rfl rfl .rfl (by simp) rfl rfl trivial
  | popUnlock => exact hquiet rfl rfl rfl rfl .rfl (by simp) rfl rfl trivial
  | popUnpark => exact hquiet rfl rfl rfl rfl .rfl (by simp) rfl rfl trivial

end Steps

/-! ### Steps of threads that link themselves safely -/

section Act

variable [DecidableEq Place]

/-- Where a step moves threads. -/
def Queues.moves (s : Queues Thread Place) (home : Thread → Home Thread Place) :
    Thread × Act Place → Thread → Home Thread Place
  | (t, .go) => rehome home t (s.op t)
  | _ => home

/-- **Every step leaves every thread one place**, if a thread that links itself does so safely. -/
theorem Placed.next (h : Placed s home) (hlocked : s.Locked) (hsafe : s.LinksSafely (t, a))
    (hn : s.act (t, a) = some s') : Placed s' (s.moves home (t, a)) := by
  have hwalks := h.walks t
  have hcall : ∀ p : Op Thread Place, p.list = none → s.rest p = none → ¬ p.Pushing →
      Knows s home t p →
      (if s.op t = .idle then some (s.goTo t p) else none) = some s' → Placed s' home := by
    intro p hlist hrest hpush hknows hn
    split at hn
    · next hidle =>
      obtain rfl := Option.some.inj hn
      rw [hidle] at hwalks
      exact h.quiet hlocked rfl rfl rfl rfl (iff_of_false hpush (by rw [hidle]; exact id))
        (by rw [hidle]; simp) (hwalks.of_eq rfl hlist hrest) hknows
    · simp at hn
  cases a with
  | push q => exact hcall (.pushLock q) rfl rfl id trivial hn
  | take q => exact hcall (.takeLock q) rfl rfl id trivial hn
  | pop q => exact hcall (.popLock q) rfl rfl id trivial hn
  | go => exact h.goes hlocked rfl hsafe (Queues.goes_of_go hn)
  | park =>
    rw [Queues.act] at hn
    split at hn
    · next hpark =>
      obtain rfl := Option.some.inj hn
      exact h.quiet hlocked (Function.update_eq_self t s.op).symm rfl rfl rfl .rfl
        (by rw [hpark.1]; simp) (hwalks.of_eq rfl rfl rfl) (h.knows t)
    · simp at hn

/-- What is on a list that is walked stays on it until the walk comes to it. -/
theorem Placed.list_next (h : Placed s home) (hlocked : s.Locked) (hsafe : s.LinksSafely (t, a))
    (hn : s.act (t, a) = some s') (hx : From s.next (s.op u).list x) :
    From s'.next (s'.op u).list x ∨ (t = u ∧ a = .go ∧ ∃ q, s.op u = .wakeNext q x) := by
  have h' := h.next hlocked hsafe hn
  have hhome := h.list_iff.mp hx
  rw [h'.list_iff]
  cases a with
  | go =>
    have hknows := h.knows t
    have hwalks := h.walks t
    rw [Queues.moves]
    cases hop : s.op t with
    | pushHead q =>
      rw [hop] at hknows
      exact .inl (at_update hhome (by simp [hknows.1]))
    | takeSwap q =>
      refine .inl ?_
      rcases hhome with hhome | hhome <;> simp [rehome, hhome]
    | takeClear q head thread =>
      refine .inl ?_
      by_cases hxt : x = thread
      · subst hxt
        obtain ⟨r, hr, hrin⟩ := hwalks.rest
        rw [hop] at hr
        obtain ⟨r, rfl, -⟩ := Chain.eq_cons hr
        have ht := (hrin x).mp List.mem_cons_self
        obtain rfl : t = u := by
          rw [ht] at hhome
          simpa using hhome
        rw [rehome, Function.update_self]
        exact .inr rfl
      · rw [rehome, Function.update_of_ne hxt]
        exact hhome
    | wakeNext q thread =>
      by_cases hxt : x = thread
      · subst hxt
        have hmem := (h.list_iff (u := t) (x := x)).mp (by rw [hop]; exact .here)
        obtain rfl : t = u := by
          rcases hmem with hmem | hmem <;> rw [hmem] at hhome <;> simpa using hhome
        exact .inr ⟨rfl, rfl, q, hop⟩
      · rw [rehome, Function.update_of_ne hxt]
        exact .inl hhome
    | popClear q head next =>
      rw [hop] at hknows
      exact .inl (at_update hhome (by simp [hknows.2.1]))
    | popStore q head next =>
      rw [hop] at hknows
      exact .inl (at_update hhome (by simp [hknows.2.1]))
    | _ => exact .inl hhome
  | _ => exact .inl hhome

/-- What is on a queue stays on it until it is popped or the queue is taken. -/
theorem Placed.linked_next (h : Placed s home) (hlocked : s.Locked) (hsafe : s.LinksSafely (t, a))
    (hn : s.act (t, a) = some s') (hx : s.Linked q x) :
    s'.Linked q x ∨ a = .go ∧ ((∃ next, s.op t = .popStore q x next) ∨
      s.op t = .takeSwap q ∧ From s'.next (s'.op t).list x) := by
  have h' := h.next hlocked hsafe hn
  have hhome := h.linked_iff.mp hx
  rw [h'.linked_iff]
  cases a with
  | go =>
    have hknows := h.knows t
    have hwalks := h.walks t
    rw [h'.list_iff, Queues.moves]
    cases hop : s.op t with
    | pushHead q' =>
      rw [hop] at hknows
      exact .inl (at_update hhome (by simp [hknows.1]))
    | takeSwap q' =>
      by_cases hq : q = q'
      · subst hq
        have hqueued := h.head_queued hlocked (by rw [hop]; rfl) (by rw [hop]; simp) hx
        exact .inr ⟨rfl, .inr ⟨rfl, by simp [rehome, hqueued]⟩⟩
      · rcases hhome with hhome | hhome <;> exact .inl (by simp [rehome, hhome, hq])
    | takeClear q' head thread =>
      obtain ⟨r, hr, hrin⟩ := hwalks.rest
      rw [hop] at hr
      obtain ⟨r, rfl, -⟩ := Chain.eq_cons hr
      exact .inl (at_update hhome (by simp [(hrin thread).mp List.mem_cons_self]))
    | wakeNext q' thread =>
      have hmem := (h.list_iff (u := t) (x := thread)).mp (by rw [hop]; exact .here)
      exact .inl (at_update hhome (by rcases hmem with hmem | hmem <;> simp [hmem]))
    | popClear q' head next =>
      rw [hop] at hknows
      refine .inl ?_
      by_cases hxh : x = head
      · subst hxh
        rw [hknows.2.1] at hhome
        obtain rfl : q' = q := by simpa using hhome
        rw [rehome, Function.update_self]
        exact .inr rfl
      · rw [rehome, Function.update_of_ne hxh]
        exact hhome
    | popStore q' head next =>
      rw [hop] at hknows
      by_cases hxh : x = head
      · subst hxh
        rw [hknows.2.1] at hhome
        obtain rfl : q' = q := by simpa using hhome
        exact .inr ⟨rfl, .inl ⟨next, rfl⟩⟩
      · rw [rehome, Function.update_of_ne hxh]
        exact .inl hhome
    | _ => exact .inl hhome
  | _ => exact .inl hhome

/-- A thread comes on a queue by its own push. -/
theorem Placed.linked_of_next (h : Placed s home) (hlocked : s.Locked)
    (hsafe : s.LinksSafely (t, a)) (hn : s.act (t, a) = some s') (hx : s'.Linked q x) :
    s.Linked q x ∨ a = .go ∧ t = x ∧ s.op x = .pushHead q := by
  have h' := h.next hlocked hsafe hn
  have hhome := h'.linked_iff.mp hx
  rw [h.linked_iff]
  cases a with
  | go =>
    have hknows := h.knows t
    rw [Queues.moves] at hhome
    cases hop : s.op t with
    | pushHead q' =>
      rw [hop, rehome] at hhome
      obtain ⟨rfl, hq⟩ | hold := of_at_update hhome
      · obtain rfl : q' = q := by simpa using hq
        exact .inr ⟨rfl, rfl, hop⟩
      · exact .inl hold
    | takeSwap q' =>
      rw [hop] at hhome
      simp only [rehome] at hhome
      split at hhome
      · next q'' hq'' =>
        split at hhome
        · simp at hhome
        · exact .inl (hq'' ▸ hhome)
      · exact .inl hhome
    | takeClear q' head thread =>
      rw [hop, rehome] at hhome
      obtain ⟨-, hq⟩ | hold := of_at_update hhome
      · simp at hq
      · exact .inl hold
    | wakeNext q' thread =>
      rw [hop, rehome] at hhome
      obtain ⟨-, hq⟩ | hold := of_at_update hhome
      · simp at hq
      · exact .inl hold
    | popClear q' head next =>
      rw [hop] at hknows hhome
      rw [rehome] at hhome
      obtain ⟨rfl, hq⟩ | hold := of_at_update hhome
      · obtain rfl : q' = q := by simpa using hq
        exact .inl (.inl hknows.2.1)
      · exact .inl hold
    | popStore q' head next =>
      rw [hop, rehome] at hhome
      obtain ⟨-, hq⟩ | hold := of_at_update hhome
      · simp at hq
      · exact .inl hold
    | _ =>
      rw [hop] at hhome
      exact .inl hhome
  | _ => exact .inl hhome

end Act

end Threads

end StarOS
