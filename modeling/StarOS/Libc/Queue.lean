import StarOS.Lib.Chain
import StarOS.Lib.Exclusion
import StarOS.Lib.Trace

/-!
# The queues of parked threads

A thread that has to wait puts its block on the queue of what it waits for, and parks. A block has
one link and one flag for all the queues there are; each queue has a spin lock of its own. A thread
is taken off a queue by itself, to be woken, or with all the others; then its flag is cleared under
the lock, but the list is walked once more after the lock has been given back, to wake the threads
on it.

Each load, store, swap and exchange of `Queue::push`, `pop`, `take` and `wake_all` is a step of its
own here, and any thread may take the next one. What wakes a thread is a signal, and signals are
counted. A weak exchange that fails for no reason changes nothing, and so is no step.

## Main definitions

* `Threads.Op` — where a thread is in an operation on a queue
* `Threads.Queues` — links, flags, locks, heads, signals, and where everyone is
* `Threads.Does` — what one step can do
* `Threads.queueSystem`
-/

namespace StarOS

namespace Threads

/-- Where a thread is in an operation on a queue. -/
inductive Op (Thread Place : Type)
  /-- In none. -/
  | idle
  /-- Pushing itself: about to take the lock. -/
  | pushLock (q : Place)
  /-- About to set its flag. -/
  | pushSwap (q : Place)
  /-- About to load the head. -/
  | pushLoad (q : Place)
  /-- About to link itself to the head. -/
  | pushNext (q : Place) (head : Option Thread)
  /-- About to become the head. -/
  | pushHead (q : Place)
  /-- About to give the lock back. -/
  | pushUnlock (q : Place)
  /-- Taking the whole queue: about to take the lock. -/
  | takeLock (q : Place)
  /-- About to swap the head for null. -/
  | takeSwap (q : Place)
  /-- About to clear the flag of a thread. -/
  | takeClear (q : Place) (head thread : Thread)
  /-- About to follow its link. -/
  | takeNext (q : Place) (head thread : Thread)
  /-- About to give the lock back. -/
  | takeUnlock (q : Place) (head : Option Thread)
  /-- Waking the threads of a list: about to load the link of one. -/
  | wakeNext (q : Place) (thread : Thread)
  /-- About to unpark it. -/
  | wakeUnpark (q : Place) (thread : Thread) (next : Option Thread)
  /-- Popping one thread, to unpark it: about to take the lock. -/
  | popLock (q : Place)
  /-- About to load the head. -/
  | popLoad (q : Place)
  /-- About to load its link. -/
  | popNext (q : Place) (head : Thread)
  /-- About to clear its flag. -/
  | popClear (q : Place) (head : Thread) (next : Option Thread)
  /-- About to make the next one the head. -/
  | popStore (q : Place) (head : Thread) (next : Option Thread)
  /-- About to give the lock back. -/
  | popUnlock (q : Place) (head : Option Thread)
  /-- About to unpark the thread that was popped. -/
  | popUnpark (q : Place) (head : Thread)
  deriving DecidableEq

/-- The blocks of the threads, the queues, and where every thread is. -/
structure Queues (Thread Place : Type) where
  /-- `Thread::next`. -/
  next : Thread → Option Thread
  /-- `Thread::queued`. -/
  queued : Thread → BitVec 32
  /-- The signals a thread has not consumed. -/
  signals : Thread → ℕ
  /-- `Queue::lock`. -/
  lock : Place → BitVec 32
  /-- `Queue::head`. -/
  head : Place → Option Thread
  op : Thread → Op Thread Place

/-- What a thread may do with the queues: begin an operation, go on in the one it is in, or park,
which consumes a signal. -/
inductive Act (Place : Type)
  | push (q : Place)
  | take (q : Place)
  | pop (q : Place)
  | go
  | park
  deriving DecidableEq

variable {Thread Place : Type} [DecidableEq Thread] [DecidableEq Place]

/-- No queues, and nobody on them. -/
def Queues.new : Queues Thread Place :=
  ⟨fun _ => none, fun _ => 0, fun _ => 0, fun _ => 0, fun _ => none, fun _ => .idle⟩

namespace Queues

variable (s : Queues Thread Place)

/-- A thread goes to another place. -/
def goTo (t : Thread) (op : Op Thread Place) : Queues Thread Place :=
  { s with op := Function.update s.op t op }

def setLock (q : Place) (value : BitVec 32) : Queues Thread Place :=
  { s with lock := Function.update s.lock q value }

def setQueued (t : Thread) (value : BitVec 32) : Queues Thread Place :=
  { s with queued := Function.update s.queued t value }

def setNext (t : Thread) (next : Option Thread) : Queues Thread Place :=
  { s with next := Function.update s.next t next }

def setHead (q : Place) (head : Option Thread) : Queues Thread Place :=
  { s with head := Function.update s.head q head }

/-- `Thread::unpark`. -/
def unpark (t : Thread) : Queues Thread Place :=
  { s with signals := Function.update s.signals t (s.signals t + 1) }

/-- The next step of an operation. -/
def go (t : Thread) : Option (Queues Thread Place) :=
  match s.op t with
  | .idle => none
  -- `Queue::push`
  | .pushLock q => if s.lock q = 0 then some ((s.setLock q 1).goTo t (.pushSwap q)) else some s
  | .pushSwap q =>
    if s.queued t = 1 then some ((s.setQueued t 1).goTo t (.pushUnlock q))
    else some ((s.setQueued t 1).goTo t (.pushLoad q))
  | .pushLoad q => some (s.goTo t (.pushNext q (s.head q)))
  | .pushNext q head => some ((s.setNext t head).goTo t (.pushHead q))
  | .pushHead q => some ((s.setHead q (some t)).goTo t (.pushUnlock q))
  | .pushUnlock q => some ((s.setLock q 0).goTo t .idle)
  -- `Queue::take`, and `Queue::wake_all` of what it returns
  | .takeLock q => if s.lock q = 0 then some ((s.setLock q 1).goTo t (.takeSwap q)) else some s
  | .takeSwap q =>
    match s.head q with
    | none => some ((s.setHead q none).goTo t (.takeUnlock q none))
    | some head => some ((s.setHead q none).goTo t (.takeClear q head head))
  | .takeClear q head thread => some ((s.setQueued thread 0).goTo t (.takeNext q head thread))
  | .takeNext q head thread =>
    match s.next thread with
    | none => some (s.goTo t (.takeUnlock q (some head)))
    | some next => some (s.goTo t (.takeClear q head next))
  | .takeUnlock q none => some ((s.setLock q 0).goTo t .idle)
  | .takeUnlock q (some head) => some ((s.setLock q 0).goTo t (.wakeNext q head))
  | .wakeNext q thread => some (s.goTo t (.wakeUnpark q thread (s.next thread)))
  | .wakeUnpark _ thread none => some ((s.unpark thread).goTo t .idle)
  | .wakeUnpark q thread (some next) => some ((s.unpark thread).goTo t (.wakeNext q next))
  -- `Queue::pop`, and `Thread::unpark` of what it returns
  | .popLock q => if s.lock q = 0 then some ((s.setLock q 1).goTo t (.popLoad q)) else some s
  | .popLoad q =>
    match s.head q with
    | none => some (s.goTo t (.popUnlock q none))
    | some head => some (s.goTo t (.popNext q head))
  | .popNext q head => some (s.goTo t (.popClear q head (s.next head)))
  | .popClear q head next => some ((s.setQueued head 0).goTo t (.popStore q head next))
  | .popStore q head next => some ((s.setHead q next).goTo t (.popUnlock q (some head)))
  | .popUnlock q none => some ((s.setLock q 0).goTo t .idle)
  | .popUnlock q (some head) => some ((s.setLock q 0).goTo t (.popUnpark q head))
  | .popUnpark _ head => some ((s.unpark head).goTo t .idle)

/-- What a thread does. -/
def act : Thread × Act Place → Option (Queues Thread Place)
  | (t, .push q) => if s.op t = .idle then some (s.goTo t (.pushLock q)) else none
  | (t, .take q) => if s.op t = .idle then some (s.goTo t (.takeLock q)) else none
  | (t, .pop q) => if s.op t = .idle then some (s.goTo t (.popLock q)) else none
  | (t, .go) => s.go t
  | (t, .park) =>
    if s.op t = .idle ∧ s.signals t ≠ 0 then
      some { s with signals := Function.update s.signals t (s.signals t - 1) }
    else none

end Queues

/-- **What the next step of an operation does**, from each of its places. -/
inductive Goes (s : Queues Thread Place) (t : Thread) : Op Thread Place → Queues Thread Place → Prop
  | pushSpin {q} : s.lock q ≠ 0 → Goes s t (.pushLock q) s
  | pushLock {q} : s.lock q = 0 → Goes s t (.pushLock q) ((s.setLock q 1).goTo t (.pushSwap q))
  | pushSwapped {q} : s.queued t = 1 →
      Goes s t (.pushSwap q) ((s.setQueued t 1).goTo t (.pushUnlock q))
  | pushSwap {q} : s.queued t ≠ 1 →
      Goes s t (.pushSwap q) ((s.setQueued t 1).goTo t (.pushLoad q))
  | pushLoad {q} : Goes s t (.pushLoad q) (s.goTo t (.pushNext q (s.head q)))
  | pushNext {q head} : Goes s t (.pushNext q head) ((s.setNext t head).goTo t (.pushHead q))
  | pushHead {q} : Goes s t (.pushHead q) ((s.setHead q (some t)).goTo t (.pushUnlock q))
  | pushUnlock {q} : Goes s t (.pushUnlock q) ((s.setLock q 0).goTo t .idle)
  | takeSpin {q} : s.lock q ≠ 0 → Goes s t (.takeLock q) s
  | takeLock {q} : s.lock q = 0 → Goes s t (.takeLock q) ((s.setLock q 1).goTo t (.takeSwap q))
  | takeNone {q} : s.head q = none →
      Goes s t (.takeSwap q) ((s.setHead q none).goTo t (.takeUnlock q none))
  | takeSwap {q head} : s.head q = some head →
      Goes s t (.takeSwap q) ((s.setHead q none).goTo t (.takeClear q head head))
  | takeClear {q head thread} : Goes s t (.takeClear q head thread)
      ((s.setQueued thread 0).goTo t (.takeNext q head thread))
  | takeLast {q head thread} : s.next thread = none →
      Goes s t (.takeNext q head thread) (s.goTo t (.takeUnlock q (some head)))
  | takeNext {q head thread next} : s.next thread = some next →
      Goes s t (.takeNext q head thread) (s.goTo t (.takeClear q head next))
  | takeNobody {q} : Goes s t (.takeUnlock q none) ((s.setLock q 0).goTo t .idle)
  | takeUnlock {q head} :
      Goes s t (.takeUnlock q (some head)) ((s.setLock q 0).goTo t (.wakeNext q head))
  | wakeNext {q thread} :
      Goes s t (.wakeNext q thread) (s.goTo t (.wakeUnpark q thread (s.next thread)))
  | wakeLast {q thread} : Goes s t (.wakeUnpark q thread none) ((s.unpark thread).goTo t .idle)
  | wakeUnpark {q thread next} :
      Goes s t (.wakeUnpark q thread (some next)) ((s.unpark thread).goTo t (.wakeNext q next))
  | popSpin {q} : s.lock q ≠ 0 → Goes s t (.popLock q) s
  | popLock {q} : s.lock q = 0 → Goes s t (.popLock q) ((s.setLock q 1).goTo t (.popLoad q))
  | popNone {q} : s.head q = none → Goes s t (.popLoad q) (s.goTo t (.popUnlock q none))
  | popLoad {q head} : s.head q = some head → Goes s t (.popLoad q) (s.goTo t (.popNext q head))
  | popNext {q head} : Goes s t (.popNext q head) (s.goTo t (.popClear q head (s.next head)))
  | popClear {q head next} : Goes s t (.popClear q head next)
      ((s.setQueued head 0).goTo t (.popStore q head next))
  | popStore {q head next} : Goes s t (.popStore q head next)
      ((s.setHead q next).goTo t (.popUnlock q (some head)))
  | popNobody {q} : Goes s t (.popUnlock q none) ((s.setLock q 0).goTo t .idle)
  | popUnlock {q head} :
      Goes s t (.popUnlock q (some head)) ((s.setLock q 0).goTo t (.popUnpark q head))
  | popUnpark {q head} : Goes s t (.popUnpark q head) ((s.unpark head).goTo t .idle)

variable {s s' : Queues Thread Place} {t u : Thread} {q : Place}

theorem Queues.goes_of_go (h : s.go t = some s') : Goes s t (s.op t) s' := by
  rw [go] at h
  split at h <;> rename_i hop <;> rw [hop] <;> try (split at h)
  all_goals
    cases h
    try (constructor <;> assumption)

/-- An operation begins where there is none, and parks are between operations. -/
theorem Queues.idle_of_act {a : Act Place} (h : s.act (t, a) = some s') (ha : a ≠ .go) :
    s.op t = .idle := by
  cases a with
  | go => exact absurd rfl ha
  | park =>
    rw [act] at h
    split at h
    · next hpark => exact hpark.1
    · simp at h
  | push q | take q | pop q =>
    rw [act] at h
    split at h
    · assumption
    · simp at h

/-- An operation is gone on with by its own thread only. -/
theorem Queues.op_of_ne {a : Act Place} (h : s.act (t, a) = some s') (hu : u ≠ t) :
    s'.op u = s.op u := by
  cases a with
  | go =>
    have hgoes := goes_of_go h
    generalize s.op t = o at hgoes
    cases hgoes <;> first | rfl | exact Function.update_of_ne hu ..
  | park =>
    rw [act] at h
    split at h
    · obtain rfl := Option.some.inj h
      rfl
    · simp at h
  | push q | take q | pop q =>
    rw [act] at h
    split at h
    · obtain rfl := Option.some.inj h
      exact Function.update_of_ne hu ..
    · simp at h

/-- Any number of threads and queues. Every thread pushes itself only, whenever it likes. -/
def queueSystem (Thread Place : Type) [DecidableEq Thread] [DecidableEq Place] :
    EventSystem (Queues Thread Place) (Thread × Act Place) where
  init s := s = .new
  next := Queues.act

end Threads

end StarOS
