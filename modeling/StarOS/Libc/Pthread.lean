import StarOS.Libc.Queue

/-!
# Mutexes, condition variables, semaphores and read-write locks

The four kinds of objects threads wait for each other with, over the queues of parked threads. A
thread that cannot go on pushes itself on the queue of the object, looks once more, and parks; who
changes the object pops a thread from its queue, or takes all of them, and unparks.

Each load, store and exchange is a step of its own here, as are those of the operations on the
queues, and any thread may take the next one. A call begins when a thread is in none, and a thread
unlocks only what it holds. Deadlines pass when they like. What a thread holds is noted beside the
memory: it is what the program that calls knows.

## Main definitions

* `Threads.Memory` — the words of all the objects
* `Threads.Pc`, `Threads.Memory.act` — where a thread is outside the queues, and what it does next
* `Threads.Does` — what one step can do
* `Threads.threadSystem`
-/

namespace StarOS

namespace Threads

/-- The objects that have a queue. There are as many of each kind as a program likes. -/
inductive Place
  | mutex (m : ℕ)
  | cond (c : ℕ)
  | sem (i : ℕ)
  | rwlock (l : ℕ)
  deriving DecidableEq

/-- Whether a call waits, tries once, or tries until a deadline. -/
inductive How
  | wait
  | once
  | timed
  deriving DecidableEq

/-- What a timed call tries again and again. -/
inductive Attempt
  | lock (m : ℕ)
  | sem (i : ℕ)
  | read (l : ℕ)
  | write (l : ℕ)
  deriving DecidableEq

/-- Where a thread is when it is in no operation on a queue. What follows an operation on a queue is
where the thread is during that operation too. -/
inductive Pc
  /-- In no call. -/
  | out
  /-- A timed call that has failed once more: about to look at the clock. -/
  | clock (attempt : Attempt)
  /-- `Mutex::lock` and `try_lock`: about to exchange the state. -/
  | lockTry (m : ℕ) (how : How)
  /-- `Mutex::lock`, on its queue: about to exchange the state again. -/
  | lockRetry (m : ℕ)
  | lockPark (m : ℕ)
  /-- `Mutex::unlock`, alone or in a wait for a condition variable: about to clear the state. -/
  | unlockStore (m : ℕ) (wait : Option (ℕ × Bool))
  /-- `pthread_cond_wait` and `pthread_cond_timedwait`. -/
  | condPark (c m : ℕ) (timed : Bool)
  /-- `sem_post`: about to add one. -/
  | semPost (i : ℕ)
  /-- `sem_wait`, `sem_trywait` and `sem_timedwait`: about to load the count. -/
  | semLoad (i : ℕ) (how : How)
  /-- About to exchange the count for one less. -/
  | semTake (i : ℕ) (count : BitVec 32) (how : How)
  /-- `sem_wait`, on its queue: about to load the count again. -/
  | semCheck (i : ℕ)
  | semPark (i : ℕ)
  /-- `RwLock::read_lock` and `try_read_lock`: about to look whether there is a writer. -/
  | readLook (l : ℕ) (how : How)
  /-- About to announce itself. -/
  | readAdd (l : ℕ) (how : How)
  /-- About to look again. -/
  | readRelook (l : ℕ) (how : How)
  /-- About to back out. -/
  | readBack (l : ℕ) (how : How)
  /-- `RwLock::read_lock`, on its queue: about to look again. -/
  | readCheck (l : ℕ)
  | readPark (l : ℕ)
  /-- `RwLock::write_lock` and `try_write_lock`: about to exchange the writer flag. -/
  | writeClaim (l : ℕ) (how : How)
  /-- About to look whether there are readers. -/
  | writeLook (l : ℕ) (how : How)
  /-- About to become the owner. -/
  | writeOwn (l : ℕ)
  /-- About to give the flag back. -/
  | writeBack (l : ℕ) (how : How)
  /-- `RwLock::write_lock`, when it has woken the others: about to push itself. -/
  | writePush (l : ℕ)
  /-- On its queue: about to look at the flag, -/
  | writeCheck (l : ℕ)
  /-- and at the readers. -/
  | writeRecheck (l : ℕ)
  | writePark (l : ℕ)
  /-- `RwLock::unlock`: about to look whether it is the owner, -/
  | unlockOwner (l : ℕ)
  /-- and whether the flag is set. -/
  | unlockWriter (l : ℕ)
  /-- About to clear the owner, -/
  | clearOwner (l : ℕ)
  /-- and the flag. -/
  | clearWriter (l : ℕ)
  /-- About to take itself off the readers. -/
  | readerLeave (l : ℕ)
  deriving DecidableEq

/-- Where a timed call begins its next attempt. -/
def Attempt.pc : Attempt → Pc
  | .lock m => .lockTry m .timed
  | .sem i => .semLoad i .timed
  | .read l => .readLook l .timed
  | .write l => .writeClaim l .timed

/-- The calls. -/
inductive Call
  | lock (m : ℕ) (how : How)
  | unlock (m : ℕ)
  | condWait (c m : ℕ) (timed : Bool)
  | signal (c : ℕ)
  | broadcast (c : ℕ)
  | post (i : ℕ)
  | semWait (i : ℕ) (how : How)
  | readLock (l : ℕ) (how : How)
  | writeLock (l : ℕ) (how : How)
  | rwUnlock (l : ℕ)
  deriving DecidableEq

/-- What a thread may do: make a call, go on in one, or find that its deadline has passed. -/
inductive Event
  | call (c : Call)
  | go
  | expire
  deriving DecidableEq

/-- The words of the objects, and what each thread holds. -/
structure Memory (Thread : Type) where
  /-- `Mutex::state`. -/
  state : ℕ → BitVec 32
  /-- `Sem::count`. -/
  count : ℕ → BitVec 32
  /-- `RwLock::readers`. -/
  readers : ℕ → BitVec 32
  /-- `RwLock::writer`. -/
  writer : ℕ → BitVec 32
  /-- `RwLock::owner`. -/
  owner : ℕ → Option Thread
  /-- A thread holds a mutex. -/
  holds : ℕ → Thread → Bool
  /-- How often a thread holds a lock for reading. -/
  reads : ℕ → Thread → ℕ
  /-- A thread holds a lock for writing. -/
  writes : ℕ → Thread → Bool

variable {Thread : Type} [DecidableEq Thread]

namespace Memory

variable (mem : Memory Thread)

def setState (m : ℕ) (value : BitVec 32) : Memory Thread :=
  { mem with state := Function.update mem.state m value }

def setCount (i : ℕ) (value : BitVec 32) : Memory Thread :=
  { mem with count := Function.update mem.count i value }

def setReaders (l : ℕ) (value : BitVec 32) : Memory Thread :=
  { mem with readers := Function.update mem.readers l value }

def setWriter (l : ℕ) (value : BitVec 32) : Memory Thread :=
  { mem with writer := Function.update mem.writer l value }

def setOwner (l : ℕ) (value : Option Thread) : Memory Thread :=
  { mem with owner := Function.update mem.owner l value }

def setHolds (m : ℕ) (t : Thread) (value : Bool) : Memory Thread :=
  { mem with holds := Function.update mem.holds m (Function.update (mem.holds m) t value) }

def setReads (l : ℕ) (t : Thread) (value : ℕ) : Memory Thread :=
  { mem with reads := Function.update mem.reads l (Function.update (mem.reads l) t value) }

def setWrites (l : ℕ) (t : Thread) (value : Bool) : Memory Thread :=
  { mem with writes := Function.update mem.writes l (Function.update (mem.writes l) t value) }

end Memory

/-- What a step leaves in the memory, where the thread goes, and what it does with a queue. -/
structure Effect (Thread : Type) where
  mem : Memory Thread
  pc : Pc
  queue : Option (Act Place)

/-- Where a call goes that did not get what it wanted: a waiting one pushes itself. -/
def How.fail (how : How) (attempt : Attempt) (wait : Pc) (q : Place) (mem : Memory Thread) :
    Effect Thread :=
  match how with
  | .wait => ⟨mem, wait, some (.push q)⟩
  | .once => ⟨mem, .out, none⟩
  | .timed => ⟨mem, .clock attempt, none⟩

/-- The first step of a call. -/
def Memory.call (mem : Memory Thread) (t : Thread) : Call → Option (Effect Thread)
  | .lock m how => some ⟨mem, .lockTry m how, none⟩
  | .unlock m => if mem.holds m t then some ⟨mem, .unlockStore m none, none⟩ else none
  | .condWait c m timed =>
    if mem.holds m t then some ⟨mem, .unlockStore m (some (c, timed)), some (.push (.cond c))⟩ else none
  | .signal c => some ⟨mem, .out, some (.pop (.cond c))⟩
  | .broadcast c => some ⟨mem, .out, some (.take (.cond c))⟩
  | .post i => some ⟨mem, .semPost i, none⟩
  | .semWait i how => some ⟨mem, .semLoad i how, none⟩
  | .readLock l how => some ⟨mem, .readLook l how, none⟩
  | .writeLock l how => some ⟨mem, .writeClaim l how, none⟩
  | .rwUnlock l =>
    if mem.reads l t ≠ 0 ∨ mem.writes l t then some ⟨mem, .unlockOwner l, none⟩ else none

/-- The next step of a call. -/
def Memory.go (mem : Memory Thread) (t : Thread) : Pc → Option (Effect Thread)
  | .out => none
  | .clock attempt => some ⟨mem, attempt.pc, none⟩
  -- `Mutex::lock`, `try_lock`
  | .lockTry m how =>
    if mem.state m = 0 then some ⟨(mem.setState m 1).setHolds m t true, .out, none⟩
    else some (how.fail (.lock m) (.lockRetry m) (.mutex m) mem)
  | .lockRetry m =>
    if mem.state m = 0 then
      some ⟨(mem.setState m 1).setHolds m t true, .out, some (.take (.mutex m))⟩
    else some ⟨mem, .lockPark m, none⟩
  | .lockPark m => some ⟨mem, .lockTry m .wait, some .park⟩
  -- `Mutex::unlock`
  | .unlockStore m wait =>
    some ⟨(mem.setState m 0).setHolds m t false,
      wait.elim .out fun (c, timed) => .condPark c m timed, some (.pop (.mutex m))⟩
  -- `pthread_cond_wait`, `pthread_cond_timedwait`
  | .condPark _ m _ => some ⟨mem, .lockTry m .wait, some .park⟩
  -- `sem_post`
  | .semPost i => some ⟨mem.setCount i (mem.count i + 1), .out, some (.pop (.sem i))⟩
  -- `sem_wait`, `sem_trywait`
  | .semLoad i how =>
    if mem.count i = 0 then some (how.fail (.sem i) (.semCheck i) (.sem i) mem)
    else some ⟨mem, .semTake i (mem.count i) how, none⟩
  | .semTake i count how =>
    if mem.count i = count then some ⟨mem.setCount i (count - 1), .out, none⟩
    else if how = .wait then some ⟨mem, .semLoad i .wait, none⟩
    else some (how.fail (.sem i) (.semCheck i) (.sem i) mem)
  | .semCheck i =>
    if mem.count i = 0 then some ⟨mem, .semPark i, none⟩ else some ⟨mem, .semLoad i .wait, none⟩
  | .semPark i => some ⟨mem, .semLoad i .wait, some .park⟩
  -- `RwLock::read_lock`, `try_read_lock`
  | .readLook l how =>
    if mem.writer l = 0 then some ⟨mem, .readAdd l how, none⟩
    else some (how.fail (.read l) (.readCheck l) (.rwlock l) mem)
  | .readAdd l how => some ⟨mem.setReaders l (mem.readers l + 1), .readRelook l how, none⟩
  | .readRelook l how =>
    if mem.writer l = 0 then some ⟨mem.setReads l t (mem.reads l t + 1), .out, none⟩
    else some ⟨mem, .readBack l how, none⟩
  | .readBack l how =>
    some (how.fail (.read l) (.readCheck l) (.rwlock l)
      (mem.setReaders l (mem.readers l - 1)))
  | .readCheck l =>
    if mem.writer l ≠ 0 then some ⟨mem, .readPark l, none⟩ else some ⟨mem, .readLook l .wait, none⟩
  | .readPark l => some ⟨mem, .readLook l .wait, some .park⟩
  -- `RwLock::write_lock`, `try_write_lock`
  | .writeClaim l how =>
    if mem.writer l = 0 then some ⟨mem.setWriter l 1, .writeLook l how, none⟩
    else some (how.fail (.write l) (.writeCheck l) (.rwlock l) mem)
  | .writeLook l how =>
    if mem.readers l = 0 then some ⟨mem, .writeOwn l, none⟩ else some ⟨mem, .writeBack l how, none⟩
  | .writeOwn l => some ⟨(mem.setOwner l (some t)).setWrites l t true, .out, none⟩
  | .writeBack l how =>
    some ⟨mem.setWriter l 0, match how with
      | .wait => .writePush l
      | .once => .out
      | .timed => .clock (.write l), some (.take (.rwlock l))⟩
  | .writePush l => some ⟨mem, .writeCheck l, some (.push (.rwlock l))⟩
  | .writeCheck l =>
    if mem.writer l ≠ 0 then some ⟨mem, .writePark l, none⟩ else some ⟨mem, .writeRecheck l, none⟩
  | .writeRecheck l =>
    if mem.readers l ≠ 0 then some ⟨mem, .writePark l, none⟩
    else some ⟨mem, .writeClaim l .wait, none⟩
  | .writePark l => some ⟨mem, .writeClaim l .wait, some .park⟩
  -- `RwLock::unlock`
  | .unlockOwner l =>
    if mem.owner l = some t then some ⟨mem, .unlockWriter l, none⟩
    else some ⟨mem, .readerLeave l, none⟩
  | .unlockWriter l =>
    if mem.writer l = 1 then some ⟨mem, .clearOwner l, none⟩ else some ⟨mem, .readerLeave l, none⟩
  | .clearOwner l => some ⟨mem.setOwner l none, .clearWriter l, none⟩
  | .clearWriter l =>
    some ⟨(mem.setWriter l 0).setWrites l t false, .out, some (.take (.rwlock l))⟩
  | .readerLeave l =>
    some ⟨(mem.setReaders l (mem.readers l - 1)).setReads l t (mem.reads l t - 1), .out,
      some (.take (.rwlock l))⟩

/-- What a thread in no operation on a queue does. -/
def Memory.act (mem : Memory Thread) (t : Thread) : Pc → Event → Option (Effect Thread)
  | .out, .call c => mem.call t c
  | .condPark _ m true, .expire => some ⟨mem, .lockTry m .wait, none⟩
  | .clock _, .expire => some ⟨mem, .out, none⟩
  | p, .go => mem.go t p
  | _, _ => none

/-- **What a thread does outside the queues**, from each of its places. -/
inductive Does (mem : Memory Thread) (t : Thread) : Pc → Event → Effect Thread → Prop
  | lock {m how} : Does mem t .out (.call (.lock m how)) ⟨mem, .lockTry m how, none⟩
  | unlock {m} : mem.holds m t → Does mem t .out (.call (.unlock m)) ⟨mem, .unlockStore m none, none⟩
  | condWait {c m timed} : mem.holds m t → Does mem t .out (.call (.condWait c m timed))
      ⟨mem, .unlockStore m (some (c, timed)), some (.push (.cond c))⟩
  | signal {c} : Does mem t .out (.call (.signal c)) ⟨mem, .out, some (.pop (.cond c))⟩
  | broadcast {c} : Does mem t .out (.call (.broadcast c)) ⟨mem, .out, some (.take (.cond c))⟩
  | post {i} : Does mem t .out (.call (.post i)) ⟨mem, .semPost i, none⟩
  | semWait {i how} : Does mem t .out (.call (.semWait i how)) ⟨mem, .semLoad i how, none⟩
  | readLock {l how} : Does mem t .out (.call (.readLock l how)) ⟨mem, .readLook l how, none⟩
  | writeLock {l how} : Does mem t .out (.call (.writeLock l how)) ⟨mem, .writeClaim l how, none⟩
  | rwUnlock {l} : mem.reads l t ≠ 0 ∨ mem.writes l t →
      Does mem t .out (.call (.rwUnlock l)) ⟨mem, .unlockOwner l, none⟩
  | retry {attempt} : Does mem t (.clock attempt) .go ⟨mem, attempt.pc, none⟩
  | late {attempt} : Does mem t (.clock attempt) .expire ⟨mem, .out, none⟩
  | locked {m how} : mem.state m = 0 →
      Does mem t (.lockTry m how) .go ⟨(mem.setState m 1).setHolds m t true, .out, none⟩
  | lockFails {m how} : mem.state m ≠ 0 → Does mem t (.lockTry m how) .go
      (how.fail (.lock m) (.lockRetry m) (.mutex m) mem)
  | relocked {m} : mem.state m = 0 → Does mem t (.lockRetry m) .go
      ⟨(mem.setState m 1).setHolds m t true, .out, some (.take (.mutex m))⟩
  | relockFails {m} : mem.state m ≠ 0 → Does mem t (.lockRetry m) .go ⟨mem, .lockPark m, none⟩
  | lockPark {m} : Does mem t (.lockPark m) .go ⟨mem, .lockTry m .wait, some .park⟩
  | unlocked {m} : Does mem t (.unlockStore m none) .go
      ⟨(mem.setState m 0).setHolds m t false, .out, some (.pop (.mutex m))⟩
  | unlockedFor {m c timed} : Does mem t (.unlockStore m (some (c, timed))) .go
      ⟨(mem.setState m 0).setHolds m t false, .condPark c m timed, some (.pop (.mutex m))⟩
  | condPark {c m timed} :
      Does mem t (.condPark c m timed) .go ⟨mem, .lockTry m .wait, some .park⟩
  | condLate {c m} : Does mem t (.condPark c m true) .expire ⟨mem, .lockTry m .wait, none⟩
  | posted {i} : Does mem t (.semPost i) .go
      ⟨mem.setCount i (mem.count i + 1), .out, some (.pop (.sem i))⟩
  | semNone {i how} : mem.count i = 0 →
      Does mem t (.semLoad i how) .go (how.fail (.sem i) (.semCheck i) (.sem i) mem)
  | semSome {i how} : mem.count i ≠ 0 →
      Does mem t (.semLoad i how) .go ⟨mem, .semTake i (mem.count i) how, none⟩
  | semTaken {i count how} : mem.count i = count →
      Does mem t (.semTake i count how) .go ⟨mem.setCount i (count - 1), .out, none⟩
  | semLost {i count} : mem.count i ≠ count →
      Does mem t (.semTake i count .wait) .go ⟨mem, .semLoad i .wait, none⟩
  | semFails {i count how} : mem.count i ≠ count → how ≠ .wait → Does mem t (.semTake i count how) .go
      (how.fail (.sem i) (.semCheck i) (.sem i) mem)
  | semParks {i} : mem.count i = 0 → Does mem t (.semCheck i) .go ⟨mem, .semPark i, none⟩
  | semAgain {i} : mem.count i ≠ 0 → Does mem t (.semCheck i) .go ⟨mem, .semLoad i .wait, none⟩
  | semPark {i} : Does mem t (.semPark i) .go ⟨mem, .semLoad i .wait, some .park⟩
  | readFree {l how} : mem.writer l = 0 → Does mem t (.readLook l how) .go ⟨mem, .readAdd l how, none⟩
  | readTaken {l how} : mem.writer l ≠ 0 → Does mem t (.readLook l how) .go
      (how.fail (.read l) (.readCheck l) (.rwlock l) mem)
  | readAdd {l how} : Does mem t (.readAdd l how) .go
      ⟨mem.setReaders l (mem.readers l + 1), .readRelook l how, none⟩
  | readLocked {l how} : mem.writer l = 0 → Does mem t (.readRelook l how) .go
      ⟨mem.setReads l t (mem.reads l t + 1), .out, none⟩
  | readLost {l how} : mem.writer l ≠ 0 →
      Does mem t (.readRelook l how) .go ⟨mem, .readBack l how, none⟩
  | readBack {l how} : Does mem t (.readBack l how) .go
      (how.fail (.read l) (.readCheck l) (.rwlock l) (mem.setReaders l (mem.readers l - 1)))
  | readParks {l} : mem.writer l ≠ 0 → Does mem t (.readCheck l) .go ⟨mem, .readPark l, none⟩
  | readAgain {l} : mem.writer l = 0 → Does mem t (.readCheck l) .go ⟨mem, .readLook l .wait, none⟩
  | readPark {l} : Does mem t (.readPark l) .go ⟨mem, .readLook l .wait, some .park⟩
  | writeClaimed {l how} : mem.writer l = 0 → Does mem t (.writeClaim l how) .go
      ⟨mem.setWriter l 1, .writeLook l how, none⟩
  | writeTaken {l how} : mem.writer l ≠ 0 → Does mem t (.writeClaim l how) .go
      (how.fail (.write l) (.writeCheck l) (.rwlock l) mem)
  | writeFree {l how} : mem.readers l = 0 →
      Does mem t (.writeLook l how) .go ⟨mem, .writeOwn l, none⟩
  | writeBusy {l how} : mem.readers l ≠ 0 →
      Does mem t (.writeLook l how) .go ⟨mem, .writeBack l how, none⟩
  | writeLocked {l} : Does mem t (.writeOwn l) .go
      ⟨(mem.setOwner l (some t)).setWrites l t true, .out, none⟩
  | writeBack {l} : Does mem t (.writeBack l .wait) .go
      ⟨mem.setWriter l 0, .writePush l, some (.take (.rwlock l))⟩
  | writeGivesUp {l} : Does mem t (.writeBack l .once) .go
      ⟨mem.setWriter l 0, .out, some (.take (.rwlock l))⟩
  | writeWaits {l} : Does mem t (.writeBack l .timed) .go
      ⟨mem.setWriter l 0, .clock (.write l), some (.take (.rwlock l))⟩
  | writePush {l} : Does mem t (.writePush l) .go ⟨mem, .writeCheck l, some (.push (.rwlock l))⟩
  | writeSees {l} : mem.writer l ≠ 0 → Does mem t (.writeCheck l) .go ⟨mem, .writePark l, none⟩
  | writeChecks {l} : mem.writer l = 0 →
      Does mem t (.writeCheck l) .go ⟨mem, .writeRecheck l, none⟩
  | writeParks {l} : mem.readers l ≠ 0 →
      Does mem t (.writeRecheck l) .go ⟨mem, .writePark l, none⟩
  | writeAgain {l} : mem.readers l = 0 →
      Does mem t (.writeRecheck l) .go ⟨mem, .writeClaim l .wait, none⟩
  | writePark {l} : Does mem t (.writePark l) .go ⟨mem, .writeClaim l .wait, some .park⟩
  | owns {l} : mem.owner l = some t →
      Does mem t (.unlockOwner l) .go ⟨mem, .unlockWriter l, none⟩
  | reads {l} : mem.owner l ≠ some t →
      Does mem t (.unlockOwner l) .go ⟨mem, .readerLeave l, none⟩
  | writes {l} : mem.writer l = 1 → Does mem t (.unlockWriter l) .go ⟨mem, .clearOwner l, none⟩
  | noWriter {l} : mem.writer l ≠ 1 →
      Does mem t (.unlockWriter l) .go ⟨mem, .readerLeave l, none⟩
  | clearOwner {l} : Does mem t (.clearOwner l) .go ⟨mem.setOwner l none, .clearWriter l, none⟩
  | clearWriter {l} : Does mem t (.clearWriter l) .go
      ⟨(mem.setWriter l 0).setWrites l t false, .out, some (.take (.rwlock l))⟩
  | readerLeave {l} : Does mem t (.readerLeave l) .go
      ⟨(mem.setReaders l (mem.readers l - 1)).setReads l t (mem.reads l t - 1), .out,
        some (.take (.rwlock l))⟩

section Does

variable {mem : Memory Thread} {t : Thread} {p : Pc} {e : Event} {eff : Effect Thread}

theorem Does.of_call {c : Call} (h : mem.call t c = some eff) : Does mem t .out (.call c) eff := by
  cases c <;> simp only [Memory.call] at h <;> try (split at h)
  all_goals
    cases h
    try (constructor <;> assumption)

theorem Does.of_go (h : mem.go t p = some eff) : Does mem t p .go eff := by
  cases p with
  | unlockStore m wait =>
    obtain rfl := Option.some.inj h
    rcases wait with _ | ⟨c, timed⟩
    · exact .unlocked
    · exact .unlockedFor
  | semTake i count how =>
    rw [Memory.go] at h
    split at h
    · next heq =>
      obtain rfl := Option.some.inj h
      exact .semTaken heq
    · next hne =>
      split at h <;> obtain rfl := Option.some.inj h
      · next hhow =>
        subst hhow
        exact .semLost hne
      · next hhow => exact .semFails hne hhow
  | writeBack l how =>
    obtain rfl := Option.some.inj h
    cases how
    · exact .writeBack
    · exact .writeGivesUp
    · exact .writeWaits
  | _ =>
    simp only [Memory.go] at h
    try (split at h)
    all_goals
      cases h
      try (constructor <;> first | assumption | exact not_not.mp ‹_›)

theorem Does.of_act (h : mem.act t p e = some eff) : Does mem t p e eff := by
  cases e with
  | go =>
    cases p with
    | condPark c m timed => cases timed <;> exact .of_go h
    | _ => exact .of_go h
  | call c =>
    cases p with
    | out => exact .of_call h
    | condPark c m timed => cases timed <;> simp [Memory.act] at h
    | _ => simp [Memory.act] at h
  | expire =>
    cases p with
    | clock attempt =>
      obtain rfl := Option.some.inj h
      exact .late
    | condPark c m timed =>
      cases timed
      · simp [Memory.act] at h
      · obtain rfl := Option.some.inj h
        exact .condLate
    | _ => simp [Memory.act] at h

end Does

/-- The threads, the queues and the objects. -/
structure State (Thread : Type) where
  queues : Queues Thread Place
  mem : Memory Thread
  pc : Thread → Pc

/-- A thread does what `effect` says, if it can with the queues. -/
def State.perform (s : State Thread) (t : Thread) (effect : Effect Thread) : Option (State Thread) :=
  match effect.queue with
  | none => some { s with mem := effect.mem, pc := Function.update s.pc t effect.pc }
  | some a => (s.queues.act (t, a)).map fun queues =>
    ⟨queues, effect.mem, Function.update s.pc t effect.pc⟩

/-- One step of one thread: in an operation on a queue it goes on there. -/
def State.next (s : State Thread) : Thread × Event → Option (State Thread)
  | (t, e) =>
    if s.queues.op t = .idle then (s.mem.act t (s.pc t) e).bind (s.perform t)
    else if e = .go then (s.queues.go t).map fun queues => { s with queues }
    else none

/-- Nobody holds anything. The counts of the semaphores are what they were initialised with. -/
def Memory.new (count : ℕ → BitVec 32) : Memory Thread :=
  ⟨fun _ => 0, count, fun _ => 0, fun _ => 0, fun _ => none, fun _ _ => false, fun _ _ => 0,
    fun _ _ => false⟩

/-- Any number of threads, and of objects of each kind. -/
def threadSystem (Thread : Type) [DecidableEq Thread] : EventSystem (State Thread) (Thread × Event) where
  init s := ∃ count, s = ⟨.new, .new count, fun _ => .out⟩
  next := State.next

end Threads

end StarOS
