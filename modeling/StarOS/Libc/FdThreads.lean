import StarOS.Lib.Custody
import StarOS.Lib.EventSystem
import StarOS.Libc.File

/-!
# The descriptor table under threads

Each look at the table and each change of it is a critical section of its own. An operation that
writes back what it has looked at does so in two of them: a release looks and then frees the entry,
`dup3` releases the entry and then fills it, and a read or a seek looks at the file and moves its
cursor at the end. Any thread may come in between.

An installation is what an entry holds from the section that fills it to the one that frees it.
Installations are numbered as they are made, and these numbers are no part of the program. As long
as each operation that writes an entry back finds the installation there that it saw, each of them
is released once.

The operations of the file layer hold its lock. What the server answers is left open.

## Main definitions

* `FdThreads.Pc`, `FdThreads.act` — where a thread is, and what it does next
* `FdThreads.fdSystem`
* `FdThreads.Pc.Meets` — the entry about to be written is as the operation saw it
* `FdThreads.State.ledger` — where each installation is
-/

namespace StarOS

namespace FdThreads

open Fd (Fds Kind Slot index number maxFds)

/-- What comes after a release. -/
inductive Then
  | close
  /-- `dup3` fills the entry. -/
  | replace (new : ℤ) (kind : Kind)
  /-- `pipe2` takes back the read end, or the write end, of a pipe it could not make. -/
  | failRead (writeEnd : ℤ) (slot : Slot)
  | failWrite (slot : Slot)

/-- Where a thread is, by what it is about to do. An installation that an operation saw goes along
with it. -/
inductive Pc
  /-- In none of the calls. -/
  | out
  /-- Waiting for the lock of the file layer. -/
  | lockOpen
  | lockRead (fd : ℤ) (n : ℕ)
  | lockSeek (fd : ℤ) (offset : BitVec 64) (whence : ℤ)
  | lockTell (handle : BitVec 64)
  /-- Asking the server to open a file, and installing it. -/
  | askOpen
  | installFile (handle size : BitVec 64)
  /-- Telling the server that a handle is closed. -/
  | tell (handle : BitVec 64)
  /-- Giving the lock of the file layer back. -/
  | unlock
  /-- Looking for the file to read, and asking the server for more of it. -/
  | readGet (fd : ℤ) (n : ℕ)
  | reading (fd : ℤ) (seen : Option ℕ) (handle offset : BitVec 64) (n : ℕ)
  | seekGet (fd : ℤ) (offset : BitVec 64) (whence : ℤ)
  /-- Looking at the file again to move its cursor, and moving it. -/
  | setOffset (fd : ℤ) (seen : Option ℕ) (offset : BitVec 64)
  | writeOffset (fd : ℤ) (seen : Option ℕ) (kind : Kind)
  /-- Making an eventfd. -/
  | takeEvent (initial : ℤ) (flags : BitVec 32)
  | storeCount (slot : Slot) (initial : ℤ) (flags : BitVec 32)
  | installEvent (slot : Slot) (flags : BitVec 32)
  | giveBack (slot : Slot)
  /-- Making a pipe. -/
  | takePipe (flags : BitVec 32)
  | storeEnds (slot : Slot) (flags : BitVec 32)
  | installRead (slot : Slot) (flags : BitVec 32)
  | installWrite (slot : Slot) (readEnd : ℤ) (flags : BitVec 32)
  /-- Setting `O_NONBLOCK` on these. -/
  | flags (fds : List ℤ)
  /-- Releasing: looking at the entry, freeing it, and letting go of the object. -/
  | get (fd : ℤ) (k : Then)
  | free (fd : ℤ) (seen : Option ℕ) (kind : Kind) (k : Then)
  | drop (seen : Option ℕ) (kind : Kind) (k : Then)
  /-- Duplicating. -/
  | dup (fd : ℤ)
  | installCopy (fd : ℤ) (kind : Kind)
  | copyFlag (fd copy : ℤ)
  | dup3 (old new : ℤ)
  | set (new : ℤ) (kind : Kind)

/-- What a thread may do: make a call, go on with the one it is in, or go on with what the server
answers. -/
inductive Act
  | openFile
  | eventfd (initial : ℤ) (flags : BitVec 32)
  | pipe2 (flags : BitVec 32)
  | close (fd : ℤ)
  | dup (fd : ℤ)
  | dup3 (old new : ℤ)
  | dup2 (old new : ℤ)
  | read (fd : ℤ) (n : ℕ)
  | seek (fd : ℤ) (offset : BitVec 64) (whence : ℤ)
  | go
  | answer (words : Option (BitVec 64 × BitVec 64))

/-- What the threads of a process share. -/
structure Shared where
  fds : Fds
  /-- The lock of the file layer is taken. -/
  locked : Bool
  /-- The installation in each entry. -/
  ids : Fin maxFds → Option ℕ
  /-- How many there were, and which were released, the last one first. -/
  installed : ℕ
  released : List ℕ

namespace Shared

/-- The installation in the entry of a descriptor. -/
def idAt (s : Shared) (fd : ℤ) : Option ℕ := (index fd).bind s.ids

/-- The entry of a descriptor was filled. -/
def enter (s : Shared) (fd : ℤ) (fds : Fds) : Shared :=
  match index fd with
  | some i =>
    { s with fds, ids := Function.update s.ids i (some s.installed), installed := s.installed + 1 }
  | none => { s with fds }

/-- Install a descriptor. -/
def install (s : Shared) (kind : Kind) : ℤ × Shared :=
  let (fd, fds) := Fd.install kind s.fds
  (fd, s.enter fd fds)

/-- Fill the entry of a descriptor. -/
def replace (s : Shared) (fd : ℤ) (kind : Kind) : Shared := s.enter fd (Fd.set fd kind s.fds).2

/-- Free the entry of a descriptor. -/
def free (s : Shared) (fd : ℤ) : Shared :=
  { s with
    fds := (Fd.set fd .free s.fds).2
    ids := match index fd with | some i => Function.update s.ids i none | none => s.ids }

/-- Let go of an installation. -/
def letGo (s : Shared) (seen : Option ℕ) (kind : Kind) : Shared :=
  { s with fds := (Fd.drop kind s.fds).2, released := seen.toList ++ s.released }

/-- Write a descriptor with its cursor moved. -/
def write (s : Shared) (fd : ℤ) (kind : Kind) : Shared :=
  { s with fds := (Fd.set fd kind s.fds).2 }

end Shared

/-- Where a release goes on, with the handle if it was a file. -/
def Then.next : Then → Option (BitVec 64) → Pc
  | .close, some handle => .lockTell handle
  | .close, none => .out
  | .replace new kind, _ => .set new kind
  | .failRead writeEnd slot, _ =>
    if 0 ≤ writeEnd then .get writeEnd (.failWrite slot) else .giveBack slot
  | .failWrite slot, _ => .giveBack slot

/-- Where a seek comes to. -/
def seekTarget (size current offset : BitVec 64) (whence : ℤ) : Option ℤ :=
  let base : Option ℤ :=
    if whence = 0 then some 0
    else if whence = 1 then some current.toInt
    else if whence = 2 then some size.toInt
    else none
  base.bind fun base => (Files.checkedAdd base offset.toInt).filter (0 ≤ ·)

/-- The next step of a thread: what is shared after it, and where the thread is. -/
def act (s : Shared) : Pc → Act → Option (Shared × Pc)
  | .out, .openFile => some (s, .lockOpen)
  | .out, .eventfd initial flags => some (s, .takeEvent initial flags)
  | .out, .pipe2 flags => some (s, .takePipe flags)
  | .out, .close fd => some (s, .get fd .close)
  | .out, .dup fd => some (s, .dup fd)
  | .out, .dup3 old new => some (s, .dup3 old new)
  | .out, .dup2 old new => some (s, .dup3 old new)
  | .out, .read fd n => some (s, .lockRead fd n)
  | .out, .seek fd offset whence => some (s, .lockSeek fd offset whence)
  | .lockOpen, .go => if s.locked then none else some ({ s with locked := true }, .askOpen)
  | .lockRead fd n, .go => if s.locked then none else some ({ s with locked := true },
      .readGet fd n)
  | .lockSeek fd offset whence, .go =>
    if s.locked then none else some ({ s with locked := true }, .seekGet fd offset whence)
  | .lockTell handle, .go => if s.locked then none else some ({ s with locked := true },
      .tell handle)
  | .askOpen, .answer none => some (s, .unlock)
  | .askOpen, .answer (some (handle, size)) => some (s, .installFile handle size)
  | .installFile handle size, .go =>
    let (fd, s) := s.install (.file handle size 0)
    some (s, if fd < 0 then .tell handle else .unlock)
  | .tell _, .answer _ => some (s, .unlock)
  | .unlock, .go => some ({ s with locked := false }, .out)
  | .readGet fd n, .go =>
    match s.fds.get fd with
    | some (.file handle _ offset) => some (s, .reading fd (s.idAt fd) handle offset n)
    | _ => some (s, .unlock)
  | .reading fd seen _ offset 0, .go => some (s, .setOffset fd seen offset)
  | .reading fd seen handle offset (n + 1), .answer words =>
    match words with
    | none => some (s, .setOffset fd seen offset)
    | some (got, _) =>
      if got = 0 then some (s, .setOffset fd seen offset)
      else some (s, .reading fd seen handle (offset + got) (n + 1 - got.toNat))
  | .seekGet fd offset whence, .go =>
    match s.fds.get fd with
    | some (.file _ size current) =>
      match seekTarget size current offset whence with
      | some target => some (s, .setOffset fd (s.idAt fd) (.ofInt 64 target))
      | none => some (s, .unlock)
    | _ => some (s, .unlock)
  | .setOffset fd seen offset, .go =>
    match s.fds.get fd with
    | some (.file handle size _) => some (s, .writeOffset fd seen (.file handle size offset))
    | _ => some (s, .unlock)
  | .writeOffset fd _ kind, .go => some (s.write fd kind, .unlock)
  | .takeEvent initial flags, .go =>
    match Fd.takeWaitable s.fds with
    | (some slot, fds) => some ({ s with fds }, .storeCount slot initial flags)
    | (none, _) => some (s, .out)
  | .storeCount slot initial flags, .go =>
    let count := BitVec.ofInt 64 (max initial 0)
    some ({ s with fds := s.fds.change slot fun o => { o with count } }, .installEvent slot flags)
  | .installEvent slot flags, .go =>
    let (fd, s) := s.install (.event slot (flags &&& Fd.efdSemaphore ≠ 0))
    some (s, if fd < 0 then .giveBack slot
      else .flags (if flags &&& Fd.oNonblock ≠ 0 then [fd] else []))
  | .giveBack slot, .go => some ({ s with fds := (Fd.giveBack slot s.fds).2 }, .out)
  | .takePipe flags, .go =>
    match Fd.takeWaitable s.fds with
    | (some slot, fds) => some ({ s with fds }, .storeEnds slot flags)
    | (none, _) => some (s, .out)
  | .storeEnds slot flags, .go =>
    some ({ s with fds := s.fds.change slot fun o => { o with ends := 2 } },
        .installRead slot flags)
  | .installRead slot flags, .go =>
    let (readEnd, s) := s.install (.pipe slot false)
    some (s, .installWrite slot readEnd flags)
  | .installWrite slot readEnd flags, .go =>
    let (writeEnd, s) := s.install (.pipe slot true)
    if readEnd < 0 ∨ writeEnd < 0 then
      some (s, if 0 ≤ readEnd then .get readEnd (.failRead writeEnd slot)
        else (Then.failRead writeEnd slot).next none)
    else some (s, .flags (if flags &&& Fd.oNonblock ≠ 0 then [readEnd, writeEnd] else []))
  | .flags [], .go => some (s, .out)
  | .flags (fd :: fds), .go =>
    some ({ s with fds := (Fd.setNonblock fd true s.fds).2 }, .flags fds)
  | .get fd k, .go =>
    match s.fds.get fd with
    | some kind => some (s, .free fd (s.idAt fd) kind k)
    | none => some (s, k.next none)
  | .free fd seen kind k, .go => some (s.free fd, .drop seen kind k)
  | .drop seen kind k, .go => some (s.letGo seen kind, k.next kind.handle)
  | .dup fd, .go =>
    match s.fds.get fd with
    | some kind => some (s, .installCopy fd kind)
    | none => some (s, .out)
  | .installCopy fd kind, .go =>
    let (copy, s) := s.install kind
    some (s, if copy < 0 then .out else .copyFlag fd copy)
  | .copyFlag fd copy, .go =>
    some (s, .flags (if (Fd.isNonblock fd s.fds).1 then [copy] else []))
  | .dup3 old new, .go =>
    match s.fds.get old with
    | some kind => some (s, if old = new then .out else .get new (.replace new kind))
    | none => some (s, .out)
  | .set new kind, .go => some (s.replace new kind, .out)
  | _, _ => none

/-- A process with its threads. -/
structure State (Thread : Type) where
  shared : Shared
  pc : Thread → Pc

variable {Thread : Type} [DecidableEq Thread]

/-- One step of one thread. -/
def State.next (s : State Thread) : Thread × Act → Option (State Thread)
  | (t, a) => (act s.shared (s.pc t) a).map fun (shared, p) =>
    ⟨shared, Function.update s.pc t p⟩

/-- Any number of threads, and nothing open to begin with. -/
def fdSystem (Thread : Type) [DecidableEq Thread] : EventSystem (State Thread) (Thread × Act) where
  init s := s.shared.fds.Empty ∧ s.shared.locked = false ∧ (∀ i, s.shared.ids i = none) ∧
    s.shared.installed = 0 ∧ s.shared.released = [] ∧ ∀ t, s.pc t = .out
  next := State.next

/-- The entry a thread is about to write, and the installation its operation saw there. -/
def Pc.expects : Pc → Option (ℤ × Option ℕ)
  | .free fd seen _ _ => some (fd, seen)
  | .writeOffset fd seen _ => some (fd, seen)
  -- the release by `dup3` has left nothing there
  | .set new _ => some (new, none)
  | _ => none

/-- The entry a thread is about to write is as its operation saw it. -/
def Pc.Meets (p : Pc) (s : Shared) : Prop := ∀ x ∈ p.expects, s.idAt x.1 = x.2

instance (p : Pc) (s : Shared) : Decidable (p.Meets s) :=
  inferInstanceAs (Decidable (∀ x ∈ p.expects, s.idAt x.1 = x.2))

/-! ### Where the installations are -/

/-- A place for an installation. -/
inductive Place (Thread : Type)
  | entry (i : Fin maxFds)
  /-- A thread has freed its entry and is about to let go of it. -/
  | hand (t : Thread)
  | released

/-- What a thread is about to let go of. -/
def Pc.hand : Pc → Option ℕ
  | .drop seen _ _ => seen
  | _ => none

/-- Where each installation is. -/
def State.ledger (s : State Thread) : Ledger (Place Thread) ℕ
  | .entry i => (s.shared.ids i).elim 0 fun n => {n}
  | .hand t => (s.pc t).hand.elim 0 fun n => {n}
  | .released => (s.shared.released : Multiset ℕ)

/-- What a descriptor is of, wherever its cursor is. -/
def object : Kind → Kind
  | .file handle size _ => .file handle size 0
  | kind => kind

end FdThreads

end StarOS
