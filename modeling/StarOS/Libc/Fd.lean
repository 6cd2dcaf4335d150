import Mathlib.Data.List.FinRange
import Mathlib.Logic.Function.Basic
import StarOS.Abi

/-!
# The descriptor table

A process has one table of descriptors, and each entry says what kind of object it names. An
eventfd, the two ends of a pipe and a bound endpoint need a slot of a fixed pool; such an object is
a counter and a ring with the number of open ends.

The table has no reference count: a copy of a descriptor shares the object, and closing either of
them releases it.

## Main definitions

* `Fd.Kind`, `Fd.Waitable`, `Fd.Fds`
* `Fd.install`, `Fd.set`, `Fd.takeWaitable`, `Fd.release`
* `Fd.eventfd`, `Fd.endpointFd`, `Fd.pipe2`, `Fd.dup`, `Fd.dup3`, `Fd.closeRange`
-/

namespace StarOS

namespace Fd

/-- Descriptors in the process. -/
def maxFds : ℕ := 32

/-- The first descriptor handed out. 0, 1 and 2 are the standard streams. -/
def firstFd : ℕ := 3

/-- How many waitable objects may exist at once. -/
def maxWaitables : ℕ := 8

/-- `EFD_SEMAPHORE`, and `EFD_NONBLOCK`, which is `O_NONBLOCK`. -/
def efdSemaphore : BitVec 32 := 1
def oNonblock : BitVec 32 := 0o4000

/-- What a call that fails answers, negated. -/
def emfile : ℤ := 24
def einval : ℤ := 22

/-- A slot of the pool. -/
abbrev Slot := Fin maxWaitables

/-- What a descriptor is. -/
inductive Kind
  | free
  /-- A file at the server: its handle, its size and this descriptor's cursor. -/
  | file (handle size offset : BitVec 64)
  /-- An eventfd, and whether it is semaphore-like. -/
  | event (slot : Slot) (semaphore : Bool)
  /-- One end of a pipe. -/
  | pipe (slot : Slot) (write : Bool)
  /-- An endpoint. One that can only be sent to has no slot. -/
  | endpoint (cap : Handle) (slot : Option Slot)
  deriving DecidableEq

/-- A waitable object. -/
structure Waitable where
  used : Bool
  /-- The notifications for a reader and for a writer, 0 if there were none left at start-up. -/
  readable : Handle
  writable : Handle
  /-- The counter of an eventfd. -/
  count : BitVec 64
  /-- How many bytes of a pipe were read and written, and how many of its ends are open. -/
  head : BitVec 64
  tail : BitVec 64
  ends : BitVec 32

/-- Bytes waiting in the ring. -/
def Waitable.buffered (o : Waitable) : BitVec 64 := o.tail - o.head

/-- A reader of the pipe hears that there is nothing more to come, or a writer that nobody reads. -/
def Waitable.endOfFile (o : Waitable) : Prop := o.buffered = 0 ∧ o.ends < 2
def Waitable.brokenPipe (o : Waitable) : Prop := o.ends < 2

/-- The descriptors of a process and the pool behind them. -/
structure Fds where
  kinds : Fin maxFds → Kind
  /-- Which descriptors were asked not to block. -/
  nonblock : Fin maxFds → Bool
  waitables : Slot → Waitable

/-- The entry of a descriptor. -/
def index (fd : ℤ) : Option (Fin maxFds) :=
  if h : 0 ≤ fd - firstFd ∧ (fd - firstFd).toNat < maxFds then some ⟨(fd - firstFd).toNat, h.2⟩
  else none

/-- The descriptor of an entry. -/
def number (i : Fin maxFds) : ℤ := i + firstFd

namespace Fds

/-- Nothing is open. -/
def Empty (s : Fds) : Prop := (∀ i, s.kinds i = .free) ∧ ∀ w, (s.waitables w).used = false

/-- What a descriptor names. -/
def get (s : Fds) (fd : ℤ) : Option Kind := do
  match s.kinds (← index fd) with
  | .free => none
  | kind => some kind

/-- One entry of the table replaced. -/
def put (s : Fds) (i : Fin maxFds) (kind : Kind) : Fds :=
  { s with kinds := Function.update s.kinds i kind }

/-- One object of the pool changed. -/
def change (s : Fds) (w : Slot) (f : Waitable → Waitable) : Fds :=
  { s with waitables := Function.update s.waitables w (f (s.waitables w)) }

end Fds

/-- Set or clear `O_NONBLOCK`. Answers whether the descriptor names anything; the standard streams
accept the flag and are unaffected by it. -/
def setNonblock (fd : ℤ) (on : Bool) : StateM Fds Bool := fun s =>
  if 0 ≤ fd ∧ fd < firstFd then (true, s)
  else match index fd with
    | none => (false, s)
    | some i =>
      if (s.get fd).isSome then (true, { s with nonblock := Function.update s.nonblock i on })
      else (false, s)

/-- Whether a descriptor was asked not to block. -/
def isNonblock (fd : ℤ) : StateM Fds Bool := fun s => ((index fd).any s.nonblock, s)

/-- Install a descriptor, which blocks. Answers its number, or -1 if the table is full. -/
def install (kind : Kind) : StateM Fds ℤ := fun s =>
  match (List.finRange maxFds).find? (s.kinds · = .free) with
  | some i => (number i, { s.put i kind with nonblock := Function.update s.nonblock i false })
  | none => (-1, s)

/-- Replace what a descriptor names. -/
def set (fd : ℤ) (kind : Kind) : StateM Fds Bool := fun s =>
  match index fd with
  | some i => (true, s.put i kind)
  | none => (false, s)

/-- What a descriptor names. -/
def get (fd : ℤ) : StateM Fds (Option Kind) := fun s => (s.get fd, s)

/-- Update a file descriptor's cursor. -/
def setOffset (fd : ℤ) (offset : BitVec 64) : StateM Fds Bool := do
  match ← get fd with
  | some (.file handle size _) => set fd (.file handle size offset)
  | _ => return false

/-- Install a descriptor for a handle the file layer opened. -/
def installFile (handle size : BitVec 64) : StateM Fds ℤ := install (.file handle size 0)

/-- Work on an object of the pool. -/
def onSlot (w : Slot) (f : Waitable → Waitable) : StateM Fds Unit := modify (·.change w f)

/-- Take a free slot that got its notifications. -/
def takeWaitable : StateM Fds (Option Slot) := fun s =>
  match (List.finRange maxWaitables).find?
      fun w => (s.waitables w).readable ≠ 0 ∧ (s.waitables w).used = false with
  | some w =>
    let fresh o := { o with used := true, count := 0, head := 0, tail := 0, ends := 0 }
    (some w, s.change w fresh)
  | none => (none, s)

/-- Give a slot back. -/
def giveBack (w : Slot) : StateM Fds Unit := onSlot w fun o => { o with used := false }

/-- Release the object behind a descriptor that is gone. Answers the handle to close, if it was a
file. -/
def drop : Kind → StateM Fds (Option (BitVec 64))
  | .file handle _ _ => return some handle
  | .event slot _ => do
    giveBack slot
    return none
  | .pipe slot _ => do
    -- one end fewer; the last one gives the slot back
    let before := ((← MonadState.get).waitables slot).ends
    onSlot slot fun o => { o with ends := o.ends - 1 }
    if before ≤ 1 then giveBack slot
    return none
  | .endpoint _ slot => do
    if let some slot := slot then giveBack slot
    return none
  | .free => return none

/-- Release a descriptor. Answers the file handle to close, if it was a file. -/
def release (fd : ℤ) : StateM Fds (Option (BitVec 64)) := do
  match ← get fd with
  | none => return none
  | some kind =>
    let _ ← set fd .free
    drop kind

def eventfd (initial : ℤ) (flags : BitVec 32) : StateM Fds ℤ := do
  match ← takeWaitable with
  | none => return -emfile
  | some slot =>
    onSlot slot fun o => { o with count := BitVec.ofInt 64 (max initial 0) }
    let fd ← install (.event slot (flags &&& efdSemaphore ≠ 0))
    if fd < 0 then
      giveBack slot
      return -emfile
    if flags &&& oNonblock ≠ 0 then
      let _ ← setNonblock fd true
    return fd

/-- Wrap an endpoint in a descriptor, where the kernel answers `bound` to the binding. -/
def endpointFd (cap : Handle) (bound : ℤ) : StateM Fds ℤ := do
  match ← takeWaitable with
  | none => return -emfile
  | some w =>
    if ((← MonadState.get).waitables w).readable = 0 then
      giveBack w
      return -emfile
    if bound ≠ 0 then giveBack w
    -- one that can only be sent to gets a descriptor without a slot
    if bound ≠ 0 ∧ bound ≠ KError.permissionDenied.asRaw then return -einval
    let slot := if bound = 0 then some w else none
    let fd ← install (.endpoint cap slot)
    if fd < 0 then
      if let some slot := slot then giveBack slot
      return -emfile
    return fd

/-- The two ends of a new pipe, or the error. -/
def pipe2 (flags : BitVec 32) : StateM Fds (Except ℤ (ℤ × ℤ)) := do
  match ← takeWaitable with
  | none => return .error (-emfile)
  | some slot =>
    onSlot slot fun o => { o with ends := 2 }
    let readEnd ← install (.pipe slot false)
    let writeEnd ← install (.pipe slot true)
    if readEnd < 0 ∨ writeEnd < 0 then
      if 0 ≤ readEnd then
        let _ ← release readEnd
      if 0 ≤ writeEnd then
        let _ ← release writeEnd
      giveBack slot
      return .error (-emfile)
    if flags &&& oNonblock ≠ 0 then
      let _ ← setNonblock readEnd true
      let _ ← setNonblock writeEnd true
    return .ok (readEnd, writeEnd)

/-- Duplicate a descriptor. -/
def dup (fd : ℤ) : StateM Fds ℤ := do
  match ← get fd with
  | some kind =>
    let copy ← install kind
    if 0 ≤ copy ∧ (← isNonblock fd) then
      let _ ← setNonblock copy true
    return copy
  | none => return -einval

/-- Make a descriptor name what another one does. What it named before is released, and if that was
a file its handle is forgotten. -/
def dup3 (old new : ℤ) : StateM Fds ℤ := do
  match ← get old with
  | none => return -einval
  | some kind =>
    if old = new then return new
    let _ ← release new
    if ← set new kind then return new else return -einval

def dup2 (old new : ℤ) : StateM Fds ℤ := dup3 old new

/-- Release the `n` descriptors from `first` on. -/
def closeFrom (first : ℤ) : ℕ → StateM Fds Unit
  | 0 => return
  | n + 1 => do
    let _ ← release first
    closeFrom (first + 1) n

def closeRange (first last : ℤ) : StateM Fds ℤ := do
  closeFrom first (last + 1 - first).toNat
  return 0

/-! ### Running code -/

theorem bind_apply {σ α β : Type} (x : StateM σ α) (f : α → StateM σ β) (s : σ) :
    (x >>= f) s = f (x s).1 (x s).2 := rfl

theorem bind_of_eq {σ α β : Type} {x : StateM σ α} {a : α} {s s' : σ} (h : x s = (a, s'))
    (f : α → StateM σ β) : (x >>= f) s = f a s' := by
  rw [bind_apply, h]

theorem pure_apply {σ α : Type} (a : α) (s : σ) : (pure a : StateM σ α) s = (a, s) := rfl

/-! ### Entries -/

@[simp] theorem index_number (i : Fin maxFds) : index (number i) = some i := by
  have hsub : (number i : ℤ) - firstFd = (i : ℕ) := by
    rw [number]
    omega
  rw [index, dif_pos (by rw [hsub]; exact ⟨Int.natCast_nonneg _, i.isLt⟩)]
  simp only [hsub, Int.toNat_natCast, Fin.eta]

theorem index_eq_some {fd : ℤ} {i : Fin maxFds} : index fd = some i ↔ fd = number i := by
  refine ⟨fun h => ?_, fun h => h ▸ index_number i⟩
  rw [index] at h
  split at h
  · next hb =>
    rw [← Option.some.inj h, number]
    show fd = ((fd - firstFd).toNat : ℤ) + firstFd
    omega
  · cases h

theorem number_nonneg (i : Fin maxFds) : 0 ≤ number i := by
  rw [number]
  omega

theorem number_inj {i j : Fin maxFds} : number i = number j ↔ i = j := by
  rw [number, number, Fin.ext_iff]
  omega

variable {s : Fds} {i j : Fin maxFds} {fd : ℤ} {kind : Kind} {w : Slot}

theorem Fds.get_eq_some : s.get fd = some kind ↔ ∃ i, fd = number i ∧ s.kinds i = kind ∧
    kind ≠ .free := by
  rw [Fds.get]
  cases hi : index fd with
  | none =>
    simp only [Option.bind_eq_bind, Option.bind_none, reduceCtorEq, false_iff]
    rintro ⟨i, rfl, -⟩
    rw [index_number] at hi
    cases hi
  | some i =>
    rw [index_eq_some] at hi
    subst hi
    simp only [Option.bind_eq_bind, Option.bind_some, number_inj, exists_eq_left']
    cases s.kinds i with
    | free => exact ⟨nofun, fun h => absurd h.1.symm h.2⟩
    | _ => exact ⟨by rintro ⟨⟩; exact ⟨rfl, nofun⟩, by rintro ⟨rfl, -⟩; rfl⟩

theorem Fds.get_number : s.get (number i) = some kind ↔ s.kinds i = kind ∧ kind ≠ .free := by
  simp only [Fds.get_eq_some, number_inj, exists_eq_left']

theorem set_number (i : Fin maxFds) (kind : Kind) (s : Fds) :
    set (number i) kind s = (true, s.put i kind) := by
  rw [set, index_number]

/-- The table with one more descriptor, which blocks. -/
def Fds.installed (s : Fds) (i : Fin maxFds) (kind : Kind) : Fds :=
  { s.put i kind with nonblock := Function.update s.nonblock i false }

/-- **Installing** takes a free entry, if there is one. -/
theorem install_cases (kind : Kind) (s : Fds) :
    (install kind s = (-1, s) ∧ ∀ i, s.kinds i ≠ .free) ∨
      ∃ i, s.kinds i = .free ∧ install kind s = (number i, s.installed i kind) := by
  rw [install]
  cases hfind : (List.finRange maxFds).find? (s.kinds · = .free) with
  | none => exact .inl ⟨rfl, by simpa using hfind⟩
  | some i => exact .inr ⟨i, by simpa using List.find?_some hfind, rfl⟩

theorem installFile_cases (h size : BitVec 64) (s : Fds) :
    installFile h size s = (-1, s) ∨
      ∃ i, s.kinds i = .free ∧ installFile h size s = (number i, s.installed i (.file h size 0)) :=
  (install_cases (.file h size 0) s).imp_left And.left

/-- Moving the cursor of a file changes nothing else. -/
theorem setOffset_run {h size offset : BitVec 64}
    (hget : s.get (number i) = some (.file h size offset))
    (offset' : BitVec 64) :
    setOffset (number i) offset' s = (true, s.put i (.file h size offset')) := by
  simp only [setOffset, bind_apply, get, hget]
  exact set_number ..

theorem Fds.get_put_self (h : kind ≠ .free) : (s.put i kind).get (number i) = some kind :=
  Fds.get_number.mpr ⟨Function.update_self .., h⟩

/-! ### Releasing -/

/-- The slot a descriptor names. -/
def Kind.slot : Kind → Option Slot
  | .event slot _ => some slot
  | .pipe slot _ => some slot
  | .endpoint _ slot => slot
  | _ => none

/-- The end of a pipe. -/
def Kind.side : Kind → Option Bool
  | .pipe _ write => some write
  | _ => none

/-- The handle of a file. -/
def Kind.handle : Kind → Option (BitVec 64)
  | .file handle _ _ => some handle
  | _ => none

/-- What is done to the object of a descriptor that is gone. -/
def Kind.letGo (kind : Kind) (o : Waitable) : Waitable :=
  if kind.side.isSome then
    { o with ends := o.ends - 1, used := if o.ends ≤ 1 then false else o.used }
  else { o with used := false }

/-- The table with an entry released. -/
def Fds.released (s : Fds) (i : Fin maxFds) : Fds :=
  match (s.kinds i).slot with
  | some w => (s.put i .free).change w (s.kinds i).letGo
  | none => s.put i .free

theorem Fds.waitables_change (s : Fds) (w : Slot) (f : Waitable → Waitable) :
    (s.change w f).waitables w = f (s.waitables w) := Function.update_self ..

theorem Fds.waitables_change_of_ne {w' : Slot} (s : Fds) (f : Waitable → Waitable) (h : w' ≠ w) :
    (s.change w f).waitables w' = s.waitables w' := Function.update_of_ne h ..

theorem Fds.change_change (s : Fds) (w : Slot) (f g : Waitable → Waitable) :
    (s.change w f).change w g = s.change w (g ∘ f) := by
  simp only [change, Function.update_idem, Function.update_self, Function.comp_apply]

/-- The object behind a descriptor that is gone. -/
theorem drop_run (kind : Kind) (s : Fds) : drop kind s =
    (kind.handle, match kind.slot with | some w => s.change w kind.letGo | none => s) := by
  cases kind with
  | pipe slot write =>
    -- one end fewer, and the last one gives the slot back
    show (if (s.waitables slot).ends ≤ 1 then giveBack slot >>= fun _ => pure none
      else pure none : StateM Fds (Option (BitVec 64)))
        (s.change slot fun o => { o with ends := o.ends - 1 }) = (none, s.change slot _)
    by_cases hle : (s.waitables slot).ends ≤ 1
    · have hgo : (Kind.pipe slot write).letGo (s.waitables slot) =
          { s.waitables slot with ends := (s.waitables slot).ends - 1, used := false } := by
        simp only [Kind.letGo, Kind.side, Option.isSome_some, if_true, if_pos hle]
      rw [if_pos hle]
      show (none, (s.change slot _).change slot _) = _
      rw [Fds.change_change, Fds.change, Fds.change, hgo]
      rfl
    · have hgo : (Kind.pipe slot write).letGo (s.waitables slot) =
          { s.waitables slot with ends := (s.waitables slot).ends - 1 } := by
        simp only [Kind.letGo, Kind.side, Option.isSome_some, if_true, if_neg hle]
      rw [if_neg hle, pure_apply, Fds.change, Fds.change, hgo]
  | endpoint cap slot =>
    cases slot with
    | none => rfl
    | some slot => rfl
  | _ => rfl

/-- **Releasing** a descriptor that names something frees its entry and lets go of its object. -/
theorem release_number (h : s.kinds i ≠ .free) :
    release (number i) s = ((s.kinds i).handle, s.released i) := by
  have hget : s.get (number i) = some (s.kinds i) := Fds.get_number.mpr ⟨rfl, h⟩
  rw [release, bind_apply]
  show (match s.get (number i) with
    | none => pure none
    | some kind => set (number i) .free >>= fun _ => drop kind : StateM Fds _) s = _
  rw [hget]
  show (set (number i) .free >>= fun _ => drop (s.kinds i)) s = _
  rw [bind_of_eq (set_number i .free s), drop_run, Fds.released]

theorem release_none (h : s.get fd = none) : release fd s = (none, s) := by
  rw [release, bind_apply]
  show (match s.get fd with
    | none => pure none
    | some kind => set fd .free >>= fun _ => drop kind : StateM Fds _) s = _
  rw [h]
  rfl

theorem release_cases (fd : ℤ) (s : Fds) : release fd s = (none, s) ∨
    ∃ i, fd = number i ∧ s.kinds i ≠ .free ∧
      release fd s = ((s.kinds i).handle, s.released i) := by
  cases hget : s.get fd with
  | none => exact .inl (release_none hget)
  | some kind =>
    obtain ⟨i, rfl, rfl, hne⟩ := Fds.get_eq_some.mp hget
    exact .inr ⟨i, rfl, hne, release_number hne⟩

theorem Fds.kinds_released (s : Fds) (i : Fin maxFds) :
    (s.released i).kinds = Function.update s.kinds i .free := by
  rw [released]
  split
  · rfl
  · rfl

/-- What a release leaves of the table. -/
theorem kinds_release (i : Fin maxFds) (s : Fds) :
    (release (number i) s).2.kinds = Function.update s.kinds i .free := by
  by_cases hfree : s.kinds i = .free
  · have hnone : s.get (number i) = none := by
      rw [Option.eq_none_iff_forall_ne_some]
      intro kind hget
      obtain ⟨hk, hne⟩ := Fds.get_number.mp hget
      exact hne (hk ▸ hfree)
    rw [release_none hnone, ← hfree, Function.update_eq_self]
  · rw [release_number hfree, Fds.kinds_released]

/-! ### Single calls -/

theorem get_run (fd : ℤ) (s : Fds) : get fd s = (s.get fd, s) := rfl

theorem onSlot_run (w : Slot) (f : Waitable → Waitable) (s : Fds) :
    onSlot w f s = ((), s.change w f) := rfl

theorem giveBack_run (w : Slot) (s : Fds) :
    giveBack w s = ((), s.change w fun o => { o with used := false }) := rfl

theorem setNonblock_kinds (fd : ℤ) (on : Bool) (s : Fds) :
    (setNonblock fd on s).2.kinds = s.kinds ∧ (setNonblock fd on s).2.waitables = s.waitables := by
  rw [setNonblock]
  split
  · exact ⟨rfl, rfl⟩
  split
  · exact ⟨rfl, rfl⟩
  split
  · exact ⟨rfl, rfl⟩
  · exact ⟨rfl, rfl⟩

/-- A slot just taken. -/
def Waitable.taken (o : Waitable) : Waitable :=
  { o with used := true, count := 0, head := 0, tail := 0, ends := 0 }

theorem takeWaitable_cases (s : Fds) : takeWaitable s = (none, s) ∨
    ∃ w, (s.waitables w).used = false ∧ takeWaitable s = (some w, s.change w Waitable.taken) := by
  rw [takeWaitable]
  cases hfind : (List.finRange maxWaitables).find?
      fun w => (s.waitables w).readable ≠ 0 ∧ (s.waitables w).used = false with
  | none => exact .inl rfl
  | some w =>
    have hw := List.find?_some hfind
    rw [decide_eq_true_eq] at hw
    exact .inr ⟨w, hw.2, rfl⟩

/-- **A duplication** opens a copy, unless nothing is open or there is no room. -/
theorem dup_cases (fd : ℤ) (s : Fds) : (dup fd s).2 = s ∨
    ∃ i j, fd = number j ∧ s.kinds j ≠ .free ∧ s.kinds i = .free ∧
      (dup fd s).2.kinds = Function.update s.kinds i (s.kinds j) ∧
      (dup fd s).2.waitables = s.waitables := by
  rw [dup, bind_of_eq (get_run fd s)]
  cases hget : s.get fd with
  | none => exact .inl rfl
  | some kind =>
    obtain ⟨j, rfl, rfl, hne⟩ := Fds.get_eq_some.mp hget
    dsimp only
    obtain ⟨hfull, -⟩ | ⟨i, hfree, hinst⟩ := install_cases (s.kinds j) s
    · rw [bind_of_eq hfull]
      exact .inl rfl
    · refine .inr ⟨i, j, rfl, hne, hfree, ?_⟩
      rw [bind_of_eq hinst, bind_apply]
      have hnon := setNonblock_kinds (number i) true (s.installed i (s.kinds j))
      split
      · exact hnon
      · exact ⟨rfl, rfl⟩

theorem dup3_refused {old new : ℤ} (h : s.get old = none ∨ old = new) :
    (dup3 old new s).2 = s := by
  rw [dup3, bind_of_eq (get_run old s)]
  cases hget : s.get old with
  | none => rfl
  | some kind =>
    rw [hget] at h
    dsimp only
    rw [if_pos (h.resolve_left nofun)]
    rfl

/-- The entry `new` made to name what the entry `old` does, after what it named was released. -/
theorem dup3_cases (old new : ℤ) (s : Fds) (hget : s.get old ≠ none) (hne : old ≠ new) :
    (dup3 old new s).2 = (release new s).2 ∧ index new = none ∨
      ∃ i j, old = number j ∧ s.kinds j ≠ .free ∧ new = number i ∧ i ≠ j ∧
        (dup3 old new s).2 = (release new s).2.put i (s.kinds j) := by
  obtain ⟨kind, hget⟩ := Option.ne_none_iff_exists'.mp hget
  obtain ⟨j, rfl, rfl, hfree⟩ := Fds.get_eq_some.mp hget
  rw [dup3, bind_of_eq (get_run _ s), hget]
  dsimp only
  rw [if_neg hne, bind_apply]
  cases hi : index new with
  | none =>
    refine .inl ⟨?_, rfl⟩
    have hset : set new (s.kinds j) (release new s).2 = (false, (release new s).2) := by
      rw [set, hi]
    rw [bind_of_eq hset]
    rfl
  | some i =>
    obtain rfl := index_eq_some.mp hi
    refine .inr ⟨i, j, rfl, hfree, rfl, fun hij => hne (by rw [hij]), ?_⟩
    rw [bind_of_eq (set_number i (s.kinds j) _)]
    rfl

end Fd

end StarOS
