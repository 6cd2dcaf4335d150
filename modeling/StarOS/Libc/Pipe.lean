import StarOS.Lib.EventSystem
import StarOS.Lib.WrapRing
import StarOS.Libc.Fd

/-!
# Pipes

A pipe is a ring of bytes with a counter for what was read and one for what was written. A read
takes what is there in one critical section. A write takes as many sections as it needs: each places
as much as there is room for, and the lock is dropped in between. Any number of threads read and
write, and any of them may take the next section; a thread that waits may wake at any time.

The two descriptors have no copies, and each is closed while no call on it is in progress. A close
is one step here, the one in which the count of ends goes down.

## Main definitions

* `Pipe.readRing`, `Pipe.writeRing` — the critical sections
* `Pipe.pipeSystem`
* `Pipe.Shared.stream` — what the writes have placed
* `Pipe.State.Orderly` — no end is closed while a call on it is in progress

## Main results

* `Pipe.Ring.Fits.readRing`, `Pipe.Ring.Fits.writeRing` — a ring is a queue of bytes
* `Pipe.Shared.Sound.acts`, `Pipe.State.Sound.of_reach` — the invariant, over a step and over a run
* `Pipe.pipe_stream` — what is read is a prefix of what is written
-/

namespace StarOS

namespace Pipe

open Fd (Waitable)

/-- Bytes a pipe holds before a writer has to wait. -/
def pipeCapacity : ℕ := 4096

instance : NeZero pipeCapacity := ⟨by decide⟩

/-- The object of a pipe with its bytes. -/
structure Ring where
  object : Waitable
  bytes : Fin pipeCapacity → UInt8

/-- How many bytes wait in a pipe. -/
def Ring.buffered (r : Ring) : ℕ := r.object.buffered.toNat

/-- What a read comes to in its critical section: bytes, the end of the file, or nothing yet. -/
inductive Read
  | took (bytes : List UInt8)
  | ended
  | nothing
  deriving DecidableEq

/-- The critical section of a read of up to `len` bytes. -/
def readRing (r : Ring) (len : ℕ) : Read × Ring :=
  if 0 < r.buffered then
    let n := min r.buffered len
    (.took (WrapRing.load r.bytes r.object.head n),
      { r with object := { r.object with head := r.object.head + .ofNat 64 n } })
  -- the writer is gone
  else if r.object.ends < 2 then (.ended, r)
  else (.nothing, r)

/-- What a write comes to in a critical section: it places some bytes, nobody reads, or there is no
room. -/
inductive Wrote
  | placed (n : ℕ)
  | broken
  | full
  deriving DecidableEq

/-- A critical section of a write that has these bytes left. -/
def writeRing (r : Ring) (src : List UInt8) : Wrote × Ring :=
  if r.object.ends < 2 then (.broken, r)
  else
    let space := pipeCapacity - r.buffered
    if space > 0 then
      let n := min space src.length
      (.placed n,
        { object := { r.object with tail := r.object.tail + .ofNat 64 n }
          bytes := WrapRing.store r.bytes r.object.tail (src.take n) })
    else (.full, r)

/-- Where a thread is. -/
inductive Pc
  | out
  /-- At the head of the loop of a read, or waiting. -/
  | read (len : ℕ) (nonblock : Bool)
  | readWait (len : ℕ)
  /-- At the head of the loop of a write, with these bytes left and so many written, or waiting. The
  write is told from others by its number. -/
  | write (call : ℕ) (src : List UInt8) (written : ℕ) (nonblock : Bool)
  | writeWait (call : ℕ) (src : List UInt8) (written : ℕ)
  deriving DecidableEq

/-- What a thread may do: call, close one of the ends, or go on. -/
inductive Act
  | read (len : ℕ) (nonblock : Bool)
  | write (src : List UInt8) (nonblock : Bool)
  | closeRead
  | closeWrite
  | go
  deriving DecidableEq

/-- What the threads share. -/
structure Shared where
  ring : Ring
  /-- Which of the two descriptors are open. -/
  readOpen : Bool
  writeOpen : Bool
  /-- The bytes of each write, by its number, and what was placed of them, in order. -/
  calls : List (List UInt8)
  chunks : List (ℕ × List UInt8)
  /-- The bytes that reads have returned, in order. -/
  returned : List UInt8

/-- What is left of an object whose end is closed. -/
def Ring.closeEnd (r : Ring) : Ring :=
  { r with object := { r.object with ends := r.object.ends - 1 } }

/-- The next step of a thread: what is shared after it, where the thread is, and what the call
returns if it returns. -/
def act (s : Shared) : Pc → Act → Option (Shared × Pc × Option ℤ)
  | .out, .read len nonblock => if s.readOpen then some (s, .read len nonblock, none) else none
  | .out, .write src nonblock =>
    if s.writeOpen then
      some ({ s with calls := s.calls ++ [src] }, .write s.calls.length src 0 nonblock, none)
    else none
  | .out, .closeRead =>
    if s.readOpen then some ({ s with ring := s.ring.closeEnd, readOpen := false }, .out, some 0)
    else none
  | .out, .closeWrite =>
    if s.writeOpen then some ({ s with ring := s.ring.closeEnd, writeOpen := false }, .out, some 0)
    else none
  | .read len nonblock, .go =>
    match readRing s.ring len with
    | (.took bytes, ring) =>
      some ({ s with ring, returned := s.returned ++ bytes }, .out, some bytes.length)
    | (.ended, _) => some (s, .out, some 0)
    | (.nothing, _) =>
      if nonblock then some (s, .out, some (-1)) else some (s, .readWait len, none)
  | .readWait len, .go => some (s, .read len false, none)
  | .write call src written nonblock, .go =>
    if src = [] then some (s, .out, some written)
    else match writeRing s.ring src with
      | (.broken, _) => some (s, .out, some (if written > 0 then written else -1))
      | (.placed n, ring) =>
        some ({ s with ring, chunks := s.chunks ++ [(call, src.take n)] },
          .write call (src.drop n) (written + n) nonblock, none)
      | (.full, _) =>
        -- a partial write is a success
        if nonblock then some (s, .out, some (if written > 0 then written else -1))
        else some (s, .writeWait call src written, none)
  | .writeWait call src written, .go => some (s, .write call src written false, none)
  | _, _ => none

variable {Thread : Type} [DecidableEq Thread]

/-- A pipe and the threads that use it. -/
structure State (Thread : Type) where
  shared : Shared
  pc : Thread → Pc

/-- One step of one thread. -/
def State.next (s : State Thread) : Thread × Act → Option (State Thread)
  | (t, a) => (act s.shared (s.pc t) a).map fun (shared, p, _) =>
    ⟨shared, Function.update s.pc t p⟩

/-- What a call returns in a step, if it returns in it. -/
def State.returns (s : State Thread) : Thread × Act → Option ℤ
  | (t, a) => (act s.shared (s.pc t) a).bind fun (_, _, value) => value

/-- What the writes have placed. -/
def Shared.stream (s : Shared) : List UInt8 := s.chunks.flatMap Prod.snd

/-- Any number of threads, and a pipe with nothing in it. -/
def pipeSystem (Thread : Type) [DecidableEq Thread] : EventSystem (State Thread)
    (Thread × Act) where
  init s := s.shared.ring.object.head = 0 ∧ s.shared.ring.object.tail = 0 ∧
    s.shared.ring.object.ends = 2 ∧ s.shared.readOpen = true ∧ s.shared.writeOpen = true ∧
    s.shared.calls = [] ∧ s.shared.chunks = [] ∧ s.shared.returned = [] ∧ ∀ t, s.pc t = .out
  next := State.next

/-- The thread is in a read, or in a write. -/
def Pc.Reads : Pc → Prop
  | .read .. | .readWait .. => True
  | _ => False

def Pc.Writes : Pc → Prop
  | .write .. | .writeWait .. => True
  | _ => False

/-- No end is closed while a call on it is in progress. -/
def State.Orderly (s : State Thread) (e : Thread × Act) : Prop :=
  (e.2 = .closeRead → ∀ u, ¬ (s.pc u).Reads) ∧ (e.2 = .closeWrite → ∀ u, ¬ (s.pc u).Writes)

/-! ### The ring is a queue -/

/-- What waits in a ring. -/
def Ring.contents (r : Ring) : List UInt8 := WrapRing.load r.bytes r.object.head r.buffered

/-- It is no more than the ring has room for. -/
def Ring.Fits (r : Ring) : Prop := r.buffered ≤ pipeCapacity

variable {r : Ring}

theorem capacity_dvd : pipeCapacity ∣ 2 ^ 64 := ⟨2 ^ 52, by decide⟩

@[simp] theorem Ring.length_contents (r : Ring) : r.contents.length = r.buffered :=
  WrapRing.length_load ..

/-- The counters after a section, whatever wraps. -/
theorem buffered_tail {head tail : BitVec 64} {n : ℕ} (h : (tail - head).toNat + n < 2 ^ 64) :
    (tail + .ofNat 64 n - head).toNat = (tail - head).toNat + n := by
  have hadd : tail + .ofNat 64 n - head = tail - head + .ofNat 64 n := by
    rw [BitVec.sub_eq_add_neg, BitVec.sub_eq_add_neg, BitVec.add_assoc, BitVec.add_assoc,
      BitVec.add_comm (-head)]
  rw [hadd, BitVec.toNat_add, BitVec.toNat_ofNat, Nat.add_mod_mod, Nat.mod_eq_of_lt h]

theorem buffered_head {head tail : BitVec 64} {n : ℕ} (h : n ≤ (tail - head).toNat) :
    (tail - (head + .ofNat 64 n)).toNat = (tail - head).toNat - n := by
  have hlt := (tail - head).isLt
  have hsub : tail - (head + .ofNat 64 n) = tail - head - .ofNat 64 n := by
    rw [BitVec.sub_eq_add_neg, BitVec.neg_add, BitVec.sub_eq_add_neg (-head),
      ← BitVec.add_assoc, ← BitVec.sub_eq_add_neg, ← BitVec.sub_eq_add_neg]
  have hn : (BitVec.ofNat 64 n).toNat = n := by
    rw [BitVec.toNat_ofNat]
    exact Nat.mod_eq_of_lt (by omega)
  rw [hsub, BitVec.toNat_sub_of_le]
  · rw [hn]
  · rw [BitVec.le_def, hn]
    exact h

/-- **A read** takes bytes off the front of what waits. -/
theorem Ring.Fits.readRing (h : r.Fits) (len : ℕ) :
    (∃ bytes r', Pipe.readRing r len = (.took bytes, r') ∧ r.contents = bytes ++ r'.contents ∧
        bytes.length = min r.buffered len ∧ r.buffered ≠ 0 ∧ r'.Fits ∧
        r'.object.ends = r.object.ends) ∨
      (Pipe.readRing r len = (.ended, r) ∧ r.contents = [] ∧ r.object.ends < 2) ∨
      Pipe.readRing r len = (.nothing, r) := by
  rw [Pipe.readRing]
  split
  · next hpos =>
    have hle : min r.buffered len ≤ (r.object.tail - r.object.head).toNat := Nat.min_le_left ..
    have hrest := buffered_head hle
    refine .inl ⟨_, _, rfl, ?_, WrapRing.length_load .., Nat.ne_of_gt hpos, ?_, rfl⟩
    · show WrapRing.load _ _ _ = _ ++ WrapRing.load _ _ (_ - (_ + _) : BitVec 64).toNat
      rw [hrest, ← WrapRing.load_add, Nat.add_sub_cancel' hle]
      rfl
    · show (_ - (_ + _) : BitVec 64).toNat ≤ _
      rw [hrest]
      exact Nat.le_trans (Nat.sub_le ..) h
  · next hzero =>
    split
    · next hends =>
      refine .inr (.inl ⟨rfl, ?_, hends⟩)
      rw [← List.length_eq_zero_iff, length_contents]
      exact Nat.eq_zero_of_not_pos hzero
    · exact .inr (.inr rfl)

/-- **A write** puts bytes behind what waits. -/
theorem Ring.Fits.writeRing (h : r.Fits) (src : List UInt8) :
    (Pipe.writeRing r src = (.broken, r) ∧ r.object.ends < 2) ∨
      (∃ r', Pipe.writeRing r src = (.placed (min (pipeCapacity - r.buffered) src.length), r') ∧
        r'.contents = r.contents ++ src.take (min (pipeCapacity - r.buffered) src.length) ∧
        r.buffered ≠ pipeCapacity ∧ r'.Fits ∧ r'.object.ends = r.object.ends) ∨
      (Pipe.writeRing r src = (.full, r) ∧ r.buffered = pipeCapacity) := by
  have hcap : pipeCapacity < 2 ^ 64 := by decide
  have hfits : r.buffered ≤ pipeCapacity := h
  rw [Pipe.writeRing]
  split
  · next hends => exact .inl ⟨rfl, hends⟩
  · dsimp only
    split
    · next hspace =>
      generalize hn : min (pipeCapacity - r.buffered) src.length = n
      have hlen : (src.take n).length = n := by
        rw [List.length_take]
        omega
      have hsum : (r.object.tail - r.object.head).toNat + n ≤ pipeCapacity := by
        show r.buffered + n ≤ _
        omega
      have hmore := buffered_tail (Nat.lt_of_le_of_lt hsum hcap)
      refine .inr (.inl ⟨_, rfl, ?_, by omega, ?_, rfl⟩)
      · -- the new bytes stand behind those that wait
        have htail : r.object.tail = r.object.head + .ofNat 64 r.buffered := by
          rw [Ring.buffered, Fd.Waitable.buffered, BitVec.ofNat_toNat, BitVec.setWidth_eq,
            BitVec.add_comm, BitVec.sub_add_cancel]
        have hbefore : WrapRing.load (WrapRing.store r.bytes r.object.tail (src.take n))
            r.object.head r.buffered = WrapRing.load r.bytes r.object.head r.buffered := by
          conv_lhs => rw [htail]
          exact WrapRing.load_store_of_before capacity_dvd (by rw [hlen]; exact hsum)
        have hroom : (src.take n).length ≤ pipeCapacity := by omega
        have hself : WrapRing.load (WrapRing.store r.bytes r.object.tail (src.take n))
            r.object.tail (src.take n).length = src.take n :=
          WrapRing.load_store capacity_dvd hroom
        rw [hlen] at hself
        show WrapRing.load _ _ (_ + _ - _ : BitVec 64).toNat = _
        rw [hmore]
        show WrapRing.load _ r.object.head (r.buffered + n) = _
        rw [WrapRing.load_add, ← htail, hself, hbefore]
        rfl
      · show (_ + _ - _ : BitVec 64).toNat ≤ _
        rw [hmore]
        exact hsum
    · next hfull => exact .inr (.inr ⟨rfl, by omega⟩)

/-! ### Runs -/

/-- Whether an end is open, as a number. -/
def ends (s : Shared) : ℕ := s.readOpen.toNat + s.writeOpen.toNat

/-- What holds of a pipe: what was written is what was read and what waits, and the ends that are
open are counted. -/
structure Shared.Sound (s : Shared) : Prop where
  stream : s.stream = s.returned ++ s.ring.contents
  fits : s.ring.Fits
  ends : s.ring.object.ends = .ofNat 32 (ends s)

variable {s s' : Shared} {p q : Pc} {a : Act} {value : Option ℤ}

/-- **What a thread does**, step by step. -/
inductive Acts (s : Shared) : Pc → Act → Shared → Pc → Option ℤ → Prop
  | beginRead {len : ℕ} {nonblock : Bool} : s.readOpen = true →
      Acts s .out (.read len nonblock) s (.read len nonblock) none
  | beginWrite {src : List UInt8} {nonblock : Bool} : s.writeOpen = true →
      Acts s .out (.write src nonblock) { s with calls := s.calls ++ [src] }
        (.write s.calls.length src 0 nonblock) none
  | closeRead : s.readOpen = true →
      Acts s .out .closeRead { s with ring := s.ring.closeEnd, readOpen := false } .out (some 0)
  | closeWrite : s.writeOpen = true →
      Acts s .out .closeWrite { s with ring := s.ring.closeEnd, writeOpen := false } .out (some 0)
  | took {len : ℕ} {nonblock : Bool} {bytes : List UInt8} {ring : Ring} :
      readRing s.ring len = (.took bytes, ring) → Acts s (.read len nonblock) .go
        { s with ring, returned := s.returned ++ bytes } .out (some bytes.length)
  | ended {len : ℕ} {nonblock : Bool} : (readRing s.ring len).1 = .ended →
      Acts s (.read len nonblock) .go s .out (some 0)
  | again {len : ℕ} : (readRing s.ring len).1 = .nothing →
      Acts s (.read len true) .go s .out (some (-1))
  | waits {len : ℕ} : (readRing s.ring len).1 = .nothing →
      Acts s (.read len false) .go s (.readWait len) none
  | woke {len : ℕ} : Acts s (.readWait len) .go s (.read len false) none
  | wrote {call written : ℕ} {nonblock : Bool} :
      Acts s (.write call [] written nonblock) .go s .out (some written)
  | placed {call written n : ℕ} {src : List UInt8} {nonblock : Bool} {ring : Ring} : src ≠ [] →
      writeRing s.ring src = (.placed n, ring) → Acts s (.write call src written nonblock) .go
        { s with ring, chunks := s.chunks ++ [(call, src.take n)] }
        (.write call (src.drop n) (written + n) nonblock) none
  | stopped {call written : ℕ} {src : List UInt8} {nonblock : Bool} : src ≠ [] →
      ((writeRing s.ring src).1 = .broken ∨ nonblock = true ∧ (writeRing s.ring src).1 = .full) →
      Acts s (.write call src written nonblock) .go s .out
        (some (if written > 0 then written else -1))
  | writeWaits {call written : ℕ} {src : List UInt8} : src ≠ [] →
      (writeRing s.ring src).1 = .full →
      Acts s (.write call src written false) .go s (.writeWait call src written) none
  | writeWoke {call written : ℕ} {src : List UInt8} :
      Acts s (.writeWait call src written) .go s (.write call src written false) none

theorem Acts.of_act (h : act s p a = some (s', q, value)) : Acts s p a s' q value := by
  cases p with
  | out =>
    cases a with
    | go => cases h
    | _ =>
      rw [act] at h
      split at h
      · cases h
        constructor
        assumption
      · cases h
  | read len nonblock =>
    cases a with
    | go =>
      rw [act] at h
      split at h
      · next hread =>
        cases h
        exact .took hread
      · next hread =>
        cases h
        exact .ended (by rw [hread])
      · next hread =>
        cases nonblock with
        | true =>
          cases h
          exact .again (by rw [hread])
        | false =>
          cases h
          exact .waits (by rw [hread])
    | _ => cases h
  | readWait len =>
    cases a with
    | go =>
      cases h
      exact .woke
    | _ => cases h
  | write call src written nonblock =>
    cases a with
    | go =>
      rw [act] at h
      split at h
      · next hsrc =>
        cases h
        subst hsrc
        exact .wrote
      next hsrc =>
      split at h
      · next hwrite =>
        cases h
        exact .stopped hsrc (.inl (by rw [hwrite]))
      · next hwrite =>
        cases h
        exact .placed hsrc hwrite
      · next hwrite =>
        cases nonblock with
        | true =>
          cases h
          exact .stopped hsrc (.inr ⟨rfl, by rw [hwrite]⟩)
        | false =>
          cases h
          exact .writeWaits hsrc (by rw [hwrite])
    | _ => cases h
  | writeWait call src written =>
    cases a with
    | go =>
      cases h
      exact .writeWoke
    | _ => cases h

theorem Shared.stream_snoc (s : Shared) (call : ℕ) (bytes : List UInt8) (ring : Ring) :
    Shared.stream { s with ring, chunks := s.chunks ++ [(call, bytes)] } = s.stream ++ bytes := by
  rw [stream, stream, List.flatMap_append, List.flatMap_singleton]

theorem ofNat_pred {n : ℕ} : BitVec.ofNat 32 (n + 1) - 1 = .ofNat 32 n := by
  rw [← BitVec.ofNat_add_ofNat]
  exact BitVec.add_sub_cancel ..

/-- **A step keeps a pipe sound.** -/
theorem Shared.Sound.acts (hs : s.Sound) (h : Acts s p a s' q value) : s'.Sound := by
  cases h with
  | closeRead hopen =>
    refine ⟨hs.stream, hs.fits, ?_⟩
    show s.ring.object.ends - 1 = .ofNat 32 (0 + s.writeOpen.toNat)
    rw [hs.ends, Pipe.ends, hopen, Nat.add_comm, Nat.zero_add]
    exact ofNat_pred
  | closeWrite hopen =>
    refine ⟨hs.stream, hs.fits, ?_⟩
    show s.ring.object.ends - 1 = .ofNat 32 (s.readOpen.toNat + 0)
    rw [hs.ends, Pipe.ends, hopen]
    exact ofNat_pred
  | took hread =>
    obtain ⟨bytes, r, hr, hcontents, -, -, hfits, hends⟩ | ⟨hr, -⟩ | hr := hs.fits.readRing _
    · rw [hr] at hread
      obtain ⟨hbytes, rfl⟩ := Prod.mk.inj hread
      obtain rfl := Read.took.inj hbytes
      refine ⟨?_, hfits, hends.trans hs.ends⟩
      show s.stream = (s.returned ++ bytes) ++ r.contents
      rw [hs.stream, hcontents, List.append_assoc]
    · rw [hr] at hread
      cases hread
    · rw [hr] at hread
      cases hread
  | placed hsrc hwrite =>
    obtain ⟨hr, -⟩ | ⟨r, hr, hcontents, -, hfits, hends⟩ | ⟨hr, -⟩ := hs.fits.writeRing _
    · rw [hr] at hwrite
      cases hwrite
    · rw [hr] at hwrite
      obtain ⟨hn, rfl⟩ := Prod.mk.inj hwrite
      obtain rfl := Wrote.placed.inj hn
      refine ⟨?_, hfits, hends.trans hs.ends⟩
      rw [stream_snoc, hs.stream, List.append_assoc]
      show _ = s.returned ++ r.contents
      rw [hcontents]
    · rw [hr] at hwrite
      cases hwrite
  | _ => exact ⟨hs.stream, hs.fits, hs.ends⟩

/-- What holds of the threads as well: a descriptor that a call is on is open. -/
structure State.Sound (s : State Thread) : Prop where
  shared : s.shared.Sound
  reads : ∀ t, (s.pc t).Reads → s.shared.readOpen = true
  writes : ∀ t, (s.pc t).Writes → s.shared.writeOpen = true

/-- A descriptor is open after a step that leaves a call on it, or that does not close it. -/
theorem Acts.reads (h : Acts s p a s' q value) (hp : p.Reads → s.readOpen = true)
    (hq : q.Reads) : s'.readOpen = true := by
  cases h with
  | beginRead hopen => exact hopen
  | waits => exact hp trivial
  | woke => exact hp trivial
  | _ => exact hq.elim

theorem Acts.writes (h : Acts s p a s' q value) (hp : p.Writes → s.writeOpen = true)
    (hq : q.Writes) : s'.writeOpen = true := by
  cases h with
  | beginWrite hopen => exact hopen
  | placed => exact hp trivial
  | writeWaits => exact hp trivial
  | writeWoke => exact hp trivial
  | _ => exact hq.elim

theorem Acts.readOpen (h : Acts s p a s' q value) (ha : a ≠ .closeRead)
    (hopen : s.readOpen = true) : s'.readOpen = true := by
  cases h with
  | closeRead => exact absurd rfl ha
  | _ => exact hopen

theorem Acts.writeOpen (h : Acts s p a s' q value) (ha : a ≠ .closeWrite)
    (hopen : s.writeOpen = true) : s'.writeOpen = true := by
  cases h with
  | closeWrite => exact absurd rfl ha
  | _ => exact hopen

/-- **A step of any thread.** -/
theorem State.next_cases {s s' : State Thread} {e : Thread × Act} (h : s.next e = some s') :
    ∃ q value, Acts s.shared (s.pc e.1) e.2 s'.shared q value ∧
      s'.pc = Function.update s.pc e.1 q := by
  obtain ⟨⟨shared, q, value⟩, hact, rfl⟩ := Option.map_eq_some_iff.mp h
  exact ⟨q, value, .of_act hact, rfl⟩

theorem State.Sound.next {s s' : State Thread} {e : Thread × Act} (hs : s.Sound)
    (hok : s.Orderly e) (h : s.next e = some s') : s'.Sound := by
  obtain ⟨q, value, hacts, hpc⟩ := next_cases h
  refine ⟨hs.shared.acts hacts, fun u hu => ?_, fun u hu => ?_⟩
  · rw [hpc] at hu
    obtain rfl | hne := eq_or_ne u e.1
    · rw [Function.update_self] at hu
      exact hacts.reads (hs.reads _) hu
    · rw [Function.update_of_ne hne] at hu
      exact hacts.readOpen (fun ha => hok.1 ha u hu) (hs.reads u hu)
  · rw [hpc] at hu
    obtain rfl | hne := eq_or_ne u e.1
    · rw [Function.update_self] at hu
      exact hacts.writes (hs.writes _) hu
    · rw [Function.update_of_ne hne] at hu
      exact hacts.writeOpen (fun ha => hok.2 ha u hu) (hs.writes u hu)

theorem State.Sound.init {s : State Thread} (h : (pipeSystem Thread).init s) : s.Sound := by
  obtain ⟨hhead, htail, hends, hread, hwrite, -, hchunks, hreturned, hout⟩ := h
  have hbuffered : s.shared.ring.buffered = 0 := by
    rw [Ring.buffered, Waitable.buffered, hhead, htail]
    rfl
  refine ⟨⟨?_, ?_, ?_⟩, fun t ht => ?_, fun t ht => ?_⟩
  · rw [Shared.stream, hchunks, hreturned, Ring.contents, hbuffered]
    rfl
  · rw [Ring.Fits, hbuffered]
    exact Nat.zero_le _
  · rw [hends, Pipe.ends, hread, hwrite]
    rfl
  · rw [hout] at ht
    exact ht.elim
  · rw [hout] at ht
    exact ht.elim

theorem State.Sound.of_reach {s : State Thread} (h : (pipeSystem Thread).Reach State.Orderly s) :
    s.Sound :=
  h.invariant (fun _ => .init) fun _ _ _ hs hok hnext => hs.next hok hnext

/-- A read that asks for something and returns nothing has found the pipe empty and the other end
closed. -/
theorem Shared.Sound.ended {len : ℕ} {nonblock : Bool} (hs : s.Sound) (hopen : s.readOpen = true)
    (hlen : 0 < len) (h : Acts s (.read len nonblock) .go s' q (some 0)) :
    s.writeOpen = false ∧ s.returned = s.stream := by
  generalize hvalue : some (0 : ℤ) = value at h
  cases h with
  | took hread =>
    obtain ⟨bytes, r, hr, -, hbytes, hne, -⟩ | ⟨hr, -⟩ | hr := hs.fits.readRing len
    · rw [hr] at hread
      obtain ⟨htook, -⟩ := Prod.mk.inj hread
      obtain rfl := Read.took.inj htook
      have hzero : (0 : ℤ) = (bytes.length : ℤ) := Option.some.inj hvalue
      omega
    · rw [hr] at hread
      cases hread
    · rw [hr] at hread
      cases hread
  | ended hread =>
    obtain ⟨bytes, r, hr, -⟩ | ⟨-, hcontents, hends⟩ | hr := hs.fits.readRing len
    · rw [hr] at hread
      cases hread
    · refine ⟨?_, ?_⟩
      · rw [hs.ends, Pipe.ends, hopen] at hends
        cases hwrite : s.writeOpen with
        | false => rfl
        | true =>
          rw [hwrite] at hends
          exact absurd hends (by decide)
      · rw [hs.stream, hcontents, List.append_nil]
    · rw [hr] at hread
      cases hread
  | again => cases hvalue
  | waits => cases hvalue

/-- **A pipe is a stream.** Whatever its readers and writers do and in whatever order, what was
read is a prefix of what was written, no more waits than there is room for, and a read sees the end
of the file when the other end is closed and everything has been read. -/
theorem pipe_stream {s : State Thread} (h : (pipeSystem Thread).Reach State.Orderly s) :
    s.shared.returned <+: s.shared.stream ∧ s.shared.ring.buffered ≤ pipeCapacity ∧
      ∀ t len nonblock, s.pc t = .read len nonblock → 0 < len → s.returns (t, .go) = some 0 →
        s.shared.writeOpen = false ∧ s.shared.returned = s.shared.stream := by
  have hs := State.Sound.of_reach h
  refine ⟨⟨_, hs.shared.stream.symm⟩, hs.shared.fits, fun t len nonblock hpc hlen hreturns => ?_⟩
  obtain ⟨⟨shared, q, value⟩, hact, hvalue⟩ := Option.bind_eq_some_iff.mp hreturns
  obtain rfl : value = some 0 := hvalue
  rw [hpc] at hact
  exact hs.shared.ended (hs.reads t (by rw [hpc]; trivial)) hlen (.of_act hact)

instance : DecidablePred Pc.Reads
  | .read .. | .readWait .. => isTrue trivial
  | .out | .write .. | .writeWait .. => isFalse id

instance : DecidablePred Pc.Writes
  | .write .. | .writeWait .. => isTrue trivial
  | .out | .read .. | .readWait .. => isFalse id

instance (s : State (Fin 2)) (e : Fin 2 × Act) : Decidable (s.Orderly e) :=
  inferInstanceAs (Decidable (_ ∧ _))

/-- A pipe that nobody has used. -/
def start : State (Fin 2) where
  shared :=
    { ring := { object := ⟨true, 1, 2, 0, 0, 0, 2⟩
                bytes := fun _ => 0 }
      readOpen := true
      writeOpen := true
      calls := []
      chunks := []
      returned := [] }
  pc _ := .out

theorem init_start : (pipeSystem (Fin 2)).init start :=
  ⟨rfl, rfl, rfl, rfl, rfl, rfl, rfl, rfl, fun _ => rfl⟩

theorem pipe_stream_drained : ∃ s : State (Fin 2), s.shared.chunks = [(0, [1, 2, 3])] ∧
    s.returns (0, .go) = some 0 ∧ s.shared.returned = s.shared.stream := by
  obtain ⟨s, hs, hp⟩ : ∃ s, (pipeSystem (Fin 2)).Reach State.Orderly s ∧
      decide (s.shared.chunks = [(0, [1, 2, 3])] ∧ s.pc 0 = .read 2 false ∧
        s.returns (0, .go) = some 0) = true :=
    EventSystem.Reach.exists_of_runIf (b := fun s e => decide (s.Orderly e))
      (fun _ _ => of_decide_eq_true)
      -- one thread writes and closes its end, and the other reads until there is no more
      [(0, .read 2 false), (0, .go), (1, .write [1, 2, 3] false), (1, .go), (1, .go), (0, .go),
        (0, .go), (1, .closeWrite), (0, .read 2 false), (0, .go), (0, .read 2 false)]
      init_start (by decide +kernel)
  obtain ⟨hchunks, hpc, hreturns⟩ := of_decide_eq_true hp
  exact ⟨s, hchunks, hreturns, ((pipe_stream hs).2.2 0 2 false hpc (by decide) hreturns).2⟩

end Pipe

end StarOS
