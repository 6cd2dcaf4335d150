import Mathlib.Algebra.BigOperators.Group.List.Basic
import Mathlib.Data.Finset.Card
import StarOS.Libc.Fd
import StarOS.Libc.Pipe

/-!
# Waiting for one of many descriptors

`select` takes three sets of descriptors, makes one list of what is asked about each descriptor, has
`poll` wait until something on it is ready, and writes what was reported back into the sets. What
`poll` reports of a descriptor is what was asked and is so, and besides that an error, or that it is
not open, which nobody has to ask about.

An error goes to the set of the descriptors to read from, whether or not the descriptor was in it,
and a descriptor counts once in the result whatever number of sets it is in.

## Main definitions

* `Fd.readiness`, `Fd.pollImpl`, `Fd.select`
* `Fd.Agrees` — the sets and the result say the same
* `Fd.Alone` — a descriptor that is reported to one set, which it was in

## Main results

* `Fd.pollImpl_eq` — what a wait ends with
* `Fd.contains_report`, `Fd.card_report` — what is in the sets
* `Fd.select_exact`
-/

namespace StarOS

namespace Fd

open Pipe (pipeCapacity)

/-! ### Readiness -/

def pollin : BitVec 16 := 0x001
def pollpri : BitVec 16 := 0x002
def pollout : BitVec 16 := 0x004
def pollerr : BitVec 16 := 0x008
def pollnval : BitVec 16 := 0x020

/-- What a thread sees that asks: the descriptors and their objects, and how many messages the
kernel holds for an endpoint. -/
structure View where
  fds : Fds
  pending : Handle → ℕ

def readiness (v : View) (kind : Kind) (wanted : BitVec 16) : BitVec 16 :=
  match kind with
  | .free => pollnval
  | .file .. => pollin &&& (wanted ||| pollerr ||| pollnval)
  | .event slot _ =>
    let w := v.fds.waitables slot
    ((if w.count > 0 then pollin else 0) ||| pollout) &&& (wanted ||| pollerr ||| pollnval)
  | .pipe slot true =>
    let w := v.fds.waitables slot
    ((if w.buffered.toNat < pipeCapacity then pollout else 0) |||
      (if w.ends < 2 then pollerr else 0)) &&& (wanted ||| pollerr ||| pollnval)
  | .pipe slot false =>
    let w := v.fds.waitables slot
    ((if w.buffered > 0 then pollin else 0) |||
      (if w.ends < 2 ∧ w.buffered = 0 then pollin else 0)) &&& (wanted ||| pollerr ||| pollnval)
  | .endpoint cap _ =>
    ((if v.pending cap > 0 then pollin else 0) ||| pollout) &&& (wanted ||| pollerr ||| pollnval)

/-- The notification a waiter blocks on, if any. -/
def notification (v : View) (kind : Kind) (wanted : BitVec 16) : Option Handle :=
  let source : Option (Slot × Bool) :=
    match kind with
    | .event slot _ => some (slot, wanted &&& pollin ≠ 0)
    | .pipe slot write => some (slot, !write)
    | .endpoint _ (some slot) => some (slot, true)
    | _ => none
  source.bind fun p =>
    let w := v.fds.waitables p.1
    let handle := if p.2 then w.readable else w.writable
    if handle ≠ 0 then some handle else none

/-! ### Waiting -/

/-- One entry of what is asked. -/
structure PollFd where
  fd : ℤ
  events : BitVec 16
  revents : BitVec 16
  deriving DecidableEq

/-- At most so many sources in one wait. -/
def maxSources : ℕ := 16

/-- What happens while a thread polls: what it sees at each entry, in each pass, when it asks and
when it collects its sources, and whether a wait ends because something was signalled. -/
structure World where
  look : ℕ → ℕ → View
  collect : ℕ → ℕ → View
  waitAny : ℕ → List Handle → ℕ → Bool

/-- An entry with what is reported of its descriptor. -/
def PollFd.looked (v : View) (e : PollFd) : PollFd :=
  { e with revents :=
      match v.fds.get e.fd with
      | some kind => readiness v kind e.events
      | none => if e.fd < 0 then 0 else pollnval }

/-- All entries, in one pass. -/
def looked (w : World) (pass : ℕ) (entries : List PollFd) : List PollFd :=
  entries.mapIdx fun i e => e.looked (w.look pass i)

/-- How many entries have something to report. -/
def readyCount (entries : List PollFd) : ℕ := entries.countP (·.revents ≠ 0)

/-- What a thread sleeps on. -/
def sources (w : World) (pass : ℕ) (entries : List PollFd) : List Handle :=
  (entries.mapIdx fun i e =>
    ((w.collect pass i).fds.get e.fd).bind fun kind =>
      notification (w.collect pass i) kind e.events).foldl (fun handles handle =>
    match handle with
    | some handle =>
      if handle ∉ handles ∧ handles.length < maxSources then handles ++ [handle] else handles
    | none => handles) []

/-- One turn of the loop. It ends with what `poll` returns, or the thread looks again. -/
def pollTurn (w : World) (deadline : Option ℕ) (pass : ℕ) (entries : List PollFd) :
    Option (ℤ × List PollFd) :=
  let entries := looked w pass entries
  if readyCount entries > 0 then some (readyCount entries, entries)
  else if deadline = some 0 then some (0, entries)
  else
    let handles := sources w pass entries
    if handles = [] then
      if deadline.isSome then some (0, entries) else some (-1, entries)
    else if w.waitAny pass handles (deadline.getD 0) = false ∧ deadline.isSome then
      some (0, entries.map fun e => { e with revents := 0 })
    else none

/-- At most so many turns, from a pass on. -/
def pollImpl (w : World) (deadline : Option ℕ) : ℕ → ℕ → List PollFd → Option (ℤ × List PollFd)
  | 0, _, _ => none
  | turns + 1, pass, entries =>
    match pollTurn w deadline pass entries with
    | some r => some r
    | none => pollImpl w deadline turns (pass + 1) (looked w pass entries)

/-! ### Sets of descriptors -/

def fdSetsize : ℕ := 1024

/-- A set, 64 descriptors a word. -/
structure FdSet where
  bits : ℕ → BitVec 64

namespace FdSet

def contains (s : FdSet) (fd : ℤ) : Bool :=
  if fd < 0 then false
  else decide (fd.toNat < fdSetsize) && (s.bits (fd.toNat / 64)).getLsbD (fd.toNat % 64)

def clear : FdSet := ⟨fun _ => 0⟩

def insert (s : FdSet) (fd : ℤ) : FdSet :=
  if fd < 0 then s
  else if fd.toNat < fdSetsize then
    ⟨Function.update s.bits (fd.toNat / 64)
      (s.bits (fd.toNat / 64) ||| BitVec.twoPow 64 (fd.toNat % 64))⟩
  else s

/-- How many bits are set. -/
def card (s : FdSet) : ℕ := ((Finset.range fdSetsize).filter fun n : ℕ => s.contains n).card

end FdSet

/-- The three sets of a call, each of which may be missing. -/
structure Sets where
  read : Option FdSet
  write : Option FdSet
  except : Option FdSet

/-- What is asked about a descriptor. -/
def asked (sets : Sets) (fd : ℤ) : BitVec 16 :=
  (if sets.read.any (·.contains fd) then pollin else 0) |||
    (if sets.write.any (·.contains fd) then pollout else 0) |||
    (if sets.except.any (·.contains fd) then pollpri else 0)

/-- The most descriptors that are translated. -/
def maxSelect : ℕ := maxFds + firstFd

/-- The descriptors below `nfds` that are in one of the sets. -/
def watched (nfds : ℤ) (sets : Sets) : List PollFd :=
  (List.range (max 0 (min nfds maxSelect)).toNat).filterMap fun fd : ℕ =>
    if asked sets fd ≠ 0 then some ⟨fd, asked sets fd, 0⟩ else none

/-- What is reported of one descriptor, written into the sets, with the descriptors counted. -/
def report (p : Sets × ℤ) (e : PollFd) : Sets × ℤ :=
  if e.revents = 0 then p
  else
    (⟨if e.revents &&& (pollin ||| pollerr ||| pollnval) ≠ 0 then p.1.read.map (·.insert e.fd)
        else p.1.read,
      if e.revents &&& pollout ≠ 0 then p.1.write.map (·.insert e.fd) else p.1.write,
      if e.revents &&& pollpri ≠ 0 then p.1.except.map (·.insert e.fd) else p.1.except⟩, p.2 + 1)

/-- `struct timeval`, in nanoseconds. Without an end there is none, and without a clock neither. -/
structure Timeval where
  sec : BitVec 64
  usec : BitVec 64

def saturating (n : ℕ) : ℕ := min n (2 ^ 64 - 1)

def Timeval.nanos (t : Timeval) : ℕ :=
  if t.sec.toInt < 0 ∨ t.usec.toInt < 0 then 0
  else if t.sec.toNat * 1000000000 < 2 ^ 64 then
    saturating (t.sec.toNat * 1000000000 + saturating (t.usec.toNat * 1000))
  else 2 ^ 64 - 1

def deadlineOf (clock : Option ℕ) (timeout : Option Timeval) : Option ℕ :=
  timeout.bind fun t =>
    if t.nanos = 0 then some 0 else clock.map fun now => saturating (now + t.nanos)

/-- `select`, with at most so many turns of `poll`: what it returns, and the sets behind it. -/
def select (w : World) (clock : Option ℕ) (turns : ℕ) (nfds : ℤ) (sets : Sets)
    (timeout : Option Timeval) : Option (ℤ × Sets) :=
  (pollImpl w (deadlineOf clock timeout) turns 0 (watched nfds sets)).map fun r =>
    if r.1 < 0 then (r.1, sets)
    else
      let cleared : Sets := ⟨sets.read.map fun _ => .clear, sets.write.map fun _ => .clear,
        sets.except.map fun _ => .clear⟩
      let p := r.2.foldl report (cleared, 0)
      (p.2, p.1)

/-! ### Bits -/

/-- A mask meets what it has a bit in common with. -/
theorem and_ne_zero {v mask : BitVec 16} :
    v &&& mask ≠ 0 ↔ ∃ i, v.getLsbD i = true ∧ mask.getLsbD i = true := by
  constructor
  · intro h
    by_contra hno
    refine h (BitVec.eq_of_getLsbD_eq fun i _ => ?_)
    rw [BitVec.getLsbD_and, show (0 : BitVec 16).getLsbD i = false by simp, Bool.and_eq_false_iff,
      ← Bool.not_eq_true, ← Bool.not_eq_true]
    exact not_and_or.1 fun hi => hno ⟨i, hi⟩
  · rintro ⟨i, hv, hmask⟩ hzero
    have hbit := congrArg (BitVec.getLsbD · i) hzero
    simp [hv, hmask] at hbit

theorem ne_zero_of_bit {v : BitVec 16} : v ≠ 0 ↔ ∃ i, v.getLsbD i = true := by
  have hall : v &&& BitVec.allOnes 16 ≠ 0 ↔ _ := and_ne_zero
  rw [BitVec.and_allOnes] at hall
  rw [hall]
  refine exists_congr fun i => ⟨And.left, fun h => ⟨h, ?_⟩⟩
  rw [BitVec.getLsbD_allOnes, decide_eq_true_eq]
  exact BitVec.lt_of_getLsbD h

variable {v : View} {kind : Kind} {wanted ready : BitVec 16} {i : ℕ}

theorem ite_bit {p : Prop} [Decidable p] {k : ℕ}
    (h : (if p then BitVec.twoPow 16 k else 0).getLsbD i = true) : i = k := by
  split at h
  · rw [BitVec.getLsbD_twoPow, Bool.and_eq_true, decide_eq_true_eq, decide_eq_true_eq] at h
    exact h.2.symm
  · simp at h

theorem bit_of_mask (hready : ∀ i, ready.getLsbD i = true → i = 0 ∨ i = 2 ∨ i = 3)
    (h : (ready &&& (wanted ||| pollerr ||| pollnval)).getLsbD i = true) :
    ((i = 0 ∨ i = 2) ∧ wanted.getLsbD i = true) ∨ i = 3 ∨ i = 5 := by
  have herr : pollerr = BitVec.twoPow 16 3 := by decide
  have hnval : pollnval = BitVec.twoPow 16 5 := by decide
  simp only [herr, hnval, BitVec.getLsbD_and, BitVec.getLsbD_or, BitVec.getLsbD_twoPow,
    Bool.and_eq_true, Bool.or_eq_true, decide_eq_true_eq] at h
  have hbit := hready i h.1
  rcases h.2 with (hasked | ⟨-, rfl⟩) | ⟨-, rfl⟩
  · rcases hbit with hi | hi | hi
    · exact .inl ⟨.inl hi, hasked⟩
    · exact .inl ⟨.inr hi, hasked⟩
    · exact .inr (.inl hi)
  · exact .inr (.inl rfl)
  · exact .inr (.inr rfl)

/-- What is reported was asked for, or is an error, or that the descriptor is not open. -/
theorem bit_of_readiness (h : (readiness v kind wanted).getLsbD i = true) :
    ((i = 0 ∨ i = 2) ∧ wanted.getLsbD i = true) ∨ i = 3 ∨ i = 5 := by
  have hin : pollin = BitVec.twoPow 16 0 := by decide
  have hout : pollout = BitVec.twoPow 16 2 := by decide
  have herr : pollerr = BitVec.twoPow 16 3 := by decide
  have hnval : pollnval = BitVec.twoPow 16 5 := by decide
  have hone : ∀ {k i : ℕ}, (BitVec.twoPow 16 k).getLsbD i = true → i = k := by
    intro k i h
    rw [BitVec.getLsbD_twoPow, Bool.and_eq_true, decide_eq_true_eq, decide_eq_true_eq] at h
    exact h.2.symm
  cases kind with
  | free =>
    rw [readiness, hnval] at h
    exact .inr (.inr (hone h))
  | file handle size offset =>
    refine bit_of_mask (fun i h => ?_) h
    rw [hin] at h
    exact .inl (hone h)
  | event slot semaphore =>
    refine bit_of_mask (fun i h => ?_) h
    rw [hin, hout, BitVec.getLsbD_or, Bool.or_eq_true] at h
    exact h.imp ite_bit fun h => .inl (hone h)
  | pipe slot write =>
    cases write with
    | true =>
      refine bit_of_mask (fun i h => ?_) h
      rw [herr, hout, BitVec.getLsbD_or, Bool.or_eq_true] at h
      exact .inr (h.imp ite_bit ite_bit)
    | false =>
      refine bit_of_mask (fun i h => ?_) h
      rw [hin, BitVec.getLsbD_or, Bool.or_eq_true] at h
      exact .inl (h.elim ite_bit ite_bit)
  | endpoint cap slot =>
    refine bit_of_mask (fun i h => ?_) h
    rw [hin, hout, BitVec.getLsbD_or, Bool.or_eq_true] at h
    exact h.imp ite_bit fun h => .inl (hone h)

theorem bit_of_looked {e : PollFd} (h : (e.looked v).revents.getLsbD i = true) :
    ((i = 0 ∨ i = 2) ∧ e.events.getLsbD i = true) ∨ i = 3 ∨ i = 5 := by
  rw [PollFd.looked] at h
  dsimp only at h
  split at h
  · exact bit_of_readiness h
  · split at h
    · simp at h
    · have hnval : pollnval = BitVec.twoPow 16 5 := by decide
      rw [hnval, BitVec.getLsbD_twoPow, Bool.and_eq_true, decide_eq_true_eq,
        decide_eq_true_eq] at h
      exact .inr (.inr h.2.symm)

/-! ### What a wait ends with -/

variable {w : World} {deadline : Option ℕ} {pass turns : ℕ} {entries entries' : List PollFd}
  {r : ℤ × List PollFd}

/-- What is reported does not depend on what was reported before. -/
theorem looked_looked (w : World) (pass pass' : ℕ) (entries : List PollFd) :
    looked w pass' (looked w pass entries) = looked w pass' entries := by
  rw [looked, looked, looked, List.mapIdx_mapIdx]
  rfl

theorem pollTurn_eq (h : pollTurn w deadline pass entries = some r) :
    r.2 = looked w pass entries ∧ (r.1 = readyCount (looked w pass entries) ∨ r.1 = -1) := by
  rw [pollTurn] at h
  dsimp only at h
  split at h
  · cases h
    exact ⟨rfl, .inl rfl⟩
  · next hcount =>
    have hzero : readyCount (looked w pass entries) = 0 := Nat.eq_zero_of_not_pos hcount
    have hquiet : (0 : ℤ) = readyCount (looked w pass entries) := by
      rw [hzero]
      rfl
    split at h
    · cases h
      exact ⟨rfl, .inl hquiet⟩
    · split at h
      · split at h
        · cases h
          exact ⟨rfl, .inl hquiet⟩
        · cases h
          exact ⟨rfl, .inr rfl⟩
      · split at h
        · cases h
          refine ⟨(List.map_congr_left fun e he => ?_).trans (List.map_id _), .inl hquiet⟩
          have hrevents := List.countP_eq_zero.1 hzero e he
          simp only [ne_eq, decide_not, Bool.not_eq_true, Bool.not_eq_false',
            decide_eq_true_eq] at hrevents
          rw [id, ← hrevents]
        · cases h

/-- **What a wait ends with**: what is reported in the pass in which it ends. -/
theorem pollImpl_eq (hmore : pollImpl w deadline turns pass entries = none)
    (h : pollImpl w deadline (turns + 1) pass entries = some r) :
    r.2 = looked w (pass + turns) entries ∧
      (r.1 = readyCount (looked w (pass + turns) entries) ∨ r.1 = -1) := by
  induction turns generalizing pass entries with
  | zero =>
    rw [pollImpl] at h
    split at h
    · next hturn =>
      cases h
      exact pollTurn_eq hturn
    · cases h
  | succ turns ih =>
    rw [pollImpl] at h hmore
    split at h
    · next hturn =>
      rw [hturn] at hmore
      cases hmore
    · next hturn =>
      rw [hturn] at hmore
      have hlast := ih hmore h
      rwa [looked_looked, show pass + 1 + turns = pass + (turns + 1) by omega] at hlast

/-! ### Sets -/

/-- A number that a set can hold. -/
def InSet (fd : ℤ) : Prop := 0 ≤ fd ∧ fd < fdSetsize

theorem FdSet.contains_insert (s : FdSet) {fd : ℤ} (hfd : InSet fd) (other : ℤ) :
    (s.insert fd).contains other = true ↔ s.contains other = true ∨ other = fd := by
  obtain ⟨n, rfl⟩ := Int.eq_ofNat_of_zero_le hfd.1
  have hn : n < fdSetsize := Int.ofNat_lt.1 hfd.2
  rw [FdSet.insert, if_neg (by omega), Int.toNat_natCast, if_pos hn]
  rcases lt_or_ge other 0 with hneg | hnonneg
  · rw [contains, contains, if_pos hneg, if_pos hneg]
    refine iff_of_false (by simp) ?_
    rintro (h | h)
    · cases h
    · omega
  · obtain ⟨m, rfl⟩ := Int.eq_ofNat_of_zero_le hnonneg
    rw [contains, contains, if_neg (by omega), if_neg (by omega), Int.toNat_natCast]
    rw [show (m : ℤ) = n ↔ m = n from Int.natCast_inj]
    simp only [Bool.and_eq_true, decide_eq_true_eq]
    rcases eq_or_ne (m / 64) (n / 64) with hword | hword
    · rw [hword, Function.update_self, BitVec.getLsbD_or, Bool.or_eq_true, BitVec.getLsbD_twoPow]
      simp only [Bool.and_eq_true, decide_eq_true_eq]
      have hmn : n % 64 = m % 64 ↔ m = n := by omega
      rw [hmn]
      constructor
      · rintro ⟨hm, hbit | ⟨-, rfl⟩⟩
        · exact .inl ⟨hm, hbit⟩
        · exact .inr rfl
      · rintro (⟨hm, hbit⟩ | rfl)
        · exact ⟨hm, .inl hbit⟩
        · exact ⟨hn, .inr ⟨Nat.mod_lt _ (by decide), rfl⟩⟩
    · rw [Function.update_of_ne hword]
      refine ⟨.inl, fun h => h.resolve_right ?_⟩
      rintro rfl
      exact hword rfl

theorem FdSet.contains_clear (fd : ℤ) : FdSet.clear.contains fd = false := by
  rw [contains]
  split
  · rfl
  · rw [clear]
    simp

/-- Numbers put into a set one by one. -/
def FdSet.insertAll (s : FdSet) (fds : List ℤ) : FdSet := fds.foldl FdSet.insert s

theorem FdSet.contains_insertAll {fds : List ℤ} (h : ∀ fd ∈ fds, InSet fd) (s : FdSet)
    (other : ℤ) :
    (s.insertAll fds).contains other = true ↔ s.contains other = true ∨ other ∈ fds := by
  induction fds generalizing s with
  | nil => simp [insertAll]
  | cons fd fds ih =>
    obtain ⟨hfd, hfds⟩ := List.forall_mem_cons.1 h
    have hrest := ih hfds (s.insert fd)
    rw [contains_insert s hfd] at hrest
    rw [List.mem_cons, ← or_assoc]
    exact hrest

/-- As many bits are set as numbers were put into an empty set. -/
theorem FdSet.card_insertAll {fds : List ℤ} (h : ∀ fd ∈ fds, InSet fd) (hn : fds.Nodup) :
    (FdSet.clear.insertAll fds).card = fds.length := by
  have hset : (Finset.range fdSetsize).filter
      (fun n : ℕ => (FdSet.clear.insertAll fds).contains n = true) =
        (fds.map Int.toNat).toFinset := by
    ext n
    rw [Finset.mem_filter, Finset.mem_range, contains_insertAll h, contains_clear,
      List.mem_toFinset, List.mem_map]
    constructor
    · rintro ⟨-, hfalse | hmem⟩
      · cases hfalse
      · exact ⟨n, hmem, Int.toNat_natCast n⟩
    · rintro ⟨fd, hmem, rfl⟩
      obtain ⟨hlow, hhigh⟩ := h fd hmem
      refine ⟨by omega, .inr ?_⟩
      rwa [Int.toNat_of_nonneg hlow]
  have hnodup : (fds.map Int.toNat).Nodup := by
    refine List.Nodup.map_on (fun x hx y hy hxy => ?_) hn
    have hx := (h x hx).1
    have hy := (h y hy).1
    omega
  rw [card, hset, List.toFinset_card_of_nodup hnodup, List.length_map]

/-! ### What is written back -/

/-- The descriptors of which one of some events is reported. -/
def reported (mask : BitVec 16) (entries : List PollFd) : List ℤ :=
  (entries.filter fun e => e.revents &&& mask ≠ 0).map (·.fd)

/-- The events that go to each set. -/
def readMask : BitVec 16 := pollin ||| pollerr ||| pollnval

theorem foldl_report (p : Sets × ℤ) (entries : List PollFd) :
    entries.foldl report p =
      (⟨p.1.read.map (·.insertAll (reported readMask entries)),
        p.1.write.map (·.insertAll (reported pollout entries)),
        p.1.except.map (·.insertAll (reported pollpri entries))⟩, p.2 + readyCount entries) := by
  have hstep : ∀ (o : Option FdSet) (e : PollFd) (mask : BitVec 16) (rest : List PollFd),
      (if e.revents &&& mask ≠ 0 then o.map (·.insert e.fd) else o).map
          (·.insertAll (reported mask rest)) =
        o.map (·.insertAll (reported mask (e :: rest))) := by
    intro o e mask rest
    by_cases hmask : e.revents &&& mask ≠ 0
    · rw [if_pos hmask, reported, reported, List.filter_cons_of_pos (by simpa using hmask),
        Option.map_map]
      rfl
    · rw [if_neg hmask, reported, reported, List.filter_cons_of_neg (by simpa using hmask)]
  have hnone : ∀ (e : PollFd) (mask : BitVec 16), e.revents = 0 → ¬ e.revents &&& mask ≠ 0 := by
    intro e mask he hne
    rw [he] at hne
    exact hne BitVec.zero_and
  have hfirst : ∀ (p : Sets × ℤ) (e : PollFd), report p e =
      (⟨if e.revents &&& readMask ≠ 0 then p.1.read.map (·.insert e.fd) else p.1.read,
        if e.revents &&& pollout ≠ 0 then p.1.write.map (·.insert e.fd) else p.1.write,
        if e.revents &&& pollpri ≠ 0 then p.1.except.map (·.insert e.fd) else p.1.except⟩,
        p.2 + if e.revents ≠ 0 then 1 else 0) := by
    intro p e
    rw [report]
    split
    · next he =>
      rw [if_neg (hnone e _ he), if_neg (hnone e _ he), if_neg (hnone e _ he),
        if_neg (not_not.2 he), Int.add_zero]
    · rfl
  induction entries generalizing p with
  | nil =>
    have hself : ∀ (o : Option FdSet) (mask : BitVec 16),
        o.map (·.insertAll (reported mask [])) = o := fun o mask => Option.map_id'
    rw [hself, hself, hself]
    exact Prod.ext rfl (Int.add_zero _).symm
  | cons e entries ih =>
    have hcount : (readyCount (e :: entries) : ℤ) =
        (if e.revents ≠ 0 then 1 else 0) + readyCount entries := by
      rw [readyCount, List.countP_cons, readyCount, Int.natCast_add, Int.add_comm]
      simp only [decide_eq_true_eq]
      split <;> rfl
    rw [List.foldl_cons, ih, hfirst]
    dsimp only
    rw [hstep, hstep, hstep, hcount, Int.add_assoc]

/-! ### Where a report goes -/

/-- One bit. -/
theorem getLsbD_bit {k : ℕ} (hk : k < 16) (i : ℕ) :
    (BitVec.twoPow 16 k).getLsbD i = true ↔ i = k := by
  rw [BitVec.getLsbD_twoPow, Bool.and_eq_true, decide_eq_true_eq, decide_eq_true_eq]
  exact ⟨fun h => h.2.symm, fun h => ⟨hk, h.symm⟩⟩

theorem and_pollout_ne_zero (v : BitVec 16) : v &&& pollout ≠ 0 ↔ v.getLsbD 2 = true := by
  rw [and_ne_zero, show pollout = BitVec.twoPow 16 2 by decide]
  simp only [getLsbD_bit (show 2 < 16 by decide), exists_eq_right]

theorem and_pollpri_ne_zero (v : BitVec 16) : v &&& pollpri ≠ 0 ↔ v.getLsbD 1 = true := by
  rw [and_ne_zero, show pollpri = BitVec.twoPow 16 1 by decide]
  simp only [getLsbD_bit (show 1 < 16 by decide), exists_eq_right]

theorem and_readMask_ne_zero (v : BitVec 16) :
    v &&& readMask ≠ 0 ↔ v.getLsbD 0 = true ∨ v.getLsbD 3 = true ∨ v.getLsbD 5 = true := by
  rw [and_ne_zero, show readMask = BitVec.twoPow 16 0 ||| BitVec.twoPow 16 3 |||
    BitVec.twoPow 16 5 by decide]
  simp only [BitVec.getLsbD_or, Bool.or_eq_true, getLsbD_bit (show 0 < 16 by decide),
    getLsbD_bit (show 3 < 16 by decide), getLsbD_bit (show 5 < 16 by decide), and_or_left,
    exists_or, exists_eq_right, or_assoc]

/-- What is asked has a bit for each set. -/
theorem asked_bit {sets : Sets} {fd : ℤ} (h : (asked sets fd).getLsbD 2 = true) :
    ∃ s, sets.write = some s ∧ s.contains fd = true := by
  have hzero : ∀ (p : Prop) [Decidable p] {k : ℕ}, k ≠ 2 →
      ¬ (if p then BitVec.twoPow 16 k else 0).getLsbD 2 = true :=
    fun p _ k hk hbit => hk (ite_bit hbit).symm
  rw [asked, show pollin = BitVec.twoPow 16 0 by decide,
    show pollpri = BitVec.twoPow 16 1 by decide, BitVec.getLsbD_or, BitVec.getLsbD_or,
    Bool.or_eq_true, Bool.or_eq_true] at h
  have hwrite := (h.resolve_right (hzero _ (by decide))).resolve_left (hzero _ (by decide))
  split at hwrite
  · next hany => exact (Option.any_eq_true _ _).1 hany
  · simp at hwrite

variable {sets out : Sets} {nfds value : ℤ} {e : PollFd}

/-- Whatever is looked at is a descriptor that was asked about. -/
theorem mem_looked_watched (h : e ∈ looked w pass (watched nfds sets)) :
    InSet e.fd ∧ ∃ v, e = PollFd.looked v ⟨e.fd, asked sets e.fd, 0⟩ := by
  rw [looked, List.mem_mapIdx] at h
  obtain ⟨i, hi, rfl⟩ := h
  obtain ⟨fd, hfd, hentry⟩ := List.mem_filterMap.1 (List.getElem_mem hi)
  split at hentry
  · injection hentry with hentry
    have hlt := List.mem_range.1 hfd
    rw [← hentry]
    have hmax : maxSelect = 35 := rfl
    refine ⟨⟨Int.natCast_nonneg fd, ?_⟩, _, rfl⟩
    change (fd : ℤ) < fdSetsize
    have hset : fdSetsize = 1024 := rfl
    omega
  · cases hentry

theorem fds_looked (w : World) (pass : ℕ) (entries : List PollFd) :
    (looked w pass entries).map (·.fd) = entries.map (·.fd) := by
  refine List.ext_getElem (by simp [looked]) fun i h₁ h₂ => ?_
  rw [List.getElem_map, List.getElem_map]
  simp [looked, PollFd.looked]

/-- No descriptor is asked about twice. -/
theorem watched_nodup (nfds : ℤ) (sets : Sets) : ((watched nfds sets).map (·.fd)).Nodup := by
  rw [watched, List.map_filterMap]
  refine List.nodup_range.filterMap fun fd fd' number h h' => ?_
  split at h
  · split at h'
    · rw [Option.map_some, Option.mem_some_iff] at h h'
      exact Int.ofNat_inj.1 (h.trans h'.symm)
    · cases h'
  · cases h

theorem reported_nodup (w : World) (pass : ℕ) (nfds : ℤ) (sets : Sets) (mask : BitVec 16) :
    (reported mask (looked w pass (watched nfds sets))).Nodup := by
  have hall : ((looked w pass (watched nfds sets)).map (·.fd)).Nodup := by
    rw [fds_looked]
    exact watched_nodup nfds sets
  exact hall.sublist (List.filter_sublist.map _)

theorem reported_inSet {mask : BitVec 16} {fd : ℤ}
    (h : fd ∈ reported mask (looked w pass (watched nfds sets))) : InSet fd := by
  obtain ⟨e, he, rfl⟩ := List.mem_map.1 h
  exact (mem_looked_watched (List.mem_filter.1 he).1).1

/-! ### What the sets say -/

/-- A set before and after the call: what is in it after was in it before, and an event of its is
reported. -/
def Within (mask : BitVec 16) (entries : List PollFd) (before after : Option FdSet) : Prop :=
  ∀ s, after = some s → ∀ fd, s.contains fd = true →
    (∃ t, before = some t ∧ t.contains fd = true) ∧ fd ∈ reported mask entries

/-- The bits of a set, none if it is missing. -/
def bits (s : Option FdSet) : ℤ := s.elim 0 fun s => s.card

/-- The sets and the result agree with what is reported. -/
structure Agrees (sets out : Sets) (value : ℤ) (entries : List PollFd) : Prop where
  read : Within readMask entries sets.read out.read
  write : Within pollout entries sets.write out.write
  except : Within pollpri entries sets.except out.except
  value : value = bits out.read + bits out.write + bits out.except

/-- What is reported of a descriptor goes to one of the sets, and the descriptor was in it: an error
to the set of the descriptors to read from. -/
structure Alone (sets : Sets) (e : PollFd) : Prop where
  noRead : sets.read = none → e.revents ≠ 0 → e.revents &&& pollout ≠ 0
  read : ∀ s, sets.read = some s → e.revents &&& readMask ≠ 0 →
    s.contains e.fd = true ∧ ¬ e.revents &&& pollout ≠ 0

/-- A set that is written anew. -/
def written (mask : BitVec 16) (entries : List PollFd) (before : Option FdSet) : Option FdSet :=
  before.map fun _ => FdSet.clear.insertAll (reported mask entries)

theorem select_eq {clock : Option ℕ} {timeout : Option Timeval}
    (hmore : select w clock turns nfds sets timeout = none)
    (h : select w clock (turns + 1) nfds sets timeout = some (value, out)) (hvalue : 0 ≤ value) :
    value = readyCount (looked w turns (watched nfds sets)) ∧
      out = ⟨written readMask (looked w turns (watched nfds sets)) sets.read,
        written pollout (looked w turns (watched nfds sets)) sets.write,
        written pollpri (looked w turns (watched nfds sets)) sets.except⟩ := by
  rw [select, Option.map_eq_none_iff] at hmore
  rw [select, Option.map_eq_some_iff] at h
  obtain ⟨r, hr, hout⟩ := h
  obtain ⟨hentries, hcount⟩ := pollImpl_eq hmore hr
  rw [Nat.zero_add] at hentries hcount
  split at hout
  · next hneg =>
    cases hout
    omega
  · dsimp only at hout
    rw [foldl_report, hentries] at hout
    simp only [Option.map_map, Prod.mk.injEq] at hout
    exact ⟨by omega, hout.2.symm⟩

theorem within_written {mask : BitVec 16} {before : Option FdSet}
    (hset : ∀ fd ∈ reported mask entries, InSet fd) :
    Within mask entries before (written mask entries before) ↔
      ∀ s, before = some s → ∀ fd ∈ reported mask entries, s.contains fd = true := by
  have hmem : ∀ fd, (FdSet.clear.insertAll (reported mask entries)).contains fd = true ↔
      fd ∈ reported mask entries := by
    intro fd
    rw [FdSet.contains_insertAll hset, FdSet.contains_clear]
    simp
  cases before with
  | none => exact iff_of_true (fun s hs => by cases hs) (fun s hs => by cases hs)
  | some t =>
    constructor
    · rintro h s ⟨⟩ fd hfd
      obtain ⟨⟨s, ⟨⟩, hs⟩, -⟩ := h _ rfl fd ((hmem fd).2 hfd)
      exact hs
    · rintro h s ⟨⟩ fd hfd
      have hin := (hmem fd).1 hfd
      exact ⟨⟨t, rfl, h t rfl fd hin⟩, hin⟩

theorem bits_written {mask : BitVec 16} {before : Option FdSet}
    (hset : ∀ fd ∈ reported mask entries, InSet fd) (hn : (reported mask entries).Nodup) :
    bits (written mask entries before) =
      if before = none then 0 else ((reported mask entries).length : ℤ) := by
  cases before with
  | none => rfl
  | some t => exact congrArg Int.ofNat (FdSet.card_insertAll hset hn)

theorem length_reported (mask : BitVec 16) (entries : List PollFd) :
    (reported mask entries).length = entries.countP fun e => e.revents &&& mask ≠ 0 := by
  rw [reported, List.length_map, List.countP_eq_length_filter]

/-- What has one of two properties has the second one, or the first one alone. -/
theorem countP_or {α : Type*} (a b : α → Bool) (l : List α) :
    l.countP (fun x => a x || b x) = l.countP b + l.countP fun x => a x && !b x := by
  induction l with
  | nil => rfl
  | cons x l ih =>
    simp only [List.countP_cons, ih]
    cases a x <;> cases b x <;> simp <;> omega

theorem countP_and {α : Type*} (a b : α → Bool) (l : List α) :
    l.countP a = (l.countP fun x => a x && b x) + l.countP fun x => a x && !b x := by
  induction l with
  | nil => rfl
  | cons x l ih =>
    simp only [List.countP_cons, ih]
    cases a x <;> cases b x <;> simp <;> omega

/-- An event to read or to write is all that is reported. -/
theorem revents_ne_zero (h : e ∈ looked w pass (watched nfds sets)) :
    e.revents ≠ 0 ↔ e.revents &&& readMask ≠ 0 ∨ e.revents &&& pollout ≠ 0 := by
  obtain ⟨-, v, hlook⟩ := mem_looked_watched h
  rw [ne_zero_of_bit, and_readMask_ne_zero, and_pollout_ne_zero]
  constructor
  · rintro ⟨i, hi⟩
    have hbit := hi
    rw [hlook] at hbit
    rcases bit_of_looked hbit with ⟨rfl | rfl, -⟩ | rfl | rfl
    · exact .inl (.inl hi)
    · exact .inr hi
    · exact .inl (.inr (.inl hi))
    · exact .inl (.inr (.inr hi))
  · rintro ((h | h | h) | h)
    all_goals exact ⟨_, h⟩

/-- Nothing exceptional is ever reported. -/
theorem reported_pollpri (w : World) (pass : ℕ) (nfds : ℤ) (sets : Sets) :
    reported pollpri (looked w pass (watched nfds sets)) = [] := by
  refine List.map_eq_nil_iff.2 (List.filter_eq_nil_iff.2 fun e he h => ?_)
  obtain ⟨-, v, hlook⟩ := mem_looked_watched he
  rw [decide_eq_true_eq, and_pollpri_ne_zero, hlook] at h
  rcases bit_of_looked h with ⟨h | h, -⟩ | h | h
  all_goals cases h

/-- What can be written to was asked about. -/
theorem contains_of_pollout (h : e ∈ looked w pass (watched nfds sets))
    (hout : e.revents &&& pollout ≠ 0) :
    ∃ s, sets.write = some s ∧ s.contains e.fd = true := by
  obtain ⟨-, v, hlook⟩ := mem_looked_watched h
  rw [and_pollout_ne_zero, hlook] at hout
  rcases bit_of_looked hout with ⟨-, hasked⟩ | h | h
  · exact asked_bit hasked
  · cases h
  · cases h

/-- As many descriptors are reported as can be written to, and those besides that an event to read
is reported of. -/
theorem readyCount_looked (w : World) (pass : ℕ) (nfds : ℤ) (sets : Sets) :
    readyCount (looked w pass (watched nfds sets)) =
      (reported pollout (looked w pass (watched nfds sets))).length +
        (looked w pass (watched nfds sets)).countP fun e =>
          decide (e.revents &&& readMask ≠ 0) && !decide (e.revents &&& pollout ≠ 0) := by
  rw [readyCount, length_reported, ← countP_or]
  refine List.countP_congr fun e he => ?_
  rw [Bool.or_eq_true, decide_eq_true_eq, decide_eq_true_eq, decide_eq_true_eq]
  exact revents_ne_zero he

/-- Two of the sets are always right. -/
theorem agrees_written {es : List PollFd} (hes : es = looked w turns (watched nfds sets)) :
    Agrees sets ⟨written readMask es sets.read, written pollout es sets.write,
        written pollpri es sets.except⟩ (readyCount es) es ↔
      (∀ s, sets.read = some s → ∀ fd ∈ reported readMask es, s.contains fd = true) ∧
        (readyCount es : ℤ) =
          bits (written readMask es sets.read) + (reported pollout es).length := by
  have hset : ∀ mask, ∀ fd ∈ reported mask es, InSet fd := by
    rw [hes]
    exact fun mask fd => reported_inSet
  have hnodup : ∀ mask, (reported mask es).Nodup := by
    rw [hes]
    exact fun mask => reported_nodup w turns nfds sets mask
  have hasked : ∀ fd ∈ reported pollout es, ∃ s, sets.write = some s ∧ s.contains fd = true := by
    intro fd hfd
    obtain ⟨e, he, rfl⟩ := List.mem_map.1 hfd
    obtain ⟨he, hout⟩ := List.mem_filter.1 he
    rw [hes] at he
    exact contains_of_pollout he (of_decide_eq_true hout)
  have hpri : reported pollpri es = [] := by
    rw [hes]
    exact reported_pollpri w turns nfds sets
  have hwrite : bits (written pollout es sets.write) = (reported pollout es).length := by
    rw [bits_written (hset _) (hnodup _)]
    split
    · next hnone =>
      have hnil : reported pollout es = [] := by
        refine List.eq_nil_iff_forall_not_mem.2 fun fd hfd => ?_
        obtain ⟨s, hs, -⟩ := hasked fd hfd
        rw [hnone] at hs
        cases hs
      rw [hnil]
      rfl
    · rfl
  have hexcept : bits (written pollpri es sets.except) = 0 := by
    rw [bits_written (hset _) (hnodup _), hpri]
    exact ite_self _
  constructor
  · intro h
    have hvalue := h.value
    rw [hwrite, hexcept, Int.add_zero] at hvalue
    exact ⟨(within_written (hset _)).1 h.read, hvalue⟩
  · rintro ⟨hread, hvalue⟩
    refine ⟨(within_written (hset _)).2 hread, (within_written (hset _)).2 fun s hs fd hfd => ?_,
      (within_written (hset _)).2 fun s _ fd hfd => ?_, ?_⟩
    · obtain ⟨t, ht, hcontains⟩ := hasked fd hfd
      rw [hs, Option.some_inj] at ht
      rwa [ht]
    · rw [hpri] at hfd
      cases hfd
    · rw [hvalue, hwrite, hexcept, Int.add_zero]

/-- The bits are as many as the descriptors if no descriptor that is reported to read from can be
written to, or, without a set to read from, if all of them can. -/
theorem value_iff {es : List PollFd} (hes : es = looked w turns (watched nfds sets)) :
    (readyCount es : ℤ) = bits (written readMask es sets.read) + (reported pollout es).length ↔
      ∀ e ∈ es, e.revents &&& readMask ≠ 0 →
        (e.revents &&& pollout ≠ 0 ↔ sets.read = none) := by
  have hset : ∀ fd ∈ reported readMask es, InSet fd := by
    rw [hes]
    exact fun fd => reported_inSet
  have hnodup : (reported readMask es).Nodup := by
    rw [hes]
    exact reported_nodup w turns nfds sets readMask
  have hcount := readyCount_looked w turns nfds sets
  rw [← hes] at hcount
  rw [bits_written hset hnodup, hcount]
  split
  · next hnone =>
    rw [show ∀ a b : ℕ, ((a + b : ℕ) : ℤ) = 0 + a ↔ b = 0 by omega, List.countP_eq_zero]
    refine forall₂_congr fun e _ => ?_
    simp only [hnone, Bool.and_eq_true, Bool.not_eq_true', decide_eq_true_eq,
      decide_eq_false_iff_not, iff_true, not_and, not_not]
  · next hsome =>
    have hboth := countP_and (fun e : PollFd => decide (e.revents &&& readMask ≠ 0))
      (fun e => decide (e.revents &&& pollout ≠ 0)) es
    rw [length_reported readMask, hboth,
      show ∀ a b c : ℕ, ((a + b : ℕ) : ℤ) = ((c + b : ℕ) : ℤ) + a ↔ c = 0 by omega,
      List.countP_eq_zero]
    refine forall₂_congr fun e _ => ?_
    simp only [hsome, Bool.and_eq_true, decide_eq_true_eq, iff_false, not_and]

/-- The sets and the result agree if each descriptor is reported to one set, which it was in. -/
theorem agrees_iff {es : List PollFd} (hes : es = looked w turns (watched nfds sets)) :
    Agrees sets ⟨written readMask es sets.read, written pollout es sets.write,
        written pollpri es sets.except⟩ (readyCount es) es ↔ ∀ e ∈ es, Alone sets e := by
  rw [agrees_written hes, value_iff hes]
  constructor
  · rintro ⟨hread, hvalue⟩ e he
    refine ⟨fun hnone hne => ?_, fun s hs hbits => ⟨?_, fun hout => ?_⟩⟩
    · rw [hes] at he
      rcases (revents_ne_zero he).1 hne with hbits | hout
      · rw [← hes] at he
        exact (hvalue e he hbits).2 hnone
      · exact hout
    · exact hread s hs e.fd (List.mem_map.2 ⟨e, List.mem_filter.2 ⟨he, decide_eq_true hbits⟩, rfl⟩)
    · have hnone := (hvalue e he hbits).1 hout
      rw [hs] at hnone
      cases hnone
  · intro h
    refine ⟨fun s hs fd hfd => ?_, fun e he hbits => ⟨fun hout => ?_, fun hnone => ?_⟩⟩
    · obtain ⟨e, he, rfl⟩ := List.mem_map.1 hfd
      obtain ⟨he, hbits⟩ := List.mem_filter.1 he
      exact ((h e he).read s hs (of_decide_eq_true hbits)).1
    · refine Option.eq_none_iff_forall_ne_some.2 fun s hs => ?_
      exact ((h e he).read s hs hbits).2 hout
    · refine (h e he).noRead hnone ?_
      rw [hes] at he
      exact (revents_ne_zero he).2 (.inl hbits)

/-- **The sets agree exactly if each report is alone**: if whatever is reported of a descriptor, in
the pass in which the wait ends, goes to one of the sets and the descriptor was in it. -/
theorem select_exact {clock : Option ℕ} {timeout : Option Timeval}
    (hmore : select w clock turns nfds sets timeout = none)
    (h : select w clock (turns + 1) nfds sets timeout = some (value, out)) (hvalue : 0 ≤ value) :
    Agrees sets out value (looked w turns (watched nfds sets)) ↔
      ∀ e ∈ looked w turns (watched nfds sets), Alone sets e := by
  obtain ⟨rfl, rfl⟩ := select_eq hmore h hvalue
  exact agrees_iff rfl

/-- The slot that is taken first. -/
def firstSlot : Slot := (0 : Fin 8)

/-- Nothing changes while a thread polls, and there is one descriptor. -/
def oneOpen (kind : Kind) (o : Waitable) : World :=
  let v : View := ⟨⟨fun i => if i.val = 0 then kind else .free, fun _ => false, fun _ => o⟩,
      fun _ => 0⟩
  ⟨fun _ _ => v, fun _ _ => v, fun _ _ _ => true⟩

/-- A pipe that nobody reads any more. -/
def unread : Waitable := ⟨true, 1, 2, 0, 0, 0, 1⟩

/-- Its writing end, asked about as one to write to. -/
def toWrite : Sets := ⟨some .clear, some (FdSet.clear.insert 3), none⟩

/-- An eventfd that was written to, asked about as one to read from. -/
def toRead : Sets := ⟨some (FdSet.clear.insert 3), none, none⟩

theorem select_exact_event :
    Agrees toRead ⟨some (FdSet.clear.insert 3), none, none⟩ 1
      (looked (oneOpen (.event firstSlot false) ⟨true, 1, 2, 1, 0, 0, 0⟩) 0
        (watched 4 toRead)) := by
  have h : select (oneOpen (.event firstSlot false) ⟨true, 1, 2, 1, 0, 0, 0⟩) none 1 4 toRead none =
      some (1, ⟨some (FdSet.clear.insert 3), none, none⟩) := rfl
  refine (select_exact rfl h (by decide)).2 fun e he => ?_
  have hentry : e = ⟨3, pollin, pollin⟩ := List.mem_singleton.1 he
  rw [hentry]
  refine ⟨fun hnone => ?_, fun s hs _ => ?_⟩
  · cases hnone
  · cases hs
    decide

/-- An error goes to the descriptors to read from, which it was not in, and one descriptor is two
bits. -/
theorem select_unread :
    ∃ value out, select (oneOpen (.pipe firstSlot true) unread) none 0 4 toWrite none = none ∧
      select (oneOpen (.pipe firstSlot true) unread) none 1 4 toWrite none = some (value, out) ∧
      0 ≤ value ∧ ¬ Agrees toWrite out value
        (looked (oneOpen (.pipe firstSlot true) unread) 0 (watched 4 toWrite)) := by
  refine ⟨1, ⟨some (FdSet.clear.insert 3), some (FdSet.clear.insert 3), none⟩, rfl, rfl,
    by decide, fun h => ?_⟩
  obtain ⟨⟨s, hs, hcontains⟩, -⟩ := h.read _ rfl 3 (by decide)
  cases hs
  cases hcontains

end Fd

end StarOS
