import Mathlib.Algebra.BigOperators.Group.Finset.Piecewise
import Mathlib.Algebra.BigOperators.Group.List.Basic
import Mathlib.Data.Fintype.Basic
import StarOS.Lib.EventSystem
import StarOS.Libc.Fd

/-!
# Counters to wait on

A write adds to the counter of an eventfd. A read takes the counter, or one if it is a semaphore; it
exchanges the counter for what is left only if nobody has changed it in between, and otherwise looks
again. Any number of threads read and write, and a thread that waits may wake at any time.

The sum has 64 bits, and nothing keeps it from wrapping.

## Main definitions

* `Eventfd.eventfdSystem`
* `Eventfd.State.Conserved` — nothing is lost
* `Eventfd.State.Fits` — a write that does not make the counter wrap

## Main results

* `Eventfd.conserved_next` — one step keeps the balance unless the counter wraps
* `Eventfd.eventfd_exact`
-/

namespace StarOS

namespace Eventfd

open Fd (Waitable)

/-- The integer that 8 bytes in memory are. -/
def fromNeBytes (bytes : List UInt8) : BitVec 64 :=
  .ofNat 64 (bytes.foldr (fun b n => b.toNat + 256 * n) 0)

def toNeBytes (value : BitVec 64) : List UInt8 :=
  (List.range 8).map fun i => .ofNat (value.toNat / 256 ^ i)

/-- Where a thread is. -/
inductive Pc
  | out
  /-- In a write, in front of the addition and behind it. -/
  | write (value : BitVec 64)
  | wrote (value : BitVec 64)
  /-- In a read: at the head of the loop, waiting, with a counter it has seen, and with what it has
  taken. -/
  | read (nonblock : Bool)
  | readWait
  | seen (count : BitVec 64) (nonblock : Bool)
  | took (take : BitVec 64)
  deriving DecidableEq

/-- What a thread may do: call, or go on. -/
inductive Act
  | write (src : List UInt8)
  | read (len : ℕ) (nonblock : Bool)
  | go
  deriving DecidableEq

/-- What a call returns: a number, and the bytes a read leaves. -/
structure Answer where
  value : ℤ
  bytes : List UInt8 := []
  deriving DecidableEq

/-- The next step of a thread: the object after it, where the thread is, and what the call returns
if it returns. -/
def act (semaphore : Bool) (w : Waitable) : Pc → Act → Option (Waitable × Pc × Option Answer)
  | .out, .write src =>
    if src.length < 8 then some (w, .out, some ⟨-1, []⟩)
    else some (w, .write (fromNeBytes (src.take 8)), none)
  | .out, .read len nonblock =>
    if len < 8 then some (w, .out, some ⟨-1, []⟩) else some (w, .read nonblock, none)
  | .write value, .go => some ({ w with count := w.count + value }, .wrote value, none)
  | .wrote _, .go => some (w, .out, some ⟨8, []⟩)
  | .read nonblock, .go =>
    if w.count > 0 then some (w, .seen w.count nonblock, none)
    else if nonblock then some (w, .out, some ⟨-1, []⟩)
    else some (w, .readWait, none)
  | .readWait, .go => some (w, .read false, none)
  | .seen count nonblock, .go =>
    let take := if semaphore then 1 else count
    if w.count = count then some ({ w with count := count - take }, .took take, none)
    -- somebody was faster
    else some (w, .read nonblock, none)
  | .took take, .go => some (w, .out, some ⟨8, toNeBytes take⟩)
  | _, _ => none

variable {Thread : Type} [DecidableEq Thread]

/-- A counter and the threads that use it, with the values of the writes and of the reads that have
returned. -/
structure State (Thread : Type) where
  semaphore : Bool
  initial : BitVec 64
  object : Waitable
  pc : Thread → Pc
  written : List (BitVec 64)
  taken : List (BitVec 64)

/-- The value of a write that returns in this step. -/
def Pc.written : Pc → Act → Option (BitVec 64)
  | .wrote value, .go => some value
  | _, _ => none

/-- The value of the bytes that a read leaves which returns in this step. -/
def Pc.taken : Pc → Act → Option (BitVec 64)
  | .took take, .go => some (fromNeBytes (toNeBytes take))
  | _, _ => none

/-- One step of one thread. -/
def State.next (s : State Thread) : Thread × Act → Option (State Thread)
  | (t, a) => (act s.semaphore s.object (s.pc t) a).map fun (object, p, _) =>
    { s with
      object
      pc := Function.update s.pc t p
      written := ((s.pc t).written a).toList ++ s.written
      taken := ((s.pc t).taken a).toList ++ s.taken }

/-- What a new object counts. -/
def eventfd (initial : BitVec 32) : BitVec 64 := .ofInt 64 (max initial.toInt 0)

/-- Any number of threads, and a new counter. -/
def eventfdSystem (Thread : Type) [DecidableEq Thread] : EventSystem (State Thread)
    (Thread × Act) where
  init s := (∃ initial, s.initial = eventfd initial) ∧ s.object.count = s.initial ∧
    s.written = [] ∧ s.taken = [] ∧ ∀ t, s.pc t = .out
  next := State.next

/-- What a call has added to the counter before it returns, and what it has taken off. -/
def Pc.added : Pc → ℕ
  | .wrote value => value.toNat
  | _ => 0

def Pc.removed : Pc → ℕ
  | .took take => take.toNat
  | _ => 0

/-- Unbounded sum of values. -/
def total (values : List (BitVec 64)) : ℕ := (values.map BitVec.toNat).sum

/-- **Nothing is lost**: what was there and what was written is what was read and what is there. A
call that has not returned counts with what it has done to the counter. -/
def State.Conserved [Fintype Thread] (s : State Thread) : Prop :=
  s.initial.toNat + total s.written + ∑ t, (s.pc t).added =
    total s.taken + ∑ t, (s.pc t).removed + s.object.count.toNat

/-- A step that does not make the counter wrap. -/
def State.Fits (s : State Thread) (e : Thread × Act) : Prop :=
  ∀ value, s.pc e.1 = .write value → e.2 = .go → s.object.count.toNat + value.toNat < 2 ^ 64

/-! ### Bytes -/

theorem fromNeBytes_toNeBytes (value : BitVec 64) : fromNeBytes (toNeBytes value) = value := by
  apply BitVec.eq_of_toNat_eq
  have hlt := value.isLt
  rw [fromNeBytes, toNeBytes, BitVec.toNat_ofNat]
  simp [List.range_succ]
  omega

/-! ### Steps -/

/-- A counter that a read goes on with is not zero. -/
def Pc.Good : Pc → Prop
  | .seen count _ => count ≠ 0
  | .took take => take ≠ 0
  | _ => True

variable {w w' : Waitable} {semaphore : Bool} {p q : Pc} {a : Act} {answer : Option Answer}

/-- **What a thread does**, step by step. -/
inductive Acts (semaphore : Bool) (w : Waitable) : Pc → Act → Waitable → Pc → Prop
  | refused {a : Act} : Acts semaphore w .out a w .out
  | callWrite {src : List UInt8} (value : BitVec 64) :
      Acts semaphore w .out (.write src) w (.write value)
  | callRead {len : ℕ} {nonblock : Bool} :
      Acts semaphore w .out (.read len nonblock) w (.read nonblock)
  | add {value : BitVec 64} :
      Acts semaphore w (.write value) .go { w with count := w.count + value } (.wrote value)
  | wrote {value : BitVec 64} : Acts semaphore w (.wrote value) .go w .out
  | see {nonblock : Bool} : w.count ≠ 0 →
      Acts semaphore w (.read nonblock) .go w (.seen w.count nonblock)
  | again : Acts semaphore w (.read true) .go w .out
  | wait : Acts semaphore w (.read false) .go w .readWait
  | wake : Acts semaphore w .readWait .go w (.read false)
  | exchange {nonblock : Bool} :
      Acts semaphore w (.seen w.count nonblock) .go
        { w with count := w.count - if semaphore then 1 else w.count }
        (.took (if semaphore then 1 else w.count))
  | slow {count : BitVec 64} {nonblock : Bool} :
      Acts semaphore w (.seen count nonblock) .go w (.read nonblock)
  | took {take : BitVec 64} : Acts semaphore w (.took take) .go w .out

theorem acts_of_act (h : act semaphore w p a = some (w', q, answer)) :
    Acts semaphore w p a w' q := by
  cases p with
  | out =>
    cases a with
    | write src =>
      unfold act at h
      dsimp only at h
      split at h
      · cases h
        exact .refused
      · cases h
        exact .callWrite _
    | read len nonblock =>
      unfold act at h
      dsimp only at h
      split at h
      · cases h
        exact .refused
      · cases h
        exact .callRead
    | go => cases h
  | write value =>
    cases a with
    | go =>
      cases h
      exact .add
    | _ => cases h
  | wrote value =>
    cases a with
    | go =>
      cases h
      exact .wrote
    | _ => cases h
  | read nonblock =>
    cases a with
    | go =>
      unfold act at h
      dsimp only at h
      split at h
      · next hpos =>
        cases h
        exact .see fun hzero => absurd (hzero ▸ hpos) (BitVec.lt_irrefl _)
      · cases nonblock with
        | true =>
          cases h
          exact .again
        | false =>
          cases h
          exact .wait
    | _ => cases h
  | readWait =>
    cases a with
    | go =>
      cases h
      exact .wake
    | _ => cases h
  | seen count nonblock =>
    cases a with
    | go =>
      unfold act at h
      dsimp only at h
      split at h
      · next heq =>
        subst heq
        cases h
        exact .exchange
      · cases h
        exact .slow
    | _ => cases h
  | took take =>
    cases a with
    | go =>
      cases h
      exact .took
    | _ => cases h

theorem Pc.Good.acts (hg : p.Good) (h : Acts semaphore w p a w' q) : q.Good := by
  cases h with
  | see hne => exact hne
  | exchange =>
    cases semaphore with
    | true => exact show (1 : BitVec 64) ≠ 0 by decide
    | false => exact hg
  | _ => trivial

/-- **What a step does** to the balance of its thread: it is kept, unless the counter wraps. -/
theorem balance_acts (hg : p.Good) (h : Acts semaphore w p a w' q) :
    (total (p.written a).toList + q.added + p.removed + w.count.toNat =
      p.added + total (p.taken a).toList + q.removed + w'.count.toNat ↔
        ∀ value, p = .write value → a = .go → w.count.toNat + value.toNat < 2 ^ 64) := by
  have hquiet : ∀ {x : ℕ}, (∀ value, p ≠ .write value) → (x = x ↔
      ∀ value, p = .write value → a = .go → w.count.toNat + value.toNat < 2 ^ 64) :=
    fun hne => iff_of_true rfl fun value hp => absurd hp (hne value)
  have hone : ∀ value : BitVec 64, total (some value).toList = value.toNat := fun value =>
    List.sum_singleton
  cases h with
  | add =>
    rename_i value
    have hlt := value.isLt
    have hlt' := w.count.isLt
    have hsum : (w.count + value).toNat = (w.count.toNat + value.toNat) % 2 ^ 64 :=
      BitVec.toNat_add _ _
    show 0 + value.toNat + 0 + w.count.toNat = 0 + 0 + 0 + (w.count + value).toNat ↔ _
    rw [hsum]
    refine ⟨fun h value' heq _ => ?_, fun h => ?_⟩
    · cases heq
      omega
    · have hfits := h value rfl rfl
      omega
  | exchange =>
    obtain ⟨take, htake⟩ : ∃ take : BitVec 64, take = if semaphore then 1 else w.count := ⟨_, rfl⟩
    have hle : take ≤ w.count := by
      rw [htake]
      split
      · have hne : w.count.toNat ≠ 0 := fun hzero => hg (BitVec.eq_of_toNat_eq hzero)
        show 1 ≤ w.count.toNat
        omega
      · exact BitVec.le_refl _
    have hsub : (w.count - take).toNat = w.count.toNat - take.toNat := BitVec.toNat_sub_of_le hle
    have hle : take.toNat ≤ w.count.toNat := hle
    rw [← htake]
    refine iff_of_true ?_ fun value heq => by cases heq
    show 0 + 0 + 0 + w.count.toNat = 0 + 0 + take.toNat + (w.count - take).toNat
    omega
  | wrote =>
    rename_i value
    refine iff_of_true ?_ fun value heq => by cases heq
    show total (some value).toList + 0 + 0 + w.count.toNat = value.toNat + 0 + 0 + w.count.toNat
    rw [hone]
  | took =>
    rename_i take
    refine iff_of_true ?_ fun value heq => by cases heq
    show 0 + 0 + take.toNat + w.count.toNat =
      0 + total (some (fromNeBytes (toNeBytes take))).toList + 0 + w.count.toNat
    rw [hone, fromNeBytes_toNeBytes]
    omega
  | _ => exact hquiet fun value heq => by cases heq

theorem taken_ne_zero (hg : p.Good) {value : BitVec 64} (h : value ∈ (p.taken a).toList) :
    value ≠ 0 := by
  cases p with
  | took take =>
    cases a with
    | go =>
      obtain rfl := List.mem_singleton.mp h
      rw [fromNeBytes_toNeBytes]
      exact hg
    | _ => cases h
  | _ => cases h

variable {s s' : State Thread} {e : Thread × Act}

/-- A sum over the threads after one of them has moved. -/
theorem sum_update [Fintype Thread] (f : Pc → ℕ) (pc : Thread → Pc) (t : Thread) (p : Pc) :
    ∑ u, f (Function.update pc t p u) + f (pc t) = ∑ u, f (pc u) + f p := by
  have hcomp : (fun u => f (Function.update pc t p u)) =
      Function.update (fun u => f (pc u)) t (f p) :=
    funext fun u => Function.apply_update (fun _ => f) pc t p u
  rw [hcomp, Finset.sum_update_of_mem (Finset.mem_univ t), ← Finset.erase_eq,
    Nat.add_right_comm, Nat.add_assoc,
    Finset.add_sum_erase _ (fun u => f (pc u)) (Finset.mem_univ t), Nat.add_comm]

/-- What holds of a counter whatever is written to it. -/
structure State.Sound (s : State Thread) : Prop where
  pcs : ∀ t, (s.pc t).Good
  taken : ∀ value ∈ s.taken, value ≠ 0

theorem next_eq (h : s.next e = some s') : ∃ object p,
    Acts s.semaphore s.object (s.pc e.1) e.2 object p ∧
      s' = { s with
        object
        pc := Function.update s.pc e.1 p
        written := ((s.pc e.1).written e.2).toList ++ s.written
        taken := ((s.pc e.1).taken e.2).toList ++ s.taken } := by
  obtain ⟨t, a⟩ := e
  obtain ⟨⟨object, p, answer⟩, hact, rfl⟩ := Option.map_eq_some_iff.mp h
  exact ⟨object, p, acts_of_act hact, rfl⟩

theorem State.Sound.next (h : s.Sound) (hnext : s.next e = some s') : s'.Sound := by
  obtain ⟨object, p, hacts, rfl⟩ := next_eq hnext
  have hgood := h.pcs e.1
  refine ⟨fun t => ?_, fun value hmem => ?_⟩
  · show (Function.update s.pc e.1 p t).Good
    by_cases ht : t = e.1
    · rw [ht, Function.update_self]
      exact hgood.acts hacts
    · rw [Function.update_of_ne ht]
      exact h.pcs t
  · obtain hnew | hold := List.mem_append.mp hmem
    · exact taken_ne_zero hgood hnew
    · exact h.taken value hold

theorem State.Sound.of_reach {ok : State Thread → Thread × Act → Prop}
    (h : (eventfdSystem Thread).Reach ok s) : s.Sound := by
  refine h.invariant (fun s hinit => ?_) fun s e s' hs _ hnext => hs.next hnext
  obtain ⟨-, -, -, htaken, hpc⟩ := hinit
  refine ⟨fun t => ?_, fun value hmem => ?_⟩
  · rw [hpc]
    trivial
  · rw [htaken] at hmem
    cases hmem

theorem total_append (u v : List (BitVec 64)) : total (u ++ v) = total u + total v := by
  rw [total, List.map_append, List.sum_append]
  rfl

variable [Fintype Thread]

/-- **One step keeps the balance**, unless the counter wraps. -/
theorem conserved_next (hs : s.Sound) (h : s.Conserved) (hnext : s.next e = some s') :
    s'.Conserved ↔ s.Fits e := by
  obtain ⟨object, p, hacts, rfl⟩ := next_eq hnext
  refine Iff.trans ?_ (balance_acts (hs.pcs e.1) hacts)
  have hadded := sum_update Pc.added s.pc e.1 p
  have hremoved := sum_update Pc.removed s.pc e.1 p
  rw [State.Conserved] at h ⊢
  dsimp only
  rw [total_append, total_append]
  omega

theorem conserved_of_reach (h : (eventfdSystem Thread).Reach State.Fits s) : s.Conserved := by
  refine h.invariant_of (fun s hs => State.Sound.of_reach hs) (fun s hinit => ?_)
    fun s e s' hs hc hok hnext => (conserved_next hs hc hnext).mpr hok
  obtain ⟨-, hcount, hwritten, htaken, hpc⟩ := hinit
  rw [State.Conserved, hwritten, htaken, hcount]
  simp [total, hpc, Pc.added, Pc.removed]

/-- **The counter of an eventfd is conserved** in every run in which it does not wrap, and in no
other: the first write that makes it wrap loses a value. A read never comes to zero. -/
theorem eventfd_exact :
    (∀ s : State Thread, (eventfdSystem Thread).Reach State.Fits s → s.Conserved ∧
      ∀ e s', s.next e = some s' → (s'.Conserved ↔ s.Fits e)) ∧
    ∀ s : State Thread, (eventfdSystem Thread).Reachable s → ∀ value ∈ s.taken, value ≠ 0 :=
  ⟨fun _ h => ⟨conserved_of_reach h, fun _ _ hnext =>
    conserved_next (.of_reach h) (conserved_of_reach h) hnext⟩,
  fun _ h => (State.Sound.of_reach h).taken⟩

/-- A test of `Fits`. -/
def State.fits (s : State Thread) (e : Thread × Act) : Bool :=
  match s.pc e.1 with
  | .write value => e.2 ≠ .go ∨ s.object.count.toNat + value.toNat < 2 ^ 64
  | _ => true

omit [DecidableEq Thread] [Fintype Thread] in
theorem State.fits_of_fits (h : s.fits e = true) : s.Fits e := by
  intro value hpc hgo
  rw [fits, hpc] at h
  exact (of_decide_eq_true h).resolve_left (not_not.mpr hgo)

/-- One thread waits for a counter of 0, another writes 2 and then 1, and the first takes both. -/
theorem eventfd_exact_two : ∃ s : State (Fin 2), (eventfdSystem (Fin 2)).Reach State.Fits s ∧
    s.written = [1, 2] ∧ s.taken = [3] ∧ s.Conserved := by
  let start : State (Fin 2) := ⟨false, 0, ⟨true, 0, 0, 0, 0, 0, 0⟩, fun _ => .out, [], []⟩
  have hstart : (eventfdSystem (Fin 2)).init start := ⟨⟨0, rfl⟩, rfl, rfl, rfl, fun _ => rfl⟩
  obtain ⟨s, hreach, hs⟩ := EventSystem.Reach.exists_of_runIf (b := State.fits)
    (fun _ _ => State.fits_of_fits)
    [(1, .read 8 false), (1, .go), (0, .write (toNeBytes 2)), (0, .go), (0, .go),
      (0, .write (toNeBytes 1)), (0, .go), (0, .go), (1, .go), (1, .go), (1, .go), (1, .go)]
    (p := fun s => decide (s.written = [1, 2] ∧ s.taken = [3])) hstart (by decide +kernel)
  obtain ⟨hwritten, htaken⟩ := of_decide_eq_true hs
  exact ⟨s, hreach, hwritten, htaken, (eventfd_exact.1 s hreach).1⟩

/-- A counter of 1 and a write of the largest value: nothing is left of either. -/
theorem eventfd_wraps : ¬ ∀ s : State Unit, (eventfdSystem Unit).Reachable s → s.Conserved := by
  intro hall
  let start : State Unit := ⟨false, 1, ⟨true, 0, 0, 1, 0, 0, 0⟩, fun _ => .out, [], []⟩
  have hstart : (eventfdSystem Unit).init start := ⟨⟨1, rfl⟩, rfl, rfl, rfl, fun _ => rfl⟩
  obtain ⟨s, hreach, hs⟩ := EventSystem.Reachable.exists_of_run
    [((), .write (toNeBytes (-1))), ((), .go), ((), .go)]
    (p := fun s : State Unit => decide (s.initial = 1 ∧ s.written = [-1] ∧ s.taken = [] ∧
      s.object.count = 0 ∧ s.pc () = .out)) hstart (by decide +kernel)
  obtain ⟨hinitial, hwritten, htaken, hcount, hpc⟩ := of_decide_eq_true hs
  have hc := hall s hreach
  rw [State.Conserved, hinitial, hwritten, htaken, hcount] at hc
  simp [total, hpc, Pc.added, Pc.removed] at hc

end Eventfd

end StarOS
