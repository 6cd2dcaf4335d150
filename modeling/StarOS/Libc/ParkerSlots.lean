import StarOS.Lib.EventSystem
import StarOS.Lib.Exclusion

/-!
# The slots of the threads

Every thread parks on a notification of a fixed pool. Who creates a thread takes a slot of the pool
for it first, and gives it back where anything fails that comes after. The slot of a thread that has
finished is given back by the thread that joins it or, where it is detached, by itself. Threads take
turns, and any of the steps of the others may come between two of one.

A thread that ends in `pthread_exit` does not look whether it is detached, and one that is detached
when it has looked is not told. The slots of these stay taken.

## Main definitions

* `ParkerSlots.Pc`, `ParkerSlots.State.next` — where a thread is, and what it does next
* `ParkerSlots.slotSystem`
* `ParkerSlots.State.GivesBack` — a detached thread returns, and is detached before it looks

## Main results

* `ParkerSlots.State.Sound.next` — what is known of the threads, over a step
* `ParkerSlots.State.Kept.next` — a slot that is taken has one owner, over a step
* `ParkerSlots.slots_exact`
-/

namespace StarOS

namespace ParkerSlots

def maxThreads : ℕ := 32

/-- What the slots need of the block of a thread. -/
structure Block where
  slot : ℕ
  finished : Bool
  detached : Bool
  deriving DecidableEq

/-- Where a thread is. -/
inductive Pc
  /-- Not created. -/
  | absent
  /-- In the code of the program, that of destructors at exit included. -/
  | user
  /-- `take_slot`: about to exchange the word of a slot. -/
  | taking (slot : ℕ) (detached : Bool)
  /-- `new_thread_block`: about to allocate its TLS block, and the block of the thread. -/
  | allocTls (slot : ℕ) (detached : Bool)
  | allocBlock (slot : ℕ) (detached : Bool)
  /-- `pthread_create`: about to ask the kernel. -/
  | spawn (slot : ℕ) (detached : Bool)
  /-- One of these has failed: about to clear the word of the slot. -/
  | failed (slot : ℕ)
  /-- `thread_entry`, with the thread published as finished: about to look whether it is detached.
  -/
  | finishing
  /-- It is: about to clear the word of its slot. -/
  | release
  /-- `pthread_join`: waiting until the other has finished, and about to clear the word of its
  slot. -/
  | joining (target : ℕ)
  | collect (target : ℕ)
  | gone
  deriving DecidableEq

/-- How a thread is taken care of when it has ended: the program has it joined once or detached once
at most. -/
inductive Claim
  | nobody
  | joinedBy (thread : ℕ)
  | joined
  | detached
  deriving DecidableEq

/-- The words of the slots, the blocks of the threads that were made and where these are, and what
the code does not keep: how each is taken care of, and whether its slot was given back. -/
structure State where
  slots : ℕ → Bool
  blocks : ℕ → Block
  made : ℕ
  pc : ℕ → Pc
  claim : ℕ → Claim
  freed : ℕ → Bool

/-- What a thread may do: call, end, or go on, in two ways where something may fail. -/
inductive Act
  | create (detached : Bool)
  | join (target : ℕ)
  | detach (target : ℕ)
  | ret
  | pthreadExit
  | go
  | fail
  deriving DecidableEq

def State.goto (s : State) (t : ℕ) (p : Pc) : State := { s with pc := Function.update s.pc t p }

def State.clear (s : State) (slot : ℕ) : State :=
  { s with slots := Function.update s.slots slot false }

def State.setBlock (s : State) (t : ℕ) (b : Block) : State :=
  { s with blocks := Function.update s.blocks t b }

def State.setClaim (s : State) (t : ℕ) (c : Claim) : State :=
  { s with claim := Function.update s.claim t c }

/-- The slot of a thread is given back. -/
def State.free (s : State) (t : ℕ) : State :=
  { s.clear (s.blocks t).slot with freed := Function.update s.freed t true }

/-- A turn of the loop of `take_slot`. A slot without a notification is put back. -/
def State.takeSlot (s : State) (parkers : ℕ → ℕ) (t slot : ℕ) (detached : Bool) : State :=
  if slot < maxThreads then
    if s.slots slot = true then s.goto t (.taking (slot + 1) detached)
    else
      let taken : State := { s with slots := Function.update s.slots slot true }
      if parkers slot = 0 then taken.goto t (.failed slot)
      else taken.goto t (.allocTls slot detached)
  else s.goto t .user

/-- The kernel starts a thread. -/
def State.spawned (s : State) (t slot : ℕ) (detached : Bool) : State :=
  { s with
    blocks := Function.update s.blocks s.made ⟨slot, false, detached⟩
    made := s.made + 1
    pc := Function.update (Function.update s.pc t .user) s.made .user
    claim := Function.update s.claim s.made (if detached then .detached else .nobody) }

/-- The thread is published as finished. -/
def State.finish (s : State) (t : ℕ) : State := s.setBlock t { s.blocks t with finished := true }

/-- What the code of the program may do. The return of the main thread is the end of the process. -/
def State.call (s : State) (t : ℕ) : Act → Option State
  | .create detached => some (s.goto t (.taking 0 detached))
  | .join u =>
    if u < s.made ∧ s.claim u = .nobody then some ((s.setClaim u (.joinedBy t)).goto t (.joining u))
    else none
  | .detach u =>
    if u < s.made ∧ s.claim u = .nobody then
      some ((s.setBlock u { s.blocks u with detached := true }).setClaim u .detached)
    else none
  | .ret => if t = 0 then none else some ((s.finish t).goto t .finishing)
  | .pthreadExit => some ((s.finish t).goto t .gone)
  | _ => none

/-- How a call goes on. -/
def State.go (s : State) (parkers : ℕ → ℕ) (t : ℕ) : Option State :=
  match s.pc t with
  | .taking slot detached => some (s.takeSlot parkers t slot detached)
  | .allocTls slot detached => some (s.goto t (.allocBlock slot detached))
  | .allocBlock slot detached => some (s.goto t (.spawn slot detached))
  | .spawn slot detached => some (s.spawned t slot detached)
  | .failed slot => some ((s.clear slot).goto t .user)
  | .finishing => some (s.goto t (if (s.blocks t).detached then .release else .gone))
  | .release => some ((s.free t).goto t .gone)
  | .joining u => if (s.blocks u).finished then some (s.goto t (.collect u)) else none
  | .collect u => some (((s.free u).setClaim u .joined).goto t .user)
  | _ => none

/-- An allocation or the kernel refuses. -/
def State.fails (s : State) (t : ℕ) : Option State :=
  match s.pc t with
  | .allocTls slot _ | .allocBlock slot _ | .spawn slot _ => some (s.goto t (.failed slot))
  | _ => none

def State.next (parkers : ℕ → ℕ) (s : State) (e : ℕ × Act) : Option State :=
  match e.2 with
  | .go => s.go parkers e.1
  | .fail => s.fails e.1
  | act => if s.pc e.1 = .user then s.call e.1 act else none

/-- The main thread runs, with the first slot. -/
def slotSystem (parkers : ℕ → ℕ) : EventSystem State (ℕ × Act) where
  init s := s.slots = (fun i => i == 0) ∧ s.blocks 0 = ⟨0, false, false⟩ ∧ s.made = 1 ∧
    s.pc = (fun t => if t = 0 then .user else .absent) ∧ s.claim = (fun _ => .nobody) ∧
    s.freed = fun _ => false
  next := State.next parkers

/-- A detached thread does not end in `pthread_exit`, and none is detached that has gone. -/
def State.GivesBack (s : State) (e : ℕ × Act) : Prop :=
  (e.2 = .pthreadExit → (s.blocks e.1).detached = false) ∧ ∀ u, e.2 = .detach u → s.pc u ≠ .gone

/-- Every thread but the main one has finished and been joined or detached, and no call is going
on. -/
def State.Quiet (s : State) : Prop :=
  (s.pc 0 = .user ∨ s.pc 0 = .gone) ∧
    ∀ t, t ≠ 0 → t < s.made → s.pc t = .gone ∧ s.claim t ≠ .nobody

/-- What is asked of the slots. -/
structure State.Exact (s : State) : Prop where
  apart : ∀ t u, t < s.made → u < s.made → (s.blocks t).finished = false →
    (s.blocks u).finished = false → (s.blocks t).slot = (s.blocks u).slot → t = u
  free : s.Quiet → ∀ i, i ≠ (s.blocks 0).slot → s.slots i = false

variable {parkers : ℕ → ℕ} {s s' : State} {t u i : ℕ} {a : Act} {p : Pc}

/-! ### The threads -/

/-- The thread is published as finished. -/
def Pc.ended : Pc → Bool
  | .finishing | .release | .gone => true
  | _ => false

/-- The thread that is being joined. -/
def Pc.joins : Pc → Option ℕ
  | .joining u | .collect u => some u
  | _ => none

/-- What is known of one thread. -/
structure Life (b : Block) (p : Pc) (c : Claim) (freed : Bool) : Prop where
  finished : b.finished = p.ended
  detached : b.detached = true ↔ c = .detached
  joined : c = .joined → p.ended = true
  release : p = .release → c = .detached
  /-- Its slot is given back by who joins it, or by itself when it goes. -/
  freed : freed = true ↔ c = .joined ∨ c = .detached ∧ p = .gone

theorem Pc.not_ended {q : Pc} (h : q.ended = false) : q ≠ .release ∧ q ≠ .gone := by
  constructor
  all_goals
    rintro rfl
    cases h

/-- A thread that is not finished goes on. -/
theorem Life.move {b : Block} {c : Claim} {freed : Bool} {q : Pc} (h : Life b p c freed)
    (hp : p.ended = false) (hq : q.ended = false) : Life b q c freed := by
  obtain ⟨hfinished, hdetached, hjoined, -, hfreed⟩ := h
  refine ⟨hfinished.trans (hp.trans hq.symm), hdetached, fun hc => ?_,
    fun hr => absurd hr (Pc.not_ended hq).1, ?_⟩
  · rw [hq, ← hp]
    exact hjoined hc
  · rw [hfreed]
    exact or_congr_right (and_congr_right fun _ =>
      iff_of_false (Pc.not_ended hp).2 (Pc.not_ended hq).2)

structure State.Sound (s : State) : Prop where
  main : 0 < s.made
  absent : ∀ t, s.made ≤ t → s.pc t = .absent ∧ s.claim t = .nobody ∧ s.freed t = false
  life : ∀ t, t < s.made → Life (s.blocks t) (s.pc t) (s.claim t) (s.freed t)
  joining : ∀ t u, s.claim u = .joinedBy t ↔ (s.pc t).joins = some u
  collect : ∀ t u, s.pc t = .collect u → (s.blocks u).finished = true

theorem State.Sound.init (h : (slotSystem parkers).init s) : s.Sound := by
  obtain ⟨-, hmain, hmade, hpc, hclaim, hfreed⟩ := h
  refine ⟨hmade ▸ Nat.one_pos, fun t ht => ?_, fun t ht => ?_, fun t u => ?_, fun t u ht => ?_⟩
  · rw [hpc, hclaim, hfreed]
    exact ⟨if_neg (by omega), rfl, rfl⟩
  · obtain rfl : t = 0 := by omega
    rw [hmain, hpc, hclaim, hfreed]
    constructor <;> simp [Pc.ended]
  · rw [hpc, hclaim]
    refine iff_of_false (fun hc => by cases hc) fun hj => ?_
    dsimp only at hj
    split at hj <;> cases hj
  · rw [hpc] at ht
    dsimp only at ht
    split at ht <;> cases ht

theorem State.Sound.lt_made (h : s.Sound) (hpc : s.pc t ≠ .absent) : t < s.made :=
  Nat.lt_of_not_le fun hle => hpc (h.absent t hle).1

/-- A step after which all but one thread are as they were, and that one joins whom it did. -/
theorem State.Sound.step (h : s.Sound) (ht : t < s.made) (hmade : s'.made = s.made)
    (hother : ∀ v, v ≠ t → s'.blocks v = s.blocks v ∧ s'.pc v = s.pc v ∧ s'.claim v = s.claim v ∧
      s'.freed v = s.freed v)
    (hlife : Life (s'.blocks t) (s'.pc t) (s'.claim t) (s'.freed t))
    (hjoins : (s'.pc t).joins = (s.pc t).joins)
    (hclaim : ∀ v, s'.claim t = .joinedBy v ↔ s.claim t = .joinedBy v)
    (hcollect : ∀ u, s'.pc t = .collect u → s.pc t = .collect u ∨ (s.blocks u).finished = true)
    (hfinished : (s.blocks t).finished = true → (s'.blocks t).finished = true) : s'.Sound := by
  have hkeeps : ∀ v, (s.blocks v).finished = true → (s'.blocks v).finished = true := fun v hv => by
    rcases eq_or_ne v t with rfl | hne
    · exact hfinished hv
    · rwa [(hother v hne).1]
  refine ⟨hmade ▸ h.main, fun v hv => ?_, fun v hv => ?_, fun v u => ?_, fun v u hv => ?_⟩
  · obtain ⟨-, hpc, hc, hf⟩ := hother v (by omega)
    rw [hpc, hc, hf]
    exact h.absent v (hmade ▸ hv)
  · rcases eq_or_ne v t with rfl | hne
    · exact hlife
    · obtain ⟨hb, hpc, hc, hf⟩ := hother v hne
      rw [hb, hpc, hc, hf]
      exact h.life v (hmade ▸ hv)
  · have hj : (s'.pc v).joins = (s.pc v).joins := by
      rcases eq_or_ne v t with rfl | hne
      · exact hjoins
      · rw [(hother v hne).2.1]
    have hc : s'.claim u = .joinedBy v ↔ s.claim u = .joinedBy v := by
      rcases eq_or_ne u t with rfl | hne
      · exact hclaim v
      · rw [(hother u hne).2.2.1]
    rw [hj, hc]
    exact h.joining v u
  · refine hkeeps u ?_
    rcases eq_or_ne v t with rfl | hne
    · exact (hcollect u hv).elim (h.collect v u) id
    · rw [(hother v hne).2.1] at hv
      exact h.collect v u hv

/-- A step of one thread that changes its own place only. -/
theorem State.Sound.goto (h : s.Sound) (ht : t < s.made)
    (hlife : Life (s.blocks t) p (s.claim t) (s.freed t)) (hjoins : p.joins = (s.pc t).joins)
    (hcollect : ∀ u, p = .collect u → (s.blocks u).finished = true) : (s.goto t p).Sound := by
  have hself : (s.goto t p).pc t = p := Function.update_self _ _ _
  refine h.step ht rfl (fun v hv => ⟨rfl, Function.update_of_ne hv _ _, rfl, rfl⟩) ?_ ?_
    (fun _ => .rfl) (fun u hu => .inr (hcollect u (hself ▸ hu))) id
  · rw [hself]
    exact hlife
  · rw [hself]
    exact hjoins

/-- The places in the code of the program and in `pthread_create`. -/
def Pc.plain : Pc → Bool
  | .user | .taking _ _ | .allocTls _ _ | .allocBlock _ _ | .spawn _ _ | .failed _ => true
  | _ => false

theorem State.Sound.plain (h : s.Sound) (hpc : (s.pc t).plain = true) (hp : p.plain = true) :
    (s.goto t p).Sound := by
  have ht : t < s.made := h.lt_made fun habsent => by
    rw [habsent] at hpc
    cases hpc
  have hside : ∀ {q : Pc}, q.plain = true → q.joins = none ∧ q.ended = false := fun {q} hq => by
    cases q with
    | user | taking | allocTls | allocBlock | spawn | failed => exact ⟨rfl, rfl⟩
    | _ => cases hq
  obtain ⟨hold, hlives⟩ := hside hpc
  obtain ⟨hnew, hlives'⟩ := hside hp
  refine h.goto ht ((h.life t ht).move hlives hlives') (hnew.trans hold.symm) fun u hu => ?_
  rw [hu] at hp
  cases hp

theorem finish_block (s : State) (t : ℕ) :
    (s.finish t).blocks t = { s.blocks t with finished := true } := Function.update_self _ _ _

/-- A thread that is published as finished, behind which it does not wait to be joined by itself. -/
theorem State.Sound.finish (h : s.Sound) (hpc : s.pc t = .user) (hended : p.ended = true)
    (hrelease : p ≠ .release) (hjoins : p.joins = none)
    (hgone : p = .gone → (s.blocks t).detached = false) : ((s.finish t).goto t p).Sound := by
  have ht : t < s.made := h.lt_made fun habsent => by
    rw [habsent] at hpc
    cases hpc
  obtain ⟨-, hdetached, -, -, hfreed⟩ := h.life t ht
  have hself : ((s.finish t).goto t p).pc t = p := Function.update_self _ _ _
  have hblock : ((s.finish t).goto t p).blocks t = { s.blocks t with finished := true } :=
    finish_block s t
  refine h.step ht rfl (fun v hv => ⟨Function.update_of_ne hv _ _, Function.update_of_ne hv _ _,
    rfl, rfl⟩) ?_ ?_ (fun _ => .rfl) (fun u hu => ?_) fun _ => by rw [hblock]
  · rw [hself, hblock]
    refine ⟨hended.symm, hdetached, fun _ => hended, fun hr => absurd hr hrelease, ?_⟩
    show s.freed t = true ↔ s.claim t = .joined ∨ s.claim t = .detached ∧ p = .gone
    rw [hfreed, hpc]
    refine or_congr_right ⟨fun hc => absurd hc.2 (by simp), fun hc => ?_⟩
    have hd := hdetached.2 hc.1
    rw [hgone hc.2] at hd
    cases hd
  · rw [hself, hjoins, hpc]
    rfl
  · rw [hself] at hu
    rw [hu] at hjoins
    cases hjoins

/-- The thread looks whether it is detached. -/
theorem State.Sound.look (h : s.Sound) (hpc : s.pc t = .finishing) :
    (s.goto t (if (s.blocks t).detached then .release else .gone)).Sound := by
  have ht : t < s.made := h.lt_made fun habsent => by
    rw [habsent] at hpc
    cases hpc
  obtain ⟨hfinished, hdetached, hjoined, -, hfreed⟩ := h.life t ht
  rw [hpc] at hfinished hfreed hjoined
  cases hd : (s.blocks t).detached with
  | true =>
    have hc := hdetached.1 hd
    refine h.goto ht ⟨hfinished, hdetached, hjoined, fun _ => hc, ?_⟩ (hpc ▸ rfl) fun u hu => ?_
    · rw [hfreed, hc]
      simp
    · cases hu
  | false =>
    have hc : s.claim t ≠ .detached := fun hc => by
      rw [hdetached.2 hc] at hd
      cases hd
    refine h.goto ht ⟨hfinished, hdetached, hjoined, fun hr => ?_, ?_⟩ (hpc ▸ rfl) fun u hu => ?_
    · cases hr
    · rw [hfreed]
      simp [hc]
    · cases hu

/-- A detached thread gives its slot back itself. -/
theorem State.Sound.release (h : s.Sound) (hpc : s.pc t = .release) :
    ((s.free t).goto t .gone).Sound := by
  have ht : t < s.made := h.lt_made fun habsent => by
    rw [habsent] at hpc
    cases hpc
  obtain ⟨hfinished, hdetached, hjoined, hrelease, -⟩ := h.life t ht
  rw [hpc] at hfinished hjoined
  have hself : ((s.free t).goto t .gone).pc t = .gone := Function.update_self _ _ _
  have hfreed : ((s.free t).goto t .gone).freed t = true := Function.update_self _ _ _
  refine h.step ht rfl (fun v hv => ⟨rfl, Function.update_of_ne hv _ _, rfl,
    Function.update_of_ne hv _ _⟩) ?_ ?_ (fun _ => .rfl) (fun u hu => ?_) id
  · rw [hself, hfreed]
    refine ⟨hfinished, hdetached, hjoined, fun hr => ?_, ?_⟩
    · cases hr
    · exact iff_of_true rfl (.inr ⟨hrelease hpc, rfl⟩)
  · rw [hself, hpc]
    rfl
  · rw [hself] at hu
    cases hu

/-- A thread is detached before it has gone. -/
theorem State.Sound.detach (h : s.Sound) (hu : u < s.made) (hpc : s.pc u ≠ .gone)
    (hc : s.claim u = .nobody) :
    ((s.setBlock u { s.blocks u with detached := true }).setClaim u .detached).Sound := by
  obtain ⟨hfinished, hdetached, hjoined, hrelease, hfreed⟩ := h.life u hu
  have hblock : ((s.setBlock u { s.blocks u with detached := true }).setClaim u .detached).blocks
    u =
      { s.blocks u with detached := true } := Function.update_self _ _ _
  have hclaim : ((s.setBlock u { s.blocks u with detached := true }).setClaim u .detached).claim u =
      .detached := Function.update_self _ _ _
  refine h.step hu rfl (fun v hv => ⟨Function.update_of_ne hv _ _, rfl, Function.update_of_ne hv _
    _,
    rfl⟩) ?_ rfl (fun v => ?_) (fun v hv => .inl hv) fun hf => ?_
  · rw [hblock, hclaim]
    refine ⟨hfinished, iff_of_true rfl rfl, fun hj => ?_, fun _ => rfl, ?_⟩
    · cases hj
    · show s.freed u = true ↔ _ ∨ _ ∧ s.pc u = .gone
      rw [hfreed, hc]
      simp [hpc]
  · rw [hclaim, hc]
    simp
  · rw [hblock]
    exact hf

/-- A step of one thread that changes its place and the claim on another, which it may be. -/
theorem State.Sound.reclaim (h : s.Sound) {c : Claim} (hu : u < s.made) (hmade : s'.made = s.made)
    (hblocks : s'.blocks = s.blocks) (hpc : s'.pc = Function.update s.pc t p)
    (hclaim : s'.claim = Function.update s.claim u c)
    (hfreed : ∀ v, v ≠ u → s'.freed v = s.freed v)
    (hlife : Life (s.blocks u) (s.pc u) c (s'.freed u)) (ht : t < s.made)
    (hlives : (s.pc t).ended = false) (hlives' : p.ended = false) (hcollect : ∀ w, p ≠ .collect w)
    (hbefore : ∀ v, s.claim u = .joinedBy v → v = t)
    (hafter : ∀ v, c = .joinedBy v ↔ v = t ∧ p.joins = some u)
    (hothers : ∀ w, w ≠ u → (s.pc t).joins ≠ some w ∧ p.joins ≠ some w) : s'.Sound := by
  refine ⟨hmade ▸ h.main, fun v hv => ?_, fun v hv => ?_, fun v w => ?_, fun v w hv => ?_⟩
  · rw [hmade] at hv
    rw [hpc, hclaim, hfreed v (by omega), Function.update_of_ne (by omega),
      Function.update_of_ne (by omega)]
    exact h.absent v hv
  · have hnew : Life (s.blocks v) (s.pc v) (Function.update s.claim u c v) (s'.freed v) := by
      rcases eq_or_ne v u with rfl | hne
      · rw [Function.update_self]
        exact hlife
      · rw [Function.update_of_ne hne, hfreed v hne]
        exact h.life v (hmade ▸ hv)
    rw [hblocks, hpc, hclaim]
    rcases eq_or_ne v t with rfl | hne
    · rw [Function.update_self]
      exact hnew.move hlives hlives'
    · rw [Function.update_of_ne hne]
      exact hnew
  · have hold := h.joining v w
    rw [hpc, hclaim]
    rcases eq_or_ne w u with rfl | hw
    · rw [Function.update_self, hafter]
      rcases eq_or_ne v t with rfl | hv
      · rw [Function.update_self]
        exact and_iff_right rfl
      · rw [Function.update_of_ne hv]
        exact iff_of_false (fun hj => hv hj.1) fun hj => hv (hbefore v (hold.2 hj))
    · rw [Function.update_of_ne hw]
      rcases eq_or_ne v t with rfl | hv
      · rw [Function.update_self, hold]
        exact iff_of_false (hothers w hw).1 (hothers w hw).2
      · rw [Function.update_of_ne hv]
        exact hold
  · rw [hblocks]
    rw [hpc] at hv
    rcases eq_or_ne v t with rfl | hne
    · rw [Function.update_self] at hv
      exact absurd hv (hcollect w)
    · rw [Function.update_of_ne hne] at hv
      exact h.collect v w hv

theorem State.Sound.join (h : s.Sound) (hpc : s.pc t = .user) (hu : u < s.made)
    (hc : s.claim u = .nobody) : ((s.setClaim u (.joinedBy t)).goto t (.joining u)).Sound := by
  have ht : t < s.made := h.lt_made fun habsent => by
    rw [habsent] at hpc
    cases hpc
  have hlife : Life (s.blocks u) (s.pc u) (.joinedBy t) (s.freed u) := by
    obtain ⟨hfinished, hdetached, -, hrelease, hfreed⟩ := h.life u hu
    rw [hc] at hdetached hrelease hfreed
    refine ⟨hfinished, hdetached.trans (by simp), fun hj => ?_, fun hr => ?_,
      hfreed.trans (by simp)⟩
    · cases hj
    · cases hrelease hr
  refine h.reclaim hu rfl rfl rfl rfl (fun _ _ => rfl) hlife ht (hpc ▸ rfl) rfl (fun w hw => ?_)
    (fun v hv => ?_) (fun v => ?_) fun w hw => ⟨?_, fun hj => hw (Option.some.inj hj).symm⟩
  · cases hw
  · rw [hc] at hv
    cases hv
  · exact ⟨fun hv => ⟨(Claim.joinedBy.inj hv).symm, rfl⟩, fun hv => hv.1 ▸ rfl⟩
  · rw [hpc]
    exact (Option.some_ne_none w).symm

/-- The one that has joined a thread gives its slot back. -/
theorem State.Sound.collected (h : s.Sound) (hpc : s.pc t = .collect u) :
    u < s.made ∧ s.freed u = false ∧ (((s.free u).setClaim u .joined).goto t .user).Sound := by
  have ht : t < s.made := h.lt_made fun habsent => by
    rw [habsent] at hpc
    cases hpc
  have hc : s.claim u = .joinedBy t := (h.joining t u).2 (hpc ▸ rfl)
  have hu : u < s.made := Nat.lt_of_not_le fun hle => by
    rw [(h.absent u hle).2.1] at hc
    cases hc
  have hself : Function.update s.freed u true u = true := Function.update_self _ _ _
  obtain ⟨hfinished, hdetached, -, hrelease, hfreed⟩ := h.life u hu
  rw [hc] at hdetached hrelease hfreed
  have hlife : Life (s.blocks u) (s.pc u) .joined (Function.update s.freed u true u) := by
    refine ⟨hfinished, hdetached.trans (by simp), fun _ => hfinished ▸ h.collect t u hpc,
      fun hr => ?_, iff_of_true hself (.inl rfl)⟩
    cases hrelease hr
  refine ⟨hu, Bool.eq_false_iff.2 fun hf => ?_, h.reclaim hu rfl rfl rfl rfl
    (fun v hv => Function.update_of_ne hv _ _) hlife ht (hpc ▸ rfl) rfl (fun w hw => ?_)
    (fun v hv => ?_) (fun v => ?_) fun w hw => ⟨fun hj => ?_, (Option.some_ne_none w).symm⟩⟩
  · rcases hfreed.1 hf with hj | ⟨hj, -⟩
    · cases hj
    · cases hj
  · cases hw
  · rw [hc] at hv
    exact (Claim.joinedBy.inj hv).symm
  · exact iff_of_false (fun hv => by cases hv) fun hv => by cases hv.2
  · rw [hpc] at hj
    exact hw (Option.some.inj hj).symm

/-- A thread starts. -/
theorem State.Sound.spawned (h : s.Sound) {slot : ℕ} {detached : Bool}
    (hpc : s.pc t = .spawn slot detached) : (s.spawned t slot detached).Sound := by
  have ht : t < s.made := h.lt_made fun habsent => by
    rw [habsent] at hpc
    cases hpc
  obtain ⟨habsent, hfresh, hunfreed⟩ := h.absent s.made le_rfl
  have hplace : ∀ v, v ≠ s.made → (s.spawned t slot detached).pc v =
      Function.update s.pc t .user v := fun v hv => Function.update_of_ne hv _ _
  have hnew : (s.spawned t slot detached).pc s.made = .user := Function.update_self _ _ _
  refine ⟨Nat.succ_pos _, fun v hv => ?_, fun v hv => ?_, fun v w => ?_, fun v w hv => ?_⟩
  · have hv : s.made + 1 ≤ v := hv
    dsimp only [State.spawned]
    rw [Function.update_of_ne (by omega), Function.update_of_ne (by omega),
      Function.update_of_ne (by omega)]
    exact h.absent v (by omega)
  · have hv : v < s.made + 1 := hv
    dsimp only [State.spawned]
    rcases eq_or_ne v s.made with rfl | hne
    · rw [Function.update_self, Function.update_self, Function.update_self, hunfreed]
      refine ⟨rfl, ?_, fun hj => ?_, fun hr => ?_, ?_⟩
      · cases detached <;> simp
      · cases detached <;> cases hj
      · cases hr
      · cases detached <;> simp
    · rw [Function.update_of_ne hne, Function.update_of_ne hne, Function.update_of_ne hne]
      have hlife := h.life v (by omega)
      rcases eq_or_ne v t with rfl | hvt
      · rw [Function.update_self]
        exact hlife.move (hpc ▸ rfl) rfl
      · rw [Function.update_of_ne hvt]
        exact hlife
  · have hold := h.joining v w
    have hjoins : ((s.spawned t slot detached).pc v).joins = (s.pc v).joins := by
      rcases eq_or_ne v s.made with rfl | hne
      · rw [hnew, habsent]
        rfl
      · rw [hplace v hne]
        rcases eq_or_ne v t with rfl | hvt
        · rw [Function.update_self, hpc]
          rfl
        · rw [Function.update_of_ne hvt]
    rw [hjoins, ← hold]
    dsimp only [State.spawned]
    rcases eq_or_ne w s.made with rfl | hne
    · rw [Function.update_self, hfresh]
      cases detached <;> simp
    · rw [Function.update_of_ne hne]
  · have hold : s.pc v = .collect w := by
      rcases eq_or_ne v s.made with rfl | hne
      · rw [hnew] at hv
        cases hv
      · rw [hplace v hne] at hv
        rcases eq_or_ne v t with rfl | hvt
        · rw [Function.update_self] at hv
          cases hv
        · rwa [Function.update_of_ne hvt] at hv
    have hw : w ≠ s.made := fun heq => by
      have hc := (h.joining v w).2 (hold ▸ rfl)
      rw [heq, hfresh] at hc
      cases hc
    dsimp only [State.spawned]
    rw [Function.update_of_ne hw]
    exact h.collect v w hold

theorem State.Sound.call (h : s.Sound) (hok : s.GivesBack (t, a)) (hpc : s.pc t = .user)
    (hcall : s.call t a = some s') : s'.Sound := by
  obtain ⟨hexit, hdetach⟩ := hok
  cases a with
  | create detached =>
    cases hcall
    exact h.plain (hpc ▸ rfl) rfl
  | join u =>
    rw [State.call] at hcall
    split at hcall
    · next hu =>
      cases hcall
      exact h.join hpc hu.1 hu.2
    · cases hcall
  | detach u =>
    rw [State.call] at hcall
    split at hcall
    · next hu =>
      cases hcall
      exact h.detach hu.1 (hdetach u rfl) hu.2
    · cases hcall
  | ret =>
    rw [State.call] at hcall
    split at hcall
    · cases hcall
    · cases hcall
      exact h.finish hpc rfl (by simp) rfl fun heq => by cases heq
  | pthreadExit =>
    cases hcall
    exact h.finish hpc rfl (by simp) rfl fun _ => hexit rfl
  | go | fail => cases hcall

theorem State.Sound.takeSlot (h : s.Sound) {slot : ℕ} {detached : Bool}
    (hpc : s.pc t = .taking slot detached) : (s.takeSlot parkers t slot detached).Sound := by
  have hplain : (s.pc t).plain = true := hpc ▸ rfl
  have hslots : ∀ slots : ℕ → Bool, State.Sound { s with slots := slots } := fun _ =>
    ⟨h.main, h.absent, h.life, h.joining, h.collect⟩
  rw [State.takeSlot]
  split
  · split
    · exact h.plain hplain rfl
    · dsimp only
      split
      · exact (hslots _).plain hplain rfl
      · exact (hslots _).plain hplain rfl
  · exact h.plain hplain rfl

theorem State.Sound.go (h : s.Sound) (hgo : s.go parkers t = some s') : s'.Sound := by
  rw [State.go] at hgo
  split at hgo
  · next hpc =>
    cases hgo
    exact h.takeSlot hpc
  · next hpc =>
    cases hgo
    exact h.plain (hpc ▸ rfl) rfl
  · next hpc =>
    cases hgo
    exact h.plain (hpc ▸ rfl) rfl
  · next hpc =>
    cases hgo
    exact h.spawned hpc
  · next slot hpc =>
    cases hgo
    have hclear : (s.clear slot).Sound := ⟨h.main, h.absent, h.life, h.joining, h.collect⟩
    exact hclear.plain (show (s.pc t).plain = true from hpc ▸ rfl) rfl
  · next hpc =>
    cases hgo
    exact h.look hpc
  · next hpc =>
    cases hgo
    exact h.release hpc
  · next u hpc =>
    split at hgo
    · next hf =>
      cases hgo
      have ht : t < s.made := h.lt_made (by simp [hpc])
      refine h.goto ht ((h.life t ht).move (hpc ▸ rfl) rfl) (hpc ▸ rfl) fun v hv => ?_
      obtain rfl := Pc.collect.inj hv
      exact hf
    · cases hgo
  · next hpc =>
    cases hgo
    exact (h.collected hpc).2.2
  · cases hgo

theorem State.Sound.fails (h : s.Sound) (hfails : s.fails t = some s') : s'.Sound := by
  rw [State.fails] at hfails
  split at hfails
  · next hpc =>
    cases hfails
    exact h.plain (hpc ▸ rfl) rfl
  · next hpc =>
    cases hfails
    exact h.plain (hpc ▸ rfl) rfl
  · next hpc =>
    cases hfails
    exact h.plain (hpc ▸ rfl) rfl
  · cases hfails

theorem State.Sound.next {e : ℕ × Act} (h : s.Sound) (hok : s.GivesBack e)
    (hnext : s.next parkers e = some s') : s'.Sound := by
  obtain ⟨t, a⟩ := e
  cases a with
  | go => exact h.go hnext
  | fail => exact h.fails hnext
  | create | join | detach | ret | pthreadExit =>
    rw [State.next] at hnext
    dsimp only at hnext
    split at hnext
    · next hpc => exact h.call hok hpc hnext
    · cases hnext

/-! ### The slots -/

/-- The slot that a thread has taken for another that it has not started. -/
def Pc.slot : Pc → Option ℕ
  | .allocTls slot _ | .allocBlock slot _ | .spawn slot _ | .failed slot => some slot
  | _ => none

/-- The slots that the threads hold, for others and of their own. -/
def State.held (s : State) : ℕ ⊕ ℕ → Option ℕ
  | .inl t => (s.pc t).slot
  | .inr u => if u < s.made ∧ s.freed u = false then some (s.blocks u).slot else none

/-- A slot that is taken has one owner, and one that is free has none. -/
def State.Kept (s : State) : Prop := Owned s.slots s.held

theorem held_goto (s : State) (t : ℕ) (p : Pc) :
    (s.goto t p).held = Function.update s.held (.inl t) p.slot := by
  funext o
  cases o with
  | inl v =>
    rw [Function.update_apply]
    show (Function.update s.pc t p v).slot = _
    rw [Function.update_apply]
    by_cases hv : v = t
    · rw [if_pos hv, if_pos (congrArg Sum.inl hv)]
    · rw [if_neg hv, if_neg fun heq => hv (Sum.inl.inj heq)]
      rfl
  | inr u =>
    rw [Function.update_of_ne Sum.inr_ne_inl]
    rfl

/-- Whether a thread is finished or detached says nothing of its slot. -/
theorem held_setBlock {b : Block} (hslot : b.slot = (s.blocks t).slot) :
    (s.setBlock t b).held = s.held := by
  funext o
  cases o with
  | inl v => rfl
  | inr u =>
    show (if u < s.made ∧ s.freed u = false then some (Function.update s.blocks t b u).slot
      else none) = if u < s.made ∧ s.freed u = false then some (s.blocks u).slot else none
    rcases eq_or_ne u t with rfl | hne
    · rw [Function.update_self, hslot]
    · rw [Function.update_of_ne hne]

theorem held_free (s : State) (u : ℕ) :
    (s.free u).held = Function.update s.held (.inr u) none := by
  funext o
  cases o with
  | inl v =>
    rw [Function.update_of_ne Sum.inl_ne_inr]
    rfl
  | inr v =>
    show (if v < s.made ∧ Function.update s.freed u true v = false then some (s.blocks v).slot
      else none) = _
    rcases eq_or_ne v u with rfl | hne
    · rw [Function.update_self, Function.update_self, if_neg fun hf => absurd hf.2 (by simp)]
    · rw [Function.update_of_ne hne, Function.update_of_ne fun heq => hne (Sum.inr.inj heq)]
      rfl

theorem held_spawned (h : s.Sound) (hpc : s.pc t ≠ .absent) (slot : ℕ) (detached : Bool) :
    (s.spawned t slot detached).held =
      Function.update (Function.update s.held (.inl t) none) (.inr s.made) (some slot) := by
  obtain ⟨habsent, -, hunfreed⟩ := h.absent s.made le_rfl
  have ht : t < s.made := h.lt_made hpc
  funext o
  cases o with
  | inl v =>
    rw [Function.update_of_ne Sum.inl_ne_inr]
    show (Function.update (Function.update s.pc t .user) s.made .user v).slot = _
    rcases eq_or_ne v t with rfl | hv
    · rw [Function.update_of_ne (by omega), Function.update_self, Function.update_self]
      rfl
    · have hne : (Sum.inl v : ℕ ⊕ ℕ) ≠ .inl t := fun heq => hv (Sum.inl.inj heq)
      rw [Function.update_of_ne hne]
      rcases eq_or_ne v s.made with rfl | hm
      · rw [Function.update_self]
        show _ = (s.pc s.made).slot
        rw [habsent]
        rfl
      · rw [Function.update_of_ne hm, Function.update_of_ne hv]
        rfl
  | inr u =>
    show (if u < s.made + 1 ∧ s.freed u = false then
      some (Function.update s.blocks s.made ⟨slot, false, detached⟩ u).slot else none) = _
    rcases eq_or_ne u s.made with rfl | hm
    · rw [Function.update_self, Function.update_self, if_pos ⟨Nat.lt_succ_self _, hunfreed⟩]
    · rw [Function.update_of_ne hm, Function.update_of_ne fun heq => hm (Sum.inr.inj heq),
        Function.update_of_ne Sum.inr_ne_inl]
      show _ = if u < s.made ∧ s.freed u = false then some (s.blocks u).slot else none
      refine if_congr (and_congr_left fun _ => ?_) rfl rfl
      omega

theorem State.Kept.init (h : (slotSystem parkers).init s) : s.Kept := by
  obtain ⟨hslots, hmain, hmade, hpc, -, hfreed⟩ := h
  have hheld : s.held = Function.update (fun _ => none) (.inr 0) (some 0) := by
    funext o
    cases o with
    | inl t =>
      show (s.pc t).slot = _
      rw [hpc, Function.update_of_ne Sum.inl_ne_inr]
      dsimp only
      split <;> rfl
    | inr u =>
      show (if u < s.made ∧ s.freed u = false then some (s.blocks u).slot else none) = _
      rw [hmade, hfreed]
      rcases eq_or_ne u 0 with rfl | hu
      · rw [Function.update_self, hmain, if_pos ⟨Nat.one_pos, rfl⟩]
      · rw [Function.update_of_ne fun heq => hu (Sum.inr.inj heq),
          if_neg fun hlt => hu (Nat.lt_one_iff.1 hlt.1)]
  have hword : s.slots = Function.update (fun _ => false) 0 true := by
    rw [hslots]
    funext i
    rcases eq_or_ne i 0 with rfl | hi
    · rw [Function.update_self]
      rfl
    · rw [Function.update_of_ne hi]
      exact beq_eq_false_iff_ne.2 hi
  have hempty : Owned (fun _ : ℕ => false) fun _ : ℕ ⊕ ℕ => none := fun k =>
    .empty Bool.false_ne_true fun _ => (Option.some_ne_none k).symm
  show Owned s.slots s.held
  rw [hword, hheld]
  exact hempty.take rfl rfl

/-- A thread that goes on with the slot it has. -/
theorem State.Kept.goto (h : s.Kept) (hp : p.slot = (s.pc t).slot) : (s.goto t p).Kept := by
  show Owned s.slots (s.goto t p).held
  rw [held_goto]
  exact Owned.stay h hp

theorem State.Kept.setBlock (h : s.Kept) {b : Block} (hslot : b.slot = (s.blocks t).slot) :
    (s.setBlock t b).Kept := by
  show Owned s.slots (s.setBlock t b).held
  rw [held_setBlock hslot]
  exact h

theorem State.Kept.takeSlot (h : s.Kept) {slot : ℕ} {detached : Bool}
    (hpc : s.pc t = .taking slot detached) : (s.takeSlot parkers t slot detached).Kept := by
  have hnone : (s.pc t).slot = none := hpc ▸ rfl
  have htake : ∀ {q : Pc}, s.slots slot = false → q.slot = some slot →
      State.Kept (State.goto { s with slots := Function.update s.slots slot true } t q) := by
    intro q hfree hq
    show Owned (Function.update s.slots slot true) (State.held (State.goto { s with
      slots := Function.update s.slots slot true } t q))
    rw [held_goto, hq]
    exact Owned.take h hfree hnone
  rw [State.takeSlot]
  split
  · split
    · exact h.goto (hpc ▸ rfl)
    · next hfree =>
      have hfree := Bool.eq_false_iff.2 hfree
      dsimp only
      split
      · exact htake hfree rfl
      · exact htake hfree rfl
  · exact h.goto (hpc ▸ rfl)

/-- The slot of a thread that is still its own is given back. -/
theorem State.Kept.free (h : s.Kept) (hu : u < s.made) (hf : s.freed u = false) :
    (s.free u).Kept := by
  show Owned (Function.update s.slots (s.blocks u).slot false) (s.free u).held
  rw [held_free]
  exact Owned.give h (if_pos ⟨hu, hf⟩)

theorem State.Kept.call (h : s.Kept) (hpc : s.pc t = .user) (hcall : s.call t a = some s') :
    s'.Kept := by
  have hfinish : (s.finish t).Kept := h.setBlock rfl
  cases a with
  | create detached =>
    cases hcall
    exact h.goto (hpc ▸ rfl)
  | join u =>
    rw [State.call] at hcall
    split at hcall
    · cases hcall
      have hclaim : (s.setClaim u (.joinedBy t)).Kept := h
      exact hclaim.goto (show _ = (s.pc t).slot from hpc ▸ rfl)
    · cases hcall
  | detach u =>
    rw [State.call] at hcall
    split at hcall
    · cases hcall
      exact State.Kept.setBlock (t := u) h rfl
    · cases hcall
  | ret =>
    rw [State.call] at hcall
    split at hcall
    · cases hcall
    · cases hcall
      exact hfinish.goto (show _ = (s.pc t).slot from hpc ▸ rfl)
  | pthreadExit =>
    cases hcall
    exact hfinish.goto (show _ = (s.pc t).slot from hpc ▸ rfl)
  | go | fail => cases hcall

theorem State.Kept.go (h : s.Kept) (hs : s.Sound) (hgo : s.go parkers t = some s') : s'.Kept := by
  rw [State.go] at hgo
  split at hgo
  · next hpc =>
    cases hgo
    exact h.takeSlot hpc
  · next hpc =>
    cases hgo
    exact h.goto (hpc ▸ rfl)
  · next hpc =>
    cases hgo
    exact h.goto (hpc ▸ rfl)
  · next slot detached hpc =>
    cases hgo
    have hmade : s.held (.inr s.made) = none := if_neg fun hlt => absurd hlt.1 (lt_irrefl _)
    show Owned s.slots (s.spawned t slot detached).held
    rw [held_spawned hs (by simp [hpc])]
    exact Owned.pass h (show (s.pc t).slot = some slot from hpc ▸ rfl) hmade
  · next slot hpc =>
    cases hgo
    show Owned (Function.update s.slots slot false) ((s.clear slot).goto t .user).held
    rw [held_goto]
    exact Owned.give h (show (s.pc t).slot = some slot from hpc ▸ rfl)
  · next hpc =>
    cases hgo
    refine h.goto ?_
    rw [hpc]
    split <;> rfl
  · next hpc =>
    cases hgo
    have ht : t < s.made := hs.lt_made (by simp [hpc])
    have hf : s.freed t = false := Bool.eq_false_iff.2 fun hf => by
      have hfreed := (hs.life t ht).freed.1 hf
      rw [(hs.life t ht).release hpc, hpc] at hfreed
      simp at hfreed
    exact (h.free ht hf).goto (show _ = (s.pc t).slot from hpc ▸ rfl)
  · next u hpc =>
    split at hgo
    · cases hgo
      exact h.goto (hpc ▸ rfl)
    · cases hgo
  · next u hpc =>
    cases hgo
    obtain ⟨hu, hf, -⟩ := hs.collected hpc
    have hclaim : ((s.free u).setClaim u .joined).Kept := h.free hu hf
    exact hclaim.goto (show _ = (s.pc t).slot from hpc ▸ rfl)
  · cases hgo

theorem State.Kept.fails (h : s.Kept) (hfails : s.fails t = some s') : s'.Kept := by
  rw [State.fails] at hfails
  split at hfails
  · next hpc =>
    cases hfails
    exact h.goto (hpc ▸ rfl)
  · next hpc =>
    cases hfails
    exact h.goto (hpc ▸ rfl)
  · next hpc =>
    cases hfails
    exact h.goto (hpc ▸ rfl)
  · cases hfails

/-- **A slot that is taken has one owner**, over a step. -/
theorem State.Kept.next {e : ℕ × Act} (h : s.Kept) (hs : s.Sound)
    (hnext : s.next parkers e = some s') : s'.Kept := by
  obtain ⟨t, a⟩ := e
  cases a with
  | go => exact h.go hs hnext
  | fail => exact h.fails hnext
  | create | join | detach | ret | pthreadExit =>
    rw [State.next] at hnext
    dsimp only at hnext
    split at hnext
    · next hpc => exact h.call hpc hnext
    · cases hnext

/-! ### Every run -/

theorem sound_of_reach (h : (slotSystem parkers).Reach State.GivesBack s) : s.Sound :=
  h.invariant (fun _ => State.Sound.init) fun _ _ _ hs hok hnext => hs.next hok hnext

theorem kept_of_reach (h : (slotSystem parkers).Reach State.GivesBack s) : s.Kept :=
  h.invariant_of (J := State.Sound) (fun _ => sound_of_reach) (fun _ => State.Kept.init)
    fun _ _ _ hs hk _ hnext => hk.next hs hnext

/-- A thread that has not finished has its slot. -/
theorem State.Sound.holds (h : s.Sound) (ht : t < s.made) (hf : (s.blocks t).finished = false) :
    s.held (.inr t) = some (s.blocks t).slot := by
  refine if_pos ⟨ht, Bool.eq_false_iff.2 fun hfreed => ?_⟩
  have hlife := h.life t ht
  rw [hlife.finished] at hf
  rcases hlife.freed.1 hfreed with hj | ⟨-, hgone⟩
  · rw [hlife.joined hj] at hf
    cases hf
  · rw [hgone] at hf
    cases hf

/-- When it is quiet nobody but the main thread holds a slot. -/
theorem State.Sound.only_main (h : s.Sound) (hquiet : s.Quiet) {o : ℕ ⊕ ℕ}
    (ho : s.held o = some i) : i = (s.blocks 0).slot := by
  obtain ⟨hmain, hothers⟩ := hquiet
  -- Where a thread is when it is quiet.
  have hpc : ∀ v, s.pc v = .user ∨ s.pc v = .gone ∨ s.pc v = .absent := by
    intro v
    rcases eq_or_ne v 0 with rfl | hv
    · exact hmain.imp_right .inl
    · rcases Nat.lt_or_ge v s.made with hlt | hge
      · exact .inr (.inl (hothers v hv hlt).1)
      · exact .inr (.inr (h.absent v hge).1)
  cases o with
  | inl v =>
    have hslot : (s.pc v).slot = some i := ho
    rcases hpc v with heq | heq | heq
    all_goals
      rw [heq] at hslot
      cases hslot
  | inr u =>
    replace ho : (if u < s.made ∧ s.freed u = false then some (s.blocks u).slot else none) =
      some i := ho
    split at ho
    · next hu =>
      rcases eq_or_ne u 0 with rfl | hne
      · exact (Option.some.inj ho).symm
      · obtain ⟨hgone, hclaim⟩ := hothers u hne hu.1
        refine absurd ((h.life u hu.1).freed.2 ?_) (by simp [hu.2])
        cases hc : s.claim u with
        | nobody => exact absurd hc hclaim
        | joined => exact .inl rfl
        | detached => exact .inr ⟨rfl, hgone⟩
        | joinedBy v =>
          have hjoins := (h.joining v u).1 hc
          rcases hpc v with heq | heq | heq
          all_goals
            rw [heq] at hjoins
            cases hjoins
    · cases ho

/-- In every run in which a detached thread returns from its start routine, and none is detached
that has gone, two threads that have not finished have different slots, and when all but the main
thread have finished and were joined or detached, all slots but its own are free. -/
theorem slots_exact (h : (slotSystem parkers).Reach State.GivesBack s) : s.Exact := by
  have hs := sound_of_reach h
  have hk := kept_of_reach h
  refine ⟨fun t u ht hu hft hfu hslot => ?_, fun hquiet i hi => ?_⟩
  · have hheld := hs.holds ht hft
    rw [hslot] at hheld
    exact Sum.inr.inj (Owned.unique hk hheld (hs.holds hu hfu))
  · refine Bool.eq_false_iff.2 fun htaken => ?_
    obtain ⟨o, ho⟩ := Owned.exists_held hk htaken
    exact hi (hs.only_main hquiet ho)

/-- The state in front of the first call of the main thread. -/
def start : State where
  slots i := i == 0
  blocks _ := ⟨0, false, false⟩
  made := 1
  pc t := if t = 0 then .user else .absent
  claim _ := .nobody
  freed _ := false

/-- When there are two threads it is quiet when the second has gone. -/
theorem quiet_two (hmade : s.made = 2) (hmain : s.pc 0 = .user) (hgone : s.pc 1 = .gone)
    (hclaim : s.claim 1 ≠ .nobody) : s.Quiet := by
  refine ⟨.inl hmain, fun t ht hlt => ?_⟩
  obtain rfl : t = 1 := by omega
  exact ⟨hgone, hclaim⟩

/-- The main thread starts another, which returns and is joined. -/
theorem slots_exact_join : ∃ s : State, s.Exact ∧ s.Quiet ∧ s.made = 2 := by
  have hgives : ∀ (s : State) (e : ℕ × Act),
      decide (e.2 = .create false ∨ e.2 = .go ∨ e.2 = .ret ∨ e.2 = .join 1) = true →
        s.GivesBack e := by
    intro s e hb
    rcases of_decide_eq_true hb with hact | hact | hact | hact
    all_goals
      refine ⟨fun heq => ?_, fun u heq => ?_⟩
      · rw [hact] at heq
        cases heq
      · rw [hact] at heq
        cases heq
  obtain ⟨s, hs, hends⟩ := EventSystem.Reach.exists_of_runIf (M := slotSystem fun _ => 1) hgives
    (s := start)
    [(0, .create false), (0, .go), (0, .go), (0, .go), (0, .go), (0, .go), (1, .ret), (1, .go),
      (0, .join 1), (0, .go), (0, .go)]
    (p := fun s => s.made = 2 && s.pc 0 = .user && s.pc 1 = .gone && s.claim 1 = .joined)
    ⟨rfl, rfl, rfl, rfl, rfl, rfl⟩ (by decide)
  simp only [Bool.and_eq_true, decide_eq_true_eq] at hends
  obtain ⟨⟨⟨hmade, hmain⟩, hgone⟩, hclaim⟩ := hends
  exact ⟨s, slots_exact hs, quiet_two hmade hmain hgone (by simp [hclaim]), hmade⟩

/-- A thread is created detached and ends in `pthread_exit`: its slot stays taken. -/
theorem slot_stays_taken : ∃ s : State, (slotSystem fun _ => 1).Reachable s ∧ ¬s.Exact := by
  obtain ⟨s, hs, hends⟩ := EventSystem.Reachable.exists_of_run (M := slotSystem fun _ => 1)
    (s := start)
    [(0, .create true), (0, .go), (0, .go), (0, .go), (0, .go), (0, .go), (1, .pthreadExit)]
    (p := fun s => s.made = 2 && s.pc 0 = .user && s.pc 1 = .gone && s.claim 1 = .detached &&
      s.slots 1 = true && (s.blocks 0).slot = 0)
    ⟨rfl, rfl, rfl, rfl, rfl, rfl⟩ (by decide)
  simp only [Bool.and_eq_true, decide_eq_true_eq] at hends
  obtain ⟨⟨⟨⟨⟨hmade, hmain⟩, hgone⟩, hclaim⟩, htaken⟩, hslot⟩ := hends
  refine ⟨s, hs, fun hexact => ?_⟩
  have hfree := hexact.free (quiet_two hmade hmain hgone (by simp [hclaim])) 1
    (by rw [hslot]; exact Nat.one_ne_zero)
  rw [htaken] at hfree
  cases hfree

end ParkerSlots

end StarOS
