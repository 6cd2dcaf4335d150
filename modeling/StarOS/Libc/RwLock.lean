import Mathlib.Algebra.Group.Nat.Defs
import Mathlib.Data.Multiset.AddSub
import StarOS.Libc.Calls

/-!
# Read-write locks

A reader adds itself to the readers and looks at the writer flag again; a writer sets the flag and
looks at the readers. Whichever comes second sees the other and backs out, so a writer has the lock
alone. A thread that unlocks takes itself for the writer if it is the owner, which the writer is
from the end of its call until it unlocks.

The number of readers is kept in 32 bits. It is right as long as it does not wrap.

## Main definitions

* `Threads.State.Room` — the readers do not wrap
* `Threads.State.Guarded` — what the words of a lock say

## Main results

* `Threads.guarded_of_run`
-/

namespace StarOS

namespace Threads

variable {Thread : Type} [DecidableEq Thread] {s s' : State Thread} {t u x : Thread} {e : Event}
  {l l' : ℕ} {mem : Memory Thread} {p : Pc} {eff : Effect Thread}

/-! ### What steps do to a lock -/

/-- The places of a reader that has announced itself, and has neither got the lock nor backed out. -/
def Pc.Announced (l : ℕ) : Pc → Bool
  | .readRelook l' _ | .readBack l' _ => l' = l
  | _ => false

/-- How often a thread counts among the readers. -/
def Memory.share (mem : Memory Thread) (l : ℕ) (t : Thread) (p : Pc) : ℕ :=
  mem.reads l t + (p.Announced l).toNat

/-- The places of a writer that has set the flag, and has neither got the lock nor backed out. -/
def Pc.Claims (l : ℕ) : Pc → Bool
  | .writeLook l' _ | .writeOwn l' | .writeBack l' _ => l' = l
  | _ => false

section Memory

theorem Memory.setReads_of_ne (value : ℕ) (hu : u ≠ t) :
    (mem.setReads l' t value).reads l u = mem.reads l u := by
  by_cases hl : l = l'
  · subst hl
    simp [setReads, Function.update_of_ne hu]
  · simp [setReads, Function.update_of_ne hl]

theorem Memory.setWrites_of_ne (value : Bool) (hu : u ≠ t) :
    (mem.setWrites l' t value).writes l u = mem.writes l u := by
  by_cases hl : l = l'
  · subst hl
    simp [setWrites, Function.update_of_ne hu]
  · simp [setWrites, Function.update_of_ne hl]

end Memory

/-- A step is about its own thread. -/
theorem Does.others (h : Does mem t p e eff) (l : ℕ) (hu : u ≠ t) :
    eff.mem.reads l u = mem.reads l u ∧ eff.mem.writes l u = mem.writes l u := by
  cases h
  case lockFails _ how _ | semNone _ how _ | semFails _ _ how _ _ | readTaken _ how _ | readBack _ how
      | writeTaken _ how _ =>
    cases how <;> exact ⟨rfl, rfl⟩
  case readLocked | readerLeave => exact ⟨Memory.setReads_of_ne _ hu, rfl⟩
  case writeLocked | clearWriter => exact ⟨rfl, Memory.setWrites_of_ne _ hu⟩
  all_goals exact ⟨rfl, rfl⟩

/-- Readers come by announcing themselves, and go by backing out or unlocking. -/
theorem Does.readers (h : Does mem t p e eff) (l : ℕ) :
    (eff.mem.readers l = mem.readers l ∧ eff.mem.share l t eff.pc = mem.share l t p) ∨
      (∃ how, p = .readAdd l how ∧ eff.mem.readers l = mem.readers l + 1 ∧
        eff.mem.share l t eff.pc = mem.share l t p + 1) ∨
      ((p = .readerLeave l ∨ ∃ how, p = .readBack l how) ∧
        eff.mem.readers l = mem.readers l - 1 ∧
        eff.mem.share l t eff.pc = mem.share l t p - 1) := by
  cases h
  case retry attempt => cases attempt <;> exact .inl ⟨rfl, rfl⟩
  case lockFails _ how _ | semNone _ how _ | semFails _ _ how _ _ | readTaken _ how _ | writeTaken _ how _ =>
    cases how <;> exact .inl ⟨rfl, rfl⟩
  case readAdd l' how =>
    by_cases hl : l' = l
    · subst hl
      exact .inr (.inl ⟨how, rfl, Function.update_self .., by simp [Memory.share, Pc.Announced, Memory.setReaders]⟩)
    · exact .inl ⟨Function.update_of_ne (Ne.symm hl) .., by
        simp [Memory.share, Pc.Announced, Memory.setReaders, hl]⟩
  case readBack l' how =>
    by_cases hl : l' = l
    · subst hl
      refine .inr (.inr ⟨.inr ⟨how, rfl⟩, ?_, ?_⟩) <;> cases how <;>
        simp [How.fail, Memory.setReaders, Memory.share, Pc.Announced]
    · refine .inl ⟨?_, ?_⟩ <;> cases how <;>
        simp [How.fail, Memory.setReaders, Memory.share, Pc.Announced, hl, Ne.symm hl]
  case readLocked l' how hfree =>
    by_cases hl : l' = l
    · subst hl
      exact .inl ⟨rfl, by simp [Memory.share, Memory.setReads, Pc.Announced]⟩
    · exact .inl ⟨rfl, by simp [Memory.share, Memory.setReads, Pc.Announced, hl, Ne.symm hl]⟩
  case readerLeave l' =>
    by_cases hl : l' = l
    · subst hl
      refine .inr (.inr ⟨.inl rfl, ?_, ?_⟩) <;>
        simp [Memory.setReads, Memory.setReaders, Memory.share, Pc.Announced]
    · refine .inl ⟨?_, ?_⟩ <;>
        simp [Memory.setReads, Memory.setReaders, Memory.share, Pc.Announced, Ne.symm hl]
  all_goals exact .inl ⟨rfl, rfl⟩

/-- A thread has the writer flag: it has claimed it, or holds the lock for writing. -/
def Memory.Flagged (mem : Memory Thread) (l : ℕ) (t : Thread) (p : Pc) : Prop :=
  p.Claims l = true ∨ mem.writes l t = true

/-- The flag is set by a claim, and cleared by backing out and by unlocking. -/
theorem Does.writer (h : Does mem t p e eff) (l : ℕ) :
    (eff.mem.writer l = mem.writer l ∧ (eff.mem.Flagged l t eff.pc ↔ mem.Flagged l t p)) ∨
      (mem.writer l = 0 ∧ eff.mem.writer l = 1 ∧ eff.mem.Flagged l t eff.pc) ∨
      ((p = .clearWriter l ∨ ∃ how, p = .writeBack l how) ∧ eff.mem.writer l = 0 ∧
        eff.queue = some (.take (.rwlock l)) ∧ eff.pc.Claims l = false ∧
        (p = .clearWriter l → eff.mem.writes l t = false) ∧
        ((∃ how, p = .writeBack l how) → eff.mem.writes l t = mem.writes l t)) := by
  cases h
  case retry attempt => cases attempt <;> exact .inl ⟨rfl, .rfl⟩
  case lockFails _ how _ | semNone _ how _ | semFails _ _ how _ _ | readTaken _ how _ | writeTaken _ how _
      | readBack _ how =>
    cases how <;> exact .inl ⟨rfl, .rfl⟩
  case writeClaimed l' how hfree =>
    by_cases hl : l' = l
    · subst hl
      exact .inr (.inl ⟨hfree, Function.update_self .., .inl (by simp [Pc.Claims])⟩)
    · exact .inl ⟨Function.update_of_ne (Ne.symm hl) .., by
        simp [Memory.Flagged, Pc.Claims, Memory.setWriter, hl]⟩
  case writeLocked l' =>
    by_cases hl : l' = l
    · subst hl
      exact .inl ⟨rfl, by simp [Memory.Flagged, Pc.Claims, Memory.setWrites]⟩
    · exact .inl ⟨rfl, by simp [Memory.Flagged, Pc.Claims, Memory.setWrites, Memory.setOwner, hl, Ne.symm hl]⟩
  case writeBack l' | writeGivesUp l' | writeWaits l' =>
    by_cases hl : l' = l
    · subst hl
      exact .inr (.inr ⟨.inr ⟨_, rfl⟩, Function.update_self .., rfl, rfl, fun h => by simp at h, fun _ => rfl⟩)
    · exact .inl ⟨Function.update_of_ne (Ne.symm hl) .., by
        simp [Memory.Flagged, Pc.Claims, Memory.setWriter, hl]⟩
  case clearWriter l' =>
    by_cases hl : l' = l
    · subst hl
      refine .inr (.inr ⟨.inl rfl, Function.update_self .., rfl, rfl, fun _ => ?_, fun ⟨_, h⟩ => by simp at h⟩)
      simp [Memory.setWrites]
    · exact .inl ⟨Function.update_of_ne (Ne.symm hl) .., by
        simp [Memory.Flagged, Pc.Claims, Memory.setWriter, Memory.setWrites, Ne.symm hl]⟩
  all_goals exact .inl ⟨rfl, .rfl⟩

/-- The writer becomes the owner at the end of its call, and is none when it begins to unlock. -/
theorem Does.owner (h : Does mem t p e eff) (l : ℕ) :
    (eff.mem.owner l = mem.owner l ∧ (eff.mem.writes l t = true ∧ eff.pc ≠ .clearWriter l ↔
      mem.writes l t = true ∧ p ≠ .clearWriter l)) ∨
      (p = .writeOwn l ∧ eff.mem.owner l = some t ∧ eff.mem.writes l t = true ∧ eff.pc = .out) ∨
      (p = .clearOwner l ∧ eff.mem.owner l = none ∧ eff.pc = .clearWriter l) := by
  cases h
  case retry attempt => cases attempt <;> exact .inl ⟨rfl, by simp [Attempt.pc]⟩
  case lockFails _ how _ | semNone _ how _ | semFails _ _ how _ _ | readTaken _ how _ | writeTaken _ how _
      | readBack _ how =>
    cases how <;> exact .inl ⟨rfl, by simp [How.fail, Memory.setReaders]⟩
  case writeLocked l' =>
    by_cases hl : l' = l
    · subst hl
      exact .inr (.inl ⟨rfl, Function.update_self .., by simp [Memory.setWrites], rfl⟩)
    · exact .inl ⟨Function.update_of_ne (Ne.symm hl) .., by
        simp [Memory.setWrites, Memory.setOwner, Ne.symm hl]⟩
  case clearOwner l' =>
    by_cases hl : l' = l
    · subst hl
      exact .inr (.inr ⟨rfl, Function.update_self .., rfl⟩)
    · exact .inl ⟨Function.update_of_ne (Ne.symm hl) .., by simp [Memory.setOwner, hl]⟩
  case clearWriter l' =>
    by_cases hl : l' = l
    · subst hl
      exact .inl ⟨rfl, by simp [Memory.setWrites]⟩
    · exact .inl ⟨rfl, by simp [Memory.setWrites, Memory.setWriter, hl, Ne.symm hl]⟩
  all_goals exact .inl ⟨rfl, by
    simp [Memory.setReads, Memory.setReaders, Memory.setWriter, Memory.setState, Memory.setHolds,
      Memory.setCount]⟩

/-- A thread gets the lock for reading while the flag is clear. -/
theorem Does.reads_le (h : Does mem t p e eff) (l : ℕ) : eff.mem.reads l t ≤ mem.reads l t ∨
    mem.writer l = 0 ∧ eff.pc = .out ∧ eff.mem.writes l t = mem.writes l t := by
  cases h
  case lockFails _ how _ | semNone _ how _ | semFails _ _ how _ _ | readTaken _ how _ | writeTaken _ how _
      | readBack _ how =>
    cases how <;> exact .inl (Nat.le_refl _)
  case readLocked l' how hfree =>
    by_cases hl : l' = l
    · subst hl
      exact .inr ⟨hfree, rfl, rfl⟩
    · exact .inl (by simp [Memory.setReads, Ne.symm hl])
  case readerLeave l' =>
    by_cases hl : l' = l
    · subst hl
      exact .inl (by simp [Memory.setReads, Memory.setReaders])
    · exact .inl (by simp [Memory.setReads, Memory.setReaders, Ne.symm hl])
  all_goals exact .inl (Nat.le_refl _)

/-- A thread gets it for writing when it has found no readers. -/
theorem Does.own (h : Does mem t p e eff) (ho : eff.pc = .writeOwn l ∨ eff.mem.writes l t = true) :
    (p = .writeOwn l ∨ mem.writes l t = true) ∨ mem.readers l = 0 := by
  cases h
  case retry attempt =>
    refine .inl (.inr (ho.resolve_left ?_))
    cases attempt <;> simp [Attempt.pc]
  case lockFails _ how _ | semNone _ how _ | semFails _ _ how _ _ | readTaken _ how _ | writeTaken _ how _
      | readBack _ how =>
    refine .inl (.inr ?_)
    cases how <;> exact ho.resolve_left (by simp [How.fail])
  case writeFree l' how hnone =>
    obtain hl | hw := ho
    · obtain rfl := Pc.writeOwn.inj hl
      exact .inr hnone
    · exact .inl (.inr hw)
  case writeLocked l' =>
    by_cases hl : l' = l
    · exact .inl (.inl (by rw [hl]))
    · refine .inl (.inr ?_)
      simpa [Memory.setWrites, Memory.setOwner, Ne.symm hl] using ho
  case clearWriter l' =>
    by_cases hl : l' = l
    · subst hl
      simp [Memory.setWrites] at ho
    · refine .inl (.inr ?_)
      simpa [Memory.setWrites, Memory.setWriter, Ne.symm hl] using ho
  all_goals exact .inl (.inr (ho.resolve_left (by simp)))

/-- What a thread knows about its own hold on a lock. -/
def Pc.Knows (l reads : ℕ) (writes : Bool) : Pc → Prop
  | .writeLook l' _ | .writeOwn l' | .writeBack l' _ => l' = l → writes = false
  | .unlockOwner l' => l' = l → reads ≠ 0 ∨ writes = true
  | .unlockWriter l' | .clearOwner l' | .clearWriter l' => l' = l → writes = true
  | .readerLeave l' => l' = l → reads ≠ 0
  | _ => True

theorem Does.knows (h : Does mem t p e eff) (hp : p.Knows l (mem.reads l t) (mem.writes l t))
    (hfree : mem.writer l = 0 → mem.writes l t = false)
    (howns : mem.owner l = some t → mem.writes l t = true)
    (hother : mem.writes l t = true → p = .unlockOwner l → mem.owner l = some t)
    (hflag : mem.writes l t = true → mem.writer l = 1) :
    eff.pc.Knows l (eff.mem.reads l t) (eff.mem.writes l t) := by
  cases h
  case retry attempt => cases attempt <;> trivial
  case lockFails _ how _ | semNone _ how _ | semFails _ _ how _ _ | readTaken _ how _ | writeTaken _ how _
      | readBack _ how =>
    cases how <;> trivial
  case writeClaimed l' how hnone =>
    rintro rfl
    exact hfree hnone
  case rwUnlock l' hheld =>
    rintro rfl
    exact hheld
  case owns l' howner =>
    rintro rfl
    exact howns howner
  case reads l' hno =>
    rintro rfl
    exact (hp rfl).resolve_right fun hw => hno (hother hw rfl)
  case noWriter l' hno =>
    rintro rfl
    exact absurd (hflag (hp rfl)) hno
  all_goals trivial

/-! ### What the words of a lock say -/

/-- The readers do not wrap when one more announces itself. -/
def State.Room (s : State Thread) (l : ℕ) : Thread × Event → Prop
  | (t, _) => ∀ how, s.pc t = .readAdd l how → (s.mem.readers l).toNat + 1 < 2 ^ 32

/-- **What the words of a lock say**: who has the flag, who is counted, and that the writer has it
alone. -/
structure State.Guarded (s : State Thread) (l : ℕ) : Prop where
  flag : Excludes (s.mem.writer l ≠ 0) id fun t => s.mem.Flagged l t (s.pc t)
  one : s.mem.writer l = 0 ∨ s.mem.writer l = 1
  owner : ∀ t, s.mem.owner l = some t ↔ s.mem.writes l t = true ∧ s.pc t ≠ .clearWriter l
  counted : ∃ m : Multiset Thread, m.card = (s.mem.readers l).toNat ∧
    ∀ t, m.count t = s.mem.share l t (s.pc t)
  alone : ∀ t, s.pc t = .writeOwn l ∨ s.mem.writes l t = true → ∀ u, s.mem.reads l u = 0
  knows : ∀ t, (s.pc t).Knows l (s.mem.reads l t) (s.mem.writes l t)

omit [DecidableEq Thread] in
theorem State.flagged_of_alone (ht : s.pc t = .writeOwn l ∨ s.mem.writes l t = true) :
    s.mem.Flagged l t (s.pc t) := by
  obtain hpc | hw := ht
  · exact .inl (by simp [hpc, Pc.Claims])
  · exact .inr hw

namespace State.Guarded

variable (h : s.Guarded l)
include h

theorem writer_of_flagged (ht : s.mem.Flagged l t (s.pc t)) : s.mem.writer l = 1 :=
  h.one.resolve_left (h.flag.taken_of_mem ht)

theorem not_flagged (hfree : s.mem.writer l = 0) (t : Thread) : ¬ s.mem.Flagged l t (s.pc t) :=
  h.flag.not_mem_of_free (not_not.mpr hfree) t

/-- Nobody is counted where there are no readers. -/
theorem share_of_none (hnone : s.mem.readers l = 0) (t : Thread) : s.mem.share l t (s.pc t) = 0 := by
  obtain ⟨m, hcard, hcount⟩ := h.counted
  obtain rfl : m = 0 := Multiset.card_eq_zero.mp (by rw [hcard, hnone]; rfl)
  rw [← hcount, Multiset.count_zero]

/-- Who is counted is not counted off below zero. -/
theorem readers_pos (ht : s.mem.share l t (s.pc t) ≠ 0) : 1 ≤ (s.mem.readers l).toNat := by
  obtain ⟨m, hcard, hcount⟩ := h.counted
  rw [← hcard]
  refine Multiset.card_pos_iff_exists_mem.mpr ⟨t, Multiset.count_pos.mp ?_⟩
  rw [hcount]
  exact Nat.pos_of_ne_zero ht

/-- Somebody is counted where there are readers. -/
theorem exists_share (hsome : s.mem.readers l ≠ 0) : ∃ t, s.mem.share l t (s.pc t) ≠ 0 := by
  obtain ⟨m, hcard, hcount⟩ := h.counted
  have hpos : 0 < m.card := by
    rw [hcard]
    exact Nat.pos_of_ne_zero fun hzero => hsome (BitVec.eq_of_toNat_eq hzero)
  obtain ⟨t, ht⟩ := Multiset.card_pos_iff_exists_mem.mp hpos
  refine ⟨t, ?_⟩
  rw [← hcount]
  exact (Multiset.count_pos.mpr ht).ne'

end State.Guarded

section Next

variable (h : s.Guarded l) (hdoes : Does s.mem t (s.pc t) e eff) (hmem : s'.mem = eff.mem)
  (hpc : s'.pc = Function.update s.pc t eff.pc)
include h hdoes hmem hpc

theorem State.Guarded.flag_next :
    Excludes (s'.mem.writer l ≠ 0) id fun u => s'.mem.Flagged l u (s'.pc u) := by
  have hflags : (fun u => s'.mem.Flagged l u (s'.pc u)) =
      Function.update (fun u => s.mem.Flagged l u (s.pc u)) t (eff.mem.Flagged l t eff.pc) := by
    funext u
    rw [hmem, hpc]
    by_cases hu : u = t
    · subst hu
      rw [Function.update_self, Function.update_self]
    · rw [Function.update_of_ne hu, Function.update_of_ne hu, Memory.Flagged, Memory.Flagged,
        (hdoes.others l hu).2]
  rw [hflags, hmem]
  obtain ⟨heq, hside⟩ | ⟨hfree, hset, hin⟩ | ⟨hp, hclear, -, hclaims, hw, hw'⟩ := hdoes.writer l
  · exact h.flag.stay hside (by rw [heq])
  · exact h.flag.enter (not_not.mpr hfree) hin (by rw [hset]; decide)
  · have hknows := h.knows t
    obtain hp | ⟨how, hp⟩ := hp
    · rw [hp] at hknows
      refine h.flag.leave (.inr (hknows rfl)) ?_ (not_not.mpr hclear)
      rintro (hc | hc)
      · simp [hclaims] at hc
      · simp [hw hp] at hc
    · rw [hp] at hknows
      refine h.flag.leave (.inl ?_) ?_ (not_not.mpr hclear)
      · simp [hp, Pc.Claims]
      · rintro (hc | hc)
        · simp [hclaims] at hc
        · rw [hw' ⟨how, hp⟩, hknows rfl] at hc
          simp at hc

omit hpc in
theorem State.Guarded.one_next : s'.mem.writer l = 0 ∨ s'.mem.writer l = 1 := by
  rw [hmem]
  obtain ⟨heq, -⟩ | ⟨-, hset, -⟩ | ⟨-, hclear, -⟩ := hdoes.writer l
  · rw [heq]
    exact h.one
  · exact .inr hset
  · exact .inl hclear

theorem State.Guarded.owner_next (u : Thread) :
    s'.mem.owner l = some u ↔ s'.mem.writes l u = true ∧ s'.pc u ≠ .clearWriter l := by
  rw [hmem, hpc]
  have hother : u ≠ t → (eff.mem.writes l u = true ∧ Function.update s.pc t eff.pc u ≠ .clearWriter l ↔
      s.mem.owner l = some u) := fun hu => by
    rw [(hdoes.others l hu).2, Function.update_of_ne hu, h.owner u]
  obtain ⟨heq, hiff⟩ | ⟨hp, heq, hw, hout⟩ | ⟨hp, heq, hclear⟩ := hdoes.owner l
  · rw [heq]
    by_cases hu : u = t
    · subst hu
      rw [Function.update_self, hiff, h.owner]
    · rw [hother hu]
  · rw [heq]
    by_cases hu : u = t
    · subst hu
      rw [Function.update_self, hout]
      exact iff_of_true rfl ⟨hw, by simp⟩
    · rw [hother hu, h.owner]
      refine iff_of_false (fun heq => hu (Option.some.inj heq).symm) fun ⟨hw', _⟩ => hu ?_
      exact h.flag.unique (.inr hw') (.inl (by simp [hp, Pc.Claims]))
  · rw [heq]
    refine iff_of_false (by simp) fun hw' => ?_
    by_cases hu : u = t
    · subst hu
      rw [Function.update_self] at hw'
      exact hw'.2 hclear
    · have hknows := h.knows t
      rw [hp] at hknows
      exact hu (h.flag.unique (.inr ((h.owner u).mp ((hother hu).mp hw')).1) (.inr (hknows rfl)))

theorem State.Guarded.counted_next (hroom : s.Room l (t, e)) :
    ∃ m : Multiset Thread, m.card = (s'.mem.readers l).toNat ∧
      ∀ u, m.count u = s'.mem.share l u (s'.pc u) := by
  rw [hmem, hpc]
  obtain ⟨m, hcard, hcount⟩ := h.counted
  have hother : ∀ u, u ≠ t → m.count u = eff.mem.share l u (Function.update s.pc t eff.pc u) :=
    fun u hu => by
      rw [Function.update_of_ne hu, hcount, Memory.share, Memory.share, (hdoes.others l hu).1]
  obtain ⟨heq, hshare⟩ | ⟨how, hp, heq, hshare⟩ | ⟨hp, heq, hshare⟩ := hdoes.readers l
  · refine ⟨m, by rw [heq, hcard], fun u => ?_⟩
    by_cases hu : u = t
    · subst hu
      rw [Function.update_self, hshare, hcount]
    · exact hother u hu
  · refine ⟨t ::ₘ m, ?_, fun u => ?_⟩
    · rw [Multiset.card_cons, heq, BitVec.toNat_add_of_lt (hroom how hp), hcard]
      rfl
    · by_cases hu : u = t
      · subst hu
        rw [Multiset.count_cons_self, Function.update_self, hshare, hcount]
      · rw [Multiset.count_cons_of_ne hu]
        exact hother u hu
  · have hpos : s.mem.share l t (s.pc t) ≠ 0 := by
      have hknows := h.knows t
      obtain hp | ⟨how, hp⟩ := hp <;> rw [hp] at hknows ⊢
      · have := hknows rfl
        rw [Memory.share]
        omega
      · simp [Memory.share, Pc.Announced]
    have hone := h.readers_pos hpos
    have ht : t ∈ m := Multiset.count_pos.mp (by rw [hcount]; exact Nat.pos_of_ne_zero hpos)
    refine ⟨m.erase t, ?_, fun u => ?_⟩
    · rw [Multiset.card_erase_of_mem ht, hcard, heq, BitVec.toNat_sub_of_le hone]
      rfl
    · by_cases hu : u = t
      · subst hu
        rw [Multiset.count_erase_self, Function.update_self, hshare, hcount]
      · rw [Multiset.count_erase_of_ne hu]
        exact hother u hu

theorem State.Guarded.alone_next (u : Thread)
    (hu : s'.pc u = .writeOwn l ∨ s'.mem.writes l u = true) (x : Thread) : s'.mem.reads l x = 0 := by
  rw [hmem, hpc] at hu
  rw [hmem]
  have hother : u ≠ t → s.pc u = .writeOwn l ∨ s.mem.writes l u = true := fun hut => by
    rwa [Function.update_of_ne hut, (hdoes.others l hut).2] at hu
  obtain hle | ⟨hfree, hout, hw⟩ := hdoes.reads_le l
  · have hzero : s.mem.reads l x = 0 := by
      by_cases hut : u = t
      · subst hut
        rw [Function.update_self] at hu
        obtain hbefore | hnone := hdoes.own hu
        · exact h.alone u hbefore x
        · have := h.share_of_none hnone x
          rw [Memory.share] at this
          omega
      · exact h.alone u (hother hut) x
    by_cases hx : x = t
    · subst hx
      omega
    · rw [(hdoes.others l hx).1, hzero]
  · -- a thread that gets it for reading has found nobody with the flag
    refine absurd ?_ (h.not_flagged hfree u)
    by_cases hut : u = t
    · subst hut
      rw [Function.update_self, hout, hw] at hu
      exact .inr (hu.resolve_left (by simp))
    · exact State.flagged_of_alone (hother hut)

theorem State.Guarded.knows_next (u : Thread) :
    (s'.pc u).Knows l (s'.mem.reads l u) (s'.mem.writes l u) := by
  rw [hmem, hpc]
  by_cases hu : u = t
  · subst hu
    rw [Function.update_self]
    refine hdoes.knows (h.knows u) (fun hfree => ?_) (fun ho => ((h.owner u).mp ho).1)
      (fun hw hp => (h.owner u).mpr ⟨hw, by simp [hp]⟩) fun hw => h.writer_of_flagged (.inr hw)
    exact Bool.eq_false_iff.mpr fun hw => h.not_flagged hfree u (.inr hw)
  · rw [Function.update_of_ne hu, (hdoes.others l hu).1, (hdoes.others l hu).2]
    exact h.knows u

end Next

theorem State.Guarded.next (h : s.Guarded l) (hroom : s.Room l (t, e))
    (hn : s.next (t, e) = some s') : s'.Guarded l := by
  obtain ⟨hmem, hpc⟩ | ⟨eff, hdoes, hmem, hpc⟩ := mem_next hn
  · obtain ⟨hflag, hone, howner, hcounted, halone, hknows⟩ := h
    rw [← hmem, ← hpc] at hflag howner hcounted halone hknows
    exact ⟨hflag, hmem ▸ hone, howner, hcounted, halone, hknows⟩
  · exact ⟨h.flag_next hdoes hmem hpc, h.one_next hdoes hmem, h.owner_next hdoes hmem hpc,
      h.counted_next hdoes hmem hpc hroom, h.alone_next hdoes hmem hpc, h.knows_next hdoes hmem hpc⟩

theorem guarded_of_run {ok : State Thread → Thread × Event → Prop}
    (hok : ∀ s e, ok s e → s.Room l e) (h : (threadSystem Thread).Reach ok s) : s.Guarded l := by
  refine EventSystem.Reach.invariant (I := fun s => s.Guarded l) ?_
    (fun _ ⟨_, _⟩ _ hI hs hn => State.Guarded.next hI (hok _ _ hs) hn) h
  rintro _ ⟨count, rfl⟩
  refine ⟨.empty (fun h => h rfl) fun t ht => ?_, .inl rfl, fun t => ?_, ⟨0, rfl, fun t => ?_⟩,
    fun t ht => ?_, fun t => trivial⟩
  · simp [Memory.Flagged, Pc.Claims, Memory.new] at ht
  · simp [Memory.new]
  · simp [Memory.share, Memory.new, Pc.Announced]
  · simp [Memory.new] at ht

end Threads

end StarOS
