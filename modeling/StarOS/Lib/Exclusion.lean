import Mathlib.Logic.Function.Basic
import Mathlib.Data.Set.Basic
import Mathlib.Tactic.Common

/-!
# Locks and who is inside

Threads take turns, each at a place of its own program. Some of the places are inside a lock. The
lock excludes if nobody is inside while it is free and one thread is while it is taken. What a
program has to show for that is one fact for each of its steps: a step inside leads from a free lock
to a taken one, a step outside from a taken one to a free one, and every other step leaves the lock
and the side of it alone.

## Main definitions

* `Excludes`
* `Owned` — many locks, each of which excludes

## Main results

* `Excludes.unique` — two threads inside are one
* `Excludes.enter`, `Excludes.leave`, `Excludes.stay` — the three kinds of steps
* `Owned.take`, `Owned.give`, `Owned.pass`
-/

variable {ι κ : Type*} {taken taken' : Prop} {P : κ → Prop} {pc : ι → κ} {t u : ι} {p : κ}

/-- Nobody is at a place of `P` while the lock is free, and one thread is while it is taken. -/
def Excludes (taken : Prop) (P : κ → Prop) (pc : ι → κ) : Prop :=
  ∃ holder : Option ι, (taken ↔ holder.isSome) ∧ ∀ t, P (pc t) ↔ holder = some t

namespace Excludes

theorem empty (hfree : ¬ taken) (hno : ∀ t, ¬ P (pc t)) : Excludes taken P pc :=
  ⟨none, iff_of_false hfree (by simp), fun t => iff_of_false (hno t) (by simp)⟩

variable (h : Excludes taken P pc)
include h

theorem unique (ht : P (pc t)) (hu : P (pc u)) : t = u := by
  obtain ⟨holder, -, hin⟩ := h
  exact Option.some.inj (((hin t).mp ht).symm.trans ((hin u).mp hu))

theorem taken_of_mem (ht : P (pc t)) : taken := by
  obtain ⟨holder, htaken, hin⟩ := h
  exact htaken.mpr (by rw [(hin t).mp ht]; rfl)

theorem not_mem_of_free (hfree : ¬ taken) (t : ι) :
    ¬ P (pc t) := fun ht => hfree (h.taken_of_mem ht)

theorem exists_mem (htaken : taken) : ∃ t, P (pc t) := by
  obtain ⟨holder, hiff, hin⟩ := h
  obtain ⟨t, ht⟩ := Option.isSome_iff_exists.mp (hiff.mp htaken)
  exact ⟨t, (hin t).mpr ht⟩

variable [DecidableEq ι]

/-- A thread that stays on its side. -/
theorem stay (hside : P p ↔ P (pc t)) (htaken : taken' ↔ taken) :
    Excludes taken' P (Function.update pc t p) := by
  obtain ⟨holder, hiff, hin⟩ := h
  refine ⟨holder, htaken.trans hiff, fun u => ?_⟩
  by_cases hu : u = t
  · subst hu
    rw [Function.update_self, hside]
    exact hin u
  · rw [Function.update_of_ne hu]
    exact hin u

/-- A thread that takes the lock. -/
theorem enter (hfree : ¬ taken) (hp : P p) (htaken : taken') :
    Excludes taken' P (Function.update pc t p) := by
  refine ⟨some t, iff_of_true htaken rfl, fun u => ?_⟩
  by_cases hu : u = t
  · subst hu
    rw [Function.update_self]
    exact iff_of_true hp rfl
  · rw [Function.update_of_ne hu]
    exact iff_of_false (h.not_mem_of_free hfree u) fun heq => hu (Option.some.inj heq).symm

/-- A thread that gives it back. -/
theorem leave (ht : P (pc t)) (hp : ¬ P p) (hfree : ¬ taken') :
    Excludes taken' P (Function.update pc t p) := by
  refine empty hfree fun u hu => ?_
  by_cases hut : u = t
  · subst hut
    rw [Function.update_self] at hu
    exact hp hu
  · rw [Function.update_of_ne hut] at hu
    exact hut (h.unique hu ht)

end Excludes

/-! ### Many locks -/

section Owned

variable {ι κ : Type*} {taken : κ → Bool} {held : ι → Option κ} {t u : ι} {k : κ}

/-- Each of many locks is held by one thread while it is taken, and by none while it is free. A
thread holds one at most. -/
def Owned (taken : κ → Bool) (held : ι → Option κ) : Prop :=
  ∀ k, Excludes (taken k = true) (· = some k) held

namespace Owned

theorem unique (h : Owned taken held) (ht : held t = some k) (hu : held u = some k) : t = u :=
  (h k).unique ht hu

theorem exists_held (h : Owned taken held) (hk : taken k = true) : ∃ t, held t = some k :=
  (h k).exists_mem hk

variable [DecidableEq ι]

/-- A thread that holds what it held. -/
theorem stay (h : Owned taken held) {o : Option κ} (ho : o = held t) :
    Owned taken (Function.update held t o) := by
  rw [ho, Function.update_eq_self]
  exact h

/-- A lock passes from one thread to another. -/
theorem pass (h : Owned taken held) (ht : held t = some k) (hu : held u = none) :
    Owned taken (Function.update (Function.update held t none) u (some k)) := by
  have htu : u ≠ t := fun heq => by
    rw [heq, ht] at hu
    cases hu
  intro j
  by_cases hj : k = j
  · subst hj
    have hout : Excludes False (· = some k) (Function.update held t none) :=
      (h k).leave ht (Option.some_ne_none k).symm id
    exact hout.enter id rfl ((h k).taken_of_mem ht)
  · have hne : ¬some k = some j := fun heq => hj (Option.some.inj heq)
    refine ((h j).stay ?_ Iff.rfl).stay ?_ Iff.rfl
    · rw [ht]
      exact iff_of_false (Option.some_ne_none j).symm hne
    · rw [Function.update_of_ne htu, hu]
      exact iff_of_false hne (Option.some_ne_none j).symm

variable [DecidableEq κ]

/-- A free lock is taken. -/
theorem take (h : Owned taken held) (hk : taken k = false) (ht : held t = none) :
    Owned (Function.update taken k true) (Function.update held t (some k)) := by
  intro j
  by_cases hj : k = j
  · subst hj
    refine (h k).enter ?_ rfl (Function.update_self _ _ _)
    rw [hk]
    exact Bool.false_ne_true
  · have hne : ¬some k = some j := fun heq => hj (Option.some.inj heq)
    refine (h j).stay ?_ (by rw [Function.update_of_ne (Ne.symm hj)])
    rw [ht]
    exact iff_of_false hne (Option.some_ne_none j).symm

/-- A lock is given back. -/
theorem give (h : Owned taken held) (ht : held t = some k) :
    Owned (Function.update taken k false) (Function.update held t none) := by
  intro j
  by_cases hj : k = j
  · subst hj
    refine (h k).leave ht (Option.some_ne_none k).symm ?_
    rw [Function.update_self]
    exact Bool.false_ne_true
  · have hne : ¬some k = some j := fun heq => hj (Option.some.inj heq)
    refine (h j).stay ?_ (by rw [Function.update_of_ne (Ne.symm hj)])
    rw [ht]
    exact iff_of_false (Option.some_ne_none j).symm hne

end Owned

end Owned
