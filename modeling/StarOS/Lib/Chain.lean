import Mathlib.Data.List.Nodup
import Mathlib.Tactic.Common

/-!
# Linked lists through a table of links

A cell has one link, which names the cell behind it, if there is one. A list is known by its first
cell. It is a chain if following the links comes to an end, and then no cell is on it twice.
Since the links are a table, to write one is to update the table, and that leaves a chain alone
unless the cell is on it.

## Main definitions

* `Chain` — the cells from a first one on
* `Links.From` — a cell is reached from a first one, whether or not the links come to an end

## Main results

* `Chain.unique`, `Chain.nodup`
* `Chain.from_iff` — the cells reached are those of the chain
* `Chain.congr`
-/

variable {α : Type*} {next next' : α → Option α} {start : Option α} {a b : α} {l l' : List α}

/-- The cells of `l` are linked in this order, the first is `start`, and the last has no link. -/
def Chain (next : α → Option α) : Option α → List α → Prop
  | start, [] => start = none
  | start, a :: l => start = some a ∧ Chain next (next a) l

/-- A cell is reached from `start`. -/
inductive Links.From (next : α → Option α) : Option α → α → Prop
  | here {a : α} : From next (some a) a
  | there {a b : α} : From next (next a) b → From next (some a) b

open Links

theorem Links.from_some : From next (some a) b ↔ a = b ∨ From next (next a) b := by
  constructor
  · intro h
    cases h with
    | here => exact .inl rfl
    | there h => exact .inr h
  · rintro (rfl | h)
    · exact .here
    · exact .there h

theorem Links.not_from_none : ¬ From next none b := fun h => by cases h

theorem Chain.eq_nil (h : Chain next none l) : l = [] := by
  cases l with
  | nil => rfl
  | cons a l => exact absurd h.1 (by simp)

theorem Chain.eq_cons (h : Chain next (some a) l) : ∃ l', l = a :: l' ∧ Chain next (next a) l' := by
  cases l with
  | nil => exact absurd h (by simp [Chain])
  | cons b l =>
    obtain rfl := Option.some.inj h.1
    exact ⟨l, rfl, h.2⟩

/-- There is one chain from a cell at most. -/
theorem Chain.unique (h : Chain next start l) (h' : Chain next start l') : l = l' := by
  induction l generalizing start l' with
  | nil => rw [Chain] at h; exact (h ▸ h').eq_nil.symm
  | cons a l ih =>
    obtain ⟨rfl, h⟩ := h
    obtain ⟨l₂, rfl, h₂⟩ := h'.eq_cons
    rw [ih h h₂]

/-- What is reached is what is on the chain. -/
theorem Chain.from_iff (h : Chain next start l) : From next start b ↔ b ∈ l := by
  induction l generalizing start with
  | nil =>
    rw [Chain] at h
    subst h
    exact iff_of_false not_from_none List.not_mem_nil
  | cons a l ih =>
    obtain ⟨rfl, h⟩ := h
    rw [from_some, ih h, List.mem_cons, eq_comm]

/-- The chain goes on from each of its cells. -/
theorem Chain.of_mem (h : Chain next start l) (ha : a ∈ l) :
    ∃ l₁ l₂, l = l₁ ++ a :: l₂ ∧ Chain next (next a) l₂ := by
  induction l generalizing start with
  | nil => exact absurd ha List.not_mem_nil
  | cons b l ih =>
    obtain ⟨rfl, h⟩ := h
    obtain rfl | ha := List.mem_cons.mp ha
    · exact ⟨[], l, rfl, h⟩
    · obtain ⟨l₁, l₂, rfl, h₂⟩ := ih h ha
      exact ⟨b :: l₁, l₂, rfl, h₂⟩

/-- **No cell is on a chain twice**, since what follows it is the same each time. -/
theorem Chain.nodup (h : Chain next start l) : l.Nodup := by
  induction l generalizing start with
  | nil => exact List.nodup_nil
  | cons a l ih =>
    refine List.nodup_cons.mpr ⟨fun ha => ?_, ih h.2⟩
    obtain ⟨l₁, l₂, rfl, h₂⟩ := h.2.of_mem ha
    have hlen := congrArg List.length (h.2.unique h₂)
    rw [List.length_append, List.length_cons] at hlen
    omega

/-- A chain depends on the links of its own cells only. -/
theorem Chain.congr (h : Chain next start l) (heq : ∀ a ∈ l, next' a = next a) :
    Chain next' start l := by
  induction l generalizing start with
  | nil => exact h
  | cons a l ih =>
    refine ⟨h.1, ?_⟩
    rw [heq a List.mem_cons_self]
    exact ih h.2 fun b hb => heq b (List.mem_cons_of_mem _ hb)

theorem Chain.not_mem_tail (h : Chain next (some a) (a :: l)) : a ∉ l :=
  (List.nodup_cons.mp h.nodup).1
