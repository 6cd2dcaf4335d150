import Mathlib.Data.List.Induction
import Mathlib.Data.List.Nodup
import Mathlib.Data.Set.Basic
import Mathlib.Tactic.Common

/-!
# Radix trees of tables

Tables of entries, some of which lead to further tables, are a tree as soon as no table is led to
twice. What an entry of a table leads to may depend on how deep the table is, and is all these
lemmas know of it: `child k t i` is where entry `i` of table `t`, at level `k`, leads to.

## Main definitions

* `Radix.walk` — where a path of indices leads
* `Radix.Tree` — no two paths lead to one place
* `Radix.collect` — everything below a table, each table after what is below it

## Main results

* `Radix.written_entry` — where paths lead once one entry has been written
* `Radix.mem_collect`, `Radix.nodup_collect` — of a tree, `collect` has everything, once
-/

namespace Radix

variable {α ι : Type*} {child child' : ℕ → α → ι → Option α} {k n : ℕ} {r t c x : α} {i j : ι}
  {p q p₀ : List ι} {v : Option α}

/-- Where a path leads from a table at level `k`. -/
def walk (child : ℕ → α → ι → Option α) : ℕ → α → List ι → Option α
  | _, t, [] => some t
  | k, t, i :: p => (child k t i).bind fun c => walk child (k + 1) c p

/-- What some path of at most `n` indices leads to. -/
def Reached (child : ℕ → α → ι → Option α) (r : α) (n : ℕ) (c : α) : Prop :=
  ∃ p, p.length ≤ n ∧ walk child 0 r p = some c

/-- No two paths of at most `n` indices lead to the same place. -/
def Tree (child : ℕ → α → ι → Option α) (r : α) (n : ℕ) : Prop :=
  ∀ p q c, p.length ≤ n → q.length ≤ n → walk child 0 r p = some c → walk child 0 r q = some c →
    p = q

theorem walk_cons (child : ℕ → α → ι → Option α) (k : ℕ) (t : α) (i : ι) (p : List ι) :
    walk child k t (i :: p) = (child k t i).bind fun c => walk child (k + 1) c p := rfl

/-- The last index of a path is looked up in the table the others lead to. -/
theorem walk_concat (child : ℕ → α → ι → Option α) (k : ℕ) (t : α) (p : List ι) (i : ι) :
    walk child k t (p ++ [i]) = (walk child k t p).bind fun c => child (k + p.length) c i := by
  induction p generalizing k t with
  | nil =>
    show (child k t i).bind some = child k t i
    cases child k t i <;> rfl
  | cons j p ih =>
    rw [List.cons_append, walk_cons, walk_cons]
    cases child k t j with
    | none => rfl
    | some c =>
      show walk child (k + 1) c (p ++ [i]) = _
      rw [ih, List.length_cons, Nat.add_right_comm, Nat.add_assoc]
      rfl

theorem walk_concat_root (child : ℕ → α → ι → Option α) (r : α) (p : List ι) (i : ι) :
    walk child 0 r (p ++ [i]) = (walk child 0 r p).bind fun c => child p.length c i := by
  rw [walk_concat, Nat.zero_add]

theorem reached_root (child : ℕ → α → ι → Option α) (r : α) (n : ℕ) : Reached child r n r :=
  ⟨[], Nat.zero_le n, rfl⟩

theorem Reached.mono {m : ℕ} (h : Reached child r m c) (hmn : m ≤ n) : Reached child r n c := by
  obtain ⟨p, hp, hw⟩ := h
  exact ⟨p, hp.trans hmn, hw⟩

/-- Paths lead where they did if the entries they go through do. -/
theorem walk_congr (h : ∀ q c j, q.length < n → walk child 0 r q = some c →
    child' q.length c j = child q.length c j) (hp : p.length ≤ n) :
    walk child' 0 r p = walk child 0 r p := by
  induction p using List.reverseRecOn with
  | nil => rfl
  | append_singleton p j ih =>
    rw [List.length_append, List.length_singleton] at hp
    rw [walk_concat_root, walk_concat_root child, ih (by omega)]
    cases hw : walk child 0 r p with
    | none => rfl
    | some c => exact h p c j hp hw

/-! ### Writing an entry -/

/-- Where paths lead once an entry has been written, `p₀` being the path to what it leads to. -/
def Written (child child' : ℕ → α → ι → Option α) (r : α) (n : ℕ) (p₀ : List ι) (v : Option α) :
    Prop :=
  ∀ p, p.length ≤ n → (p = p₀ → walk child' 0 r p = v) ∧
    (p ≠ p₀ → walk child' 0 r p = walk child 0 r p)

/-- **One entry is written**: entry `i` of the table at `p₀` now leads to `v`. Paths through it lead
nowhere further, as it is at the last level, or leads to a table that has no entries. -/
theorem written_entry (hp₀ : walk child 0 r p₀ = some t)
    (hset : child' p₀.length t i = v)
    (hkeep : ∀ q c j, q.length < n → walk child 0 r q = some c → (q, j) ≠ (p₀, i) →
      child' q.length c j = child q.length c j)
    (hlast : p₀.length + 1 = n ∨ child p₀.length t i = none ∧
      ∀ c, v = some c → ∀ k j, p₀.length < k → child' k c j = none) :
    Written child child' r n (p₀ ++ [i]) v := by
  intro p
  induction p using List.reverseRecOn with
  | nil => exact fun _ => ⟨fun h => by simp at h, fun _ => rfl⟩
  | append_singleton p j ih =>
    intro hp
    have hlt : p.length < n := by
      rw [List.length_append, List.length_singleton] at hp
      omega
    obtain ⟨ihpos, ihneg⟩ := ih hlt.le
    constructor
    · intro heq
      obtain rfl : p = p₀ := List.append_inj_left' heq rfl
      obtain rfl : j = i := List.singleton_inj.mp (List.append_inj_right' heq rfl)
      rw [walk_concat_root, ihneg (by simp), hp₀]
      exact hset
    · intro hne
      rw [walk_concat_root, walk_concat_root child]
      by_cases hpi : p = p₀ ++ [i]
      · -- below the entry
        rw [ihpos hpi]
        subst hpi
        rw [List.length_append, List.length_singleton] at hlt
        obtain hlast | ⟨hnone, hempty⟩ := hlast
        · omega
        · rw [walk_concat_root child, hp₀, Option.bind_some, hnone, Option.bind_none]
          refine Option.bind_eq_none_iff.mpr fun c hc => hempty c hc _ j ?_
          rw [List.length_append, List.length_singleton]
          exact Nat.lt_succ_self _
      · rw [ihneg hpi]
        cases hw : walk child 0 r p with
        | none => rfl
        | some c =>
          refine hkeep p c j hlt hw fun heq => hne ?_
          obtain ⟨rfl, rfl⟩ := Prod.ext_iff.mp heq
          rfl

namespace Written

theorem mono {m : ℕ} (h : Written child child' r n p₀ v) (hmn : m ≤ n) :
    Written child child' r m p₀ v := fun p hp => h p (hp.trans hmn)

/-- A path that leads somewhere else afterwards is the one to the entry. -/
theorem walk_eq (h : Written child child' r n p₀ v) (hp : p.length ≤ n)
    (hw : walk child' 0 r p = some c) :
    p = p₀ ∧ v = some c ∨ p ≠ p₀ ∧ walk child 0 r p = some c := by
  by_cases heq : p = p₀
  · exact .inl ⟨heq, ((h p hp).1 heq).symm.trans hw⟩
  · exact .inr ⟨heq, ((h p hp).2 heq).symm.trans hw⟩

/-- It is still a tree, unless the entry leads to what was in it. -/
theorem tree (h : Written child child' r n p₀ v) (ht : Tree child r n)
    (hv : ∀ c, v = some c → ¬ Reached child r n c) : Tree child' r n := by
  intro p q c hp hq hwp hwq
  rcases h.walk_eq hp hwp with ⟨rfl, hc⟩ | ⟨-, hwp⟩ <;> rcases h.walk_eq hq hwq with ⟨rfl, hc'⟩ | ⟨-, hwq⟩
  · rfl
  · exact absurd ⟨q, hq, hwq⟩ (hv c hc)
  · exact absurd ⟨p, hp, hwp⟩ (hv c hc')
  · exact ht p q c hp hq hwp hwq

/-- Something is added where nothing was. -/
theorem reached_add (h : Written child child' r n p₀ (some x)) (hp₀ : p₀.length ≤ n)
    (hnone : walk child 0 r p₀ = none) : Reached child' r n c ↔ c = x ∨ Reached child r n c := by
  constructor
  · rintro ⟨p, hp, hw⟩
    rcases h.walk_eq hp hw with ⟨-, hc⟩ | ⟨-, hw⟩
    · exact .inl (Option.some.inj hc).symm
    · exact .inr ⟨p, hp, hw⟩
  · rintro (rfl | ⟨p, hp, hw⟩)
    · exact ⟨p₀, hp₀, (h p₀ hp₀).1 rfl⟩
    · refine ⟨p, hp, ((h p hp).2 ?_).trans hw⟩
      rintro rfl
      rw [hnone] at hw
      cases hw

/-- Something is taken out. -/
theorem reached_remove (h : Written child child' r n p₀ none) (ht : Tree child r n)
    (hp₀ : p₀.length ≤ n) (hx : walk child 0 r p₀ = some x) :
    Reached child' r n c ↔ c ≠ x ∧ Reached child r n c := by
  constructor
  · rintro ⟨p, hp, hw⟩
    rcases h.walk_eq hp hw with ⟨-, hc⟩ | ⟨hne, hw⟩
    · cases hc
    · refine ⟨?_, p, hp, hw⟩
      rintro rfl
      exact hne (ht p p₀ c hp hp₀ hw hx)
  · rintro ⟨hne, p, hp, hw⟩
    refine ⟨p, hp, ((h p hp).2 ?_).trans hw⟩
    rintro rfl
    exact hne (Option.some.inj (hw.symm.trans hx))

/-- Nothing changes where nothing was and nothing is. -/
theorem reached_same (h : Written child child' r n p₀ none) (hnone : walk child 0 r p₀ = none) :
    Reached child' r n c ↔ Reached child r n c := by
  refine exists_congr fun p => and_congr_right fun hp => ?_
  by_cases heq : p = p₀
  · rw [(h p hp).1 heq, heq, hnone]
  · rw [(h p hp).2 heq]

end Written

/-! ### Everything below a table -/

/-- What is below a table at level `k`, to a depth of `d`, in the order of the indices and each table
after what is below it. -/
def collect (child : ℕ → α → ι → Option α) (is : List ι) : ℕ → ℕ → α → List α
  | 0, _, t => [t]
  | d + 1, k, t =>
    (is.flatMap fun i => (child k t i).elim [] fun c => collect child is d (k + 1) c) ++ [t]

theorem mem_collect {is : List ι} (his : ∀ i, i ∈ is) {d : ℕ} :
    x ∈ collect child is d k t ↔ ∃ p, p.length ≤ d ∧ walk child k t p = some x := by
  induction d generalizing k t with
  | zero =>
    rw [collect, List.mem_singleton]
    constructor
    · rintro rfl
      exact ⟨[], Nat.le_refl _, rfl⟩
    · rintro ⟨p, hp, hw⟩
      obtain rfl := List.eq_nil_of_length_eq_zero (Nat.le_zero.mp hp)
      exact (Option.some.inj hw).symm
  | succ d ih =>
    rw [collect, List.mem_append, List.mem_flatMap, List.mem_singleton]
    constructor
    · rintro (⟨i, -, hx⟩ | rfl)
      · cases hc : child k t i with
        | none => rw [hc] at hx; cases hx
        | some c =>
          rw [hc] at hx
          obtain ⟨p, hp, hw⟩ := ih.mp hx
          exact ⟨i :: p, Nat.succ_le_succ hp, by rw [walk_cons, hc]; exact hw⟩
      · exact ⟨[], Nat.zero_le _, rfl⟩
    · rintro ⟨p, hp, hw⟩
      cases p with
      | nil => exact .inr (Option.some.inj hw).symm
      | cons i p =>
        obtain ⟨c, hc, hw⟩ := Option.bind_eq_some_iff.mp hw
        refine .inl ⟨i, his i, ?_⟩
        rw [hc]
        exact ih.mpr ⟨p, Nat.le_of_succ_le_succ hp, hw⟩

/-- Of a tree, everything is there once. -/
theorem nodup_collect {is : List ι} (his : ∀ i, i ∈ is) (hnodup : is.Nodup) {d : ℕ}
    (ht : ∀ p q c, p.length ≤ d → q.length ≤ d → walk child k t p = some c →
      walk child k t q = some c → p = q) : (collect child is d k t).Nodup := by
  induction d generalizing k t with
  | zero => exact List.nodup_singleton t
  | succ d ih =>
    have hbelow : ∀ i x, x ∈ ((child k t i).elim [] fun c => collect child is d (k + 1) c) →
        ∃ p, p.length ≤ d ∧ walk child k t (i :: p) = some x := by
      intro i x hx
      simp only [walk_cons]
      cases hc : child k t i with
      | none => rw [hc] at hx; cases hx
      | some c =>
        rw [hc] at hx
        exact (mem_collect his).mp hx
    rw [collect]
    refine List.nodup_append.mpr ⟨List.nodup_flatMap.mpr ⟨fun i _ => ?_, ?_⟩,
      List.nodup_singleton t, ?_⟩
    · cases hc : child k t i with
      | none => exact List.nodup_nil
      | some c =>
        refine ih fun p q x hp hq hwp hwq => ?_
        have hcons : ∀ {p}, walk child (k + 1) c p = some x → walk child k t (i :: p) = some x :=
          fun hw => by rw [walk_cons, hc]; exact hw
        exact (List.cons.inj (ht (i :: p) (i :: q) x (Nat.succ_le_succ hp) (Nat.succ_le_succ hq)
          (hcons hwp) (hcons hwq))).2
    · refine hnodup.imp fun {i j} hij x hxi hxj => ?_
      obtain ⟨p, hp, hwp⟩ := hbelow i x hxi
      obtain ⟨q, hq, hwq⟩ := hbelow j x hxj
      exact hij (List.cons.inj (ht _ _ x (Nat.succ_le_succ hp) (Nat.succ_le_succ hq) hwp hwq)).1
    · intro x hx y hy
      obtain rfl := List.mem_singleton.mp hy
      rintro rfl
      obtain ⟨i, -, hx⟩ := List.mem_flatMap.mp hx
      obtain ⟨p, hp, hw⟩ := hbelow i x hx
      cases ht (i :: p) [] x (Nat.succ_le_succ hp) (Nat.zero_le _) hw rfl

/-- Of a tree, `collect` has what is reached. -/
theorem mem_collect_root {is : List ι} (his : ∀ i, i ∈ is) :
    x ∈ collect child is n 0 r ↔ Reached child r n x := mem_collect his

theorem Tree.nodup_collect {is : List ι} (ht : Tree child r n) (his : ∀ i, i ∈ is)
    (hnodup : is.Nodup) : (collect child is n 0 r).Nodup := Radix.nodup_collect his hnodup ht

end Radix
