import Mathlib.Algebra.Group.End
import Mathlib.Order.Basic
import Mathlib.Tactic.Common

/-!
# Sorting by a heap

An element sinks below the greater of its two children until neither is greater. Sunk one by one,
from the last that has a child to the first, the elements make a heap. Then the first is a greatest,
and it goes to the end, the heap loses its last place, and what has come to the front sinks.

Which of two elements is greater is asked, and the answers need not agree with each other nor with
what was answered before. Whatever is answered, elements only change places. If the answers are
those of a total preorder, the elements ascend.

## Main definitions

* `HeapSort.sort`
* `HeapSort.Rearranged` — elements have changed places below a bound
* `HeapSort.Heap`, `HeapSort.Sinks` — a heap, and one out of order below one element

## Main results

* `HeapSort.sort_rearranged` — for all answers
* `HeapSort.sift_heap` — an element that has sunk leaves a heap
* `HeapSort.sort_ascends` — for the answers of a total preorder
-/

namespace HeapSort

variable {E σ : Type*}

/-- Who is asked, with a memory of its own: is the first of two elements the greater? It sees the
elements and their places. -/
abbrev Oracle (σ E : Type*) := σ → ℕ × E → ℕ × E → Bool × σ

variable {ask : Oracle σ E} {n k m r i j c : ℕ} {e e' e'' : ℕ → E} {s : σ}

/-- The place of the greater of two elements, the second if neither is. -/
def larger (ask : Oracle σ E) (i j : ℕ) (e : ℕ → E) (s : σ) : ℕ × σ :=
  let answer := ask s (i, e i) (j, e j)
  (if answer.1 then i else j, answer.2)

/-- Which of an element and its children is to go to its place. -/
def largest (ask : Oracle σ E) (n root : ℕ) (e : ℕ → E) (s : σ) : ℕ × σ :=
  let left := 2 * root + 1
  let p := larger ask left root e s
  let right := left + 1
  if right < n then larger ask right p.1 e p.2 else p

/-- The children of a place. -/
def Child (c i : ℕ) : Prop := c = 2 * i + 1 ∨ c = 2 * i + 2

theorem Child.lt (h : Child c i) : i < c := by
  unfold Child at h
  omega

theorem Child.unique (h : Child c i) (h' : Child c j) : i = j := by
  unfold Child at h h'
  omega

theorem larger_mem (ask : Oracle σ E) (e : ℕ → E) (s : σ) (i j : ℕ) :
    (larger ask i j e s).1 = i ∨ (larger ask i j e s).1 = j := by
  unfold larger
  dsimp only
  split
  · exact .inl rfl
  · exact .inr rfl

theorem largest_child (h : 2 * r + 1 < n) :
    (largest ask n r e s).1 = r ∨
      Child (largest ask n r e s).1 r ∧ (largest ask n r e s).1 < n := by
  unfold Child
  dsimp only [largest]
  have hleft := larger_mem ask e s (2 * r + 1) r
  generalize larger ask (2 * r + 1) r e s = p at hleft ⊢
  split
  · have hright := larger_mem ask e p.2 (2 * r + 1 + 1) p.1
    omega
  · omega

theorem lt_largest (h : 2 * r + 1 < n) (hne : (largest ask n r e s).1 ≠ r) :
    r < (largest ask n r e s).1 ∧ (largest ask n r e s).1 < n := by
  obtain hsame | ⟨hchild, hlt⟩ := largest_child h
  · exact absurd hsame hne
  · exact ⟨hchild.lt, hlt⟩

/-- An element sinks from `root`, in a heap of `n` places. -/
def sift (ask : Oracle σ E) (n root : ℕ) (e : ℕ → E) (s : σ) : (ℕ → E) × σ :=
  if _h : 2 * root + 1 < n then
    let p := largest ask n root e s
    if _hp : p.1 = root then (e, p.2)
    else sift ask n p.1 (e ∘ Equiv.swap root p.1) p.2
  else (e, s)
termination_by n - root
decreasing_by
  have hlt := lt_largest _h _hp
  omega

/-- All elements below `start` sink, the last one first. -/
def build (ask : Oracle σ E) (n : ℕ) : ℕ → (ℕ → E) → σ → (ℕ → E) × σ
  | 0, e, s => (e, s)
  | start + 1, e, s =>
    let p := sift ask n start e s
    build ask n start p.1 p.2

/-- The first element goes to the end of the heap, and the heap loses that place, until one place is
left. -/
def drain (ask : Oracle σ E) : ℕ → (ℕ → E) → σ → (ℕ → E) × σ
  | 0, e, s => (e, s)
  | last + 1, e, s =>
    let p := sift ask (last + 1) 0 (e ∘ Equiv.swap 0 (last + 1)) s
    drain ask last p.1 p.2

/-- `n` elements are sorted. -/
def sort (ask : Oracle σ E) (n : ℕ) (e : ℕ → E) (s : σ) : (ℕ → E) × σ :=
  if n < 2 then (e, s)
  else
    let p := build ask n (n / 2) e s
    drain ask (n - 1) p.1 p.2

/-! ### Elements change places -/

/-- The elements below `n` have changed places. -/
def Rearranged (n : ℕ) (e e' : ℕ → E) : Prop :=
  ∃ π : Equiv.Perm ℕ, (∀ i, n ≤ i → π i = i) ∧ e' = e ∘ π

theorem Rearranged.refl (n : ℕ) (e : ℕ → E) : Rearranged n e e := ⟨1, fun _ _ => rfl, rfl⟩

theorem Rearranged.trans (h : Rearranged n e e') (h' : Rearranged n e' e'') :
    Rearranged n e e'' := by
  obtain ⟨π, hπ, rfl⟩ := h
  obtain ⟨π', hπ', rfl⟩ := h'
  refine ⟨π'.trans π, fun i hi => ?_, rfl⟩
  rw [Equiv.trans_apply, hπ' i hi, hπ i hi]

theorem Rearranged.mono (h : Rearranged m e e') (hmn : m ≤ n) : Rearranged n e e' := by
  obtain ⟨π, hπ, rfl⟩ := h
  exact ⟨π, fun i hi => hπ i (Nat.le_trans hmn hi), rfl⟩

theorem rearranged_swap (hi : i < n) (hc : c < n) : Rearranged n e (e ∘ Equiv.swap i c) :=
  ⟨Equiv.swap i c, fun _ hj => Equiv.swap_apply_of_ne_of_ne (by omega) (by omega), rfl⟩

theorem Rearranged.eq_of_le (h : Rearranged n e e') (hi : n ≤ i) : e' i = e i := by
  obtain ⟨π, hπ, rfl⟩ := h
  rw [Function.comp_apply, hπ i hi]

/-- What is below the bound was below it. -/
theorem Rearranged.exists_lt (h : Rearranged n e e') (hi : i < n) : ∃ j < n, e' i = e j := by
  obtain ⟨π, hπ, rfl⟩ := h
  refine ⟨π i, ?_, rfl⟩
  by_contra hge
  have hfixed : π i = i := π.injective (hπ (π i) (Nat.le_of_not_lt hge))
  omega

theorem sift_rearranged (hr : r < n) : Rearranged n e (sift ask n r e s).1 := by
  fun_induction sift ask n r e s with
  | case1 root e s h p hp => exact .refl n e
  | case2 root e s h p hp ih =>
    have hlt := lt_largest h hp
    exact (rearranged_swap hr hlt.2).trans (ih hlt.2)
  | case3 root e s h => exact .refl n e

theorem build_rearranged (hk : k ≤ n) : Rearranged n e (build ask n k e s).1 := by
  induction k generalizing e s with
  | zero => exact .refl n e
  | succ k ih => exact (sift_rearranged hk).trans (ih (by omega))

theorem drain_rearranged : Rearranged (k + 1) e (drain ask k e s).1 := by
  induction k generalizing e s with
  | zero => exact .refl 1 e
  | succ k ih =>
    have hswap : Rearranged (k + 2) e (e ∘ Equiv.swap 0 (k + 1)) :=
      rearranged_swap (by omega) (by omega)
    exact (hswap.trans ((sift_rearranged (by omega)).mono (by omega))).trans (ih.mono (by omega))

/-- **Whatever is answered, the elements are the same ones.** -/
theorem sort_rearranged : Rearranged n e (sort ask n e s).1 := by
  unfold sort
  split
  · exact .refl n e
  · exact (build_rearranged (Nat.div_le_self n 2)).trans (drain_rearranged.mono (by omega))

/-! ### Answers of a total preorder -/

variable {le : E → E → Prop}

/-- No child is greater, from the place `k` on. -/
def Heap (le : E → E → Prop) (k n : ℕ) (e : ℕ → E) : Prop :=
  ∀ i c, k ≤ i → Child c i → c < n → le (e c) (e i)

/-- A heap but for the element at `r`, which may have to sink: its children stand below its
parent. -/
structure Sinks (le : E → E → Prop) (k n r : ℕ) (e : ℕ → E) : Prop where
  others : ∀ i c, k ≤ i → i ≠ r → Child c i → c < n → le (e c) (e i)
  parent : ∀ i c, k ≤ i → Child r i → Child c r → c < n → le (e c) (e i)

theorem Sinks.heap (h : Sinks le k n r e) (hr : ∀ c, Child c r → c < n → le (e c) (e r)) :
    Heap le k n e := by
  intro i c hi hc hn
  rcases eq_or_ne i r with rfl | hne
  · exact hr c hc hn
  · exact h.others i c hi hne hc hn

theorem Heap.sinks (h : Heap le (k + 1) n e) : Sinks le k n k e where
  others i c hi hne := h i c (by omega)
  parent i c hi hk := absurd hk.lt (by omega)

/-- Where the element sinks by one place, the greatest of its children stands above both. -/
theorem Sinks.next (h : Sinks le k n r e) (hk : k ≤ r) (hc : Child c r) (hn : c < n)
    (hroot : le (e r) (e c)) (hgreatest : ∀ d, Child d r → d < n → le (e d) (e c)) :
    Sinks le k n c (e ∘ Equiv.swap r c) := by
  have hupper : (e ∘ Equiv.swap r c) r = e c := congrArg e (Equiv.swap_apply_left r c)
  have hlower : (e ∘ Equiv.swap r c) c = e r := congrArg e (Equiv.swap_apply_right r c)
  have hother : ∀ d, d ≠ r → d ≠ c → (e ∘ Equiv.swap r c) d = e d := fun d hr hc =>
    congrArg e (Equiv.swap_apply_of_ne_of_ne hr hc)
  constructor
  · intro i d hi hic hd hdn
    rcases eq_or_ne i r with rfl | hir
    · rw [hupper]
      rcases eq_or_ne d c with rfl | hdc
      · rwa [hlower]
      · rw [hother d hd.lt.ne' hdc]
        exact hgreatest d hd hdn
    · rw [hother i hir hic]
      rcases eq_or_ne d r with rfl | hdr
      · rw [hupper]
        exact h.parent i c hi hd hc hn
      · have hdc : d ≠ c := fun he => hir ((he ▸ hd).unique hc)
        rw [hother d hdr hdc]
        exact h.others i d hi hir hd hdn
  · intro i d hi hci hd hdn
    obtain rfl := hci.unique hc
    have hlt := hc.lt
    rw [hupper, hother d (by have := hd.lt; omega) hd.lt.ne']
    exact h.others c d (by omega) hlt.ne' hd hdn

section Total

variable [Std.Total le] [IsTrans E le]

/-- The answers are those of the preorder. -/
def Honest (ask : Oracle σ E) (le : E → E → Prop) : Prop :=
  ∀ s x y, (ask s x y).1 = true ↔ ¬ le x.2 y.2

omit [IsTrans E le] in
theorem le_larger (hask : Honest ask le) (i j : ℕ) :
    le (e i) (e (larger ask i j e s).1) ∧ le (e j) (e (larger ask i j e s).1) := by
  have hanswer := hask s (i, e i) (j, e j)
  unfold larger
  dsimp only
  split
  · exact ⟨refl_of le _, (Std.Total.total _ _).resolve_left (hanswer.1 ‹_›)⟩
  · exact ⟨not_not.1 fun hle => ‹¬ _› (hanswer.2 hle), refl_of le _⟩

/-- The greatest of an element and its children is at least each of them. -/
theorem le_largest (hask : Honest ask le) (r : ℕ) :
    le (e r) (e (largest ask n r e s).1) ∧
      ∀ c, Child c r → c < n → le (e c) (e (largest ask n r e s).1) := by
  dsimp only [largest]
  obtain ⟨hleft, hroot⟩ := le_larger hask (e := e) (s := s) (2 * r + 1) r
  generalize larger ask (2 * r + 1) r e s = p at hleft hroot
  split
  case isTrue hright =>
    obtain ⟨hnew, hold⟩ := le_larger hask (e := e) (s := p.2) (2 * r + 1 + 1) p.1
    refine ⟨trans_of le hroot hold, ?_⟩
    rintro c (rfl | rfl) -
    · exact trans_of le hleft hold
    · exact hnew
  case isFalse hright =>
    refine ⟨hroot, ?_⟩
    rintro c (rfl | rfl) hc
    · exact hleft
    · exact absurd hc hright

theorem sift_heap (hask : Honest ask le) (h : Sinks le k n r e) (hk : k ≤ r) :
    Heap le k n (sift ask n r e s).1 := by
  fun_induction sift ask n r e s with
  | case1 root e s hlt p hp =>
    refine h.heap fun c hc hn => ?_
    have hgreatest := (le_largest hask (e := e) (s := s) root).2 c hc hn
    rwa [show (largest ask n root e s).1 = root from hp] at hgreatest
  | case2 root e s hlt p hp ih =>
    obtain ⟨hroot, hgreatest⟩ := le_largest hask (n := n) (e := e) (s := s) root
    obtain hsame | ⟨hchild, hn⟩ : (largest ask n root e s).1 = root ∨ _ := largest_child hlt
    · exact absurd hsame hp
    · exact ih (h.next hk hchild hn hroot hgreatest) (hk.trans hchild.lt.le)
  | case3 root e s hlt =>
    refine h.heap fun c hc hn => absurd hn ?_
    unfold Child at hc
    omega

theorem build_heap (hask : Honest ask le) (h : Heap le k n e) :
    Heap le 0 n (build ask n k e s).1 := by
  induction k generalizing e s with
  | zero => exact h
  | succ k ih => exact ih (sift_heap hask h.sinks (Nat.le_refl k))

/-- The first element of a heap is a greatest. -/
theorem Heap.le_first (h : Heap le 0 n e) (i : ℕ) (hi : i < n) : le (e i) (e 0) := by
  induction i using Nat.strong_induction_on with
  | _ i ih =>
    rcases Nat.eq_zero_or_pos i with rfl | hpos
    · exact refl_of le _
    · have hchild : Child i ((i - 1) / 2) := by
        unfold Child
        omega
      have hlt := hchild.lt
      exact trans_of le (h _ i (Nat.zero_le _) hchild hi) (ih _ hlt (by omega))

/-- From the place `k` on the elements are where they belong. -/
def Settled (le : E → E → Prop) (k n : ℕ) (e : ℕ → E) : Prop :=
  ∀ i j, i < j → k ≤ j → j < n → le (e i) (e j)

/-- What has come to the end of the heap is settled. -/
theorem Settled.next (h : Settled le (k + 1) n e) (hheap : Heap le 0 (k + 1) e)
    (he : Rearranged k (e ∘ Equiv.swap 0 k) e') : Settled le k n e' := by
  have hall : Rearranged (k + 1) e e' :=
    (rearranged_swap (Nat.succ_pos k) (Nat.lt_succ_self k)).trans (he.mono (Nat.le_succ k))
  intro i j hij hj hn
  rcases eq_or_lt_of_le hj with rfl | hlt
  · have hlast : e' k = e 0 := (he.eq_of_le (Nat.le_refl k)).trans
      (congrArg e (Equiv.swap_apply_right 0 k))
    obtain ⟨i', hi', hei⟩ := hall.exists_lt (hij.trans (Nat.lt_succ_self k))
    rw [hlast, hei]
    exact hheap.le_first i' hi'
  · rw [hall.eq_of_le hlt]
    rcases lt_or_ge i (k + 1) with hi | hi
    · obtain ⟨i', hi', hei⟩ := hall.exists_lt hi
      rw [hei]
      exact h i' j (by omega) hlt hn
    · rw [hall.eq_of_le hi]
      exact h i j hij hlt hn

theorem drain_settled (hask : Honest ask le) (hheap : Heap le 0 (k + 1) e)
    (h : Settled le (k + 1) n e) : Settled le 1 n (drain ask k e s).1 := by
  induction k generalizing e s with
  | zero => exact h
  | succ k ih =>
    have hsift : Rearranged (k + 1) (e ∘ Equiv.swap 0 (k + 1))
        (sift ask (k + 1) 0 (e ∘ Equiv.swap 0 (k + 1)) s).1 := sift_rearranged (Nat.succ_pos k)
    refine ih (sift_heap hask ⟨fun i c hi hne hc hn => ?_, fun i c _ h0 => ?_⟩ (Nat.le_refl 0))
      (h.next hheap hsift)
    · -- Below the first place the heap is as it was.
      have hi0 := hc.lt
      have hsame : ∀ d, d ≠ 0 → d < k + 1 → (e ∘ Equiv.swap 0 (k + 1)) d = e d := fun d hd hdk =>
        congrArg e (Equiv.swap_apply_of_ne_of_ne hd hdk.ne)
      rw [hsame c (by omega) hn, hsame i hne (by omega)]
      exact hheap i c hi hc (by omega)
    · exact absurd h0.lt (Nat.not_lt_zero i)

/-- **For the answers of a total preorder the elements ascend.** -/
theorem sort_ascends (hask : Honest ask le) (i j : ℕ) (hij : i < j) (hj : j < n) :
    le ((sort ask n e s).1 i) ((sort ask n e s).1 j) := by
  unfold sort
  split
  · omega
  · have hleaves : Heap le (n / 2) n e := fun i c hi hc hn =>
      absurd hn (by unfold Child at hc; omega)
    obtain ⟨m, rfl⟩ : ∃ m, n = m + 1 := ⟨n - 1, by omega⟩
    have hheap : Heap le 0 (m + 1) (build ask (m + 1) ((m + 1) / 2) e s).1 :=
      build_heap hask hleaves
    exact drain_settled hask hheap (fun i j _ hge hlt => absurd hlt (by omega)) i j hij (by omega)
      hj

end Total

end HeapSort
