import Mathlib.Data.List.Cycle
import Mathlib.Logic.Function.Iterate
import Mathlib.Tactic.Common

/-!
# Rings of cells with two links

A cell names the cell behind it and the cell before it. Two cells are joined if each names the
other, and a ring is a cycle of cells of which every two neighbours are joined. It may be cut
anywhere, into segments that are joined inside. To join two cells is to write one link of each, and
that breaks no segment which has the first cell last, or not at all, and the second cell first, or
not at all. So a ring is rebuilt by cutting it, and joining the ends of the segments in another
order.

## Main definitions

* `TwoWay`, `TwoWay.join` — a table of links, and two cells joined in it
* `TwoWay.Seg` — a segment, with its two ends
* `TwoWay.Closed` — a ring
* `TwoWay.Walks` — what is found by following the links from one cell on

## Main results

* `TwoWay.Closed.cut`, `TwoWay.Closed.rotate` — a ring is cut anywhere
* `TwoWay.Seg.append_join`, `TwoWay.Seg.close` — segments are joined, and a segment is closed
* `TwoWay.Closed.insert`, `TwoWay.Closed.erase` — a cell is put on a ring, and taken off
* `TwoWay.Closed.flip` — a ring read the other way round
* `TwoWay.Closed.walks`
-/

/-- A table of links: the cell behind each cell, and the cell before it. -/
@[ext]
structure TwoWay (α : Type*) where
  next : α → α
  prev : α → α

namespace TwoWay

variable {α : Type*} {t t' : TwoWay α} {a b c d p s x y z : α}
  {l m l₁ l₂ : List α}

/-- Each of two neighbours names the other. -/
def Joined (t : TwoWay α) (x y : α) : Prop := t.next x = y ∧ t.prev y = x

/-- The cells of `l` are joined in this order, the first is `a` and the last is `z`. -/
structure Seg (t : TwoWay α) (a : α) (l : List α) (z : α) : Prop where
  head : l.head? = some a
  last : l.getLast? = some z
  chain : l.IsChain t.Joined

/-- A ring: no cell is on it twice, and all neighbours are joined. -/
def Closed (t : TwoWay α) (l : List α) : Prop := l.Nodup ∧ Cycle.Chain t.Joined (l : Cycle α)

/-! ### Segments -/

theorem Seg.single (t : TwoWay α) (x : α) : Seg t x [x] x := ⟨rfl, rfl, .singleton x⟩

theorem Seg.head_mem (h : Seg t a l z) : a ∈ l := List.mem_of_mem_head? h.head

theorem Seg.last_mem (h : Seg t a l z) : z ∈ l := List.mem_of_getLast? h.last

theorem Seg.ne_nil (h : Seg t a l z) : l ≠ [] := List.ne_nil_of_mem h.head_mem

theorem exists_seg (h : l.IsChain t.Joined) (hl : l ≠ []) : ∃ a z, Seg t a l z :=
  ⟨l.head hl, l.getLast hl, List.head?_eq_some_head hl, List.getLast?_eq_some_getLast hl, h⟩

theorem Seg.append (h : Seg t a l b) (h' : Seg t c m d) (hj : t.Joined b c) :
    Seg t a (l ++ m) d where
  head := by rw [List.head?_append_of_ne_nil _ h.ne_nil, h.head]
  last := by rw [List.getLast?_append_of_ne_nil _ h'.ne_nil, h'.last]
  chain := by
    refine List.isChain_append.2 ⟨h.chain, h'.chain, fun x hx y hy => ?_⟩
    obtain rfl : b = x := by simpa [h.last] using hx
    obtain rfl : c = y := by simpa [h'.head] using hy
    exact hj

theorem Seg.of_append (h : Seg t a (l ++ m) d) (hl : l ≠ []) (hm : m ≠ []) :
    ∃ b c, Seg t a l b ∧ Seg t c m d ∧ t.Joined b c := by
  obtain ⟨hleft, hright, hj⟩ := List.isChain_append.1 h.chain
  obtain ⟨a', b, hab⟩ := exists_seg hleft hl
  obtain ⟨c, d', hcd⟩ := exists_seg hright hm
  obtain rfl : a' = a := by
    have := h.head
    rw [List.head?_append_of_ne_nil _ hl, hab.head] at this
    exact Option.some.inj this
  obtain rfl : d' = d := by
    have := h.last
    rw [List.getLast?_append_of_ne_nil _ hm, hcd.last] at this
    exact Option.some.inj this
  exact ⟨b, c, hab, hcd, hj b hab.last c hcd.head⟩

/-! ### Rings -/

theorem Seg.closed (h : Seg t a l z) (hj : t.Joined z a) (hn : l.Nodup) : Closed t l := by
  refine ⟨hn, ?_⟩
  have hchain := (h.append (Seg.single t a) hj).chain
  obtain ⟨b, l, rfl⟩ := List.exists_cons_of_ne_nil h.ne_nil
  obtain rfl : b = a := Option.some.inj h.head
  exact Cycle.chain_coe_cons _ _ _ |>.2 hchain

theorem Closed.seg (h : Closed t l) (hl : l ≠ []) : ∃ a z, Seg t a l z ∧ t.Joined z a := by
  obtain ⟨a, l, rfl⟩ := List.exists_cons_of_ne_nil hl
  have hchain : ((a :: l) ++ [a]).IsChain t.Joined := (Cycle.chain_coe_cons _ _ _).1 h.2
  obtain ⟨hl, -, hj⟩ := List.isChain_append.1 hchain
  obtain ⟨b, z, hb⟩ := exists_seg hl (List.cons_ne_nil _ _)
  obtain rfl : a = b := Option.some.inj hb.head
  exact ⟨a, z, hb, hj z hb.last a rfl⟩

/-- A ring in two parts. -/
theorem Closed.cut (h : Closed t (l ++ m)) (hl : l ≠ []) (hm : m ≠ []) :
    ∃ a b c d, Seg t a l b ∧ Seg t c m d ∧ t.Joined b c ∧ t.Joined d a := by
  obtain ⟨a, d, hseg, hclose⟩ := h.seg (List.append_ne_nil_of_left_ne_nil hl m)
  obtain ⟨b, c, hab, hcd, hj⟩ := hseg.of_append hl hm
  exact ⟨a, b, c, d, hab, hcd, hj, hclose⟩

/-- A ring has no first cell. -/
theorem Closed.rotate (h : Closed t (l ++ m)) : Closed t (m ++ l) := by
  have hrotated : ((l ++ m : List α) : Cycle α) = (m ++ l : List α) :=
    Cycle.coe_eq_coe.2 List.isRotated_append
  exact ⟨(List.perm_append_comm.nodup_iff).1 h.1, hrotated ▸ h.2⟩

theorem Closed.prev_mem (h : Closed t l) (hx : x ∈ l) : t.prev x ∈ l := by
  obtain ⟨l₁, l₂, rfl⟩ := List.append_of_mem hx
  obtain ⟨a, z, hseg, hj⟩ := (show Closed t (x :: l₂ ++ l₁) from h.rotate).seg
    (List.cons_ne_nil _ _)
  obtain rfl : x = a := Option.some.inj hseg.head
  rw [hj.2]
  exact (List.perm_append_comm.mem_iff).1 hseg.last_mem

/-- What stands around a cell of a ring, which goes on where it began. -/
theorem Closed.around (h : Closed t (l₁ ++ b :: l₂)) :
    t.next b = (l₂ ++ l₁).head?.getD b ∧ t.prev b = (l₂ ++ l₁).getLast?.getD b := by
  have hchain : ((b :: (l₂ ++ l₁)) ++ [b]).IsChain t.Joined :=
    (Cycle.chain_coe_cons _ _ _).1 h.rotate.2
  have hnext := (List.isChain_cons.1 hchain).1 ((l₂ ++ l₁).head?.getD b) (by
    cases l₂ ++ l₁ <;> rfl)
  have hprev := (List.isChain_append.1 hchain).2.2 ((l₂ ++ l₁).getLast?.getD b)
    (by rw [List.getLast?_cons]; rfl) b rfl
  exact ⟨hnext.1, hprev.2⟩

/-- The links of the cells of a ring are all it depends on. -/
theorem Closed.congr (h : Closed t l)
    (hl : ∀ x ∈ l, t'.next x = t.next x ∧ t'.prev x = t.prev x) : Closed t' l := by
  rcases eq_or_ne l [] with rfl | hne
  · exact ⟨List.nodup_nil, Cycle.Chain.nil _⟩
  · obtain ⟨a, z, hseg, hj⟩ := h.seg hne
    have hjoined : ∀ x y, x ∈ l → y ∈ l → t.Joined x y → t'.Joined x y := by
      intro x y hx hy hxy
      exact ⟨(hl x hx).1.trans hxy.1, (hl y hy).2.trans hxy.2⟩
    have hseg' : Seg t' a l z := ⟨hseg.head, hseg.last, hseg.chain.imp_of_mem_imp hjoined⟩
    exact hseg'.closed (hjoined z a hseg.last_mem hseg.head_mem hj) h.1

/-- The links of all cells but these are as they were. -/
def Keeps (t t' : TwoWay α) (l : List α) : Prop :=
  ∀ x ∉ l, t'.next x = t.next x ∧ t'.prev x = t.prev x

theorem Keeps.refl (t : TwoWay α) (l : List α) : Keeps t t l := fun _ _ => ⟨rfl, rfl⟩

theorem Keeps.trans {t'' : TwoWay α} (h : Keeps t t' l) (h' : Keeps t' t'' l) : Keeps t t'' l :=
  fun x hx => ⟨(h' x hx).1.trans (h x hx).1, (h' x hx).2.trans (h x hx).2⟩

theorem Keeps.closed (h : Keeps t t' m) (hl : Closed t l) (hm : l.Disjoint m) : Closed t' l :=
  hl.congr fun _ hx => h _ (hm hx)

/-! ### The other way round -/

/-- The table with its two columns changed over. -/
def flip (t : TwoWay α) : TwoWay α := ⟨t.prev, t.next⟩

theorem joined_flip : t.flip.Joined x y ↔ t.Joined y x := And.comm

theorem Seg.flip (h : Seg t a l z) : Seg t.flip z l.reverse a where
  head := by rw [List.head?_reverse, h.last]
  last := by rw [List.getLast?_reverse, h.head]
  chain := List.isChain_reverse.2 (h.chain.imp fun _ _ hxy => joined_flip.2 hxy)

/-- A ring read the other way round, from the same cell on. -/
theorem Closed.flip (h : Closed t (s :: l)) : Closed t.flip (s :: l.reverse) := by
  obtain ⟨a, z, hseg, hj⟩ := h.seg (List.cons_ne_nil _ _)
  have hreverse : Closed t.flip (s :: l).reverse :=
    hseg.flip.closed (joined_flip.2 hj) (List.nodup_reverse.2 h.1)
  rw [List.reverse_cons] at hreverse
  exact hreverse.rotate

/-! ### Walks -/

theorem iterate_of_isChain (h : (a :: l).IsChain t.Joined) (i : ℕ) (hi : i < (a :: l).length) :
    t.next^[i] a = (a :: l)[i] := by
  induction i with
  | zero => rfl
  | succ i ih =>
    rw [Function.iterate_succ_apply', ih (by omega)]
    exact (List.isChain_iff_getElem.1 h i hi).1

theorem Closed.iterate (h : Closed t (s :: l)) (i : ℕ) (hi : i < l.length) :
    t.next^[i + 1] s = l[i] := by
  have hchain : (s :: (l ++ [s])).IsChain t.Joined := (Cycle.chain_coe_cons _ _ _).1 h.2
  rw [iterate_of_isChain hchain (i + 1) (by simp; omega), List.getElem_cons_succ,
    List.getElem_append_left hi]

theorem Closed.iterate_length (h : Closed t (s :: l)) : t.next^[l.length + 1] s = s := by
  have hchain : (s :: (l ++ [s])).IsChain t.Joined := (Cycle.chain_coe_cons _ _ _).1 h.2
  rw [iterate_of_isChain hchain (l.length + 1) (by simp), List.getElem_cons_succ,
    List.getElem_concat_length rfl]

/-- From any cell of a ring to any other. -/
theorem Closed.exists_iterate (h : Closed t l) (hx : x ∈ l) (hy : y ∈ l) :
    ∃ n, t.next^[n + 1] x = y := by
  obtain ⟨l₁, l₂, rfl⟩ := List.append_of_mem hx
  have hring : Closed t (x :: (l₂ ++ l₁)) := h.rotate
  rw [List.mem_append, List.mem_cons] at hy
  rcases eq_or_ne y x with rfl | hne
  · exact ⟨_, hring.iterate_length⟩
  · have hmem : y ∈ l₂ ++ l₁ := by
      rw [List.mem_append]
      tauto
    obtain ⟨i, hi, hget⟩ := List.getElem_of_mem hmem
    exact ⟨i, (hring.iterate i hi).trans hget⟩

/-- The links from `s` on: forward they run through `l` and back to `s`, backward through `l` from
its end, and either link of a cell undoes the other. -/
structure Walks (t : TwoWay α) (s : α) (l : List α) : Prop where
  next : ∀ i (hi : i < l.length), t.next^[i + 1] s = l[i]
  prev : ∀ i (hi : i < l.reverse.length), t.prev^[i + 1] s = l.reverse[i]
  inverse : ∀ x ∈ s :: l, t.prev (t.next x) = x ∧ t.next (t.prev x) = x
  returns : ∀ x ∈ s :: l, (∃ n, t.next^[n + 1] x = s) ∧ ∃ n, t.prev^[n + 1] x = s

theorem Closed.prev_next (h : Closed t l) (hx : x ∈ l) : t.prev (t.next x) = x := by
  obtain ⟨l₁, l₂, rfl⟩ := List.append_of_mem hx
  have hring : Closed t (x :: (l₂ ++ l₁)) := h.rotate
  have hchain : (x :: (l₂ ++ l₁ ++ [x])).IsChain t.Joined := (Cycle.chain_coe_cons _ _ _).1 hring.2
  obtain ⟨y, m, hm⟩ := List.exists_cons_of_ne_nil (List.concat_ne_nil x (l₂ ++ l₁))
  rw [hm] at hchain
  obtain ⟨hnext, hprev⟩ := (List.isChain_cons_cons.1 hchain).1
  rw [hnext, hprev]

theorem Closed.next_mem (h : Closed t (s :: l)) (hx : x ∈ s :: l) : t.next x ∈ s :: l := by
  have hback : x ∈ s :: l.reverse := by simpa using hx
  have hnext : t.next x ∈ s :: l.reverse := h.flip.prev_mem hback
  simpa using hnext

theorem Closed.walks (h : Closed t (s :: l)) : Walks t s l where
  next := h.iterate
  prev := h.flip.iterate
  inverse x hx := by
    have hback : x ∈ s :: l.reverse := by simpa using hx
    exact ⟨h.prev_next hx, h.flip.prev_next hback⟩
  returns x hx := by
    have hback : x ∈ s :: l.reverse := by simpa using hx
    exact ⟨h.exists_iterate hx List.mem_cons_self,
      h.flip.exists_iterate hback List.mem_cons_self⟩

/-! ### Joining -/

variable [DecidableEq α]

/-- One link of a cell is written. -/
def setNext (t : TwoWay α) (x y : α) : TwoWay α := { t with next := Function.update t.next x y }

def setPrev (t : TwoWay α) (x y : α) : TwoWay α := { t with prev := Function.update t.prev x y }

@[simp] theorem setNext_prev : (t.setNext x y).prev = t.prev := rfl

@[simp] theorem setPrev_next : (t.setPrev x y).next = t.next := rfl

theorem setPrev_prev_of_ne (h : z ≠ x) : (t.setPrev x y).prev z = t.prev z :=
  Function.update_of_ne h ..

/-- Two cells are joined. -/
def join (t : TwoWay α) (x y : α) : TwoWay α := (t.setNext x y).setPrev y x

theorem joined_join (t : TwoWay α) (x y : α) : (t.join x y).Joined x y :=
  ⟨Function.update_self .., Function.update_self ..⟩

theorem Joined.join (h : t.Joined a b) (hx : a ≠ x) (hy : b ≠ y) : (t.join x y).Joined a b :=
  ⟨(Function.update_of_ne hx ..).trans h.1, (Function.update_of_ne hy ..).trans h.2⟩

/-- A segment is left whole where its last cell is joined with its first, or with others. -/
theorem Seg.join (h : Seg t a l z) (hn : l.Nodup) (hx : x ∈ l → x = z) (hy : y ∈ l → y = a) :
    Seg (t.join x y) a l z := by
  refine ⟨h.head, h.last, ?_⟩
  rw [List.isChain_iff_forall_rel_of_append_cons_cons]
  intro c d l₁ l₂ hl
  have hj := List.isChain_iff_forall_rel_of_append_cons_cons.1 h.chain hl
  subst hl
  refine hj.join ?_ ?_
  · -- The cell before another is not the last.
    rintro rfl
    have hlast := h.last
    rw [List.getLast?_append_of_ne_nil _ (List.cons_ne_nil _ _), ← hx (by simp),
      List.getLast?_cons_cons] at hlast
    have hmem := List.mem_of_getLast? hlast
    exact (List.nodup_cons.1 (List.nodup_append.1 hn).2.1).1 hmem
  · -- The cell behind another is not the first.
    rintro rfl
    have hhead := h.head
    rw [← hy (by simp), List.append_cons, List.head?_append_of_ne_nil _ (by simp)] at hhead
    have hmem := List.mem_of_mem_head? hhead
    rw [List.append_cons] at hn
    exact (List.nodup_append.1 hn).2.2 d hmem d List.mem_cons_self rfl

theorem Seg.append_join (h : Seg t a l b) (h' : Seg t c m d) (hn : (l ++ m).Nodup) :
    Seg (t.join b c) a (l ++ m) d := by
  obtain ⟨hl, hm, hdisjoint⟩ := List.nodup_append.1 hn
  refine (h.join hl (fun _ => rfl) fun hc => ?_).append (h'.join hm (fun hb => ?_) fun _ => rfl)
    (joined_join ..)
  · exact absurd rfl (hdisjoint c hc c h'.head_mem)
  · exact absurd rfl (hdisjoint b h.last_mem b hb)

theorem Seg.close (h : Seg t a l z) (hn : l.Nodup) : Closed (t.join z a) l :=
  (h.join hn (fun _ => rfl) fun _ => rfl).closed (joined_join ..) hn

/-- A cell put on a ring behind another. -/
theorem Closed.insert (h : Closed t (l₁ ++ b :: l₂)) (hs : s ∉ l₁ ++ b :: l₂) :
    Closed ((t.join b s).join s (t.next b)) (l₁ ++ b :: s :: l₂) := by
  have hring : Closed t (l₂ ++ (l₁ ++ [b])) := by
    simpa using (show Closed t ((l₁ ++ [b]) ++ l₂) by simpa using h).rotate
  obtain ⟨c, z, hseg, hj⟩ := hring.seg (by simp)
  obtain rfl : b = z := by simpa using hseg.last
  have hnodup : (l₂ ++ (l₁ ++ [b]) ++ [s]).Nodup := by
    refine List.nodup_append.2 ⟨hring.1, List.nodup_singleton _, ?_⟩
    rintro x hx y hy rfl
    obtain rfl := List.mem_singleton.1 hy
    exact hs (by simp at hx ⊢; tauto)
  rw [hj.1]
  have hclosed := (hseg.append_join (.single t s) hnodup).close hnodup
  have hrot : Closed ((t.join b s).join s c) (l₂ ++ (l₁ ++ [b] ++ [s])) := by
    simpa using hclosed
  simpa using hrot.rotate

/-- A cell taken off a ring. -/
theorem Closed.erase (h : Closed t (l₁ ++ b :: s :: l₂)) :
    Closed (t.join b (t.next s)) (l₁ ++ b :: l₂) := by
  have hring : Closed t (l₂ ++ (l₁ ++ [b]) ++ [s]) := by
    simpa using (show Closed t ((l₁ ++ [b] ++ [s]) ++ l₂) by simpa using h).rotate
  obtain ⟨c, z, s', s'', hseg, hsingle, -, hj⟩ := hring.cut (by simp) (by simp)
  obtain rfl : s = s'' := by simpa using hsingle.last
  obtain rfl : b = z := by simpa using hseg.last
  rw [hj.1]
  have hclosed : Closed (t.join b c) (l₂ ++ (l₁ ++ [b])) :=
    hseg.close (List.nodup_append.1 hring.1).1
  simpa using hclosed.rotate

theorem keeps_join (hx : x ∈ l) (hy : y ∈ l) : Keeps t (t.join x y) l :=
  fun _ hz => ⟨Function.update_of_ne (ne_of_mem_of_not_mem hx hz).symm ..,
    Function.update_of_ne (ne_of_mem_of_not_mem hy hz).symm ..⟩

end TwoWay
