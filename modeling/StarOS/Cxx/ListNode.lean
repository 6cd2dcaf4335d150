import Mathlib.Data.List.TakeWhile
import StarOS.Lib.TwoWay

/-!
# The nodes of a list

A list is a ring of nodes with a sentinel on it, which is no element. To put a node on a list, to
take one off, to read the list the other way round and to move a range are writes of links, and no
node moves. The order of the writes is the source's, since a link that has been written is read
again.

## Main definitions

* `ListNode.hook`, `ListNode.unhook`, `ListNode.reverse`, `ListNode.transfer`
* `ListNode.insertBefore` — what a list is to hold after nodes were put in front of a position

## Main results

* `ListNode.hook_eq`, `ListNode.unhook_eq`, `ListNode.transfer_eq` — which nodes are joined
* `ListNode.reverseLoop_eq` — the loop changes the links of the nodes it comes by
* `ListNode.list_exact`
-/

namespace StarOS

namespace ListNode

variable {Node : Type} [DecidableEq Node]

def hook (t : TwoWay Node) (this position : Node) : TwoWay Node :=
  let t := t.setNext this position
  let t := t.setPrev this (t.prev position)
  let t := t.setNext (t.prev position) this
  t.setPrev position this

def unhook (t : TwoWay Node) (this : Node) : TwoWay Node :=
  let next_node := t.next this
  let prev_node := t.prev this
  let t := t.setNext prev_node next_node
  t.setPrev next_node prev_node

/-- At most so many turns of the loop. -/
def reverseLoop (this : Node) : ℕ → TwoWay Node → Node → Option (TwoWay Node)
  | 0, _, _ => none
  | turns + 1, t, node =>
    let next_node := t.next node
    let t := t.setNext node (t.prev node)
    let t := t.setPrev node next_node
    let node := t.prev node
    if node ≠ this then reverseLoop this turns t node else some t

def reverse (turns : ℕ) (t : TwoWay Node) (this : Node) : Option (TwoWay Node) :=
  reverseLoop this turns t this

def transfer (t : TwoWay Node) (this first last : Node) : TwoWay Node :=
  if this = last then t
  else
    let t := t.setNext (t.prev last) this
    let t := t.setNext (t.prev first) last
    let t := t.setNext (t.prev this) first
    let old_prev := t.prev this
    let t := t.setPrev this (t.prev last)
    let t := t.setPrev last (t.prev first)
    t.setPrev first old_prev

/-- The links of some nodes are changed over. -/
def turned (t : TwoWay Node) (nodes : List Node) : TwoWay Node :=
  ⟨fun x => if x ∈ nodes then t.prev x else t.next x,
    fun x => if x ∈ nodes then t.next x else t.prev x⟩

/-- `nodes` in front of a position of `l`. The sentinel is behind the last node. -/
def insertBefore (position : Node) (nodes l : List Node) : List Node :=
  l.takeWhile (· ≠ position) ++ nodes ++ l.dropWhile (· ≠ position)

variable {t : TwoWay Node} {this position first last s s' x y : Node}
  {l m k range nodes : List Node}

/-! ### Positions -/

theorem insertBefore_of_not_mem (h : position ∉ l) :
    insertBefore position nodes l = l ++ nodes := by
  have hall : ∀ x ∈ l, decide (x ≠ position) = true := fun x hx =>
    decide_eq_true (ne_of_mem_of_not_mem hx h)
  rw [insertBefore, List.takeWhile_eq_self_iff.2 hall, List.dropWhile_eq_nil_iff.2 hall,
    List.append_nil]

theorem insertBefore_append (h : position ∉ m) :
    insertBefore position nodes (m ++ position :: k) = m ++ nodes ++ position :: k := by
  have hall : ∀ x ∈ m, decide (x ≠ position) = true := fun x hx =>
    decide_eq_true (ne_of_mem_of_not_mem hx h)
  rw [insertBefore, List.takeWhile_append_of_pos hall, List.dropWhile_append_of_pos hall]
  simp

/-! ### Which nodes are joined -/

theorem hook_eq (h : position ≠ this) (hprev : t.prev position ≠ this) :
    hook t this position = (t.join (t.prev position) this).join this position := by
  have hread : (t.setPrev this (t.prev position)).prev position = t.prev position :=
    TwoWay.setPrev_prev_of_ne h
  have hnext : Function.update (Function.update t.next this position) (t.prev position) this =
      Function.update (Function.update t.next (t.prev position) this) this position :=
    Function.update_comm hprev.symm ..
  refine TwoWay.ext ?_ rfl
  show Function.update (Function.update t.next this position)
    ((t.setPrev this (t.prev position)).prev position) this = _
  rw [hread, hnext]
  rfl

theorem unhook_eq : unhook t this = t.join (t.prev this) (t.next this) := rfl

theorem transfer_self : transfer t this first this = t := if_pos rfl

theorem transfer_eq (hlast : this ≠ last) (hfirst : first ≠ this) :
    transfer t this first last =
      ((t.join (t.prev last) this).join (t.prev first) last).join (t.prev this) first := by
  have hread : (t.setPrev this (t.prev last)).prev first = t.prev first :=
    TwoWay.setPrev_prev_of_ne hfirst
  rw [transfer, if_neg hlast]
  refine TwoWay.ext rfl ?_
  show Function.update (Function.update (Function.update t.prev this (t.prev last)) last
    ((t.setPrev this (t.prev last)).prev first)) first (t.prev this) = _
  rw [hread]
  rfl

/-! ### A node put on a list, and taken off -/

theorem hook_closed (h : t.Closed (position :: l)) (hthis : this ∉ position :: l) :
    (hook t this position).Closed (position :: (l ++ [this])) := by
  obtain ⟨a, z, hseg, hj⟩ := h.seg (List.cons_ne_nil _ _)
  obtain rfl : position = a := Option.some.inj hseg.head
  have hposition : position ≠ this := fun he => hthis (he ▸ List.mem_cons_self)
  have hlast : z ≠ this := fun he => hthis (he ▸ hseg.last_mem)
  have hnodup : ((position :: l) ++ [this]).Nodup :=
    List.nodup_append.2 ⟨h.1, List.nodup_singleton _, by
      rintro x hx y hy rfl
      exact hthis (List.mem_singleton.1 hy ▸ hx)⟩
  rw [hook_eq hposition (by rwa [hj.2]), hj.2]
  exact (hseg.append_join (.single t this) hnodup).close hnodup

theorem unhook_closed (h : t.Closed (this :: l)) (hl : l ≠ []) : (unhook t this).Closed l := by
  obtain ⟨a, b, c, d, hself, hseg, hnext, hprev⟩ := TwoWay.Closed.cut (l := [this]) h
    (List.cons_ne_nil _ _) hl
  obtain rfl : this = a := Option.some.inj hself.head
  obtain rfl : this = b := Option.some.inj hself.last
  rw [unhook_eq, hprev.2, hnext.1]
  exact hseg.close (List.nodup_cons.1 h.1).2

/-! ### The other way round -/

theorem turned_nil : turned t [] = t := by simp [turned]

/-- One turn of the loop. -/
theorem turned_snoc (h : x ∉ nodes) :
    ((turned t nodes).setNext x ((turned t nodes).prev x)).setPrev x ((turned t nodes).next x) =
      turned t (nodes ++ [x]) := by
  have hnext : (turned t nodes).next x = t.next x := if_neg h
  have hprev : (turned t nodes).prev x = t.prev x := if_neg h
  rw [hnext, hprev]
  refine TwoWay.ext ?_ ?_ <;>
  · funext y
    rcases eq_or_ne y x with rfl | hne
    · exact (Function.update_self ..).trans (if_pos (by simp)).symm
    · refine (Function.update_of_ne hne ..).trans ?_
      simp [turned, hne]

/-- The loop behind `nodes`, which it has come by already. -/
theorem reverseLoop_eq (h : (x :: (l ++ [this])).IsChain t.Joined)
    (hn : (nodes ++ x :: l).Nodup) (hthis : this ∉ l) (turns : ℕ) (hturns : l.length < turns) :
    reverseLoop this turns (turned t nodes) x = some (turned t (nodes ++ x :: l)) := by
  induction l generalizing x nodes turns with
  | nil =>
    obtain ⟨turns, rfl⟩ := Nat.exists_eq_succ_of_ne_zero hturns.ne'
    have hx : x ∉ nodes := fun hmem => (List.nodup_append.1 hn).2.2 x hmem x (by simp) rfl
    have hlast : t.next x = this := (List.isChain_cons_cons.1 h).1.1
    have hnode : (((turned t nodes).setNext x ((turned t nodes).prev x)).setPrev x
        ((turned t nodes).next x)).prev x = this :=
      (Function.update_self ..).trans ((if_neg hx).trans hlast)
    rw [reverseLoop, if_neg (not_not.2 hnode), turned_snoc hx]
  | cons y l ih =>
    obtain ⟨turns, rfl⟩ := Nat.exists_eq_succ_of_ne_zero (Nat.ne_zero_of_lt hturns)
    have hx : x ∉ nodes := fun hmem => (List.nodup_append.1 hn).2.2 x hmem x (by simp) rfl
    obtain ⟨hj, hrest⟩ := List.isChain_cons_cons.1 h
    have hnode : (((turned t nodes).setNext x ((turned t nodes).prev x)).setPrev x
        ((turned t nodes).next x)).prev x = y :=
      (Function.update_self ..).trans ((if_neg hx).trans hj.1)
    have hne : y ≠ this := fun he => hthis (he ▸ List.mem_cons_self)
    have hmore : this ∉ l := fun hmem => hthis (List.mem_cons_of_mem y hmem)
    rw [List.append_cons] at hn ⊢
    rw [reverseLoop, hnode, if_pos hne, turned_snoc hx]
    exact ih hrest hn hmore turns (Nat.succ_lt_succ_iff.1 hturns)

theorem turned_keeps : t.Keeps (turned t nodes) nodes := fun _ hx => ⟨if_neg hx, if_neg hx⟩

theorem turned_closed (h : t.Closed (s :: l)) : (turned t (s :: l)).Closed (s :: l.reverse) :=
  h.flip.congr fun x hx => by
    have hmem : x ∈ s :: l := by simpa using hx
    exact ⟨if_pos hmem, if_pos hmem⟩

theorem reverse_eq (h : t.Closed (s :: l)) (turns : ℕ) (hturns : l.length < turns) :
    reverse turns t s = some (turned t (s :: l)) := by
  have hchain : (s :: (l ++ [s])).IsChain t.Joined := (Cycle.chain_coe_cons _ _ _).1 h.2
  have hloop := reverseLoop_eq hchain (h.1 : ([] ++ s :: l).Nodup) (List.nodup_cons.1 h.1).1 turns
    hturns
  rwa [turned_nil] at hloop

/-! ### A range moved -/

/-- The ring cut into three, and rebuilt. -/
theorem transfer_within (h : t.Closed (this :: l ++ first :: range ++ k)) :
    (transfer t this first (k.headD this)).Closed (this :: l ++ k ++ first :: range) := by
  cases k with
  | nil =>
    rw [List.append_nil] at h ⊢
    rw [List.headD_nil, transfer_self]
    exact h
  | cons last k =>
    obtain ⟨hn, -⟩ := id h
    obtain ⟨hnl, hnk, hkeep⟩ := List.nodup_append.1 hn
    obtain ⟨hnthis, hnrange, hmoved⟩ := List.nodup_append.1 hnl
    obtain ⟨a, e, b, z, hseg, hback, hlast, hthis⟩ :=
      h.cut (List.cons_ne_nil _ _) (List.cons_ne_nil _ _)
    obtain ⟨a₀, c, hfront, hrange, hfirst⟩ :=
      hseg.of_append (List.cons_ne_nil _ _) (List.cons_ne_nil _ _)
    obtain rfl : this = a := Option.some.inj hfront.head
    obtain rfl : first = c := Option.some.inj hrange.head
    obtain rfl : last = b := Option.some.inj hback.head
    have hrest : ∀ x ∈ first :: range, ∀ y ∈ last :: k, x ≠ y := fun x hx =>
      hkeep x (List.mem_append_right _ hx)
    have hends : ∀ x ∈ this :: l, ∀ y ∈ last :: k, x ≠ y := fun x hx =>
      hkeep x (List.mem_append_left _ hx)
    have hlists : ((this :: l) ++ (last :: k)).Nodup := List.nodup_append.2 ⟨hnthis, hnk, hends⟩
    have hall : ((this :: l) ++ (last :: k) ++ (first :: range)).Nodup :=
      List.nodup_append.2 ⟨hlists, hnrange, fun x hx y hy => (List.mem_append.1 hx).elim
        (fun hx => hmoved x hx y hy) fun hx he => hrest y hy x hx he.symm⟩
    show (transfer t this first last).Closed _
    rw [transfer_eq (hends _ hfront.head_mem _ hback.head_mem)
      (hmoved _ hfront.head_mem _ hrange.head_mem).symm, hlast.2, hfirst.2, hthis.2]
    -- The ends in the order in which they are joined.
    have hfront₁ := hfront.join (y := this) hnthis
      (fun he => absurd rfl (hmoved e he e hrange.last_mem)) fun _ => rfl
    have hrange₁ := hrange.join (y := this) hnrange (fun _ => rfl) fun ht =>
      absurd rfl (hmoved this hfront.head_mem this ht)
    have hback₁ := hback.join (x := e) (y := this) hnk
      (fun he => absurd rfl (hrest e hrange.last_mem e he))
      fun ht => absurd rfl (hends this hfront.head_mem this ht)
    have hlists₂ := hfront₁.append_join hback₁ hlists
    have hrange₂ := hrange₁.join (x := a₀) (y := last) hnrange
      (fun ha => absurd rfl (hmoved a₀ hfront.last_mem a₀ ha))
      fun hl => absurd rfl (hrest last hl last hback.head_mem)
    have hall₃ := hlists₂.append_join hrange₂ hall
    have hclose₃ := ((t.joined_join e this).join (hmoved a₀ hfront.last_mem e hrange.last_mem).symm
      (hends this hfront.head_mem last hback.head_mem)).join
      (hrest e hrange.last_mem z hback.last_mem) (hmoved this hfront.head_mem first hrange.head_mem)
    exact hall₃.closed hclose₃ hall

/-- A ring cut in two, of which one part is put on another. -/
theorem transfer_between (h : t.Closed (this :: l)) (h' : t.Closed (first :: range ++ last :: k))
    (hdisjoint : List.Disjoint (this :: l) (first :: range ++ last :: k)) :
    (transfer t this first last).Closed (this :: l ++ first :: range) ∧
      (transfer t this first last).Closed (last :: k) := by
  obtain ⟨hnrange, hnk, hrest⟩ := List.nodup_append.1 h'.1
  obtain ⟨a, z, hfront, hthis⟩ := h.seg (List.cons_ne_nil _ _)
  obtain ⟨c, e, b, a₀, hrange, hback, hlast, hfirst⟩ :=
    h'.cut (List.cons_ne_nil _ _) (List.cons_ne_nil _ _)
  obtain rfl : this = a := Option.some.inj hfront.head
  obtain rfl : first = c := Option.some.inj hrange.head
  obtain rfl : last = b := Option.some.inj hback.head
  have hmoved : ∀ x ∈ this :: l, ∀ y ∈ first :: range, x ≠ y := fun x hx y hy he =>
    hdisjoint hx (List.mem_append_left _ (he ▸ hy))
  have hends : ∀ x ∈ this :: l, ∀ y ∈ last :: k, x ≠ y := fun x hx y hy he =>
    hdisjoint hx (List.mem_append_right _ (he ▸ hy))
  have hall : ((this :: l) ++ (first :: range)).Nodup :=
    List.nodup_append.2 ⟨h.1, hnrange, hmoved⟩
  rw [transfer_eq (hends _ hfront.head_mem _ hback.head_mem)
    (hmoved _ hfront.head_mem _ hrange.head_mem).symm, hlast.2, hfirst.2, hthis.2]
  have hfront₁ := hfront.join (y := this) h.1
    (fun he => absurd rfl (hmoved e he e hrange.last_mem)) fun _ => rfl
  have hrange₁ := hrange.join (y := this) hnrange (fun _ => rfl) fun ht =>
    absurd rfl (hmoved this hfront.head_mem this ht)
  have hback₁ := hback.join (x := e) (y := this) hnk
    (fun he => absurd rfl (hrest e hrange.last_mem e he))
    fun ht => absurd rfl (hends this hfront.head_mem this ht)
  have hfront₂ := hfront₁.join (x := a₀) (y := last) h.1
    (fun ha => absurd rfl (hends a₀ ha a₀ hback.last_mem))
    fun hl => absurd rfl (hends last hl last hback.head_mem)
  have hrange₂ := hrange₁.join (x := a₀) (y := last) hnrange
    (fun ha => absurd rfl (hrest a₀ ha a₀ hback.last_mem))
    fun hl => absurd rfl (hrest last hl last hback.head_mem)
  have hback₂ := hback₁.close hnk
  have hclose₃ := ((t.joined_join e this).join (hrest e hrange.last_mem a₀ hback.last_mem)
    (hends this hfront.head_mem last hback.head_mem)).join
    (hmoved z hfront.last_mem e hrange.last_mem).symm
    (hmoved this hfront.head_mem first hrange.head_mem)
  refine ⟨(hfront₂.append_join hrange₂ hall).closed hclose₃ hall, ?_⟩
  have hkeeps : TwoWay.Keeps _ _ (this :: l ++ first :: range) :=
    TwoWay.keeps_join (t := ((t.join e this).join a₀ last))
      (List.mem_append_left _ hfront.last_mem) (List.mem_append_right _ hrange.head_mem)
  refine hkeeps.closed hback₂ fun x hx hmem => ?_
  rcases List.mem_append.1 hmem with hmem | hmem
  · exact hends x hmem x hx rfl
  · exact hrest x hmem x hx rfl

/-! ### Anywhere on a list -/

/-- A list read from a position on. What is put behind its end then is in front of the position. -/
theorem exists_rotation (h : t.Closed (s :: l)) (hposition : position ∈ s :: l) :
    ∃ l', t.Closed (position :: l') ∧ (position :: l').Perm (s :: l) ∧
      ∀ (t' : TwoWay Node) nodes, t'.Closed (position :: l' ++ nodes) →
        t'.Closed (s :: insertBefore position nodes l) := by
  obtain ⟨hs, hl⟩ := List.nodup_cons.1 h.1
  rcases List.mem_cons.1 hposition with rfl | hmem
  · refine ⟨l, h, .refl _, fun t' nodes h' => ?_⟩
    rw [insertBefore_of_not_mem hs]
    exact h'
  · obtain ⟨m, k, rfl⟩ := List.append_of_mem hmem
    have hm : position ∉ m := fun hm => (List.nodup_append.1 hl).2.2 _ hm _ List.mem_cons_self rfl
    refine ⟨k ++ s :: m, TwoWay.Closed.rotate (l := s :: m) h,
      (List.perm_append_comm : (position :: k ++ s :: m).Perm _), fun t' nodes h' => ?_⟩
    rw [insertBefore_append hm]
    rw [← List.cons_append, List.append_assoc] at h'
    exact TwoWay.Closed.rotate (l := position :: k) h'

theorem hook_list (h : t.Closed (s :: l)) (hposition : position ∈ s :: l) (hthis : this ∉ s :: l) :
    (hook t this position).Closed (s :: insertBefore position [this] l) := by
  obtain ⟨l', hring, hperm, hback⟩ := exists_rotation h hposition
  exact hback _ _ (hook_closed hring fun hmem => hthis (hperm.mem_iff.1 hmem))

theorem hook_keeps (h : t.Closed (s :: l)) (hposition : position ∈ s :: l)
    (hthis : this ∉ s :: l) : t.Keeps (hook t this position) (this :: s :: l) := by
  have hprev := h.prev_mem hposition
  rw [hook_eq (ne_of_mem_of_not_mem hposition hthis) (ne_of_mem_of_not_mem hprev hthis)]
  exact (TwoWay.keeps_join (List.mem_cons_of_mem _ hprev) List.mem_cons_self).trans
    (TwoWay.keeps_join List.mem_cons_self (List.mem_cons_of_mem _ hposition))

theorem unhook_list (h : t.Closed (s :: l)) (hthis : this ∈ l) :
    (unhook t this).Closed (s :: l.erase this) := by
  obtain ⟨m, k, rfl⟩ := List.append_of_mem hthis
  have hl := (List.nodup_cons.1 h.1).2
  have hm : this ∉ m := fun hm => (List.nodup_append.1 hl).2.2 _ hm _ List.mem_cons_self rfl
  have hring : t.Closed (this :: (k ++ s :: m)) := TwoWay.Closed.rotate (l := s :: m) h
  rw [List.erase_append_right _ hm, List.erase_cons_head]
  exact (unhook_closed hring (by simp)).rotate

theorem unhook_keeps (h : t.Closed (s :: l)) (hthis : this ∈ s :: l) :
    t.Keeps (unhook t this) (s :: l) :=
  TwoWay.keeps_join (h.prev_mem hthis) (h.next_mem hthis)

theorem transfer_within_list (h : t.Closed (s :: (m ++ first :: range ++ k)))
    (hthis : this ∈ s :: (m ++ k)) :
    (transfer t this first (k.headD s)).Closed
      (s :: insertBefore this (first :: range) (m ++ k)) := by
  have hn := h.1
  rcases List.mem_cons.1 hthis with rfl | hmem
  · have hs : this ∉ m ++ k := fun hmem => (List.nodup_cons.1 hn).1 (by
      simp only [List.mem_append] at hmem ⊢
      tauto)
    rw [insertBefore_of_not_mem hs]
    exact transfer_within h
  · have hlists : (m ++ k).Nodup := (List.nodup_cons.1 hn).2.sublist
      ((List.sublist_append_left m _).append_right k)
    rcases List.mem_append.1 hmem with hmem | hmem
    · -- The position in front of the range: the sentinel is behind what follows the range.
      obtain ⟨m, m', rfl⟩ := List.append_of_mem hmem
      have hfresh : this ∉ m := fun hm => (List.nodup_append.1
        (List.nodup_append.1 hlists).1).2.2 _ hm _ List.mem_cons_self rfl
      have hring : t.Closed (this :: m' ++ first :: range ++ (k ++ s :: m)) := by
        simpa using TwoWay.Closed.rotate (l := s :: m) (m := this :: m' ++ first :: range ++ k)
          (by simpa using h)
      have hmoved := transfer_within hring
      have hlast : (k ++ s :: m).headD this = k.headD s := by cases k <;> rfl
      rw [hlast] at hmoved
      rw [List.append_assoc, List.cons_append, insertBefore_append hfresh]
      simpa using TwoWay.Closed.rotate (l := this :: m' ++ k)
        (m := s :: m ++ first :: range) (by simpa using hmoved)
    · -- The position behind the range: the sentinel is in front of what the range follows.
      obtain ⟨k, k', rfl⟩ := List.append_of_mem hmem
      have hfresh : this ∉ m ++ k := by
        rw [← List.append_assoc] at hlists
        exact fun hm => (List.nodup_append.1 hlists).2.2 _ hm _ List.mem_cons_self rfl
      have hring : t.Closed (this :: (k' ++ s :: m) ++ first :: range ++ k) := by
        simpa using TwoWay.Closed.rotate (l := s :: m ++ first :: range ++ k) (m := this :: k')
          (by simpa using h)
      have hmoved := transfer_within hring
      have hlast : (k ++ this :: k').headD s = k.headD this := by cases k <;> rfl
      rw [hlast, ← List.append_assoc, insertBefore_append hfresh]
      simpa using TwoWay.Closed.rotate (l := this :: k')
        (m := s :: m ++ k ++ first :: range) (by simpa using hmoved)

theorem transfer_between_list (h : t.Closed (s :: l))
    (h' : t.Closed (s' :: (m ++ first :: range ++ k)))
    (hdisjoint : List.Disjoint (s :: l) (s' :: (m ++ first :: range ++ k)))
    (hthis : this ∈ s :: l) :
    (transfer t this first (k.headD s')).Closed (s :: insertBefore this (first :: range) l) ∧
      (transfer t this first (k.headD s')).Closed (s' :: (m ++ k)) := by
  obtain ⟨l', hring, hperm, hback⟩ := exists_rotation h hthis
  have hother : t.Closed (first :: range ++ (k ++ s' :: m)) := by
    simpa using TwoWay.Closed.rotate (l := s' :: m) (m := first :: range ++ k) (by simpa using h')
  have hapart : List.Disjoint (this :: l') (first :: range ++ (k ++ s' :: m)) := by
    intro x hx hmem
    refine hdisjoint (hperm.mem_iff.1 hx) ?_
    simp only [List.mem_append, List.mem_cons] at hmem ⊢
    tauto
  obtain ⟨last, k', hk⟩ : ∃ last k', k ++ s' :: m = last :: k' :=
    List.exists_cons_of_ne_nil (by simp)
  have hlast : k.headD s' = last := by
    cases k with
    | nil => exact (List.cons.inj hk).1
    | cons y k => exact (List.cons.inj hk).1
  rw [hk] at hother hapart
  obtain ⟨hmoved, hleft⟩ := transfer_between hring hother hapart
  rw [hlast]
  rw [← hk] at hleft
  exact ⟨hback _ _ hmoved, hleft.rotate⟩

theorem transfer_keeps (hfirst : first ≠ this)
    (h : ∀ x ∈ [this, first, last], x ∈ nodes ∧ t.prev x ∈ nodes) :
    t.Keeps (transfer t this first last) nodes := by
  rcases eq_or_ne this last with rfl | hne
  · rw [transfer_self]
    exact .refl _ _
  · rw [transfer_eq hne hfirst]
    exact ((TwoWay.keeps_join (h last (by simp)).2 (h this (by simp)).1).trans
      (TwoWay.keeps_join (h first (by simp)).2 (h last (by simp)).1)).trans
      (TwoWay.keeps_join (h this (by simp)).2 (h first (by simp)).1)

/-! ### The operations of a list -/

/-- The four operations on the lists they are used on: which nodes are on the lists behind them, in
which order, and that no other list is touched. A range `first :: range` ends in front of the head
of `k`, or of the sentinel if `k` is empty. -/
theorem list_exact :
    (∀ (t : TwoWay Node) s l position this, t.Closed (s :: l) → position ∈ s :: l →
      this ∉ s :: l →
      (hook t this position).Closed (s :: insertBefore position [this] l) ∧
        t.Keeps (hook t this position) (this :: s :: l)) ∧
    (∀ (t : TwoWay Node) s l this, t.Closed (s :: l) → this ∈ l →
      (unhook t this).Closed (s :: l.erase this) ∧ t.Keeps (unhook t this) (s :: l)) ∧
    (∀ (t : TwoWay Node) s l turns, t.Closed (s :: l) → l.length < turns →
      ∃ t', reverse turns t s = some t' ∧ t'.Closed (s :: l.reverse) ∧ t.Keeps t' (s :: l)) ∧
    (∀ (t : TwoWay Node) s m first range k this, t.Closed (s :: (m ++ first :: range ++ k)) →
      this ∈ s :: (m ++ k) →
      (transfer t this first (k.headD s)).Closed
          (s :: insertBefore this (first :: range) (m ++ k)) ∧
        t.Keeps (transfer t this first (k.headD s)) (s :: (m ++ first :: range ++ k))) ∧
    (∀ (t : TwoWay Node) s l s' m first range k this, t.Closed (s :: l) →
      t.Closed (s' :: (m ++ first :: range ++ k)) →
      List.Disjoint (s :: l) (s' :: (m ++ first :: range ++ k)) → this ∈ s :: l →
      (transfer t this first (k.headD s')).Closed (s :: insertBefore this (first :: range) l) ∧
        (transfer t this first (k.headD s')).Closed (s' :: (m ++ k)) ∧
        t.Keeps (transfer t this first (k.headD s'))
          (s :: l ++ s' :: (m ++ first :: range ++ k))) ∧
    ∀ (t : TwoWay Node) s l, t.Closed (s :: l) → t.Walks s l := by
  refine ⟨fun t s l position this h hposition hthis =>
      ⟨hook_list h hposition hthis, hook_keeps h hposition hthis⟩,
    fun t s l this h hthis =>
      ⟨unhook_list h hthis, unhook_keeps h (List.mem_cons_of_mem s hthis)⟩,
    fun t s l turns h hturns => ⟨_, reverse_eq h turns hturns, turned_closed h, turned_keeps⟩,
    fun t s m first range k this h hthis => ⟨transfer_within_list h hthis, ?_⟩,
    fun t s l s' m first range k this h h' hdisjoint hthis => ?_,
    fun t s l h => h.walks⟩
  · have hmem : ∀ x ∈ [this, first, k.headD s], x ∈ s :: (m ++ first :: range ++ k) := by
      have hthis : this ∈ s :: (m ++ first :: range ++ k) := by
        simp only [List.mem_append, List.mem_cons] at hthis ⊢
        tauto
      have hlast : k.headD s ∈ s :: (m ++ first :: range ++ k) := by
        cases k <;> simp
      simpa using ⟨by simpa using hthis, by simpa using hlast⟩
    have hfirst : first ≠ this := by
      rintro rfl
      have hn := h.1
      simp only [List.mem_append, List.mem_cons] at hthis
      simp only [List.nodup_cons, List.nodup_append, List.mem_append, List.mem_cons] at hn
      grind
    exact transfer_keeps hfirst fun x hx => ⟨hmem x hx, h.prev_mem (hmem x hx)⟩
  · obtain ⟨hmoved, hleft⟩ := transfer_between_list h h' hdisjoint hthis
    have hfirst : first ∈ s' :: (m ++ first :: range ++ k) := by simp
    have hlast : k.headD s' ∈ s' :: (m ++ first :: range ++ k) := by cases k <;> simp
    refine ⟨hmoved, hleft, transfer_keeps (fun he => hdisjoint hthis (he ▸ hfirst)) ?_⟩
    rintro x hx
    rcases List.mem_cons.1 hx with rfl | hx
    · exact ⟨List.mem_append_left _ hthis, List.mem_append_left _ (h.prev_mem hthis)⟩
    · have hmem : x ∈ s' :: (m ++ first :: range ++ k) := by
        rcases List.mem_cons.1 hx with rfl | hx
        · exact hfirst
        · exact List.mem_singleton.1 hx ▸ hlast
      exact ⟨List.mem_append_right _ hmem, List.mem_append_right _ (h'.prev_mem hmem)⟩

/-- Three nodes behind a sentinel, one behind another, and one on no list. -/
def twoLists : TwoWay ℕ :=
  ⟨fun x => [1, 2, 3, 0, 5, 4].getD x x, fun x => [3, 0, 1, 2, 5, 4].getD x x⟩

theorem closed_twoLists : twoLists.Closed [0, 1, 2, 3] ∧ twoLists.Closed [4, 5] := by
  have hlinks : List.IsChain (fun x y => twoLists.next x = y ∧ twoLists.prev y = x)
      [0, 1, 2, 3, 0] := by decide
  have hlinks' : List.IsChain (fun x y => twoLists.next x = y ∧ twoLists.prev y = x)
      [4, 5, 4] := by decide
  exact ⟨⟨by decide, (Cycle.chain_coe_cons _ _ _).2 hlinks⟩,
    ⟨by decide, (Cycle.chain_coe_cons _ _ _).2 hlinks'⟩⟩

/-- The node put on the first list in front of its second node, that one taken off, the list read
the other way round, and its first two nodes moved to the end of the second list. -/
theorem list_exact_two :
    (hook twoLists 6 2).Closed [0, 1, 6, 2, 3] ∧ (unhook twoLists 2).Closed [0, 1, 3] ∧
      (∃ t', reverse 4 twoLists 0 = some t' ∧ t'.Closed [0, 3, 2, 1]) ∧
      (transfer twoLists 4 1 3).Closed [4, 5, 1, 2] ∧ (transfer twoLists 4 1 3).Closed [0, 3] := by
  obtain ⟨hfirst, hsecond⟩ := closed_twoLists
  obtain ⟨hhook, hunhook, hreverse, -, htransfer, -⟩ := @list_exact ℕ _
  have hdisjoint : ∀ x ∈ [4, 5], x ∉ [0, 1, 2, 3] := by decide
  obtain ⟨t', hrun, hreversed, -⟩ := hreverse _ _ _ 4 hfirst (by decide)
  obtain ⟨hmoved, hleft, -⟩ := htransfer _ 4 [5] 0 [] 1 [2] [3] 4 hsecond hfirst
    (fun x => hdisjoint x) (by decide)
  exact ⟨(hhook _ _ _ 2 6 hfirst (by decide) (by decide)).1,
    (hunhook _ _ _ 2 hfirst (by decide)).1, ⟨t', hrun, hreversed⟩, hmoved, hleft⟩

end ListNode

end StarOS
