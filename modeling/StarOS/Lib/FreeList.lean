import Mathlib.Algebra.Group.Nat.Defs
import Mathlib.Algebra.Order.Group.Nat
import Mathlib.Algebra.BigOperators.Group.List.Basic
import Mathlib.Data.Finset.Card
import Mathlib.Data.List.Pairwise
import Mathlib.Order.Interval.Finset.Nat
import Mathlib.Tactic.Common

/-!
# Address-ordered free lists

A region of memory is divided into blocks that are free and blocks that are taken. The free ones
stand in a list in the order of their addresses, and no two of them touch: where they would, they
are one block. This file is about such lists, whatever walks them and wherever they are kept.

## Main definitions

* `Block` — consecutive addresses
* `Spaced` — a list of blocks in order, with a gap between any two
* `Block.glue` — a block and what follows it, made one if they touch
* `Arena` — a region divided into free and taken blocks

## Main results

* `Arena.carve` — taking part of a free block
* `Arena.give` — giving a taken block back
* `Arena.whole` — with nothing taken, the region is the one free block
-/

/-- Consecutive addresses: the first, and how many. -/
structure Block where
  addr : ℕ
  size : ℕ
  deriving DecidableEq, Repr

namespace Block

variable {b c h n : Block} {l l₁ l₂ : List Block} {x : ℕ}

/-- The first address past a block. -/
def limit (b : Block) : ℕ := b.addr + b.size

instance : Membership ℕ Block := ⟨fun b x => b.addr ≤ x ∧ x < b.limit⟩

theorem mem_iff : x ∈ b ↔ b.addr ≤ x ∧ x < b.limit := Iff.rfl

instance : Decidable (x ∈ b) := inferInstanceAs (Decidable (b.addr ≤ x ∧ x < b.limit))

/-- The block, its addresses counted from somewhere else. -/
def shift (o : ℕ) (b : Block) : Block := ⟨o + b.addr, b.size⟩

theorem mem_shift {o : ℕ} : x ∈ b.shift o ↔ o ≤ x ∧ x - o ∈ b := by
  simp only [mem_iff, shift, limit]
  omega

/-- No address is in both. -/
def Disjoint (b c : Block) : Prop := ∀ x, x ∈ b → x ∉ c

theorem Disjoint.symm (h : b.Disjoint c) : c.Disjoint b := fun x hc hb => h x hb hc

instance : Std.Symm Disjoint := ⟨fun _ _ => Disjoint.symm⟩

/-- One ends before the other starts. -/
theorem disjoint_iff (hb : 0 < b.size) (hc : 0 < c.size) :
    b.Disjoint c ↔ b.limit ≤ c.addr ∨ c.limit ≤ b.addr := by
  constructor
  · intro h
    by_contra hne
    have hx := h (max b.addr c.addr)
    simp only [mem_iff, limit] at hx hne
    omega
  · intro h x hxb hxc
    simp only [mem_iff] at hxb hxc
    omega

/-- All the addresses of a list of blocks. -/
def Cover (l : List Block) (x : ℕ) : Prop := ∃ b ∈ l, x ∈ b

@[simp] theorem cover_nil : ¬ Cover [] x := by simp [Cover]

@[simp] theorem cover_cons : Cover (b :: l) x ↔ x ∈ b ∨ Cover l x := by simp [Cover]

@[simp] theorem cover_append : Cover (l₁ ++ l₂) x ↔ Cover l₁ x ∨ Cover l₂ x := by
  simp [Cover, or_and_right, exists_or]

/-- How much room a list of blocks has. -/
def room : List Block → ℕ
  | [] => 0
  | b :: l => b.size + room l

@[simp] theorem room_nil : room [] = 0 := rfl

@[simp] theorem room_cons : room (b :: l) = b.size + room l := rfl

@[simp] theorem room_append : room (l₁ ++ l₂) = room l₁ + room l₂ := by
  induction l₁ with
  | nil => simp
  | cons b l₁ ih => rw [List.cons_append, room_cons, room_cons, ih, Nat.add_assoc]

theorem room_perm (h : l₁.Perm l₂) : room l₁ = room l₂ := by
  induction h with
  | nil => rfl
  | cons b _ ih => rw [room_cons, room_cons, ih]
  | swap a b l => rw [room_cons, room_cons, room_cons, room_cons, Nat.add_left_comm]
  | trans _ _ ih₁ ih₂ => rw [ih₁, ih₂]

/-! ### Blocks apart -/

variable {m m' : List Block}

/-- Some of the blocks give their addresses to others. -/
theorem pairwise_regroup (h : (l₁ ++ m ++ l₂).Pairwise Disjoint) (hm : m'.Pairwise Disjoint)
    (hcover : ∀ x, Cover m' x → Cover m x) : (l₁ ++ m' ++ l₂).Pairwise Disjoint := by
  obtain ⟨h₁, h₂, h₁₂⟩ := List.pairwise_append.mp h
  obtain ⟨h₁, -, h₁m⟩ := List.pairwise_append.mp h₁
  refine List.pairwise_append.mpr ⟨List.pairwise_append.mpr ⟨h₁, hm, fun b hb c hc x hx hxc => ?_⟩,
    h₂, fun b hb c hc => ?_⟩
  · obtain ⟨d, hd, hxd⟩ := hcover x ⟨c, hc, hxc⟩
    exact h₁m b hb d hd x hx hxd
  · obtain hb | hb := List.mem_append.mp hb
    · exact h₁₂ b (List.mem_append_left _ hb) c hc
    · intro x hx hxc
      obtain ⟨d, hd, hxd⟩ := hcover x ⟨b, hb, hx⟩
      exact h₁₂ d (List.mem_append_right _ hd) c hc x hxd hxc

/-- Blocks that share no address have no more room than there are addresses. -/
theorem room_le (h : l.Pairwise Disjoint) {top : ℕ} (htop : ∀ b ∈ l, b.limit ≤ top) :
    room l ≤ top := by
  suffices hcard : ∃ s : Finset ℕ, s.card = room l ∧ ∀ x, x ∈ s ↔ Cover l x by
    obtain ⟨s, hcard, hs⟩ := hcard
    rw [← hcard, ← Finset.card_range top]
    refine Finset.card_le_card fun x hx => ?_
    obtain ⟨b, hb, hxb⟩ := (hs x).mp hx
    exact Finset.mem_range.mpr (hxb.2.trans_le (htop b hb))
  clear htop
  induction l with
  | nil => exact ⟨∅, rfl, by simp⟩
  | cons b l ih =>
    obtain ⟨hb, hl⟩ := List.pairwise_cons.mp h
    obtain ⟨s, hcard, hs⟩ := ih hl
    refine ⟨Finset.Ico b.addr b.limit ∪ s, ?_, fun x => ?_⟩
    · have hapart : ∀ ⦃x⦄, x ∈ Finset.Ico b.addr b.limit → x ∉ s := by
        intro x hx hxs
        obtain ⟨c, hc, hxc⟩ := (hs x).mp hxs
        exact hb c hc x (by simpa [mem_iff] using hx) hxc
      rw [Finset.card_union_of_disjoint (Finset.disjoint_left.mpr hapart), Nat.card_Ico, hcard,
        room_cons, limit, Nat.add_sub_cancel_left]
    · rw [Finset.mem_union, Finset.mem_Ico, hs, cover_cons, mem_iff]

/-! ### Lists in order -/

/-- In the order of addresses, no two touching, and none empty. -/
structure Spaced (l : List Block) : Prop where
  apart : l.Pairwise fun b c => b.limit < c.addr
  pos : ∀ b ∈ l, 0 < b.size

theorem spaced_append : Spaced (l₁ ++ l₂) ↔
    Spaced l₁ ∧ Spaced l₂ ∧ ∀ b ∈ l₁, ∀ c ∈ l₂, b.limit < c.addr := by
  constructor
  · rintro ⟨h, hpos⟩
    obtain ⟨h₁, h₂, h₁₂⟩ := List.pairwise_append.mp h
    exact ⟨⟨h₁, fun b hb => hpos b (List.mem_append_left _ hb)⟩,
      ⟨h₂, fun b hb => hpos b (List.mem_append_right _ hb)⟩, h₁₂⟩
  · rintro ⟨⟨h₁, p₁⟩, ⟨h₂, p₂⟩, h₁₂⟩
    refine ⟨List.pairwise_append.mpr ⟨h₁, h₂, h₁₂⟩, fun b hb => ?_⟩
    exact (List.mem_append.mp hb).elim (p₁ b) (p₂ b)

theorem spaced_cons : Spaced (b :: l) ↔
    0 < b.size ∧ (∀ c ∈ l, b.limit < c.addr) ∧ Spaced l := by
  constructor
  · rintro ⟨h, hpos⟩
    obtain ⟨hb, hl⟩ := List.pairwise_cons.mp h
    exact ⟨hpos b List.mem_cons_self, hb, hl, fun c hc => hpos c (List.mem_cons_of_mem _ hc)⟩
  · rintro ⟨hb, hlt, hl, hpos⟩
    refine ⟨List.pairwise_cons.mpr ⟨hlt, hl⟩, fun c hc => ?_⟩
    obtain rfl | hc := List.mem_cons.mp hc
    · exact hb
    · exact hpos c hc

theorem spaced_nil : Spaced [] := ⟨.nil, fun _ h => absurd h List.not_mem_nil⟩

/-- A block between two lists leaves them in order if it lies within a block that did. -/
theorem Spaced.replace {ps : List Block} (h : Spaced (l₁ ++ b :: l₂)) (hps : Spaced ps)
    (hin : ∀ p ∈ ps, b.addr ≤ p.addr ∧ p.limit ≤ b.limit) : Spaced (l₁ ++ (ps ++ l₂)) := by
  obtain ⟨h₁, h₂, h₁₂⟩ := spaced_append.mp h
  obtain ⟨-, hb, h₂⟩ := spaced_cons.mp h₂
  refine spaced_append.mpr ⟨h₁, spaced_append.mpr ⟨hps, h₂, fun p hp c hc => ?_⟩, fun a ha c hc => ?_⟩
  · exact (hin p hp).2.trans_lt (hb c hc)
  · obtain hc | hc := List.mem_append.mp hc
    · exact (h₁₂ a ha b List.mem_cons_self).trans_le (hin c hc).1
    · exact h₁₂ a ha c (List.mem_cons_of_mem _ hc)

/-! ### Cutting -/

/-- What is left of a block in front of another and behind it. -/
def without (h b : Block) : List Block :=
  (if h.addr < b.addr then [⟨h.addr, b.addr - h.addr⟩] else []) ++
    if b.limit < h.limit then [⟨b.limit, h.limit - b.limit⟩] else []

theorem mem_without (hc : c ∈ h.without b) :
    c = ⟨h.addr, b.addr - h.addr⟩ ∧ h.addr < b.addr ∨
      c = ⟨b.limit, h.limit - b.limit⟩ ∧ b.limit < h.limit := by
  obtain hc | hc := List.mem_append.mp hc
  · exact .inl (by split at hc <;> simp_all)
  · exact .inr (by split at hc <;> simp_all)

section Without

variable (hin : h.addr ≤ b.addr ∧ b.limit ≤ h.limit)

theorem cover_front_tail (l₁ l₂ : List Block) (p q : Prop) [Decidable p] [Decidable q] :
    Cover ((if p then l₁ else []) ++ if q then l₂ else []) x ↔
      p ∧ Cover l₁ x ∨ q ∧ Cover l₂ x := by
  rw [cover_append]
  split <;> split <;> simp_all

include hin

theorem cover_without : x ∈ h ↔ x ∈ b ∨ Cover (h.without b) x := by
  rw [without, cover_front_tail]
  simp only [cover_cons, cover_nil, or_false, mem_iff, limit] at hin ⊢
  omega

theorem room_without : b.size + room (h.without b) = h.size := by
  have hroom : ∀ (p : Prop) [Decidable p] (c : Block),
      room (if p then [c] else []) = if p then c.size else 0 := by
    intro p _ c
    split <;> simp
  rw [without, room_append, hroom, hroom]
  have htail : (if b.limit < h.limit then h.limit - b.limit else 0) = h.limit - b.limit := by
    split <;> omega
  have hfront : (if h.addr < b.addr then b.addr - h.addr else 0) = b.addr - h.addr := by
    split <;> omega
  rw [htail, hfront]
  simp only [limit] at hin ⊢
  omega

theorem within_without (hc : c ∈ h.without b) : h.addr ≤ c.addr ∧ c.limit ≤ h.limit := by
  obtain ⟨rfl, hlt⟩ | ⟨rfl, hlt⟩ := mem_without hc
  · simp only [limit] at hin ⊢
    omega
  · simp only [limit] at hin hlt ⊢
    omega

omit hin in
theorem disjoint_without (hc : c ∈ h.without b) : b.Disjoint c := by
  intro x hx hxc
  obtain ⟨rfl, hlt⟩ | ⟨rfl, hlt⟩ := mem_without hc
  · simp only [mem_iff, limit] at hx hxc
    omega
  · simp only [mem_iff, limit] at hx hxc
    omega

omit hin in
theorem spaced_without (hb : 0 < b.size) : Spaced (h.without b) := by
  constructor
  · rw [without]
    split <;> split <;> simp [limit]
    omega
  · intro c hc
    obtain ⟨rfl, hlt⟩ | ⟨rfl, hlt⟩ := mem_without hc <;> exact Nat.sub_pos_of_lt hlt

end Without

/-! ### Gluing -/

/-- A block and what follows it, made one if they touch. -/
def glue (b : Block) : List Block → List Block
  | [] => [b]
  | n :: l => if b.limit = n.addr then ⟨b.addr, b.size + n.size⟩ :: l else b :: n :: l

theorem cover_glue (b : Block) (l : List Block) : Cover (b.glue l) x ↔ x ∈ b ∨ Cover l x := by
  cases l with
  | nil => simp [glue]
  | cons n l =>
    rw [glue]
    split
    · next h =>
      have hglue : x ∈ (⟨b.addr, b.size + n.size⟩ : Block) ↔ x ∈ b ∨ x ∈ n := by
        simp only [mem_iff, limit] at h ⊢
        omega
      rw [cover_cons, cover_cons, hglue, or_assoc]
    · simp

theorem room_glue (b : Block) (l : List Block) : room (b.glue l) = b.size + room l := by
  cases l with
  | nil => simp [glue]
  | cons n l =>
    rw [glue]
    split <;> simp [Nat.add_assoc]

/-- Every block of the result starts where one was. -/
theorem addr_glue (h : c ∈ b.glue l) : c.addr = b.addr ∨ ∃ n ∈ l, c.addr = n.addr := by
  cases l with
  | nil => exact .inl (by rw [List.mem_singleton.mp h])
  | cons n l =>
    rw [glue] at h
    split at h
    · obtain rfl | h := List.mem_cons.mp h
      · exact .inl rfl
      · exact .inr ⟨c, List.mem_cons_of_mem _ h, rfl⟩
    · obtain rfl | h := List.mem_cons.mp h
      · exact .inl rfl
      · exact .inr ⟨c, h, rfl⟩

/-- Any property of addresses and sizes that adds up passes to the result. -/
theorem forall_glue {P : Block → Prop} (hb : P b) (hl : ∀ n ∈ l, P n)
    (hadd : ∀ n ∈ l, P ⟨b.addr, b.size + n.size⟩) : ∀ c ∈ b.glue l, P c := by
  cases l with
  | nil => simpa [glue] using hb
  | cons n l =>
    intro c hc
    rw [glue] at hc
    split at hc
    · obtain rfl | hc := List.mem_cons.mp hc
      · exact hadd n List.mem_cons_self
      · exact hl c (List.mem_cons_of_mem _ hc)
    · obtain rfl | hc := List.mem_cons.mp hc
      · exact hb
      · exact hl c hc

/-- What may touch is made to be apart. -/
theorem spaced_glue (hb : 0 < b.size) (hle : ∀ n ∈ l, b.limit ≤ n.addr) (hl : Spaced l) :
    Spaced (b.glue l) := by
  cases l with
  | nil => exact spaced_cons.mpr ⟨hb, fun _ h => absurd h List.not_mem_nil, spaced_nil⟩
  | cons n l =>
    obtain ⟨hn, hlt, hl'⟩ := spaced_cons.mp hl
    rw [glue]
    split
    · next h =>
      refine spaced_cons.mpr ⟨Nat.add_pos_left hb _, fun c hc => ?_, hl'⟩
      have hc := hlt c hc
      simp only [limit] at h hc ⊢
      omega
    · next h =>
      refine spaced_cons.mpr ⟨hb, fun c hc => ?_, hl⟩
      obtain rfl | hc := List.mem_cons.mp hc
      · exact Nat.lt_of_le_of_ne (hle c List.mem_cons_self) h
      · have hn := hle n List.mem_cons_self
        have hc := hlt c hc
        simp only [limit] at hn hc ⊢
        omega

end Block

open Block

variable {r b h : Block} {free taken l₁ l₂ : List Block}

/-! ### Arenas -/

/-- The region `r` is divided into the free blocks and the taken ones. -/
structure Arena (r : Block) (free taken : List Block) : Prop where
  spaced : Spaced free
  pos : ∀ b ∈ taken, 0 < b.size
  apart : taken.Pairwise Block.Disjoint
  separate : ∀ b ∈ taken, ∀ h ∈ free, b.Disjoint h
  cover : ∀ x, x ∈ r ↔ Cover free x ∨ Cover taken x
  account : room taken + room free = r.size

namespace Arena

/-- A region nothing is taken of. -/
theorem init (hr : 0 < r.size) : Arena r [r] [] where
  spaced := spaced_cons.mpr ⟨hr, fun _ h => absurd h List.not_mem_nil, spaced_nil⟩
  pos := by simp
  apart := .nil
  separate := by simp
  cover x := by simp
  account := by simp

theorem subset_of_mem_free (a : Arena r free taken) (hh : h ∈ free) :
    r.addr ≤ h.addr ∧ h.limit ≤ r.limit := by
  have hpos := a.spaced.pos h hh
  have h₁ := (a.cover h.addr).mpr (.inl ⟨h, hh, by rw [mem_iff, limit]; omega⟩)
  have h₂ := (a.cover (h.limit - 1)).mpr (.inl ⟨h, hh, by rw [mem_iff, limit]; omega⟩)
  simp only [mem_iff, limit] at h₁ h₂ ⊢
  omega

/-- A taken block lies wholly on one side of a free one. -/
theorem side (a : Arena r free taken) (hb : b ∈ taken) (hh : h ∈ free) :
    b.limit ≤ h.addr ∨ h.limit ≤ b.addr :=
  (disjoint_iff (a.pos b hb) (a.spaced.pos h hh)).mp (a.separate b hb h hh)

/-- **Part of a free block is taken**, and what is left of it on either side stays free. -/
theorem carve (a : Arena r (l₁ ++ h :: l₂) taken) (hb : 0 < b.size)
    (hin : h.addr ≤ b.addr ∧ b.limit ≤ h.limit) :
    Arena r (l₁ ++ (h.without b ++ l₂)) (b :: taken) := by
  have hmem : h ∈ l₁ ++ h :: l₂ := List.mem_append_right _ List.mem_cons_self
  have hcover : ∀ x, x ∈ h ↔ x ∈ b ∨ Cover (h.without b) x := fun x => cover_without hin
  have hsub : ∀ p ∈ h.without b, ∀ x ∈ p, x ∈ h :=
    fun p hp x hx => (hcover x).mpr (.inr ⟨p, hp, hx⟩)
  have hbh : ∀ x ∈ b, x ∈ h := fun x hx => (hcover x).mpr (.inl hx)
  have hrest : ∀ c ∈ l₁ ++ l₂, c ∈ l₁ ++ h :: l₂ := by
    intro c hc
    obtain hc | hc := List.mem_append.mp hc
    · exact List.mem_append_left _ hc
    · exact List.mem_append_right _ (List.mem_cons_of_mem _ hc)
  -- the other free blocks keep clear of the one that is carved
  have hother : ∀ c ∈ l₁ ++ l₂, h.Disjoint c := by
    intro c hc
    refine (disjoint_iff (a.spaced.pos h hmem) (a.spaced.pos c (hrest c hc))).mpr ?_
    obtain ⟨-, h₂, h₁₂⟩ := spaced_append.mp a.spaced
    obtain hc | hc := List.mem_append.mp hc
    · exact .inr (h₁₂ c hc h List.mem_cons_self).le
    · exact .inl ((spaced_cons.mp h₂).2.1 c hc).le
  constructor
  · exact a.spaced.replace (spaced_without hb) fun p hp => within_without hin hp
  · intro c hc
    obtain rfl | hc := List.mem_cons.mp hc
    · exact hb
    · exact a.pos c hc
  · refine List.pairwise_cons.mpr ⟨fun c hc x hxb hxc => ?_, a.apart⟩
    exact a.separate c hc h hmem x hxc (hbh x hxb)
  · have key : ∀ c, c.Disjoint h ∨ c = b → (∀ d ∈ l₁ ++ l₂, c.Disjoint d) →
        ∀ p ∈ l₁ ++ (h.without b ++ l₂), c.Disjoint p := by
      intro c hc hcd p hp
      obtain hp | hp := List.mem_append.mp hp
      · exact hcd p (List.mem_append_left _ hp)
      · obtain hp | hp := List.mem_append.mp hp
        · obtain hc | rfl := hc
          · exact fun x hx hxp => hc x hx (hsub p hp x hxp)
          · exact disjoint_without hp
        · exact hcd p (List.mem_append_right _ hp)
    intro c hc
    obtain rfl | hc := List.mem_cons.mp hc
    · exact key c (.inr rfl) fun d hd x hx => hother d hd x (hbh x hx)
    · exact key c (.inl (a.separate c hc h hmem)) fun d hd => a.separate c hc d (hrest d hd)
  · intro x
    rw [a.cover x, cover_append, cover_cons, hcover x, cover_append, cover_append, cover_cons]
    tauto
  · have hacc := a.account
    have hroom := room_without hin
    simp only [room_append, room_cons] at hacc ⊢
    omega

/-- **A taken block is given back** between the free blocks below it and those above. -/
theorem give (a : Arena r (l₁ ++ l₂) (b :: taken)) (h₁ : ∀ c ∈ l₁, c.addr ≤ b.addr)
    (h₂ : ∀ c ∈ l₂, b.addr ≤ c.addr) {l : List Block}
    (hl : l₁ = [] ∧ l = b.glue l₂ ∨ ∃ l₀ p, l₁ = l₀ ++ [p] ∧ l = l₀ ++ p.glue (b.glue l₂)) :
    Arena r l taken := by
  have hb : 0 < b.size := a.pos b List.mem_cons_self
  have hside := fun c hc => a.side (b := b) List.mem_cons_self (h := c) hc
  obtain ⟨hs₁, hs₂, hs₁₂⟩ := spaced_append.mp a.spaced
  -- the block lies strictly between its neighbours, or touches them
  have hlow : ∀ c ∈ l₁, c.limit ≤ b.addr := by
    intro c hc
    have h := hside c (List.mem_append_left _ hc)
    have hle := h₁ c hc
    simp only [limit] at h ⊢
    omega
  have hhigh : ∀ c ∈ l₂, b.limit ≤ c.addr := by
    intro c hc
    have h := hside c (List.mem_append_right _ hc)
    have hle := h₂ c hc
    have hpos := hs₂.pos c hc
    simp only [limit] at h ⊢
    omega
  have hglue : Spaced (b.glue l₂) := spaced_glue hb hhigh hs₂
  have hcover : ∀ x, Cover l x ↔ x ∈ b ∨ Cover (l₁ ++ l₂) x := by
    intro x
    obtain ⟨rfl, rfl⟩ | ⟨l₀, p, rfl, rfl⟩ := hl
    · rw [cover_glue, List.nil_append]
    · rw [cover_append, cover_glue, cover_glue, cover_append, cover_append, cover_cons]
      simp only [cover_nil, or_false]
      tauto
  have hroom : room l = b.size + room (l₁ ++ l₂) := by
    obtain ⟨rfl, rfl⟩ | ⟨l₀, p, rfl, rfl⟩ := hl
    · rw [room_glue, List.nil_append]
    · simp only [room_append, room_glue, room_cons, room_nil]
      omega
  obtain ⟨hbt, htaken⟩ := List.pairwise_cons.mp a.apart
  constructor
  · obtain ⟨rfl, rfl⟩ | ⟨l₀, p, rfl, rfl⟩ := hl
    · exact hglue
    · obtain ⟨hs₀, hsp, hs₀p⟩ := spaced_append.mp hs₁
      have hpb := hlow p (List.mem_append_right _ List.mem_cons_self)
      have haddr : ∀ c ∈ b.glue l₂, b.addr ≤ c.addr := by
        intro c hc
        obtain hc | ⟨n, hn, hc⟩ := addr_glue hc
        · exact hc.ge
        · rw [hc]
          exact h₂ n hn
      refine spaced_append.mpr ⟨hs₀, ?_, fun c hc d hd => ?_⟩
      · exact spaced_glue (hsp.pos p List.mem_cons_self) (fun c hc => hpb.trans (haddr c hc)) hglue
      · have hcp := hs₀p c hc p List.mem_cons_self
        obtain hd | ⟨n, hn, hd⟩ := addr_glue hd
        · rwa [hd]
        · have hn := haddr n hn
          simp only [limit] at hcp hpb ⊢
          omega
  · exact fun c hc => a.pos c (List.mem_cons_of_mem _ hc)
  · exact htaken
  · intro c hc d hd x hx hxd
    obtain hxb | ⟨e, he, hxe⟩ := (hcover x).mp ⟨d, hd, hxd⟩
    · exact hbt c hc x hxb hx
    · exact a.separate c (List.mem_cons_of_mem _ hc) e he x hx hxe
  · intro x
    rw [a.cover x, hcover x, cover_cons]
    tauto
  · have hacc := a.account
    rw [room_cons] at hacc
    omega

/-- Which of the taken blocks comes first does not matter. -/
theorem perm {taken' : List Block} (a : Arena r free taken) (hp : taken.Perm taken') :
    Arena r free taken' where
  spaced := a.spaced
  pos b hb := a.pos b (hp.mem_iff.mpr hb)
  apart := (hp.pairwise_iff fun h => h.symm).mp a.apart
  separate b hb := a.separate b (hp.mem_iff.mpr hb)
  cover x := by
    rw [a.cover x, Cover, Cover, Cover]
    simp only [hp.mem_iff]
  account := by
    have h : room taken' = room taken := room_perm hp.symm
    rw [h, a.account]

/-- **With nothing taken, the region is the one free block.** -/
theorem whole (a : Arena r free []) (hr : 0 < r.size) : free = [r] := by
  have hcover : ∀ x, x ∈ r ↔ Cover free x := by simpa using a.cover
  cases free with
  | nil =>
    have := (hcover r.addr).mp (by rw [mem_iff, limit]; omega)
    exact absurd this cover_nil
  | cons h rest =>
    obtain ⟨hpos, hlt, hrest⟩ := spaced_cons.mp a.spaced
    have hsub := a.subset_of_mem_free (h := h) List.mem_cons_self
    -- the next address past the first block is in no block, so it is outside the region
    have hgap : ¬ Cover (h :: rest) h.limit := by
      rw [cover_cons]
      rintro (hx | ⟨c, hc, hx⟩)
      · exact absurd hx.2 (Nat.lt_irrefl _)
      · exact absurd hx.1 (Nat.not_le.mpr (hlt c hc))
    have hout : r.limit ≤ h.limit := by
      by_contra hne
      refine hgap ((hcover _).mp ⟨?_, Nat.lt_of_not_le hne⟩)
      rw [limit]
      omega
    have hnil : rest = [] := by
      cases rest with
      | nil => rfl
      | cons c cs =>
        have hc := a.subset_of_mem_free (h := c) (List.mem_cons_of_mem _ List.mem_cons_self)
        have := hlt c List.mem_cons_self
        have := hrest.pos c List.mem_cons_self
        simp only [limit] at *
        omega
    have hroom := a.account
    simp only [hnil, room_nil, room_cons, Nat.zero_add, Nat.add_zero] at hroom
    have haddr : h.addr = r.addr := by
      simp only [limit] at hsub hout
      omega
    rw [hnil]
    exact congrArg (· :: []) (by cases h; cases r; simp_all)

end Arena
