import StarOS.Libc.Malloc

/-!
# The list of the blocks of a process

What each piece of the allocator does to the list of blocks, told as lists: a block is cut in two,
two blocks are joined, one is taken, a region is appended. Each is one edit of a ring in which null
stands for both ends, and the bytes outside the headers keep what they hold.

## Main definitions

* `Malloc.Heap.Lists` — the list of a heap
* `Malloc.Edited` — a heap whose list has been edited
* `Malloc.carved`, `Malloc.Glued`, `Malloc.fresh` — what becomes of the list

## Main results

* `Malloc.wp_findFree` — the search is the first fit, and ends
* `Malloc.wp_takeAligned`, `Malloc.wp_coalesce`, `Malloc.wp_grow`
-/

namespace StarOS

namespace Malloc

open Checked

variable {S : List ℕ} {h h₀ h' : Heap} {v v' : Listing} {b c n p : ℕ} {m : ByteMemory}

/-! ### Lists of blocks -/

/-- A block as its header tells of it. -/
structure Chunk where
  addr : ℕ
  size : ℕ
  isFree : Bool
  deriving DecidableEq, Repr

namespace Chunk

variable (c : Chunk)

/-- Header and payload. -/
def extent : Block := ⟨c.addr, header + c.size⟩

def payload : Block := ⟨c.addr + header, c.size⟩

def limit : ℕ := c.addr + header + c.size

end Chunk

/-- Where a list begins, and where it ends: null if it is empty. -/
def firstAddr (l : List Chunk) : ℕ := (l.head?.map Chunk.addr).getD 0

def lastAddr (l : List Chunk) : ℕ := (l.getLast?.map Chunk.addr).getD 0

/-- The list of the heap is `l`. -/
structure Heap.Lists (h : Heap) (l : List Chunk) : Prop where
  ring : h.links.Closed (0 :: l.map Chunk.addr)
  size : ∀ c ∈ l, h.size c.addr = c.size
  isFree : ∀ c ∈ l, h.isFree c.addr = c.isFree

/-- The blocks of a list lie side by side in the address space. -/
structure Laid (l : List Chunk) : Prop where
  apart : (l.map Chunk.extent).Pairwise Block.Disjoint
  pos : ∀ c ∈ l, 0 < c.addr
  fits : ∀ c ∈ l, c.limit < 2 ^ 64

variable {l l' l₁ l₂ : List Chunk} {c₁ c₂ d : Chunk}

theorem Laid.headers (hl : Laid l) : Apart (l.map Chunk.addr) where
  pos b hb := by
    obtain ⟨c, hc, rfl⟩ := List.mem_map.mp hb
    exact hl.pos c hc
  apart b hb c hc hne := by
    obtain ⟨c₁, hc₁, rfl⟩ := List.mem_map.mp hb
    obtain ⟨c₂, hc₂, rfl⟩ := List.mem_map.mp hc
    have hdisjoint := hl.apart.forall (List.mem_map_of_mem hc₁) (List.mem_map_of_mem hc₂)
      fun he => hne (congrArg Block.addr he)
    have hsides := (Block.disjoint_iff (by simp [Chunk.extent, header])
      (by simp [Chunk.extent, header])).mp hdisjoint
    simp only [Chunk.extent, Block.limit] at hsides
    omega

theorem Heap.Lists.around (hl : h.Lists (l₁ ++ d :: l₂)) :
    h.links.next d.addr = firstAddr l₂ ∧ h.links.prev d.addr = lastAddr l₁ := by
  have hring : h.links.Closed ((0 :: l₁.map Chunk.addr) ++ d.addr :: l₂.map Chunk.addr) := by
    simpa using hl.ring
  rw [hring.around.1, hring.around.2]
  constructor
  · cases l₂ <;> rfl
  · simp [lastAddr, List.getLast?_append, List.getLast?_cons]

theorem Heap.Lists.ends (hl : h.Lists l) : h.head = firstAddr l ∧ h.tail = lastAddr l := by
  have hring : h.links.Closed ([] ++ 0 :: l.map Chunk.addr) := hl.ring
  have haround := hring.around
  simp only [Heap.links, if_true, List.append_nil, List.head?_map, List.getLast?_map] at haround
  exact haround

/-- The first free block with room. -/
def firstFit (size : ℕ) (l : List Chunk) : Option Chunk :=
  l.find? fun c => c.isFree && decide (size ≤ c.size)

variable {T : Prop} {Q : ℕ → Heap → Prop} {F : Empty → Heap → Prop} {size : ℕ}

theorem wp_findFrom (hl : h.Lists (l₁ ++ l₂)) (hpos : ∀ c ∈ l₂, 0 < c.addr)
    (hQ : Q (((firstFit size l₂).map Chunk.addr).getD 0) h) {turns : ℕ}
    (hturns : ¬ T → l₂.length < turns) :
    wp T (findFrom size turns (firstAddr l₂)) Q F h := by
  induction turns generalizing l₁ l₂ with
  | zero =>
    rw [findFrom, loop, wp_unending]
    exact by_contra fun hT => absurd (hturns hT) (Nat.not_lt_zero _)
  | succ turns ih =>
    rw [findFrom, loop]
    cases l₂ with
    | nil => simpa [firstAddr, firstFit] using hQ
    | cons c l₂ =>
      have hmem : c ∈ l₁ ++ c :: l₂ := List.mem_append_right _ List.mem_cons_self
      have hnull := (hpos c List.mem_cons_self).ne'
      have hnext : h.next c.addr = firstAddr l₂ := (if_neg hnull).symm.trans hl.around.1
      have hfirst : firstAddr (c :: l₂) = c.addr := rfl
      rw [hfirst]
      simp only [wp_bind, wp_get, if_neg hnull, hl.isFree c hmem, hl.size c hmem, hnext]
      by_cases hfits : c.isFree = true ∧ size ≤ c.size
      · have hfound : firstFit size (c :: l₂) = some c :=
          List.find?_cons_of_pos (by simpa using hfits)
        rw [hfound] at hQ
        simp only [if_pos hfits, wp_pure]
        exact hQ
      · have hpass : firstFit size (c :: l₂) = firstFit size l₂ :=
          List.find?_cons_of_neg (by simpa using hfits)
        rw [hpass] at hQ
        simp only [if_neg hfits, wp_pure]
        have hl' : h.Lists ((l₁ ++ [c]) ++ l₂) := by simpa using hl
        refine ih hl' (fun d hd => hpos d (.tail _ hd)) hQ fun hT => ?_
        have := hturns hT
        rw [List.length_cons] at this
        omega

theorem room_extents (l : List Chunk) :
    Block.room (l.map Chunk.extent) = header * l.length + (l.map Chunk.size).sum := by
  induction l with
  | nil => rfl
  | cons c l ih =>
    simp only [List.map_cons, Block.room_cons, List.length_cons, List.sum_cons, ih, Chunk.extent,
      header]
    omega

/-- Everything is in the address space. -/
theorem Laid.room_le (hl : Laid l) : header * l.length + (l.map Chunk.size).sum ≤ 2 ^ 64 := by
  rw [← room_extents]
  refine Block.room_le hl.apart fun b hb => ?_
  obtain ⟨c, hc, rfl⟩ := List.mem_map.mp hb
  have hfits := hl.fits c hc
  simp only [Chunk.limit, Chunk.extent, Block.limit] at hfits ⊢
  omega

theorem wp_findFree (hl : h.Lists l) (hlaid : Laid l)
    (hQ : Q (((firstFit size l).map Chunk.addr).getD 0) h) : wp T (findFree size) Q F h := by
  have hroom := hlaid.room_le
  rw [findFree, wp_bind, wp_get, hl.ends.1]
  have hl' : h.Lists ([] ++ l) := hl
  refine wp_findFrom hl' hlaid.pos hQ fun _ => ?_
  simp only [header] at hroom
  omega

/-- What a call that edits the list leaves: the list is `l'`, and nothing else has changed but the
headers of `S`. -/
structure Edited (S : List ℕ) (h h' : Heap) (l' : List Chunk) : Prop where
  lists : h'.Lists l'
  kept : ∀ i, (∀ b ∈ S, i < b ∨ b + header ≤ i) → h'.memory i = h.memory i
  source : h'.source = h.source
  liveBytes : h'.liveBytes = h.liveBytes
  liveBlocks : h'.liveBlocks = h.liveBlocks

theorem Shows.edited (hs : Shows S h h' v) (hsub : ∀ c ∈ l', c.addr ∈ S)
    (hring : v.links.Closed (0 :: l'.map Chunk.addr)) (hsize : ∀ c ∈ l', v.size c.addr = c.size)
    (hfree : ∀ c ∈ l', v.isFree c.addr = c.isFree) : Edited S h h' l' := by
  have hmem : ∀ b ∈ 0 :: l'.map Chunk.addr, b ∈ 0 :: S := by
    intro b hb
    rcases List.mem_cons.mp hb with rfl | hb
    · exact List.mem_cons_self
    · obtain ⟨c, hc, rfl⟩ := List.mem_map.mp hb
      exact List.mem_cons_of_mem _ (hsub c hc)
  refine ⟨⟨hring.congr fun b hb => ⟨hs.next b (hmem b hb), hs.prev b (hmem b hb)⟩, fun c hc => ?_,
    fun c hc => ?_⟩, hs.kept, hs.source, hs.liveBytes, hs.liveBlocks⟩
  · rw [hs.size _ (hsub c hc), hsize c hc]
  · rw [hs.isFree _ (hsub c hc), hfree c hc]

/-- A block cut in two. -/
def cut (c : Chunk) (n : ℕ) : List Chunk :=
  [⟨c.addr, n, c.isFree⟩, ⟨c.addr + header + n, c.size - n - header, true⟩]

theorem Laid.regroup {m m' : List Chunk} (hl : Laid (l₁ ++ m ++ l₂))
    (hm : (m'.map Chunk.extent).Pairwise Block.Disjoint)
    (hin : ∀ c ∈ m', 0 < c.addr ∧ c.limit < 2 ^ 64)
    (hcover : ∀ x, Block.Cover (m'.map Chunk.extent) x → Block.Cover (m.map Chunk.extent) x) :
    Laid (l₁ ++ m' ++ l₂) := by
  have hsplit : ∀ c ∈ l₁ ++ m' ++ l₂, c ∈ m' ∨ c ∈ l₁ ++ m ++ l₂ := by
    intro c hc
    simp only [List.mem_append] at hc ⊢
    tauto
  refine ⟨?_, fun c hc => ?_, fun c hc => ?_⟩
  · have hapart := hl.apart
    simp only [List.map_append] at hapart ⊢
    exact Block.pairwise_regroup hapart hm hcover
  · exact (hsplit c hc).elim (fun h => (hin c h).1) (hl.pos c)
  · exact (hsplit c hc).elim (fun h => (hin c h).2) (hl.fits c)

theorem cut_cover (hn : n + header ≤ d.size) (x : ℕ) :
    Block.Cover ((cut d n).map Chunk.extent) x ↔ Block.Cover ([d].map Chunk.extent) x := by
  simp only [cut, List.map_cons, List.map_nil, Block.cover_cons, Block.cover_nil, or_false,
    Chunk.extent, Block.mem_iff, Block.limit]
  omega

theorem Laid.cut (hl : Laid (l₁ ++ d :: l₂)) (hn : n + header ≤ d.size) :
    Laid (l₁ ++ Malloc.cut d n ++ l₂) := by
  have hmem : d ∈ l₁ ++ d :: l₂ := List.mem_append_right _ List.mem_cons_self
  have hpos := hl.pos d hmem
  have hfits := hl.fits d hmem
  have hl' : Laid (l₁ ++ [d] ++ l₂) := by simpa using hl
  refine hl'.regroup ?_ ?_ fun x => (cut_cover hn x).mp
  · simp only [Malloc.cut, List.map_cons, List.map_nil, List.pairwise_cons, List.mem_singleton]
    refine ⟨?_, by simp, .nil⟩
    rintro _ rfl x hx hx'
    simp only [Chunk.extent, Block.mem_iff, Block.limit] at hx hx'
    omega
  · intro c hc
    simp only [Malloc.cut, List.mem_cons, List.not_mem_nil, or_false] at hc
    simp only [Chunk.limit] at hfits ⊢
    rcases hc with rfl | rfl
    · exact ⟨hpos, by simp only; omega⟩
    · exact ⟨by simp only; omega, by simp only; omega⟩

theorem Laid.setFree (hl : Laid (l₁ ++ d :: l₂)) (f : Bool) :
    Laid (l₁ ++ ⟨d.addr, d.size, f⟩ :: l₂) := by
  have hextents : (l₁ ++ ⟨d.addr, d.size, f⟩ :: l₂).map Chunk.extent =
      (l₁ ++ d :: l₂).map Chunk.extent := by simp [Chunk.extent]
  refine ⟨hextents ▸ hl.apart, ?_, ?_⟩
  · have hpos := hl.pos
    simp only [List.forall_mem_append, List.forall_mem_cons] at hpos ⊢
    exact hpos
  · have hfits := hl.fits
    simp only [List.forall_mem_append, List.forall_mem_cons] at hfits ⊢
    exact hfits

theorem Laid.nodup (hl : Laid l) : (l.map Chunk.addr).Nodup := by
  refine List.pairwise_map.mpr ((List.pairwise_map.mp hl.apart).imp fun {c d} hcd he => ?_)
  exact hcd c.addr ⟨Nat.le_refl _, by simp [Chunk.extent, Block.limit, header]⟩
    ⟨by simp [Chunk.extent, he], by simp [Chunk.extent, Block.limit, header, he]⟩

theorem Laid.lt (hl : Laid l) (hb : b ∈ 0 :: l.map Chunk.addr) : b < 2 ^ 64 := by
  rcases List.mem_cons.mp hb with rfl | hb
  · decide
  · obtain ⟨c, hc, rfl⟩ := List.mem_map.mp hb
    have := hl.fits c hc
    simp only [Chunk.limit, header] at this
    omega

theorem firstAddr_mem (h : ∀ c ∈ l₂, c ∈ l) : firstAddr l₂ ∈ 0 :: l.map Chunk.addr := by
  cases l₂ with
  | nil => exact List.mem_cons_self
  | cons c l₂ => exact List.mem_cons_of_mem _ (List.mem_map_of_mem (h c List.mem_cons_self))

/-- The blocks around one are elsewhere. -/
theorem Laid.ne_of_mem {m : List Chunk} (hl : Laid (l₁ ++ m ++ l₂)) {e : Chunk}
    (hc : c₁ ∈ l₁ ∨ c₁ ∈ l₂) (he : e ∈ m) : c₁.addr ≠ e.addr := by
  have hnodup := hl.nodup
  rw [List.map_append, List.map_append] at hnodup
  obtain ⟨hleft, -, hright⟩ := List.nodup_append.mp hnodup
  have hmem := List.mem_map_of_mem (f := Chunk.addr) he
  rcases hc with hc | hc
  · exact (List.nodup_append.mp hleft).2.2 _ (List.mem_map_of_mem hc) _ hmem
  · exact (hright _ (List.mem_append_right _ hmem) _ (List.mem_map_of_mem hc)).symm

/-- **The blocks `m` are replaced by `m'`**, and those around them stay as they are. -/
theorem Shows.replaced {m m' : List Chunk} (hs : Shows S h₀ h' v) (hl : h.Lists (l₁ ++ m ++ l₂))
    (hlaid : Laid (l₁ ++ m' ++ l₂)) (hsub : ∀ c ∈ l₁ ++ m' ++ l₂, c.addr ∈ S)
    (hring : v.links.Closed (0 :: (l₁ ++ m' ++ l₂).map Chunk.addr))
    (hkeep : ∀ b, (∀ c ∈ m', b ≠ c.addr) → v.size b = h.size b ∧ v.isFree b = h.isFree b)
    (hnew : ∀ c ∈ m', v.size c.addr = c.size ∧ v.isFree c.addr = c.isFree) :
    Edited S h₀ h' (l₁ ++ m' ++ l₂) := by
  have hall : ∀ c ∈ l₁ ++ m' ++ l₂, v.size c.addr = c.size ∧ v.isFree c.addr = c.isFree := by
    have hold : ∀ c, c ∈ l₁ ∨ c ∈ l₂ → v.size c.addr = c.size ∧ v.isFree c.addr = c.isFree := by
      intro c hc
      have hmem : c ∈ l₁ ++ m ++ l₂ := by
        simp only [List.mem_append]
        tauto
      have hsame := hkeep c.addr fun e he => hlaid.ne_of_mem hc he
      exact ⟨hsame.1.trans (hl.size c hmem), hsame.2.trans (hl.isFree c hmem)⟩
    simp only [List.forall_mem_append]
    exact ⟨⟨fun c hc => hold c (.inl hc), hnew⟩, fun c hc => hold c (.inr hc)⟩
  exact hs.edited hsub hring (fun c hc => (hall c hc).1) fun c hc => (hall c hc).2

theorem wp_split (hl : h.Lists (l₁ ++ d :: l₂)) (hlaid : Laid (l₁ ++ d :: l₂))
    (hn : n + header ≤ d.size)
    (hQ : ∀ h', Edited ((l₁ ++ cut d n ++ l₂).map Chunk.addr) h h' (l₁ ++ cut d n ++ l₂) →
      Q (d.addr + header + n) h') : wp T (split d.addr n) Q F h := by
  have hmem : d ∈ l₁ ++ d :: l₂ := List.mem_append_right _ List.mem_cons_self
  have hS := (hlaid.cut hn).headers
  set l' := l₁ ++ cut d n ++ l₂ with hl'
  set second := d.addr + header + n with hsecond
  have hpos := hlaid.pos d hmem
  have hfits := hlaid.fits d hmem
  have hb : d.addr ∈ l'.map Chunk.addr := by simp [hl', cut]
  have hs : second ∈ l'.map Chunk.addr := by simp [hl', cut, hsecond]
  have hnext : firstAddr l₂ ∈ 0 :: l'.map Chunk.addr := firstAddr_mem fun c hc => by simp [hl', hc]
  have hlt : ∀ b ∈ 0 :: l'.map Chunk.addr, b < 2 ^ 64 := fun b hb => (hlaid.cut hn).lt hb
  have hne : second ≠ d.addr := by simp only [hsecond, header]; omega
  have haround := hl.around.1
  rw [split]
  simp only [wp_bind, wp_get, hl.size d hmem]
  rw [wp_sub_of_le (by omega), wp_sub_of_le (by omega)]
  simp only [wp_modify, wp_pure]
  refine hQ _ ?_
  simp only [Chunk.limit] at hfits
  have s₃ := (((Shows.refl (l'.map Chunk.addr) h).setSize hS hs
    (n := d.size - n - header) (by omega)).setFree hS hs true).setPrev hS hs (hlt _ (.tail _ hb))
  have h₃ := (s₃.next_eq hS hb).trans haround
  rw [h₃]
  have s₄ := s₃.setNext hS hs (hlt _ hnext)
  have h₄ := (s₄.next_eq hS hb).trans ((Function.update_of_ne hne.symm ..).trans haround)
  rw [h₄]
  have s₇ := ((s₄.setPrevOrTail hS hnext (hlt _ (.tail _ hs))).setSize hS hb
    (n := n) (by omega)).setNext hS hb (hlt _ (.tail _ hs))
  have hl₀ : h.Lists (l₁ ++ [d] ++ l₂) := by simpa using hl
  have hcut : ∀ c, c ∈ l₁ ∨ c ∈ l₂ → second ≠ c.addr := fun c hc =>
    ((hlaid.cut hn).ne_of_mem (e := ⟨second, d.size - n - header, true⟩) hc
      (by simp [cut, hsecond])).symm
  refine s₇.replaced hl₀ (hlaid.cut hn) (fun c hc => List.mem_map_of_mem hc) ?_ (fun b hb => ?_) ?_
  · have hring : h.links.Closed ((0 :: l₁.map Chunk.addr) ++ d.addr :: l₂.map Chunk.addr) := by
      simpa using hl.ring
    have hfresh : second ∉ (0 :: l₁.map Chunk.addr) ++ d.addr :: l₂.map Chunk.addr := by
      have hnull : second ≠ 0 := by simp only [hsecond, header]; omega
      simp only [List.mem_append, List.mem_cons, List.mem_map, not_or, not_exists, not_and]
      exact ⟨⟨hnull, fun c hc => (hcut c (.inl hc)).symm⟩, hne, fun c hc => (hcut c (.inr hc)).symm⟩
    have hlinks : (h.links.join d.addr second).join second (firstAddr l₂) =
        (((h.links.setPrev second d.addr).setNext second (firstAddr l₂)).setPrev (firstAddr l₂)
          second).setNext d.addr second :=
      TwoWay.ext (Function.update_comm hne.symm ..) rfl
    have hinsert := hring.insert hfresh
    rw [haround, hlinks] at hinsert
    simpa [hl', cut, hsecond] using hinsert
  · simp only [cut, List.forall_mem_cons] at hb
    exact ⟨(Function.update_of_ne hb.1 ..).trans (Function.update_of_ne hb.2.1 ..),
      Function.update_of_ne hb.2.1 ..⟩
  · simp only [cut, List.forall_mem_cons, List.not_mem_nil, false_imp_iff, implies_true, and_true]
    exact ⟨⟨Function.update_self .., (Function.update_of_ne hne.symm ..).trans (hl.isFree d hmem)⟩,
      (Function.update_of_ne hne ..).trans (Function.update_self ..), Function.update_self ..⟩

/-- A block made one with the next. -/
def join (b c : Chunk) : Chunk := ⟨b.addr, b.size + (header + c.size), b.isFree⟩

theorem join_cover {b c : Chunk} (htouch : b.limit = c.addr) (x : ℕ) :
    Block.Cover ([join b c].map Chunk.extent) x ↔ Block.Cover ([b, c].map Chunk.extent) x := by
  simp only [Chunk.limit] at htouch
  simp only [join, List.map_cons, List.map_nil, Block.cover_cons, Block.cover_nil, or_false,
    Chunk.extent, Block.mem_iff, Block.limit]
  omega

theorem Laid.join {b c : Chunk} (hl : Laid (l₁ ++ b :: c :: l₂)) (htouch : b.limit = c.addr) :
    Laid (l₁ ++ Malloc.join b c :: l₂) := by
  have hb := hl.pos b (by simp)
  have hc := hl.fits c (by simp)
  have hl' : Laid (l₁ ++ [b, c] ++ l₂) := by simpa using hl
  have hjoin : Laid (l₁ ++ [Malloc.join b c] ++ l₂) := by
    refine hl'.regroup (List.pairwise_singleton _ _) (fun e he => ?_)
      fun x => (join_cover htouch x).mp
    obtain rfl := List.mem_singleton.mp he
    simp only [Malloc.join, Chunk.limit] at htouch hc ⊢
    exact ⟨hb, by omega⟩
  simpa using hjoin

theorem wp_absorb {b c : Chunk} {Q : Unit → Heap → Prop} (hl : h.Lists (l₁ ++ b :: c :: l₂))
    (hlaid : Laid (l₁ ++ b :: c :: l₂)) (htouch : b.limit = c.addr)
    (hQ : ∀ h', Edited ((l₁ ++ b :: c :: l₂).map Chunk.addr) h h' (l₁ ++ join b c :: l₂) →
      Q () h') : wp T (absorb b.addr c.addr) Q F h := by
  set l := l₁ ++ b :: c :: l₂ with hl₀
  have hS := hlaid.headers
  have hmemb : b ∈ l := by simp [hl₀]
  have hmemc : c ∈ l := by simp [hl₀]
  have hb : b.addr ∈ l.map Chunk.addr := List.mem_map_of_mem hmemb
  have hc : c.addr ∈ l.map Chunk.addr := List.mem_map_of_mem hmemc
  have hnext : firstAddr l₂ ∈ 0 :: l.map Chunk.addr := firstAddr_mem fun c hc => by simp [hl₀, hc]
  have hlt : ∀ x ∈ 0 :: l.map Chunk.addr, x < 2 ^ 64 := fun x hx => hlaid.lt hx
  have hlast : h.Lists ((l₁ ++ [b]) ++ c :: l₂) := by simpa [hl₀] using hl
  have haround := hlast.around.1
  have hpos := hlaid.pos b hmemb
  have hfits := hlaid.fits c hmemc
  simp only [Chunk.limit] at htouch hfits
  have hne : c.addr ≠ b.addr := by simp only [header] at htouch; omega
  rw [absorb]
  simp only [wp_bind, wp_get, hl.size b hmemb, hl.size c hmemc]
  rw [wp_add_of_lt (by omega), wp_add_of_lt (by omega)]
  simp only [wp_modify]
  refine hQ _ ?_
  have s₁ := (Shows.refl (l.map Chunk.addr) h).setSize hS hb (n := b.size + (header + c.size))
    (by omega)
  have h₁ := (s₁.next_eq hS hc).trans haround
  rw [h₁]
  have s₂ := s₁.setNext hS hb (hlt _ hnext)
  have h₂ := (s₂.next_eq hS hc).trans ((Function.update_of_ne hne ..).trans haround)
  rw [h₂]
  have s₃ := s₂.setPrevOrTail hS hnext (hlt _ (.tail _ hb))
  have hl' : h.Lists (l₁ ++ [b, c] ++ l₂) := by simpa [hl₀] using hl
  have hjoin := hlaid.join htouch
  rw [List.append_cons] at hjoin ⊢
  refine s₃.replaced hl' hjoin (fun d hd => ?_) ?_ (fun d hd => ?_) fun d hd => ?_
  · simp only [List.mem_append, List.mem_singleton] at hd
    rcases hd with (hd | rfl) | hd
    · exact List.mem_map_of_mem (by simp [hl₀, hd])
    · exact hb
    · exact List.mem_map_of_mem (by simp [hl₀, hd])
  · have hring : h.links.Closed
        ((0 :: l₁.map Chunk.addr) ++ b.addr :: c.addr :: l₂.map Chunk.addr) := by
      simpa [hl₀] using hl.ring
    have herase := hring.erase
    rw [haround] at herase
    simpa [join, TwoWay.join] using herase
  · exact ⟨Function.update_of_ne (hd _ (List.mem_singleton_self _)) .., rfl⟩
  · rw [List.mem_singleton.mp hd]
    exact ⟨Function.update_self .., hl.isFree b hmemb⟩

/-- A block and what comes behind it, made one if they are free and touch. -/
def glue (b : Chunk) : List Chunk → List Chunk
  | [] => [b]
  | c :: l => if b.isFree ∧ c.isFree ∧ b.limit = c.addr then join b c :: l else b :: c :: l

/-- The first block stays where it is. -/
theorem glue_eq (b : Chunk) (l : List Chunk) :
    ∃ e l', glue b l = e :: l' ∧ e.addr = b.addr ∧ e.isFree = b.isFree := by
  cases l with
  | nil => exact ⟨b, [], rfl, rfl, rfl⟩
  | cons c l =>
    rw [glue]
    split
    · exact ⟨_, _, rfl, rfl, rfl⟩
    · exact ⟨_, _, rfl, rfl, rfl⟩

theorem addr_glue {b : Chunk} (hd : d ∈ glue b l) : d.addr = b.addr ∨ d ∈ l := by
  cases l with
  | nil => exact .inl (by rw [List.mem_singleton.mp hd])
  | cons c l =>
    rw [glue] at hd
    split at hd
    · rcases List.mem_cons.mp hd with rfl | hd
      · exact .inl rfl
      · exact .inr (.tail _ hd)
    · rcases List.mem_cons.mp hd with rfl | hd
      · exact .inl rfl
      · exact .inr hd

theorem Laid.glue (hl : Laid (l₁ ++ d :: l₂)) : Laid (l₁ ++ Malloc.glue d l₂) := by
  cases l₂ with
  | nil => exact hl
  | cons c l₂ =>
    rw [Malloc.glue]
    split
    · next hcond => exact hl.join hcond.2.2
    · exact hl

theorem Edited.refl (hl : h.Lists l) : Edited S h h l := ⟨hl, fun _ _ => rfl, rfl, rfl, rfl⟩

theorem Edited.trans {S' : List ℕ} {h'' : Heap} (he : Edited S h h' l) (he' : Edited S' h' h'' l')
    (hS : ∀ b ∈ S', b ∈ S) : Edited S h h'' l' where
  lists := he'.lists
  kept i hi := (he'.kept i fun b hb => hi b (hS b hb)).trans (he.kept i hi)
  source := he'.source.trans he.source
  liveBytes := he'.liveBytes.trans he.liveBytes
  liveBlocks := he'.liveBlocks.trans he.liveBlocks

theorem Edited.mono {S' : List ℕ} (he : Edited S h h' l) (hS : ∀ b ∈ S, b ∈ S') :
    Edited S' h h' l :=
  ⟨he.lists, fun i hi => he.kept i fun b hb => hi b (hS b hb), he.source, he.liveBytes,
    he.liveBlocks⟩

theorem wp_merge {Q : Unit → Heap → Prop} {neighbour second : ℕ} (hl : h.Lists (l₁ ++ d :: l₂))
    (hlaid : Laid (l₁ ++ d :: l₂)) (hsecond : second = firstAddr l₂)
    (htest : neighbour ≠ 0 ∧ h.isFree neighbour ∧ h.adjacent d.addr second ↔
      ∃ c ∈ l₂.head?, d.isFree ∧ c.isFree ∧ d.limit = c.addr)
    (hQ : ∀ h', Edited ((l₁ ++ d :: l₂).map Chunk.addr) h h' (l₁ ++ glue d l₂) → Q () h') :
    wp T (merge neighbour d.addr second) Q F h := by
  subst hsecond
  rw [merge, wp_bind, wp_get]
  split
  · next h₀ =>
    obtain ⟨c, hc, hcond⟩ := htest.mp h₀
    obtain ⟨l₃, rfl⟩ : ∃ l₃, l₂ = c :: l₃ := List.head?_eq_some_iff.mp hc
    refine wp_absorb hl hlaid hcond.2.2 fun h' he => hQ h' ?_
    rwa [glue, if_pos hcond]
  · next h₀ =>
    rw [wp_pure]
    refine hQ h ?_
    cases l₂ with
    | nil => exact .refl hl
    | cons c l₂ =>
      have hcond : ¬ (d.isFree ∧ c.isFree ∧ d.limit = c.addr) := fun hcond =>
        h₀ (htest.mpr ⟨c, rfl, hcond⟩)
      rw [glue, if_neg hcond]
      exact .refl hl

/-- A block is made one with its neighbours. -/
def Glued (l₁ : List Chunk) (c : Chunk) (l₂ l : List Chunk) : Prop :=
  l₁ = [] ∧ l = glue c l₂ ∨ ∃ l₀ p, l₁ = l₀ ++ [p] ∧ l = l₀ ++ glue p (glue c l₂)

theorem wp_coalesce {Q : Unit → Heap → Prop} (hl : h.Lists (l₁ ++ d :: l₂))
    (hlaid : Laid (l₁ ++ d :: l₂)) (hfree : d.isFree)
    (hQ : ∀ h' l', Glued l₁ d l₂ l' → Edited ((l₁ ++ d :: l₂).map Chunk.addr) h h' l' → Q () h') :
    wp T (coalesce d.addr) Q F h := by
  have hmem : d ∈ l₁ ++ d :: l₂ := List.mem_append_right _ List.mem_cons_self
  have hnull := (hlaid.pos d hmem).ne'
  have hnext : h.next d.addr = firstAddr l₂ := (if_neg hnull).symm.trans hl.around.1
  rw [coalesce]
  simp only [wp_bind, wp_get]
  refine wp_merge hl hlaid hnext ?_ fun h' he => ?_
  · rw [hnext]
    cases l₂ with
    | nil => simp [firstAddr]
    | cons c l₂ =>
      have hmemc : c ∈ l₁ ++ d :: c :: l₂ := by simp
      have hnullc := (hlaid.pos c hmemc).ne'
      have hfirst : firstAddr (c :: l₂) = c.addr := rfl
      simp [hfirst, hnullc, hl.isFree c hmemc, hl.size d hmem, Heap.adjacent, hfree, Chunk.limit]
  · obtain ⟨e, l₃, hglue, haddr, hefree⟩ := glue_eq d l₂
    have hl' := he.lists
    have hlaid' := hlaid.glue
    rw [hglue] at hl' hlaid'
    have hprev : h'.prev d.addr = lastAddr l₁ := by
      rw [← hl'.around.2, haddr]
      exact (if_neg hnull).symm
    simp only [hprev]
    rcases List.eq_nil_or_concat' l₁ with rfl | ⟨l₀, p, rfl⟩
    · have hnone : lastAddr [] = 0 := rfl
      rw [merge, wp_bind, wp_get, if_neg (by simp [hnone]), wp_pure]
      exact hQ h' _ (.inl ⟨rfl, rfl⟩) he
    · have hlast : lastAddr (l₀ ++ [p]) = p.addr := by simp [lastAddr]
      have hsub : l₀ ++ [p] ++ e :: l₃ = l₀ ++ p :: (e :: l₃) := by simp
      rw [hsub] at hl' hlaid'
      have hmemp : p ∈ l₀ ++ p :: (e :: l₃) := by simp
      have hnullp := (hlaid'.pos p hmemp).ne'
      rw [hlast]
      refine wp_merge hl' hlaid' haddr.symm ?_ fun h'' he' => ?_
      · simp [hnullp, hl'.isFree p hmemp, hl'.size p hmemp, Heap.adjacent, hefree, hfree,
          Chunk.limit, haddr]
      · refine hQ h'' _ (.inr ⟨l₀, p, rfl, rfl⟩) (he.trans (hglue ▸ he') fun b hb => ?_)
        obtain ⟨c, hc, rfl⟩ := List.mem_map.mp hb
        rw [List.mem_append, List.mem_cons] at hc
        rcases hc with hc | rfl | hc
        · exact List.mem_map_of_mem (by simp [hc])
        · exact List.mem_map_of_mem (by simp)
        · rcases addr_glue hc with hc | hc
          · rw [hc]
            exact List.mem_map_of_mem hmem
          · exact List.mem_map_of_mem (by simp [hc])

theorem Edited.setFree (hl : h.Lists (l₁ ++ d :: l₂)) (hlaid : Laid (l₁ ++ d :: l₂)) (f : Bool) :
    Edited ((l₁ ++ d :: l₂).map Chunk.addr) h (h.setFree d.addr f)
      (l₁ ++ ⟨d.addr, d.size, f⟩ :: l₂) := by
  have hb : d.addr ∈ (l₁ ++ d :: l₂).map Chunk.addr := by simp
  have hs := (Shows.refl ((l₁ ++ d :: l₂).map Chunk.addr) h).setFree hlaid.headers hb f
  have hl' : h.Lists (l₁ ++ [d] ++ l₂) := by simpa using hl
  have hflag := hlaid.setFree f
  rw [List.append_cons l₁ ⟨d.addr, d.size, f⟩] at hflag ⊢
  refine hs.replaced hl' hflag (fun c hc => ?_) (by simpa using hl.ring) (fun c hc => ?_)
    fun c hc => ?_
  · have hmem := List.mem_map_of_mem (f := Chunk.addr) hc
    simpa using hmem
  · exact ⟨rfl, Function.update_of_ne (hc _ (List.mem_singleton_self _)) ..⟩
  · rw [List.mem_singleton.mp hc]
    exact ⟨hl.size d (by simp), Function.update_self ..⟩

/-- A free block, of which `want` bytes are taken. -/
def taken (c : Chunk) (want : ℕ) : List Chunk :=
  if want + header + minAlign ≤ c.size then
    [⟨c.addr, want, false⟩, ⟨c.addr + header + want, c.size - want - header, true⟩]
  else [⟨c.addr, c.size, false⟩]

theorem taken_eq (d : Chunk) (want : ℕ) :
    ∃ size rest, taken d want = ⟨d.addr, size, false⟩ :: rest := by
  rw [taken]
  split
  · exact ⟨_, _, rfl⟩
  · exact ⟨_, _, rfl⟩

theorem wp_take {Q : Unit → Heap → Prop} {want : ℕ} (hl : h.Lists (l₁ ++ d :: l₂))
    (hlaid : Laid (l₁ ++ d :: l₂)) (hfits : ¬ T → want + header + minAlign < 2 ^ 64)
    (hbytes : h.liveBytes + d.size < 2 ^ 64) (hblocks : h.liveBlocks + 1 < 2 ^ 64)
    (hQ : ∀ h' size rest, taken d want = ⟨d.addr, size, false⟩ :: rest →
      Edited ((l₁ ++ taken d want ++ l₂).map Chunk.addr) h h' (l₁ ++ taken d want ++ l₂) →
      Q () { h' with liveBytes := h.liveBytes + size, liveBlocks := h.liveBlocks + 1 }) :
    wp T (take d.addr want) Q F h := by
  have hmem : d ∈ l₁ ++ d :: l₂ := List.mem_append_right _ List.mem_cons_self
  rw [take]
  simp only [wp_bind, wp_get, hl.size d hmem]
  refine wp_add_or.mpr ⟨fun h₁ => wp_add_or.mpr ⟨fun h₂ => ?_, fun h₂ => ?_⟩, fun h₁ => ?_⟩
  · split
    · next hroom =>
      have htaken : taken d want =
          [⟨d.addr, want, false⟩, ⟨d.addr + header + want, d.size - want - header, true⟩] :=
        if_pos hroom
      rw [wp_bind]
      refine wp_split (n := want) hl hlaid (by omega) fun h' he => ?_
      have hcut : l₁ ++ cut d want ++ l₂ = l₁ ++ ⟨d.addr, want, d.isFree⟩ ::
          (⟨d.addr + header + want, d.size - want - header, true⟩ :: l₂) := by simp [cut]
      have hlaid' := hlaid.cut (n := want) (by omega)
      have hl' := he.lists
      rw [hcut] at hl' hlaid'
      have hfree := Edited.setFree hl' hlaid' false
      have hsize : (h'.setFree d.addr false).size d.addr = want :=
        hfree.lists.size ⟨d.addr, want, false⟩ (by simp)
      have hbytes' : (h'.setFree d.addr false).liveBytes = h.liveBytes := he.liveBytes
      have hblocks' : (h'.setFree d.addr false).liveBlocks = h.liveBlocks := he.liveBlocks
      simp only [wp_bind, wp_modify, wp_get, hsize, hbytes', hblocks']
      rw [wp_add_of_lt (by omega), wp_add_of_lt hblocks]
      refine hQ _ _ _ htaken ?_
      rw [hcut] at he
      have hall := he.trans hfree fun b hb => hb
      simpa [htaken] using hall
    · next hroom =>
      have htaken : taken d want = [⟨d.addr, d.size, false⟩] := if_neg hroom
      have hfree := Edited.setFree hl hlaid false
      have hsize : (h.setFree d.addr false).size d.addr = d.size :=
        hfree.lists.size ⟨d.addr, d.size, false⟩ (by simp)
      have hbytes' : (h.setFree d.addr false).liveBytes = h.liveBytes := rfl
      have hblocks' : (h.setFree d.addr false).liveBlocks = h.liveBlocks := rfl
      simp only [wp_bind, wp_pure, wp_modify, wp_get, hsize, hbytes', hblocks']
      rw [wp_add_of_lt hbytes, wp_add_of_lt hblocks]
      refine hQ _ _ _ htaken ?_
      simpa [htaken] using hfree
  · by_contra hT
    exact h₂ (by have := hfits hT; omega)
  · by_contra hT
    exact h₁ (by have := hfits hT; omega)

/-- Rounded up. -/
def up (value multiple : ℕ) : ℕ := (value + multiple - 1) / multiple * multiple

theorem divCeil_eq {value multiple : ℕ} (hm : 0 < multiple) (hv : value < 2 ^ 64) :
    (divCeil 64 value multiple : Code ℕ) = pure ((value + multiple - 1) / multiple) := by
  have hdiv := Nat.div_add_mod value multiple
  have hmod := Nat.mod_lt value hm
  have hle := Nat.div_le_self value multiple
  rw [divCeil, div, if_neg hm.ne', pure_bind]
  split
  · next hrem =>
    have hceil : (value + multiple - 1) / multiple = value / multiple + 1 := by
      rw [Nat.div_eq_iff hm, Nat.mul_comm, Nat.mul_succ]
      omega
    have hone : 1 < multiple := by
      by_contra hne
      obtain rfl : multiple = 1 := by omega
      omega
    have hhalf : value / multiple ≤ value / 2 := Nat.div_le_div_left hone (by decide)
    rw [hceil, add, if_pos (by omega)]
  · next hrem =>
    have hceil : (value + multiple - 1) / multiple = value / multiple := by
      rw [Nat.div_eq_iff hm, Nat.mul_comm]
      omega
    rw [hceil]

theorem wp_roundUp {value multiple : ℕ} (hm : 0 < multiple) (hv : value < 2 ^ 64) :
    wp T (roundUp value multiple) Q F h ↔ (up value multiple < 2 ^ 64 → Q (up value multiple) h) ∧
      (¬ up value multiple < 2 ^ 64 → T) := by
  rw [roundUp, divCeil_eq hm hv, pure_bind, wp_mul_or]
  rfl

theorem up_spec (value : ℕ) {multiple : ℕ} (hm : 0 < multiple) :
    multiple ∣ up value multiple ∧ value ≤ up value multiple ∧
        up value multiple < value + multiple :=
  Bits.roundUp_spec value hm

/-- The free block a region is to begin with. -/
def fresh (base bytes : ℕ) : Chunk := ⟨base, bytes - header, true⟩

/-- How much the source is asked for. -/
def asked (need : ℕ) : ℕ := up (max need growBytes) pageSize

theorem asked_spec (need : ℕ) : pageSize ∣ asked need ∧ need ≤ asked need ∧
    growBytes ≤ asked need := by
  obtain ⟨hdvd, hle, -⟩ := up_spec (max need growBytes) (show 0 < pageSize by decide)
  exact ⟨hdvd, (le_max_left ..).trans hle, (le_max_right ..).trans hle⟩

theorem wp_grow {Q : Bool → Heap → Prop} {answer : ℕ → Option ℕ} {need : ℕ} (hl : h.Lists l)
    (hlaid : ∀ base, answer (asked need) = some base → Laid (l ++ [fresh base (asked need)]))
    (hneed : need < 2 ^ 64) (hfits : ¬ T → asked need < 2 ^ 64)
    (hno : asked need < 2 ^ 64 → answer (asked need) = none → Q false h)
    (hyes : asked need < 2 ^ 64 → ∀ base h', answer (asked need) = some base →
      Edited ((l ++ [fresh base (asked need)]).map Chunk.addr)
        { h with source := h.source ++ [⟨base, asked need⟩] } h' (l ++ [fresh base (asked need)]) →
      Q true h') : wp T (grow answer need) Q F h := by
  have hmax : max need growBytes < 2 ^ 64 := max_lt hneed (by decide)
  obtain ⟨-, -, hgrow⟩ := asked_spec need
  rw [grow, wp_bind, wp_roundUp (by decide) hmax]
  refine ⟨fun hlt => ?_, fun hlt => by_contra fun hT => hlt (hfits hT)⟩
  have hasked : up (max need growBytes) pageSize = asked need := rfl
  rw [hasked] at hlt ⊢
  set bytes := asked need with hbytes
  rw [wp_bind, map]
  cases hanswer : answer bytes with
  | none =>
    simp only [wp_pure]
    exact hno hlt hanswer
  | some base =>
    have hlaid' := hlaid base hanswer
    set new := fresh base bytes with hnew
    have hS := hlaid'.headers
    have hmem : new ∈ l ++ [new] := by simp
    have hb : base ∈ (l ++ [new]).map Chunk.addr := List.mem_map_of_mem (f := Chunk.addr) hmem
    set h₀ : Heap := { h with source := h.source ++ [⟨base, bytes⟩] } with hh₀
    have htail : h.tail = lastAddr l := hl.ends.2
    have hlast : lastAddr l ∈ 0 :: (l ++ [new]).map Chunk.addr := by
      rcases List.eq_nil_or_concat' l with rfl | ⟨l₀, p, rfl⟩
      · exact List.mem_cons_self
      · exact List.mem_cons_of_mem _ (by simp [lastAddr])
    simp only [wp_bind, wp_modify, wp_pure]
    rw [wp_sub_of_le (le_trans (by decide) hgrow)]
    refine hyes hlt base _ hanswer ?_
    have s₂ := ((Shows.refl ((l ++ [new]).map Chunk.addr) h₀).setSize hS hb
      (n := bytes - header) (by omega)).setFree hS hb true
    have h₂ : ((h₀.setSize base (bytes - header)).setFree base true).tail = lastAddr l := htail
    rw [h₂]
    have s₄ := (s₂.setPrev hS hb (hlaid'.lt hlast)).setNext hS hb (n := 0) (by decide)
    have h₄ : ((((h₀.setSize base (bytes - header)).setFree base true).setPrev base
        (lastAddr l)).setNext base 0).tail = lastAddr l := htail
    rw [h₄]
    have s₆ := (s₄.setNextOrHead hS hlast (hlaid'.lt (.tail _ hb))).setPrevOrTail hS
      List.mem_cons_self (hlaid'.lt (.tail _ hb))
    have hl' : h.Lists (l ++ [] ++ []) := by simpa using hl
    have hlaid'' : Laid (l ++ [new] ++ []) := by simpa using hlaid'
    have hedit := s₆.replaced hl' hlaid'' (fun c hc => ?_) ?_ (fun c hc => ?_) fun c hc => ?_
    · rwa [List.append_nil] at hedit
    · exact List.mem_map_of_mem (by simpa using hc)
    · obtain ⟨A, hA, hend⟩ : ∃ A, 0 :: l.map Chunk.addr = A ++ [lastAddr l] ∧
          h.links.next (lastAddr l) = 0 := by
        rcases List.eq_nil_or_concat' l with rfl | ⟨l₀, p, rfl⟩
        · exact ⟨[], rfl, hl.ends.1⟩
        · have hlast : lastAddr (l₀ ++ [p]) = p.addr := by simp [lastAddr]
          rw [hlast]
          exact ⟨0 :: l₀.map Chunk.addr, by simp, hl.around.1⟩
      have hring : h.links.Closed (A ++ lastAddr l :: []) := hA ▸ hl.ring
      have hnull : base ≠ 0 := (hS.pos base hb).ne'
      have hmiss : base ∉ A ++ lastAddr l :: [] := by
        rw [← hA]
        simp only [List.mem_cons, List.mem_map, not_or, not_exists, not_and]
        exact ⟨hnull, fun c hc => hlaid''.ne_of_mem (.inl hc) (List.mem_singleton_self new)⟩
      have hne : lastAddr l ≠ base := fun he => hmiss (by simp [he])
      have hinsert := hring.insert hmiss
      rw [hend] at hinsert
      have hlinks : (h.links.join (lastAddr l) base).join base 0 =
          (((h.links.setPrev base (lastAddr l)).setNext base 0).setNext (lastAddr l) base).setPrev 0
            base :=
        TwoWay.ext (Function.update_comm hne ..) rfl
      have hlist : 0 :: (l ++ [new]).map Chunk.addr = A ++ lastAddr l :: base :: [] := by
        rw [List.map_append, ← List.cons_append, hA]
        simp [hnew, fresh]
      rw [List.append_nil, hlist]
      rw [hlinks] at hinsert
      exact hinsert
    · have hne : c ≠ base := hc new (List.mem_singleton_self new)
      exact ⟨Function.update_of_ne hne .., Function.update_of_ne hne ..⟩
    · rw [List.mem_singleton.mp hc]
      exact ⟨Function.update_self .., Function.update_self ..⟩

/-- What the source was asked for: nothing, or one region more. -/
def Supplied (answer : ℕ → Option ℕ) (room : ℕ) (source : List Block) (l : List Chunk)
    (source' : List Block) (l' : List Chunk) : Prop :=
  source' = source ∧ l' = l ∨ asked room < 2 ^ 64 ∧ ∃ base, answer (asked room) = some base ∧
    source' = source ++ [⟨base, asked room⟩] ∧ l' = l ++ [fresh base (asked room)]

theorem firstFit_append (size : ℕ) (l l' : List Chunk) :
    firstFit size (l ++ l') = (firstFit size l).or (firstFit size l') := List.find?_append

theorem wp_findOrGrow {answer : ℕ → Option ℕ} {need : ℕ} (hl : h.Lists l) (hlaid : Laid l)
    (hnew : ∀ base, answer (asked (need + header)) = some base →
      Laid (l ++ [fresh base (asked (need + header))]))
    (hfits : ¬ T → firstFit need l = none → asked (need + header) < 2 ^ 64)
    (hno : firstFit need l = none → asked (need + header) < 2 ^ 64 →
      answer (asked (need + header)) = none → Q 0 h)
    (hyes : ∀ c source l' h', Supplied answer (need + header) h.source l source l' →
      firstFit need l' = some c → (∀ e, firstFit need l = some e → e = c) →
      Edited (l'.map Chunk.addr) { h with source } h' l' → Q c.addr h') :
    wp T (findOrGrow answer need) Q F h := by
  rw [findOrGrow, wp_bind]
  refine wp_findFree hl hlaid ?_
  cases hfit : firstFit need l with
  | some c =>
    have hpos : c.addr ≠ 0 := (hlaid.pos c (List.mem_of_find?_eq_some hfit)).ne'
    simp only [Option.map_some, Option.getD_some, ne_eq, hpos, not_false_eq_true, if_true, wp_pure]
    exact hyes c h.source l h (.inl ⟨rfl, rfl⟩) hfit (fun e he => by simpa [hfit] using he.symm)
      (.refl hl)
  | none =>
    simp only [Option.map_none, Option.getD_none, ne_eq, not_true_eq_false, if_false, wp_bind]
    refine wp_add_or.mpr ⟨fun hlt => ?_, fun hlt => by_contra fun hT => hlt ?_⟩
    swap
    · exact (asked_spec (need + header)).2.1.trans_lt (hfits hT hfit)
    refine wp_grow hl hnew hlt (fun hT => hfits hT hfit) (fun hasked hanswer => ?_) ?_
    · simp only [Bool.false_eq_true, if_false, wp_pure]
      exact hno hfit hasked hanswer
    · intro hasked base h' hanswer he
      obtain ⟨-, hroom, -⟩ := asked_spec (need + header)
      simp only [if_true]
      have hfound : firstFit need (l ++ [fresh base (asked (need + header))]) =
          some (fresh base (asked (need + header))) := by
        rw [firstFit_append, hfit, Option.none_or]
        have hle : need ≤ asked (need + header) - header := by omega
        exact List.find?_cons_of_pos (by simp [fresh, hle])
      refine wp_findFree he.lists (hnew base hanswer) ?_
      rw [hfound]
      exact hyes _ _ _ h' (.inr ⟨hasked, base, hanswer, rfl, rfl⟩) hfound
        (fun e he => by simp [hfit] at he) he

/-- A free block, of which `want` bytes are taken at `p`. What is in front of them becomes a block
of its own. -/
def carved (c : Chunk) (p want : ℕ) : List Chunk :=
  if p = c.addr + header then taken c want
  else ⟨c.addr, p - (c.addr + header) - header, true⟩ :: taken ⟨p - header, c.limit - p, true⟩ want

theorem wp_takeAligned {align want : ℕ} (hl : h.Lists (l₁ ++ d :: l₂))
    (hlaid : Laid (l₁ ++ d :: l₂)) (hfree : d.isFree) (halign : 0 < align) (hpos : 0 < want)
    (hroom : up (d.addr + header) align + want ≤ d.limit)
    (hcut : ¬ T → up (d.addr + header) align = d.addr + header ∨
      d.addr + header + header ≤ up (d.addr + header) align)
    (hwant : ¬ T → want + header + minAlign < 2 ^ 64)
    (hbytes : h.liveBytes + d.size < 2 ^ 64) (hblocks : h.liveBlocks + 1 < 2 ^ 64)
    (hQ : ∀ h' size, ⟨up (d.addr + header) align - header, size, false⟩ ∈
        carved d (up (d.addr + header) align) want →
      d.addr + header = up (d.addr + header) align ∨
        d.addr + header + header ≤ up (d.addr + header) align →
      Edited ((l₁ ++ carved d (up (d.addr + header) align) want ++ l₂).map Chunk.addr) h h'
        (l₁ ++ carved d (up (d.addr + header) align) want ++ l₂) →
      Q (up (d.addr + header) align)
        { h' with liveBytes := h.liveBytes + size, liveBlocks := h.liveBlocks + 1 }) :
    wp T (takeAligned d.addr want align) Q F h := by
  have hmem : d ∈ l₁ ++ d :: l₂ := List.mem_append_right _ List.mem_cons_self
  have hfits := hlaid.fits d hmem
  obtain ⟨-, hle, -⟩ := up_spec (d.addr + header) halign
  set p := up (d.addr + header) align with hp
  have hlt : p < 2 ^ 64 := by omega
  rw [takeAligned, wp_bind, wp_roundUp halign (hle.trans_lt hlt)]
  refine ⟨fun _ => ?_, fun hover => absurd hlt hover⟩
  split
  · next hne =>
    have hne : p ≠ d.addr + header := hne
    simp only [wp_bind]
    rw [wp_sub_of_le hle]
    refine wp_sub_or.mpr ⟨fun hgap => ?_, fun hgap => by_contra fun hT => hgap ?_⟩
    · set gap := p - (d.addr + header) - header with hgapdef
      simp only [Chunk.limit] at hroom hfits
      have hn : gap + header ≤ d.size := by omega
      refine wp_split hl hlaid hn fun h₁ he₁ => ?_
      have haddr : d.addr + header + gap = p - header := by omega
      have hsize : d.size - gap - header = d.limit - p := by simp only [Chunk.limit]; omega
      have hcutlist : l₁ ++ cut d gap ++ l₂ =
          (l₁ ++ [⟨d.addr, gap, true⟩]) ++ ⟨p - header, d.limit - p, true⟩ :: l₂ := by
        simp [cut, hfree, haddr, hsize]
      have hlaid₁ := hlaid.cut hn
      rw [hcutlist] at he₁ hlaid₁
      rw [haddr]
      have hcarved : carved d p want =
          ⟨d.addr, gap, true⟩ :: taken ⟨p - header, d.limit - p, true⟩ want := if_neg hne
      have hbytes₁ : h₁.liveBytes = h.liveBytes := he₁.liveBytes
      have hblocks₁ : h₁.liveBlocks = h.liveBlocks := he₁.liveBlocks
      refine wp_take (d := ⟨p - header, d.limit - p, true⟩) he₁.lists hlaid₁ hwant ?_ ?_ ?_
      · show h₁.liveBytes + (d.limit - p) < 2 ^ 64
        rw [hbytes₁]
        simp only [Chunk.limit]
        omega
      · rwa [hblocks₁]
      · intro h₂ size rest htaken he₂
        have hlist : l₁ ++ [⟨d.addr, gap, true⟩] ++ taken ⟨p - header, d.limit - p, true⟩ want ++
          l₂ =
            l₁ ++ carved d p want ++ l₂ := by simp [hcarved]
        have hback : p - header + header = p := by omega
        rw [hlist] at he₂
        rw [wp_pure, hback, hbytes₁, hblocks₁]
        have he₁' : Edited ((l₁ ++ carved d p want ++ l₂).map Chunk.addr) h h₁
            ((l₁ ++ [⟨d.addr, gap, true⟩]) ++ ⟨p - header, d.limit - p, true⟩ :: l₂) := by
          refine he₁.mono fun b hb => ?_
          rw [← hlist, htaken]
          simp only [List.map_append, List.map_cons, List.map_nil, List.mem_append, List.mem_cons,
            List.not_mem_nil, or_false] at hb ⊢
          tauto
        refine hQ h₂ size ?_ (.inr (by omega)) (he₁'.trans he₂ fun b hb => hb)
        rw [hcarved, htaken]
        exact .tail _ List.mem_cons_self
    · have := hcut hT
      omega
  · next heq =>
    have heq : p = d.addr + header := not_not.mp heq
    rw [wp_bind]
    refine wp_take hl hlaid hwant hbytes hblocks fun h' size rest htaken he => ?_
    have hcarved : carved d p want = taken d want := if_pos heq
    rw [wp_pure, ← heq]
    refine hQ h' size ?_ (.inl heq.symm) (by rwa [hcarved])
    rw [hcarved, htaken, heq, Nat.add_sub_cancel]
    exact List.mem_cons_self

end Malloc

end StarOS
