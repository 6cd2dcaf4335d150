import StarOS.Libc.MallocList

/-!
# What the calls to the heap of a process do

The regions the page source has mapped are divided into the blocks of the list, and two blocks that
touch are not both free unless a region begins between them. A call takes a free block, or gives one
back, and leaves it so; what the program has in its other blocks is as it was.

## Main definitions

* `Malloc.Tiled` — regions divided into blocks
* `Malloc.Heap.Sound` — the invariant of the heap
* `Malloc.Squeezed` — a block that cannot be cut where its payload would be aligned
* `Malloc.Heap.Fits` — a request for which no computation leaves 64 bits

## Main results

* `Malloc.Tiled.parts`, `Malloc.Tiled.glued`, `Malloc.Tiled.fresh` — what keeps regions divided
* `Malloc.cut_iff` — where a block can be cut
* `Malloc.wp_allocBlock`, `Malloc.wp_free`, `Malloc.wp_realloc`, `Malloc.wp_calloc`
-/

namespace StarOS

namespace Malloc

open Checked

variable {source source' : List Block} {l l' l₁ l₂ m : List Chunk} {b c d e : Chunk}
    {p want size x : ℕ}

/-! ### Tilings -/

/-- A region starts here. -/
def Starts (source : List Block) (a : ℕ) : Prop := ∃ r ∈ source, r.addr = a

/-- A block follows another in the list where a region starts, or directly behind the other, and
then they are not both free. -/
def Follows (source : List Block) (b c : Chunk) : Prop :=
  Starts source c.addr ∨ b.limit = c.addr ∧ ¬ (b.isFree ∧ c.isFree)

/-- The regions are divided into the blocks of the list. -/
structure Tiled (source : List Block) (l : List Chunk) : Prop where
  laid : Laid l
  cover : ∀ x, Block.Cover (l.map Chunk.extent) x ↔ Block.Cover source x
  grain : ∀ c ∈ l, minAlign ∣ c.addr ∧ minAlign ∣ c.size
  first : l ≠ [] → Starts source (firstAddr l)
  follows : l.IsChain (Follows source)

/-- The blocks that are taken. -/
def used (l : List Chunk) : List Chunk := l.filter fun c => !c.isFree

@[simp] theorem used_append (l l' : List Chunk) : used (l ++ l') = used l ++ used l' :=
  List.filter_append ..

theorem mem_used : c ∈ used l ↔ c ∈ l ∧ c.isFree = false := by simp [used]

theorem used_cons_of_free (hd : d.isFree) (l : List Chunk) : used (d :: l) = used l :=
  List.filter_cons_of_neg (by simp [hd])

theorem used_cons_of_taken (hd : d.isFree = false) (l : List Chunk) : used (d :: l) = d :: used l :=
  List.filter_cons_of_pos (by simp [hd])

theorem mem_extent : x ∈ c.extent ↔ c.addr ≤ x ∧ x < c.limit := by
  simp only [Chunk.extent, Block.mem_iff, Block.limit, Chunk.limit]
  omega

theorem addr_mem_extent (c : Chunk) : c.addr ∈ c.extent :=
  mem_extent.mpr ⟨Nat.le_refl _, by simp only [Chunk.limit, header]; omega⟩

/-- Some free block is divided. -/
structure Parts (source : List Block) (d : Chunk) (m : List Chunk) : Prop where
  apart : (m.map Chunk.extent).Pairwise Block.Disjoint
  cover : ∀ x, Block.Cover (m.map Chunk.extent) x ↔ x ∈ d.extent
  grain : ∀ c ∈ m, minAlign ∣ c.addr ∧ minAlign ∣ c.size
  first : ∀ c ∈ m.head?, c.addr = d.addr
  last : ∀ c ∈ m.getLast?, c.limit = d.limit
  follows : m.IsChain (Follows source)

theorem Parts.ne_nil (hm : Parts source d m) : m ≠ [] := by
  rintro rfl
  exact absurd ((hm.cover d.addr).mpr (addr_mem_extent d)) (by simp [Block.Cover])

theorem Parts.within (hm : Parts source d m) (hc : c ∈ m) : d.addr ≤ c.addr ∧
    c.limit ≤ d.limit := by
  have hlimit : c.limit - 1 ∈ c.extent := mem_extent.mpr (by simp only [Chunk.limit, header]; omega)
  have h₁ := (hm.cover c.addr).mp ⟨_, List.mem_map_of_mem hc, addr_mem_extent c⟩
  have h₂ := (hm.cover _).mp ⟨_, List.mem_map_of_mem hc, hlimit⟩
  rw [mem_extent] at h₁ h₂
  omega

theorem Tiled.parts (ht : Tiled source (l₁ ++ d :: l₂)) (hd : d.isFree) (hm : Parts source d m) :
    Tiled source (l₁ ++ m ++ l₂) := by
  have hmem : d ∈ l₁ ++ d :: l₂ := List.mem_append_right _ List.mem_cons_self
  have ht' : Tiled source (l₁ ++ [d] ++ l₂) := by simpa using ht
  obtain ⟨c₀, m₀, rfl⟩ := List.exists_cons_of_ne_nil hm.ne_nil
  have haddr : c₀.addr = d.addr := hm.first c₀ rfl
  refine ⟨ht'.laid.regroup hm.apart (fun c hc => ?_) (fun x hx => ?_), fun x => ?_, fun c hc => ?_,
    fun _ => ?_, ?_⟩
  · have hpos := ht.laid.pos d hmem
    have hfits := ht.laid.fits d hmem
    have hin := hm.within hc
    omega
  · simpa [Block.cover_cons] using (hm.cover x).mp hx
  · rw [← ht'.cover x, List.map_append, List.map_append, Block.cover_append, Block.cover_append,
      hm.cover x]
    simp [or_assoc]
  · rcases List.mem_append.mp hc with hc | hc
    · rcases List.mem_append.mp hc with hc | hc
      · exact ht.grain c (List.mem_append_left _ hc)
      · exact hm.grain c hc
    · exact ht.grain c (List.mem_append_right _ (.tail _ hc))
  · have hstart := ht.first (by simp)
    cases l₁ with
    | nil => simpa [firstAddr, haddr] using hstart
    | cons => simpa [firstAddr] using hstart
  · obtain ⟨h₁, h₂, h₁₂⟩ := List.isChain_append.mp ht.follows
    obtain ⟨hd₂, h₂⟩ := List.isChain_cons.mp h₂
    refine List.isChain_append.mpr ⟨List.isChain_append.mpr ⟨h₁, hm.follows, fun b hb c hc => ?_⟩,
      h₂, fun b hb c hc => ?_⟩
    · obtain rfl : c₀ = c := Option.some.inj hc
      have hfollows := h₁₂ b hb d rfl
      simp only [Follows, hd, and_true, haddr] at hfollows ⊢
      tauto
    · have hb : b ∈ (c₀ :: m₀).getLast? := by
        rw [List.getLast?_append_of_ne_nil _ (List.cons_ne_nil _ _)] at hb
        exact hb
      have hfollows := hd₂ c hc
      simp only [Follows, hd, true_and, hm.last b hb] at hfollows ⊢
      tauto

theorem Parts.taken (hd : minAlign ∣ d.addr ∧ minAlign ∣ d.size) (hwant : minAlign ∣ want) :
    Parts source d (taken d want) := by
  rw [Malloc.taken]
  split
  · next hroom =>
    simp only [minAlign, header] at *
    refine ⟨?_, fun x => ?_, ?_, by simp, by simp [Chunk.limit, header]; omega, ?_⟩
    · simp only [List.map_cons, List.map_nil, List.pairwise_cons, List.mem_singleton]
      refine ⟨?_, by simp, .nil⟩
      rintro _ rfl x hx hx'
      simp only [mem_extent, Chunk.limit, header] at hx hx'
      omega
    · simp only [List.map_cons, List.map_nil, Block.cover_cons, Block.cover_nil, or_false,
        mem_extent, Chunk.limit, header]
      omega
    · simp only [List.forall_mem_cons, List.not_mem_nil, false_imp_iff, implies_true, and_true,
        minAlign]
      omega
    · refine List.isChain_pair.mpr (.inr ⟨rfl, by simp⟩)
  · refine ⟨by simp, fun x => ?_, by simpa using hd, by simp, by simp [Chunk.limit], .singleton _⟩
    simp only [List.map_cons, List.map_nil, Block.cover_cons, Block.cover_nil, or_false,
      mem_extent, Chunk.limit]

theorem Parts.carved (hd : minAlign ∣ d.addr ∧ minAlign ∣ d.size) (hwant : minAlign ∣ want)
    (hp : minAlign ∣ p) (hcut : d.addr + header = p ∨ d.addr + header + header ≤ p)
    (hroom : p ≤ d.limit) : Parts source d (carved d p want) := by
  rw [Malloc.carved]
  split
  · exact .taken hd hwant
  · next hne =>
    have hcut := hcut.resolve_left (Ne.symm hne)
    obtain ⟨size, rest, htaken⟩ := taken_eq ⟨p - header, d.limit - p, true⟩ want
    have hrest : Parts source ⟨p - header, d.limit - p, true⟩
        (Malloc.taken ⟨p - header, d.limit - p, true⟩ want) := by
      refine .taken ?_ hwant
      simp only [minAlign, header, Chunk.limit] at *
      omega
    have hlimit : (⟨p - header, d.limit - p, true⟩ : Chunk).limit = d.limit := by
      simp only [Chunk.limit, header] at *
      omega
    have hextent : ∀ x, x ∈ (⟨p - header, d.limit - p, true⟩ : Chunk).extent ↔
        p - header ≤ x ∧ x < d.limit := fun x => by rw [mem_extent, hlimit]
    have hgap : ∀ x, x ∈ (⟨d.addr, p - (d.addr + header) - header, true⟩ : Chunk).extent ↔
        d.addr ≤ x ∧ x < p - header := by
      intro x
      simp only [mem_extent, Chunk.limit, header] at *
      omega
    refine ⟨?_, fun x => ?_, ?_, by simp, ?_, ?_⟩
    · refine List.pairwise_cons.mpr ⟨?_, hrest.apart⟩
      intro b hb x hx hxb
      have hx' := (hextent x).mp ((hrest.cover x).mp ⟨b, hb, hxb⟩)
      have hx := (hgap x).mp hx
      omega
    · rw [List.map_cons, Block.cover_cons, hrest.cover, hextent, hgap, mem_extent]
      simp only [Chunk.limit, header] at *
      omega
    · refine List.forall_mem_cons.mpr ⟨?_, hrest.grain⟩
      simp only [minAlign, header] at *
      omega
    · rw [List.getLast?_cons_of_ne_nil hrest.ne_nil]
      intro c hc
      rw [hrest.last c hc, hlimit]
    · refine List.isChain_cons.mpr ⟨fun c hc => ?_, hrest.follows⟩
      rw [htaken] at hc
      obtain rfl : (⟨p - header, size, false⟩ : Chunk) = c := Option.some.inj hc
      refine .inr ⟨?_, by simp⟩
      simp only [Chunk.limit, header] at *
      omega

theorem used_taken (d : Chunk) (want : ℕ) :
    ∃ c, used (taken d want) = [c] ∧ (want ≤ d.size → want ≤ c.size) := by
  rw [taken]
  split
  · exact ⟨⟨d.addr, want, false⟩, by simp [used], fun _ => Nat.le_refl _⟩
  · exact ⟨⟨d.addr, d.size, false⟩, by simp [used], id⟩

/-- What is taken is one block, as large as asked. -/
theorem used_carved (hmem : (⟨p - header, size, false⟩ : Chunk) ∈ carved d p want)
    (hroom : p + want ≤ d.limit) :
    used (carved d p want) = [⟨p - header, size, false⟩] ∧ want ≤ size := by
  obtain ⟨d', hused, hsize⟩ : ∃ d', used (carved d p want) = used (taken d' want) ∧
      want ≤ d'.size := by
    rw [carved]
    split
    · exact ⟨d, rfl, by simp only [Chunk.limit] at hroom; omega⟩
    · exact ⟨⟨p - header, d.limit - p, true⟩, used_cons_of_free rfl _, by simp only; omega⟩
  obtain ⟨c, htaken, hwant⟩ := used_taken d' want
  have hmem := mem_used.mpr ⟨hmem, rfl⟩
  rw [hused, htaken] at hmem ⊢
  rw [← List.mem_singleton.mp hmem] at hwant ⊢
  exact ⟨rfl, hwant hsize⟩

/-! ### Giving back -/

theorem cover_glue (b : Chunk) (l : List Chunk) (x : ℕ) :
    Block.Cover ((glue b l).map Chunk.extent) x ↔ Block.Cover ((b :: l).map Chunk.extent) x := by
  cases l with
  | nil => rfl
  | cons c l =>
    rw [glue]
    split
    · next hcond =>
      have hjoin := join_cover hcond.2.2 x
      simp only [List.map_cons, List.map_nil, Block.cover_cons, Block.cover_nil, or_false]
        at hjoin ⊢
      rw [hjoin, or_assoc]
    · rfl

theorem used_glue (b : Chunk) (l : List Chunk) : used (glue b l) = used (b :: l) := by
  cases l with
  | nil => rfl
  | cons c l =>
    rw [glue]
    split
    · next hcond =>
      have hjoin : (join b c).isFree := hcond.1
      rw [used_cons_of_free hjoin, used_cons_of_free hcond.1, used_cons_of_free hcond.2.1]
    · rfl

theorem grain_glue (h : ∀ c ∈ b :: l, minAlign ∣ c.addr ∧ minAlign ∣ c.size) :
    ∀ c ∈ glue b l, minAlign ∣ c.addr ∧ minAlign ∣ c.size := by
  cases l with
  | nil => exact h
  | cons c l =>
    rw [glue]
    split
    · have hb := h b List.mem_cons_self
      have hc := h c (.tail _ List.mem_cons_self)
      refine List.forall_mem_cons.mpr ⟨?_, fun d hd => h d (.tail _ (.tail _ hd))⟩
      simp only [join, minAlign, header] at *
      omega
    · exact h

theorem firstAddr_glue (b : Chunk) (l l' : List Chunk) :
    firstAddr (l ++ glue b l') = firstAddr (l ++ b :: l') := by
  obtain ⟨e, l₃, hglue, haddr, -⟩ := glue_eq b l'
  rw [hglue]
  cases l with
  | nil => exact haddr
  | cons => rfl

/-- **Gluing makes good** what may be two free blocks that touch. -/
theorem follows_glue (hb : ∀ c ∈ l.head?, Starts source c.addr ∨ b.limit = c.addr)
    (hl : l.IsChain (Follows source)) : (glue b l).IsChain (Follows source) := by
  cases l with
  | nil => exact .singleton b
  | cons c l =>
    obtain ⟨hc, hl'⟩ := List.isChain_cons.mp hl
    rw [glue]
    split
    · next hcond =>
      refine List.isChain_cons.mpr ⟨fun e he => ?_, hl'⟩
      have hfollows := hc e he
      have hlimit : (join b c).limit = c.limit := by
        have htouch := hcond.2.2
        simp only [join, Chunk.limit] at htouch ⊢
        omega
      have hfree : (join b c).isFree = c.isFree := hcond.1.trans hcond.2.1.symm
      simpa only [Follows, hlimit, hfree] using hfollows
    · next hcond =>
      refine List.isChain_cons.mpr ⟨fun e he => ?_, hl⟩
      obtain rfl : c = e := Option.some.inj he
      have htouch := hb c rfl
      simp only [Follows]
      tauto

/-- A property of lists that gluing keeps. -/
theorem Glued.induct {P : List Chunk → Prop}
    (hglue : ∀ l₁ b l, P (l₁ ++ b :: l) → P (l₁ ++ glue b l)) (hg : Glued l₁ d l₂ l')
    (h : P (l₁ ++ d :: l₂)) : P l' := by
  rcases hg with ⟨rfl, rfl⟩ | ⟨l₀, p, rfl, rfl⟩
  · exact hglue [] d l₂ h
  · have hone := hglue _ _ _ h
    rw [List.append_assoc] at hone
    exact hglue _ _ _ hone

theorem Glued.used (hg : Glued l₁ d l₂ l') : used l' = used (l₁ ++ d :: l₂) := by
  refine hg.induct (P := fun l => Malloc.used l = Malloc.used (l₁ ++ d :: l₂)) ?_ rfl
  intro l b l' h
  rw [← h, used_append, used_append, used_glue]

theorem Glued.follows (hg : Glued l₁ d l₂ l') (h₁ : l₁.IsChain (Follows source))
    (h₂ : l₂.IsChain (Follows source))
    (hd : ∀ b ∈ l₁.getLast?, Starts source d.addr ∨ b.limit = d.addr)
    (hc : ∀ c ∈ l₂.head?, Starts source c.addr ∨ d.limit = c.addr) :
    l'.IsChain (Follows source) := by
  have hglue := follows_glue hc h₂
  rcases hg with ⟨rfl, rfl⟩ | ⟨l₀, p, rfl, rfl⟩
  · exact hglue
  · obtain ⟨e, l₃, heq, haddr, -⟩ := glue_eq d l₂
    obtain ⟨f, l₄, heq', haddr', hfree'⟩ := glue_eq p (glue d l₂)
    obtain ⟨h₀, -, h₀p⟩ := List.isChain_append.mp h₁
    have hglue' : (glue p (glue d l₂)).IsChain (Follows source) := by
      refine follows_glue (fun c hc => ?_) hglue
      rw [heq] at hc
      obtain rfl : e = c := Option.some.inj hc
      rw [haddr]
      exact hd p (by simp)
    refine List.isChain_append.mpr ⟨h₀, hglue', fun b hb c hc => ?_⟩
    rw [heq'] at hc
    obtain rfl : f = c := Option.some.inj hc
    simpa only [Follows, haddr', hfree'] using h₀p b hb p rfl

/-- A taken block is made free, and one with its free neighbours. -/
theorem Tiled.glued (ht : Tiled source (l₁ ++ d :: l₂))
    (hg : Glued l₁ ⟨d.addr, d.size, true⟩ l₂ l') : Tiled source l' := by
  have hflag := ht.laid.setFree true
  have hextents : (l₁ ++ ⟨d.addr, d.size, true⟩ :: l₂).map Chunk.extent =
      (l₁ ++ d :: l₂).map Chunk.extent := by simp [Chunk.extent]
  refine ⟨?_, fun x => ?_, ?_, fun _ => ?_, ?_⟩
  · exact hg.induct (fun _ _ _ h => h.glue) hflag
  · rw [← ht.cover x, ← hextents]
    refine hg.induct (P := fun l => Block.Cover (l.map Chunk.extent) x ↔ _) ?_ Iff.rfl
    intro l b l' h
    rw [← h, List.map_append, List.map_append, Block.cover_append, Block.cover_append, cover_glue]
  · refine hg.induct (P := fun l => ∀ c ∈ l, minAlign ∣ c.addr ∧ minAlign ∣ c.size) ?_ ?_
    · intro l b l' h
      rw [List.forall_mem_append] at h ⊢
      exact ⟨h.1, grain_glue h.2⟩
    · have hgrain := ht.grain
      simp only [List.forall_mem_append, List.forall_mem_cons] at hgrain ⊢
      exact hgrain
  · refine hg.induct (P := fun l => Starts source (firstAddr l)) ?_ ?_
    · intro l b l' h
      rwa [firstAddr_glue]
    · have hfirst := ht.first (by simp)
      cases l₁ with
      | nil => exact hfirst
      | cons => exact hfirst
  · obtain ⟨h₁, h₂, h₁₂⟩ := List.isChain_append.mp ht.follows
    obtain ⟨hd₂, h₂⟩ := List.isChain_cons.mp h₂
    refine hg.follows h₁ h₂ (fun b hb => ?_) fun c hc => ?_
    · exact (h₁₂ b hb d rfl).imp_right And.left
    · exact (hd₂ c hc).imp_right And.left

/-! ### A region more -/

/-- The source keeps its word: it answers with memory none of which it has mapped. -/
def Keeps (source : List Block) (answer : ℕ → Option ℕ) : Prop :=
  ∀ bytes base, answer bytes = some base → 0 < base ∧ minAlign ∣ base ∧ base + bytes < 2 ^ 64 ∧
    ∀ r ∈ source, r.Disjoint ⟨base, bytes⟩

theorem Starts.mono {r : Block} {a : ℕ} (h : Starts source a) : Starts (source ++ [r]) a :=
  h.imp fun _ hr => ⟨List.mem_append_left _ hr.1, hr.2⟩

theorem Tiled.fresh {answer : ℕ → Option ℕ} {base room : ℕ} (ht : Tiled source l)
    (hk : Keeps source answer) (hanswer : answer (asked room) = some base) :
    Tiled (source ++ [⟨base, asked room⟩]) (l ++ [fresh base (asked room)]) := by
  obtain ⟨hpos, hbase, hfits, hapart⟩ := hk _ _ hanswer
  obtain ⟨hdvd, -, hgrow⟩ := asked_spec room
  set bytes := asked room with hbytes
  have hextent : (Malloc.fresh base bytes).extent = ⟨base, bytes⟩ := by
    simp only [Chunk.extent, Malloc.fresh, header, growBytes] at *
    congr 1
    omega
  have hlimit : (Malloc.fresh base bytes).limit = base + bytes := by
    simp only [Chunk.limit, Malloc.fresh, header, growBytes] at *
    omega
  refine ⟨⟨?_, ?_, ?_⟩, fun x => ?_, ?_, fun _ => ?_, ?_⟩
  · rw [List.map_append, List.map_cons, List.map_nil, hextent]
    refine List.pairwise_append.mpr ⟨ht.laid.apart, List.pairwise_singleton _ _, ?_⟩
    intro b hb r hr x hx hxr
    rw [List.mem_singleton.mp hr] at hxr
    obtain ⟨r', hr', hxr'⟩ := (ht.cover x).mp ⟨b, hb, hx⟩
    exact hapart r' hr' x hxr' hxr
  · exact List.forall_mem_append.mpr ⟨ht.laid.pos, by simpa [Malloc.fresh] using hpos⟩
  · refine List.forall_mem_append.mpr ⟨ht.laid.fits, fun c hc => ?_⟩
    rw [List.mem_singleton.mp hc, hlimit]
    exact hfits
  · rw [List.map_append, Block.cover_append, ht.cover, Block.cover_append, List.map_cons,
      List.map_nil, hextent]
  · refine List.forall_mem_append.mpr ⟨ht.grain, fun c hc => ?_⟩
    rw [List.mem_singleton.mp hc]
    simp only [Malloc.fresh, minAlign, pageSize, header, growBytes] at *
    omega
  · cases l with
    | nil => exact ⟨⟨base, bytes⟩, by simp, rfl⟩
    | cons c l => exact (ht.first (List.cons_ne_nil _ _)).mono
  · refine List.isChain_append.mpr ⟨ht.follows.imp fun b c h => h.imp_left Starts.mono,
      .singleton _, fun b _ c hc => ?_⟩
    obtain rfl : Malloc.fresh base bytes = c := Option.some.inj hc
    exact .inl ⟨⟨base, bytes⟩, by simp, rfl⟩

/-! ### What the calls do -/

/-- The heap is sound, and `l` is its list. -/
structure Heap.Sound (h : Heap) (l : List Chunk) : Prop where
  lists : h.Lists l
  tiled : Tiled h.source l
  liveBytes : h.liveBytes = ((used l).map Chunk.size).sum
  liveBlocks : h.liveBlocks = (used l).length

theorem mem_payload : x ∈ c.payload ↔ c.addr + header ≤ x ∧ x < c.limit := Iff.rfl

/-- No payload reaches into a header. -/
theorem Laid.outside {a : ℕ} (hl : Laid l) (he : e ∈ l) (hx : x ∈ e.payload)
    (ha : a ∈ l.map Chunk.addr) : x < a ∨ a + header ≤ x := by
  obtain ⟨c, hc, rfl⟩ := List.mem_map.mp ha
  rw [mem_payload] at hx
  by_cases hne : c.addr = e.addr
  · exact .inr (by omega)
  · have hapart := hl.apart.forall (List.mem_map_of_mem he) (List.mem_map_of_mem hc)
      fun heq => hne (congrArg Block.addr heq).symm
    have hout : x ∉ c.extent := hapart x (mem_extent.mpr (by omega))
    rw [mem_extent] at hout
    simp only [Chunk.limit] at hout
    omega

theorem used_le (l : List Chunk) :
    ((used l).map Chunk.size).sum ≤ (l.map Chunk.size).sum ∧ (used l).length ≤ l.length := by
  refine ⟨?_, List.length_filter_le ..⟩
  induction l with
  | nil => exact Nat.le_refl _
  | cons c l ih =>
    rcases Bool.eq_false_or_eq_true c.isFree with hc | hc
    · rw [used_cons_of_free hc, List.map_cons, List.sum_cons]
      omega
    · rw [used_cons_of_taken hc, List.map_cons, List.map_cons, List.sum_cons, List.sum_cons]
      omega

/-- The counters have room for a free block. -/
theorem Heap.Sound.counters {h : Heap} (hs : h.Sound (l₁ ++ d :: l₂)) (hd : d.isFree) :
    h.liveBytes + d.size < 2 ^ 64 ∧ h.liveBlocks + 1 < 2 ^ 64 := by
  have hroom := hs.tiled.laid.room_le
  have h₁ := used_le l₁
  have h₂ := used_le l₂
  rw [hs.liveBytes, hs.liveBlocks, used_append, used_cons_of_free hd]
  simp only [List.map_append, List.map_cons, List.sum_append, List.sum_cons, List.length_append,
    List.length_cons, header] at hroom h₁ h₂ ⊢
  omega

/-- What the program writes to its payloads is no business of the heap's. -/
theorem Heap.Sound.write {h : Heap} {m : ByteMemory} (hs : h.Sound l)
    (hm : ∀ i, (∀ c ∈ used l, i ∉ c.payload) → m i = h.memory i) :
    { h with memory := m }.Sound l := by
  have hheader : ∀ c ∈ l, ∀ i, c.addr ≤ i → i < c.addr + header → m i = h.memory i := by
    intro c hc i hlo hhi
    refine hm i fun e he hi => ?_
    have hout := hs.tiled.laid.outside (mem_used.mp he).1 hi (List.mem_map_of_mem hc)
    omega
  have hdouble : ∀ c ∈ l, ∀ o, o + 8 ≤ header →
      m.readDouble (c.addr + o) = h.memory.readDouble (c.addr + o) := fun c hc o ho =>
    ByteMemory.readDouble_congr fun i _ _ => hheader c hc i (by omega) (by omega)
  refine ⟨⟨hs.lists.ring.congr fun b hb => ?_, fun c hc => ?_, fun c hc => ?_⟩, hs.tiled,
    hs.liveBytes, hs.liveBlocks⟩
  · rcases List.mem_cons.mp hb with rfl | hb
    · exact ⟨rfl, rfl⟩
    · obtain ⟨c, hc, rfl⟩ := List.mem_map.mp hb
      have hnull := (hs.tiled.laid.pos c hc).ne'
      have hnext := hdouble c hc 16 (by decide)
      have hprev := hdouble c hc 8 (by decide)
      simp only [Heap.links, Heap.next, Heap.prev, if_neg hnull, hnext, hprev, and_self]
  · rw [← hs.lists.size c hc]
    exact congrArg BitVec.toNat (hdouble c hc 0 (by decide))
  · have hbyte := hheader c hc (c.addr + 24) (by omega) (by simp [header])
    rw [← hs.lists.isFree c hc]
    exact congrArg (· != 0) hbyte

variable {T : Prop} {Q : ℕ → Heap → Prop} {F : Empty → Heap → Prop} {h h' : Heap}
  {answer : ℕ → Option ℕ} {align : ℕ}

/-- What a request takes in the worst case. -/
def gapFor (align : ℕ) : ℕ := if minAlign < align then align + header else 0

def needFor (align size : ℕ) : ℕ := up size minAlign + gapFor (max align minAlign)

/-- The payload is sixteen below a multiple of the alignment, and what would be cut off in front of
it has no room for a header. -/
def Squeezed (align block : ℕ) : Prop := minAlign < align ∧ align ∣ block + header + minAlign

theorem wp_leading :
    wp T (leading align) Q F h ↔ (gapFor align < 2 ^ 64 → Q (gapFor align) h) ∧
      (¬ gapFor align < 2 ^ 64 → T) := by
  rw [leading, gapFor]
  split
  · exact wp_add_or
  · simp

section Powers

variable (hpow : align.isPowerOfTwo)
include hpow

theorem minAlign_dvd_max : minAlign ∣ max align minAlign := by
  obtain ⟨k, rfl⟩ := hpow
  have hmin : minAlign = 2 ^ 4 := rfl
  rw [hmin]
  rcases Nat.lt_or_ge k 4 with hk | hk
  · rw [max_eq_right (Nat.pow_le_pow_right (by decide) hk.le)]
  · rw [max_eq_left (Nat.pow_le_pow_right (by decide) hk)]
    exact Nat.pow_dvd_pow 2 hk

theorem dvd_max_minAlign : align ∣ max align minAlign := by
  obtain ⟨k, rfl⟩ := hpow
  have hmin : minAlign = 2 ^ 4 := rfl
  rw [hmin]
  rcases Nat.lt_or_ge k 4 with hk | hk
  · rw [max_eq_right (Nat.pow_le_pow_right (by decide) hk.le)]
    exact Nat.pow_dvd_pow 2 hk.le
  · rw [max_eq_left (Nat.pow_le_pow_right (by decide) hk)]

/-- **Where a block can be cut**: everywhere but in the one place. -/
theorem cut_iff {a : ℕ} (ha : minAlign ∣ a) :
    (a + header = up (a + header) (max align minAlign) ∨
      a + header + header ≤ up (a + header) (max align minAlign)) ↔ ¬ Squeezed align a := by
  have hmax : 0 < max align minAlign := lt_max_of_lt_right (by decide)
  obtain ⟨hdvd, hle, hlt⟩ := up_spec (a + header) hmax
  have h16 := (minAlign_dvd_max hpow).trans hdvd
  constructor
  · rintro hcut ⟨halign, hsq⟩
    rw [max_eq_left halign.le] at hcut hdvd hle hlt
    have hup : up (a + header) align ≤ a + header + minAlign :=
      Bits.roundUp_le (by omega) hsq (Nat.le_add_right ..)
    have hdiff := Nat.le_of_dvd (n := a + header + minAlign - up (a + header) align)
      (by simp only [minAlign, header] at *; omega) (Nat.dvd_sub hsq hdvd)
    simp only [minAlign, header] at *
    omega
  · intro hsq
    by_contra hcut
    simp only [minAlign, header] at *
    have heq : up (a + 32) (max align 16) = a + 32 + 16 := by omega
    refine hsq ⟨?_, ?_⟩
    · by_contra hsmall
      have hmax : max align 16 = 16 := max_eq_right (Nat.le_of_not_lt hsmall)
      omega
    · have heq' : a + header + minAlign = up (a + 32) (max align 16) := heq.symm
      rw [heq']
      exact (dvd_max_minAlign hpow).trans hdvd

end Powers

/-- What an allocation leaves that answers `p`: `c` is taken, and nothing is lost. -/
structure Grants (h : Heap) (l : List Chunk) (align size p : ℕ) (h' : Heap) (l' : List Chunk)
    (c : Chunk) : Prop where
  sound : h'.Sound l'
  addr : c.addr + header = p
  perm : (used l').Perm (c :: used l)
  fits : size ≤ c.size
  aligned : max align minAlign ∣ p
  kept : ∀ e ∈ used l, ∀ x ∈ e.payload, h'.memory x = h.memory x

theorem Supplied.tiled {room : ℕ} (hsup : Supplied answer room source l source' l')
    (ht : Tiled source l) (hk : Keeps source answer) :
    Tiled source' l' ∧ used l' = used l := by
  rcases hsup with ⟨rfl, rfl⟩ | ⟨-, base, hanswer, rfl, rfl⟩
  · exact ⟨ht, rfl⟩
  · refine ⟨ht.fresh hk hanswer, ?_⟩
    rw [used_append, used_cons_of_free rfl]
    exact List.append_nil _

/-- No sum leaves 64 bits, and the block is not squeezed, which is the first with room or, where
there is none, begins the region that is answered. -/
def Fits (answer : ℕ → Option ℕ) (align size : ℕ) (first : Option ℕ) : Prop :=
  needFor align size < 2 ^ 64 ∧ (∀ b, first = some b → ¬ Squeezed align b) ∧
    (first = none → asked (needFor align size + header) < 2 ^ 64 ∧
      ∀ base, answer (asked (needFor align size + header)) = some base → ¬ Squeezed align base)

/-- **Allocation.** Either nothing is found and the source refuses, or a block is taken. It stops
only where the request does not fit. -/
theorem wp_allocBlock (hs : h.Sound l) (hk : Keeps h.source answer) (hpow : align.isPowerOfTwo)
    (hpos : 0 < size) (hlt : size < 2 ^ 64)
    (hT : ¬ T → Fits answer align size ((firstFit (needFor align size) l).map Chunk.addr))
    (hno : Fits answer align size ((firstFit (needFor align size) l).map Chunk.addr) →
      firstFit (needFor align size) l = none →
      answer (asked (needFor align size + header)) = none → Q 0 h)
    (hyes : ∀ p h' l' c, Grants h l align size p h' l' c →
      Fits answer align size ((firstFit (needFor align size) l).map Chunk.addr) →
      (firstFit (needFor align size) l = none →
        answer (asked (needFor align size + header)) ≠ none) → Q p h') :
    wp T (allocBlock answer size align) Q F h := by
  set a := max align minAlign with ha
  set want := up size minAlign with hwant
  obtain ⟨hwdvd, hwle, hwlt⟩ := up_spec size (show 0 < minAlign by decide)
  rw [← hwant] at hwdvd hwle hwlt
  have hneed : needFor align size = want + gapFor a := rfl
  rw [hneed] at hT hno hyes
  have hsum : ¬ T → want + gapFor a < 2 ^ 64 := fun hT' => (hT hT').1
  rw [allocBlock, wp_bind, wp_roundUp (by decide) hlt]
  refine ⟨fun _ => ?_, fun hover => by_contra fun hT' =>
    hover ((Nat.le_add_right ..).trans_lt (hsum hT'))⟩
  rw [wp_bind, wp_leading]
  refine ⟨fun _ => ?_, fun hover => by_contra fun hT' =>
    hover ((Nat.le_add_left ..).trans_lt (hsum hT'))⟩
  rw [wp_bind, wp_add_or]
  refine ⟨fun hfit₀ => ?_, fun hover => by_contra fun hT' => hover (hsum hT')⟩
  rw [wp_bind]
  refine wp_findOrGrow hs.lists hs.tiled.laid (fun base hb => (hs.tiled.fresh hk hb).laid)
    (fun hT' hnone => ((hT hT').2.2 (Option.map_eq_none_iff.mpr hnone)).1)
    (fun hnone hasked hrefused => ?_) ?_
  · rw [if_pos rfl, wp_pure]
    refine hno ⟨hfit₀, fun b hb => ?_, fun _ => ⟨hasked, fun base hb => ?_⟩⟩ hnone hrefused
    · have hb' := hb.symm.trans (Option.map_eq_none_iff.mpr hnone)
      cases hb'
    · cases hrefused.symm.trans hb
  · intro d source' l' h' hsup hfit hsame he
    obtain ⟨ht, hused⟩ := hsup.tiled hs.tiled hk
    obtain ⟨hfree, hroom⟩ : d.isFree ∧ want + gapFor a ≤ d.size := by
      simpa using List.find?_some hfit
    obtain ⟨l₁, l₂, rfl⟩ := List.append_of_mem (List.mem_of_find?_eq_some hfit)
    have hmem : d ∈ l₁ ++ d :: l₂ := List.mem_append_right _ List.mem_cons_self
    obtain ⟨hgrain, hgrain'⟩ := ht.grain d hmem
    have hs' : h'.Sound (l₁ ++ d :: l₂) :=
      ⟨he.lists, he.source ▸ ht, by rw [he.liveBytes, hused]; exact hs.liveBytes,
        by rw [he.liveBlocks, hused]; exact hs.liveBlocks⟩
    obtain ⟨hbytes, hblocks⟩ := hs'.counters hfree
    have hnull := (ht.laid.pos d hmem).ne'
    rw [if_neg hnull]
    -- the block is the one the request is about
    have hfresh : firstFit (want + gapFor a) l = none →
        asked (want + gapFor a + header) < 2 ^ 64 ∧
          answer (asked (want + gapFor a + header)) = some d.addr := by
      intro hfirst
      rcases hsup with ⟨-, heq⟩ | ⟨hasked, base, hanswer, -, heq⟩
      · rw [heq, hfirst] at hfit
        cases hfit
      · rw [heq, firstFit_append, hfirst, Option.none_or] at hfit
        have hd : d = fresh base (asked (want + gapFor a + header)) := by
          simpa using List.mem_of_find?_eq_some hfit
        rw [hd]
        exact ⟨hasked, hanswer⟩
    have hsqueezed : Fits answer align size ((firstFit (want + gapFor a) l).map Chunk.addr) ↔
        ¬ Squeezed align d.addr := by
      constructor
      · intro hf hsq
        cases hfirst : firstFit (want + gapFor a) l with
        | some e =>
          obtain rfl := hsame e hfirst
          exact hf.2.1 e.addr (by rw [hfirst, Option.map_some]) hsq
        | none => exact (hf.2.2 (Option.map_eq_none_iff.mpr hfirst)).2 _ (hfresh hfirst).2 hsq
      · intro hsq
        refine ⟨hfit₀, fun b hb => ?_, fun hnone => ?_⟩
        · obtain ⟨e, hfirst, rfl⟩ := Option.map_eq_some_iff.mp hb
          rwa [hsame e hfirst]
        · have hfresh := hfresh (Option.map_eq_none_iff.mp hnone)
          refine ⟨hfresh.1, fun base hb => ?_⟩
          obtain rfl := Option.some.inj (hfresh.2.symm.trans hb)
          exact hsq
    set q := up (d.addr + header) a with hq
    have hmax : 0 < a := lt_max_of_lt_right (by decide)
    obtain ⟨hqdvd, hqle, hqlt⟩ := up_spec (d.addr + header) hmax
    have hfits : q + want ≤ d.limit := by
      by_cases halign : minAlign < a
      · rw [gapFor, if_pos halign] at hroom
        simp only [Chunk.limit]
        omega
      · have hsmall : a = minAlign := Nat.le_antisymm (Nat.le_of_not_lt halign) (le_max_right ..)
        have hle : q ≤ d.addr + header :=
          Bits.roundUp_le hmax (by rw [hsmall]; simp only [minAlign, header] at *; omega)
            (Nat.le_refl _)
        simp only [Chunk.limit]
        omega
    refine wp_takeAligned he.lists ht.laid hfree hmax (hpos.trans_le hwle) hfits
      (fun hT' => ?_) (fun _ => ?_) hbytes hblocks fun h'' n hin hcut he' => ?_
    · exact ((cut_iff hpow hgrain).mpr (hsqueezed.mp (hT hT'))).imp_left Eq.symm
    · have hpos' := ht.laid.pos d hmem
      have hlimit := ht.laid.fits d hmem
      simp only [minAlign, header, Chunk.limit] at *
      omega
    · have hq16 : minAlign ∣ q := (minAlign_dvd_max hpow).trans hqdvd
      have hparts : Parts source' d (carved d q want) :=
        .carved ⟨hgrain, hgrain'⟩ hwdvd hq16 hcut (by omega)
      have htiled := ht.parts hfree hparts
      obtain ⟨htaken, hsize⟩ := used_carved hin hfits
      have hlist : used (l₁ ++ carved d q want ++ l₂) =
          used l₁ ++ ⟨q - header, n, false⟩ :: used l₂ := by
        rw [used_append, used_append, htaken, List.append_assoc, List.singleton_append]
      have hold : used l = used l₁ ++ used l₂ := by
        rw [← hused, used_append, used_cons_of_free hfree]
      have hperm : (used (l₁ ++ carved d q want ++ l₂)).Perm
        (⟨q - header, n, false⟩ :: used l) := by
        rw [hlist, hold]
        exact List.perm_middle
      have hback : q - header + header = q := by omega
      refine hyes q _ _ _ ⟨⟨⟨he'.lists.ring, he'.lists.size, he'.lists.isFree⟩, ?_, ?_, ?_⟩, hback,
        hperm, ?_, hqdvd, fun e heu x hx => ?_⟩ (hsqueezed.mpr ((cut_iff hpow hgrain).mp hcut))
            fun hfirst => ?_
      · have hsource : h''.source = source' := he'.source.trans he.source
        exact hsource ▸ htiled
      · rw [(hperm.map Chunk.size).sum_eq, List.map_cons, List.sum_cons, ← hs.liveBytes,
          he.liveBytes, Nat.add_comm]
      · rw [hperm.length_eq, List.length_cons, ← hs.liveBlocks, he.liveBlocks]
      · exact hwle.trans hsize
      · have hin' : e ∈ l₁ ++ d :: l₂ := (mem_used.mp (hused ▸ heu)).1
        have hin'' : e ∈ l₁ ++ carved d q want ++ l₂ :=
          (mem_used.mp (hperm.mem_iff.mpr (.tail _ heu))).1
        have h₁ := he'.kept x fun b hb => htiled.laid.outside hin'' hx hb
        have h₂ := he.kept x fun b hb => ht.laid.outside hin' hx hb
        exact h₁.trans h₂
      · exact fun hnone => Option.some_ne_none _ ((hfresh hfirst).2.symm.trans hnone)

theorem Laid.payloads (hl : Laid l) :
    (used l).Pairwise fun b c => b.payload.Disjoint c.payload := by
  have hextents := (List.pairwise_map.mp hl.apart).sublist
    (List.filter_sublist (p := fun c => !c.isFree))
  refine hextents.imp fun {b c} hbc x hx hxc => hbc x ?_ ?_
  · rw [mem_payload] at hx
    exact mem_extent.mpr (by omega)
  · rw [mem_payload] at hxc
    exact mem_extent.mpr (by omega)

theorem Grants.apart {p size : ℕ} (hg : Grants h l align size p h' l' c) (he : e ∈ used l) :
    c.payload.Disjoint e.payload := by
  have hpairs := (hg.perm.pairwise_iff fun h => Block.Disjoint.symm h).mp
    hg.sound.tiled.laid.payloads
  exact (List.pairwise_cons.mp hpairs).1 e he

theorem Grants.mem {p size : ℕ} (hg : Grants h l align size p h' l' c) : c ∈ used l' :=
  hg.perm.mem_iff.mpr List.mem_cons_self

/-- What is allocated may be written to. -/
theorem Grants.write {p size : ℕ} {m : ByteMemory} (hg : Grants h l align size p h' l' c)
    (hm : ∀ i, i ∉ c.payload → m i = h'.memory i) :
    Grants h l align size p { h' with memory := m } l' c where
  sound := hg.sound.write fun i hi => hm i (hi c hg.mem)
  addr := hg.addr
  perm := hg.perm
  fits := hg.fits
  aligned := hg.aligned
  kept e he x hx := (hm x fun hxc => hg.apart he x hxc hx).trans (hg.kept e he x hx)

theorem Grants.ne_zero {p size : ℕ} (hg : Grants h l align size p h' l' c) : p ≠ 0 := by
  have haddr := hg.addr
  simp only [header] at haddr
  omega

theorem allocAligned_eq (answer : ℕ → Option ℕ) (size align : ℕ) :
    allocAligned answer size align = allocBlock answer (max size 1) align := by
  rw [allocAligned]
  split
  · next hzero => rw [hzero, Nat.zero_max]
  · next hsize => rw [max_eq_left (Nat.one_le_iff_ne_zero.mpr hsize)]

/-- What a call comes to, where it does not stop. -/
def outcome {α : Type} (x : Code α) (h : Heap) : Option (α × Heap) :=
  match x h with
  | .ok a h' => some (a, h')
  | .error _ _ => none

/-- The block that the search finds, if it finds one. -/
def found (size : ℕ) (h : Heap) : Option ℕ :=
  ((outcome (findFree size) h).map Prod.fst).filter fun b => b ≠ 0

theorem found_eq (hs : h.Sound l) (size : ℕ) :
    found size h = (firstFit size l).map Chunk.addr := by
  have hrun : findFree size h = .ok (((firstFit size l).map Chunk.addr).getD 0) h :=
    ok_of_wp (wp_findFree hs.lists hs.tiled.laid ⟨rfl, rfl⟩)
  rw [found, outcome, hrun]
  cases hfit : firstFit size l with
  | none => rfl
  | some c =>
    have hpos := hs.tiled.laid.pos c (List.mem_of_find?_eq_some hfit)
    simp [hpos.ne']

/-- A request of this heap fits. Nothing is asked for as one byte is. -/
def Heap.Fits (h : Heap) (answer : ℕ → Option ℕ) (align size : ℕ) : Prop :=
  Malloc.Fits answer align (max size 1) (found (needFor align (max size 1)) h)

/-- No block has room, and the source refuses. -/
def Heap.Refuses (h : Heap) (answer : ℕ → Option ℕ) (align size : ℕ) : Prop :=
  found (needFor align (max size 1)) h = none ∧
    answer (asked (needFor align (max size 1) + header)) = none

/-- What an allocation answers: null, and nothing has changed, or a block. -/
def Outcome (h : Heap) (l : List Chunk) (answer : ℕ → Option ℕ) (align size p : ℕ) (h' : Heap) :
    Prop :=
  h.Refuses answer align size ∧ p = 0 ∧ h' = h ∨
    ¬ h.Refuses answer align size ∧ ∃ l' c, Grants h l align size p h' l' c

theorem wp_allocAligned (hs : h.Sound l) (hk : Keeps h.source answer) (hpow : align.isPowerOfTwo)
    (hlt : size < 2 ^ 64) (hT : ¬ T → h.Fits answer align size)
    (hQ : ∀ p h', h.Fits answer align size → Outcome h l answer align size p h' → Q p h') :
    wp T (allocAligned answer size align) Q F h := by
  rw [Heap.Fits, found_eq hs] at hT hQ
  rw [allocAligned_eq]
  refine wp_allocBlock hs hk hpow (lt_max_of_lt_right Nat.one_pos) (max_lt hlt (by decide)) hT
    (fun hf hnone hrefused => hQ 0 h hf (.inl ⟨⟨?_, hrefused⟩, rfl, rfl⟩))
    fun p h' l' c hg hf hsome => hQ p h' hf (.inr ⟨fun hno => ?_, l', c, hg.sound, hg.addr, hg.perm,
      (le_max_left ..).trans hg.fits, hg.aligned, hg.kept⟩)
  · rw [found_eq hs, hnone, Option.map_none]
  · have hnone := hno.1
    rw [found_eq hs, Option.map_eq_none_iff] at hnone
    exact hsome hnone hno.2

theorem wp_alloc (hs : h.Sound l) (hk : Keeps h.source answer) (hlt : size < 2 ^ 64)
    (hT : ¬ T → h.Fits answer minAlign size)
    (hQ : ∀ p h', h.Fits answer minAlign size → Outcome h l answer minAlign size p h' → Q p h') :
    wp T (alloc answer size) Q F h :=
  wp_allocAligned hs hk ⟨4, rfl⟩ hlt hT hQ

theorem wp_calloc {count : ℕ} (hs : h.Sound l) (hk : Keeps h.source answer)
    (hT : ¬ T → count * size < 2 ^ 64 → h.Fits answer minAlign (count * size))
    (hno : (count * size < 2 ^ 64 → h.Fits answer minAlign (count * size)) → Q 0 h)
    (hyes : ∀ p h' l' c, (count * size < 2 ^ 64 → h.Fits answer minAlign (count * size)) →
      Grants h l minAlign (count * size) p h' l' c →
      (∀ i < count * size, h'.memory (p + i) = 0) → Q p h') :
    wp T (calloc answer count size) Q F h := by
  rw [calloc, checkedMul]
  split
  · next hnone =>
    refine (wp_pure 0).mpr (hno fun hlt => ?_)
    rw [if_pos hlt] at hnone
    cases hnone
  · next total hsome =>
    obtain ⟨hlt, htotal⟩ := Option.ite_none_right_eq_some.mp hsome
    obtain rfl := Option.some.inj htotal
    rw [wp_bind]
    refine wp_alloc hs hk hlt (fun hT' => hT hT' hlt) fun p h' hf hout => ?_
    rcases hout with ⟨-, rfl, rfl⟩ | ⟨-, l', c, hg⟩
    · rw [if_neg (not_not.mpr rfl)]
      exact (wp_pure 0).mpr (hno fun _ => hf)
    · rw [if_pos hg.ne_zero]
      simp only [wp_bind, wp_modify, wp_pure]
      rw [Primitives.memset_eq]
      have haddr := hg.addr
      have hfits := hg.fits
      refine hyes p _ l' c (fun _ => hf) (hg.write fun i hi => if_neg fun hin => hi ?_) fun i hi =>
        ?_
      · rw [mem_payload, Chunk.limit]
        omega
      · exact if_pos ⟨Nat.le_add_right .., Nat.add_lt_add_left hi p⟩

theorem wp_free {Q : Unit → Heap → Prop} (hs : h.Sound l) (hc : c ∈ used l)
    (hQ : ∀ h' l', h'.Sound l' → h'.source = h.source → (used l).Perm (c :: used l') →
      (∀ e ∈ used l, ∀ x ∈ e.payload, h'.memory x = h.memory x) → Q () h') :
    wp T (free (c.addr + header)) Q F h := by
  obtain ⟨hmem, htaken⟩ := mem_used.mp hc
  obtain ⟨l₁, l₂, rfl⟩ := List.append_of_mem hmem
  have hlaid := hs.tiled.laid
  have hused : used (l₁ ++ c :: l₂) = used l₁ ++ c :: used l₂ := by
    rw [used_append, used_cons_of_taken htaken]
  have he := Edited.setFree hs.lists hlaid true
  have hsize : (h.setFree c.addr true).size c.addr = c.size :=
    he.lists.size ⟨c.addr, c.size, true⟩ (by simp)
  have hbytes : (h.setFree c.addr true).liveBytes =
    c.size + ((used l₁ ++ used l₂).map Chunk.size).sum := by
    rw [he.liveBytes, hs.liveBytes, hused]
    simp only [List.map_append, List.map_cons, List.sum_append, List.sum_cons]
    omega
  have hblocks : (h.setFree c.addr true).liveBlocks = (used l₁ ++ used l₂).length + 1 := by
    rw [he.liveBlocks, hs.liveBlocks, hused]
    simp only [List.length_append, List.length_cons]
    omega
  have hnull : c.addr + header ≠ 0 := by simp only [header]; omega
  rw [free, if_neg hnull, Nat.add_sub_cancel]
  simp only [wp_bind, wp_modify, wp_get, hsize]
  rw [wp_sub_of_le (by omega), wp_sub_of_le (by omega)]
  have hlists : Heap.Lists
      { h.setFree c.addr true with
        liveBytes := (h.setFree c.addr true).liveBytes - c.size,
        liveBlocks := (h.setFree c.addr true).liveBlocks - 1 }
      (l₁ ++ ⟨c.addr, c.size, true⟩ :: l₂) :=
    ⟨he.lists.ring, he.lists.size, he.lists.isFree⟩
  refine wp_coalesce (d := ⟨c.addr, c.size, true⟩) hlists (hlaid.setFree true) rfl
    fun h' l' hg he' => ?_
  have hused' : used l' = used l₁ ++ used l₂ := by
    rw [hg.used, used_append, used_cons_of_free rfl]
  have hsource : h'.source = h.source := he'.source.trans he.source
  refine hQ h' l' ⟨he'.lists, hsource ▸ hs.tiled.glued hg, ?_, ?_⟩ hsource ?_ fun e heu x hx => ?_
  · rw [he'.liveBytes, hused', hbytes, Nat.add_sub_cancel_left]
  · rw [he'.liveBlocks, hused', hblocks, Nat.add_sub_cancel]
  · rw [hused, hused']
    exact List.perm_middle
  · have hin := (mem_used.mp heu).1
    have h₁ := he'.kept x fun b hb => hlaid.outside hin hx (by simpa using hb)
    have h₂ := he.kept x fun b hb => hlaid.outside hin hx hb
    exact h₁.trans h₂

/-- What is left when a block is made larger, in its place or in another: `d` has what `c` had. -/
structure Moves (h : Heap) (l : List Chunk) (c : Chunk) (size p : ℕ) (h' : Heap) (l' : List Chunk)
    (d : Chunk) : Prop where
  sound : h'.Sound l'
  addr : d.addr + header = p
  fits : size ≤ d.size
  aligned : minAlign ∣ p
  perm : ∃ rest, (used l).Perm (c :: rest) ∧ (used l').Perm (d :: rest)
  kept : ∀ e ∈ used l, ∀ x ∈ e.payload, h'.memory x = h.memory x
  copied : ∀ i < c.size, h'.memory (p + i) = h.memory (c.addr + header + i)

theorem realloc_null (answer : ℕ → Option ℕ) (size : ℕ) :
    realloc answer 0 size = alloc answer size := by
  rw [realloc, if_pos rfl]

theorem wp_realloc_zero (hs : h.Sound l) (hc : c ∈ used l)
    (hQ : ∀ h' l', h'.Sound l' → h'.source = h.source → (used l).Perm (c :: used l') →
      (∀ e ∈ used l, ∀ x ∈ e.payload, h'.memory x = h.memory x) → Q 0 h') :
    wp T (realloc answer (c.addr + header) 0) Q F h := by
  have hnull : c.addr + header ≠ 0 := by simp only [header]; omega
  rw [realloc, if_neg hnull, if_pos rfl, wp_bind]
  refine wp_free hs hc fun h' l' hs' hsource hperm hkept => ?_
  exact (wp_pure 0).mpr (hQ h' l' hs' hsource hperm hkept)

theorem wp_realloc (hs : h.Sound l) (hk : Keeps h.source answer) (hc : c ∈ used l)
    (hpos : size ≠ 0) (hlt : size < 2 ^ 64)
    (hT : ¬ T → c.size < size → h.Fits answer minAlign size)
    (hno : (c.size < size → h.Fits answer minAlign size) → Q 0 h)
    (hyes : ∀ p h' l' d, (c.size < size → h.Fits answer minAlign size) →
      Moves h l c size p h' l' d → Q p h') :
    wp T (realloc answer (c.addr + header) size) Q F h := by
  have hmem := (mem_used.mp hc).1
  have hnull : c.addr + header ≠ 0 := by simp only [header]; omega
  have hperm : (used l).Perm (c :: (used l).erase c) := List.perm_cons_erase hc
  rw [realloc, if_neg hnull, if_neg hpos, Nat.add_sub_cancel]
  simp only [wp_bind, wp_get, hs.lists.size c hmem]
  split
  · next hfits =>
    have hgrain := (hs.tiled.grain c hmem).1
    refine (wp_pure _).mpr (hyes _ h l c (fun hlt => absurd hfits (Nat.not_le.mpr hlt))
      ⟨hs, rfl, hfits, ?_, ⟨_, hperm, hperm⟩, fun _ _ _ _ => rfl, fun _ _ => rfl⟩)
    simp only [minAlign, header] at *
    omega
  · next hmore =>
    rw [wp_bind]
    refine wp_alloc hs hk hlt (fun hT' => hT hT' (Nat.lt_of_not_le hmore)) fun p h₁ hf hout => ?_
    rcases hout with ⟨-, rfl, rfl⟩ | ⟨-, l₁, d, hg⟩
    · rw [if_pos rfl]
      exact (wp_pure 0).mpr (hno fun _ => hf)
    · have haddr := hg.addr
      have hfits := hg.fits
      have hapart := hg.apart hc
      have hsides : p + c.size ≤ c.addr + header ∨ c.addr + header + c.size ≤ p := by
        by_contra hover
        have hx := hapart (max p (c.addr + header))
        simp only [mem_payload, Chunk.limit] at hx
        omega
      have hmoved : ∀ i, i ∉ d.payload →
          Primitives.moved h₁.memory p (c.addr + header) 0 c.size i = h₁.memory i := by
        intro i hi
        refine Primitives.moved_of_not_mem fun hin => hi ?_
        rw [mem_payload, Chunk.limit]
        omega
      have hg' := hg.write hmoved
      have hc' : c ∈ used l₁ := hg.perm.mem_iff.mpr (.tail _ hc)
      rw [if_neg hg.ne_zero]
      simp only [wp_bind, wp_modify]
      rw [Primitives.memcpy_eq _ hsides]
      refine wp_free hg'.sound hc' fun h' l' hs' _ hperm' hkept' => (wp_pure p).mpr ?_
      refine hyes p h' l' d (fun _ => hf) ⟨hs', haddr, hfits, (dvd_max_minAlign ⟨4, rfl⟩).trans
        hg.aligned,
        ⟨_, hperm, ?_⟩, fun e he x hx => ?_, fun i hi => ?_⟩
      · have hswap := (hperm'.symm.trans hg.perm).trans ((hperm.cons d).trans (.swap ..))
        exact (List.perm_cons c).mp hswap
      · have he' : e ∈ used l₁ := hg.perm.mem_iff.mpr (.tail _ he)
        exact (hkept' e he' x hx).trans (hg'.kept e he x hx)
      · have hin : p + i ∈ d.payload := by
          rw [mem_payload, Chunk.limit]
          omega
        have hsame : h₁.memory (c.addr + header + i) = h.memory (c.addr + header + i) :=
          hg.kept c hc _ (by rw [mem_payload, Chunk.limit]; omega)
        rw [hkept' d hg.mem (p + i) hin, ← hsame]
        refine (if_pos (by omega)).trans ?_
        rw [Nat.add_sub_cancel_left]

end Malloc

end StarOS
