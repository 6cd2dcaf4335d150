import StarOS.Lib.EventSystem
import StarOS.Libc.MallocCalls

/-!
# A program and its heap

A program allocates, releases and resizes, and writes to what it holds, in any order and as often as
it likes; the page source answers each request for memory as it likes, with memory that is new. One
call is made after the other: those that are made at once wait for one another at a lock.

A call stops where a computation leaves 64 bits. That happens to requests that are too large, and to
an aligned one for which the payload of the block that is found lies sixteen below a multiple of the
alignment: the gap in front is then less than a header.

## Main definitions

* `Malloc.sessions`
* `Malloc.Allowed` — what the program and the source owe
* `Malloc.Event.Fits` — no computation of the event leaves 64 bits
* `Malloc.Session.Exact` — what the heap is to the program

## Main results

* `Malloc.malloc_exact`
-/

namespace StarOS

namespace Malloc

open Checked

variable {source source' : List Block} {l l' l₁ l₂ rest : List Chunk} {b c d e : Chunk}
  {T : Prop} {h h' : Heap} {answer : ℕ → Option ℕ} {align size : ℕ}

/-- A piece of memory the program holds, and what it has put there. -/
structure Grant where
  ptr : ℕ
  size : ℕ
  align : ℕ
  bytes : ℕ → BitVec 8

structure Session where
  heap : Heap
  live : List Grant

inductive Event
  | alignedAlloc (answer : ℕ → Option ℕ) (align size : ℕ)
  | malloc (answer : ℕ → Option ℕ) (size : ℕ)
  | calloc (answer : ℕ → Option ℕ) (count size : ℕ)
  | free (ptr : ℕ)
  | realloc (answer : ℕ → Option ℕ) (ptr size : ℕ)
  /-- The program writes a byte. -/
  | store (ptr i : ℕ) (b : BitVec 8)

namespace Session

variable (s : Session)

def granted (h : Heap) (p size align : ℕ) (bytes : ℕ → BitVec 8) : Session :=
  if p = 0 then ⟨h, s.live⟩ else ⟨h, ⟨p, size, align, bytes⟩ :: s.live⟩

def without (ptr : ℕ) : List Grant := s.live.filter fun g => g.ptr ≠ ptr

/-- A call to `realloc` for the grant `g`. -/
def resized (g : Grant) (h : Heap) (p size : ℕ) : Session :=
  if size = 0 then ⟨h, s.without g.ptr⟩
  else if p = 0 then ⟨h, s.live⟩
  else ⟨h, ⟨p, size, minAlign, fun i => if i < g.size then g.bytes i else h.memory (p + i)⟩ ::
    s.without g.ptr⟩

def next : Event → Option Session
  | .alignedAlloc answer align size =>
    (outcome (alignedAlloc answer align size) s.heap).map fun r =>
      s.granted r.2 r.1 size align fun i => r.2.memory (r.1 + i)
  | .malloc answer size =>
    (outcome (alloc answer size) s.heap).map fun r =>
      s.granted r.2 r.1 size minAlign fun i => r.2.memory (r.1 + i)
  | .calloc answer count size =>
    (outcome (calloc answer count size) s.heap).map fun r =>
      s.granted r.2 r.1 (count * size) minAlign fun _ => 0
  | .free ptr =>
    if ptr = 0 ∨ ∃ g ∈ s.live, g.ptr = ptr then
      (outcome (free ptr) s.heap).map fun r => ⟨r.2, s.without ptr⟩
    else none
  | .realloc answer ptr size =>
    if ptr = 0 then
      (outcome (realloc answer ptr size) s.heap).map fun r =>
        s.granted r.2 r.1 size minAlign fun i => r.2.memory (r.1 + i)
    else
      (s.live.find? fun g => g.ptr = ptr).bind fun g =>
        (outcome (realloc answer ptr size) s.heap).map fun r => s.resized g r.2 r.1 size
  | .store ptr i b =>
    (s.live.find? fun g => g.ptr = ptr ∧ i < g.size).map fun g =>
      ⟨{ s.heap with memory := Function.update s.heap.memory (ptr + i) b },
        { g with bytes := Function.update g.bytes i b } :: s.without ptr⟩

end Session

/-- A program and its heap, from the first call on. -/
def sessions : EventSystem Session Event where
  init s := s.heap.source = [] ∧ s.heap.head = 0 ∧ s.heap.tail = 0 ∧ s.heap.liveBytes = 0 ∧
    s.heap.liveBlocks = 0 ∧ s.live = []
  next := Session.next

/-- Arguments are of 64 bits, pointers are to what the program holds, and the source keeps its
word. -/
def Allowed (s : Session) : Event → Prop
  | .alignedAlloc answer _ size => Keeps s.heap.source answer ∧ size < 2 ^ 64
  | .malloc answer size => Keeps s.heap.source answer ∧ size < 2 ^ 64
  | .calloc answer _ _ => Keeps s.heap.source answer
  | .free ptr => ptr = 0 ∨ ∃ g ∈ s.live, g.ptr = ptr
  | .realloc answer ptr size =>
    (Keeps s.heap.source answer ∧ size < 2 ^ 64) ∧ (ptr = 0 ∨ ∃ g ∈ s.live, g.ptr = ptr)
  | .store ptr i _ => ∃ g ∈ s.live, g.ptr = ptr ∧ i < g.size

/-- No computation leaves 64 bits. -/
def Event.Fits (s : Session) : Event → Prop
  | .alignedAlloc answer align size => align.isPowerOfTwo → s.heap.Fits answer align size
  | .malloc answer size => s.heap.Fits answer minAlign size
  | .calloc answer count size =>
    count * size < 2 ^ 64 → s.heap.Fits answer minAlign (count * size)
  | .free _ => True
  | .realloc answer ptr size =>
    if ptr = 0 then s.heap.Fits answer minAlign size
    else s.heap.size (ptr - header) < size → s.heap.Fits answer minAlign size
  | .store _ _ _ => True

variable {s : Session} {g : Grant}

/-- The block of a grant is large enough, it is aligned, and holds what was put there. -/
structure Holds (h : Heap) (c : Chunk) (g : Grant) : Prop where
  ptr : c.payload.addr = g.ptr
  size : g.size ≤ c.size
  aligned : g.align ∣ g.ptr ∧ minAlign ∣ g.ptr
  bytes : ∀ i < g.size, h.memory (g.ptr + i) = g.bytes i

theorem Holds.mem {g : Grant} (hg : Holds h c g) {i : ℕ} (hi : i < g.size) :
    g.ptr + i ∈ c.payload := by
  have hptr := hg.ptr
  have hsize := hg.size
  rw [← hptr, Block.mem_iff, Block.limit]
  simp only [Chunk.payload]
  omega

theorem Holds.of_kept {g : Grant} (hg : Holds h c g)
    (hkept : ∀ x ∈ c.payload, h'.memory x = h.memory x) : Holds h' c g :=
  ⟨hg.ptr, hg.size, hg.aligned, fun i hi => (hkept _ (hg.mem hi)).trans (hg.bytes i hi)⟩

/-- The heap is sound, and the blocks that are taken are those the program holds. -/
structure Session.Sound (s : Session) (l : List Chunk) : Prop where
  heap : s.heap.Sound l
  live : (s.live.map Grant.ptr).Perm ((used l).map fun c => c.payload.addr)
  holds : ∀ g ∈ s.live, ∃ c ∈ used l, Holds s.heap c g

theorem Laid.nodup_payload (hl : Laid l) : ((used l).map fun c => c.payload.addr).Nodup := by
  have haddrs : ((used l).map Chunk.addr).Nodup := hl.nodup.sublist (List.filter_sublist.map _)
  have hmap : ((used l).map fun c => c.payload.addr) = ((used l).map Chunk.addr).map
    (· + header) := by
    rw [List.map_map]
    rfl
  rw [hmap]
  exact haddrs.map fun _ _ heq => Nat.add_right_cancel heq

/-- A block that a grant is for. -/
theorem Session.Sound.find (hs : s.Sound l) (hg : g ∈ s.live) :
    ∃ c ∈ used l, Holds s.heap c g ∧ c.addr + header = g.ptr := by
  obtain ⟨c, hc, hh⟩ := hs.holds g hg
  exact ⟨c, hc, hh, hh.ptr⟩

theorem Session.Sound.without_null (hs : s.Sound l) : s.without 0 = s.live := by
  refine List.filter_eq_self.mpr fun g hg => ?_
  obtain ⟨c, -, -, hptr⟩ := hs.find hg
  have hne : g.ptr ≠ 0 := by simp only [header] at hptr; omega
  simpa using hne

/-- The grants but one are for the other blocks. -/
theorem Session.Sound.without (hs : s.Sound l) (hrest : (used l).Perm (c :: rest)) :
    ((s.without c.payload.addr).map Grant.ptr).Perm (rest.map fun c => c.payload.addr) ∧
      ∀ g ∈ s.without c.payload.addr, ∃ d ∈ rest, Holds s.heap d g := by
  have hnodup := (hrest.map fun c => c.payload.addr).nodup_iff.mp hs.heap.tiled.laid.nodup_payload
  rw [List.map_cons, List.nodup_cons] at hnodup
  constructor
  · have hperm := (hs.live.trans (hrest.map _)).filter fun a => a ≠ c.payload.addr
    rw [List.filter_map, List.map_cons, List.filter_cons_of_neg (by simp)] at hperm
    have hself : (rest.map fun c => c.payload.addr).filter (fun a => a ≠ c.payload.addr) =
        rest.map fun c => c.payload.addr := by
      refine List.filter_eq_self.mpr fun a ha => ?_
      have hne : a ≠ c.payload.addr := fun heq => hnodup.1 (heq ▸ ha)
      simpa using hne
    rw [hself] at hperm
    exact hperm
  · intro g hg
    obtain ⟨hmem, hne⟩ := List.mem_filter.mp hg
    have hne : g.ptr ≠ c.payload.addr := by simpa using hne
    obtain ⟨d, hd, hh⟩ := hs.holds g hmem
    rcases List.mem_cons.mp (hrest.mem_iff.mp hd) with rfl | hd
    · exact absurd hh.ptr.symm hne
    · exact ⟨d, hd, hh⟩

/-- A block is released. -/
theorem Session.Sound.release (hs : s.Sound l) (hs' : h'.Sound l')
    (hperm : (used l).Perm (c :: used l'))
    (hkept : ∀ e ∈ used l, ∀ x ∈ e.payload, h'.memory x = s.heap.memory x) :
    Session.Sound ⟨h', s.without c.payload.addr⟩ l' := by
  obtain ⟨hlive, hholds⟩ := hs.without hperm
  refine ⟨hs', hlive, fun g hg => ?_⟩
  obtain ⟨d, hd, hh⟩ := hholds g hg
  exact ⟨d, hd, hh.of_kept (hkept d (hperm.mem_iff.mpr (.tail _ hd)))⟩

/-- A block is granted. -/
theorem Session.Sound.granted {p : ℕ} {bytes : ℕ → BitVec 8} (hs : s.Sound l)
    (hpow : align.isPowerOfTwo) (hg : Grants s.heap l align size p h' l' c)
    (hbytes : ∀ i < size, h'.memory (p + i) = bytes i) :
    Session.Sound (s.granted h' p size align bytes) l' := by
  have haligned := (dvd_max_minAlign hpow).trans hg.aligned
  have hmin := (minAlign_dvd_max hpow).trans hg.aligned
  have haddr : c.payload.addr = p := hg.addr
  rw [Session.granted, if_neg hg.ne_zero]
  refine ⟨hg.sound, ?_, List.forall_mem_cons.mpr ⟨?_, fun g hgl => ?_⟩⟩
  · have hperm := hg.perm.map fun c => c.payload.addr
    rw [List.map_cons, haddr] at hperm
    exact (hs.live.cons p).trans hperm.symm
  · exact ⟨c, hg.mem, hg.addr, hg.fits, ⟨haligned, hmin⟩, hbytes⟩
  · obtain ⟨d, hd, hh⟩ := hs.holds g hgl
    exact ⟨d, hg.perm.mem_iff.mpr (.tail _ hd), hh.of_kept (hg.kept d hd)⟩

/-- A block is made larger. -/
theorem Session.Sound.moved {p : ℕ} (hs : s.Sound l) (hh : Holds s.heap c g)
    (hm : Moves s.heap l c size p h' l' d) :
    Session.Sound ⟨h', ⟨p, size, minAlign,
      fun i => if i < g.size then g.bytes i else h'.memory (p + i)⟩ :: s.without g.ptr⟩ l' := by
  obtain ⟨rest, hrest, hrest'⟩ := hm.perm
  obtain ⟨hlive, hholds⟩ := hs.without hrest
  rw [hh.ptr] at hlive hholds
  have haddr : d.payload.addr = p := hm.addr
  refine ⟨hm.sound, ?_, List.forall_mem_cons.mpr ⟨?_, fun e he => ?_⟩⟩
  · have hperm := hrest'.map fun c => c.payload.addr
    rw [List.map_cons, haddr] at hperm
    exact (hlive.cons p).trans hperm.symm
  · refine ⟨d, hrest'.mem_iff.mpr List.mem_cons_self, hm.addr, hm.fits, ⟨hm.aligned, hm.aligned⟩,
      fun i _ => ?_⟩
    simp only
    split
    · next hi =>
      have hptr : c.addr + header = g.ptr := hh.ptr
      rw [hm.copied i (hi.trans_le hh.size), hptr, hh.bytes i hi]
    · rfl
  · obtain ⟨f, hf, hh'⟩ := hholds e he
    exact ⟨f, hrest'.mem_iff.mpr (.tail _ hf),
      hh'.of_kept (hm.kept f (hrest.mem_iff.mpr (.tail _ hf)))⟩

/-- A byte is written to a grant. -/
theorem Session.Sound.stored {i : ℕ} (hs : s.Sound l) (hg : g ∈ s.live) (hi : i < g.size)
    (v : BitVec 8) :
    Session.Sound ⟨{ s.heap with memory := Function.update s.heap.memory (g.ptr + i) v },
      { g with bytes := Function.update g.bytes i v } :: s.without g.ptr⟩ l := by
  obtain ⟨c, hc, hh⟩ := hs.holds g hg
  have hperm : (used l).Perm (c :: (used l).erase c) := List.perm_cons_erase hc
  obtain ⟨hlive, hholds⟩ := hs.without hperm
  rw [hh.ptr] at hlive hholds
  have hpairs := (hperm.pairwise_iff fun h => Block.Disjoint.symm h).mp
    hs.heap.tiled.laid.payloads
  have hwrite : ∀ x, x ∉ c.payload →
      Function.update s.heap.memory (g.ptr + i) v x = s.heap.memory x := by
    intro x hx
    refine Function.update_of_ne (fun heq => hx ?_) _ _
    rw [heq]
    exact hh.mem hi
  refine ⟨hs.heap.write fun x hx => hwrite x (hx c hc), ?_, List.forall_mem_cons.mpr
    ⟨?_, fun e he => ?_⟩⟩
  · have haddrs := hperm.map fun c => c.payload.addr
    rw [List.map_cons, hh.ptr] at haddrs
    exact (hlive.cons g.ptr).trans haddrs.symm
  · refine ⟨c, hc, hh.ptr, hh.size, hh.aligned, fun j hj => ?_⟩
    rcases eq_or_ne j i with rfl | hne
    · have hbyte : Function.update g.bytes j v j = v := Function.update_self ..
      exact (Function.update_self ..).trans hbyte.symm
    · have hne' : g.ptr + j ≠ g.ptr + i := fun heq => hne (Nat.add_left_cancel heq)
      exact (Function.update_of_ne hne' ..).trans
        ((hh.bytes j hj).trans (Function.update_of_ne hne ..).symm)
  · obtain ⟨d, hd, hh'⟩ := hholds e he
    refine ⟨d, hperm.mem_iff.mpr (.tail _ hd), hh'.of_kept fun x hx => hwrite x fun hxc => ?_⟩
    exact (List.pairwise_cons.mp hpairs).1 d hd x hxc hx

theorem Tiled.starts (ht : Tiled source l) (hfree : ∀ c ∈ l, c.isFree) :
    ∀ c ∈ l, Starts source c.addr := by
  intro c hc
  obtain ⟨l₁, l₂, rfl⟩ := List.append_of_mem hc
  rcases List.eq_nil_or_concat' l₁ with rfl | ⟨l₀, b, rfl⟩
  · exact ht.first (by simp)
  · obtain ⟨-, -, hlink⟩ := List.isChain_append.mp ht.follows
    have hb : b ∈ l₀ ++ [b] ++ c :: l₂ := by simp
    refine (hlink b (by simp) c rfl).resolve_right fun hboth => hboth.2 ⟨hfree b hb, hfree c hc⟩

/-- What has become of a session, if the event fits. -/
def Steps (o : Option Session) (c : Prop) : Prop :=
  ((∃ s', o = some s') ↔ c) ∧ ∀ s', o = some s' → ∃ l, Session.Sound s' l

theorem steps_of_wp {α : Type} {x : Code α} {f : α × Heap → Session} {c : Prop}
    (hx : wp (¬ c) x (fun a h' => c ∧ ∃ l, Session.Sound (f (a, h')) l) (fun _ _ => True) h) :
    Steps ((outcome x h).map f) c := by
  have hok : (∃ a h', x h = .ok a h') ↔ c :=
    ok_iff (wp_mono hx (fun _ _ hQ => hQ.1) fun _ _ hF => hF)
  rw [outcome]
  split
  · next a h' heq =>
    have hQ := (wp_of_ok heq).mp hx
    exact ⟨⟨fun _ => hQ.1, fun _ => ⟨_, rfl⟩⟩, fun s' hs' => Option.some.inj hs' ▸ hQ.2⟩
  · next heq =>
    have hno : ¬ c := by
      intro hc
      obtain ⟨a, h', hrun⟩ := hok.mpr hc
      rw [hrun] at heq
      cases heq
    exact ⟨by simp [hno], by simp⟩

/-- A request is answered. -/
theorem Session.Sound.outcome {p : ℕ} (hs : s.Sound l) (hpow : align.isPowerOfTwo)
    (hout : Outcome s.heap l answer align size p h') :
    ∃ l', Session.Sound (s.granted h' p size align fun i => h'.memory (p + i)) l' := by
  rcases hout with ⟨-, rfl, rfl⟩ | ⟨-, l', c, hg⟩
  · exact ⟨l, by rwa [Session.granted, if_pos rfl]⟩
  · exact ⟨l', hs.granted hpow hg fun _ _ => rfl⟩

/-- The grant that a pointer is to. -/
theorem find_grant {q : Grant → Prop} [DecidablePred q] (hex : ∃ g ∈ s.live, q g) :
    ∃ g ∈ s.live, q g ∧ s.live.find? (fun g => q g) = some g := by
  obtain ⟨g₀, hg₀, hq₀⟩ := hex
  have hsome : (s.live.find? fun g => q g).isSome :=
    List.find?_isSome.mpr ⟨g₀, hg₀, by simpa using hq₀⟩
  obtain ⟨g, hg⟩ := Option.isSome_iff_exists.mp hsome
  exact ⟨g, List.mem_of_find?_eq_some hg, by simpa using List.find?_some hg, hg⟩

theorem Session.Sound.step_malloc {x : Code ℕ} (hs : s.Sound l) (hk : Keeps s.heap.source answer)
    (hlt : size < 2 ^ 64) (hx : x = alloc answer size) :
    Steps ((Malloc.outcome x s.heap).map fun r =>
      s.granted r.2 r.1 size minAlign fun i => r.2.memory (r.1 + i))
      (s.heap.Fits answer minAlign size) := by
  subst hx
  exact steps_of_wp (wp_alloc hs.heap hk hlt not_not.mp
    fun p h' hf hout => ⟨hf, hs.outcome ⟨4, rfl⟩ hout⟩)

theorem Session.Sound.step_realloc (hs : s.Sound l) (hk : Keeps s.heap.source answer)
    (hlt : size < 2 ^ 64) (hg : g ∈ s.live) :
    Steps ((Malloc.outcome (realloc answer g.ptr size) s.heap).map fun r =>
      s.resized g r.2 r.1 size)
      (s.heap.size (g.ptr - header) < size → s.heap.Fits answer minAlign size) := by
  obtain ⟨c, hc, hh, hptr⟩ := hs.find hg
  have hsize : s.heap.size (g.ptr - header) = c.size := by
    rw [← hptr, Nat.add_sub_cancel]
    exact hs.heap.lists.size c (mem_used.mp hc).1
  rw [hsize, ← hptr]
  refine steps_of_wp ?_
  by_cases hzero : size = 0
  · subst hzero
    refine wp_realloc_zero hs.heap hc fun h' l' hs' _ hperm hkept =>
      ⟨fun hlt => absurd hlt (Nat.not_lt_zero _), l', ?_⟩
    rw [Session.resized, if_pos rfl, ← hh.ptr]
    exact hs.release hs' hperm hkept
  · refine wp_realloc hs.heap hk hc hzero hlt not_not.mp (fun hf => ⟨hf, l, ?_⟩)
      fun p h' l' d hf hm => ⟨hf, l', ?_⟩
    · rwa [Session.resized, if_neg hzero, if_pos rfl]
    · have hp : p ≠ 0 := by
        have haddr := hm.addr
        simp only [header] at haddr
        omega
      rw [Session.resized, if_neg hzero, if_neg hp]
      exact hs.moved hh hm

theorem Session.Sound.step_free {ptr : ℕ} (hs : s.Sound l)
    (hlive : ptr = 0 ∨ ∃ g ∈ s.live, g.ptr = ptr) :
    Steps ((Malloc.outcome (free ptr) s.heap).map fun r => ⟨r.2, s.without ptr⟩) True := by
  refine steps_of_wp (f := fun r => ⟨r.2, s.without ptr⟩) ?_
  rcases hlive with rfl | ⟨g, hg, rfl⟩
  · refine (wp_pure ()).mpr ⟨trivial, l, ?_⟩
    rwa [hs.without_null]
  · obtain ⟨c, hc, hh, hptr⟩ := hs.find hg
    rw [← hptr]
    exact wp_free hs.heap hc fun h' l' hs' _ hperm hkept =>
      ⟨trivial, l', hs.release hs' hperm hkept⟩

/-- **One event.** It happens if and only if it fits, and what it leaves is sound. -/
theorem Session.Sound.step {ev : Event} (hs : s.Sound l) (hok : Allowed s ev) :
    Steps (s.next ev) (ev.Fits s) := by
  cases ev with
  | alignedAlloc answer align size =>
    refine steps_of_wp ?_
    rw [alignedAlloc]
    split
    · next hpow =>
      refine (wp_pure 0).mpr ⟨fun h => absurd h hpow, l, ?_⟩
      rwa [Session.granted, if_pos rfl]
    · next hpow =>
      have hpow := not_not.mp hpow
      exact wp_allocAligned hs.heap hok.1 hpow hok.2 (fun hT => not_not.mp hT hpow)
        fun p h' hf hout => ⟨fun _ => hf, hs.outcome hpow hout⟩
  | malloc answer size => exact hs.step_malloc hok.1 hok.2 rfl
  | calloc answer count size =>
    refine steps_of_wp (wp_calloc hs.heap hok not_not.mp (fun hf => ⟨hf, l, ?_⟩)
      fun p h' l' c hf hg hzero => ⟨hf, l', hs.granted ⟨4, rfl⟩ hg hzero⟩)
    rwa [Session.granted, if_pos rfl]
  | free ptr =>
    have hlive : ptr = 0 ∨ ∃ g ∈ s.live, g.ptr = ptr := hok
    rw [Session.next, if_pos hlive]
    exact hs.step_free hlive
  | realloc answer ptr size =>
    by_cases hnull : ptr = 0
    · subst hnull
      rw [Session.next, if_pos rfl, Event.Fits, if_pos rfl]
      exact hs.step_malloc hok.1.1 hok.1.2 (realloc_null answer size)
    · obtain ⟨g, hg, rfl, hfind⟩ := find_grant (hok.2.resolve_left hnull)
      rw [Session.next, if_neg hnull, hfind, Option.bind_some, Event.Fits, if_neg hnull]
      exact hs.step_realloc hok.1.1 hok.1.2 hg
  | store ptr i v =>
    obtain ⟨g, hg, ⟨rfl, hi⟩, hfind⟩ := find_grant hok
    rw [Session.next, hfind, Option.map_some]
    refine ⟨⟨fun _ => trivial, fun _ => ⟨_, rfl⟩⟩, fun s' hs' => ?_⟩
    exact Option.some.inj hs' ▸ ⟨l, hs.stored hg hi v⟩

/-- What the heap is to the program. The regions that the source has mapped are divided into the
blocks of one list, whose links run both ways and end in null: no address is in two blocks, and none
outside the regions. The blocks that are taken are those the program holds, one for each: as large
as was asked for, at a multiple of the alignment, clear of one another, and holding what was
written. The counters are exact. Where the program holds nothing each block starts a region. -/
structure Session.Exact (s : Session) (l : List Chunk) : Prop where
  lists : s.heap.Lists l
  tiled : Tiled s.heap.source l
  live : (s.live.map Grant.ptr).Perm ((used l).map fun c => c.payload.addr)
  holds : ∀ g ∈ s.live, ∃ c ∈ used l, Holds s.heap c g
  apart : (used l).Pairwise fun c d => c.payload.Disjoint d.payload
  liveBlocks : s.heap.liveBlocks = s.live.length
  liveBytes : s.heap.liveBytes = ((used l).map Chunk.size).sum
  whole : s.live = [] → ∀ c ∈ l, c.isFree ∧ Starts s.heap.source c.addr

theorem Session.Sound.exact (hs : s.Sound l) : s.Exact l := by
  refine ⟨hs.heap.lists, hs.heap.tiled, hs.live, hs.holds, hs.heap.tiled.laid.payloads, ?_,
    hs.heap.liveBytes, fun hnil c hc => ?_⟩
  · have hlength := hs.live.length_eq
    rw [List.length_map, List.length_map] at hlength
    rw [hs.heap.liveBlocks, hlength]
  · have hlive := hs.live
    rw [hnil, List.map_nil, List.nil_perm, List.map_eq_nil_iff] at hlive
    have hfree : ∀ c ∈ l, c.isFree := by
      intro c hc
      by_contra htaken
      have hmem := mem_used.mpr ⟨hc, Bool.eq_false_of_not_eq_true htaken⟩
      rw [hlive] at hmem
      exact List.not_mem_nil hmem
    exact ⟨hfree c hc, hs.heap.tiled.starts hfree c hc⟩

/-- What the program and the source owe, for an event in which no computation leaves 64 bits. -/
def Meets (s : Session) (ev : Event) : Prop := Allowed s ev ∧ ev.Fits s

/-- The invariant holds after any events. -/
theorem sound_of_sessions (h : sessions.Reach Meets s) : ∃ l, s.Sound l := by
  refine EventSystem.Reach.invariant (I := fun s => ∃ l, Session.Sound s l) (fun s hs => ?_)
    (fun s ev s' hi hok hn => ?_) h
  · obtain ⟨hsource, hhead, htail, hbytes, hblocks, hlive⟩ := hs
    have hring : s.heap.links.Closed [0] := by
      refine ⟨List.nodup_singleton 0, (Cycle.chain_coe_cons _ _ _).2 ?_⟩
      simpa [TwoWay.Joined, Heap.links] using ⟨hhead, htail⟩
    refine ⟨[], ⟨⟨hring, by simp, by simp⟩, ?_, hbytes, hblocks⟩, by simp [hlive, used],
      by simp [hlive]⟩
    rw [hsource]
    exact ⟨⟨.nil, by simp, by simp⟩, fun _ => Iff.rfl, by simp, absurd rfl, .nil⟩
  · obtain ⟨l, hs⟩ := hi
    exact (hs.step hok.1).2 s' hn

/-- Null is answered where no block has room and the source refuses. -/
theorem Session.Sound.null_iff {p : ℕ} (hs : s.Sound l) (hk : Keeps s.heap.source answer)
    (hlt : size < 2 ^ 64) (hpow : align.isPowerOfTwo)
    (hrun : alignedAlloc answer align size s.heap = .ok p h') :
    p = 0 ↔ s.heap.Refuses answer align size := by
  rw [alignedAlloc, if_neg (not_not.mpr hpow)] at hrun
  refine (wp_of_ok (T := True) (Q := fun p _ => p = 0 ↔ s.heap.Refuses answer align size)
    (F := fun _ _ => True) hrun).mp ?_
  refine wp_allocAligned hs.heap hk hpow hlt (absurd trivial) fun p h' _ hout => ?_
  rcases hout with ⟨hno, hnull, -⟩ | ⟨hyes, l', c, hg⟩
  · exact ⟨fun _ => hno, fun _ => hnull⟩
  · exact ⟨fun hnull => absurd hnull hg.ne_zero, fun hno => absurd hno hyes⟩

/-- **The heap of a process is exact** after any events that fit. An event that the program and the
source may make comes to an answer if and only if it fits, and the answer is null if and only if no
block has room and the source refuses. -/
theorem malloc_exact (h : sessions.Reach Meets s) :
    (∃ l, s.Exact l) ∧ (∀ ev, Allowed s ev → ((∃ s', s.next ev = some s') ↔ ev.Fits s)) ∧
      ∀ answer align size, Allowed s (.alignedAlloc answer align size) → align.isPowerOfTwo →
        ∀ p h', alignedAlloc answer align size s.heap = .ok p h' →
          (p = 0 ↔ s.heap.Refuses answer align size) := by
  obtain ⟨l, hs⟩ := sound_of_sessions h
  exact ⟨⟨l, hs.exact⟩, fun ev hok => (hs.step hok).1,
    fun answer align size hok hpow p h' hrun => hs.null_iff hok.1 hok.2 hpow hrun⟩

/-- A source that has one region. -/
def oneRegion : ℕ → Option ℕ := fun bytes => if bytes ≤ 2 ^ 20 then some 65536 else none

/-- Nothing is mapped. -/
def unmapped : Session := ⟨⟨fun _ => 0, [], 0, 0, 0, 0⟩, []⟩

theorem keeps_oneRegion : Keeps [] oneRegion := by
  intro bytes base hanswer
  obtain ⟨hle, heq⟩ := Option.ite_none_right_eq_some.mp hanswer
  obtain rfl := Option.some.inj heq
  exact ⟨by decide, by decide, by omega, by simp⟩

theorem keeps_none (source : List Block) : Keeps source fun _ => none :=
  fun _ _ hanswer => absurd hanswer (by simp)

theorem reach_unmapped : sessions.Reach Meets unmapped :=
  .init ⟨rfl, rfl, rfl, rfl, rfl, rfl⟩

/-- What is not aligned any further fits where the numbers do. -/
theorem fits_minAlign (h : Heap) (answer : ℕ → Option ℕ)
    (hsize : asked (needFor minAlign (max size 1) + header) < 2 ^ 64) :
    h.Fits answer minAlign size := by
  have hnot : ∀ b, ¬ Squeezed minAlign b := fun b hb => absurd hb.1 (Nat.lt_irrefl _)
  have hle := (asked_spec (needFor minAlign (max size 1) + header)).2.1
  exact ⟨(Nat.le_add_right _ _).trans_lt (hle.trans_lt hsize), fun b _ => hnot b,
    fun _ => ⟨hsize, fun base _ => hnot base⟩⟩

/-- A grant of so many bytes is there. -/
def Session.has (s : Session) (ptr size : ℕ) : Bool := s.live.any fun g => g.ptr = ptr ∧
    size ≤ g.size

theorem Session.exists_of_has {ptr : ℕ} (h : s.has ptr size = true) :
    ∃ g ∈ s.live, g.ptr = ptr ∧ size ≤ g.size := by
  obtain ⟨g, hg, hp⟩ := List.any_eq_true.mp h
  exact ⟨g, hg, of_decide_eq_true hp⟩

/-- Two blocks are allocated, a byte is written to the second, and the first is given back. The
second can be made larger then. -/
theorem malloc_exact_small : ∃ s, sessions.Reach Meets s ∧ (∃ l, s.Exact l) ∧
    s.live.map Grant.ptr = [65632] ∧
    ∃ s', s.next (.realloc (fun _ => none) 65632 100) = some s' := by
  have hrun : (((((unmapped.next (.malloc oneRegion 24)).bind fun s =>
      s.next (.malloc (fun _ => none) 8)).filter fun s => s.has 65632 4).bind fun s =>
      s.next (.store 65632 3 7)).filter fun s => s.has 65568 24).bind (fun s =>
      s.next (.free 65568)) |>.any fun s =>
        s.live.map Grant.ptr = [65632] && s.has 65632 8 := by
    decide +kernel
  obtain ⟨s, h, hp⟩ := (Option.any_eq_true _ _).mp hrun
  obtain ⟨hlive, hhas⟩ := Bool.and_eq_true_iff.mp hp
  obtain ⟨s₃, h, h₄⟩ := Option.bind_eq_some_iff.mp h
  obtain ⟨h, hfirst⟩ := Option.filter_eq_some_iff.mp h
  obtain ⟨s₂, h, h₃⟩ := Option.bind_eq_some_iff.mp h
  obtain ⟨h, hsecond⟩ := Option.filter_eq_some_iff.mp h
  obtain ⟨s₁, h₁, h₂⟩ := Option.bind_eq_some_iff.mp h
  obtain ⟨g, hg, hptr, -⟩ := Session.exists_of_has hfirst
  obtain ⟨g', hg', hptr', hsize'⟩ := Session.exists_of_has hsecond
  obtain ⟨g'', hg'', hptr'', -⟩ := Session.exists_of_has hhas
  have m₁ : Meets unmapped (.malloc oneRegion 24) :=
    ⟨⟨keeps_oneRegion, by decide⟩, fits_minAlign _ _ (by decide)⟩
  have m₂ : Meets s₁ (.malloc (fun _ => none) 8) :=
    ⟨⟨keeps_none _, by decide⟩, fits_minAlign _ _ (by decide)⟩
  have m₃ : Meets s₂ (.store 65632 3 7) := ⟨⟨g', hg', hptr', hsize'⟩, trivial⟩
  have m₄ : Meets s₃ (.free 65568) := ⟨.inr ⟨g, hg, hptr⟩, trivial⟩
  have r := (((reach_unmapped.step m₁ h₁).step m₂ h₂).step m₃ h₃).step m₄ h₄
  obtain ⟨hexact, hiff, -⟩ := malloc_exact r
  have hallowed : Allowed s (.realloc (fun _ => none) 65632 100) :=
    ⟨⟨keeps_none _, by decide⟩, .inr ⟨g'', hg'', hptr''⟩⟩
  exact ⟨s, r, hexact, of_decide_eq_true hlive,
    (hiff _ hallowed).mpr fun _ => fits_minAlign _ _ (by decide)⟩

/-- Behind sixteen bytes of payload comes a block that cannot be cut where a payload would be
aligned to thirty-two. -/
theorem malloc_underflows : ∃ s, sessions.Reach Meets s ∧
    Allowed s (.alignedAlloc (fun _ => none) 32 1) ∧
    s.next (.alignedAlloc (fun _ => none) 32 1) = none := by
  have hrun : (unmapped.next (.malloc oneRegion 16)).any (fun s =>
      (s.next (.alignedAlloc (fun _ => none) 32 1)).isNone) = true := by
    decide +kernel
  obtain ⟨s, h, hstop⟩ := (Option.any_eq_true _ _).mp hrun
  have hmeets : Meets unmapped (.malloc oneRegion 16) :=
    ⟨⟨keeps_oneRegion, by decide⟩, fits_minAlign _ _ (by decide)⟩
  exact ⟨s, reach_unmapped.step hmeets h, ⟨keeps_none _, by decide⟩, Option.isNone_iff_eq_none.mp
    hstop⟩

end Malloc

end StarOS
