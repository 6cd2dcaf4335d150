import StarOS.Lib.Holders
import StarOS.Mm.Stock

/-!
# The frames behind a shared buffer

A shared buffer is a list of frames that need not be next to each other: they are taken from the
pool one at a time, and the list is kept in a table. An object holds the index. A list that is
empty is a slot that is free, and is used again.

A request can fail when the heap has no room for the list, when the pool runs out partway, and when
every frame was taken and the table cannot grow. What was taken is given back.

## Main definitions

* `Shm`, with `create`, `withFrames`, `free`

## Main results

* `giveBack_spec` — what giving a list of frames back does to the pool
* `create_cases` — what `create` does to the pool and to the table
-/

namespace StarOS

/-- The table of shared runs, and the pool their frames are from. -/
structure Shm where
  /-- One shared buffer each: its frames, in the order they are mapped. -/
  runs : List (List ℕ)
  pool : FramePool

namespace Shm

/-- Return the frames of a run. -/
def giveBack (pool : FramePool) (run : List ℕ) : FramePool :=
  run.foldl (fun pool frame => pool.free frame) pool

/-- The loop of `create`: so many frames are still to be taken, and `run` was. -/
def fill : ℕ → List ℕ → FramePool → Option (List ℕ) × FramePool
  | 0, run, pool => (some run, pool)
  | n + 1, run, pool =>
    match pool.allocate with
    | (some frame, pool) => fill n (run ++ [frame]) pool
    | (none, pool) => (none, giveBack pool run)

/-- Record a run in the table: in a slot that is free, or in a new one if the table can grow. -/
def place (runs : List (List ℕ)) (run : List ℕ) (grow : Bool) : Option (ℕ × List (List ℕ)) :=
  match runs.findIdx? (·.isEmpty) with
  | some id => some (id, runs.set id run)
  | none => if grow then some (runs.length, runs ++ [run]) else none

/-- Allocate `pages` frames, remember them as one run, and return its id: `reserve` is whether the
heap has room for the list, and `grow` whether it has for one more slot of the table. -/
def create (s : Shm) (pages : ℕ) (reserve grow : Bool) : Option ℕ × Shm :=
  if reserve then
    match fill pages [] s.pool with
    | (none, pool) => (none, { s with pool })
    | (some run, pool) =>
      match place s.runs run grow with
      | some (id, runs) => (some id, ⟨runs, pool⟩)
      | none => (none, { s with pool := giveBack pool run })
  else (none, s)

/-- The run's frames. `none` if the id names nothing. -/
def withFrames (s : Shm) (id : ℕ) : Option (List ℕ) :=
  match s.runs[id]? with
  | some run => if run.isEmpty then none else some run
  | none => none

/-- Return a run's frames to the pool and free its slot. -/
def free (s : Shm) (id : ℕ) : Shm :=
  match s.runs[id]? with
  | some run => ⟨s.runs.set id [], giveBack s.pool run⟩
  | none => s

/-- The frames of a run as the pool has them. -/
def units (run : List ℕ) : List Block := run.map fun frame => ⟨frame / pageSize, 1⟩

variable {s : Shm} {pool pool' : FramePool} {live : List Block} {run run' : List ℕ}
  {runs : List (List ℕ)} {pages id id' x : ℕ} {reserve grow : Bool}

theorem units_append : units (run ++ run') = units run ++ units run' := List.map_append

theorem cover_units : Block.Cover (units run) x ↔ ∃ frame ∈ run, frame / pageSize = x := by
  have hone : ∀ frame : ℕ, x ∈ (⟨frame / pageSize, 1⟩ : Block) ↔ frame / pageSize = x := by
    intro frame
    rw [Block.mem_iff, Block.limit]
    dsimp only
    omega
  constructor
  · rintro ⟨c, hc, hx⟩
    obtain ⟨frame, hframe, rfl⟩ := List.mem_map.mp hc
    exact ⟨frame, hframe, (hone frame).mp hx⟩
  · rintro ⟨frame, hframe, hx⟩
    exact ⟨_, List.mem_map_of_mem hframe, (hone frame).mpr hx⟩

/-! ### The pool -/

/-- **Giving a run back** frees its frames and no others. -/
theorem giveBack_spec (hs : Stock pool (units run ++ live)) (hpage : ∀ f ∈ run, f % pageSize = 0) :
    Stock (giveBack pool run) live ∧
    ∀ x, (giveBack pool run).isFree x = true ↔
      pool.isFree x = true ∨ ∃ frame ∈ run, frame / pageSize = x := by
  induction run generalizing pool with
  | nil => exact ⟨hs, fun x => by simp [giveBack]⟩
  | cons frame run ih =>
    have haddr : frame / pageSize * pageSize = frame :=
      Nat.div_mul_cancel (Nat.dvd_of_mod_eq_zero (hpage frame List.mem_cons_self))
    obtain ⟨hs', hfree⟩ := hs.freePages (c := ⟨frame / pageSize, 1⟩) List.mem_cons_self
    dsimp only at hs' hfree
    rw [haddr] at hs' hfree
    have hrest : (units (frame :: run) ++ live).erase ⟨frame / pageSize, 1⟩ = units run ++ live :=
      List.erase_cons_head _ _
    rw [hrest] at hs'
    obtain ⟨hlive, hfree'⟩ := ih hs' fun f hf => hpage f (List.mem_cons_of_mem _ hf)
    refine ⟨hlive, fun x => ?_⟩
    have hone : x ∈ (⟨frame / pageSize, 1⟩ : Block) ↔ frame / pageSize = x := by
      rw [Block.mem_iff, Block.limit]
      dsimp only
      omega
    have hstep : giveBack pool (frame :: run) = giveBack (pool.freePages frame) run := rfl
    rw [hstep, hfree' x, hfree x, hone, or_assoc, List.exists_mem_cons_iff]

/-- **Taking frames one at a time** ends with as many as were asked for, all of them free before;
or the pool ran out, and what was taken is back. -/
theorem fill_spec (n : ℕ) (hs : Stock pool (units run ++ live))
    (hpage : ∀ f ∈ run, f % pageSize = 0) :
    (∃ new pool', fill n run pool = (some (run ++ new), pool') ∧ new.length = n ∧
      (∀ f ∈ new, f % pageSize = 0 ∧ pool.isFree (f / pageSize) = true) ∧
      Stock pool' (units (run ++ new) ++ live) ∧
      ∀ x, pool'.isFree x = true ↔
        pool.isFree x = true ∧ ¬ ∃ frame ∈ new, frame / pageSize = x) ∨
    ∃ pool', fill n run pool = (none, pool') ∧ Stock pool' live ∧
      ∀ x, pool'.isFree x = true ↔
        pool.isFree x = true ∨ ∃ frame ∈ run, frame / pageSize = x := by
  induction n generalizing run pool with
  | zero =>
    refine .inl ⟨[], pool, by rw [List.append_nil]; rfl, rfl, fun f hf => absurd hf List.not_mem_nil,
      by rwa [List.append_nil], fun x => ?_⟩
    simp
  | succ n ih =>
    rw [fill]
    rcases hs.allocate_cases with heq | ⟨frame, pool₁, heq, hframe, hs₁, hin, hfree₁⟩
    · rw [heq]
      exact .inr ⟨_, rfl, giveBack_spec hs hpage⟩
    · rw [heq]
      dsimp only
      have hs₁' : Stock pool₁ (units (run ++ [frame]) ++ live) := by
        refine hs₁.perm ?_
        rw [units_append, List.append_assoc]
        exact List.perm_middle.symm
      have hpage' : ∀ f ∈ run ++ [frame], f % pageSize = 0 := by
        intro f hf
        rcases List.mem_append.mp hf with hf | hf
        · exact hpage f hf
        · rw [List.mem_singleton.mp hf]
          exact hframe
      rcases ih hs₁' hpage' with ⟨new, pool', hfill, hlen, hnew, hs', hfree'⟩ | ⟨pool', hfill, hs', hfree'⟩
      · refine .inl ⟨frame :: new, pool', ?_, by rw [List.length_cons, hlen], ?_, ?_, fun x => ?_⟩
        · rw [hfill, List.append_assoc, List.singleton_append]
        · intro f hf
          rcases List.mem_cons.mp hf with rfl | hf
          · exact ⟨hframe, hin⟩
          · exact ⟨(hnew f hf).1, ((hfree₁ _).mp (hnew f hf).2).1⟩
        · rw [List.append_assoc, List.singleton_append] at hs'
          exact hs'
        · rw [hfree', hfree₁, List.exists_mem_cons_iff, not_or, and_assoc, ne_comm]
      · refine .inr ⟨pool', hfill, hs', fun x => ?_⟩
        rw [hfree' x, hfree₁ x]
        constructor
        · rintro (⟨hx, -⟩ | ⟨f, hf, rfl⟩)
          · exact .inl hx
          · rcases List.mem_append.mp hf with hf | hf
            · exact .inr ⟨f, hf, rfl⟩
            · rw [List.mem_singleton.mp hf]
              exact .inl hin
        · rintro (hx | ⟨f, hf, rfl⟩)
          · by_cases hxf : x = frame / pageSize
            · exact .inr ⟨frame, List.mem_append_right _ (List.mem_singleton_self _), hxf.symm⟩
            · exact .inl ⟨hx, hxf⟩
          · exact .inr ⟨f, List.mem_append_left _ hf, rfl⟩

/-! ### The table -/

theorem withFrames_eq_some : s.withFrames id = some run ↔ s.runs[id]? = some run ∧ run ≠ [] := by
  rw [withFrames]
  cases h : s.runs[id]? with
  | none => simp
  | some run' =>
    dsimp only
    cases run' with
    | nil =>
      constructor
      · intro hnone
        cases hnone
      · rintro ⟨hsome, hne⟩
        exact absurd (Option.some.inj hsome).symm hne
    | cons frame run' =>
      constructor
      · intro hsome
        obtain rfl := Option.some.inj hsome
        exact ⟨rfl, List.cons_ne_nil _ _⟩
      · rintro ⟨hsome, -⟩
        exact hsome

/-- A slot of the table with another run in it. -/
theorem withFrames_set (hid : id < s.runs.length) (run : List ℕ) (pool : FramePool) (id' : ℕ) :
    (⟨s.runs.set id run, pool⟩ : Shm).withFrames id' =
      if id = id' then (if run.isEmpty then none else some run) else s.withFrames id' := by
  rw [withFrames, withFrames]
  dsimp only
  rw [List.getElem?_set]
  by_cases h : id = id'
  · rw [if_pos h, if_pos hid, if_pos h]
  · rw [if_neg h, if_neg h]

/-- The table with one more slot. -/
theorem withFrames_push (run : List ℕ) (pool : FramePool) (id' : ℕ) :
    (⟨s.runs ++ [run], pool⟩ : Shm).withFrames id' =
      if s.runs.length = id' then (if run.isEmpty then none else some run)
      else s.withFrames id' := by
  rw [withFrames, withFrames]
  dsimp only
  by_cases h : s.runs.length = id'
  · rw [if_pos h, ← h, List.getElem?_concat_length]
  · rw [if_neg h]
    by_cases hlt : id' < s.runs.length
    · rw [List.getElem?_append_left hlt]
    · rw [List.getElem?_eq_none (by rw [List.length_append, List.length_singleton]; omega),
        List.getElem?_eq_none (by omega)]

/-- Putting a run in an empty slot adds its frames. -/
theorem flatten_set_nil (hempty : runs[id]? = some []) (run : List ℕ) :
    (runs.set id run).flatten.Perm (run ++ runs.flatten) := by
  have h := Holders.set_perm hempty (fun run => run) run
  rwa [List.flatMap_id', List.flatMap_id'] at h

/-- Emptying a slot takes its frames out. -/
theorem flatten_set (hrun : runs[id]? = some run) :
    runs.flatten.Perm (run ++ (runs.set id []).flatten) := by
  have h := Holders.set_perm hrun (fun run => run) []
  rw [List.flatMap_id', List.flatMap_id'] at h
  exact h.symm

/-- **Where a run is recorded**: under an id that had no run, beside those that were there. -/
theorem place_spec {runs' : List (List ℕ)} (hplace : place s.runs run grow = some (id, runs')) :
    s.withFrames id = none ∧ runs'.flatten.Perm (run ++ s.runs.flatten) ∧
      ∀ pool id', (⟨runs', pool⟩ : Shm).withFrames id' =
        if id = id' then (if run.isEmpty then none else some run) else s.withFrames id' := by
  rw [place] at hplace
  cases hfind : s.runs.findIdx? (·.isEmpty) with
  | some i =>
    rw [hfind] at hplace
    obtain ⟨rfl, rfl⟩ := Prod.mk.inj (Option.some.inj hplace)
    obtain ⟨hi, hempty, -⟩ := List.findIdx?_eq_some_iff_getElem.mp hfind
    have hnil : s.runs[i]? = some [] := by
      rw [List.getElem?_eq_getElem hi, List.isEmpty_iff.mp hempty]
    refine ⟨?_, flatten_set_nil hnil run, fun pool id' => withFrames_set hi run pool id'⟩
    rw [withFrames, hnil]
    rfl
  | none =>
    rw [hfind] at hplace
    obtain ⟨-, hplace⟩ := Option.ite_none_right_eq_some.mp hplace
    obtain ⟨rfl, rfl⟩ := Prod.mk.inj (Option.some.inj hplace)
    refine ⟨?_, ?_, fun pool id' => withFrames_push run pool id'⟩
    · rw [withFrames, List.getElem?_eq_none (Nat.le_refl _)]
    · rw [List.flatten_append, List.flatten_singleton]
      exact List.perm_append_comm

/-! ### The two operations -/

/-- What a table and a pool agree on: the frames of the runs are handed out, one at a time, and
`live` is what else is. -/
structure Backed (live : List Block) (s : Shm) : Prop where
  stock : Stock s.pool (units s.runs.flatten ++ live)
  aligned : ∀ frame ∈ s.runs.flatten, frame % pageSize = 0

/-- What a `create` that answers `id` has done: the slot was free, and has a run of frames that
were free. -/
structure Created (s : Shm) (pages id : ℕ) (run : List ℕ) (s' : Shm) : Prop where
  length : run.length = pages
  fresh : s.withFrames id = none
  withFrames : ∀ id', s'.withFrames id' =
    if id = id' then (if run.isEmpty then none else some run) else s.withFrames id'
  was_free : ∀ frame ∈ run, s.pool.isFree (frame / pageSize) = true
  isFree : ∀ x, s'.pool.isFree x = true ↔
    s.pool.isFree x = true ∧ ¬ ∃ frame ∈ run, frame / pageSize = x

/-- **What `create` does**: it answers an id that had no run and has one now; or it answers none,
and the table and the free frames are as they were. -/
theorem create_cases (h : Backed live s) (pages : ℕ) (reserve grow : Bool) :
    (∃ id run s', s.create pages reserve grow = (some id, s') ∧ Backed live s' ∧
      Created s pages id run s') ∨
    ∃ s', s.create pages reserve grow = (none, s') ∧ Backed live s' ∧ s'.runs = s.runs ∧
      ∀ x, s'.pool.isFree x = s.pool.isFree x := by
  rw [create]
  split
  · have hstock : Stock s.pool (units [] ++ (units s.runs.flatten ++ live)) := h.stock
    rcases fill_spec pages hstock (fun f hf => absurd hf List.not_mem_nil) with
      ⟨run, pool', hfill, hlen, hnew, hs', hfree⟩ | ⟨pool', hfill, hs', hfree⟩
    · rw [hfill]
      rw [List.nil_append] at hs' ⊢
      dsimp only
      have hwas : ∀ frame ∈ run, s.pool.isFree (frame / pageSize) = true := fun f hf => (hnew f hf).2
      cases hplace : place s.runs run grow with
      | some placed =>
        obtain ⟨id, runs'⟩ := placed
        obtain ⟨hfresh, hperm, hwith⟩ := place_spec hplace
        refine .inl ⟨id, run, _, rfl, ⟨hs'.perm ?_, fun f hf => ?_⟩, hlen, hfresh, hwith pool',
          hwas, hfree⟩
        · rw [← List.append_assoc, ← units_append]
          exact (hperm.symm.map _).append_right live
        · rcases List.mem_append.mp (hperm.mem_iff.mp hf) with hf | hf
          · exact (hnew f hf).1
          · exact h.aligned f hf
      | none =>
        obtain ⟨hback, hfree'⟩ := giveBack_spec hs' fun f hf => (hnew f hf).1
        refine .inr ⟨_, rfl, ⟨hback, h.aligned⟩, rfl, fun x => ?_⟩
        rw [Bool.eq_iff_iff, hfree' x, hfree x]
        constructor
        · rintro (⟨hx, -⟩ | ⟨f, hf, rfl⟩)
          · exact hx
          · exact hwas f hf
        · intro hx
          by_cases hin : ∃ frame ∈ run, frame / pageSize = x
          · exact .inr hin
          · exact .inl ⟨hx, hin⟩
    · rw [hfill]
      refine .inr ⟨_, rfl, ⟨hs', h.aligned⟩, rfl, fun x => ?_⟩
      rw [Bool.eq_iff_iff, hfree x]
      simp
  · exact .inr ⟨s, rfl, h, rfl, fun _ => rfl⟩

/-- **What `free` does**: the frames of the run are free, and the slot is. -/
theorem free_spec (h : Backed live s) (id : ℕ) :
    Backed live (s.free id) ∧
    s.runs.flatten.Perm ((s.withFrames id).getD [] ++ (s.free id).runs.flatten) ∧
    (∀ id', (s.free id).withFrames id' = if id = id' then none else s.withFrames id') ∧
    ∀ x, (s.free id).pool.isFree x = true ↔ s.pool.isFree x = true ∨
      ∃ frame ∈ (s.withFrames id).getD [], frame / pageSize = x := by
  have hnone : s.withFrames id = none → ∀ id',
      s.withFrames id' = if id = id' then none else s.withFrames id' := by
    intro hnone id'
    split
    · next heq => rw [← heq, hnone]
    · rfl
  rw [free]
  cases hrun : s.runs[id]? with
  | none =>
    have hwith : s.withFrames id = none := by rw [withFrames, hrun]
    refine ⟨h, by rw [hwith]; exact .refl _, hnone hwith, fun x => ?_⟩
    rw [hwith]
    simp
  | some run =>
    dsimp only
    have hid : id < s.runs.length := (List.getElem?_eq_some_iff.mp hrun).1
    have hperm := flatten_set hrun
    have hstock : Stock s.pool (units run ++ (units (s.runs.set id []).flatten ++ live)) := by
      refine h.stock.perm ?_
      rw [← List.append_assoc, ← units_append]
      exact (hperm.map _).append_right live
    have haligned : ∀ frame ∈ run ++ (s.runs.set id []).flatten, frame % pageSize = 0 :=
      fun f hf => h.aligned f (hperm.mem_iff.mpr hf)
    obtain ⟨hs', hfree⟩ := giveBack_spec hstock fun f hf => haligned f (List.mem_append_left _ hf)
    have hwith : (s.withFrames id).getD [] = run := by
      rw [withFrames, hrun]
      cases run <;> rfl
    rw [hwith]
    exact ⟨⟨hs', fun f hf => haligned f (List.mem_append_right _ hf)⟩, hperm,
      withFrames_set hid [] _, hfree⟩

/-- Freeing an id again changes nothing. -/
theorem free_free (s : Shm) (id : ℕ) : (s.free id).free id = s.free id := by
  cases hrun : s.runs[id]? with
  | none =>
    have hsame : s.free id = s := by rw [free, hrun]
    rw [hsame, hsame]
  | some run =>
    have hfree : s.free id = ⟨s.runs.set id [], giveBack s.pool run⟩ := by rw [free, hrun]
    rw [hfree, free]
    dsimp only
    rw [List.getElem?_set_self (List.getElem?_eq_some_iff.mp hrun).1]
    dsimp only
    rw [List.set_set]
    rfl

end Shm

end StarOS
