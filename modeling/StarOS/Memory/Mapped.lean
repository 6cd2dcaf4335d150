import StarOS.Memory.Step

/-!
# A mapping that succeeds has mapped

What the tables of a space map each page with is decided by the last act on that page. A call that
finds its object placed maps nothing, so what it answers is as good as the last mapping there: the
pages are those of the object if it was mapped at that address, all of it, and nothing has touched
the range since.

An attempt that ran out of frames leaves the object placed and not mapped; an `Unmap` takes its
pages and leaves it placed; and another thread, by its own records, may place another object there.

## Main definitions

* `Memory.MapsTo` — the pages of an object are mapped, each to its frame
* `Memory.InPlace` — the condition under which a call that succeeds means that

## Main results

* `Memory.mapsTo_of_inPlace`
* `Memory.not_mapsTo` — an object that was unmapped
-/

namespace StarOS

open Mmu

/-- The pages of an object placed at `base`. -/
def Mappable.pageSet (what : Mappable) (base : ℕ) : Set ℕ :=
  Set.Ico (page base) (page base + what.pages)

namespace Memory

/-- From `va` on, each page EL0 reads and writes is the frame of the object that belongs there. -/
def MapsTo (s : Memory) (root : ℕ) (what : Mappable) (va : ℕ) : Prop :=
  ∀ i frame, what.frames[i]? = some frame →
    ∃ desc, s.tables root (page (va + i * page4K)) = some desc ∧ Translates desc frame

/-- If the call finds its object placed, it was mapped there, all of it, and nothing has been done
to those pages since; and a device has an address that fits a descriptor. -/
def InPlace (s : Memory) (t : TaskId) (obj : ObjectRef) (what : Mappable) : Prop :=
  what.InReach ∧ ((s.task t).pc = .resolved obj what →
    ∀ base, ((s.task t).placed what.window).find obj = some base →
      Patch.Since Act.patch (.mapped obj what base) (what.pageSet base) (s.log (s.root t)))

variable {s s' : Memory} {t : TaskId} {e : MemEvent} {root : ℕ} {obj : ObjectRef}
  {what : Mappable} {base : ℕ}

/-! ### The tables are what was done to them -/

/-- The tables of a space are what was done to it, laid over what it was built with; and objects are
mapped at the addresses of pages. -/
structure Replayed (s : Memory) : Prop where
  tables : ∀ root, ∃ m, s.tables root = Patch.replay Act.patch m (s.log root)
  placing : ∀ t obj what base, (s.task t).pc = .placing obj what base → page4K ∣ base
  mapped : ∀ root obj what base, .mapped obj what base ∈ s.log root → page4K ∣ base

/-- An act on a space. -/
theorem Replayed.act (h : s.Replayed) (r : ℕ) {a : Act}
    (ha : ∀ obj what base, a = .mapped obj what base → page4K ∣ base) : (s.act r a).Replayed where
  tables root := by
    rcases eq_or_ne root r with rfl | hne
    · obtain ⟨m, hm⟩ := h.tables root
      refine ⟨m, ?_⟩
      rw [act_log_self, Patch.replay, ← hm]
      exact Function.update_self ..
    · obtain ⟨m, hm⟩ := h.tables root
      refine ⟨m, ?_⟩
      rw [act_log_of_ne _ hne, ← hm]
      exact Function.update_of_ne hne ..
  placing := h.placing
  mapped root obj what base hmem := by
    rcases mem_log_act.mp hmem with ⟨-, heq⟩ | hmem
    · exact ha _ _ _ heq.symm
    · exact h.mapped _ _ _ _ hmem

theorem Replayed.modTask (h : s.Replayed) {f : MemTask → MemTask}
    (hf : ∀ obj what base, (f (s.task t)).pc = .placing obj what base → page4K ∣ base) :
    (s.modTask t f).Replayed where
  tables := h.tables
  placing u obj what base hpc := by
    rcases eq_or_ne u t with rfl | hne
    · rw [modTask_self] at hpc
      exact hf _ _ _ hpc
    · rw [modTask_of_ne _ hne] at hpc
      exact h.placing _ _ _ _ hpc
  mapped := h.mapped

theorem Replayed.push (h : s.Replayed) {task : MemTask} (hpc : task.pc = .user) :
    (s.push task).Replayed where
  tables := h.tables
  placing u obj what base hpc' := by
    rcases eq_or_ne u s.ntasks with rfl | hne
    · rw [push_self, hpc] at hpc'
      cases hpc'
    · rw [push_of_ne _ hne] at hpc'
      exact h.placing _ _ _ _ hpc'
  mapped := h.mapped

theorem Replayed.rebuild (h : s.Replayed) (root : ℕ) (image : ℕ → Option ℕ) :
    Replayed { s with
      tables := Function.update s.tables root image
      log := Function.update s.log root [] } where
  tables r := by
    rcases eq_or_ne r root with rfl | hne
    · refine ⟨image, ?_⟩
      simp only [Function.update_self]
      rfl
    · simp only [Function.update_of_ne hne]
      exact h.tables r
  placing := h.placing
  mapped r obj what base hmem := by
    rcases eq_or_ne r root with rfl | hne
    · simp only [Function.update_self] at hmem
      cases hmem
    · simp only [Function.update_of_ne hne] at hmem
      exact h.mapped _ _ _ _ hmem

theorem Replayed.publish (h : s.Replayed) (r next : ℕ) : (s.publish r next).Replayed where
  tables := h.tables
  placing t obj what base hpc := h.placing t obj what base ((publish_space r next t).2.2.2 ▸ hpc)
  mapped := h.mapped

theorem Replayed.moved (h : s.Replayed) {f : MemTask → MemTask}
    (hf : (s.task t).Moves (f (s.task t))) : (s.modTask t f).Replayed :=
  h.modTask fun _ _ _ hpc => by
    have hnone := hf.mapping
    rw [hpc] at hnone
    cases hnone

theorem Step.replayed (h : Step s e s') (hi : s.Replayed) : s'.Replayed := by
  cases h with
  | spawnUser => exact (hi.rebuild _ _).push rfl
  | object => exact ⟨hi.tables, hi.placing, hi.mapped⟩
  | exit => exact hi.modTask fun _ _ _ hpc => hi.placing _ _ _ _ hpc
  | moved f ht hf => exact hi.moved hf
  | wrote first descs f ht hf =>
    exact (hi.act (a := .wrote first descs) _ fun _ _ _ h => by cases h).moved hf
  | @granted t c pages next va s₁ f ht hres hf =>
    obtain ⟨-, -, -, rfl⟩ := reserveAnonShared_spec hres
    exact ((hi.publish _ _).act (a := .granted va pages) _ fun _ _ _ h => by cases h).moved hf
  | copied | resolved | answered => exact hi.modTask fun _ _ _ hpc => by cases hpc
  | pushed => exact (hi.push rfl).modTask fun _ _ _ hpc => by cases hpc
  | @placed t obj what base placed ht hpc hfind hplace =>
    have hbase := (Placements.place_spec hplace).1
    refine Replayed.modTask (Replayed.modTask (hi.act _ fun _ _ _ h => by cases h) ?_) ?_
    · exact fun _ _ _ h => hi.placing _ _ _ _ h
    · intro o w b h
      obtain ⟨-, -, rfl⟩ := MemPc.placing.inj h
      rw [hbase]
      exact Placements.aligned _
  | @mapped t c obj what base ht hpc =>
    refine (hi.act _ fun o w b h => ?_).modTask fun _ _ _ hpc => by cases hpc
    obtain ⟨-, -, rfl⟩ := Act.mapped.inj h
    exact hi.placing _ _ _ _ hpc

theorem replayed_of_reachable (h : memory.Reachable s) : s.Replayed := by
  refine EventSystem.Reach.invariant (I := Replayed) ?_ ?_ h
  · rintro s rfl
    exact ⟨fun _ => ⟨fun _ => none, rfl⟩, nofun, nofun⟩
  · exact fun s e s' hi _ hn => (Step.of_next hn).replayed hi

/-! ### What a call that succeeds has mapped -/

/-- The page a byte of an object's first page is on, and those after it. -/
theorem page_add (hbase : page4K ∣ base) (what : Mappable) (i : ℕ) :
    page (base + what.offset + i * page4K) = page base + i := by
  obtain ⟨k, rfl⟩ := hbase
  have hlt := what.offset_lt
  have hpos : 0 < page4K := by decide
  rw [page, page, Nat.mul_div_cancel_left _ hpos, Nat.add_mul_div_right _ _ hpos,
    Nat.mul_add_div hpos, Nat.div_eq_of_lt hlt, Nat.add_zero]

theorem Replayed.mapsTo (h : s.Replayed) (hreach : what.InReach)
    (hsince : Patch.Since Act.patch (.mapped obj what base) (what.pageSet base) (s.log root)) :
    s.MapsTo root what (base + what.offset) := by
  intro i frame hframe
  have hbase := h.mapped _ _ _ _ (Patch.mem_of_since hsince)
  have hi : i < what.pages := by
    rw [← what.length_frames]
    exact (List.getElem?_eq_some_iff.mp hframe).1
  obtain ⟨desc, hdesc⟩ : ∃ desc, what.descs[i]? = some desc :=
    ⟨_, List.getElem?_eq_getElem (what.length_descs.symm ▸ hi)⟩
  obtain ⟨frame', hframe', htrans⟩ := what.translates hreach hdesc
  obtain rfl : frame' = frame := Option.some.inj (hframe'.symm.trans hframe)
  obtain ⟨m, hm⟩ := h.tables root
  refine ⟨desc, ?_, htrans⟩
  rw [page_add hbase, hm]
  refine Patch.replay_of_since hsince m ⟨Nat.le_add_right _ _, Nat.add_lt_add_left hi _⟩ ?_
  show Patch.run _ _ _ = _
  rw [Patch.run_add, List.getElem?_map, hdesc]
  rfl

/-- **A `MapShared` or `MapMemory` that succeeds means that the object is mapped**, where an object
found placed was mapped and has been left alone. -/
theorem mapsTo_of_inPlace {va : ℕ} (hs : memory.Reachable s) (hn : memory.next s e = some s')
    (ha : Answers s t obj what va s') (hk : s.InPlace t obj what) :
    s'.MapsTo (s.root t) what va := by
  have hi := replayed_of_reachable hs
  have hi' := (Step.of_next hn).replayed hi
  obtain ⟨base, rfl, hanswered⟩ := (Step.of_next hn).answers ha
  have hsince : Patch.Since Act.patch (.mapped obj what base) (what.pageSet base)
      (s'.log (s.root t)) := by
    cases hanswered with
    | found hpc hfind => exact hk.2 hpc base hfind
    | mapped hpc =>
      show Patch.Since _ _ _ ((s.act (s.root t) (.mapped obj what base)).log (s.root t))
      rw [act_log_self]
      exact .inl rfl
  exact hi'.mapsTo hk.1 hsince

/-- A buffer that was mapped is asked for again. -/
theorem mapsTo_of_inPlace_run : ∃ s s', memory.Reachable s ∧
    memory.next s (.call 0 .place) = some s' ∧
    Answers s 0 ⟨0, 0⟩ (.buffer 0x7000 (by decide)) userSharedVa s' ∧
    s'.MapsTo (s.root 0) (.buffer 0x7000 (by decide)) userSharedVa := by
  obtain ⟨s, hs, h⟩ := EventSystem.Reachable.exists_of_run (M := memory)
    (p := fun s => (memory.next s (.call 0 .place)).any fun s' : Memory => decide
      ((s.Live 0 ∧ (s.task 0).pc.mapping = some (⟨0, 0⟩, .buffer 0x7000 (by decide)) ∧
        (s'.task 0).pc.mapping = none ∧ (s'.task 0).x0 = .ok userSharedVa) ∧
        ((s.task 0).placed .shared).find ⟨0, 0⟩ = some userSharedVa ∧
        ((s.log (s.root 0)).head? = some (.mapped ⟨0, 0⟩ (.buffer 0x7000 (by decide)) userSharedVa))))
    [.spawnUser ⟨0x1000, 0, 0, userHeapBase⟩ [], .mint ⟨0, 0⟩ (.buffer 0x7000 (by decide)),
      .call 0 (.mapShared ⟨0, 0⟩), .call 0 .place, .call 0 (.mapObject 1),
      .call 0 (.mapShared ⟨0, 0⟩)] rfl (by decide +kernel)
  obtain ⟨s', hn, h⟩ := (Option.any_eq_true _ _).mp h
  obtain ⟨⟨hlive, hbefore, hafter, hx⟩, hfind, hlog⟩ := of_decide_eq_true h
  have ha : Answers s 0 ⟨0, 0⟩ (.buffer 0x7000 (by decide)) userSharedVa s' :=
    ⟨hlive, hbefore, hafter, hx⟩
  refine ⟨s, s', hs, hn, ha, mapsTo_of_inPlace hs hn ha ⟨trivial, fun _ base hb => ?_⟩⟩
  obtain rfl : userSharedVa = base := Option.some.inj (hfind.symm.trans hb)
  obtain ⟨rest, hrest⟩ := List.head?_eq_some_iff.mp hlog
  rw [hrest]
  exact .inl rfl

/-- A buffer that was mapped and unmapped is asked for again. -/
theorem not_mapsTo : ¬ ∀ (s s' : Memory) (e : MemEvent) (t : TaskId) (obj : ObjectRef)
    (what : Mappable) (va : ℕ), memory.Reachable s → memory.next s e = some s' →
    Answers s t obj what va s' → s'.MapsTo (s.root t) what va := by
  intro hall
  obtain ⟨s, hs, h⟩ := EventSystem.Reachable.exists_of_run (M := memory)
    (p := fun s => (memory.next s (.call 0 .place)).any fun s' : Memory => decide
      ((s.Live 0 ∧ (s.task 0).pc.mapping = some (⟨0, 0⟩, .buffer 0x7000 (by decide)) ∧
        (s'.task 0).pc.mapping = none ∧ (s'.task 0).x0 = .ok userSharedVa) ∧
        s'.tables (s.root 0) (page (userSharedVa + 0 * page4K)) = none))
    [.spawnUser ⟨0x1000, 0, 0, userHeapBase⟩ [], .mint ⟨0, 0⟩ (.buffer 0x7000 (by decide)),
      .call 0 (.mapShared ⟨0, 0⟩), .call 0 .place, .call 0 (.mapObject 1),
      .call 0 (.unmap userSharedVa 1), .call 0 .unmapChunk, .call 0 (.mapShared ⟨0, 0⟩)] rfl
    (by decide +kernel)
  obtain ⟨s', hn, h⟩ := (Option.any_eq_true _ _).mp h
  obtain ⟨⟨hlive, hbefore, hafter, hx⟩, hnone⟩ := of_decide_eq_true h
  obtain ⟨desc, hdesc, -⟩ := hall s s' _ 0 _ _ _ hs hn ⟨hlive, hbefore, hafter, hx⟩ 0 0x7000 rfl
  rw [hnone] at hdesc
  cases hdesc

end Memory

end StarOS
