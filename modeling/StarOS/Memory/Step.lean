import StarOS.Memory.Machine

/-!
# Steps of the memory of threads

What one event can do, said once. Most critical sections only move a task on in its call, or do so
and map or unmap pages: `Moves` is what such a task keeps. The others are few. A range is
reserved, placements are copied, an object is resolved, looked up, placed or mapped, and a task is
made or ends.

## Main definitions

* `MemTask.Moves`
* `Memory.Step` — everything one event can do
* `Memory.Answers` — a `MapShared` or `MapMemory` succeeds

## Main results

* `Memory.Step.of_next`
* `Memory.Step.answers` — the two ways in which one succeeds
-/

namespace StarOS

/-- A task moves on in its call, with nothing it did not have before: it maps no object any more,
and fails if it did. -/
structure MemTask.Moves (x y : MemTask) : Prop where
  space : y.space = x.space
  alive : y.alive = x.alive
  placed : y.placed = x.placed
  copy : ∀ placed, y.pc.copy = some placed → x.pc.copy = some placed
  mapping : y.pc.mapping = none
  failed : x.pc.mapping ≠ none → ∃ e, y.x0 = .error e

namespace Memory

variable {s s' : Memory} {t u : TaskId} {e : MemEvent}

@[simp] theorem modTask_self (f : MemTask → MemTask) : (s.modTask t f).task t = f (s.task t) :=
  Function.update_self ..

theorem modTask_of_ne (f : MemTask → MemTask) (h : u ≠ t) : (s.modTask t f).task u = s.task u :=
  Function.update_of_ne h ..

@[simp] theorem act_task (root : ℕ) (a : Act) : (s.act root a).task = s.task := rfl

theorem act_log_self (root : ℕ) (a : Act) : (s.act root a).log root = a :: s.log root :=
  Function.update_self ..

theorem act_log_of_ne {root r : ℕ} (a : Act) (h : r ≠ root) : (s.act root a).log r = s.log r :=
  Function.update_of_ne h ..

/-- What a step adds to the log of a space is what it does to that space. -/
theorem act_log_eq_cons {root r : ℕ} {a b : Act} (h : (s.act root a).log r = b :: s.log r) :
    r = root ∧ b = a := by
  rcases eq_or_ne r root with rfl | hne
  · rw [act_log_self] at h
    exact ⟨rfl, (List.cons.inj h).1.symm⟩
  · rw [act_log_of_ne _ hne] at h
    exact (List.cons_ne_self _ _ h.symm).elim

theorem mem_log_act {root r : ℕ} {a b : Act} :
    b ∈ (s.act root a).log r ↔ r = root ∧ b = a ∨ b ∈ s.log r := by
  rcases eq_or_ne r root with rfl | hne
  · rw [act_log_self, List.mem_cons]
    simp
  · rw [act_log_of_ne _ hne]
    simp [hne]

@[simp] theorem push_ntasks (task : MemTask) : (s.push task).ntasks = s.ntasks + 1 := rfl

theorem push_self (task : MemTask) : (s.push task).task s.ntasks = task :=
  Function.update_self ..

theorem push_of_ne (task : MemTask) (h : u ≠ s.ntasks) : (s.push task).task u = s.task u :=
  Function.update_of_ne h ..

/-! ### Reserving -/

theorem mem_cursors {root c : ℕ} :
    c ∈ s.cursors root ↔ ∃ t, s.Live t ∧ s.root t = root ∧ (s.task t).space.heapNext = c := by
  rw [cursors, List.mem_filterMap]
  constructor
  · rintro ⟨t, ht, h⟩
    obtain ⟨⟨halive, hroot⟩, rfl⟩ := Option.ite_some_none_eq_some.mp h
    exact ⟨t, ⟨List.mem_range.mp ht, halive⟩, hroot, rfl⟩
  · rintro ⟨t, ⟨ht, halive⟩, hroot, rfl⟩
    exact ⟨t, List.mem_range.mpr ht, if_pos ⟨halive, hroot⟩⟩

/-- The copies of the cursor in a space all change, and nothing else of any task. -/
theorem publish_task (root next : ℕ) (u : TaskId) :
    (s.publish root next).task u =
      if (s.task u).alive ∧ s.root u = root then
        { s.task u with space := { (s.task u).space with heapNext := next } }
      else s.task u := rfl

theorem publish_space (root next : ℕ) (u : TaskId) :
    ((s.publish root next).task u).space.root = s.root u ∧
      ((s.publish root next).task u).alive = (s.task u).alive ∧
      ((s.publish root next).task u).placed = (s.task u).placed ∧
      ((s.publish root next).task u).pc = (s.task u).pc := by
  rw [publish_task]
  split <;> exact ⟨rfl, rfl, rfl, rfl⟩

/-- **A reservation** starts at the highest cursor of the space, and every copy is then its end. -/
theorem reserveAnonShared_spec {pages next va : ℕ}
    (h : s.reserveAnonShared t pages = some ((next, va), s')) :
    va ∈ s.cursors (s.root t) ∧ (∀ c ∈ s.cursors (s.root t), c ≤ va) ∧
      next = va + pages * Mmu.page4K ∧
      s' = (s.publish (s.root t) next).act (s.root t) (.granted va pages) := by
  rw [reserveAnonShared] at h
  split at h
  · cases h
  · next top htop =>
    obtain ⟨hmem, hmax⟩ := List.max?_eq_some_iff.mp htop
    rw [AddressSpace.reserveAnon] at h
    dsimp only at h
    split_ifs at h
    obtain ⟨hr, rfl⟩ := Prod.ext_iff.mp (Option.some.inj h)
    obtain ⟨rfl, rfl⟩ := Prod.ext_iff.mp hr
    exact ⟨hmem, hmax, rfl, rfl⟩

/-! ### One event -/

/-- Everything one event can do. -/
inductive Step (s : Memory) : MemEvent → Memory → Prop
  | spawnUser {space : AddressSpace} {image : List (ℕ × ℕ)} :
    (∀ i, s.Live i → s.root i ≠ space.root) →
    Step s (.spawnUser space image) (s.spawnUser space image)
  | object {e : MemEvent} (o : ObjectRef → Option Mappable) : Step s e { s with object := o }
  | exit {t : TaskId} : s.Live t → Step s (.call t .exit) (s.exit t)
  | moved {t : TaskId} {c : MemCall} (f : MemTask → MemTask) :
    s.Live t → (s.task t).Moves (f (s.task t)) → Step s (.call t c) (s.modTask t f)
  | wrote {t : TaskId} {c : MemCall} (first : ℕ) (descs : List (Option ℕ))
      (f : MemTask → MemTask) :
    s.Live t → (s.task t).Moves (f (s.task t)) →
    Step s (.call t c) ((s.act (s.root t) (.wrote first descs)).modTask t f)
  | granted {t : TaskId} {c : MemCall} {pages next va : ℕ} {s₁ : Memory} (f : MemTask → MemTask) :
    s.Live t → s.reserveAnonShared t pages = some ((next, va), s₁) →
    (s₁.task t).Moves (f (s₁.task t)) → Step s (.call t c) (s₁.modTask t f)
  | copied {t : TaskId} {c : MemCall} {pages : ℕ} : s.Live t → (s.task t).pc = .user →
    Step s (.call t c) (s.goto t (.copied pages (s.task t).placed))
  | pushed {t : TaskId} {c : MemCall} {heapNext : ℕ} {placed : Placed} : s.Live t →
    (s.task t).pc = .stacked heapNext placed →
    Step s (.call t c)
      ((s.push ⟨{ (s.task t).space with heapNext }, true, placed, .user, .ok 0⟩).ret t (.ok s.ntasks))
  | resolved {t : TaskId} {c : MemCall} {obj : ObjectRef} {what : Mappable} : s.Live t →
    (s.task t).pc = .user → s.object obj = some what →
    Step s (.call t c) (s.goto t (.resolved obj what))
  | answered {t : TaskId} {obj : ObjectRef} {what : Mappable} {base : ℕ} : s.Live t →
    (s.task t).pc = .resolved obj what →
    ((s.task t).placed what.window).find obj = some base →
    Step s (.call t .place) (s.ret t (.ok (base + what.offset)))
  | placed {t : TaskId} {obj : ObjectRef} {what : Mappable} {base : ℕ}
      {placed : Placements what.window} : s.Live t →
    (s.task t).pc = .resolved obj what →
    ((s.task t).placed what.window).find obj = none →
    ((s.task t).placed what.window).place obj what.pages what.pages_le = some (base, placed) →
    Step s (.call t .place)
      (((s.act (s.root t) (.placed obj what base)).modTask t fun task =>
        { task with placed := Function.update task.placed what.window placed }).goto t
          (.placing obj what base))
  | mapped {t : TaskId} {c : MemCall} {obj : ObjectRef} {what : Mappable} {base : ℕ} : s.Live t →
    (s.task t).pc = .placing obj what base →
    Step s (.call t c)
      ((s.act (s.root t) (.mapped obj what base)).ret t (.ok (base + what.offset)))

/-- A call that is over, and was not a mapping that succeeded. -/
theorem moves_ret (x : MemTask) {r : Except KError ℕ}
    (hr : x.pc.mapping ≠ none → ∃ e, r = .error e) :
    x.Moves { x with pc := .user, x0 := r } where
  space := rfl
  alive := rfl
  placed := rfl
  copy _ h := by cases h
  mapping := rfl
  failed := hr

theorem moves_error (x : MemTask) (e : KError) : x.Moves { x with pc := .user, x0 := .error e } :=
  moves_ret x fun _ => ⟨e, rfl⟩

/-- A call that goes on. -/
theorem moves_goto (x : MemTask) {pc : MemPc} (hx : x.pc.mapping = none) (hpc : pc.mapping = none)
    (hcopy : ∀ placed, pc.copy = some placed → x.pc.copy = some placed) :
    x.Moves { x with pc } where
  space := rfl
  alive := rfl
  placed := rfl
  copy := hcopy
  mapping := hpc
  failed h := (h hx).elim

theorem Step.place (ht : s.Live t) {obj : ObjectRef} {what : Mappable}
    (hpc : (s.task t).pc = .resolved obj what) : Step s (.call t .place) (s.place t obj what) := by
  rw [Memory.place]
  split
  · next base hfind => exact .answered ht hpc hfind
  · next hfind =>
    split
    · exact .moved _ ht (moves_error _ _)
    · next base placed hplace => exact .placed ht hpc hfind hplace

theorem Step.resolve (ht : s.Live t) {c : MemCall} {obj : ObjectRef} (hpc : (s.task t).pc = .user)
    (h : s' = s.mapShared t obj ∨ s' = s.mapMemory t obj) : Step s (.call t c) s' := by
  rcases h with rfl | rfl
  · rw [mapShared]
    split
    · next run hobj => exact .resolved ht hpc hobj
    · exact .moved _ ht (moves_error _ _)
  · rw [mapMemory]
    split
    · next phys hobj => exact .resolved ht hpc hobj
    · exact .moved _ ht (moves_error _ _)

theorem Step.of_call (ht : s.Live t) {c : MemCall} (h : s.call t c (s.task t).pc = some s') :
    Step s (.call t c) s' := by
  have hmapping : ∀ {pc}, (s.task t).pc = pc → pc.mapping = none →
      (s.task t).pc.mapping = none := by
    intro pc hpc hnone
    rw [hpc, hnone]
  rw [call.eq_def] at h
  split at h
  -- exit
  · obtain rfl := Option.some.inj h
    exact .exit ht
  -- mapAnon
  · next pages hpc =>
    obtain rfl := Option.some.inj h
    rw [mapAnonCurrent]
    split
    · exact .moved _ ht (moves_error _ _)
    · split
      · exact .moved _ ht (moves_error _ _)
      · next next va s₁ hres =>
        refine .granted _ ht hres (moves_goto _ ?_ rfl fun _ h => by cases h)
        obtain ⟨-, -, -, rfl⟩ := reserveAnonShared_spec hres
        exact (congrArg MemPc.mapping (publish_space ..).2.2.2).trans (hmapping hpc rfl)
  -- anonChunk
  · next frames first pages done hpc =>
    rw [anonChunk] at h
    dsimp only at h
    split_ifs at h <;> obtain rfl := Option.some.inj h
    · exact .wrote _ _ _ ht (moves_error _ _)
    · exact .wrote _ _ _ ht (moves_goto _ (hmapping hpc rfl) rfl fun _ h => by cases h)
    · exact .wrote _ _ _ ht (moves_ret _ fun h => absurd (hmapping hpc rfl) h)
  -- unmap
  · next va pages hpc =>
    obtain rfl := Option.some.inj h
    rw [unmapCurrent]
    split_ifs
    · exact .moved _ ht (moves_error _ _)
    · exact .moved _ ht (moves_error _ _)
    · exact .moved _ ht (moves_error _ _)
    · exact .moved _ ht (moves_goto _ (hmapping hpc rfl) rfl fun _ h => by cases h)
  -- unmapChunk
  · next va pages done removed hpc =>
    obtain rfl := Option.some.inj h
    rw [unmapChunk]
    split
    · exact .wrote _ _ _ ht (moves_goto _ (hmapping hpc rfl) rfl fun _ h => by cases h)
    · exact .wrote _ _ _ ht (moves_ret _ fun h => absurd (hmapping hpc rfl) h)
  -- spawnThread
  · next pages hpc =>
    obtain rfl := Option.some.inj h
    rw [spawnThread]
    split
    · exact .moved _ ht (moves_error _ _)
    · exact .copied ht hpc
  -- threadReserve
  · next pages placed hpc =>
    obtain rfl := Option.some.inj h
    rw [threadReserve]
    split
    · exact .moved _ ht (moves_error _ _)
    · next next va s₁ hres =>
      refine .granted _ ht hres ?_
      obtain ⟨-, -, -, rfl⟩ := reserveAnonShared_spec hres
      have hpc' := (publish_space (s := s) (s.root t) next t).2.2.2
      refine moves_goto _ ((congrArg MemPc.mapping hpc').trans (hmapping hpc rfl)) rfl fun _ h => ?_
      exact (congrArg MemPc.copy (hpc'.trans hpc)).trans h
  -- threadMap
  · next frames heapNext base pages placed hpc =>
    rw [threadMap] at h
    dsimp only at h
    split_ifs at h <;> obtain rfl := Option.some.inj h
    · exact .wrote _ _ _ ht (moves_error _ _)
    · refine .wrote _ _ _ ht (moves_goto _ (hmapping hpc rfl) rfl fun _ h => ?_)
      exact (congrArg MemPc.copy hpc).trans h
  -- threadPush
  · next room heapNext placed hpc =>
    obtain rfl := Option.some.inj h
    rw [threadPush]
    split
    · exact .pushed ht hpc
    · exact .moved _ ht (moves_error _ _)
  -- mapShared, mapMemory
  · next obj hpc => exact .resolve ht hpc (.inl (Option.some.inj h).symm)
  · next obj hpc => exact .resolve ht hpc (.inr (Option.some.inj h).symm)
  -- place
  · next obj run hpc => exact Option.some.inj h ▸ .place ht hpc
  · next obj phys hpc => exact Option.some.inj h ▸ .place ht hpc
  -- mapObject
  · next pages obj what base hpc =>
    rw [mapObject] at h
    split_ifs at h <;> obtain rfl := Option.some.inj h
    · exact .mapped ht hpc
    · exact .wrote _ _ _ ht (moves_error _ _)
  -- growStack
  · next far frame hpc =>
    obtain ⟨-, h⟩ := Option.ite_none_right_eq_some.mp h
    obtain rfl := Option.some.inj h
    exact .wrote _ _ _ ht (moves_goto _ (hmapping hpc rfl) rfl fun _ h => by cases h)
  -- mapDma
  · next phys pages done hpc =>
    obtain ⟨-, h⟩ := Option.ite_none_right_eq_some.mp h
    obtain rfl := Option.some.inj h
    exact .wrote _ _ _ ht (moves_ret _ fun h => absurd (hmapping hpc rfl) h)
  · cases h

theorem Step.of_next (h : s.next e = some s') : Step s e s' := by
  cases e with
  | spawnUser space image =>
    obtain ⟨⟨-, hfree⟩, h⟩ := Option.ite_none_right_eq_some.mp h
    obtain rfl := Option.some.inj h
    exact .spawnUser fun i hi => hfree i (List.mem_range.mpr hi.1) hi.2
  | mint obj what =>
    obtain ⟨-, h⟩ := Option.ite_none_right_eq_some.mp h
    obtain rfl := Option.some.inj h
    exact .object _
  | revoke obj =>
    obtain rfl := Option.some.inj h
    exact .object _
  | call t c =>
    obtain ⟨ht, h⟩ := Option.ite_none_right_eq_some.mp h
    exact .of_call ht h

/-! ### Mapping an object -/

/-- The `MapShared` or `MapMemory` of an object that `t` is in answers an address. -/
structure Answers (s : Memory) (t : TaskId) (obj : ObjectRef) (what : Mappable) (va : ℕ)
    (s' : Memory) : Prop where
  live : s.Live t
  before : (s.task t).pc.mapping = some (obj, what)
  after : (s'.task t).pc.mapping = none
  x0 : (s'.task t).x0 = .ok va

/-- The two ways in which it does: the object has an address, or has just been mapped. -/
inductive Answered (s : Memory) (t : TaskId) (obj : ObjectRef) (what : Mappable) (base : ℕ) :
    Memory → Prop
  | found : (s.task t).pc = .resolved obj what →
    ((s.task t).placed what.window).find obj = some base →
    Answered s t obj what base (s.ret t (.ok (base + what.offset)))
  | mapped : (s.task t).pc = .placing obj what base →
    Answered s t obj what base
      ((s.act (s.root t) (.mapped obj what base)).ret t (.ok (base + what.offset)))

theorem moves_not_answers {x y : MemTask} (h : x.Moves y) {va : ℕ}
    (hbefore : x.pc.mapping ≠ none) : y.x0 ≠ .ok va := by
  intro hx
  obtain ⟨e, he⟩ := h.failed hbefore
  rw [he] at hx
  cases hx

/-- An event of another task, or of none, leaves a task where it is in its call. -/
theorem Step.pc_of_other (h : Step s e s') (hlive : s.Live t) (he : ∀ c, e ≠ .call t c) :
    (s'.task t).pc = (s.task t).pc := by
  have hne : ∀ {u c}, e = .call u c → t ≠ u := by
    rintro u c rfl rfl
    exact he c rfl
  cases h with
  | spawnUser => exact congrArg MemTask.pc (push_of_ne _ hlive.1.ne)
  | object => rfl
  | exit | moved | wrote | copied | resolved | answered | mapped =>
    exact congrArg MemTask.pc (modTask_of_ne _ (hne rfl))
  | granted f hu hres =>
    obtain ⟨-, -, -, rfl⟩ := reserveAnonShared_spec hres
    exact (congrArg MemTask.pc (modTask_of_ne f (hne rfl))).trans (publish_space _ _ t).2.2.2
  | pushed =>
    refine congrArg MemTask.pc ((modTask_of_ne _ (hne rfl)).trans ?_)
    exact push_of_ne _ hlive.1.ne
  | placed =>
    exact congrArg MemTask.pc ((modTask_of_ne _ (hne rfl)).trans (modTask_of_ne _ (hne rfl)))

/-- **A mapping succeeds** by finding the object placed, or by mapping its last page. -/
theorem Step.answers {obj : ObjectRef} {what : Mappable} {va : ℕ} (h : Step s e s')
    (ha : Answers s t obj what va s') :
    ∃ base, va = base + what.offset ∧ Answered s t obj what base s' := by
  obtain ⟨hlive, hbefore, hafter, hx⟩ := ha
  have hsome : (s.task t).pc.mapping ≠ none := by
    rw [hbefore]
    exact Option.some_ne_none _
  have huser : ∀ {pc}, (s.task t).pc = pc → pc.mapping ≠ none := by
    rintro pc rfl
    exact hsome
  by_cases he : ∃ c, e = .call t c
  · obtain ⟨c, rfl⟩ := he
    cases h with
    | object =>
      rw [hbefore] at hafter
      cases hafter
    | exit =>
      rw [Memory.exit, modTask_self, hbefore] at hafter
      cases hafter
    | moved f hu hf | wrote first descs f hu hf =>
      rw [modTask_self] at hx
      exact (moves_not_answers hf hsome hx).elim
    | granted f hu hres hf =>
      obtain ⟨-, -, -, rfl⟩ := reserveAnonShared_spec hres
      rw [modTask_self] at hx
      refine (moves_not_answers hf ?_ hx).elim
      rw [act_task, (publish_space _ _ t).2.2.2]
      exact hsome
    | copied hu hpc | pushed hu hpc | resolved hu hpc => exact (huser hpc rfl).elim
    | answered hu hpc hfind =>
      rw [hpc] at hbefore
      obtain ⟨rfl, rfl⟩ := Prod.ext_iff.mp (Option.some.inj hbefore)
      rw [ret, modTask_self] at hx
      exact ⟨_, (Except.ok.inj hx).symm, .found hpc hfind⟩
    | placed =>
      rw [goto, modTask_self] at hafter
      cases hafter
    | mapped hu hpc =>
      rw [hpc] at hbefore
      obtain ⟨rfl, rfl⟩ := Prod.ext_iff.mp (Option.some.inj hbefore)
      rw [ret, modTask_self] at hx
      exact ⟨_, (Except.ok.inj hx).symm, .mapped hpc⟩
  · rw [h.pc_of_other hlive fun c hc => he ⟨c, hc⟩, hbefore] at hafter
    cases hafter

end Memory

end StarOS
