import StarOS.Lib.Cursor
import StarOS.Memory.Step

/-!
# Where the threads of a space place objects

Each thread places objects by its own records, which a new thread copies from the one that makes
it, and nothing brings two records together again. A thread that places an object its records do
not have chooses an address past everything *they* have: that is clear of what the other threads
placed only if it has all of that too.

## Main definitions

* `Memory.Apart` — different objects occupy different pages of a space
* `Memory.SameAddress` — an object mapped by any thread comes back to where it is
* `Memory.Recorded` — the condition under which both hold

## Main results

* `Memory.apart_of_recorded`
* `Memory.not_apart` — two threads place two objects at one address
-/

namespace StarOS

open Mmu

/-- The addresses of an object placed at `base`. -/
def Mappable.range (what : Mappable) (base : ℕ) : Set ℕ :=
  Set.Ico base (base + what.pages * page4K)

/-! ### What the log says -/

/-- Objects are placed once each in a window, in the window of their kind, and clear of one another;
what is mapped was placed. -/
structure Arranged (log : List Act) : Prop where
  same : ∀ obj what base what' base', .placed obj what base ∈ log → .placed obj what' base' ∈ log →
    what'.window = what.window → what' = what ∧ base' = base
  apart : ∀ obj what base obj' what' base', .placed obj what base ∈ log →
    .placed obj' what' base' ∈ log → obj ≠ obj' → Disjoint (what.range base) (what'.range base')
  inWindow : ∀ obj what base, .placed obj what base ∈ log →
    what.window.base ≤ base ∧ base + what.pages * page4K ≤ what.window.limit
  mapped : ∀ obj what base, .mapped obj what base ∈ log → .placed obj what base ∈ log

/-- The records have only what was placed, and have their cursors past that. -/
structure Agrees (log : List Act) (placed : Placed) : Prop where
  recorded : ∀ w obj base, (obj, base) ∈ (placed w).entries →
    ∃ what : Mappable, what.window = w ∧ .placed obj what base ∈ log
  below : ∀ obj what base, .placed obj what base ∈ log →
    (obj, base) ∈ (placed what.window).entries →
    base + what.pages * page4K ≤ (placed what.window).cursor

/-- Nothing is placed or mapped by this. -/
def Act.Quiet : Act → Prop
  | placed .. | mapped .. => False
  | granted .. | wrote .. => True

variable {log : List Act} {a : Act} {placed : Placed} {obj : ObjectRef} {what : Mappable} {base : ℕ}

theorem mem_cons_quiet (ha : a.Quiet) : .placed obj what base ∈ a :: log ↔ .placed obj what base ∈ log := by
  rw [List.mem_cons]
  constructor
  · rintro (rfl | h)
    · exact ha.elim
    · exact h
  · exact .inr

theorem mem_cons_mapped {o : ObjectRef} {w : Mappable} {b : ℕ} :
    .placed obj what base ∈ .mapped o w b :: log ↔ .placed obj what base ∈ log := by
  simp

theorem Arranged.nil : Arranged [] where
  same _ _ _ _ _ h := by cases h
  apart _ _ _ _ _ _ h := by cases h
  inWindow _ _ _ h := by cases h
  mapped _ _ _ h := by cases h

/-- Only what is placed matters, and that all that is mapped is. -/
theorem Arranged.of_placed {log' : List Act} (h : Arranged log)
    (hplaced : ∀ obj what base, .placed obj what base ∈ log' ↔ .placed obj what base ∈ log)
    (hmapped : ∀ obj what base, .mapped obj what base ∈ log' → .placed obj what base ∈ log) :
    Arranged log' where
  same _ _ _ _ _ h₁ h₂ := h.same _ _ _ _ _ ((hplaced ..).mp h₁) ((hplaced ..).mp h₂)
  apart _ _ _ _ _ _ h₁ h₂ := h.apart _ _ _ _ _ _ ((hplaced ..).mp h₁) ((hplaced ..).mp h₂)
  inWindow _ _ _ h₁ := h.inWindow _ _ _ ((hplaced ..).mp h₁)
  mapped _ _ _ h₁ := (hplaced ..).mpr (hmapped _ _ _ h₁)

theorem Arranged.quiet (h : Arranged log) (ha : a.Quiet) : Arranged (a :: log) := by
  refine h.of_placed (fun _ _ _ => mem_cons_quiet ha) fun obj what base hm => ?_
  obtain rfl | hm := List.mem_cons.mp hm
  · exact ha.elim
  · exact h.mapped _ _ _ hm

theorem Arranged.map (h : Arranged log) (hp : .placed obj what base ∈ log) :
    Arranged (.mapped obj what base :: log) := by
  refine h.of_placed (fun _ _ _ => mem_cons_mapped) fun obj' what' base' hm => ?_
  obtain heq | hm := List.mem_cons.mp hm
  · obtain ⟨rfl, rfl, rfl⟩ := Act.mapped.inj heq
    exact hp
  · exact h.mapped _ _ _ hm

theorem Agrees.of_placed {log' : List Act} (h : Agrees log placed)
    (hplaced : ∀ obj what base, .placed obj what base ∈ log' ↔ .placed obj what base ∈ log) :
    Agrees log' placed where
  recorded _ _ _ hmem := by
    obtain ⟨what, hw, hp⟩ := h.recorded _ _ _ hmem
    exact ⟨what, hw, (hplaced ..).mpr hp⟩
  below _ _ _ hp := h.below _ _ _ ((hplaced ..).mp hp)

theorem Agrees.new (log : List Act) : Agrees log Placements.new where
  recorded _ _ _ hmem := by cases hmem
  below _ _ _ _ hmem := by cases hmem

/-! ### An object is placed -/

section

variable {p p' : Placements what.window}

/-- The records of the thread that places `obj` have all that was placed in that window. -/
def Complete (log : List Act) {w : Window} (p : Placements w) : Prop :=
  ∀ obj what base, .placed obj what base ∈ log → what.window = w → (obj, base) ∈ p.entries

/-- The object, window and address of a placement. -/
def Act.placement : Act → Option (ObjectRef × Window × ℕ)
  | .placed obj what base => some (obj, what.window, base)
  | _ => none

instance (log : List Act) {w : Window} (p : Placements w) : Decidable (Complete log p) :=
  decidable_of_iff
    (∀ a ∈ log, ∀ x ∈ a.placement, x.2.1 = w → (x.1, x.2.2) ∈ p.entries) <| by
      constructor
      · intro h obj what base hp
        exact h _ hp _ rfl
      · rintro h a ha x hx hw
        cases a with
        | placed obj what base =>
          obtain rfl := Option.some.inj hx
          exact h _ _ _ ha hw
        | granted | mapped | wrote => cases hx

/-- Then nothing was placed for `obj`, which they do not have. -/
theorem Complete.not_placed (hc : Complete log p) (hfind : p.find obj = none) {what' : Mappable}
    {base' : ℕ} (hw : what'.window = what.window) : .placed obj what' base' ∉ log := fun h =>
  Placements.not_mem_of_find hfind (hc _ _ _ h hw)

theorem Arranged.place (h : Arranged log) (ha : Agrees log placed)
    (hc : Complete log (placed what.window)) (hfind : (placed what.window).find obj = none)
    (hplace : (placed what.window).place obj what.pages what.pages_le = some (base, p')) :
    Arranged (.placed obj what base :: log) := by
  obtain ⟨hbase, hcursor, -⟩ := Placements.place_spec hplace
  have hlimit : base + what.pages * page4K ≤ what.window.limit := hcursor ▸ p'.cursor_le_limit
  have hle : what.window.base ≤ base := hbase ▸ (placed what.window).le_cursor
  -- the new object is clear of every other
  have hclear : ∀ obj' what' base', .placed obj' what' base' ∈ log →
      Disjoint (what'.range base') (what.range base) := by
    intro obj' what' base' hp
    by_cases hw : what'.window = what.window
    · have hmem : (obj', base') ∈ (placed what'.window).entries := by
        rw [hw]
        exact hc _ _ _ hp hw
      refine Cursor.disjoint_of_le ((ha.below _ _ _ hp hmem).trans_eq ?_)
      rw [hw, hbase]
    · obtain ⟨hbase', hlimit'⟩ := h.inWindow _ _ _ hp
      obtain hlt | hlt := Window.disjoint hw
      · exact Cursor.disjoint_of_le (hlimit'.trans (hlt.trans hle))
      · exact (Cursor.disjoint_of_le (hlimit.trans (hlt.trans hbase'))).symm
  refine ⟨?_, ?_, ?_, ?_⟩
  · intro o w b w' b' h₁ h₂ hw
    rcases List.mem_cons.mp h₁ with heq | hm₁ <;> rcases List.mem_cons.mp h₂ with heq' | hm₂
    · obtain ⟨rfl, rfl, rfl⟩ := Act.placed.inj heq
      obtain ⟨-, rfl, rfl⟩ := Act.placed.inj heq'
      exact ⟨rfl, rfl⟩
    · obtain ⟨rfl, rfl, rfl⟩ := Act.placed.inj heq
      exact (hc.not_placed hfind hw hm₂).elim
    · obtain ⟨rfl, rfl, rfl⟩ := Act.placed.inj heq'
      exact (hc.not_placed hfind hw.symm hm₁).elim
    · exact h.same _ _ _ _ _ hm₁ hm₂ hw
  · intro o w b o' w' b' h₁ h₂ hne
    rcases List.mem_cons.mp h₁ with heq | hm₁ <;> rcases List.mem_cons.mp h₂ with heq' | hm₂
    · obtain ⟨rfl, rfl, rfl⟩ := Act.placed.inj heq
      exact (hne (Act.placed.inj heq').1.symm).elim
    · obtain ⟨rfl, rfl, rfl⟩ := Act.placed.inj heq
      exact (hclear _ _ _ hm₂).symm
    · obtain ⟨rfl, rfl, rfl⟩ := Act.placed.inj heq'
      exact hclear _ _ _ hm₁
    · exact h.apart _ _ _ _ _ _ hm₁ hm₂ hne
  · intro o w b h₁
    rcases List.mem_cons.mp h₁ with heq | h₁
    · obtain ⟨rfl, rfl, rfl⟩ := Act.placed.inj heq
      exact ⟨hle, hlimit⟩
    · exact h.inWindow _ _ _ h₁
  · intro o w b h₁
    rcases List.mem_cons.mp h₁ with heq | h₁
    · cases heq
    · exact List.mem_cons_of_mem _ (h.mapped _ _ _ h₁)

/-- The records of the thread that places the object. -/
theorem Agrees.place (ha : Agrees log placed) (hc : Complete log (placed what.window))
    (hfind : (placed what.window).find obj = none)
    (hplace : (placed what.window).place obj what.pages what.pages_le = some (base, p')) :
    Agrees (.placed obj what base :: log) (Function.update placed what.window p') := by
  obtain ⟨hbase, hcursor, hentries⟩ := Placements.place_spec hplace
  refine ⟨?_, ?_⟩
  · intro w o b hmem
    rcases eq_or_ne w what.window with rfl | hne
    · rw [Function.update_self, hentries] at hmem
      rcases List.mem_append.mp hmem with hmem | hmem
      · obtain ⟨what', hw, hp⟩ := ha.recorded _ _ _ hmem
        exact ⟨what', hw, List.mem_cons_of_mem _ hp⟩
      · obtain ⟨rfl, rfl⟩ := Prod.ext_iff.mp (List.mem_singleton.mp hmem)
        exact ⟨what, rfl, List.mem_cons_self ..⟩
    · rw [Function.update_of_ne hne] at hmem
      obtain ⟨what', hw, hp⟩ := ha.recorded _ _ _ hmem
      exact ⟨what', hw, List.mem_cons_of_mem _ hp⟩
  · intro o w b hp hmem
    rcases List.mem_cons.mp hp with heq | hp
    · obtain ⟨rfl, rfl, rfl⟩ := Act.placed.inj heq
      rw [Function.update_self, hcursor]
    · rcases eq_or_ne w.window what.window with hw | hne
      · have hmem' : (o, b) ∈ (placed w.window).entries := by
          rw [hw]
          exact hc _ _ _ hp hw
        have hle := ha.below _ _ _ hp hmem'
        rw [hw] at hle ⊢
        rw [Function.update_self, hcursor, hbase]
        exact hle.trans (Nat.le_add_right _ _)
      · rw [Function.update_of_ne hne] at hmem ⊢
        exact ha.below _ _ _ hp hmem

/-- The records of another. -/
theorem Agrees.place_other {placed' : Placed} (ha : Agrees log placed')
    (hc : Complete log (placed what.window)) (hfind : (placed what.window).find obj = none)  :
    Agrees (.placed obj what base :: log) placed' := by
  refine ⟨fun w o b hmem => ?_, fun o w b hp hmem => ?_⟩
  · obtain ⟨what', hw, hp⟩ := ha.recorded _ _ _ hmem
    exact ⟨what', hw, List.mem_cons_of_mem _ hp⟩
  · rcases List.mem_cons.mp hp with heq | hp
    · obtain ⟨rfl, rfl, rfl⟩ := Act.placed.inj heq
      obtain ⟨what', hw, hp⟩ := ha.recorded _ _ _ hmem
      exact (hc.not_placed hfind hw hp).elim
    · exact ha.below _ _ _ hp hmem

end

/-! ### Every task -/

/-- About to place an object its records do not have, the task has in them all that was placed in
that window. -/
def MemTask.Informed (x : MemTask) (log : List Act) : Prop :=
  match x.pc with
  | .resolved obj what =>
    (x.placed what.window).find obj = none → Complete log (x.placed what.window)
  | _ => True

instance (x : MemTask) (log : List Act) : Decidable (x.Informed log) :=
  match h : x.pc with
  | .resolved obj what =>
    decidable_of_iff ((x.placed what.window).find obj = none → Complete log (x.placed what.window))
      (by rw [MemTask.Informed, h])
  | .user | .anon .. | .unmap .. | .copied .. | .reserved .. | .stacked .. | .placing .. =>
    isTrue (by rw [MemTask.Informed, h]; trivial)

namespace Memory

/-- Live objects that are mapped in one space are clear of one another. -/
def Apart (s : Memory) : Prop :=
  ∀ root obj what base obj' what' base', .mapped obj what base ∈ s.log root →
    .mapped obj' what' base' ∈ s.log root → s.object obj = some what →
    s.object obj' = some what' → obj ≠ obj' → Disjoint (what.range base) (what'.range base')

/-- A call that asks for an object some thread has mapped answers the address it has. -/
def SameAddress (s : Memory) : Prop :=
  ∀ e s' t obj what va base, memory.next s e = some s' → Answers s t obj what va s' →
    .mapped obj what base ∈ s.log (s.root t) → va = base + what.offset

/-- A thread that places an object its records do not have has in them all that was placed in its
space, in that window. -/
def Recorded (s : Memory) : MemEvent → Prop
  | .call t c => c = .place → (s.task t).Informed (s.log (s.root t))
  | _ => True

instance (s : Memory) : DecidablePred s.Recorded
  | .call _ _ => inferInstanceAs (Decidable (_ = _ → _))
  | .spawnUser .. | .mint .. | .revoke _ => isTrue trivial

end Memory

/-- The records a task has, or has copied for the thread it makes. -/
def MemTask.Has (x : MemTask) (placed : Placed) : Prop :=
  placed = x.placed ∨ x.pc.copy = some placed

/-- A task has no more records than it had, and no object more to map. -/
structure MemTask.Keeps (x y : MemTask) : Prop where
  root : y.space.root = x.space.root
  alive : y.alive = true → x.alive = true
  has : ∀ placed, y.Has placed → x.Has placed
  placing : ∀ obj what base, y.pc = .placing obj what base → x.pc = .placing obj what base

theorem MemTask.Keeps.refl (x : MemTask) : x.Keeps x :=
  ⟨rfl, id, fun _ => id, fun _ _ _ => id⟩

theorem MemTask.Keeps.trans {x y z : MemTask} (h : x.Keeps y) (h' : y.Keeps z) : x.Keeps z :=
  ⟨h'.root.trans h.root, h.alive ∘ h'.alive, fun p hp => h.has p (h'.has p hp),
    fun _ _ _ hp => h.placing _ _ _ (h'.placing _ _ _ hp)⟩

theorem MemTask.Moves.keeps {x y : MemTask} (h : x.Moves y) : x.Keeps y where
  root := congrArg AddressSpace.root h.space
  alive := by rw [h.alive]; exact id
  has placed := by
    rintro (rfl | hcopy)
    · exact .inl h.placed
    · exact .inr (h.copy _ hcopy)
  placing obj what base hpc := by
    have hnone := h.mapping
    rw [hpc] at hnone
    cases hnone

/-- Only where it is in its call changes, to where it has no object to map. -/
theorem MemTask.keeps_pc (x : MemTask) {pc : MemPc} {x0 : Except KError ℕ}
    (hcopy : ∀ placed, pc.copy = some placed → x.Has placed)
    (hpc : ∀ obj what base, pc ≠ .placing obj what base) : x.Keeps { x with pc, x0 } where
  root := rfl
  alive := id
  has placed := by
    rintro (rfl | h)
    · exact .inl rfl
    · exact hcopy _ h
  placing obj what base h := (hpc _ _ _ h).elim

namespace Memory

variable {s s' : Memory} {t u : TaskId} {e : MemEvent} {root : ℕ}

/-- What the records of the threads of a space have to do with what was placed in it. -/
structure Coherent (s : Memory) : Prop where
  layout : ∀ root, Arranged (s.log root)
  agrees : ∀ t placed, s.Live t → (s.task t).Has placed → Agrees (s.log (s.root t)) placed
  placing : ∀ t obj what base, s.Live t → (s.task t).pc = .placing obj what base →
    .placed obj what base ∈ s.log (s.root t)

/-- Nothing is placed, and no task has more than it had. -/
theorem Coherent.keep (h : s.Coherent) (hn : s'.ntasks = s.ntasks)
    (htask : ∀ t, (s.task t).Keeps (s'.task t)) (hlayout : ∀ root, Arranged (s'.log root))
    (hlog : ∀ root obj what base,
      .placed obj what base ∈ s'.log root ↔ .placed obj what base ∈ s.log root) :
    s'.Coherent := by
  have hlive : ∀ {t}, s'.Live t → s.Live t := by
    rintro t ⟨hlt, halive⟩
    exact ⟨hn ▸ hlt, (htask t).alive halive⟩
  refine ⟨hlayout, fun t placed ht hp => ?_, fun t obj what base ht hpc => ?_⟩
  · have hagrees := h.agrees t placed (hlive ht) ((htask t).has _ hp)
    rw [Memory.root, (htask t).root]
    exact hagrees.of_placed (hlog _)
  · rw [Memory.root, (htask t).root, hlog]
    exact h.placing t obj what base (hlive ht) ((htask t).placing _ _ _ hpc)

/-- The case of an event that does one thing to one space. -/
theorem Coherent.keep_act (h : s.Coherent) {r : ℕ} {a : Act} (ha : a.Quiet) (hn : s'.ntasks = s.ntasks)
    (htask : ∀ t, (s.task t).Keeps (s'.task t)) (hlog : s'.log = (s.act r a).log) :
    s'.Coherent := by
  refine h.keep hn htask (fun root => ?_) fun root obj what base => ?_
  · rw [hlog]
    rcases eq_or_ne root r with rfl | hne
    · rw [act_log_self]
      exact (h.layout _).quiet ha
    · rw [act_log_of_ne _ hne]
      exact h.layout _
  · rw [hlog]
    rcases eq_or_ne root r with rfl | hne
    · rw [act_log_self]
      exact mem_cons_quiet ha
    · rw [act_log_of_ne _ hne]

/-- The case of an event that does nothing to any space. -/
theorem Coherent.keep_log (h : s.Coherent) (hn : s'.ntasks = s.ntasks)
    (htask : ∀ t, (s.task t).Keeps (s'.task t)) (hlog : s'.log = s.log) : s'.Coherent :=
  h.keep hn htask (fun root => hlog ▸ h.layout root) fun _ _ _ _ => by rw [hlog]

theorem keeps_modTask {f : MemTask → MemTask} (hf : (s.task t).Keeps (f (s.task t))) (u : TaskId) :
    (s.task u).Keeps ((s.modTask t f).task u) := by
  rcases eq_or_ne u t with rfl | hne
  · rw [modTask_self]
    exact hf
  · rw [modTask_of_ne _ hne]
    exact .refl _

theorem keeps_publish (r next : ℕ) (u : TaskId) :
    (s.task u).Keeps ((s.publish r next).task u) := by
  rw [publish_task]
  split <;> exact ⟨rfl, id, fun _ => id, fun _ _ _ => id⟩

/-- A task that enters the table with records that agree with its space. -/
theorem Coherent.push {task : MemTask} (h : s.Coherent) (hpc : task.pc = .user)
    (ha : Agrees (s.log task.space.root) task.placed) : (s.push task).Coherent := by
  have hold : ∀ {t}, (s.push task).Live t → t ≠ s.ntasks → s.Live t := by
    rintro t ⟨hlt, halive⟩ hne
    rw [push_of_ne _ hne] at halive
    exact ⟨lt_of_le_of_ne (Nat.le_of_lt_succ hlt) hne, halive⟩
  refine ⟨h.layout, fun t placed ht hp => ?_, fun t obj what base ht hpc' => ?_⟩
  · rcases eq_or_ne t s.ntasks with rfl | hne
    · rw [push_self] at hp
      rw [Memory.root, push_self]
      rcases hp with rfl | hp
      · exact ha
      · rw [hpc] at hp
        cases hp
    · rw [push_of_ne _ hne] at hp
      rw [Memory.root, push_of_ne _ hne]
      exact h.agrees t placed (hold ht hne) hp
  · rcases eq_or_ne t s.ntasks with rfl | hne
    · rw [push_self, hpc] at hpc'
      cases hpc'
    · rw [push_of_ne _ hne] at hpc'
      rw [Memory.root, push_of_ne _ hne]
      exact h.placing t obj what base (hold ht hne) hpc'

/-- A space is built on a root no live task has. -/
theorem Coherent.rebuild (h : s.Coherent) {root : ℕ} (hfree : ∀ i, s.Live i → s.root i ≠ root)
    (tables : ℕ → ℕ → Option ℕ) :
    Coherent { s with tables, log := Function.update s.log root [] } := by
  have hlog : ∀ {t}, s.Live t → Function.update s.log root [] (s.root t) = s.log (s.root t) :=
    fun ht => Function.update_of_ne (hfree _ ht) ..
  refine ⟨fun r => ?_, fun t placed ht hp => ?_, fun t obj what base ht hpc => ?_⟩
  · show Arranged (Function.update s.log root [] r)
    rcases eq_or_ne r root with rfl | hne
    · rw [Function.update_self]
      exact .nil
    · rw [Function.update_of_ne hne]
      exact h.layout r
  · exact (congrArg (Agrees · placed) (hlog ht)).mpr (h.agrees t placed ht hp)
  · exact (congrArg (Act.placed obj what base ∈ ·) (hlog ht)).mpr (h.placing t obj what base ht hpc)

/-- An object is placed, by a thread whose records have all that was. -/
theorem Coherent.place (h : s.Coherent) (ht : s.Live t) {obj : ObjectRef} {what : Mappable}
    {base : ℕ} {p' : Placements what.window} (hpc : (s.task t).pc = .resolved obj what)
    (hfind : ((s.task t).placed what.window).find obj = none)
    (hplace : ((s.task t).placed what.window).place obj what.pages what.pages_le = some (base, p'))
    (hc : Complete (s.log (s.root t)) ((s.task t).placed what.window)) :
    (((s.act (s.root t) (.placed obj what base)).modTask t fun task =>
      { task with placed := Function.update task.placed what.window p' }).goto t
        (.placing obj what base)).Coherent := by
  have hown := h.agrees t _ ht (.inl rfl)
  set s₁ := ((s.act (s.root t) (.placed obj what base)).modTask t fun task =>
    { task with placed := Function.update task.placed what.window p' }).goto t
      (.placing obj what base) with hs₁
  have hself : s₁.task t = { s.task t with
      placed := Function.update (s.task t).placed what.window p', pc := .placing obj what base } := by
    rw [hs₁, goto, modTask_self, modTask_self, act_task]
  have hother : ∀ {u}, u ≠ t → s₁.task u = s.task u := by
    intro u hne
    rw [hs₁, goto, modTask_of_ne _ hne, modTask_of_ne _ hne, act_task]
  have hroot : ∀ u, s₁.root u = s.root u := by
    intro u
    rcases eq_or_ne u t with rfl | hne
    · rw [Memory.root, hself]
      rfl
    · rw [Memory.root, hother hne]
      rfl
  have hlog : ∀ r, s₁.log r = (s.act (s.root t) (.placed obj what base)).log r := fun _ => rfl
  have hlive : ∀ {u}, u ≠ t → s₁.Live u → s.Live u := by
    rintro u hne ⟨hlt, halive⟩
    rw [hother hne] at halive
    exact ⟨hlt, halive⟩
  refine ⟨fun r => ?_, fun u placed hu hp => ?_, fun u o w b hu hpc' => ?_⟩
  · rw [hlog]
    rcases eq_or_ne r (s.root t) with rfl | hne
    · rw [act_log_self]
      exact (h.layout _).place hown hc hfind hplace
    · rw [act_log_of_ne _ hne]
      exact h.layout r
  · rw [hroot, hlog]
    rcases eq_or_ne u t with rfl | hne
    · rw [hself] at hp
      rw [act_log_self]
      rcases hp with rfl | hp
      · exact hown.place hc hfind hplace
      · cases hp
    · rw [hother hne] at hp
      have hagrees := h.agrees u placed (hlive hne hu) hp
      by_cases hr : s.root u = s.root t
      · rw [hr, act_log_self]
        exact (hr ▸ hagrees).place_other hc hfind
      · rw [act_log_of_ne _ hr]
        exact hagrees
  · rw [hroot, hlog, mem_log_act]
    rcases eq_or_ne u t with rfl | hne
    · rw [hself] at hpc'
      obtain ⟨rfl, rfl, rfl⟩ := MemPc.placing.inj hpc'
      exact .inl ⟨rfl, rfl⟩
    · rw [hother hne] at hpc'
      exact .inr (h.placing u o w b (hlive hne hu) hpc')

/-- **One event** keeps the records in step. -/
theorem Step.coherent (h : Step s e s') (hok : s.Recorded e) (hi : s.Coherent) : s'.Coherent := by
  cases h with
  | spawnUser hfree =>
    refine (hi.rebuild hfree _).push rfl ?_
    exact Agrees.new _
  | object => exact hi.keep_log rfl (fun _ => .refl _) rfl
  | exit =>
    refine hi.keep_log rfl (keeps_modTask ?_) rfl
    exact ⟨rfl, fun h => Bool.noConfusion h, fun _ => id, fun _ _ _ => id⟩
  | moved f ht hf => exact hi.keep_log rfl (keeps_modTask hf.keeps) rfl
  | wrote first descs f ht hf =>
    exact hi.keep_act (r := s.root _) (a := .wrote first descs) trivial rfl
      (keeps_modTask hf.keeps) rfl
  | @granted t c pages next va s₁ f ht hres hf =>
    obtain ⟨-, -, -, rfl⟩ := reserveAnonShared_spec hres
    refine hi.keep_act (r := s.root t) (a := .granted va pages) trivial rfl (fun u => ?_) rfl
    exact (keeps_publish (s.root t) next u).trans
      (keeps_modTask (s := (s.publish (s.root t) next).act (s.root t) (.granted va pages)) hf.keeps u)
  | @copied t c pages ht hpc =>
    refine hi.keep_log rfl (keeps_modTask ?_) rfl
    refine MemTask.keeps_pc (s.task t) (fun placed h => .inl (Option.some.inj h).symm) ?_
    exact fun _ _ _ h => by cases h
  | @pushed t c heapNext placed ht hpc =>
    have hcopy : (s.task t).Has placed := .inr (by rw [hpc]; rfl)
    refine Coherent.keep_log (hi.push rfl (hi.agrees t placed ht hcopy)) rfl (keeps_modTask ?_) rfl
    exact MemTask.keeps_pc _ (fun _ h => by cases h) fun _ _ _ h => by cases h
  | @resolved t c obj what ht hpc hobj =>
    refine hi.keep_log rfl (keeps_modTask ?_) rfl
    exact MemTask.keeps_pc (s.task t) (fun _ h => by cases h) fun _ _ _ h => by cases h
  | answered =>
    refine hi.keep_log rfl (keeps_modTask ?_) rfl
    exact MemTask.keeps_pc _ (fun _ h => by cases h) fun _ _ _ h => by cases h
  | placed ht hpc hfind hplace =>
    have hinformed := hok rfl
    rw [MemTask.Informed, hpc] at hinformed
    exact hi.place ht hpc hfind hplace (hinformed hfind)
  | @mapped t c obj what base ht hpc =>
    have hp := hi.placing t obj what base ht hpc
    refine hi.keep rfl (keeps_modTask (s := s.act (s.root t) (.mapped obj what base)) ?_)
      (fun root => ?_) fun root o w b => ?_
    · exact MemTask.keeps_pc (s.task t) (fun _ h => by cases h) fun _ _ _ h => by cases h
    · show Arranged ((s.act (s.root t) (.mapped obj what base)).log root)
      rcases eq_or_ne root (s.root t) with rfl | hne
      · rw [act_log_self]
        exact (hi.layout _).map hp
      · rw [act_log_of_ne _ hne]
        exact hi.layout root
    · show _ ∈ (s.act (s.root t) (.mapped obj what base)).log root ↔ _
      rw [mem_log_act]
      simp

theorem coherent_of_reach (h : memory.Reach Recorded s) : s.Coherent := by
  refine EventSystem.Reach.invariant (I := Coherent) ?_ ?_ h
  · rintro s rfl
    refine ⟨fun _ => .nil, fun t placed ht => ?_, fun t _ _ _ ht => ?_⟩ <;> cases ht.1
  · exact fun s e s' hi hok hn => (Step.of_next hn).coherent hok hi

/-- **Objects do not overlap, and each stays where it is**, where no thread places an object by
records that lack what the others placed. -/
theorem apart_of_recorded (h : memory.Reach Recorded s) : s.Apart ∧ s.SameAddress := by
  have hi := coherent_of_reach h
  refine ⟨?_, ?_⟩
  · intro root obj what base obj' what' base' hm hm' _ _ hne
    have hl := hi.layout root
    exact hl.apart _ _ _ _ _ _ (hl.mapped _ _ _ hm) (hl.mapped _ _ _ hm') hne
  · intro e s' t obj what va base hn ha hm
    have hlive := ha.live
    have hl := hi.layout (s.root t)
    have hp := hl.mapped _ _ _ hm
    obtain ⟨base', rfl, hanswered⟩ := (Step.of_next hn).answers ha
    have hbase : base' = base := by
      cases hanswered with
      | found hpc hfind =>
        obtain ⟨what', hw, hp'⟩ := (hi.agrees t _ hlive (.inl rfl)).recorded _ _ _
          (Placements.mem_of_find hfind)
        exact (hl.same _ _ _ _ _ hp hp' hw).2
      | mapped hpc => exact (hl.same _ _ _ _ _ hp (hi.placing t _ _ _ hlive hpc) rfl).2
    rw [hbase]

/-- A thread maps a buffer, makes another thread, and that maps a second buffer: past the first. -/
theorem apart_of_recorded_run : ∃ s, memory.Reach Recorded s ∧ s.Apart ∧ s.SameAddress ∧
    .mapped ⟨0, 0⟩ (.buffer 0x7000 (by decide)) userSharedVa ∈ s.log 0x1000 ∧
    .mapped ⟨1, 0⟩ (.buffer 0x8000 (by decide)) (userSharedVa + page4K) ∈ s.log 0x1000 := by
  obtain ⟨s, hs, h⟩ := EventSystem.Reach.exists_of_runIf (M := memory)
    (b := fun s e => decide (s.Recorded e)) (fun _ _ h => of_decide_eq_true h)
    (p := fun s => decide
      (Act.mapped ⟨0, 0⟩ (.buffer 0x7000 (by decide)) userSharedVa ∈ s.log 0x1000 ∧
        Act.mapped ⟨1, 0⟩ (.buffer 0x8000 (by decide)) (userSharedVa + page4K) ∈ s.log 0x1000))
    [.spawnUser ⟨0x1000, 0, 0, userHeapBase⟩ [],
      .mint ⟨0, 0⟩ (.buffer 0x7000 (by decide)), .mint ⟨1, 0⟩ (.buffer 0x8000 (by decide)),
      .call 0 (.mapShared ⟨0, 0⟩), .call 0 .place, .call 0 (.mapObject 1),
      .call 0 (.spawnThread 1), .call 0 .threadReserve, .call 0 (.threadMap [0x5000]),
      .call 0 (.threadPush true),
      .call 1 (.mapShared ⟨1, 0⟩), .call 1 .place, .call 1 (.mapObject 1)] rfl (by decide +kernel)
  obtain ⟨hm, hm'⟩ := of_decide_eq_true h
  obtain ⟨hapart, hsame⟩ := apart_of_recorded hs
  exact ⟨s, hs, hapart, hsame, hm, hm'⟩

/-- Two threads each map a buffer of their own, and the second buffer takes the place of the
first. -/
theorem not_apart : ¬ ∀ s : Memory, memory.Reachable s → s.Apart ∧ s.SameAddress := by
  intro hall
  obtain ⟨s, hs, h⟩ := EventSystem.Reachable.exists_of_run (M := memory)
    (p := fun s => decide
      (Act.mapped ⟨0, 0⟩ (.buffer 0x7000 (by decide)) userSharedVa ∈ s.log 0x1000 ∧
        Act.mapped ⟨1, 0⟩ (.buffer 0x8000 (by decide)) userSharedVa ∈ s.log 0x1000 ∧
        s.object ⟨0, 0⟩ = some (.buffer 0x7000 (by decide)) ∧
        s.object ⟨1, 0⟩ = some (.buffer 0x8000 (by decide))))
    [.spawnUser ⟨0x1000, 0, 0, userHeapBase⟩ [],
      .mint ⟨0, 0⟩ (.buffer 0x7000 (by decide)), .mint ⟨1, 0⟩ (.buffer 0x8000 (by decide)),
      .call 0 (.spawnThread 1), .call 0 .threadReserve, .call 0 (.threadMap [0x5000]),
      .call 0 (.threadPush true),
      .call 0 (.mapShared ⟨0, 0⟩), .call 0 .place, .call 0 (.mapObject 1),
      .call 1 (.mapShared ⟨1, 0⟩), .call 1 .place, .call 1 (.mapObject 1)] rfl (by decide +kernel)
  obtain ⟨hm, hm', hobj, hobj'⟩ := of_decide_eq_true h
  have hdisj := (hall s hs).1 _ _ _ _ _ _ _ hm hm' hobj hobj' (by decide)
  have hin : userSharedVa ∈ Set.Ico userSharedVa (userSharedVa + 1 * page4K) :=
    ⟨Nat.le_refl _, by decide⟩
  exact Set.disjoint_left.mp hdisj hin hin

end Memory

end StarOS
