import StarOS.Lib.Cursor
import StarOS.Memory.Step

/-!
# Anonymous memory of threads

A reservation starts at the highest heap cursor any task in the space has, so it is clear of every
earlier one as long as some task still has a cursor past the end of each. A thread is made with the
cursor of the moment its stack was reserved, and others may have reserved since: when those then
exit and it stays, what they were given is given out again.

## Main definitions

* `Memory.Fresh` — a range is clear of all that was handed out before and is still mapped
* `Memory.CursorKept` — the condition under which every reservation is

## Main results

* `Memory.fresh_of_cursorKept`
* `Memory.not_fresh` — a range handed out twice
-/

namespace StarOS

open Mmu

/-- The addresses an act hands out. -/
def Act.range : Act → Option (ℕ × ℕ)
  | granted first pages => some (first, first + pages * page4K)
  | _ => none

namespace Memory

/-- The ranges handed out in a space since it was built. -/
def given (s : Memory) (root : ℕ) : List (ℕ × ℕ) := (s.log root).filterMap Act.range

/-- Some of these pages are mapped. -/
def StillMapped (s : Memory) (root first pages : ℕ) : Prop :=
  ∃ i < pages, s.tables root (page (first + i * page4K)) ≠ none

/-- A range is clear of every range handed out earlier in the space of which pages are still
mapped. -/
def Fresh (s : Memory) (root first pages : ℕ) : Prop :=
  ∀ first' pages', .granted first' pages' ∈ s.log root → s.StillMapped root first' pages' →
    Disjoint (Set.Ico first' (first' + pages' * page4K)) (Set.Ico first (first + pages * page4K))

instance (s : Memory) (p : TaskId → Prop) [DecidablePred p] : Decidable (∃ u, s.Live u ∧ p u) :=
  decidable_of_iff (∃ u, u < s.ntasks ∧ ((s.task u).alive = true ∧ p u)) <|
    exists_congr fun _ => and_assoc.symm

/-- No thread exits while it alone has a cursor as high as its own, and others remain. -/
def CursorKept (s : Memory) : MemEvent → Prop
  | .call t c => c = .exit → (∃ u, s.Live u ∧ u ≠ t ∧ s.root u = s.root t) →
      ∃ u, s.Live u ∧ u ≠ t ∧ s.root u = s.root t ∧
        (s.task t).space.heapNext ≤ (s.task u).space.heapNext
  | _ => True

instance (s : Memory) : DecidablePred s.CursorKept
  | .call _ _ => inferInstanceAs (Decidable (_ = _ → _ → _))
  | .spawnUser .. | .mint .. | .revoke _ => isTrue trivial

variable {s s' : Memory} {t : TaskId} {e : MemEvent} {root : ℕ}

/-! ### What is handed out -/

theorem mem_given {g : ℕ × ℕ} :
    g ∈ s.given root ↔ ∃ first pages, .granted first pages ∈ s.log root ∧
      g = (first, first + pages * page4K) := by
  rw [given, List.mem_filterMap]
  constructor
  · rintro ⟨a, ha, hg⟩
    cases a with
    | granted first pages => exact ⟨first, pages, ha, (Option.some.inj hg).symm⟩
    | placed | mapped | wrote => cases hg
  · rintro ⟨first, pages, ha, rfl⟩
    exact ⟨_, ha, rfl⟩

theorem given_act_of_none {r : ℕ} {a : Act} (ha : a.range = none) :
    (s.act r a).given root = s.given root := by
  rw [given, given]
  rcases eq_or_ne root r with rfl | hne
  · rw [act_log_self, List.filterMap_cons, ha]
  · rw [act_log_of_ne _ hne]

/-! ### Cursors -/

/-- The cursors of a space are read off what is left alone by moving on in a call. -/
theorem cursors_modTask {f : MemTask → MemTask} (halive : (f (s.task t)).alive = (s.task t).alive)
    (hspace : (f (s.task t)).space = (s.task t).space) :
    (s.modTask t f).cursors root = s.cursors root := by
  refine List.filterMap_congr fun i _ => ?_
  rcases eq_or_ne i t with rfl | hne
  · rw [modTask_self, MemTask.heapNextIn, MemTask.heapNextIn, halive, hspace]
  · rw [modTask_of_ne _ hne]

theorem cursors_push {task : MemTask} :
    (s.push task).cursors root = s.cursors root ++ (task.heapNextIn root).toList := by
  rw [cursors, push_ntasks, List.range_succ, List.filterMap_append]
  congr 1
  · refine List.filterMap_congr fun i hi => ?_
    rw [push_of_ne _ (List.mem_range.mp hi).ne]
  · rw [List.filterMap_cons, push_self]
    cases task.heapNextIn root <;> rfl

theorem heapNext_mem_cursors (ht : s.Live t) : (s.task t).space.heapNext ∈ s.cursors (s.root t) :=
  mem_cursors.mpr ⟨t, ht, rfl, rfl⟩

/-- Every task in the space has the cursor just published. -/
theorem cursors_publish {next c : ℕ} (hc : c ∈ (s.publish root next).cursors root) : c = next := by
  obtain ⟨u, hu, hroot, rfl⟩ := mem_cursors.mp hc
  have hspace := publish_space (s := s) root next u
  rw [publish_task, if_pos ⟨hspace.2.1.symm.trans hu.2, hspace.1.symm.trans hroot⟩]

theorem cursors_publish_of_ne {r next : ℕ} (hne : root ≠ r) :
    (s.publish r next).cursors root = s.cursors root := by
  refine List.filterMap_congr fun u _ => ?_
  rw [publish_task]
  split
  · next h =>
    have hroot : (s.task u).space.root ≠ root := fun hr => hne (hr.symm.trans h.2)
    rw [MemTask.heapNextIn, MemTask.heapNextIn, if_neg fun h => hroot h.2, if_neg fun h => hroot h.2]
  · rfl

/-! ### Runs -/

/-- **One event** keeps some cursor past the end of every range handed out. -/
theorem Step.covered (h : Step s e s') (hok : s.CursorKept e)
    (hi : ∀ root, Cursor.Covered (s.given root) (s.cursors root)) (root : ℕ) :
    Cursor.Covered (s'.given root) (s'.cursors root) := by
  cases h with
  | @spawnUser space image hfree =>
    rcases eq_or_ne root space.root with rfl | hne
    · have hnil : (s.spawnUser space image).given space.root = [] := by
        rw [given, Memory.spawnUser]
        simp
      rw [hnil]
      intro g hg
      cases hg
    · have hgiven : (s.spawnUser space image).given root = s.given root := by
        rw [given, given, Memory.spawnUser]
        simp [hne]
      have hcursors : (s.spawnUser space image).cursors root = s.cursors root := by
        refine cursors_push.trans ?_
        rw [MemTask.heapNextIn, if_neg fun h => hne h.2.symm, Option.toList_none, List.append_nil]
      rw [hgiven, hcursors]
      exact hi root
  | object => exact hi root
  | @exit t ht =>
    refine (hi root).of_le fun hne => ?_
    obtain ⟨c, hc⟩ := List.exists_mem_of_ne_nil _ hne
    -- those that remain had their cursors before
    have hremain : ∀ {u}, (s.exit t).Live u → s.Live u ∧ u ≠ t := by
      intro u hu
      rcases eq_or_ne u t with rfl | hut
      · have hdead : ((s.exit u).task u).alive = false := by rw [Memory.exit, modTask_self]
        rw [hu.2] at hdead
        cases hdead
      · refine ⟨⟨hu.1, ?_⟩, hut⟩
        rw [← hu.2, Memory.exit, modTask_of_ne _ hut]
    have hstay : ∀ {u}, s.Live u → u ≠ t → s.root u = root →
        (s.task u).space.heapNext ∈ (s.exit t).cursors root := by
      intro u hu hut hroot
      have htask : (s.exit t).task u = s.task u := modTask_of_ne _ hut
      refine mem_cursors.mpr ⟨u, ⟨hu.1, ?_⟩, ?_, ?_⟩
      · rw [htask]
        exact hu.2
      · rw [Memory.root, htask]
        exact hroot
      · rw [htask]
    obtain ⟨u, hu, hroot, -⟩ := mem_cursors.mp hc
    obtain ⟨hlive, hut⟩ := hremain hu
    rw [Memory.root, Memory.exit, modTask_of_ne _ hut] at hroot
    refine ⟨List.ne_nil_of_mem (mem_cursors.mpr ⟨u, hlive, hroot, rfl⟩), fun c' hc' => ?_⟩
    obtain ⟨v, hv, hvroot, rfl⟩ := mem_cursors.mp hc'
    by_cases hvt : v = t
    · subst hvt
      obtain ⟨w, hw, hwt, hwroot, hle⟩ := hok rfl ⟨u, hlive, hut, hroot.trans hvroot.symm⟩
      exact ⟨_, hstay hw hwt (hwroot.trans hvroot), hle⟩
    · exact ⟨_, hstay hv hvt hvroot, Nat.le_refl _⟩
  | moved f ht hf =>
    rw [cursors_modTask hf.alive hf.space]
    exact hi root
  | @wrote t c first descs f ht hf =>
    have hcursors : ((s.act (s.root t) (.wrote first descs)).modTask t f).cursors root =
        s.cursors root := cursors_modTask (s := s.act (s.root t) (.wrote first descs)) hf.alive hf.space
    rw [hcursors]
    show Cursor.Covered ((s.act (s.root t) (.wrote first descs)).given root) _
    rw [given_act_of_none rfl]
    exact hi root
  | @granted t c pages next va s₁ f ht hres hf =>
    obtain ⟨hmem, hmax, rfl, rfl⟩ := reserveAnonShared_spec hres
    rw [cursors_modTask hf.alive hf.space]
    show Cursor.Covered (((s.publish (s.root t) (va + pages * page4K)).act (s.root t)
      (.granted va pages)).given root) ((s.publish (s.root t) (va + pages * page4K)).cursors root)
    rcases eq_or_ne root (s.root t) with rfl | hne
    · have hgiven : ((s.publish (s.root t) (va + pages * page4K)).act (s.root t)
          (.granted va pages)).given (s.root t) = (va, va + pages * page4K) :: s.given (s.root t) := by
        rw [given, act_log_self]
        rfl
      rw [hgiven]
      exact (hi _).advance hmem hmax (Nat.le_add_right _ _) fun c hc => cursors_publish hc
    · rw [cursors_publish_of_ne hne, given, act_log_of_ne _ hne]
      exact hi root
  | copied => 
    rw [goto, cursors_modTask rfl rfl]
    exact hi root
  | @pushed t c heapNext placed ht hpc =>
    rw [ret, cursors_modTask rfl rfl, cursors_push]
    refine (hi root).of_le fun hne => ?_
    by_cases hcursors : s.cursors root = []
    · -- the thread is in the space of the task that makes it
      rw [hcursors, List.nil_append] at hne
      by_cases hroot : (s.task t).space.root = root
      · subst hroot
        exact (List.ne_nil_of_mem (heapNext_mem_cursors ht) hcursors).elim
      · rw [MemTask.heapNextIn, if_neg fun h => hroot h.2] at hne
        exact (hne rfl).elim
    · exact ⟨hcursors, fun c hc => ⟨c, List.mem_append_left _ hc, Nat.le_refl _⟩⟩
  | resolved =>
    rw [goto, cursors_modTask rfl rfl]
    exact hi root
  | answered =>
    rw [ret, cursors_modTask rfl rfl]
    exact hi root
  | placed =>
    rw [goto, cursors_modTask rfl rfl, cursors_modTask rfl rfl]
    show Cursor.Covered ((s.act (s.root _) (.placed _ _ _)).given root) _
    rw [given_act_of_none rfl]
    exact hi root
  | mapped =>
    rw [ret, cursors_modTask rfl rfl]
    show Cursor.Covered ((s.act (s.root _) (.mapped _ _ _)).given root) _
    rw [given_act_of_none rfl]
    exact hi root

theorem covered_of_reach (h : memory.Reach CursorKept s) (root : ℕ) :
    Cursor.Covered (s.given root) (s.cursors root) := by
  refine EventSystem.Reach.invariant
    (I := fun s => ∀ root, Cursor.Covered (s.given root) (s.cursors root)) ?_ ?_ h root
  · rintro s rfl root g hg
    cases hg
  · intro s e s' hi hok hn
    exact (Step.of_next hn).covered hok hi

/-- **What a step hands out** starts at the highest cursor of its space. -/
theorem Step.granted_spec {first pages : ℕ} (h : Step s e s')
    (hg : s'.log root = .granted first pages :: s.log root) :
    first ∈ s.cursors root ∧ ∀ c ∈ s.cursors root, c ≤ first := by
  have hself : s'.log root ≠ s.log root := by
    rw [hg]
    exact List.cons_ne_self _ _
  cases h with
  | @spawnUser space image =>
    rcases eq_or_ne root space.root with rfl | hne
    · rw [Memory.spawnUser] at hg
      simp at hg
    · refine (hself ?_).elim
      rw [Memory.spawnUser]
      simp [hne]
  | object | exit | moved | copied | pushed | resolved | answered => exact (hself rfl).elim
  | wrote | placed | mapped => cases (act_log_eq_cons hg).2
  | @granted t c pages next va s₁ f ht hres hf =>
    obtain ⟨hmem, hmax, rfl, rfl⟩ := reserveAnonShared_spec hres
    obtain ⟨rfl, hact⟩ := act_log_eq_cons hg
    obtain ⟨rfl, rfl⟩ := Act.granted.inj hact
    exact ⟨hmem, hmax⟩

/-- **No range is handed out twice while it is in use**, where no thread takes the highest cursor
of its space with it: what `MapAnon` or the stack of a thread is given is clear of everything given
out before in that space and still mapped. -/
theorem fresh_of_cursorKept {first pages : ℕ} (hs : memory.Reach CursorKept s)
    (hn : memory.next s e = some s') (hg : s'.log root = .granted first pages :: s.log root) :
    s.Fresh root first pages := by
  intro first' pages' hg' _
  obtain ⟨hmem, hmax⟩ := (Step.of_next hn).granted_spec hg
  exact (covered_of_reach hs root).disjoint hmem hmax (mem_given.mpr ⟨_, _, hg', rfl⟩)

/-- Two threads, of which the first exits: the range the second is given starts past what the first
was given. -/
theorem fresh_of_cursorKept_run : ∃ s s', memory.Reach CursorKept s ∧
    memory.next s (.call 1 (.mapAnon 1)) = some s' ∧
    .granted 0x100001000 1 ∈ s.log 0x1000 ∧ s.StillMapped 0x1000 0x100001000 1 ∧
    s.Fresh 0x1000 0x100002000 1 := by
  obtain ⟨s, s', hs, hn, hg, hlog, hmapped⟩ : ∃ s s',
      memory.runIf (fun s e => decide (s.CursorKept e)) .new
        [.spawnUser ⟨0x1000, 0, 0, userHeapBase⟩ [], .call 0 (.spawnThread 1), .call 0 .threadReserve,
          .call 0 (.threadMap [0x5000]), .call 0 (.threadPush true), .call 0 (.mapAnon 1),
          .call 0 (.anonChunk [0x6000]), .call 0 .exit] = some s ∧
      memory.next s (.call 1 (.mapAnon 1)) = some s' ∧
      s'.log 0x1000 = .granted 0x100002000 1 :: s.log 0x1000 ∧
      s.log 0x1000 = [.wrote 0x100001 [freshPage 0x6000], .granted 0x100001000 1,
        .wrote 0x100000 [freshPage 0x5000], .granted 0x100000000 1] ∧
      s.tables 0x1000 0x100001 = freshPage 0x6000 :=
    ⟨_, _, rfl, rfl, rfl, rfl, rfl⟩
  have hreach : memory.Reach CursorKept s :=
    EventSystem.Reach.of_runIf (fun _ _ _ h => of_decide_eq_true h) (.init rfl) hs
  refine ⟨s, s', hreach, hn, by rw [hlog]; simp, ⟨0, Nat.one_pos, ?_⟩,
    fresh_of_cursorKept hreach hn hg⟩
  show s.tables 0x1000 0x100001 ≠ none
  rw [hmapped]
  exact Option.some_ne_none _

/-- A range is handed out twice: a thread makes another, the first thread is given more memory
before the new one enters the table, and then both exit. -/
theorem not_fresh : ¬ ∀ (s s' : Memory) (e : MemEvent) (root first pages : ℕ), memory.Reachable s →
    memory.next s e = some s' → s'.log root = .granted first pages :: s.log root →
    s.Fresh root first pages := by
  intro h
  obtain ⟨s, s', hs, hn, hg, hlog, hmapped⟩ : ∃ s s',
      memory.run .new
        [.spawnUser ⟨0x1000, 0, 0, userHeapBase⟩ [], .call 0 (.spawnThread 1), .call 0 .threadReserve,
          .call 0 (.threadMap [0x5000]), .call 0 (.threadPush true),
          .call 1 (.spawnThread 1), .call 1 .threadReserve,
          .call 0 (.mapAnon 1), .call 0 (.anonChunk [0x7000]),
          .call 1 (.threadMap [0x6000]), .call 1 (.threadPush true),
          .call 0 .exit, .call 1 .exit] = some s ∧
      memory.next s (.call 2 (.mapAnon 1)) = some s' ∧
      s'.log 0x1000 = .granted 0x100002000 1 :: s.log 0x1000 ∧
      s.log 0x1000 = [.wrote 0x100001 [freshPage 0x6000], .wrote 0x100002 [freshPage 0x7000],
        .granted 0x100002000 1, .granted 0x100001000 1, .wrote 0x100000 [freshPage 0x5000],
        .granted 0x100000000 1] ∧
      s.tables 0x1000 0x100002 = freshPage 0x7000 :=
    ⟨_, _, rfl, rfl, rfl, rfl, rfl⟩
  have hmem : .granted 0x100002000 1 ∈ s.log 0x1000 := by
    rw [hlog]
    simp
  have hstill : s.StillMapped 0x1000 0x100002000 1 := by
    refine ⟨0, Nat.one_pos, ?_⟩
    show s.tables 0x1000 0x100002 ≠ none
    rw [hmapped]
    exact Option.some_ne_none _
  have hdisj := h s s' _ _ _ _ (.of_run _ rfl hs) hn hg _ _ hmem hstill
  have hin : 0x100002000 ∈ Set.Ico 0x100002000 (0x100002000 + 1 * page4K) :=
    ⟨Nat.le_refl _, by decide⟩
  exact Set.disjoint_left.mp hdisj hin hin

end Memory

end StarOS
