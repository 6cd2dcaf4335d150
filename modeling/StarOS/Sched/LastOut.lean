import StarOS.Sched.Teardown

/-!
# The last thread out

Whoever exits as the last of an address space is in charge of destroying it, and nobody can come to
live in it again: that much holds in every run. What else it takes is that no core still translates
through it. A core does so only until it has set its own root, and the thread in charge sets its
own first, so it is the threads that exited before that matter: one whose core has marked it dead
and not yet left is not counted among the living.

## Main definitions

* `Teardown.Owned`, `Teardown.Follows` — who is in a space, and which root a core has
* `Teardown.Settled` — of a space that goes, no core has the root

## Main results

* `torn_down_of_leftAlone`
-/

namespace StarOS

namespace Teardown

/-! ### Who is in a space -/

variable {s s' : Teardown} {c : CpuId} {t : TaskId} {id : ℕ}

/-- Roots tell the spaces apart that are not destroyed; a live task's space is one of them; and of
a space all of whose tasks have exited, one core is in charge. -/
structure Owned (s : Teardown) : Prop where
  roots : ∀ i < s.nspaces, ∀ j < s.nspaces, (s.space i).destroyed = 0 →
    (s.space j).destroyed = 0 → (s.space i).root = (s.space j).root → i = j
  base : ∀ i < s.nspaces, (s.space i).root ≠ baseTtbr0
  home : ∀ t < s.sched.ntasks, s.home t < s.nspaces ∧ (s.space (s.home t)).spawned = true ∧
    s.ttbr0 t = (s.space (s.home t)).root
  handle : ∀ t id, s.handle t = some id ↔ s.sched.Alive t ∧ s.home t = id
  live : ∀ t, s.sched.Alive t → (s.space (s.home t)).destroyed = 0
  doomed : ∀ c id, s.doomed c = some id → id < s.nspaces ∧ (s.space id).spawned = true ∧
    (s.space id).destroyed = 0 ∧ s.Ended id
  alone : ∀ c c' id, s.doomed c = some id → s.doomed c' = some id → c = c'
  ended : ∀ id < s.nspaces, (s.space id).spawned = true → s.Ended id →
    (s.space id).destroyed = 1 ∨ ∃ c, s.doomed c = some id

/-- A task that names the root of a space not destroyed lives in it. -/
theorem Owned.home_of_root (h : s.Owned) (hsane : s.sched.Sane) (ht : s.sched.Alive t)
    (hid : id < s.nspaces) (hd : (s.space id).destroyed = 0)
    (hroot : s.ttbr0 t = (s.space id).root) : s.home t = id := by
  obtain ⟨hlt, -, hroot'⟩ := h.home t (hsane.2 t ht)
  exact h.roots _ hlt _ hid (h.live t ht) hd (hroot'.symm.trans hroot)

/-- The test of `exit` finds the other threads. -/
theorem Owned.shared_iff (h : s.Owned) (hsane : s.sched.Sane) (ht : s.sched.Alive t) :
    s.shared t = true ↔ ∃ u, u ≠ t ∧ s.sched.Alive u ∧ s.home u = s.home t := by
  obtain ⟨hlt, -, hroot⟩ := h.home t (hsane.2 t ht)
  simp only [shared, List.any_eq_true, List.mem_range, Bool.and_eq_true, bne_iff_ne, beq_iff_eq]
  constructor
  · rintro ⟨u, -, ⟨hne, hu⟩, heq⟩
    exact ⟨u, hne, hu, h.home_of_root hsane hu hlt (h.live t ht) (heq.trans hroot)⟩
  · rintro ⟨u, hne, hu, heq⟩
    have hu' := hsane.2 u hu
    refine ⟨u, hu', ⟨hne, hu⟩, ?_⟩
    rw [(h.home u hu').2.2, heq, hroot]

theorem owned_new : new.Owned where
  roots := nofun
  base := nofun
  home := nofun
  handle _ _ := iff_of_false nofun fun h => h.1 rfl
  live _ h := absurd rfl h
  doomed := nofun
  alone := nofun
  ended := nofun

/-- What cores do is nothing to it, as long as the same tasks are alive. -/
theorem Owned.congr (h : s.Owned) {sched : Scheduler} (hsame : Scheduler.SameLives s.sched sched)
    (active : CpuId → ℕ) (rooted : CpuId → Bool) : { s with sched, active, rooted }.Owned where
  roots := h.roots
  base := h.base
  home t ht := h.home t (hsame.ntasks ▸ ht)
  handle t id := (h.handle t id).trans (and_congr_left fun _ => (hsame.alive t).symm)
  live t ht := h.live t ((hsame.alive t).mp ht)
  doomed c id hc := by
    obtain ⟨hlt, hsp, hd, hend⟩ := h.doomed c id hc
    exact ⟨hlt, hsp, hd, fun t ht heq ha => hend t (hsame.ntasks ▸ ht) heq ((hsame.alive t).mp ha)⟩
  alone := h.alone
  ended id hid hsp hend := h.ended id hid hsp fun t ht heq ha =>
    hend t (hsame.ntasks.symm ▸ ht) heq ((hsame.alive t).mpr ha)

/-- A space is built on a root no other has. -/
theorem Owned.build (h : s.Owned) (hsane : s.sched.Sane) {root : ℕ} (hbase : root ≠ baseTtbr0)
    (hfree : ∀ i < s.nspaces, (s.space i).destroyed = 0 → (s.space i).root ≠ root) :
    { s with
      nspaces := s.nspaces + 1
      space := Function.update s.space s.nspaces ⟨root, false, 0⟩ }.Owned := by
  have hold : ∀ i < s.nspaces, Function.update s.space s.nspaces ⟨root, false, 0⟩ i = s.space i :=
    fun i hi => Function.update_of_ne hi.ne ..
  refine ⟨fun i hi j hj => ?_, fun i hi => ?_, fun t ht => ?_, h.handle, fun t ht => ?_,
    fun c id hc => ?_, h.alone, fun id hid hsp hend => ?_⟩
  · dsimp only at hi hj ⊢
    obtain hi | rfl := Nat.lt_succ_iff_lt_or_eq.mp hi <;>
      obtain hj | rfl := Nat.lt_succ_iff_lt_or_eq.mp hj
    · rw [hold i hi, hold j hj]
      exact h.roots i hi j hj
    · rw [hold i hi, Function.update_self]
      exact fun hd _ heq => absurd heq (hfree i hi hd)
    · rw [hold j hj, Function.update_self]
      exact fun _ hd heq => absurd heq.symm (hfree j hj hd)
    · exact fun _ _ _ => rfl
  · dsimp only at hi ⊢
    obtain hi | rfl := Nat.lt_succ_iff_lt_or_eq.mp hi
    · rw [hold i hi]
      exact h.base i hi
    · rwa [Function.update_self]
  · obtain ⟨hlt, hsp, hroot⟩ := h.home t ht
    dsimp only
    rw [hold _ hlt]
    exact ⟨Nat.lt_succ_of_lt hlt, hsp, hroot⟩
  · dsimp only
    rw [hold _ (h.home t (hsane.2 t ht)).1]
    exact h.live t ht
  · obtain ⟨hlt, hsp, hd, hend⟩ := h.doomed c id hc
    dsimp only
    rw [hold id hlt]
    exact ⟨Nat.lt_succ_of_lt hlt, hsp, hd, hend⟩
  · dsimp only at hid hsp ⊢
    obtain hid | rfl := Nat.lt_succ_iff_lt_or_eq.mp hid
    · rw [hold id hid] at hsp ⊢
      exact h.ended id hid hsp hend
    · rw [Function.update_self] at hsp
      cases hsp

/-- A task is spawned in a space no core is about to destroy. -/
theorem Owned.push (h : s.Owned) (hid : id < s.nspaces) (hd : (s.space id).destroyed = 0)
    (hno : ∀ c, s.doomed c ≠ some id) (ctx : Context) : (s.push id ctx).Owned := by
  have hspace : ∀ i, ((s.push id ctx).space i).root = (s.space i).root ∧
      ((s.push id ctx).space i).destroyed = (s.space i).destroyed ∧
      (((s.push id ctx).space i).spawned = true ↔ (s.space i).spawned = true ∨ i = id) := by
    intro i
    rcases eq_or_ne i id with rfl | hne
    · simp [Teardown.push]
    · simp [Teardown.push, hne]
  have hnew : (s.push id ctx).home s.sched.ntasks = id ∧
      (s.push id ctx).ttbr0 s.sched.ntasks = (s.space id).root ∧
      (s.push id ctx).handle s.sched.ntasks = some id := by simp [Teardown.push]
  have hold : ∀ t, t ≠ s.sched.ntasks → (s.push id ctx).home t = s.home t ∧
      (s.push id ctx).ttbr0 t = s.ttbr0 t ∧ (s.push id ctx).handle t = s.handle t := by
    intro t hne
    simp [Teardown.push, hne]
  have halive : ∀ t, (s.push id ctx).sched.Alive t ↔ s.sched.Alive t ∨ t = s.sched.ntasks :=
    fun t => Scheduler.alive_spawn
  have hended : ∀ i, (s.push id ctx).Ended i → i ≠ id ∧ s.Ended i := by
    intro i hend
    refine ⟨?_, fun t ht heq ha => ?_⟩
    · rintro rfl
      exact hend _ (Nat.lt_succ_self _) hnew.1 ((halive _).mpr (.inr rfl))
    · refine hend t (Nat.lt_succ_of_lt ht) ?_ ((halive t).mpr (.inl ha))
      rw [(hold t ht.ne).1, heq]
  refine ⟨fun i hi j hj => ?_, fun i hi => ?_, fun t ht => ?_, fun t i => ?_, fun t ht => ?_,
    fun c i hc => ?_, h.alone, fun i hi hsp hend => ?_⟩
  · rw [(hspace i).1, (hspace j).1, (hspace i).2.1, (hspace j).2.1]
    exact h.roots i hi j hj
  · rw [(hspace i).1]
    exact h.base i hi
  · obtain ht | rfl := Nat.lt_succ_iff_lt_or_eq.mp ht
    · obtain ⟨hlt, hsp, hroot⟩ := h.home t ht
      obtain ⟨hhome, httbr0, -⟩ := hold t ht.ne
      rw [hhome, httbr0, (hspace _).1]
      exact ⟨hlt, (hspace _).2.2.mpr (.inl hsp), hroot⟩
    · rw [hnew.1, hnew.2.1, (hspace _).1]
      exact ⟨hid, (hspace _).2.2.mpr (.inr rfl), rfl⟩
  · rw [halive t]
    by_cases heq : t = s.sched.ntasks
    · subst heq
      rw [hnew.1, hnew.2.2]
      simp
    · obtain ⟨hhome, -, hhandle⟩ := hold t heq
      rw [hhome, hhandle, h.handle t i]
      simp [heq]
  · rw [(hspace _).2.1]
    by_cases heq : t = s.sched.ntasks
    · subst heq
      rw [hnew.1]
      exact hd
    · rw [(hold t heq).1]
      exact h.live t (((halive t).mp ht).resolve_right heq)
  · obtain ⟨hlt, hsp, hd', hend⟩ := h.doomed c i hc
    have hne : i ≠ id := by
      rintro rfl
      exact hno c hc
    refine ⟨hlt, (hspace i).2.2.mpr (.inl hsp), (hspace i).2.1.trans hd', fun t ht heq ha => ?_⟩
    obtain ht | rfl := Nat.lt_succ_iff_lt_or_eq.mp ht
    · rw [(hold t ht.ne).1] at heq
      exact hend t ht heq (((halive t).mp ha).resolve_right ht.ne)
    · exact hne (heq.symm.trans hnew.1)
  · obtain ⟨hne, hend'⟩ := hended i hend
    rw [(hspace i).2.1]
    exact h.ended i hi (((hspace i).2.2.mp hsp).resolve_right hne) hend'

/-- The last thread out leaves its core in charge of the space; any other leaves it to the
rest. -/
theorem Owned.exit (h : s.Owned) (hsane : s.sched.Sane) (ht : s.sched.Alive t)
    (hnone : s.doomed c = none) : (s.exit c t).Owned := by
  have hlt := hsane.2 t ht
  have hntasks : (s.exit c t).sched.ntasks = s.sched.ntasks := Scheduler.ntasks_exit
  have halive : ∀ u, (s.exit c t).sched.Alive u ↔ s.sched.Alive u ∧ u ≠ t :=
    fun u => Scheduler.alive_exit
  have hhandle : s.handle t = some (s.home t) := (h.handle t _).mpr ⟨ht, rfl⟩
  have hself : (s.exit c t).doomed c = if s.shared t then none else some (s.home t) := by
    simp [Teardown.exit, hhandle]
  have hother : ∀ c', c' ≠ c → (s.exit c t).doomed c' = s.doomed c' := by
    intro c' hne
    simp [Teardown.exit, hne]
  have hendedOf : ∀ i, s.Ended i → (s.exit c t).Ended i :=
    fun i hend u hu heq ha => hend u (hntasks ▸ hu) heq ((halive u).mp ha).1
  -- what this core destroys is the space of the task that exits, the last alive in it
  have hnew : ∀ i, (s.exit c t).doomed c = some i → s.home t = i ∧ s.shared t = false := by
    intro i hi
    rw [hself] at hi
    split at hi
    · cases hi
    · next hsh => exact ⟨Option.some.inj hi, by simpa using hsh⟩
  have hlast : s.shared t = false → (s.exit c t).Ended (s.home t) := by
    intro hsh u hu heq ha
    obtain ⟨hu', hne⟩ := (halive u).mp ha
    exact absurd ((h.shared_iff hsane ht).mpr ⟨u, hne, hu', heq⟩) (by simp [hsh])
  have hdoomed : ∀ c' i, (s.exit c t).doomed c' = some i →
      c' = c ∧ s.home t = i ∧ s.shared t = false ∨ c' ≠ c ∧ s.doomed c' = some i := by
    intro c' i hi
    by_cases hc : c' = c
    · subst hc
      exact .inl ⟨rfl, hnew i hi⟩
    · exact .inr ⟨hc, hother c' hc ▸ hi⟩
  have hnot : ∀ c', s.doomed c' ≠ some (s.home t) :=
    fun c' hc => (h.doomed c' _ hc).2.2.2 t hlt rfl ht
  refine ⟨h.roots, h.base, fun u hu => h.home u (hntasks ▸ hu), fun u i => ?_,
    fun u hu => h.live u ((halive u).mp hu).1, fun c' i hi => ?_, fun c₁ c₂ i h₁ h₂ => ?_,
    fun i hi hsp hend => ?_⟩
  · rw [halive u]
    by_cases heq : u = t
    · subst heq
      simp [Teardown.exit]
    · simpa [Teardown.exit, heq] using h.handle u i
  · obtain ⟨-, rfl, hsh⟩ | ⟨-, hc⟩ := hdoomed c' i hi
    · exact ⟨(h.home t hlt).1, (h.home t hlt).2.1, h.live t ht, hlast hsh⟩
    · obtain ⟨hi, hsp, hd, hend⟩ := h.doomed c' i hc
      exact ⟨hi, hsp, hd, hendedOf i hend⟩
  · obtain ⟨rfl, rfl, -⟩ | ⟨-, hc₁⟩ := hdoomed c₁ i h₁ <;>
      obtain ⟨rfl, heq, -⟩ | ⟨-, hc₂⟩ := hdoomed c₂ _ h₂
    · rfl
    · exact absurd hc₂ (hnot c₂)
    · exact absurd (heq ▸ hc₁) (hnot c₁)
    · exact h.alone c₁ c₂ i hc₁ hc₂
  · by_cases heq : s.home t = i
    · subst heq
      refine .inr ⟨c, ?_⟩
      rw [hself, if_neg]
      intro hsh
      obtain ⟨u, hne, hu, heq⟩ := (h.shared_iff hsane ht).mp hsh
      exact hend u (hntasks.symm ▸ hsane.2 u hu) heq ((halive u).mpr ⟨hu, hne⟩)
    · have hend' : s.Ended i := by
        intro u hu heq' ha
        refine hend u (hntasks.symm ▸ hu) heq' ((halive u).mpr ⟨ha, ?_⟩)
        rintro rfl
        exact heq heq'
      refine (h.ended i hi hsp hend').imp (fun h => h) fun ⟨c', hc'⟩ => ⟨c', ?_⟩
      rw [hother, hc']
      rintro rfl
      exact absurd (hnone.symm.trans hc') (by simp)

/-- A space nobody lives in is destroyed, and whoever was in charge of it no longer is. -/
theorem Owned.destroySpace (h : s.Owned) (hd : (s.space id).destroyed = 0)
    (hno : ∀ t, s.sched.Alive t → s.home t ≠ id) {doomed : CpuId → Option ℕ}
    (hdoomed : ∀ c i, doomed c = some i ↔ s.doomed c = some i ∧ i ≠ id) :
    { s.destroySpace id with doomed }.Owned := by
  have hspace : ∀ i, ((s.destroySpace id).space i).root = (s.space i).root ∧
      ((s.destroySpace id).space i).spawned = (s.space i).spawned ∧
      ((s.destroySpace id).space i).destroyed =
        if i = id then 1 else (s.space i).destroyed := by
    intro i
    rcases eq_or_ne i id with rfl | hne
    · simp [Teardown.destroySpace, hd]
    · simp [Teardown.destroySpace, hne]
  have hzero : ∀ i, ((s.destroySpace id).space i).destroyed = 0 → (s.space i).destroyed = 0 := by
    intro i hi
    rw [(hspace i).2.2] at hi
    split at hi
    · cases hi
    · exact hi
  refine ⟨fun i hi j hj hdi hdj => ?_, fun i hi => ?_, fun t ht => ?_, h.handle, fun t ht => ?_,
    fun c i hc => ?_, fun c c' i hc hc' => ?_, fun i hi hsp hend => ?_⟩
  · dsimp only at hdi hdj ⊢
    rw [(hspace i).1, (hspace j).1]
    exact h.roots i hi j hj (hzero i hdi) (hzero j hdj)
  · dsimp only
    rw [(hspace i).1]
    exact h.base i hi
  · dsimp only
    rw [(hspace _).1, (hspace _).2.1]
    exact h.home t ht
  · dsimp only
    rw [(hspace _).2.2]
    show (if s.home t = id then 1 else _) = 0
    rw [if_neg (hno t ht)]
    exact h.live t ht
  · obtain ⟨hc, hne⟩ := (hdoomed c i).mp hc
    obtain ⟨hi, hsp, hd', hend⟩ := h.doomed c i hc
    dsimp only
    rw [(hspace i).2.1, (hspace i).2.2, if_neg hne]
    exact ⟨hi, hsp, hd', hend⟩
  · exact h.alone c c' i ((hdoomed c i).mp hc).1 ((hdoomed c' i).mp hc').1
  · dsimp only at hsp ⊢
    rw [(hspace i).2.1] at hsp
    rw [(hspace i).2.2]
    split
    · exact .inl rfl
    · next hne =>
      exact (h.ended i hi hsp hend).imp (fun h => h) fun ⟨c, hc⟩ => ⟨c, (hdoomed c i).mpr ⟨hc, hne⟩⟩

/-! ### Which root a core has -/

/-- The task whose space core `c` translates through: until it has set its root, the one it
leaves. -/
def expected (s : Teardown) (c : CpuId) : Option TaskId :=
  match (s.sched.core c).phase with
  | .switching out _ => if s.rooted c then (s.sched.core c).current else out
  | .running | .arrived => (s.sched.core c).current

/-- A core's root is that of the task it runs, or has yet to leave; and only in the middle of a
switch is there anything left of an exit. -/
structure Follows (s : Teardown) : Prop where
  switching : ∀ c, s.doomed c ≠ none ∨ s.rooted c = true →
    ∃ out into, (s.sched.core c).phase = .switching out into
  active : ∀ c, s.active c = (s.expected c).elim baseTtbr0 s.ttbr0

theorem Follows.of_running (h : s.Follows) (hp : (s.sched.core c).phase = .running) :
    s.doomed c = none ∧ s.rooted c = false := by
  have hnot : ¬ (s.doomed c ≠ none ∨ s.rooted c = true) := by
    intro hd
    obtain ⟨out, into, hsw⟩ := h.switching c hd
    rw [hp] at hsw
    cases hsw
  simpa using hnot

/-- What a core translates through was spawned. -/
theorem expected_lt (hr : scheduling.Reachable s.sched) (h : s.expected c = some t) :
    t < s.sched.ntasks := by
  obtain ⟨hsound, hbounded⟩ := Scheduler.sound_of_reachable hr
  have hcurrent : (s.sched.core c).current = some t → (s.sched.task t).onCpu = true :=
    fun hc => hsound.busy_iff.mpr (.inl ⟨c, hc⟩)
  have hbusy : (s.sched.task t).onCpu = true := by
    rw [expected] at h
    split at h
    · next out into hp =>
      split at h
      · exact hcurrent h
      · exact hsound.busy_iff.mpr (.inr ⟨c, (hsound.switching c out into hp).1.trans h⟩)
    · exact hcurrent h
    · exact hcurrent h
  by_contra hle
  rw [hbounded t (Nat.not_lt.mp hle)] at hbusy
  cases hbusy

theorem follows_new : new.Follows where
  switching _ h := h.elim (absurd rfl) nofun
  active _ := rfl

/-- What the scheduler does keeps it so, a switch having set the root first and destroyed what was
to be destroyed. -/
theorem Follows.turn (h : s.Follows) (hr : scheduling.Reachable s.sched) {e : SchedEvent}
    (hturn : ∀ c, Scheduler.Turn s.sched e s'.sched c)
    (hswitch : ∀ c, e = .switch c → s.rooted c = true ∧ s.doomed c = none)
    (hactive : s'.active = s.active)
    (hrooted : ∀ c, s'.rooted c = if e = .switch c then false else s.rooted c)
    (hdoomed : ∀ c, s'.doomed c = s.doomed c ∨ Scheduler.Left s.sched c s'.sched)
    (httbr0 : ∀ t < s.sched.ntasks, s'.ttbr0 t = s.ttbr0 t) : s'.Follows := by
  -- it is enough that a core that does nothing else goes on translating through the same space
  have hkeep : ∀ c, s'.expected c = s.expected c →
      s'.active c = (s'.expected c).elim baseTtbr0 s'.ttbr0 := by
    intro c heq
    rw [hactive, h.active c, heq]
    cases hx : s.expected c with
    | none => rfl
    | some t => exact (httbr0 t (expected_lt hr hx)).symm
  refine ⟨fun c hd => ?_, fun c => hkeep c ?_⟩
  · obtain hdc | hl := hdoomed c
    · have hro : s'.rooted c = true → s.rooted c = true := by
        rw [hrooted]
        split
        · exact nofun
        · exact fun h => h
      obtain ⟨out, into, hp⟩ := h.switching c (hd.imp (fun hd => hdc ▸ hd) hro)
      cases hturn c with
      | stay _ hp' _ => exact ⟨out, into, hp'.trans hp⟩
      | left _ hl => exact ⟨_, hl.phase.2⟩
      | switch he =>
        obtain ⟨-, hnone⟩ := hswitch c he
        rw [hrooted, if_pos he, hdc, hnone] at hd
        exact hd.elim (absurd rfl) nofun
      | settle _ hp' => cases hp.symm.trans hp'
    · exact ⟨_, hl.phase.2⟩
  · cases hturn c with
    | stay hne hp hc => rw [expected, expected, hp, hc, hrooted, if_neg hne]
    | left hne hl =>
      -- the root is still that of what the core leaves
      obtain ⟨hp, into, hp'⟩ := hl.phase
      simp [expected, hp, hp', hrooted, hne, (h.of_running hp).2]
    | switch he hp hp' hc => simp [expected, hp, hp', hc, (hswitch c he).1]
    | settle _ hp hp' hc => simp [expected, hp, hp', hc]

/-! ### Nobody translates through a space that goes -/

/-- Of the cores, at most the one in charge of a space all of whose tasks have exited still has its
root, and it has yet to set its own; and no core has the root of a space that is gone. -/
structure Settled (s : Teardown) : Prop where
  gone : ∀ c id, s.doomed c = some id → ∀ c', s.active c' = (s.space id).root →
    c' = c ∧ s.rooted c = false
  held : ∀ c, s.active c ≠ baseTtbr0 → ∃ id < s.nspaces, (s.space id).spawned = true ∧
    (s.space id).destroyed = 0 ∧ s.active c = (s.space id).root

/-- What the scheduler does changes no root, nor who is in charge of which space. -/
theorem Settled.congr (h : s.Settled) (sched : Scheduler) {rooted : CpuId → Bool}
    (hrooted : ∀ c, rooted c = true → s.rooted c = true) : { s with sched, rooted }.Settled where
  gone c id hc c' ha := by
    obtain ⟨heq, hr⟩ := h.gone c id hc c' ha
    refine ⟨heq, ?_⟩
    by_contra hne
    rw [Bool.not_eq_false] at hne
    exact absurd (hr.symm.trans (hrooted c hne)) (by simp)
  held := h.held

theorem Settled.build (h : s.Settled) (ho : s.Owned) (root : ℕ) :
    { s with
      nspaces := s.nspaces + 1
      space := Function.update s.space s.nspaces ⟨root, false, 0⟩ }.Settled where
  gone c id hc c' ha := by
    dsimp only at ha
    rw [Function.update_of_ne (ho.doomed c id hc).1.ne] at ha
    exact h.gone c id hc c' ha
  held c hc := by
    obtain ⟨id, hid, hx⟩ := h.held c hc
    refine ⟨id, Nat.lt_succ_of_lt hid, ?_⟩
    dsimp only
    rwa [Function.update_of_ne hid.ne]

theorem Settled.push (h : s.Settled) (id : ℕ) (ctx : Context) : (s.push id ctx).Settled := by
  have hspace : ∀ i, ((s.push id ctx).space i).root = (s.space i).root ∧
      ((s.push id ctx).space i).destroyed = (s.space i).destroyed ∧
      ((s.space i).spawned = true → ((s.push id ctx).space i).spawned = true) := by
    intro i
    rcases eq_or_ne i id with rfl | hne
    · simp [Teardown.push]
    · simp [Teardown.push, hne]
  refine ⟨fun c i hc c' ha => h.gone c i hc c' ((hspace i).1 ▸ ha), fun c hc => ?_⟩
  obtain ⟨i, hi, hsp, hd, ha⟩ := h.held c hc
  exact ⟨i, hi, (hspace i).2.2 hsp, (hspace i).2.1.trans hd, ha.trans (hspace i).1.symm⟩

theorem Settled.exit (h : s.Settled) (ho : s.Owned) (hsane : s.sched.Sane)
    (ht : s.sched.Alive t) (hrooted : s.rooted c = false)
    (halone : s.shared t = false → ∀ c', c' ≠ c → s.active c' ≠ s.ttbr0 t) :
    (s.exit c t).Settled where
  gone c₁ id hc c' ha := by
    rcases eq_or_ne c₁ c with rfl | hne
    · have hdoomed : (if s.shared t then none else s.handle t) = some id := by
        simpa [Teardown.exit] using hc
      split at hdoomed
      · cases hdoomed
      · next hsh =>
        have hhome := ((ho.handle t id).mp hdoomed).2
        have hroot := (ho.home t (hsane.2 t ht)).2.2
        refine ⟨?_, hrooted⟩
        by_contra hne
        refine halone (by simpa using hsh) c' hne ?_
        rw [hroot, hhome]
        exact ha
    · have hc' : s.doomed c₁ = some id := by simpa [Teardown.exit, hne] using hc
      exact h.gone c₁ id hc' c' ha
  held := h.held

/-- A core sets its root to that of a live task, or to none. -/
theorem Settled.root (h : s.Settled) (ho : s.Owned) (hsane : s.sched.Sane) {into : Option TaskId}
    (hinto : ∀ t, into = some t → s.sched.Alive t) :
    { s with
      active := Function.update s.active c (into.elim baseTtbr0 s.ttbr0)
      rooted := Function.update s.rooted c true }.Settled where
  gone c₁ id hc c' ha := by
    obtain ⟨hid, -, hd, hend⟩ := ho.doomed c₁ id hc
    rcases eq_or_ne c' c with rfl | hne
    · -- the new root is not that of a space nobody lives in
      dsimp only at ha
      rw [Function.update_self] at ha
      cases into with
      | none => exact absurd ha.symm (ho.base id hid)
      | some t =>
        have halive := hinto t rfl
        exact absurd halive
          (hend t (hsane.2 t halive) (ho.home_of_root hsane halive hid hd ha))
    · dsimp only at ha ⊢
      rw [Function.update_of_ne hne] at ha
      obtain ⟨rfl, hr⟩ := h.gone c₁ id hc c' ha
      exact ⟨rfl, by rwa [Function.update_of_ne hne]⟩
  held c' hc := by
    dsimp only at hc ⊢
    rcases eq_or_ne c' c with rfl | hne
    · rw [Function.update_self] at hc ⊢
      cases into with
      | none => exact absurd rfl hc
      | some t =>
        have halive := hinto t rfl
        obtain ⟨hid, hsp, hroot⟩ := ho.home t (hsane.2 t halive)
        exact ⟨s.home t, hid, hsp, ho.live t halive, hroot⟩
    · rw [Function.update_of_ne hne] at hc ⊢
      exact h.held c' hc

/-- A space is destroyed that no core translates through. -/
theorem Settled.destroySpace (h : s.Settled) (hno : ∀ c, s.active c ≠ (s.space id).root)
    {doomed : CpuId → Option ℕ}
    (hdoomed : ∀ c i, doomed c = some i → s.doomed c = some i ∧ i ≠ id) :
    { s.destroySpace id with doomed }.Settled where
  gone c i hc c' ha := by
    obtain ⟨hc, hne⟩ := hdoomed c i hc
    simp only [Teardown.destroySpace, Function.update_of_ne hne] at ha
    exact h.gone c i hc c' ha
  held c hc := by
    obtain ⟨i, hi, hsp, hd, ha⟩ := h.held c hc
    have hne : i ≠ id := by
      rintro rfl
      exact hno c ha
    refine ⟨i, hi, ?_⟩
    simp only [Teardown.destroySpace, Function.update_of_ne hne]
    exact ⟨hsp, hd, ha⟩

/-! ### What is destroyed is clear -/

theorem Settled.clear_unspawned (h : s.Settled) (ho : s.Owned) (hsane : s.sched.Sane)
    (hid : s.unspawned id = true) : s.Clear id := by
  obtain ⟨hlt, hsp, hd⟩ := unspawned_eq_true hid
  have hne : ∀ i, (s.space i).spawned = true → i ≠ id := by
    rintro i hi rfl
    exact absurd (hsp.symm.trans hi) (by simp)
  refine ⟨fun c ha => ?_, fun t ht hroot => ?_, fun t hh => ?_⟩
  · have hbase : s.active c ≠ baseTtbr0 := ha ▸ ho.base id hlt
    obtain ⟨i, hi, hsp', hd', ha'⟩ := h.held c hbase
    exact hne i hsp' (ho.roots i hi id hlt hd' hd (ha'.symm.trans ha))
  · exact hne _ (ho.home t (hsane.2 t ht)).2.1 (ho.home_of_root hsane ht hlt hd hroot)
  · obtain ⟨ht, heq⟩ := (ho.handle t id).mp hh
    exact hne _ (ho.home t (hsane.2 t ht)).2.1 heq

theorem Settled.clear_doomed (h : s.Settled) (ho : s.Owned) (hsane : s.sched.Sane)
    (hr : s.rooted c = true) (hc : s.doomed c = some id) : s.Clear id := by
  obtain ⟨hlt, -, hd, hend⟩ := ho.doomed c id hc
  refine ⟨fun c' ha => ?_, fun t ht hroot => ?_, fun t hh => ?_⟩
  · exact absurd ((h.gone c id hc c' ha).2.symm.trans hr) (by simp)
  · exact hend t (hsane.2 t ht) (ho.home_of_root hsane ht hlt hd hroot) ht
  · obtain ⟨ht, heq⟩ := (ho.handle t id).mp hh
    exact hend t (hsane.2 t ht) heq ht

theorem once_of_owned (ho : s.Owned) (hf : s.Follows)
    (hid : id < s.nspaces) (hsp : (s.space id).spawned = true) : s.Once id where
  unended hnot := by
    simp only [Ended, not_forall, not_not] at hnot
    obtain ⟨t, ht, rfl, halive⟩ := hnot
    exact ⟨ho.live t halive, fun c hc => (ho.doomed c _ hc).2.2.2 t ht rfl halive⟩
  ended hend := by
    obtain hd | ⟨c, hc⟩ := ho.ended id hid hsp hend
    · refine .inr ⟨hd, fun c hc => ?_⟩
      exact absurd ((ho.doomed c id hc).2.2.1.symm.trans hd) (by simp)
    · exact .inl ⟨(ho.doomed c id hc).2.2.1, c, hc, fun c' hc' => ho.alone c' c id hc' hc⟩
  pending c hc := by
    have hne : s.doomed c ≠ none := by simp [hc]
    obtain ⟨out, into, hp⟩ := hf.switching c (.inl hne)
    refine ⟨by simp [hp], ?_⟩
    rw [next, if_neg]
    rintro ⟨-, hnone⟩
    exact hne hnone

/-! ### Runs -/

/-- The space a thread is spawned in is not about to be destroyed. -/
theorem Owned.not_doomed (h : s.Owned) (hsane : s.sched.Sane) (ht : s.handle t = some id)
    (c : CpuId) : s.doomed c ≠ some id := by
  intro hc
  obtain ⟨halive, hhome⟩ := (h.handle t id).mp ht
  exact (h.doomed c id hc).2.2.2 t (hsane.2 t halive) hhome halive

theorem Owned.step (h : s.Owned) (hf : s.Follows) (hr : scheduling.Reachable s.sched)
    {e : TeardownEvent} (hs : Step s e s') : s'.Owned := by
  have hsane := Scheduler.sane_of_reachable hr
  have hspawned : ∀ {id}, s.unspawned id = true → ∀ c, s.doomed c ≠ some id := by
    intro id hid c hc
    exact absurd ((unspawned_eq_true hid).2.1.symm.trans (h.doomed c id hc).2.1) (by simp)
  cases hs with
  | build hbase hfree => exact h.build hsane hbase hfree
  | @discard id hid =>
    obtain ⟨-, hsp, hd⟩ := unspawned_eq_true hid
    refine h.destroySpace (s := s) hd (fun t ht heq => ?_) fun c i => ?_
    · exact absurd (hsp.symm.trans (heq ▸ (h.home t (hsane.2 t ht)).2.1)) (by simp)
    · refine ⟨fun hc => ⟨hc, ?_⟩, fun hc => hc.1⟩
      rintro rfl
      exact hspawned hid c hc
  | spawn hid =>
    obtain ⟨hlt, -, hd⟩ := unspawned_eq_true hid
    exact h.push hlt hd (hspawned hid) _
  | @spawnThread c t id ctx _ hid =>
    obtain ⟨halive, rfl⟩ := (h.handle t id).mp hid
    exact h.push (h.home t (hsane.2 t halive)).1 (h.live t halive) (h.not_doomed hsane hid) ctx
  | exit ht =>
    obtain ⟨hp, hc⟩ := Scheduler.calling_eq_some ht
    exact h.exit hsane (hsane.1 _ _ hc) (hf.of_running hp).1
  | root => exact h.congr (.refl _) _ _
  | @destroy c id _ hc =>
    obtain ⟨-, -, hd, hend⟩ := h.doomed c id hc
    refine h.destroySpace hd (fun t ht heq => hend t (hsane.2 t ht) heq ht) fun c' i => ?_
    rcases eq_or_ne c' c with rfl | hne
    · rw [Function.update_self, hc]
      simp [eq_comm]
    · rw [Function.update_of_ne hne]
      refine ⟨fun hc' => ⟨hc', ?_⟩, fun hc' => hc'.1⟩
      rintro rfl
      exact hne (h.alone c' c i hc' hc)
  | @sched e sched _ hn he hsp =>
    cases (Scheduler.Step.of_next hn).lives hsane.1 with
    | same hsame => exact h.congr hsame _ _
    | exit => exact absurd rfl (he _)
    | spawn => exact absurd rfl (hsp _)

theorem Follows.step (h : s.Follows) (hr : scheduling.Reachable s.sched) {e : TeardownEvent}
    (hs : Step s e s') : s'.Follows := by
  have hpush : ∀ {id ctx}, (s.push id ctx).Follows := by
    intro id ctx
    refine h.turn hr (e := .spawn ctx) (fun c => (Scheduler.Step.spawn).turn c) nofun rfl
      (fun c => (if_neg nofun).symm) (fun c => .inl rfl) fun t ht => ?_
    exact Function.update_of_ne ht.ne ..
  cases hs with
  | build | discard => exact ⟨h.switching, h.active⟩
  | spawn | spawnThread => exact hpush
  | @exit c t ht =>
    refine h.turn hr (e := .exit c) (fun c => (Scheduler.Step.exit ht).turn c) nofun rfl
      (fun c => (if_neg nofun).symm) (fun c' => ?_) fun _ _ => rfl
    rcases eq_or_ne c' c with rfl | hne
    · exact .inr (Scheduler.left_exit ht)
    · exact .inl (Function.update_of_ne hne ..)
  | @root c out into hp hro =>
    have hcur := ((Scheduler.sound_of_reachable hr).1.switching c out into hp).2
    refine ⟨fun c' hd => ?_, fun c' => ?_⟩
    · rcases eq_or_ne c' c with rfl | hne
      · exact ⟨out, into, hp⟩
      · exact h.switching c' (by simpa [hne] using hd)
    · rcases eq_or_ne c' c with rfl | hne
      · have hinto : (s.sched.core c').current = into := hcur
        simp [expected, hp, hinto]
      · have hx := h.active c'
        simp only [expected, Function.update_of_ne hne] at hx ⊢
        exact hx
  | @destroy c id hro hc =>
    refine ⟨fun c' hd => h.switching c' (hd.imp (fun hd => ?_) fun h => h), h.active⟩
    rcases eq_or_ne c' c with rfl | hne
    · simp at hd
    · simpa [hne] using hd
  | @sched e sched _ hn _ _ hsw hro =>
    exact h.turn hr (fun c => (Scheduler.Step.of_next hn).turn c) hsw rfl hro (fun _ => .inl rfl)
      fun _ _ => rfl

theorem Settled.step (h : s.Settled) (ho : s.Owned) (hf : s.Follows)
    (hr : scheduling.Reachable s.sched) {e : TeardownEvent} (hok : s.LeftAlone e)
    (hs : Step s e s') : s'.Settled := by
  have hsane := Scheduler.sane_of_reachable hr
  cases hs with
  | build => exact h.build ho _
  | discard hid =>
    refine h.destroySpace (h.clear_unspawned ho hsane hid).active fun c i hc => ⟨hc, ?_⟩
    rintro rfl
    exact absurd ((unspawned_eq_true hid).2.1.symm.trans (ho.doomed c i hc).2.1) (by simp)
  | spawn | spawnThread => exact h.push _ _
  | @exit c t ht =>
    obtain ⟨hp, hc⟩ := Scheduler.calling_eq_some ht
    exact h.exit ho hsane (hsane.1 _ _ hc) (hf.of_running hp).2 (hok c t rfl ht)
  | @root c out into hp hro =>
    have hcur := ((Scheduler.sound_of_reachable hr).1.switching c out into hp).2
    exact h.root ho hsane fun t ht => hsane.1 c t (hcur.trans ht)
  | @destroy c id hro hc =>
    refine h.destroySpace (h.clear_doomed ho hsane hro hc).active fun c' i hc' => ?_
    rcases eq_or_ne c' c with rfl | hne
    · simp at hc'
    · rw [Function.update_of_ne hne] at hc'
      refine ⟨hc', ?_⟩
      rintro rfl
      exact hne (ho.alone c' c i hc' hc)
  | sched _ _ _ _ hro =>
    refine h.congr _ fun c hc => ?_
    rw [hro] at hc
    split at hc
    · cases hc
    · exact hc

/-- Whether an event is no exit, or that of a thread with siblings alive. -/
def leavesOthers (s : Teardown) : TeardownEvent → Bool
  | .exit c => (s.sched.calling c).all s.shared
  | _ => true

theorem LeftAlone.of_leavesOthers {e : TeardownEvent} (h : s.leavesOthers e = true) :
    s.LeftAlone e := by
  rintro c t rfl ht hsh
  simp [leavesOthers, ht, hsh] at h

theorem sched_reachable {ok : Teardown → TeardownEvent → Prop} (h : teardown.Reach ok s) :
    scheduling.Reachable s.sched := by
  refine h.simulate Teardown.sched (fun s hs => .init (hs ▸ rfl)) fun s e s' _ _ hn hr => ?_
  obtain heq | ⟨e, he⟩ := (Step.of_next hn).sched_next
  · exact heq ▸ hr
  · exact .step hr trivial he

theorem owned_of_reach {ok : Teardown → TeardownEvent → Prop} (h : teardown.Reach ok s) :
    s.Owned ∧ s.Follows := by
  refine h.invariant_of (I := fun s => s.Owned ∧ s.Follows)
    (J := fun s => scheduling.Reachable s.sched) (fun s => sched_reachable) ?_ ?_
  · rintro _ rfl
    exact ⟨owned_new, follows_new⟩
  · intro s e s' hr ⟨ho, hf⟩ _ hn
    have hs := Step.of_next hn
    exact ⟨ho.step hf hr hs, hf.step hr hs⟩

end Teardown

open Teardown

/-- **An address space is not torn down while in use**: in every run in which a thread that exits
as the last of its space is the last to leave it, a space is destroyed only when no core translates
through it and no live task names it, and once its tasks have all exited it is destroyed once. -/
theorem torn_down_of_leftAlone {s : Teardown} (h : teardown.Reach Teardown.LeftAlone s) :
    s.Proper := by
  have hsettled : s.Settled := by
    refine h.invariant_of (I := Teardown.Settled)
      (J := fun s => scheduling.Reachable s.sched ∧ s.Owned ∧ s.Follows)
      (fun s hs => ⟨sched_reachable hs, owned_of_reach hs⟩) ?_ ?_
    · rintro _ rfl
      exact ⟨nofun, fun c hc => absurd rfl hc⟩
    · intro s e s' ⟨hr, ho, hf⟩ hi hok hn
      exact hi.step ho hf hr hok (.of_next hn)
  obtain ⟨ho, hf⟩ := owned_of_reach h
  have hsane := Scheduler.sane_of_reachable (sched_reachable h)
  refine ⟨fun e id hd => ?_, fun id hid hsp => once_of_owned ho hf hid hsp⟩
  cases e with
  | discard i =>
    obtain ⟨hi, heq⟩ := Option.ite_none_right_eq_some.mp hd
    exact Option.some.inj heq ▸ hsettled.clear_unspawned ho hsane hi
  | destroy c =>
    obtain ⟨hro, hc⟩ := Option.ite_none_right_eq_some.mp hd
    exact hsettled.clear_doomed ho hsane hro hc
  | _ => cases hd

/-- Two threads exit on two cores. The first has left the space when the second, the last, comes to
destroy it. -/
theorem torn_down_of_leftAlone_run : ∃ s s',
    teardown.runIf (fun s e => s.leavesOthers e) .new
      [.build 1, .spawn 0 7, .sched (.idle 0), .root 0, .sched (.switch 0), .sched (.settle 0),
        .spawnThread 0 8, .sched (.idle 1), .root 1, .sched (.switch 1), .sched (.settle 1),
        .exit 0, .root 0] = some s ∧
      teardown.run s [.exit 1, .root 1] = some s' ∧ s'.destroys (.destroy 1) = some 0 ∧
      s'.Proper := by
  obtain ⟨s, s₁, s', hrun, hexit, hroot, hactive, hd⟩ : ∃ s s₁ s',
      teardown.runIf (fun s e => s.leavesOthers e) .new
        [.build 1, .spawn 0 7, .sched (.idle 0), .root 0, .sched (.switch 0), .sched (.settle 0),
          .spawnThread 0 8, .sched (.idle 1), .root 1, .sched (.switch 1), .sched (.settle 1),
          .exit 0, .root 0] = some s ∧
        teardown.next s (.exit 1) = some s₁ ∧ teardown.next s₁ (.root 1) = some s' ∧
        (s.active = Function.update (Function.update (Function.update
          (fun _ => baseTtbr0) 0 1) 1 1) 0 baseTtbr0 ∧ s.ttbr0 1 = 1 ∧ s.sched.calling 1 = some 1) ∧
        s'.destroys (.destroy 1) = some 0 :=
    ⟨_, _, _, rfl, rfl, rfl, ⟨rfl, rfl, rfl⟩, rfl⟩
  have hr : teardown.Reach LeftAlone s :=
    .of_runIf (fun s e _ h => LeftAlone.of_leavesOthers h) (.init rfl) hrun
  refine ⟨s, s', hrun, ?_, hd,
    torn_down_of_leftAlone (.step (.step hr ?_ hexit) (.of_leavesOthers rfl) hroot)⟩
  · rw [EventSystem.run, EventSystem.runIf, if_pos rfl, hexit, Option.bind_some, EventSystem.runIf,
      if_pos rfl, hroot]
    rfl
  · intro c t he ht _ c' hne
    obtain rfl := TeardownEvent.exit.inj he
    obtain rfl := Option.some.inj (hactive.2.2.symm.trans ht)
    rw [hactive.1, hactive.2.1]
    rcases eq_or_ne c' 0 with rfl | hne'
    · simp [baseTtbr0]
    · simp [hne, hne', baseTtbr0]

/-- The first has marked itself dead and not yet left the space when the second, the last, comes to
destroy it: core 0 still translates through it. -/
theorem torn_down_in_use : ¬ ∀ s, teardown.Reachable s → s.Proper := by
  intro hall
  obtain ⟨s, hrun, hd, hactive⟩ : ∃ s, teardown.run .new
      [.build 1, .spawn 0 7, .sched (.idle 0), .root 0, .sched (.switch 0), .sched (.settle 0),
        .spawnThread 0 8, .sched (.idle 1), .root 1, .sched (.switch 1), .sched (.settle 1),
        .exit 0, .exit 1, .root 1] = some s ∧ s.destroys (.destroy 1) = some 0 ∧
      s.active 0 = (s.space 0).root := ⟨_, rfl, rfl, rfl⟩
  exact ((hall s (.of_run _ rfl hrun)).clear _ _ hd).active 0 hactive

end StarOS
