import Mathlib.Logic.Function.Basic
import Mathlib.Logic.Relation
import StarOS.Lib.Custody

/-!
# Handover: who may load a saved context, and when

Cores run tasks, each with a saved register context that is only up to date while the task is off
every core. A core that leaves a task chooses its successor first, under a lock, and saves the
task's registers afterwards, outside it; and only the successor, once it has arrived, knows that
they are saved. In between the task may look runnable to every other core. So a task is marked
*busy* from the moment a core takes it until its successor on that core has settled it, and no
core takes a busy task.

A busy task is a token in the sense of `Ledger`: it is the current task of one core, or the one a
core has left and not yet settled, and every step of the protocol is a move of one token.

## Main definitions

* `Handover`, `Handover.Step` — the state of the protocol and its steps
* `Handover.Sound` — the invariant

## Main results

* `Handover.Sound.step`, `Handover.Sound.steps`
-/

/-- What a core is in the middle of. -/
inductive Handover.Phase (τ : Type*)
  /-- Running its current task, or idle. -/
  | running
  /-- About to save the context of `out` and load that of `into`; `none` is its idle loop. -/
  | switching (out into : Option τ)
  /-- In its successor's context, its predecessor not yet settled. -/
  | arrived
  deriving DecidableEq, Repr

/-- Cores `κ`, tasks `τ`, contents of the registers `ρ`. -/
structure Handover (κ τ ρ : Type*) where
  /-- The task a core is running. -/
  current : κ → Option τ
  /-- The task a core has left and not settled. -/
  prev : κ → Option τ
  phase : κ → Handover.Phase τ
  /-- Whether a task is on some core. -/
  busy : τ → Bool
  /-- The saved context of a task. -/
  ctx : τ → ρ
  /-- The saved context of a core's idle loop. -/
  idle : κ → ρ
  /-- The registers of a core. -/
  regs : κ → ρ
  /-- What the registers were when the task last used them. -/
  last : τ → ρ

namespace Handover

variable {κ τ ρ : Type*}

/-- The task whose registers a core holds. -/
def owner (h : Handover κ τ ρ) (c : κ) : Option τ :=
  match h.phase c with
  | .switching out _ => out
  | .running | .arrived => h.current c

/-- The two ways for a task to be on a core. -/
inductive Role (κ : Type*)
  | current (c : κ)
  | prev (c : κ)
  deriving DecidableEq

/-- Which task is on which core, and how. -/
def roles (h : Handover κ τ ρ) : Ledger (Role κ) τ
  | .current c => (h.current c).toList
  | .prev c => (h.prev c).toList

/-- Each busy task is on one core in one way, and the contexts of all others are saved. -/
structure Sound (h : Handover κ τ ρ) : Prop where
  roles : h.roles.Exact {t | h.busy t = true}
  /-- A core that is not in the middle of a switch has settled the last one. -/
  settled : ∀ c, h.phase c = .running → h.prev c = none
  /-- A core that is has recorded it. -/
  switching : ∀ c out into, h.phase c = .switching out into → h.prev c = out ∧ h.current c = into
  /-- A core holds the registers of the task it runs. -/
  regs : ∀ c t, h.owner c = some t → h.regs c = h.last t
  /-- The context of any other task is what its registers were. -/
  saved : ∀ t, (∀ c, h.owner c ≠ some t) → h.ctx t = h.last t

variable {h h' : Handover κ τ ρ}

namespace Sound

/-- A task whose registers a core holds is busy, on that core. -/
theorem role_of_owner (hs : h.Sound) {c : κ} {t : τ} (ho : h.owner c = some t) :
    t ∈ h.roles (.current c) ∨ t ∈ h.roles (.prev c) := by
  rw [owner] at ho
  split at ho
  · next out into hp => exact .inr (by simp [Handover.roles, (hs.switching c out into hp).1, ho])
  · exact .inl (by simp [Handover.roles, ho])
  · exact .inl (by simp [Handover.roles, ho])

theorem busy_of_owner (hs : h.Sound) {c : κ} {t : τ} (ho : h.owner c = some t) :
    h.busy t = true :=
  (hs.role_of_owner ho).elim hs.roles.mem hs.roles.mem

/-- No two cores hold the registers of one task. -/
theorem owner_unique (hs : h.Sound) {c c' : κ} {t : τ} (ho : h.owner c = some t)
    (ho' : h.owner c' = some t) : c = c' := by
  obtain hr | hr := hs.role_of_owner ho <;> obtain hr' | hr' := hs.role_of_owner ho' <;>
    have := hs.roles.place_unique hr hr' <;> simp_all

/-- **A task on no core has its context saved.** -/
theorem fresh (hs : h.Sound) {t : τ} (hb : h.busy t = false) : h.ctx t = h.last t :=
  hs.saved t fun c ho => by simp [hs.busy_of_owner ho] at hb

/-- A task is the current one of one core at most. -/
theorem current_unique (hs : h.Sound) {c c' : κ} {t : τ} (ht : h.current c = some t)
    (ht' : h.current c' = some t) : c = c' := by
  have : Role.current c = Role.current c' :=
    hs.roles.place_unique (x := t) (by simp [Handover.roles, ht]) (by simp [Handover.roles, ht'])
  simpa using this

/-- A task is busy while it is on a core. -/
theorem busy_iff (hs : h.Sound) {t : τ} :
    h.busy t = true ↔ (∃ c, h.current c = some t) ∨ ∃ c, h.prev c = some t := by
  refine (hs.roles.total t).trans ⟨?_, ?_⟩
  · rintro ⟨c | c, hc⟩
    · exact .inl ⟨c, by simpa [Handover.roles] using hc⟩
    · exact .inr ⟨c, by simpa [Handover.roles] using hc⟩
  · rintro (⟨c, hc⟩ | ⟨c, hc⟩)
    · exact ⟨.current c, by simp [Handover.roles, hc]⟩
    · exact ⟨.prev c, by simp [Handover.roles, hc]⟩

end Sound

/-- The task a core has taken and not loaded is nobody's yet. -/
theorem Sound.not_owner_of_into (hs : h.Sound) {c c' : κ} {out : Option τ} {t : τ}
    (hp : h.phase c = .switching out (some t)) : h.owner c' ≠ some t := by
  intro ho
  have hcur : t ∈ h.roles (.current c) := by
    simp [Handover.roles, (hs.switching c out _ hp).2]
  obtain hr | hr := hs.role_of_owner ho
  · obtain rfl : c = c' := by simpa using hs.roles.place_unique hcur hr
    -- the core holds the registers of what it leaves
    have hout : out = some t := by simpa [owner, hp] using ho
    have hprev : t ∈ h.roles (.prev c) := by
      simp [Handover.roles, (hs.switching c out _ hp).1, hout]
    exact absurd (hs.roles.place_unique hcur hprev) (by simp)
  · exact absurd (hs.roles.place_unique hcur hr) (by simp)

theorem owner_congr {c : κ} (hp : h'.phase c = h.phase c) (hc : h'.current c = h.current c) :
    h'.owner c = h.owner c := by
  simp only [owner, hp, hc]

/-! ### The steps -/

variable [DecidableEq κ] [DecidableEq τ]

/-- What runs on core `c` changes its registers. -/
def exec (h : Handover κ τ ρ) (c : κ) (r : ρ) : Handover κ τ ρ :=
  { h with
    regs := Function.update h.regs c r
    last := fun t => if h.owner c = some t then r else h.last t }

/-- Core `c` leaves what it is running. -/
def leave (h : Handover κ τ ρ) (c : κ) : Handover κ τ ρ :=
  { h with
    current := Function.update h.current c none
    prev := Function.update h.prev c (h.current c)
    phase := Function.update h.phase c (.switching (h.current c) none) }

/-- Core `c`, leaving `out`, takes task `t`. -/
def take (h : Handover κ τ ρ) (c : κ) (out : Option τ) (t : τ) : Handover κ τ ρ :=
  { h with
    current := Function.update h.current c (some t)
    phase := Function.update h.phase c (.switching out (some t))
    busy := Function.update h.busy t true }

/-- Core `c` saves its registers as the context of `out`. -/
def save (h : Handover κ τ ρ) (c : κ) : Option τ → Handover κ τ ρ
  | some t => { h with ctx := Function.update h.ctx t (h.regs c) }
  | none => { h with idle := Function.update h.idle c (h.regs c) }

/-- Core `c` loads the context of `into`, and has arrived. -/
def load (h : Handover κ τ ρ) (c : κ) (into : Option τ) : Handover κ τ ρ :=
  { h with
    regs := Function.update h.regs c (into.elim (h.idle c) h.ctx)
    phase := Function.update h.phase c .arrived }

/-- The successor on core `c` settles the task that was left. -/
def settle (h : Handover κ τ ρ) (c : κ) : Handover κ τ ρ :=
  { h with
    busy := (h.prev c).elim h.busy fun t => Function.update h.busy t false
    prev := Function.update h.prev c none
    phase := Function.update h.phase c .running }

/-- Task `t` is given a context. -/
def spawn (h : Handover κ τ ρ) (t : τ) (r : ρ) : Handover κ τ ρ :=
  { h with
    ctx := Function.update h.ctx t r
    last := Function.update h.last t r }

/-- One step of the protocol: a core takes, and a context is given to, a task on no core. -/
inductive Step (h : Handover κ τ ρ) : Handover κ τ ρ → Prop
  | exec {c : κ} {r : ρ} : Step h (h.exec c r)
  | leave {c : κ} : h.phase c = .running → Step h (h.leave c)
  | take {c : κ} {out : Option τ} {t : τ} : h.phase c = .switching out none → h.busy t = false →
      Step h (h.take c out t)
  | switch {c : κ} {out into : Option τ} : h.phase c = .switching out into →
      Step h ((h.save c out).load c into)
  | settle {c : κ} : h.phase c = .arrived → Step h (h.settle c)
  | spawn {t : τ} {r : ρ} : h.busy t = false → Step h (h.spawn t r)

/-! ### Each step keeps the protocol sound -/

theorem Sound.exec (hs : h.Sound) (c : κ) (r : ρ) : (h.exec c r).Sound where
  roles := hs.roles
  settled := hs.settled
  switching := hs.switching
  regs c' t ho := by
    change h.owner c' = some t at ho
    rcases eq_or_ne c' c with rfl | hne
    · simp [Handover.exec, ho]
    · have hnot : h.owner c ≠ some t := fun ho' => hne (hs.owner_unique ho ho')
      simp [Handover.exec, hne, hnot, hs.regs c' t ho]
  saved t ho := by
    change ∀ c', h.owner c' ≠ some t at ho
    simp [Handover.exec, ho c, hs.saved t ho]

omit [DecidableEq τ] in
theorem Sound.leave (hs : h.Sound) {c : κ} (hp : h.phase c = .running) : (h.leave c).Sound := by
  have howner : ∀ c', (h.leave c).owner c' = h.owner c' := by
    intro c'
    rcases eq_or_ne c' c with rfl | hne
    · simp [owner, Handover.leave, hp]
    · exact owner_congr (by simp [Handover.leave, hne]) (by simp [Handover.leave, hne])
  refine ⟨?_, fun c' hp' => ?_, fun c' out into hp' => ?_, fun c' t ho => ?_, fun t ho => ?_⟩
  · cases ht : h.current c with
    | none =>
      refine hs.roles.congr ?_
      rintro (c' | c') <;> rcases eq_or_ne c' c with rfl | hne <;>
        simp_all [Handover.roles, Handover.leave, hs.settled]
    | some t =>
      refine hs.roles.move (x := t) (p := .current c) (q := .prev c) (by simp)
        (by simp [Handover.roles, Handover.leave, ht])
        (by simp [Handover.roles, Handover.leave, ht, hs.settled c hp]) ?_
      rintro (c' | c') hne hne' <;> simp_all [Handover.roles, Handover.leave]
  · rcases eq_or_ne c' c with rfl | hne
    · simp [Handover.leave] at hp'
    · simpa [Handover.leave, hne] using hs.settled c' (by simpa [Handover.leave, hne] using hp')
  · rcases eq_or_ne c' c with rfl | hne
    · obtain ⟨rfl, rfl⟩ : h.current c' = out ∧ none = into := by simpa [Handover.leave] using hp'
      simp [Handover.leave]
    · simpa [Handover.leave, hne] using
        hs.switching c' out into (by simpa [Handover.leave, hne] using hp')
  · exact hs.regs c' t (howner c' ▸ ho)
  · exact hs.saved t fun c' => howner c' ▸ ho c'

theorem Sound.take (hs : h.Sound) {c : κ} {out : Option τ} {t : τ}
    (hp : h.phase c = .switching out none) (hb : h.busy t = false) : (h.take c out t).Sound := by
  obtain ⟨hprev, hcur⟩ := hs.switching c out none hp
  have howner : ∀ c', (h.take c out t).owner c' = h.owner c' := by
    intro c'
    rcases eq_or_ne c' c with rfl | hne
    · simp [owner, Handover.take, hp]
    · exact owner_congr (by simp [Handover.take, hne]) (by simp [Handover.take, hne])
  refine ⟨?_, fun c' hp' => ?_, fun c' out' into hp' => ?_, fun c' u ho => ?_, fun u ho => ?_⟩
  · have hset : {u | (h.take c out t).busy u = true} = insert t {u | h.busy u = true} := by
      ext u
      rcases eq_or_ne u t with rfl | hne
      · simp [Handover.take]
      · simp [Handover.take, hne]
    rw [hset]
    refine hs.roles.mint (p := .current c) (by simp [hb])
      (by simp [Handover.roles, Handover.take, hcur]) ?_
    rintro (c' | c') hne <;> simp_all [Handover.roles, Handover.take]
  · rcases eq_or_ne c' c with rfl | hne
    · simp [Handover.take] at hp'
    · simpa [Handover.take] using hs.settled c' (by simpa [Handover.take, hne] using hp')
  · rcases eq_or_ne c' c with rfl | hne
    · obtain ⟨rfl, rfl⟩ : out = out' ∧ some t = into := by simpa [Handover.take] using hp'
      simp [Handover.take, hprev]
    · simpa [Handover.take, hne] using
        hs.switching c' out' into (by simpa [Handover.take, hne] using hp')
  · exact hs.regs c' u (howner c' ▸ ho)
  · exact hs.saved u fun c' => howner c' ▸ ho c'

theorem Sound.switch (hs : h.Sound) {c : κ} {out into : Option τ}
    (hp : h.phase c = .switching out into) : ((h.save c out).load c into).Sound := by
  have hcur := (hs.switching c out into hp).2
  have howner : h.owner c = out := by simp [owner, hp]
  have hroles : ((h.save c out).load c into).roles = h.roles := by cases out <;> rfl
  have hbusy : ((h.save c out).load c into).busy = h.busy := by cases out <;> rfl
  have hphase : ((h.save c out).load c into).phase = Function.update h.phase c .arrived := by
    cases out <;> rfl
  have hcurrent : ((h.save c out).load c into).current = h.current := by cases out <;> rfl
  have hprev : ((h.save c out).load c into).prev = h.prev := by cases out <;> rfl
  have hlast : ((h.save c out).load c into).last = h.last := by cases out <;> rfl
  have hctx : ∀ t, h.owner c ≠ some t → ((h.save c out).load c into).ctx t = h.ctx t := by
    intro t ht
    cases out with
    | none => rfl
    | some u =>
      have : t ≠ u := by
        rintro rfl
        exact ht howner
      simp [save, load, this]
  have hregs : ∀ c', c' ≠ c → ((h.save c out).load c into).regs c' = h.regs c' := by
    intro c' hne
    cases out <;> simp [save, load, hne]
  have howner' : ∀ c', c' ≠ c → ((h.save c out).load c into).owner c' = h.owner c' := by
    intro c' hne
    exact owner_congr (by simp [hphase, hne]) (by simp [hcurrent])
  have hownerc : ((h.save c out).load c into).owner c = into := by
    simp [owner, hphase, hcurrent, hcur]
  refine ⟨?_, fun c' hp' => ?_, fun c' out' into' hp' => ?_, fun c' t ho => ?_, fun t ho => ?_⟩
  · rw [hroles, hbusy]
    exact hs.roles
  · rw [hphase] at hp'
    rcases eq_or_ne c' c with rfl | hne
    · simp at hp'
    · exact hprev ▸ hs.settled c' (by simpa [hne] using hp')
  · rw [hphase] at hp'
    rcases eq_or_ne c' c with rfl | hne
    · simp at hp'
    · rw [hprev, hcurrent]
      exact hs.switching c' out' into' (by simpa [hne] using hp')
  · rw [hlast]
    rcases eq_or_ne c' c with rfl | hne
    · obtain rfl : into = some t := hownerc.symm.trans ho
      have hnot : ∀ c, h.owner c ≠ some t := fun _ => hs.not_owner_of_into hp
      have := hctx t (hnot c')
      rw [← hs.saved t hnot, ← this]
      simp [load]
    · rw [hregs c' hne]
      exact hs.regs c' t (howner' c' hne ▸ ho)
  · rw [hlast]
    by_cases hout : h.owner c = some t
    · -- what core `c` left it has just saved
      obtain rfl := howner.symm.trans hout
      rw [← hs.regs c t hout]
      simp [save, load]
    · rw [hctx t hout]
      refine hs.saved t fun c' => ?_
      rcases eq_or_ne c' c with rfl | hne
      · exact hout
      · exact howner' c' hne ▸ ho c'

theorem Sound.settle (hs : h.Sound) {c : κ} (hp : h.phase c = .arrived) :
    (h.settle c).Sound := by
  have howner : ∀ c', (h.settle c).owner c' = h.owner c' := by
    intro c'
    rcases eq_or_ne c' c with rfl | hne
    · simp [owner, Handover.settle, hp]
    · exact owner_congr (by simp [Handover.settle, hne]) (by simp [Handover.settle])
  refine ⟨?_, fun c' hp' => ?_, fun c' out into hp' => ?_, fun c' t ho => ?_, fun t ho => ?_⟩
  · cases ht : h.prev c with
    | none =>
      have hbusy : (h.settle c).busy = h.busy := by simp [Handover.settle, ht]
      rw [hbusy]
      refine hs.roles.congr ?_
      rintro (c' | c') <;> rcases eq_or_ne c' c with rfl | hne <;>
        simp_all [Handover.roles, Handover.settle]
    | some t =>
      have hset : {u | (h.settle c).busy u = true} = {u | h.busy u = true} \ {t} := by
        ext u
        rcases eq_or_ne u t with rfl | hne
        · simp [Handover.settle, ht]
        · simp [Handover.settle, ht, hne]
      rw [hset]
      refine hs.roles.burn (p := .prev c) (by simp [Handover.roles, Handover.settle, ht]) ?_
      rintro (c' | c') hne <;> simp_all [Handover.roles, Handover.settle]
  · rcases eq_or_ne c' c with rfl | hne
    · simp [Handover.settle]
    · simpa [Handover.settle, hne] using hs.settled c' (by simpa [Handover.settle, hne] using hp')
  · rcases eq_or_ne c' c with rfl | hne
    · simp [Handover.settle] at hp'
    · simpa [Handover.settle, hne] using
        hs.switching c' out into (by simpa [Handover.settle, hne] using hp')
  · exact hs.regs c' t (howner c' ▸ ho)
  · exact hs.saved t fun c' => howner c' ▸ ho c'

omit [DecidableEq κ] in
theorem Sound.spawn (hs : h.Sound) {t : τ} (hb : h.busy t = false) (r : ρ) :
    (h.spawn t r).Sound where
  roles := hs.roles
  settled := hs.settled
  switching := hs.switching
  regs c u ho := by
    change h.owner c = some u at ho
    have hne : u ≠ t := by
      rintro rfl
      simp [hs.busy_of_owner ho] at hb
    simpa [Handover.spawn, hne] using hs.regs c u ho
  saved u ho := by
    rcases eq_or_ne u t with rfl | hne
    · simp [Handover.spawn]
    · simpa [Handover.spawn, hne] using hs.saved u ho

/-- **The protocol stays sound.** -/
theorem Sound.step (hs : h.Sound) (hstep : Step h h') : h'.Sound := by
  cases hstep with
  | exec => exact hs.exec _ _
  | leave hp => exact hs.leave hp
  | take hp hb => exact hs.take hp hb
  | switch hp => exact hs.switch hp
  | settle hp => exact hs.settle hp
  | spawn hb => exact hs.spawn hb _

/-- However many steps it makes. -/
theorem Sound.steps (hs : h.Sound) (hsteps : Relation.ReflTransGen Step h h') : h'.Sound := by
  induction hsteps with
  | refl => exact hs
  | tail _ hstep ih => exact ih.step hstep

end Handover
