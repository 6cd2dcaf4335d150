import Mathlib.Data.List.Nodup
import Mathlib.Data.List.Range
import StarOS.Lib.EventSystem

/-!
# Handlers that run at exit

Handlers are registered in a table of fixed size, and at exit they are taken from its end one by one
and called. A handler may register others, have the table run from inside itself, and exit. So the
calls are nested, and a loop that goes on after its handler has returned finds another table.

A null pointer is registered like a handler, and passed over.

## Main definitions

* `Atexit.cxaAtexit`, `Atexit.atexit`, `Atexit.runAtexit` — a registration, and a turn of the loop
* `Atexit.exitSystem` — a program and its handlers, which do what they like
* `Atexit.State.pending` — the registrations in the table

## Main results

* `Atexit.effect_of_next` — what a step does to the table
* `Atexit.sound_of_reachable` — every registration is pending, or has run, or is refused
* `Atexit.handlers_exact`
-/

namespace StarOS

namespace Atexit

variable {Fn : Type}

/-- One registered destructor. The code does not read its number, which counts registrations. -/
structure AtExit (Fn : Type) where
  function : Option Fn
  argument : ℕ
  number : ℕ
  deriving DecidableEq

def maxAtexit : ℕ := 64

/-- A call that has begun: the loop that runs the handlers, of `exit` or not, or a handler. -/
inductive Frame
  | loop (exits : Bool)
  | handler
  deriving DecidableEq

/-- The table, the calls that have begun with the innermost first, all registrations with what they
returned, and the handlers that were called. -/
structure State (Fn : Type) where
  table : ℕ → AtExit Fn
  count : ℕ
  frames : List Frame
  ended : Bool
  made : List (AtExit Fn × ℤ)
  ran : List (AtExit Fn)

def cxaAtexit (s : State Fn) (function : Option Fn) (argument : ℕ) : State Fn × ℤ :=
  let e : AtExit Fn := ⟨function, argument, s.made.length⟩
  if s.count ≥ maxAtexit then ({ s with made := s.made ++ [(e, -1)] }, -1)
  else
    ({ s with
        table := Function.update s.table s.count e
        count := s.count + 1
        made := s.made ++ [(e, 0)] }, 0)

/-- The form without an argument. -/
def atexit (s : State Fn) (function : Option Fn) : State Fn × ℤ := cxaAtexit s function 0

/-- A turn of the loop, down to the call of the handler. An index behind the table would panic. -/
def runAtexit (s : State Fn) (exits : Bool) (rest : List Frame) : Option (State Fn) :=
  if s.count = 0 then some { s with frames := rest, ended := exits }
  else if s.count - 1 < maxAtexit then
    let entry := s.table (s.count - 1)
    if entry.function.isSome then
      some { s with
        count := s.count - 1
        frames := .handler :: .loop exits :: rest
        ran := s.ran ++ [entry] }
    else some { s with count := s.count - 1, frames := .loop exits :: rest }
  else none

/-- What the program or a handler does next, and how the loop goes on. -/
inductive Act (Fn : Type)
  | cxaAtexit (function : Option Fn) (argument : ℕ)
  | atexit (function : Option Fn)
  | finalize
  | exit
  | ret
  | turn
  deriving DecidableEq

/-- What the code does that runs now, which is no loop. -/
def State.act (s : State Fn) : Act Fn → Option (State Fn)
  | .cxaAtexit function argument => some (Atexit.cxaAtexit s function argument).1
  | .atexit function => some (Atexit.atexit s function).1
  | .finalize => some { s with frames := .loop false :: s.frames }
  | .exit => some { s with frames := .loop true :: s.frames }
  | .ret =>
    -- The program has no caller: its return is an exit.
    if s.frames = [] then none else some { s with frames := s.frames.tail }
  | .turn => none

/-- The loop that runs now, and the calls around it. -/
def State.looping (s : State Fn) : Option (Bool × List Frame) :=
  match s.frames with
  | .loop exits :: rest => some (exits, rest)
  | _ => none

def State.next (s : State Fn) (a : Act Fn) : Option (State Fn) :=
  if s.ended then none
  else
    match s.looping with
    | some p =>
      match a with
      | .turn => runAtexit s p.1 p.2
      | _ => none
    | none => s.act a

/-- A program that has registered nothing yet. -/
def exitSystem (Fn : Type) : EventSystem (State Fn) (Act Fn) where
  init s := s.count = 0 ∧ s.frames = [] ∧ s.ended = false ∧ s.made = [] ∧ s.ran = []
  next := State.next

/-- The registrations in the table, the oldest first. -/
def State.pending (s : State Fn) : List (AtExit Fn) := (List.range s.count).map s.table

variable {s s' : State Fn} {a : Act Fn} {e r : AtExit Fn} {v : ℤ}

/-! ### Steps -/

/-- **What a step does** to the table and to what is known of the registrations. -/
inductive Effect (s s' : State Fn) : Prop
  | accepted (e : AtExit Fn) : e.number = s.made.length → s.count < maxAtexit →
      s'.table = Function.update s.table s.count e → s'.count = s.count + 1 →
      s'.made = s.made ++ [(e, 0)] → s'.ran = s.ran → s'.ended = s.ended → Effect s s'
  | refused (e : AtExit Fn) : e.number = s.made.length → s'.table = s.table →
      s'.count = s.count → s'.made = s.made ++ [(e, -1)] → s'.ran = s.ran →
      s'.ended = s.ended → Effect s s'
  | quiet : s'.table = s.table → s'.count = s.count → s'.made = s.made → s'.ran = s.ran →
      (s'.ended = true → s'.count = 0) → Effect s s'
  | called : s'.table = s.table → s.count = s'.count + 1 → s'.made = s.made →
      s'.ran = s.ran ++ [s.table s'.count] → s'.ended = s.ended → Effect s s'
  | skipped : s'.table = s.table → s.count = s'.count + 1 → s'.made = s.made →
      s'.ran = s.ran → (s.table s'.count).function = none → s'.ended = s.ended → Effect s s'

theorem effect_cxaAtexit (s : State Fn) (function : Option Fn) (argument : ℕ) :
    Effect s (cxaAtexit s function argument).1 := by
  rw [cxaAtexit]
  split
  · exact .refused _ rfl rfl rfl rfl rfl rfl
  · next hroom => exact .accepted _ rfl (Nat.lt_of_not_le hroom) rfl rfl rfl rfl rfl

theorem effect_runAtexit {exits : Bool} {rest : List Frame}
    (h : runAtexit s exits rest = some s') : Effect s s' := by
  rw [runAtexit] at h
  split at h
  · next hcount =>
    cases h
    exact .quiet rfl rfl rfl rfl fun _ => hcount
  · next hcount =>
    have hpos : s.count = s.count - 1 + 1 := by omega
    dsimp only at h
    split at h
    · split at h
      · cases h
        exact .called rfl hpos rfl rfl rfl
      · next hnull =>
        cases h
        exact .skipped rfl hpos rfl rfl (Option.not_isSome_iff_eq_none.1 hnull) rfl
    · cases h

theorem effect_of_act (hended : s.ended = false) (h : s.act a = some s') : Effect s s' := by
  have hgoes : s'.ended = false → s'.ended = true → s'.count = 0 := fun hf ht => by
    rw [hf] at ht
    cases ht
  cases a with
  | cxaAtexit function argument =>
    cases h
    exact effect_cxaAtexit s function argument
  | atexit function =>
    cases h
    exact effect_cxaAtexit s function 0
  | finalize | exit =>
    cases h
    exact .quiet rfl rfl rfl rfl (hgoes hended)
  | ret =>
    rw [State.act] at h
    split at h
    · cases h
    · cases h
      exact .quiet rfl rfl rfl rfl (hgoes hended)
  | turn => cases h

theorem effect_of_next (h : s.next a = some s') : s.ended = false ∧ Effect s s' := by
  rw [State.next] at h
  split at h
  · cases h
  · next hended =>
    have hended : s.ended = false := Bool.eq_false_iff.2 hended
    refine ⟨hended, ?_⟩
    split at h
    · cases a with
      | turn => exact effect_runAtexit h
      | _ => cases h
    · exact effect_of_act hended h

/-! ### Every registration is somewhere -/

/-- What holds of the registrations at all times. -/
structure State.Sound (s : State Fn) : Prop where
  fits : s.count ≤ maxAtexit
  /-- The numbers are given out in turn. -/
  numbered : s.made.Pairwise fun p q => p.1.number < q.1.number
  below : ∀ p ∈ s.made, p.1.number < s.made.length
  /-- What is in the table was accepted, one after the other. -/
  ordered : s.pending.Pairwise fun e f => e.number < f.number
  pending_made : ∀ e ∈ s.pending, (e, 0) ∈ s.made
  ran_made : ∀ e ∈ s.ran, (e, 0) ∈ s.made
  once : (s.ran ++ s.pending).Nodup
  somewhere : ∀ e, (e, 0) ∈ s.made → e.function ≠ none → e ∈ s.pending ∨ e ∈ s.ran
  ended : s.ended = true → s.count = 0

theorem pending_congr (htable : s'.table = s.table) (hcount : s'.count = s.count) :
    s'.pending = s.pending := by
  rw [State.pending, State.pending, htable, hcount]

theorem pending_push (htable : s'.table = Function.update s.table s.count e)
    (hcount : s'.count = s.count + 1) : s'.pending = s.pending ++ [e] := by
  have hold : (List.range s.count).map s'.table = (List.range s.count).map s.table := by
    refine List.map_congr_left fun i hi => ?_
    rw [htable, Function.update_of_ne (List.mem_range.1 hi).ne]
  rw [State.pending, hcount, List.range_succ, List.map_append, hold, htable, List.map_singleton,
    Function.update_self]
  rfl

theorem pending_pop (htable : s'.table = s.table) (hcount : s.count = s'.count + 1) :
    s.pending = s'.pending ++ [s.table s'.count] := by
  rw [State.pending, State.pending, hcount, List.range_succ, List.map_append, htable]
  rfl

theorem State.Sound.init (h : (exitSystem Fn).init s) : s.Sound := by
  obtain ⟨hcount, -, hended, hmade, hran⟩ := h
  have hpending : s.pending = [] := by
    rw [State.pending, hcount]
    rfl
  constructor <;> simp [hcount, hended, hmade, hran, hpending]

/-- A registration that is recorded now has a number of its own. -/
theorem State.Sound.not_made (h : s.Sound) (he : e.number = s.made.length) : (e, v) ∉ s.made :=
  fun hmem => absurd (h.below _ hmem) (by rw [he]; exact Nat.lt_irrefl _)

theorem State.Sound.record (h : s.Sound) (he : e.number = s.made.length) :
    (s.made ++ [(e, v)]).Pairwise (fun p q => p.1.number < q.1.number) ∧
      ∀ p ∈ s.made ++ [(e, v)], p.1.number < (s.made ++ [(e, v)]).length := by
  constructor
  · refine List.pairwise_append.2 ⟨h.numbered, List.pairwise_singleton _ _, fun p hp q hq => ?_⟩
    rw [List.mem_singleton.1 hq, he]
    exact h.below p hp
  · intro p hp
    rw [List.length_append, List.length_singleton]
    rcases List.mem_append.1 hp with hp | hp
    · exact Nat.lt_succ_of_lt (h.below p hp)
    · rw [List.mem_singleton.1 hp, he]
      exact Nat.lt_succ_self _

theorem State.Sound.next (h : s.Sound) (hended : s.ended = false) (heffect : Effect s s') :
    s'.Sound := by
  cases heffect with
  | accepted e he hroom htable hcount hmade hran hends =>
    obtain ⟨hnumbered, hbelow⟩ := h.record (v := 0) he
    have hpending := pending_push htable hcount
    have hnew := h.not_made (v := 0) he
    refine ⟨by omega, hmade ▸ hnumbered, hmade ▸ hbelow, ?_, ?_, ?_, ?_, ?_, ?_⟩
    · rw [hpending]
      refine List.pairwise_append.2 ⟨h.ordered, List.pairwise_singleton _ _, fun r hr q hq => ?_⟩
      rw [List.mem_singleton.1 hq, he]
      exact h.below _ (h.pending_made r hr)
    · intro r hr
      rw [hmade, List.mem_append, List.mem_singleton]
      rw [hpending, List.mem_append, List.mem_singleton] at hr
      exact hr.imp (h.pending_made r) fun hr => congrArg (·, 0) hr
    · intro r hr
      rw [hmade]
      exact List.mem_append_left _ (h.ran_made r (hran ▸ hr))
    · rw [hpending, hran, ← List.append_assoc]
      refine List.nodup_append.2 ⟨h.once, List.nodup_singleton e, fun r hr q hq => ?_⟩
      rw [List.mem_singleton.1 hq]
      rintro rfl
      exact hnew ((List.mem_append.1 hr).elim (h.ran_made r) (h.pending_made r))
    · intro r hr hf
      rw [hmade, List.mem_append, List.mem_singleton] at hr
      rw [hpending, List.mem_append, List.mem_singleton, hran]
      rcases hr with hr | hr
      · exact (h.somewhere r hr hf).imp_left .inl
      · exact .inl (.inr (Prod.ext_iff.1 hr).1)
    · intro ht
      rw [hends, hended] at ht
      cases ht
  | refused e he htable hcount hmade hran hends =>
    obtain ⟨hnumbered, hbelow⟩ := h.record (v := -1) he
    have hpending := pending_congr htable hcount
    have hold : ∀ r ∈ s.made, r ∈ s'.made := fun r hr => hmade ▸ List.mem_append_left _ hr
    refine ⟨hcount ▸ h.fits, hmade ▸ hnumbered, hmade ▸ hbelow, hpending ▸ h.ordered,
      fun r hr => hold _ (h.pending_made r (hpending ▸ hr)),
      fun r hr => hold _ (h.ran_made r (hran ▸ hr)), ?_, fun r hr hf => ?_, fun ht => ?_⟩
    · rw [hpending, hran]
      exact h.once
    · rw [hmade, List.mem_append, List.mem_singleton] at hr
      rw [hpending, hran]
      rcases hr with hr | hr
      · exact h.somewhere r hr hf
      · exact absurd (Prod.ext_iff.1 hr).2 (show (0 : ℤ) ≠ -1 by decide)
    · rw [hends, hended] at ht
      cases ht
  | quiet htable hcount hmade hran hends =>
    have hpending := pending_congr htable hcount
    refine ⟨hcount ▸ h.fits, hmade ▸ h.numbered, hmade ▸ h.below, hpending ▸ h.ordered, ?_, ?_, ?_,
      ?_, hends⟩
    · rw [hpending, hmade]
      exact h.pending_made
    · rw [hran, hmade]
      exact h.ran_made
    · rw [hpending, hran]
      exact h.once
    · rw [hmade, hpending, hran]
      exact h.somewhere
  | called htable hcount hmade hran hends =>
    have hpending := pending_pop htable hcount
    have hfits := h.fits
    have hordered := h.ordered
    have hpendingmade := h.pending_made
    have honce := h.once
    rw [hpending] at hordered hpendingmade honce
    refine ⟨by omega, hmade ▸ h.numbered, hmade ▸ h.below, (List.pairwise_append.1 hordered).1,
      fun r hr => hmade ▸ hpendingmade r (List.mem_append_left _ hr), fun r hr => ?_, ?_,
      fun r hr hf => ?_, fun ht => ?_⟩
    · rw [hran, List.mem_append] at hr
      rw [hmade]
      exact hr.elim (h.ran_made r) fun hr => hpendingmade r (List.mem_append_right _ hr)
    · rw [hran, List.append_assoc]
      exact (List.perm_append_comm.append_left s.ran).nodup_iff.1 honce
    · have hwhere := h.somewhere r (hmade ▸ hr) hf
      rw [hpending, List.mem_append] at hwhere
      rw [hran, List.mem_append]
      tauto
    · rw [hends, hended] at ht
      cases ht
  | skipped htable hcount hmade hran hnull hends =>
    have hpending := pending_pop htable hcount
    have hfits := h.fits
    have hordered := h.ordered
    have hpendingmade := h.pending_made
    have honce := h.once
    rw [hpending] at hordered hpendingmade honce
    refine ⟨by omega, hmade ▸ h.numbered, hmade ▸ h.below, (List.pairwise_append.1 hordered).1,
      fun r hr => hmade ▸ hpendingmade r (List.mem_append_left _ hr), fun r hr => ?_, ?_,
      fun r hr hf => ?_, fun ht => ?_⟩
    · rw [hmade]
      exact h.ran_made r (hran ▸ hr)
    · rw [hran]
      rw [← List.append_assoc] at honce
      exact (List.nodup_append.1 honce).1
    · have hwhere := h.somewhere r (hmade ▸ hr) hf
      rw [hpending, List.mem_append, List.mem_singleton] at hwhere
      rw [hran]
      rcases hwhere with (hwhere | rfl) | hwhere
      · exact .inl hwhere
      · exact absurd hnull hf
      · exact .inr hwhere
    · rw [hends, hended] at ht
      cases ht

theorem sound_of_reachable (h : (exitSystem Fn).Reachable s) : s.Sound :=
  h.invariant (fun _ => State.Sound.init) fun _ _ _ hs _ hnext =>
    hs.next (effect_of_next hnext).1 (effect_of_next hnext).2

/-- The end of the table is the most recent registration in it. -/
theorem State.Sound.last (h : s.Sound) {n : ℕ} (hcount : s.count = n + 1) :
    (s.table n, 0) ∈ s.made ∧ s.table n ∉ s.ran ∧
      ∀ r, (r, 0) ∈ s.made → r.function ≠ none → r ∉ s.ran → r.number ≤ (s.table n).number := by
  have hpending : s.pending = (List.range n).map s.table ++ [s.table n] := by
    rw [State.pending, hcount, List.range_succ, List.map_append]
    rfl
  have hordered := h.ordered
  have honce := h.once
  have hmem : s.table n ∈ s.pending := hpending ▸ List.mem_append_right _ List.mem_cons_self
  refine ⟨h.pending_made _ hmem, fun hran => ?_, fun r hr hf hran => ?_⟩
  · exact (List.nodup_append.1 honce).2.2 _ hran _ hmem rfl
  · have hwhere := (h.somewhere r hr hf).resolve_right hran
    rw [hpending] at hwhere hordered
    rcases List.mem_append.1 hwhere with hold | hlast
    · exact ((List.pairwise_append.1 hordered).2.2 r hold _ List.mem_cons_self).le
    · rw [List.mem_singleton.1 hlast]

/-! ### The loop -/

theorem State.Sound.runs (h : s.Sound) (hended : s.ended = false) {p : Bool × List Frame}
    (hp : s.looping = some p) : (s.next .turn).isSome := by
  have hfits := h.fits
  rw [State.next, hended, hp]
  show (runAtexit s p.1 p.2).isSome
  rw [runAtexit]
  split
  · rfl
  · rw [if_pos (by omega)]
    dsimp only
    split <;> rfl

/-- The loop is left with an empty table only. -/
theorem count_of_left {p : Bool × List Frame} (hp : s.looping = some p) (h : s.next a = some s')
    (hleft : s'.frames = p.2) : s'.count = 0 := by
  have hlonger : ∀ (f : Frame) (l : List Frame), f :: l ≠ l := fun f l he =>
    absurd (congrArg List.length he) (Nat.succ_ne_self _)
  rw [State.next, hp] at h
  split at h
  · cases h
  · cases a with
    | turn =>
      replace h : runAtexit s p.1 p.2 = some s' := h
      rw [runAtexit] at h
      split at h
      · next hcount =>
        cases h
        exact hcount
      · split at h
        · dsimp only at h
          split at h
          · cases h
            exact absurd (congrArg List.length hleft) (by simp only [List.length_cons]; omega)
          · cases h
            exact absurd hleft (hlonger _ _)
        · cases h
    | _ => cases h

/-- In every state of every run no registration has run twice, none that was refused has run, and
where the table is empty, as it is when a loop is left and at the end, every function that was
registered has run. What is called next is the most recent registration of a function that has not
run. -/
theorem handlers_exact :
    (∀ s : State Fn, (exitSystem Fn).Reachable s →
      s.ran.Nodup ∧ (∀ e ∈ s.ran, (e, 0) ∈ s.made) ∧
      (∀ e v, (e, v) ∈ s.made → v ≠ 0 → e ∉ s.ran) ∧
      (s.count = 0 → ∀ e, (e, 0) ∈ s.made → e.function ≠ none → e ∈ s.ran) ∧
      (s.ended = true → s.count = 0) ∧
      (s.ended = false → ∀ p, s.looping = some p → (s.next .turn).isSome)) ∧
    ∀ (s s' : State Fn) (a : Act Fn), (exitSystem Fn).Reachable s → s.next a = some s' →
      (∀ p, s.looping = some p → s'.frames = p.2 → s'.count = 0) ∧
      (s'.ran = s.ran ∨ ∃ e, s'.ran = s.ran ++ [e] ∧ (e, 0) ∈ s.made ∧ e ∉ s.ran ∧
        ∀ r, (r, 0) ∈ s.made → r.function ≠ none → r ∉ s.ran → r.number ≤ e.number) := by
  constructor
  · intro s hs
    have h := sound_of_reachable hs
    refine ⟨(List.nodup_append.1 h.once).1, h.ran_made, fun e v hmem hv hran => ?_,
      fun hcount e hmem hf => ?_, h.ended, fun hended p => h.runs hended⟩
    · -- A number stands in the record once.
      have hdifferent : (s.made.map fun p => p.1.number).Nodup :=
        List.pairwise_map.2 (h.numbered.imp fun hlt => Nat.ne_of_lt hlt)
      have hpair := List.inj_on_of_nodup_map hdifferent hmem (h.ran_made e hran) rfl
      exact hv (Prod.ext_iff.1 hpair).2
    · have hpending : s.pending = [] := by
        rw [State.pending, hcount]
        rfl
      exact (h.somewhere e hmem hf).resolve_left fun hmem => by
        rw [hpending] at hmem
        exact absurd hmem List.not_mem_nil
  · intro s s' a hs hnext
    have h := sound_of_reachable hs
    refine ⟨fun p hp => count_of_left hp hnext, ?_⟩
    cases (effect_of_next hnext).2 with
    | called htable hcount hmade hran hends =>
      exact .inr ⟨_, hran, h.last hcount⟩
    | accepted _ _ _ _ _ _ hran _ | refused _ _ _ _ _ hran _ | quiet _ _ _ hran _
    | skipped _ _ _ hran _ _ => exact .inl hran

/-- Two functions are registered, and the one that runs first registers a third. -/
def nested : List (Act ℕ) :=
  [.cxaAtexit (some 1) 10, .atexit (some 2), .exit, .turn, .atexit (some 3), .ret, .turn, .ret,
    .turn, .ret, .turn]

/-- All three run once, the third before the first. -/
theorem handlers_exact_nested : ∃ s : State ℕ, (exitSystem ℕ).Reachable s ∧
    s.made = [(⟨some 1, 10, 0⟩, 0), (⟨some 2, 0, 1⟩, 0), (⟨some 3, 0, 2⟩, 0)] ∧
    s.ran.map AtExit.number = [1, 2, 0] ∧ s.ran.Nodup ∧ ∀ e, (e, 0) ∈ s.made → e ∈ s.ran := by
  obtain ⟨s, hs, hp⟩ := EventSystem.Reachable.exists_of_run (M := exitSystem ℕ)
    (s := ⟨fun _ => ⟨none, 0, 0⟩, 0, [], false, [], []⟩) nested
    (p := fun s => decide (s.ended = true ∧ s.ran.map AtExit.number = [1, 2, 0] ∧
      s.made = [(⟨some 1, 10, 0⟩, 0), (⟨some 2, 0, 1⟩, 0), (⟨some 3, 0, 2⟩, 0)]))
    ⟨rfl, rfl, rfl, rfl, rfl⟩ (by decide +kernel)
  obtain ⟨hended, hran, hmade⟩ := of_decide_eq_true hp
  obtain ⟨honce, -, -, hall, hempty, -⟩ := handlers_exact.1 s hs
  refine ⟨s, hs, hmade, hran, honce, fun e he => hall (hempty hended) e he ?_⟩
  have hfunction : ∀ p ∈ s.made, p.1.function ≠ none := by
    rw [hmade]
    decide
  exact hfunction _ he

/-- A null pointer is registered with success, and at the end it has not run. -/
theorem null_never_runs : ∃ (s : State Unit) (e : AtExit Unit),
    (exitSystem Unit).Reachable s ∧ s.ended = true ∧ (e, 0) ∈ s.made ∧ e ∉ s.ran := by
  obtain ⟨s, hs, hends⟩ := EventSystem.Reachable.exists_of_run (M := exitSystem Unit)
    (s := ⟨fun _ => ⟨none, 0, 0⟩, 0, [], false, [], []⟩)
    [.cxaAtexit none 0, .exit, .turn, .turn]
    (p := fun s => s.ended && s.made = [(⟨none, 0, 0⟩, 0)] && s.ran = [])
    ⟨rfl, rfl, rfl, rfl, rfl⟩ (by decide)
  simp only [Bool.and_eq_true, decide_eq_true_eq] at hends
  obtain ⟨⟨hended, hmade⟩, hran⟩ := hends
  exact ⟨s, ⟨none, 0, 0⟩, hs, hended, hmade ▸ List.mem_cons_self, hran ▸ List.not_mem_nil⟩

end Atexit

end StarOS
