import Mathlib.Data.Option.Basic
import Mathlib.Tactic.Common

/-!
# Event systems and their guarded runs

A system is given by its initial states and by the effect of one event on one state. An event
that is not enabled has no effect at all: `next` answers `none`.

Every statement about "all runs" is a statement about `Reach`, the states reached from an initial
state by events each of which met a guard. The guard is there for properties that hold only of
runs that avoid something: `Reach ok s` is a run all of whose steps met `ok`, and `Reachable s` is
a run with no condition on it.

## Main definitions

* `EventSystem`, `EventSystem.Reach`, `EventSystem.Reachable`
* `EventSystem.runIf` — a run computed from a list of events, checking the guard as it goes

## Main results

* `EventSystem.Reach.invariant` — an invariant kept by every guarded step holds in every state
  reached
* `EventSystem.Reach.of_runIf` — a computed run is a run
* `EventSystem.Reach.simulate` — runs carried along a simulation
-/

/-- A system: where it may start, and what each event does. -/
structure EventSystem (σ ε : Type*) where
  /-- The states a run may start in. -/
  init : σ → Prop
  /-- The effect of one event, or `none` where the event cannot happen. -/
  next : σ → ε → Option σ

namespace EventSystem

variable {σ ε τ δ : Type*} {M : EventSystem σ ε} {ok ok' : σ → ε → Prop}

/-- The states reached by runs each of whose steps met `ok`, a condition on the event and on the
state it happens in. -/
inductive Reach (M : EventSystem σ ε) (ok : σ → ε → Prop) : σ → Prop
  | init {s : σ} : M.init s → Reach M ok s
  | step {s s' : σ} {e : ε} : Reach M ok s → ok s e → M.next s e = some s' → Reach M ok s'

/-- The states reached by any run. -/
abbrev Reachable (M : EventSystem σ ε) (s : σ) : Prop := M.Reach (fun _ _ => True) s

/-- **The invariant rule.** -/
theorem Reach.invariant {I : σ → Prop} (h₀ : ∀ s, M.init s → I s)
    (hstep : ∀ s e s', I s → ok s e → M.next s e = some s' → I s') {s : σ} (h : M.Reach ok s) :
    I s := by
  induction h with
  | init hs => exact h₀ _ hs
  | step _ hok hn ih => exact hstep _ _ _ ih hok hn

/-- The invariant rule for an invariant whose step needs a second one, already established. -/
theorem Reach.invariant_of {I J : σ → Prop} (hJ : ∀ s, M.Reach ok s → J s)
    (h₀ : ∀ s, M.init s → I s)
    (hstep : ∀ s e s', J s → I s → ok s e → M.next s e = some s' → I s') {s : σ}
    (h : M.Reach ok s) : I s := by
  induction h with
  | init hs => exact h₀ _ hs
  | step hr hok hn ih => exact hstep _ _ _ (hJ _ hr) ih hok hn

/-- A run under a guard is a run under any weaker guard. -/
theorem Reach.mono (hok : ∀ s e, ok s e → ok' s e) {s : σ} (h : M.Reach ok s) :
    M.Reach ok' s := by
  induction h with
  | init hs => exact .init hs
  | step _ ho hn ih => exact .step ih (hok _ _ ho) hn

/-! ### Runs that are computed -/

/-- The state a list of events leads to, or `none` if one of them is not enabled or does not meet
the guard. -/
def runIf (M : EventSystem σ ε) (ok : σ → ε → Bool) (s : σ) : List ε → Option σ
  | [] => some s
  | e :: es => if ok s e then (M.next s e).bind fun s' => M.runIf ok s' es else none

theorem Reach.of_runIf {b : σ → ε → Bool} (hb : ∀ s e, M.Reach ok s → b s e = true → ok s e)
    {s s' : σ} {es : List ε} (hs : M.Reach ok s) (h : M.runIf b s es = some s') :
    M.Reach ok s' := by
  induction es generalizing s with
  | nil => simp only [runIf, Option.some.injEq] at h; exact h ▸ hs
  | cons e es ih =>
    simp only [runIf] at h
    split at h
    · next hok =>
      obtain ⟨s₁, hn, hrest⟩ := Option.bind_eq_some_iff.mp h
      exact ih (.step hs (hb _ _ hs hok) hn) hrest
    · simp at h

/-- A computed run that ends in a state a test accepts. -/
theorem Reach.exists_of_runIf {b : σ → ε → Bool} (hb : ∀ s e, b s e = true → ok s e) {s : σ}
    (es : List ε) {p : σ → Bool} (hs : M.init s) (h : (M.runIf b s es).any p = true) :
    ∃ s', M.Reach ok s' ∧ p s' = true := by
  obtain ⟨s', hrun, hp⟩ := (Option.any_eq_true _ _).mp h
  exact ⟨s', .of_runIf (fun s e _ => hb s e) (.init hs) hrun, hp⟩

/-- The same with no guard to check. -/
def run (M : EventSystem σ ε) (s : σ) (es : List ε) : Option σ := M.runIf (fun _ _ => true) s es

theorem Reachable.of_run {s s' : σ} (es : List ε) (hs : M.init s) (h : M.run s es = some s') :
    M.Reachable s' :=
  Reach.of_runIf (fun _ _ _ _ => trivial) (.init hs) h

theorem Reachable.exists_of_run {s : σ} (es : List ε) {p : σ → Bool} (hs : M.init s)
    (h : (M.run s es).any p = true) : ∃ s', M.Reachable s' ∧ p s' = true :=
  Reach.exists_of_runIf (fun _ _ _ => trivial) es hs h

/-! ### Simulation -/

/-- **Runs are carried along a simulation**: each guarded step of `M` is matched, through `f`, by
a run of `N` from the image of its state. -/
theorem Reach.simulate {N : EventSystem τ δ} {okN : τ → δ → Prop} (f : σ → τ)
    (h₀ : ∀ s, M.init s → N.Reach okN (f s))
    (hstep : ∀ s e s', M.Reach ok s → ok s e → M.next s e = some s' → N.Reach okN (f s) →
      N.Reach okN (f s')) {s : σ} (h : M.Reach ok s) : N.Reach okN (f s) := by
  induction h with
  | init hs => exact h₀ _ hs
  | step hr hok hn ih => exact hstep _ _ _ hr hok hn ih

end EventSystem
