import Mathlib.Data.List.Infix
import StarOS.Lib.EventSystem

/-!
# Runs with the steps they took

Some properties of a state are about how it came to be: a thing is held because it was once handed
out. A trace is a run together with its steps, each with the state it was taken in, so that "once"
is membership in a list.

## Main definitions

* `EventSystem.Trace`
* `EventSystem.Once` — a condition on a step was met by some step of a trace
* `EventSystem.Since` — something began in a step of a trace and has not ended
* `EventSystem.start` — the state a trace starts in
* `EventSystem.stepsFrom` — the steps of a computed run

## Main results

* `EventSystem.Trace.invariant` — the invariant rule, for invariants that mention the trace
* `EventSystem.Trace.reach`, `EventSystem.Reach.trace` — the states of traces are those of runs
* `EventSystem.Trace.of_mem` — the states in a trace are reached too
-/

namespace EventSystem

variable {σ ε α : Type*} {M : EventSystem σ ε} {ok : σ → ε → Prop} {tr tr' : List (σ × ε)}
  {s s' : σ} {e : ε}

/-- The runs each of whose steps met `ok`, with their steps, oldest first: the state a step was
taken in, and its event. -/
inductive Trace (M : EventSystem σ ε) (ok : σ → ε → Prop) : List (σ × ε) → σ → Prop
  | init {s : σ} : M.init s → Trace M ok [] s
  | step {tr : List (σ × ε)} {s s' : σ} {e : ε} : Trace M ok tr s → ok s e →
      M.next s e = some s' → Trace M ok (tr ++ [(s, e)]) s'

/-- Some step met `P`. -/
def Once (tr : List (σ × ε)) (P : σ → ε → Prop) : Prop := ∃ x ∈ tr, P x.1 x.2

/-- The state a trace starts in. -/
def start (tr : List (σ × ε)) (s : σ) : σ := (tr.head?.map Prod.fst).getD s

theorem start_snoc : start (tr ++ [(s, e)]) s' = start tr s := by
  cases tr <;> rfl

/-! ### What happened once -/

theorem Once.snoc {P : σ → ε → Prop} (h : Once tr P) : Once (tr ++ [(s, e)]) P :=
  let ⟨x, hx, hP⟩ := h
  ⟨x, List.mem_append_left _ hx, hP⟩

theorem once_now {P : σ → ε → Prop} (h : P s e) : Once (tr ++ [(s, e)]) P :=
  ⟨(s, e), by simp, h⟩

/-- What has happened by the end of a step happened before it or in it. -/
theorem once_snoc {P : σ → ε → Prop} : Once (tr ++ [(s, e)]) P ↔ Once tr P ∨ P s e := by
  constructor
  · rintro ⟨x, hx, hP⟩
    obtain hx | hx := List.mem_append.mp hx
    · exact .inl ⟨x, hx, hP⟩
    · obtain rfl := List.mem_singleton.mp hx
      exact .inr hP
  · rintro (h | h)
    · exact h.snoc
    · exact once_now h

theorem Once.of_initial {P : σ → ε → Prop} (hpre : tr' <+: tr) (h : Once tr' P) : Once tr P :=
  let ⟨x, hx, hP⟩ := h
  ⟨x, hpre.subset hx, hP⟩

/-! ### What has been so since -/

/-- Some step began it, and none has ended it since. -/
def Since (tr : List (σ × ε)) (begins ends : σ → ε → Prop) : Prop :=
  ∃ before x after, tr = before ++ x :: after ∧ begins x.1 x.2 ∧ ∀ y ∈ after, ¬ ends y.1 y.2

section Since

variable {begins ends : σ → ε → Prop}

theorem not_since_nil : ¬ Since ([] : List (σ × ε)) begins ends := by
  rintro ⟨before, x, after, h, -⟩
  simp at h

/-- It began in the last step, or it has been so before and has not ended in it. -/
theorem since_snoc :
    Since (tr ++ [(s, e)]) begins ends ↔ begins s e ∨ Since tr begins ends ∧ ¬ ends s e := by
  constructor
  · rintro ⟨before, x, after, htr, hx, hafter⟩
    rcases List.eq_nil_or_concat after with rfl | ⟨after, last, rfl⟩
    · obtain ⟨-, heq⟩ := List.append_inj' htr rfl
      obtain rfl := List.singleton_inj.mp heq
      exact .inl hx
    · rw [List.concat_eq_append, ← List.cons_append, ← List.append_assoc] at htr
      obtain ⟨rfl, heq⟩ := List.append_inj' htr rfl
      obtain rfl := List.singleton_inj.mp heq
      exact .inr ⟨⟨before, x, after, rfl, hx, fun y hy => hafter y (by simp [hy])⟩,
        hafter (s, e) (by simp)⟩
  · rintro (h | ⟨⟨before, x, after, rfl, hx, hafter⟩, hno⟩)
    · exact ⟨tr, (s, e), [], rfl, h, fun y hy => absurd hy List.not_mem_nil⟩
    · refine ⟨before, x, after ++ [(s, e)], by simp, hx, fun y hy => ?_⟩
      obtain hy | hy := List.mem_append.mp hy
      · exact hafter y hy
      · rw [List.mem_singleton.mp hy]
        exact hno

/-- What has ended and not begun again. -/
theorem not_since_of_ended {steps : List (σ × ε)} (hbegins : ¬ begins s e) (hends : ends s e)
    (hno : ∀ y ∈ steps, ¬ begins y.1 y.2) : ¬ Since (tr ++ (s, e) :: steps) begins ends := by
  induction steps using List.reverseRecOn with
  | nil =>
    rw [since_snoc]
    rintro (h | h)
    · exact hbegins h
    · exact h.2 hends
  | append_singleton steps x ih =>
    obtain ⟨s', e'⟩ := x
    rw [← List.cons_append, ← List.append_assoc, since_snoc]
    rintro (h | h)
    · exact hno (s', e') (by simp) h
    · exact ih (fun y hy => hno y (by simp [hy])) h.1

/-- What began in one of the steps, and has not ended in those after it. -/
theorem since_of_getElem {k : ℕ} (hk : k < tr.length) (hbegins : begins tr[k].1 tr[k].2)
    (hno : ∀ y ∈ tr.drop (k + 1), ¬ ends y.1 y.2) : Since tr begins ends :=
  ⟨tr.take k, tr[k], tr.drop (k + 1),
    by rw [← List.drop_eq_getElem_cons hk, List.take_append_drop], hbegins, hno⟩

theorem not_since_of_getElem {k : ℕ} (hk : k < tr.length) (hbegins : ¬ begins tr[k].1 tr[k].2)
    (hends : ends tr[k].1 tr[k].2) (hno : ∀ y ∈ tr.drop (k + 1), ¬ begins y.1 y.2) :
    ¬ Since tr begins ends := by
  have h : ¬ Since (tr.take k ++ (tr[k].1, tr[k].2) :: tr.drop (k + 1)) begins ends :=
    not_since_of_ended hbegins hends hno
  rwa [Prod.eta, ← List.drop_eq_getElem_cons hk, List.take_append_drop] at h

end Since

/-! ### The invariant rule -/

/-- **The invariant rule**, for invariants of a state and of the steps that led to it. -/
theorem Trace.invariant {I : List (σ × ε) → σ → Prop} (h₀ : ∀ s, M.init s → I [] s)
    (hstep : ∀ tr s e s', I tr s → ok s e → M.next s e = some s' → I (tr ++ [(s, e)]) s')
    (h : M.Trace ok tr s) : I tr s := by
  induction h with
  | init hs => exact h₀ _ hs
  | step _ hok hn ih => exact hstep _ _ _ _ ih hok hn

/-- The same for an invariant whose step needs a second one, already established. -/
theorem Trace.invariant_of {I J : List (σ × ε) → σ → Prop} (hJ : ∀ tr s, M.Trace ok tr s → J tr s)
    (h₀ : ∀ s, M.init s → I [] s)
    (hstep : ∀ tr s e s', J tr s → I tr s → ok s e → M.next s e = some s' →
      I (tr ++ [(s, e)]) s') (h : M.Trace ok tr s) : I tr s := by
  induction h with
  | init hs => exact h₀ _ hs
  | step ht hok hn ih => exact hstep _ _ _ _ (hJ _ _ ht) ih hok hn

/-- What a step of a trace brings about is so until a step `D`. -/
theorem Trace.holds_until {P : σ → Prop} {D : σ → ε → Prop}
    (hkeep : ∀ tr s e s', M.Trace ok tr s → ok s e → M.next s e = some s' → P s → P s' ∨ D s e)
    (h : M.Trace ok tr s) {before after : List (σ × ε)} {x : σ × ε}
    (htr : tr = before ++ x :: after)
    (hx : ∀ s', M.Trace ok before x.1 → ok x.1 x.2 → M.next x.1 x.2 = some s' → P s') :
    P s ∨ ∃ y ∈ after, D y.1 y.2 := by
  induction h generalizing after with
  | init => simp at htr
  | @step tr s e s' ht hok hn ih =>
    rcases List.eq_nil_or_concat after with rfl | ⟨after, last, rfl⟩
    · obtain ⟨rfl, heq⟩ := List.append_inj' htr rfl
      obtain rfl := List.singleton_inj.mp heq
      exact .inl (hx _ ht hok hn)
    · rw [List.concat_eq_append] at htr ⊢
      rw [← List.cons_append, ← List.append_assoc] at htr
      obtain ⟨htr', heq⟩ := List.append_inj' htr rfl
      obtain rfl := List.singleton_inj.mp heq
      obtain hP | ⟨y, hy, hD⟩ := ih htr'
      · exact (hkeep _ _ _ _ ht hok hn hP).imp_right fun hD => ⟨(_, _), by simp, hD⟩
      · exact .inr ⟨y, List.mem_append_left _ hy, hD⟩

/-! ### Traces and runs -/

theorem Trace.reach (h : M.Trace ok tr s) : M.Reach ok s := by
  induction h with
  | init hs => exact .init hs
  | step _ hok hn ih => exact .step ih hok hn

theorem Reach.trace (h : M.Reach ok s) : ∃ tr, M.Trace ok tr s := by
  induction h with
  | init hs => exact ⟨_, .init hs⟩
  | step _ hok hn ih =>
    obtain ⟨tr, ht⟩ := ih
    exact ⟨_, ht.step hok hn⟩

theorem Trace.mono {ok' : σ → ε → Prop} (hok : ∀ s e, ok s e → ok' s e) (h : M.Trace ok tr s) :
    M.Trace ok' tr s := by
  induction h with
  | init hs => exact .init hs
  | step _ ho hn ih => exact .step ih (hok _ _ ho) hn

/-- A state in a trace is reached by the steps before it. -/
theorem Trace.of_mem (h : M.Trace ok tr s) {x : σ × ε} (hx : x ∈ tr) :
    ∃ tr', tr' <+: tr ∧ M.Trace ok tr' x.1 := by
  induction h with
  | init => cases hx
  | step ht _ _ ih =>
    obtain hx | hx := List.mem_append.mp hx
    · obtain ⟨tr', hpre, ht'⟩ := ih hx
      exact ⟨tr', hpre.trans (List.prefix_append ..), ht'⟩
    · obtain rfl := List.mem_singleton.mp hx
      exact ⟨_, List.prefix_append .., ht⟩

theorem Trace.of_append {before after : List (σ × ε)} {x : σ × ε}
    (h : M.Trace ok (before ++ x :: after) s) : M.Trace ok before x.1 := by
  generalize htr : before ++ x :: after = tr at h
  induction h generalizing after with
  | init => simp at htr
  | @step tr s e s' ht hok hn ih =>
    rcases List.eq_nil_or_concat after with rfl | ⟨after, last, rfl⟩
    · obtain ⟨rfl, heq⟩ := List.append_inj' htr rfl
      obtain rfl := List.singleton_inj.mp heq
      exact ht
    · rw [List.concat_eq_append, ← List.cons_append, ← List.append_assoc] at htr
      exact ih (List.append_inj' htr rfl).1

/-- The steps a list of events takes. -/
def stepsFrom (M : EventSystem σ ε) (s : σ) : List ε → List (σ × ε)
  | [] => []
  | e :: es => (s, e) :: ((M.next s e).map fun s' => M.stepsFrom s' es).getD []

theorem Trace.of_runIf {b : σ → ε → Bool} (hb : ∀ s e, M.Reach ok s → b s e = true → ok s e)
    {es : List ε} (hs : M.Trace ok tr s) (h : M.runIf b s es = some s') :
    M.Trace ok (tr ++ M.stepsFrom s es) s' := by
  induction es generalizing s tr with
  | nil =>
    simp only [runIf, Option.some.injEq] at h
    simpa [stepsFrom, h] using hs
  | cons e es ih =>
    simp only [runIf] at h
    split at h
    · next hok =>
      obtain ⟨s₁, hn, hrest⟩ := Option.bind_eq_some_iff.mp h
      have ht := ih (hs.step (hb _ _ hs.reach hok) hn) hrest
      rw [List.append_assoc] at ht
      simpa [stepsFrom, hn] using ht
    · simp at h

/-- A computed run has the steps its events take. -/
theorem Trace.exists_of_runIf (ok : σ → ε → Prop) {b : σ → ε → Bool}
    (hb : ∀ s e, b s e = true → ok s e) (es : List ε) {p : σ → Bool}
    (hs : M.init s) (h : (M.runIf b s es).any p = true) :
    ∃ s', M.Trace ok (M.stepsFrom s es) s' ∧ p s' = true := by
  obtain ⟨s', hrun, hp⟩ := (Option.any_eq_true _ _).mp h
  have ht := (Trace.init hs).of_runIf (fun s e _ => hb s e) hrun
  rw [List.nil_append] at ht
  exact ⟨s', ht, hp⟩

end EventSystem
