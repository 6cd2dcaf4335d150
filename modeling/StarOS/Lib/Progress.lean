import StarOS.Lib.Trace

/-!
# Progress within a bounded number of steps

A path is a run from any state, with its steps. Some of the steps are of a kind that counts. If
each of those either does what is waited for or brings a measure of the wait down, and no other
step brings the measure up, then a path with more steps that count than the measure says does what
is waited for. What the steps have to meet for that, they have to meet while it is waited for only.

## Main definitions

* `EventSystem.Path`
* `EventSystem.Meanwhile` — a condition met by the steps of a path while something is waited for

## Main results

* `EventSystem.Path.invariant` — what steps keep, paths keep
* `EventSystem.Path.progress`
* `EventSystem.Path.append`, `EventSystem.Path.split` — paths are put together and taken apart
* `EventSystem.Trace.append` — a run goes on along a path
-/

namespace EventSystem

variable {σ ε : Type*} {M : EventSystem σ ε} {tr tr' : List (σ × ε)} {s s' s'' : σ} {e : ε}

/-- The paths from one state to another, with their steps, oldest first: the state a step was
taken in, and its event. -/
inductive Path (M : EventSystem σ ε) : σ → List (σ × ε) → σ → Prop
  | nil {s : σ} : Path M s [] s
  | cons {tr : List (σ × ε)} {s s₁ s' : σ} {e : ε} : M.next s e = some s₁ → Path M s₁ tr s' →
      Path M s ((s, e) :: tr) s'

theorem Path.append (h : M.Path s tr s') (h' : M.Path s' tr' s'') : M.Path s (tr ++ tr') s'' := by
  induction h with
  | nil => exact h'
  | cons hn _ ih => exact .cons hn (ih h')

theorem Path.split (h : M.Path s (tr ++ tr') s'') : ∃ s', M.Path s tr s' ∧ M.Path s' tr' s'' := by
  induction tr generalizing s with
  | nil => exact ⟨s, .nil, h⟩
  | cons x tr ih =>
    rw [List.cons_append] at h
    cases h with
    | cons hn hrest =>
      obtain ⟨s', h, h'⟩ := ih hrest
      exact ⟨s', .cons hn h, h'⟩

/-- A path passes through the states its steps were taken in. -/
theorem Path.of_mem (h : M.Path s tr s') {x : σ × ε} (hx : x ∈ tr) :
    ∃ before after, tr = before ++ x :: after ∧ M.Path s before x.1 ∧
      M.Path x.1 (x :: after) s' := by
  obtain ⟨before, after, rfl⟩ := List.append_of_mem hx
  obtain ⟨s₁, hbefore, hafter⟩ := h.split
  cases hafter with
  | cons hn hrest => exact ⟨before, after, rfl, hbefore, .cons hn hrest⟩

/-- A run goes on along a path. -/
theorem Trace.append {ok : σ → ε → Prop} (hok : ∀ s e, ok s e) (h : M.Trace ok tr s)
    (h' : M.Path s tr' s') : M.Trace ok (tr ++ tr') s' := by
  induction h' generalizing tr with
  | nil => rwa [List.append_nil]
  | @cons tr' s s₁ s' e hn _ ih =>
    rw [show tr ++ (s, e) :: tr' = tr ++ [(s, e)] ++ tr' by simp]
    exact ih (h.step (hok s e) hn)

theorem Reachable.path (hr : M.Reachable s) (h : M.Path s tr s') : M.Reachable s' := by
  induction h with
  | nil => exact hr
  | cons hn _ ih => exact ih (.step hr trivial hn)

/-- **What steps keep, paths keep.** -/
theorem Path.invariant {I : σ → Prop} (hstep : ∀ s e s', I s → M.next s e = some s' → I s')
    (h : M.Path s tr s') (hs : I s) : I s' := by
  induction h with
  | nil => exact hs
  | cons hn _ ih => exact ih (hstep _ _ _ hs hn)

/-- The same for an invariant that only steps meeting a condition keep. -/
theorem Path.invariant_of {I : σ → Prop} {ok : σ × ε → Prop}
    (hstep : ∀ s e s', I s → ok (s, e) → M.next s e = some s' → I s') (h : M.Path s tr s')
    (hs : I s) (hok : ∀ x ∈ tr, ok x) : I s' := by
  induction h with
  | nil => exact hs
  | cons hn _ ih =>
    obtain ⟨hx, hrest⟩ := List.forall_mem_cons.mp hok
    exact ih (hstep _ _ _ hs hx hn) hrest

/-- Each step meets a condition, up to the first that does what is waited for. -/
def Meanwhile (goal ok : σ × ε → Prop) (tr : List (σ × ε)) : Prop :=
  ∀ before x after, tr = before ++ x :: after → (∀ y ∈ before, ¬ goal y) → ok x

namespace Meanwhile

variable {goal ok : σ × ε → Prop} {x : σ × ε}

theorem of_forall (h : ∀ x ∈ tr, ok x) : Meanwhile goal ok tr := by
  rintro before x after rfl -
  exact h x (List.mem_append_right _ List.mem_cons_self)

theorem cons_iff : Meanwhile goal ok (x :: tr) ↔ ok x ∧ (¬ goal x → Meanwhile goal ok tr) := by
  constructor
  · refine fun h => ⟨h [] x tr rfl nofun, fun hx => ?_⟩
    rintro before y after rfl hbefore
    exact h (x :: before) y after rfl (List.forall_mem_cons.mpr ⟨hx, hbefore⟩)
  · rintro ⟨hok, hrest⟩ before y after heq hbefore
    cases before with
    | nil =>
      obtain ⟨rfl, -⟩ := List.cons.inj heq
      exact hok
    | cons z before =>
      obtain ⟨rfl, rfl⟩ := List.cons.inj heq
      obtain ⟨hx, hbefore⟩ := List.forall_mem_cons.mp hbefore
      exact hrest hx before y after rfl hbefore

end Meanwhile

/-- **Progress**: a path with more steps that count than the measure at its start does what is
waited for, if each of them either does it or brings the measure down, and no other brings it
up. -/
theorem Path.progress {I : σ → Prop} {ok goal : σ × ε → Prop} {counts : σ × ε → Bool} {μ : σ → ℕ}
    (hI : ∀ s e s', I s → M.next s e = some s' → I s')
    (hstay : ∀ s e s', I s → M.next s e = some s' → counts (s, e) = false → μ s' ≤ μ s)
    (hdown : ∀ s e s', I s → M.next s e = some s' → counts (s, e) = true → ok (s, e) →
      goal (s, e) ∨ μ s' < μ s)
    (h : M.Path s tr s') (hs : I s) (hok : Meanwhile goal (fun x => counts x = true → ok x) tr)
    (hlen : μ s < tr.countP counts) : ∃ x ∈ tr, goal x := by
  induction h with
  | nil => exact absurd hlen (Nat.not_lt_zero _)
  | @cons tr s s₁ s' e hn _ ih =>
    by_cases hgoal : goal (s, e)
    · exact ⟨(s, e), List.mem_cons_self, hgoal⟩
    · -- what is waited for comes later
      have hlater : μ s₁ < tr.countP counts → ∃ x ∈ (s, e) :: tr, goal x := fun hlt =>
        let ⟨x, hx, hgoal⟩ := ih (hI _ _ _ hs hn) ((Meanwhile.cons_iff.mp hok).2 hgoal) hlt
        ⟨x, List.mem_cons_of_mem _ hx, hgoal⟩
      by_cases hc : counts (s, e) = true
      · rw [List.countP_cons_of_pos hc] at hlen
        have hlt := (hdown _ _ _ hs hn hc ((Meanwhile.cons_iff.mp hok).1 hc)).resolve_left hgoal
        exact hlater (by omega)
      · rw [List.countP_cons_of_neg hc] at hlen
        have hle := hstay _ _ _ hs hn (Bool.not_eq_true _ ▸ hc)
        exact hlater (by omega)

/-! ### Paths that are computed -/

instance decidableMeanwhile {goal ok : σ × ε → Prop} [DecidablePred goal] [DecidablePred ok] :
    (tr : List (σ × ε)) → Decidable (Meanwhile goal ok tr)
  | [] => isTrue (.of_forall nofun)
  | _ :: tr =>
    haveI : Decidable (Meanwhile goal ok tr) := decidableMeanwhile tr
    decidable_of_iff _ Meanwhile.cons_iff.symm

/-- A computed run is a path. -/
theorem Path.of_run {es : List ε} (h : M.run s es = some s') : M.Path s (M.stepsFrom s es) s' := by
  induction es generalizing s with
  | nil =>
    obtain rfl : s = s' := Option.some.inj h
    exact .nil
  | cons e es ih =>
    obtain ⟨s₁, hn, hrest⟩ := Option.bind_eq_some_iff.mp h
    rw [stepsFrom, hn]
    exact .cons hn (ih hrest)

end EventSystem
