import Mathlib.Algebra.Group.Int.Defs
import Mathlib.Algebra.Group.Nat.Defs
import Mathlib.Algebra.Order.Group.Nat
import Mathlib.Tactic.Common

/-!
# Checked code and its weakest preconditions

Code that works on a state, may give up with an error, and must not do three things: let an
integer overflow, reach outside an array, or go on for ever. `Checked` is such code. Each of the
three is a way to stop that is not an error, so "it never happens" is a statement about the code.

`wp T x Q F s` says of `x` run from `s` that if it comes to a value then `Q` holds of the value and
of the state it leaves, that if it gives up then `F` holds of the error and of the state, and that
it does one of the three things only if `T`. With `T` false they do not happen; with `T` true
nothing is said of the runs where one does. The rules below compute it along the code, so that a
function is shown correct by rewriting with them and proving what is left about numbers and lists.

## Main definitions

* `Checked`, `Checked.fail`, `Checked.add`, `Checked.index`, `Checked.loop`
* `Checked.wp`
* `Checked.calls`, `Checked.Collects` — what an iterator yields

## Main results

* `Checked.wp_bind` and the other equations of `wp`
* `Checked.wp_loop` — a loop whose body keeps an invariant and brings a measure down ends
* `Checked.finite` — an iterator whose items each bring a measure down yields finitely many
-/

/-- Why a run stopped without coming to a value. -/
inductive Stop (ε : Type)
  /-- The code gave up, with an error it means to report. -/
  | fail (e : ε)
  /-- An integer did not fit its type. -/
  | overflow
  /-- An index was outside its array. -/
  | bounds
  /-- A loop did not end in the turns it was given. -/
  | unending
  deriving DecidableEq, Repr

/-- Code on a state `σ` that may give up with an `ε`. Giving up leaves the state as it is then. -/
abbrev Checked (σ ε α : Type) := EStateM (Stop ε) σ α

namespace Checked

variable {σ ε α β : Type}

/-- Give up. -/
def fail (e : ε) : Checked σ ε α := throw (.fail e)

/-- The value of `o`, or give up with `e`. -/
def ofOption (e : ε) : Option α → Checked σ ε α
  | some a => pure a
  | none => fail e

/-- Give up with `e` unless `p`. -/
def require (p : Prop) [Decidable p] (e : ε) : Checked σ ε Unit := if p then pure () else fail e

/-- Addition of `w`-bit integers. -/
def add (w a b : ℕ) : Checked σ ε ℕ := if a + b < 2 ^ w then pure (a + b) else throw .overflow

/-- Addition of `w`-bit integers for code that asks whether it overflows. -/
def checkedAdd (w a b : ℕ) : Option ℕ := if a + b < 2 ^ w then some (a + b) else none

/-- Multiplication for code that asks whether it overflows. -/
def checkedMul (w a b : ℕ) : Option ℕ := if a * b < 2 ^ w then some (a * b) else none

/-- Subtraction for code that asks whether it goes below zero. -/
def checkedSub (a b : ℕ) : Option ℕ := if b ≤ a then some (a - b) else none

/-- Subtraction of unsigned integers. -/
def sub (a b : ℕ) : Checked σ ε ℕ := if b ≤ a then pure (a - b) else throw .overflow

/-- Multiplication of `w`-bit integers. -/
def mul (w a b : ℕ) : Checked σ ε ℕ := if a * b < 2 ^ w then pure (a * b) else throw .overflow

/-- Division of unsigned integers. There is no quotient by zero. -/
def div (a b : ℕ) : Checked σ ε ℕ := if b = 0 then throw .overflow else pure (a / b)

/-- Division rounded up. -/
def divCeil (w a b : ℕ) : Checked σ ε ℕ := do
  let q ← div a b
  if a % b > 0 then add w q 1 else pure q

/-- Whether a build checks its integers. One that does stops at an integer that does not fit; in one
that does not the integer loses its high bits. -/
inductive OverflowChecks
  | on
  | off
  deriving DecidableEq, Repr

/-- An integer brought into `w` bits. -/
def OverflowChecks.fit (o : OverflowChecks) (w : ℕ) (n : ℤ) : Checked σ ε ℕ :=
  if 0 ≤ n ∧ n < 2 ^ w then pure n.toNat
  else if o = .on then throw .overflow
  else pure (n % 2 ^ w).toNat

/-- The three operations as a build makes them. -/
def OverflowChecks.add (o : OverflowChecks) (w a b : ℕ) : Checked σ ε ℕ := o.fit w (a + b)
def OverflowChecks.sub (o : OverflowChecks) (w a b : ℕ) : Checked σ ε ℕ := o.fit w (a - b)
def OverflowChecks.mul (o : OverflowChecks) (w a b : ℕ) : Checked σ ε ℕ := o.fit w (a * b)

/-- An entry of an array. -/
def index (xs : List α) (i : ℕ) : Checked σ ε α :=
  match xs[i]? with
  | some a => pure a
  | none => throw .bounds

/-- Code that has no state of its own, run where there is one. -/
def lift (x : Checked Unit ε α) : Checked σ ε α := fun s =>
  match x () with
  | .ok a _ => .ok a s
  | .error e _ => .error e s

/-- Code that never gives up, where giving up is possible. -/
def total (x : Checked σ Empty α) : Checked σ ε α := fun s =>
  match x s with
  | .ok a s => .ok a s
  | .error .overflow s => .error .overflow s
  | .error .bounds s => .error .bounds s
  | .error .unending s => .error .unending s

/-- Code whose error is another one. -/
def mapErr {ε' : Type} (f : ε → ε') (x : Checked σ ε α) : Checked σ ε' α := fun s =>
  match x s with
  | .ok a s => .ok a s
  | .error (.fail e) s => .error (.fail (f e)) s
  | .error .overflow s => .error .overflow s
  | .error .bounds s => .error .bounds s
  | .error .unending s => .error .unending s

/-- Code that may give up, for a caller that goes on without the value. -/
def attempt (x : Checked σ Unit α) : Checked σ ε (Option α) := fun s =>
  match x s with
  | .ok a s => .ok (some a) s
  | .error (.fail _) s => .ok none s
  | .error .overflow s => .error .overflow s
  | .error .bounds s => .error .bounds s
  | .error .unending s => .error .unending s

/-- Code on a state of its own, run where there is another. -/
def on {τ : Type} (t : τ) (x : Checked τ ε α) : Checked σ ε α := fun s =>
  match x t with
  | .ok a _ => .ok a s
  | .error e _ => .error e s

/-- An entry of an array is written. -/
def store {n : ℕ} (xs : Vector α n) (i : ℕ) (a : α) : Checked σ ε (Vector α n) :=
  if h : i < n then pure (xs.set i a h) else throw .bounds

/-- The code comes to a value or gives up: nothing overflows, no index is out of range, and every
loop ends. -/
def Answers (x : Checked σ ε α) (s : σ) : Prop :=
  (∃ a s', x s = .ok a s') ∨ ∃ e s', x s = .error (.fail e) s'

/-- A loop of at most `n` turns, with a variable of its own. The body answers the variable's next
value to go round again. -/
def loop (body : β → Checked σ ε (β ⊕ α)) : ℕ → β → Checked σ ε α
  | 0, _ => throw .unending
  | n + 1, b => do
    match ← body b with
    | .inr a => return a
    | .inl b => loop body n b

/-- The precondition of `x` for `Q` of its value and `F` of its error, where `T` is what is known
when a run stops. -/
def wp (T : Prop) (x : Checked σ ε α) (Q : α → σ → Prop) (F : ε → σ → Prop) (s : σ) : Prop :=
  match x s with
  | .ok a s' => Q a s'
  | .error (.fail e) s' => F e s'
  | .error _ _ => T

variable {T : Prop} {x : Checked σ ε α} {Q Q' : α → σ → Prop} {F F' : ε → σ → Prop} {s : σ}

/-! ### The rules -/

theorem wp_mono (h : wp T x Q F s) (hQ : ∀ a s', Q a s' → Q' a s') (hF : ∀ e s', F e s' → F' e s') :
    wp T x Q' F' s := by
  rw [wp] at h ⊢
  split at h
  · exact hQ _ _ h
  · exact hF _ _ h
  · exact h

/-- What holds of every run holds of those that come to an answer. -/
theorem wp_of_false (h : wp False x Q F s) : wp T x Q F s := by
  rw [wp] at h ⊢
  split at h
  · exact h
  · exact h
  · exact h.elim

theorem wp_and (h : wp T x Q F s) (h' : wp T x Q' F' s) :
    wp T x (fun a s' => Q a s' ∧ Q' a s') (fun e s' => F e s' ∧ F' e s') s := by
  rw [wp] at h h' ⊢
  split at h
  · next heq =>
    rw [heq] at h'
    exact ⟨h, h'⟩
  · next heq =>
    rw [heq] at h'
    exact ⟨h, h'⟩
  · exact h

/-- What holds of the outcome, with the run it is the outcome of. -/
theorem wp_result (h : wp T x Q F s) :
    wp T x (fun a s' => x s = .ok a s' ∧ Q a s') (fun e s' => x s = .error (.fail e) s' ∧ F e s')
        s := by
  rw [wp] at h ⊢
  split at h
  · next heq => exact ⟨heq, h⟩
  · next heq => exact ⟨heq, h⟩
  · exact h

/-- Nothing is said of code that never gives up. -/
theorem wp_trivial (x : Checked σ Empty α) {F : Empty → σ → Prop} :
    wp True x (fun _ _ => True) F s := by
  rw [wp]
  split
  · trivial
  · next e _ _ => exact e.elim
  · trivial

/-- Code that meets a precondition comes to a value or gives up. -/
theorem exists_of_wp (h : wp False x Q F s) :
    (∃ a s', x s = .ok a s' ∧ Q a s') ∨ ∃ e s', x s = .error (.fail e) s' ∧ F e s' := by
  rw [wp] at h
  split at h
  · next a s' heq => exact .inl ⟨a, s', heq, h⟩
  · next e s' heq => exact .inr ⟨e, s', heq, h⟩
  · exact h.elim

/-- On a run whose outcome is known. -/
theorem wp_of_ok {a : α} {s' : σ} (hx : x s = .ok a s') : wp T x Q F s ↔ Q a s' := by
  rw [wp, hx]

theorem wp_of_fail {e : ε} {s' : σ} (hx : x s = .error (.fail e) s') : wp T x Q F s ↔ F e s' := by
  rw [wp, hx]

@[simp] theorem wp_pure (a : α) : wp T (pure a) Q F s ↔ Q a s := Iff.rfl

@[simp] theorem wp_fail (e : ε) : wp T (fail e) Q F s ↔ F e s := Iff.rfl

@[simp] theorem wp_bounds : wp T (throw .bounds : Checked σ ε α) Q F s ↔ T := Iff.rfl

@[simp] theorem wp_overflow : wp T (throw .overflow : Checked σ ε α) Q F s ↔ T := Iff.rfl

@[simp] theorem wp_unending : wp T (throw .unending : Checked σ ε α) Q F s ↔ T := Iff.rfl

@[simp] theorem wp_get {Q : σ → σ → Prop} : wp T get Q F s ↔ Q s s := Iff.rfl

@[simp] theorem wp_set {Q : Unit → σ → Prop} (s' : σ) :
    wp T (σ := σ) (set s') Q F s ↔ Q () s' := Iff.rfl

@[simp] theorem wp_modify {Q : Unit → σ → Prop} (f : σ → σ) :
    wp T (σ := σ) (modify f) Q F s ↔ Q () (f s) := Iff.rfl

@[simp] theorem wp_bind (f : α → Checked σ ε β) {Q : β → σ → Prop} :
    wp T (x >>= f) Q F s ↔ wp T x (fun a s' => wp T (f a) Q F s') F s := by
  show wp T (EStateM.bind x f) Q F s ↔ _
  simp only [wp, EStateM.bind]
  cases x s with
  | ok a s' => rfl
  | error e s' => cases e <;> rfl

@[simp] theorem wp_lift {x : Checked Unit ε α} :
    wp T (lift x) Q F s ↔ wp T x (fun a _ => Q a s) (fun e _ => F e s) () := by
  simp only [wp, lift]
  cases x () with
  | ok a _ => rfl
  | error e _ => cases e <;> rfl

@[simp] theorem wp_total {x : Checked σ Empty α} :
    wp T (total x) Q F s ↔ wp T x Q (fun _ _ => False) s := by
  simp only [wp, total]
  cases x s with
  | ok a _ => rfl
  | error e _ =>
    cases e with
    | fail e => exact e.elim
    | _ => rfl

@[simp] theorem wp_mapErr {ε' : Type} {f : ε → ε'} {F : ε' → σ → Prop} :
    wp T (mapErr f x) Q F s ↔ wp T x Q (fun e s' => F (f e) s') s := by
  unfold wp mapErr
  cases x s with
  | ok a s => rfl
  | error e s => cases e <;> rfl

@[simp] theorem wp_attempt {x : Checked σ Unit α} {Q : Option α → σ → Prop} :
    wp T (attempt x) Q F s ↔ wp T x (fun a s' => Q (some a) s') (fun _ s' => Q none s') s := by
  unfold wp attempt
  cases x s with
  | ok a s => rfl
  | error e s => cases e <;> rfl

@[simp] theorem wp_on {τ : Type} {t : τ} {x : Checked τ ε α} :
    wp T (on t x) Q F s ↔ wp T x (fun a _ => Q a s) (fun e _ => F e s) t := by
  unfold wp on
  cases x t with
  | ok a _ => rfl
  | error e _ => cases e <;> rfl

theorem wp_store {n : ℕ} {xs : Vector α n} {i : ℕ} {a : α} {Q : Vector α n → σ → Prop}
    (hi : i < n) : wp False (store xs i a) Q F s ↔ Q (xs.set i a hi) s := by
  rw [store, dif_pos hi, wp_pure]

theorem ok_of_wp {a : α} {s' : σ}
    (h : wp False x (fun a' t => a' = a ∧ t = s') (fun _ _ => False) s) : x s = .ok a s' := by
  obtain ⟨_, _, hx, rfl, rfl⟩ | ⟨_, _, -, hfalse⟩ := exists_of_wp h
  · exact hx
  · exact hfalse.elim

theorem answers_of_wp (h : wp False x Q F s) : Answers x s :=
  (exists_of_wp h).imp (fun ⟨a, s', hx, _⟩ => ⟨a, s', hx⟩) fun ⟨e, s', hx, _⟩ => ⟨e, s', hx⟩

theorem wp_ite {c : Prop} [Decidable c] {y : Checked σ ε α} :
    wp T (if c then x else y) Q F s ↔ (c → wp T x Q F s) ∧ (¬ c → wp T y Q F s) := by
  split <;> simp [*]

theorem wp_ofOption {o : Option α} {e : ε} :
    wp T (ofOption e o) Q F s ↔ (∀ a, o = some a → Q a s) ∧ (o = none → F e s) := by
  cases o <;> simp [ofOption]

@[simp] theorem wp_ofOption_some {a : α} {e : ε} : wp T (ofOption e (some a)) Q F s ↔ Q a s :=
  Iff.rfl

@[simp] theorem wp_ofOption_none {e : ε} : wp T (ofOption e none) Q F s ↔ F e s := Iff.rfl

@[simp] theorem wp_require {p : Prop} [Decidable p] {e : ε} {Q : Unit → σ → Prop} :
    wp T (require p e) Q F s ↔ (p → Q () s) ∧ (¬ p → F e s) := by
  rw [require, wp_ite]
  rfl

@[simp] theorem wp_add {w a b : ℕ} {Q : ℕ → σ → Prop} :
    wp False (add w a b) Q F s ↔ a + b < 2 ^ w ∧ Q (a + b) s := by
  rw [add, wp_ite]
  exact ⟨fun h => ⟨by_contra fun hn => h.2 hn, h.1 (by_contra fun hn => h.2 hn)⟩,
    fun h => ⟨fun _ => h.2, fun hn => hn h.1⟩⟩

@[simp] theorem wp_sub {a b : ℕ} {Q : ℕ → σ → Prop} :
    wp False (sub a b) Q F s ↔ b ≤ a ∧ Q (a - b) s := by
  rw [sub, wp_ite]
  exact ⟨fun h => ⟨by_contra fun hn => h.2 hn, h.1 (by_contra fun hn => h.2 hn)⟩,
    fun h => ⟨fun _ => h.2, fun hn => hn h.1⟩⟩

@[simp] theorem wp_mul {w a b : ℕ} {Q : ℕ → σ → Prop} :
    wp False (mul w a b) Q F s ↔ a * b < 2 ^ w ∧ Q (a * b) s := by
  rw [mul, wp_ite]
  exact ⟨fun h => ⟨by_contra fun hn => h.2 hn, h.1 (by_contra fun hn => h.2 hn)⟩,
    fun h => ⟨fun _ => h.2, fun hn => hn h.1⟩⟩

/-! What is known when a run stops can be that something was not so. Then an integer that does not
fit is a case like any other. -/

theorem wp_add_or {w a b : ℕ} {Q : ℕ → σ → Prop} :
    wp T (add w a b) Q F s ↔ (a + b < 2 ^ w → Q (a + b) s) ∧ (¬ a + b < 2 ^ w → T) := by
  rw [add, wp_ite]
  rfl

theorem wp_sub_or {a b : ℕ} {Q : ℕ → σ → Prop} :
    wp T (sub a b) Q F s ↔ (b ≤ a → Q (a - b) s) ∧ (¬ b ≤ a → T) := by
  rw [sub, wp_ite]
  rfl

theorem wp_mul_or {w a b : ℕ} {Q : ℕ → σ → Prop} :
    wp T (mul w a b) Q F s ↔ (a * b < 2 ^ w → Q (a * b) s) ∧ (¬ a * b < 2 ^ w → T) := by
  rw [mul, wp_ite]
  rfl

theorem wp_add_of_lt {w a b : ℕ} {Q : ℕ → σ → Prop} (h : a + b < 2 ^ w) :
    wp T (add w a b) Q F s ↔ Q (a + b) s := by
  rw [add, if_pos h, wp_pure]

theorem wp_sub_of_le {a b : ℕ} {Q : ℕ → σ → Prop} (h : b ≤ a) :
    wp T (sub a b) Q F s ↔ Q (a - b) s := by
  rw [sub, if_pos h, wp_pure]

/-- Knowing less when a run stops. -/
theorem wp_mono_stop {T' : Prop} (h : wp T x Q F s) (hT : T → T') : wp T' x Q F s := by
  rw [wp] at h ⊢
  split at h
  · exact h
  · exact h
  · exact hT h

/-- Code that stops exactly where something is not so. -/
theorem ok_iff {x : Checked σ Empty α} {F : Empty → σ → Prop} {c : Prop}
    (h : wp (¬ c) x (fun _ _ => c) F s) : (∃ a s', x s = .ok a s') ↔ c := by
  rw [wp] at h
  split at h
  · next a s' heq => exact ⟨fun _ => h, fun _ => ⟨a, s', heq⟩⟩
  · next e s' heq => exact e.elim
  · next e s' _ heq =>
    refine ⟨fun hok => ?_, fun hc => absurd hc h⟩
    obtain ⟨a, t, hx⟩ := hok
    rw [heq] at hx
    cases hx

theorem checkedAdd_of_lt {w a b : ℕ} (h : a + b < 2 ^ w) : checkedAdd w a b = some (a + b) :=
  if_pos h

theorem checkedMul_eq_some {w a b c : ℕ} : checkedMul w a b = some c ↔ a * b < 2 ^ w ∧
    c = a * b := by
  rw [checkedMul]
  split <;> simp [*, eq_comm]

theorem checkedSub_eq_some {a b c : ℕ} : checkedSub a b = some c ↔ b ≤ a ∧ c = a - b := by
  rw [checkedSub]
  split <;> simp [*, eq_comm]

theorem checkedAdd_eq_some {w a b c : ℕ} : checkedAdd w a b = some c ↔ a + b < 2 ^ w ∧
    c = a + b := by
  rw [checkedAdd]
  split <;> simp [*, eq_comm]

theorem wp_index {xs : List α} {i : ℕ} :
    wp False (index xs i) Q F s ↔ ∃ a, xs[i]? = some a ∧ Q a s := by
  rw [index]
  cases xs[i]? with
  | none => exact ⟨fun h => h.elim, fun ⟨a, h, _⟩ => by simp at h⟩
  | some a => simp

/-- On runs that come to an answer. -/
theorem wp_index_of {xs : List α} {i : ℕ} (h : ∀ a, xs[i]? = some a → Q a s) :
    wp True (index xs i) Q F s := by
  rw [index]
  cases hi : xs[i]? with
  | none => trivial
  | some a => exact h a hi

/-- **The loop rule.** A body that keeps `I` and brings `μ` down whenever it goes round again ends
within `n` turns from any state where `μ` is below `n`. -/
theorem wp_loop {body : β → Checked σ ε (β ⊕ α)} (I : β → σ → Prop) (μ : β → σ → ℕ)
    (hbody : ∀ b s, I b s → wp T (body b) (fun r s' => match r with
      | .inl b' => I b' s' ∧ μ b' s' < μ b s
      | .inr a => Q a s') F s) {n : ℕ} {b : β} (hI : I b s) (hn : ¬ T → μ b s < n) :
    wp T (loop body n b) Q F s := by
  induction n generalizing b s with
  | zero => exact by_contra fun h => absurd (hn h) (Nat.not_lt_zero _)
  | succ n ih =>
    rw [loop, wp_bind]
    refine wp_mono (hbody b s hI) (fun r s' h => ?_) fun _ _ h => h
    cases r with
    | inr a => exact h
    | inl b' => exact ih h.1 fun hT => Nat.lt_of_lt_of_le h.2 (Nat.le_of_lt_succ (hn hT))

/-- **The rule for a loop without end.** A body that always goes round again and keeps `I` stops
only by running out of turns. -/
theorem wp_loop_forever {body : β → Checked σ ε (β ⊕ α)} (I : β → σ → Prop) (hT : T)
    (hbody : ∀ b s, I b s → wp T (body b) (fun r s' => ∃ b', r = .inl b' ∧ I b' s') F s) {n : ℕ}
    {b : β} (hI : I b s) : wp T (loop body n b) Q F s := by
  induction n generalizing b s with
  | zero => exact hT
  | succ n ih =>
    rw [loop, wp_bind]
    refine wp_mono (hbody b s hI) (fun r s' h => ?_) fun _ _ h => h
    obtain ⟨b', rfl, hI'⟩ := h
    exact ih hI'

/-- The rule for going through a list: an invariant of what has been gone through. -/
theorem wp_foldlM {f : β → α → Checked σ ε β} (I : List α → β → σ → Prop) {l : List α}
    (hf : ∀ done a b s, done ++ [a] <+: l → I done b s →
      wp T (f b a) (fun b' s' => I (done ++ [a]) b' s') F s) {b : β} (hI : I [] b s) :
    wp T (l.foldlM f b) (fun b' s' => I l b' s') F s := by
  suffices h : ∀ (rest done : List α) (b : β) (s : σ), done ++ rest = l → I done b s →
      wp T (rest.foldlM f b) (fun b' s' => I l b' s') F s from h l [] b s rfl hI
  intro rest
  induction rest with
  | nil =>
    intro done b s hl hI
    rw [List.append_nil] at hl
    exact hl ▸ hI
  | cons a rest ih =>
    intro done b s hl hI
    have hl' : (done ++ [a]) ++ rest = l := by rw [List.append_assoc]; exact hl
    rw [List.foldlM_cons, wp_bind]
    exact wp_mono (hf done a b s ⟨rest, hl'⟩ hI) (fun b' s' h => ih (done ++ [a]) b' s' hl' h)
      fun _ _ h => h

/-! ### Builds

What fits is the same number in every build. -/

variable {o : OverflowChecks} {w a b : ℕ}

theorem wp_fit_add (h : a + b < 2 ^ w) {Q : ℕ → σ → Prop} :
    wp T (o.add w a b) Q F s ↔ Q (a + b) s := by
  have hfit : 0 ≤ (a + b : ℤ) ∧ (a + b : ℤ) < 2 ^ w := ⟨by omega, by exact_mod_cast h⟩
  rw [OverflowChecks.add, OverflowChecks.fit, if_pos hfit]
  rfl

theorem wp_fit_sub (h : b ≤ a) (ha : a < 2 ^ w) {Q : ℕ → σ → Prop} :
    wp T (o.sub w a b) Q F s ↔ Q (a - b) s := by
  have hfit : 0 ≤ (a - b : ℤ) ∧ (a - b : ℤ) < 2 ^ w :=
    ⟨by omega, lt_of_le_of_lt (by omega : (a - b : ℤ) ≤ a) (by exact_mod_cast ha)⟩
  have hval : (a - b : ℤ).toNat = a - b := by omega
  rw [OverflowChecks.sub, OverflowChecks.fit, if_pos hfit, hval]
  rfl

theorem wp_fit_mul (h : a * b < 2 ^ w) {Q : ℕ → σ → Prop} :
    wp T (o.mul w a b) Q F s ↔ Q (a * b) s := by
  have hfit : 0 ≤ (a * b : ℤ) ∧ (a * b : ℤ) < 2 ^ w :=
    ⟨by exact_mod_cast Nat.zero_le (a * b), by exact_mod_cast h⟩
  have hval : (a * b : ℤ).toNat = a * b := by exact_mod_cast Int.toNat_natCast (a * b)
  rw [OverflowChecks.mul, OverflowChecks.fit, if_pos hfit, hval]
  rfl

/-- A build without checks goes on with what is left of the number, and one with checks goes on only
if it is the whole of it. -/
theorem wp_add_of {Q : ℕ → σ → Prop} (hT : ¬ T → o = .on → a + b < 2 ^ w)
    (hQ : (o = .on → a + b < 2 ^ w) → Q ((a + b) % 2 ^ w) s) : wp T (o.add w a b) Q F s := by
  by_cases hfit : a + b < 2 ^ w
  · rw [wp_fit_add hfit, ← Nat.mod_eq_of_lt hfit]
    exact hQ fun _ => hfit
  · have hbig : ¬ (0 ≤ (a + b : ℤ) ∧ (a + b : ℤ) < 2 ^ w) := fun h => hfit (by exact_mod_cast h.2)
    have hval : ((a + b : ℤ) % 2 ^ w).toNat = (a + b) % 2 ^ w := by
      exact_mod_cast Int.toNat_natCast ((a + b) % 2 ^ w)
    rw [OverflowChecks.add, OverflowChecks.fit, if_neg hbig, wp_ite, hval]
    exact ⟨fun hon => by_contra fun h => hfit (hT h hon), fun hoff => hQ fun hon => (hoff hon).elim⟩

theorem wp_sub_of {Q : ℕ → σ → Prop} (hT : ¬ T → o = .on → b ≤ a ∧ a < 2 ^ w)
    (hQ : ∀ c, (o = .on → b ≤ a) → (b ≤ a → a < 2 ^ w → c = a - b) → Q c s) :
    wp T (o.sub w a b) Q F s := by
  by_cases hfit : b ≤ a ∧ a < 2 ^ w
  · exact (wp_fit_sub hfit.1 hfit.2).mpr (hQ _ (fun _ => hfit.1) fun _ _ => rfl)
  · rw [OverflowChecks.sub, OverflowChecks.fit, wp_ite, wp_ite]
    have hlost : ∀ c, (o = .on → b ≤ a) → Q c s := fun c hle =>
      hQ c hle fun h h' => absurd ⟨h, h'⟩ hfit
    exact ⟨fun h => hlost _ fun _ => by omega,
      fun _ => ⟨fun hon => by_contra fun h => hfit (hT h hon), fun hoff => hlost _ fun hon =>
          (hoff hon).elim⟩⟩

/-- Whatever the number becomes. -/
theorem wp_fit_any {n : ℤ} {Q : ℕ → σ → Prop} (h : ∀ c, Q c s) : wp True (o.fit w n) Q F s := by
  rw [OverflowChecks.fit, wp_ite, wp_ite]
  exact ⟨fun _ => h _, fun _ => ⟨fun _ => trivial, fun _ => h _⟩⟩

/-! ### Runs whose first part is known -/

theorem bind_of_ok {f : α → Checked σ ε β} {a : α} {s' : σ} (h : x s = .ok a s') :
    (x >>= f) s = f a s' := by
  show EStateM.bind x f s = _
  rw [EStateM.bind, h]

theorem bind_of_error {f : α → Checked σ ε β} {e : Stop ε} {s' : σ} (h : x s = .error e s') :
    (x >>= f) s = .error e s' := by
  show EStateM.bind x f s = _
  rw [EStateM.bind, h]

/-! ### Frames -/

/-- Code that leaves part of the state as it is. -/
structure Keeps {γ : Type} (g : σ → γ) (x : Checked σ ε α) : Prop where
  run : ∀ s, wp True x (fun _ s' => g s' = g s) (fun _ s' => g s' = g s) s

section Keeps

variable {γ : Type} {g : σ → γ}

theorem Keeps.bind {f : α → Checked σ ε β} (hx : Keeps g x) (hf : ∀ a, Keeps g (f a)) :
    Keeps g (x >>= f) := by
  refine ⟨fun s => ?_⟩
  rw [wp_bind]
  refine wp_mono (hx.run s) (fun a s' h => ?_) fun _ _ h => h
  exact wp_mono ((hf a).run s') (fun _ _ h' => h'.trans h) fun _ _ h' => h'.trans h

theorem keeps_pure (a : α) : Keeps g (pure a : Checked σ ε α) := ⟨fun _ => rfl⟩

theorem keeps_get : Keeps g (get : Checked σ ε σ) := ⟨fun _ => rfl⟩

theorem keeps_throw (e : Stop ε) : Keeps g (throw e : Checked σ ε α) := by
  refine ⟨fun s => ?_⟩
  cases e with
  | fail e => exact rfl
  | _ => trivial

theorem keeps_modify {f : σ → σ} (h : ∀ s, g (f s) = g s) :
    Keeps g (modify f : Checked σ ε Unit) := ⟨fun s => h s⟩

theorem keeps_ite {c : Prop} [Decidable c] {y : Checked σ ε α} (hx : Keeps g x) (hy : Keeps g y) :
    Keeps g (if c then x else y) := by
  split
  · exact hx
  · exact hy

theorem keeps_index (xs : List α) (i : ℕ) : Keeps g (index xs i : Checked σ ε α) :=
  ⟨fun _ => wp_index_of fun _ _ => rfl⟩

theorem keeps_add : Keeps g (o.add w a b : Checked σ ε ℕ) := ⟨fun _ => wp_fit_any fun _ => rfl⟩

theorem keeps_sub : Keeps g (o.sub w a b : Checked σ ε ℕ) := ⟨fun _ => wp_fit_any fun _ => rfl⟩

theorem keeps_mul : Keeps g (o.mul w a b : Checked σ ε ℕ) := ⟨fun _ => wp_fit_any fun _ => rfl⟩

theorem Keeps.foldlM {f : β → α → Checked σ ε β} (hf : ∀ b a, Keeps g (f b a)) (l : List α)
    (b : β) :
    Keeps g (l.foldlM f b) := by
  induction l generalizing b with
  | nil => exact ⟨fun s => rfl⟩
  | cons a l ih => exact (hf b a).bind fun b' => ih b'

/-- What code that never gives up does to what it keeps. -/
theorem Keeps.wp {x : Checked σ Empty α} (h : Keeps g x) (s : σ) {F : Empty → σ → Prop} :
    Checked.wp True x (fun _ s' => g s' = g s) F s :=
  wp_mono (h.run s) (fun _ _ h => h) fun e _ _ => e.elim

end Keeps

/-! ### Iterators

An iterator is its `next`, code that yields an item or gives up. Giving up is how it says that
there is nothing more; it may be called again after that, and its state may have moved. -/

variable {next : Checked σ Unit α}

/-- The items of `n` calls, or `none` if one of them stopped in any other way than by giving up. -/
def calls (next : Checked σ Unit α) : ℕ → σ → Option (List α × σ)
  | 0, s => some ([], s)
  | n + 1, s =>
    match next s with
    | .ok a s' => (calls next n s').map fun r => (a :: r.1, r.2)
    | .error (.fail _) s' => calls next n s'
    | .error _ _ => none

/-- Going round with the iterator until it gives up yields the items `as`. -/
inductive Collects (next : Checked σ Unit α) : σ → List α → σ → Prop
  | nil {s s' : σ} : next s = .error (.fail ()) s' → Collects next s [] s'
  | cons {s s' s'' : σ} {a : α} {as : List α} : next s = .ok a s' → Collects next s' as s'' →
      Collects next s (a :: as) s''

/-- The first item that `p` accepts, in at most `n` calls. -/
def find (next : Checked σ Unit α) (p : α → Bool) (n : ℕ) : Checked σ Unit α :=
  loop (fun _ => do
    let a ← next
    return if p a then .inr a else .inl ()) n ()

/-- Going round with an iterator has one outcome. -/
theorem Collects.unique {as as' : List α} {s' s'' : σ} (h : Collects next s as s')
    (h' : Collects next s as' s'') : as = as' ∧ s' = s'' := by
  induction h generalizing as' with
  | nil hn =>
    cases h' with
    | nil hn' =>
      rw [hn] at hn'
      cases hn'
      exact ⟨rfl, rfl⟩
    | cons hn' _ =>
      rw [hn] at hn'
      cases hn'
  | cons hn _ ih =>
    cases h' with
    | nil hn' =>
      rw [hn] at hn'
      cases hn'
    | cons hn' h' =>
      rw [hn] at hn'
      cases hn'
      obtain ⟨rfl, rfl⟩ := ih h'
      exact ⟨rfl, rfl⟩

/-- Searching an iterator is searching the list of what it yields. -/
theorem Collects.wp_find {as : List α} {s' : σ} {p : α → Bool} {n : ℕ} (h : Collects next s as s')
    (hn : as.length < n) :
    wp False (find next p n) (fun a _ => as.find? p = some a) (fun _ _ => as.find? p = none) s := by
  induction h generalizing n with
  | nil hx =>
    obtain ⟨n, rfl⟩ := Nat.exists_eq_succ_of_ne_zero (Nat.ne_zero_of_lt hn)
    rw [find, loop, wp_bind, wp_bind, wp_of_fail hx]
    rfl
  | @cons s s' _ a as hx _ ih =>
    obtain ⟨n, rfl⟩ := Nat.exists_eq_succ_of_ne_zero (Nat.ne_zero_of_lt hn)
    rw [find, loop, wp_bind, wp_bind, wp_of_ok hx, wp_pure]
    cases hp : p a with
    | true => simp [hp]
    | false =>
      simp only [hp, List.find?_cons]
      exact ih (Nat.lt_of_succ_lt_succ hn)

/-- The items an iterator yields until it gives up, but not more than `n`. -/
def collect (next : Checked σ Unit α) : ℕ → σ → List α
  | 0, _ => []
  | n + 1, s =>
    match next s with
    | .ok a s' => a :: collect next n s'
    | .error _ _ => []

theorem Collects.collect_eq {as : List α} {s' : σ} {n : ℕ} (h : Collects next s as s')
    (hn : as.length ≤ n) : collect next n s = as := by
  induction h generalizing n with
  | nil hx =>
    cases n with
    | zero => rfl
    | succ n => rw [collect, hx]
  | cons hx _ ih =>
    obtain ⟨n, rfl⟩ := Nat.exists_eq_succ_of_ne_zero (Nat.ne_zero_of_lt hn)
    rw [collect, hx]
    simp only [ih (Nat.le_of_succ_le_succ hn)]

/-- An iterator that yields at most `bound` items from `s`, each of them a `P`, however often it is
called: no call stops in any other way than by giving up, and going round with it comes to an
end. -/
structure Finite (next : Checked σ Unit α) (P : α → Prop) (s : σ) (bound : ℕ) : Prop where
  /-- However many calls there are, they yield at most `bound` items. -/
  calls : ∀ n, ∃ as s', calls next n s = some (as, s') ∧ as.length ≤ bound ∧ ∀ a ∈ as, P a
  /-- Going round ends. -/
  ends : ∃ as s', Collects next s as s' ∧ as.length ≤ bound ∧ ∀ a ∈ as, P a

/-- **The iterator rule.** If every call from a state that meets `I` leaves one that does, and
brings `μ` down whenever it yields an item, then the iterator is finite. -/
theorem finite {I : σ → Prop} {P : α → Prop} {μ : σ → ℕ}
    (hnext : ∀ s, I s → wp False next (fun a s' => I s' ∧ P a ∧ μ s' < μ s)
      (fun _ s' => I s' ∧ μ s' ≤ μ s) s) (hI : I s) : Finite next P s (μ s) := by
  constructor
  · intro n
    induction n generalizing s with
    | zero => exact ⟨[], s, rfl, Nat.zero_le _, fun _ ha => absurd ha List.not_mem_nil⟩
    | succ n ih =>
      obtain ⟨a, s', hx, hI', hP, hμ⟩ | ⟨e, s', hx, hI', hμ⟩ := exists_of_wp (hnext s hI)
      · obtain ⟨as, s'', has, hlen, hall⟩ := ih hI'
        refine ⟨a :: as, s'', by simp only [Checked.calls, hx, has, Option.map_some], ?_, ?_⟩
        · rw [List.length_cons]
          omega
        · rintro b hb
          rcases List.mem_cons.mp hb with rfl | hb
          · exact hP
          · exact hall b hb
      · obtain ⟨as, s'', has, hlen, hall⟩ := ih hI'
        exact ⟨as, s'', by simp only [Checked.calls, hx, has], Nat.le_trans hlen hμ, hall⟩
  · induction hm : μ s using Nat.strongRecOn generalizing s with
    | _ m ih =>
      subst hm
      obtain ⟨a, s', hx, hI', hP, hμ⟩ | ⟨e, s', hx, hI', hμ⟩ := exists_of_wp (hnext s hI)
      · obtain ⟨as, s'', has, hlen, hall⟩ := ih (μ s') hμ hI' rfl
        refine ⟨a :: as, s'', .cons hx has, ?_, ?_⟩
        · rw [List.length_cons]
          omega
        · rintro b hb
          rcases List.mem_cons.mp hb with rfl | hb
          · exact hP
          · exact hall b hb
      · exact ⟨[], s', .nil hx, Nat.zero_le _, fun _ ha => absurd ha List.not_mem_nil⟩

/-- **What an iterator yields**, from what each call does to the items that are still to come. -/
theorem collects_of_next {I : List α → σ → Prop} {R : σ → Prop}
    (hnext : ∀ as s, I as s → wp False next (fun a s' => ∃ as', as = a :: as' ∧ I as' s')
      (fun _ s' => as = [] ∧ R s') s) {as : List α} (hI : I as s) :
    ∃ s', Collects next s as s' ∧ R s' := by
  induction as generalizing s with
  | nil =>
    obtain ⟨a, s', -, as', has, -⟩ | ⟨e, s', hx, -, hR⟩ := exists_of_wp (hnext _ _ hI)
    · cases has
    · exact ⟨s', .nil hx, hR⟩
  | cons a as ih =>
    obtain ⟨a', s', hx, as', has, hI'⟩ | ⟨e, s', -, has, -⟩ := exists_of_wp (hnext _ _ hI)
    · cases has
      obtain ⟨s'', hcollects, hR⟩ := ih hI'
      exact ⟨s'', .cons hx hcollects, hR⟩
    · cases has

/-- The items an iterator yields until it gives up, and the state behind them, if there are fewer
than `n`. -/
def gather (next : Checked σ Unit α) : ℕ → σ → Option (List α × σ)
  | 0, _ => none
  | n + 1, s =>
    match next s with
    | .ok a s' => (gather next n s').map fun r => (a :: r.1, r.2)
    | .error (.fail _) s' => some ([], s')
    | .error _ _ => none

theorem collects_of_gather {n : ℕ} {as : List α} {s' : σ} (h : gather next n s = some (as, s')) :
    Collects next s as s' := by
  induction n generalizing s as with
  | zero => cases h
  | succ n ih =>
    rw [gather] at h
    split at h
    · next a s₁ hx =>
      obtain ⟨⟨as', s₂⟩, hrest, heq⟩ := Option.map_eq_some_iff.mp h
      cases heq
      exact .cons hx (ih hrest)
    · next e s₁ hx =>
      cases h
      exact .nil hx
    · cases h

/-- What is looked up among the first items of a finite iterator is one of them, or there is
none. -/
theorem Finite.wp_find {P : α → Prop} {bound n : ℕ} (h : Finite next P s bound) (hn : bound < n)
    (p : α → Bool) : wp False (find next p n) (fun a _ => P a) (fun _ _ => True) s := by
  obtain ⟨as, t', hcollects, hlen, hall⟩ := h.ends
  refine wp_mono (hcollects.wp_find (hlen.trans_lt hn)) (fun a _ ha => ?_) fun _ _ _ => trivial
  exact hall a (List.mem_of_find?_eq_some ha)

-- code is reasoned about with the rules, never by running it
attribute [irreducible] wp

end Checked
