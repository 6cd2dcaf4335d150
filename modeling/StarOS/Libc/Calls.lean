import StarOS.Libc.Promise
import StarOS.Libc.Pthread

/-!
# Steps of the threads

A step of a thread goes on in an operation on a queue and touches the queues only, or is one of the
call the thread is in, which may begin an operation. So a run of the threads is a run of the queues,
and in which operation a thread is says where in its call it is.

## Main definitions

* `Threads.State.Step`
* `Threads.State.LinksSafely`
* `Threads.Pc.Calls` — the operations on queues that a call begins

## Main results

* `Threads.tidy_of_run` — the queues are tidy in every run whose threads link themselves safely
* `Threads.calls_of_run`
-/

namespace StarOS

namespace Threads

open Links

variable {Thread : Type} [DecidableEq Thread] {s s' : State Thread} {t u x : Thread} {e : Event}
  {q : Place}

/-- What one step of a thread is. -/
inductive State.Step (s : State Thread) (t : Thread) : Event → State Thread → Prop
  | queue {queues} : s.queues.op t ≠ .idle → s.queues.act (t, .go) = some queues →
      Step s t .go ⟨queues, s.mem, s.pc⟩
  | does {e mem p} : s.queues.op t = .idle → Does s.mem t (s.pc t) e ⟨mem, p, none⟩ →
      Step s t e ⟨s.queues, mem, Function.update s.pc t p⟩
  | calls {e mem p a queues} : s.queues.op t = .idle → Does s.mem t (s.pc t) e ⟨mem, p, some a⟩ →
      s.queues.act (t, a) = some queues → Step s t e ⟨queues, mem, Function.update s.pc t p⟩

theorem State.step_of_next (h : s.next (t, e) = some s') : s.Step t e s' := by
  rw [next] at h
  split at h
  · next hidle =>
    obtain ⟨⟨mem, p, queue⟩, hact, hperform⟩ := Option.bind_eq_some_iff.mp h
    rw [perform] at hperform
    have hdoes := Does.of_act hact
    cases queue with
    | none =>
      obtain rfl := Option.some.inj hperform
      exact .does hidle hdoes
    | some a =>
      obtain ⟨queues, hqueues, rfl⟩ := Option.map_eq_some_iff.mp hperform
      exact .calls hidle hdoes hqueues
  · next hbusy =>
    split at h
    · next hgo =>
      subst hgo
      obtain ⟨queues, hqueues, rfl⟩ := Option.map_eq_some_iff.mp h
      exact .queue hbusy hqueues
    · simp at h

/-- In no operation on a queue a thread does the next step of its call. -/
theorem State.does_of_idle (h : s.next (t, e) = some s') (hidle : s.queues.op t = .idle) :
    ∃ eff, Does s.mem t (s.pc t) e eff ∧ s'.mem = eff.mem ∧
      s'.pc = Function.update s.pc t eff.pc ∧ (eff.queue = none → s'.queues = s.queues) ∧
      ∀ a, eff.queue = some a → s.queues.act (t, a) = some s'.queues := by
  cases step_of_next h with
  | queue hbusy => exact absurd hidle hbusy
  | does _ hdoes => exact ⟨_, hdoes, rfl, rfl, fun _ => rfl, fun _ h => by simp at h⟩
  | calls _ hdoes hact =>
    exact ⟨_, hdoes, rfl, rfl, fun h => by simp at h, fun a h => Option.some.inj h ▸ hact⟩

/-- In one it goes on there. -/
theorem State.go_of_busy (h : s.next (t, e) = some s') (hbusy : s.queues.op t ≠ .idle) :
    e = .go ∧ s'.mem = s.mem ∧ s'.pc = s.pc ∧ s.queues.act (t, .go) = some s'.queues := by
  cases step_of_next h with
  | queue _ hact => exact ⟨rfl, rfl, rfl, hact⟩
  | does hidle | calls hidle => exact absurd hidle hbusy

/-- What one step does to the objects, and to where everyone is in their calls. -/
theorem State.mem_next (h : s.next (t, e) = some s') : (s'.mem = s.mem ∧ s'.pc = s.pc) ∨
    ∃ eff, Does s.mem t (s.pc t) e eff ∧ s'.mem = eff.mem ∧ s'.pc = Function.update s.pc t eff.pc := by
  cases step_of_next h with
  | queue => exact .inl ⟨rfl, rfl⟩
  | does _ hdoes => exact .inr ⟨_, hdoes, rfl, rfl⟩
  | calls _ hdoes _ => exact .inr ⟨_, hdoes, rfl, rfl⟩

/-! ### A run of the threads is one of the queues -/

/-- **A thread that links itself is on no list that is still walked.** -/
def State.LinksSafely (s : State Thread) : Thread × Event → Prop
  | (t, _) => s.queues.LinksSafely (t, .go)

omit [DecidableEq Thread] in
theorem State.LinksSafely.act {a : Act Place} (h : s.LinksSafely (t, e)) :
    s.queues.LinksSafely (t, a) := by
  cases a with
  | go => exact h
  | _ => trivial

theorem State.tidy_next (h : s.queues.Tidy) (hsafe : s.LinksSafely (t, e))
    (hn : s.next (t, e) = some s') : s'.queues.Tidy := by
  cases step_of_next hn with
  | queue _ hact => exact h.next (a := .go) hsafe hact
  | does => exact h
  | calls _ _ hact => exact h.next hsafe.act hact

/-- A thread that is about to be unparked, or has a signal, has one in the end, unless it parks. -/
theorem State.due_or_signal_next (h : s.queues.Tidy) (hsafe : s.LinksSafely (t, e))
    (hn : s.next (t, e) = some s') (hx : t ≠ x ∨ s.queues.op t ≠ .idle)
    (hp : s.queues.Due q x ∨ 0 < s.queues.signals x) :
    s'.queues.Due q x ∨ 0 < s'.queues.signals x := by
  obtain ⟨hlocked, home, hplaced⟩ := h
  cases step_of_next hn with
  | queue _ hact => exact hplaced.due_or_signal_next (a := .go) hlocked hsafe hact (by simp) hp
  | does => exact hp
  | calls hidle _ hact =>
    have hne : t ≠ x := hx.resolve_right fun hbusy => hbusy hidle
    exact hplaced.due_or_signal_next hlocked hsafe.act hact (fun h => hne h.1) hp

/-- A promise to one thread is kept by the steps of the others. -/
theorem State.promised_next (h : s.queues.Tidy) (hsafe : s.LinksSafely (t, e))
    (hn : s.next (t, e) = some s') (hx : t ≠ x) (hp : s.queues.Promised q x) :
    s'.queues.Promised q x := by
  obtain ⟨hlocked, home, hplaced⟩ := h
  cases step_of_next hn with
  | queue _ hact => exact hplaced.promised_next (a := .go) hlocked hsafe hact (fun h => hx h.1) hp
  | does => exact hp
  | calls _ _ hact => exact hplaced.promised_next hlocked hsafe.act hact (fun h => hx h.1) hp

/-- An operation is gone on with by its own thread only. -/
theorem State.op_of_ne (hn : s.next (t, e) = some s') (hx : x ≠ t) :
    s'.queues.op x = s.queues.op x := by
  cases step_of_next hn with
  | queue _ hact => exact Queues.op_of_ne hact hx
  | does => rfl
  | calls _ _ hact => exact Queues.op_of_ne hact hx

theorem State.pc_of_ne (hn : s.next (t, e) = some s') (hx : x ≠ t) : s'.pc x = s.pc x := by
  cases step_of_next hn with
  | queue => rfl
  | does => exact Function.update_of_ne hx ..
  | calls => exact Function.update_of_ne hx ..

/-- A thread comes on a queue by its own push. -/
theorem State.linked_of_next (h : s.queues.Tidy) (hsafe : s.LinksSafely (t, e))
    (hn : s.next (t, e) = some s') (hx : s'.queues.Linked q x) :
    s.queues.Linked q x ∨ t = x ∧ s.queues.op x = .pushHead q := by
  obtain ⟨hlocked, home, hplaced⟩ := h
  cases step_of_next hn with
  | queue _ hact =>
    exact (hplaced.linked_of_next (a := .go) hlocked hsafe hact hx).imp_right And.right
  | does => exact .inl hx
  | calls _ _ hact => exact (hplaced.linked_of_next hlocked hsafe.act hact hx).imp_right And.right

/-- The queues are tidy in every run whose threads link themselves safely. -/
theorem tidy_of_run {ok : State Thread → Thread × Event → Prop}
    (hok : ∀ s e, ok s e → s.LinksSafely e) (h : (threadSystem Thread).Reach ok s) :
    s.queues.Tidy := by
  refine EventSystem.Reach.invariant (I := fun s => s.queues.Tidy) ?_ ?_ h
  · rintro _ ⟨count, rfl⟩
    exact tidy_new
  · rintro s ⟨t, e⟩ s' hI hs hn
    exact State.tidy_next hI (hok _ _ hs) hn

/-! ### Operations and calls -/

/-- Where a thread is during an operation that its call has begun. -/
def Pc.Calls : Pc → Act Place → Prop
  | .lockRetry m, .push q => q = .mutex m
  | .unlockStore _ (some (c, _)), .push q => q = .cond c
  | .semCheck i, .push q => q = .sem i
  | .readCheck l, .push q | .writeCheck l, .push q => q = .rwlock l
  | .out, .take q => (∃ m, q = .mutex m) ∨ (∃ c, q = .cond c) ∨ ∃ l, q = .rwlock l
  | .clock (.write l), .take q | .writePush l, .take q => q = .rwlock l
  | .out, .pop q => (∃ m, q = .mutex m) ∨ (∃ c, q = .cond c) ∨ ∃ i, q = .sem i
  | .condPark _ m _, .pop q => q = .mutex m
  | _, _ => False

/-- Every operation is one that the call of its thread has begun. -/
def State.Calling (s : State Thread) : Prop :=
  ∀ t a, (s.queues.op t).begun = some a → (s.pc t).Calls a

theorem Does.calls {mem : Memory Thread} {p p' : Pc} {mem' : Memory Thread} {a : Act Place}
    (h : Does mem t p e ⟨mem', p', some a⟩) (hpark : a ≠ .park) : p'.Calls a := by
  generalize heff : (⟨mem', p', some a⟩ : Effect Thread) = eff at h
  cases h
  case lockFails _ how _ | semNone _ how _ | semFails _ _ how _ _ | readTaken _ how _ | readBack _ how
      | writeTaken _ how _ =>
    cases how <;> cases heff
    rfl
  all_goals
    cases heff <;> first | exact absurd rfl hpark | simp [Pc.Calls]

theorem State.Calling.next (h : s.Calling) (hn : s.next (t, e) = some s') : s'.Calling := by
  intro u a hb
  cases step_of_next hn with
  | queue hbusy hact =>
    by_cases hu : u = t
    · subst hu
      obtain hsame | hidle := begun_of_go hact
      · exact h u a (hsame ▸ hb)
      · rw [hidle] at hb
        simp [Op.begun] at hb
    · rw [Queues.op_of_ne hact hu] at hb
      exact h u a hb
  | does hidle hdoes =>
    by_cases hu : u = t
    · subst hu
      rw [hidle] at hb
      simp [Op.begun] at hb
    · dsimp only
      rw [Function.update_of_ne hu]
      exact h u a hb
  | calls hidle hdoes hact =>
    by_cases hu : u = t
    · subst hu
      obtain rfl := begun_of_act hact hidle hb
      dsimp only
      rw [Function.update_self]
      refine hdoes.calls ?_
      rintro rfl
      rw [Queues.act] at hact
      split at hact
      · obtain rfl := Option.some.inj hact
        simp [hidle, Op.begun] at hb
      · simp at hact
    · rw [Queues.op_of_ne hact hu] at hb
      dsimp only
      rw [Function.update_of_ne hu]
      exact h u a hb

theorem calls_of_run {ok : State Thread → Thread × Event → Prop}
    (h : (threadSystem Thread).Reach ok s) : s.Calling := by
  refine h.invariant ?_ fun _ ⟨_, _⟩ _ hI _ hn => hI.next hn
  rintro _ ⟨count, rfl⟩ t a hb
  simp [Queues.new, Op.begun] at hb

/-! ### Who parks has pushed itself -/

/-- The queue that a thread is on when it looks once more, and parks. -/
def Pc.awaits : Pc → Option Place
  | .lockRetry m | .lockPark m => some (.mutex m)
  | .semCheck i | .semPark i => some (.sem i)
  | .readCheck l | .readPark l | .writeCheck l | .writeRecheck l | .writePark l => some (.rwlock l)
  | _ => none

theorem Pc.awaits_mutex {p : Pc} {m : ℕ} :
    p.awaits = some (.mutex m) ↔ p = .lockRetry m ∨ p = .lockPark m := by
  cases p <;> simp [awaits]

omit [DecidableEq Thread] in
/-- A thread is in no operation where its call begins none. -/
theorem State.Calling.idle (h : s.Calling) (hpc : ∀ a, ¬ (s.pc t).Calls a) : s.queues.op t = .idle := by
  cases hb : (s.queues.op t).begun with
  | none => exact Op.begun_eq_none.mp hb
  | some a => exact absurd (h t a hb) (hpc a)

omit [DecidableEq Thread] in
theorem State.Calling.push_of_awaits {a : Act Place} (h : s.Calling) (hpc : (s.pc t).awaits = some q)
    (hb : (s.queues.op t).begun = some a) : a = .push q := by
  have hcalls := h t a hb
  cases hp : s.pc t <;> rw [hp] at hpc hcalls <;> simp only [Pc.awaits, reduceCtorEq] at hpc
  all_goals
    obtain rfl := Option.some.inj hpc
    cases a <;> simp_all [Pc.Calls]

/-- A thread comes to await a queue by pushing itself on it. -/
theorem Does.awaits {mem : Memory Thread} {p : Pc} {eff : Effect Thread} (h : Does mem t p e eff)
    (ha : eff.pc.awaits = some q) : p.awaits = some q ∧ eff.queue = none ∨ eff.queue = some (.push q) := by
  cases h
  case lockFails _ how _ | semNone _ how _ | semFails _ _ how _ _ | readTaken _ how _ | readBack _ how
      | writeTaken _ how _ =>
    cases how <;> simp_all [How.fail, Pc.awaits]
  case retry attempt => cases attempt <;> simp [Attempt.pc, Pc.awaits] at ha
  all_goals simp_all [Pc.awaits]

/-- **Who has pushed itself on a queue and looks once more, or parks, is promised a signal**, if a
thread whose flag was set when it pushed itself was on that queue, or just taken off it. -/
theorem State.awaits_next (htidy : s.queues.Tidy) (hcalling : s.Calling)
    (hsafe : s.LinksSafely (t, e))
    (hflag : s.queues.op t = .pushSwap q → s.queues.queued t = 1 →
      s.queues.Linked q t ∨ s.queues.Due q t)
    (hn : s.next (t, e) = some s')
    (h : ∀ u, (s.pc u).awaits = some q → s.queues.op u = .idle ∨ s.queues.op u = .pushUnlock q →
      s.queues.Promised q u)
    (u : Thread) (hu : (s'.pc u).awaits = some q)
    (hop : s'.queues.op u = .idle ∨ s'.queues.op u = .pushUnlock q) : s'.queues.Promised q u := by
  by_cases hut : t = u
  · subst hut
    obtain ⟨hlocked, home, hplaced⟩ := htidy
    cases step_of_next hn with
    | queue hbusy hact =>
      -- it is pushing itself, and has come to the end of it
      have hbegun : (s.queues.op t).begun = some (.push q) := by
        cases hb : (s.queues.op t).begun with
        | none => exact absurd (Op.begun_eq_none.mp hb) hbusy
        | some a => rw [hcalling.push_of_awaits hu hb]
      exact hplaced.promised_of_push hlocked hsafe hact hbegun hop hflag fun hunlock =>
        h t hu (.inr hunlock)
    | does hidle hdoes =>
      dsimp only at hu ⊢
      rw [Function.update_self] at hu
      obtain ⟨hbefore, -⟩ | hpush := hdoes.awaits hu
      · exact h t hbefore (.inl hidle)
      · simp at hpush
    | calls hidle hdoes hact =>
      dsimp only at hu hop ⊢
      rw [Function.update_self] at hu
      obtain ⟨-, hnone⟩ | hpush := hdoes.awaits hu
      · simp at hnone
      · obtain rfl := Option.some.inj hpush
        rw [Queues.act, if_pos hidle] at hact
        obtain rfl := Option.some.inj hact
        rw [goTo_op] at hop
        simp at hop
  · refine State.promised_next htidy hsafe hn hut (h u ?_ ?_)
    · rwa [State.pc_of_ne hn (Ne.symm hut)] at hu
    · rwa [State.op_of_ne hn (Ne.symm hut)] at hop

/-! ### Runs of few threads -/

/-- A thread that links itself does so safely while nobody else works on a queue. -/
theorem linksSafely_of_alone
    (h : ∀ q, s.queues.op t = .pushSwap q → ∀ u, u ≠ t → s.queues.op u = .idle) :
    s.LinksSafely (t, e) := by
  intro q hop _
  have hidle : ∀ u, s.queues.op u = .idle ∨ s.queues.op u = .pushSwap q := fun u => by
    by_cases hu : u = t
    · exact .inr (hu ▸ hop)
    · exact .inl (h q hop u hu)
  rintro (⟨u, hu⟩ | ⟨u, q', next, hu⟩)
  · rcases hidle u with hi | hi <;> rw [hi] at hu <;> exact not_from_none hu
  · rcases hidle u with hi | hi <;> rw [hu] at hi <;> simp at hi

/-- A thread goes on. -/
def goes {n : ℕ} (t : Fin n) (k : ℕ) : List (Fin n × Event) := List.replicate k (t, .go)

end Threads

end StarOS
