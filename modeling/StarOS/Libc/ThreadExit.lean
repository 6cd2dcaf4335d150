import StarOS.Libc.Atexit

/-!
# What a thread runs on its way out

A thread that ends first runs the destructors of its `thread_local` objects, and then those of the
keys it has set a value for. Each of them may register another and may set a key again. The first
list is gone through until it is empty and the keys at most four times, but after the keys nobody
looks at the first list again.

The list of a thread is kept as that of the process is, in a table of fixed size with the most
recent registration at its end.

## Main definitions

* `ThreadExit.cxaThreadAtexit`, `ThreadExit.setspecific`, `ThreadExit.keyCreate` — what the code of
  the program calls
* `ThreadExit.runList`, `ThreadExit.runKey` — the two loops of `run_thread_exit`
* `ThreadExit.threadSystem` — a thread that ends as it likes
* `ThreadExit.State.InTime` — no destructor is registered while those of the keys run

## Main results

* `ThreadExit.effect_of_next` — a step does to the list what one of `Atexit` does
* `ThreadExit.State.Drained.next` — after the first loop the list stays empty
* `ThreadExit.destructors_exact`
-/

namespace StarOS

namespace ThreadExit

variable {Fn : Type}

/-- A destructor of a `thread_local` object: its function and, as the argument, the object. -/
abbrev TlsDtor (Fn : Type) := Atexit.AtExit Fn

def maxTlsDtors : ℕ := 32

def maxKeys : ℕ := 32

def rounds : ℕ := 4

/-- How a thread ends: its start routine returns, it calls `pthread_exit`, or it ends the process,
as the main thread does when it returns. -/
inductive Way
  | entry (retval : ℕ)
  | pthreadExit (retval : ℕ)
  | process
  deriving DecidableEq

/-- Where the thread is: in the code of the program, at the head of one of the loops, in a
destructor one of them has called, behind both, or gone. -/
inductive Pc
  | user
  | list (way : Way)
  | dtor (way : Way)
  | round (way : Way) (round key : ℕ) (any : Bool)
  | keyDtor (way : Way) (round key : ℕ)
  | done (way : Way)
  | gone
  deriving DecidableEq

/-- The block of a thread and the keys of the process. Pointers are addresses, with null as zero;
`made` and `ran` are all registrations with what they returned and the destructors that were called,
the oldest first. -/
structure State (Fn : Type) where
  tlsDtors : ℕ → TlsDtor Fn
  tlsDtorCount : ℕ
  keys : ℕ → ℕ
  keysUsed : ℕ
  keyDtors : ℕ → ℕ
  retval : ℕ
  finished : Bool
  pc : Pc
  made : List (TlsDtor Fn × ℤ)
  ran : List (TlsDtor Fn)

/-- `__cxa_thread_atexit`. -/
def cxaThreadAtexit (s : State Fn) (function : Option Fn) (object : ℕ) : State Fn × ℤ :=
  let e : TlsDtor Fn := ⟨function, object, s.made.length⟩
  if s.tlsDtorCount ≥ maxTlsDtors then ({ s with made := s.made ++ [(e, -1)] }, -1)
  else
    ({ s with
        tlsDtors := Function.update s.tlsDtors s.tlsDtorCount e
        tlsDtorCount := s.tlsDtorCount + 1
        made := s.made ++ [(e, 0)] }, 0)

def einval : ℤ := 22

def eagain : ℤ := 11

def setspecific (s : State Fn) (key : ℤ) (value : ℕ) : State Fn × ℤ :=
  if key < 0 ∨ maxKeys ≤ key.toNat then (s, einval)
  else ({ s with keys := Function.update s.keys key.toNat value }, 0)

/-- `pthread_key_create`, and the key it gives. -/
def keyCreate (s : State Fn) (dtor : ℕ) : State Fn × ℤ × Option ℕ :=
  if s.keysUsed ≥ maxKeys then ({ s with keysUsed := maxKeys }, eagain, none)
  else
    ({ s with
        keysUsed := s.keysUsed + 1
        keyDtors := Function.update s.keyDtors s.keysUsed dtor }, 0, some s.keysUsed)

/-- A turn of the first loop, down to the call. An index behind the list would panic. -/
def runList (s : State Fn) (way : Way) : Option (State Fn) :=
  if s.tlsDtorCount = 0 then some { s with pc := .round way 0 0 false }
  else if s.tlsDtorCount - 1 < maxTlsDtors then
    let entry := s.tlsDtors (s.tlsDtorCount - 1)
    if entry.function.isSome then
      some { s with
        tlsDtorCount := s.tlsDtorCount - 1
        pc := .dtor way
        ran := s.ran ++ [entry] }
    else some { s with tlsDtorCount := s.tlsDtorCount - 1, pc := .list way }
  else none

/-- A turn of the loop over the keys, down to the call, or the end of a round. -/
def runKey (s : State Fn) (way : Way) (round key : ℕ) (any : Bool) : State Fn :=
  if key < maxKeys then
    if s.keys key = 0 then { s with pc := .round way round (key + 1) any }
    else
      -- The value is cleared before the call, and also where there is nothing to call.
      let keys := Function.update s.keys key 0
      if s.keyDtors key = 0 then { s with keys := keys, pc := .round way round (key + 1) any }
      else { s with keys := keys, pc := .keyDtor way round key }
  else if any = true ∧ round + 1 < rounds then { s with pc := .round way (round + 1) 0 false }
  else { s with pc := .done way }

/-- The thread is published as finished, unless it leaves with the process. -/
def publish (s : State Fn) : Way → State Fn
  | .entry retval | .pthreadExit retval =>
    { s with retval := retval, finished := true, pc := .gone }
  | .process => { s with pc := .gone }

/-- What the code that runs does next, what another thread does, and how the loops go on. -/
inductive Act (Fn : Type)
  | cxaThreadAtexit (function : Option Fn) (object : ℕ)
  | setspecific (key : ℤ) (value : ℕ)
  | keyCreate (dtor : ℕ)
  | pthreadExit (retval : ℕ)
  | exit
  | ret (retval : ℕ)
  | turn
  deriving DecidableEq

/-- A return of the code that runs. That of the start routine is the end of the thread. -/
def State.ret (s : State Fn) (retval : ℕ) : Option (State Fn) :=
  match s.pc with
  | .user => some { s with pc := .list (.entry retval) }
  | .dtor way => some { s with pc := .list way }
  | .keyDtor way round key => some { s with pc := .round way round (key + 1) true }
  | _ => none

def Pc.runs : Pc → Bool
  | .user | .dtor _ | .keyDtor _ _ _ => true
  | _ => false

def State.turn (s : State Fn) : Option (State Fn) :=
  match s.pc with
  | .list way => runList s way
  | .round way round key any => some (runKey s way round key any)
  | .done way => some (publish s way)
  | _ => none

def State.next (s : State Fn) : Act Fn → Option (State Fn)
  | .cxaThreadAtexit function object =>
    if s.pc.runs then some (cxaThreadAtexit s function object).1 else none
  | .setspecific key value => if s.pc.runs then some (setspecific s key value).1 else none
  -- Any thread may create a key.
  | .keyCreate dtor => some (keyCreate s dtor).1
  -- These do not return, so nothing goes on that was called before them.
  | .pthreadExit retval =>
    if s.pc.runs then some { s with pc := .list (.pthreadExit retval) } else none
  | .exit => if s.pc.runs then some { s with pc := .list .process } else none
  | .ret retval => s.ret retval
  | .turn => s.turn

/-- A thread that starts, with the block `new_thread_block` gives it. -/
def threadSystem (Fn : Type) : EventSystem (State Fn) (Act Fn) where
  init s := s.tlsDtorCount = 0 ∧ s.keys = (fun _ => 0) ∧ s.finished = false ∧ s.pc = .user ∧
    s.made = [] ∧ s.ran = []
  next := State.next

/-- No destructor is accepted while those of the keys run. -/
def State.InTime (s : State Fn) : Act Fn → Prop
  | .cxaThreadAtexit (some _) _ =>
    (∃ way round key, s.pc = .keyDtor way round key) → maxTlsDtors ≤ s.tlsDtorCount
  | _ => True

/-- What is asked of a thread. -/
structure State.Exact (s : State Fn) : Prop where
  once : s.ran.Nodup
  accepted : ∀ e ∈ s.ran, (e, 0) ∈ s.made
  /-- What was refused is not run. -/
  refused : ∀ e v, (e, v) ∈ s.made → v ≠ 0 → e ∉ s.ran
  /-- Before the thread is published as finished, and before it leaves, all have run. -/
  all : (∃ way, s.pc = .done way) ∨ s.pc = .gone ∨ s.finished = true →
    ∀ e, (e, 0) ∈ s.made → e.function ≠ none → e ∈ s.ran
  /-- The one that is chosen is the most recent that has not run. -/
  recent : ∀ a s', s.next a = some s' → s'.ran = s.ran ∨
    ∃ e, s'.ran = s.ran ++ [e] ∧ (e, 0) ∈ s.made ∧ e ∉ s.ran ∧
      ∀ r, (r, 0) ∈ s.made → r.function ≠ none → r ∉ s.ran → r.number ≤ e.number
  /-- The loops always go on. -/
  progress : s.pc.runs = true ∨ s.pc = .gone ∨ (s.next .turn).isSome

variable {s s' : State Fn} {a : Act Fn} {e r : TlsDtor Fn}

/-! ### The list -/

/-- The list of the thread, as one that handlers are kept in. -/
def State.table (s : State Fn) : Atexit.State Fn :=
  ⟨s.tlsDtors, s.tlsDtorCount, [], false, s.made, s.ran⟩

/-- What is kept of the list. -/
structure State.Listed (s : State Fn) : Prop where
  sound : s.table.Sound
  fits : s.tlsDtorCount ≤ maxTlsDtors

/-- A step that leaves the list as it is. -/
theorem effect_of_table (h : s'.table = s.table) : Atexit.Effect s.table s'.table := by
  rw [h]
  exact .quiet rfl rfl rfl rfl fun h => absurd h Bool.false_ne_true

theorem effect_cxaThreadAtexit (s : State Fn) (function : Option Fn) (object : ℕ) :
    Atexit.Effect s.table (cxaThreadAtexit s function object).1.table := by
  rw [cxaThreadAtexit]
  split
  · exact .refused _ rfl rfl rfl rfl rfl rfl
  · next hroom =>
    have hroom : s.tlsDtorCount < Atexit.maxAtexit :=
      (Nat.lt_of_not_le hroom).trans (show maxTlsDtors < Atexit.maxAtexit by decide)
    exact .accepted _ rfl hroom rfl rfl rfl rfl rfl

/-- A turn of the first loop finds the list empty, or takes the most recent from it. -/
theorem runList_cases {way : Way} (h : runList s way = some s') :
    s.tlsDtorCount = 0 ∧ s' = { s with pc := .round way 0 0 false } ∨
    s.tlsDtorCount = s'.tlsDtorCount + 1 ∧ s'.tlsDtors = s.tlsDtors ∧ s'.made = s.made ∧
      s'.finished = s.finished ∧
      (s'.pc = .dtor way ∧ s'.ran = s.ran ++ [s.tlsDtors s'.tlsDtorCount] ∨
        s'.pc = .list way ∧ s'.ran = s.ran ∧ (s.tlsDtors s'.tlsDtorCount).function = none) := by
  rw [runList] at h
  split at h
  · next hcount => exact .inl ⟨hcount, (Option.some.inj h).symm⟩
  · next hcount =>
    have hpos : s.tlsDtorCount = s.tlsDtorCount - 1 + 1 := by omega
    dsimp only at h
    split at h
    · split at h
      · cases h
        exact .inr ⟨hpos, rfl, rfl, rfl, .inl ⟨rfl, rfl⟩⟩
      · next hnull =>
        cases h
        exact .inr ⟨hpos, rfl, rfl, rfl, .inr ⟨rfl, rfl, Option.not_isSome_iff_eq_none.1 hnull⟩⟩
    · cases h

theorem effect_runList {way : Way} (h : runList s way = some s') :
    Atexit.Effect s.table s'.table := by
  rcases runList_cases h with ⟨-, rfl⟩ | ⟨hcount, htable, hmade, -, ⟨-, hran⟩ | ⟨-, hran, hnull⟩⟩
  · exact effect_of_table rfl
  · exact .called htable hcount hmade hran rfl
  · exact .skipped htable hcount hmade hran hnull rfl

/-- The loop over the keys does not touch the list. -/
theorem runKey_table (s : State Fn) (way : Way) (round key : ℕ) (any : Bool) :
    (runKey s way round key any).table = s.table := by
  rw [runKey]
  dsimp only
  repeat' split
  all_goals rfl

theorem setspecific_table (s : State Fn) (key : ℤ) (value : ℕ) :
    (setspecific s key value).1.table = s.table := by
  rw [setspecific]
  split <;> rfl

theorem setspecific_pc (s : State Fn) (key : ℤ) (value : ℕ) :
    (setspecific s key value).1.pc = s.pc ∧
      (setspecific s key value).1.finished = s.finished := by
  rw [setspecific]
  split <;> exact ⟨rfl, rfl⟩

theorem keyCreate_table (s : State Fn) (dtor : ℕ) : (keyCreate s dtor).1.table = s.table := by
  rw [keyCreate]
  split <;> rfl

theorem keyCreate_pc (s : State Fn) (dtor : ℕ) :
    (keyCreate s dtor).1.pc = s.pc ∧ (keyCreate s dtor).1.finished = s.finished := by
  rw [keyCreate]
  split <;> exact ⟨rfl, rfl⟩

theorem publish_table (s : State Fn) (way : Way) : (publish s way).table = s.table := by
  cases way <;> rfl

theorem ret_table {retval : ℕ} (h : s.ret retval = some s') : s'.table = s.table := by
  rw [State.ret] at h
  split at h
  all_goals cases h
  all_goals rfl

/-- A step of the code that runs. -/
theorem runs_of_some {p : Bool} (h : (if p = true then some s else none) = some s') :
    p = true ∧ s' = s := by
  split at h
  · next hp => exact ⟨hp, (Option.some.inj h).symm⟩
  · cases h

/-- Only a registration and a turn of the first loop change the list. -/
theorem table_of_next (h : s.next a = some s') : s'.table = s.table ∨
    (∃ function object, a = .cxaThreadAtexit function object ∧
      s' = (cxaThreadAtexit s function object).1) ∨
    ∃ way, s.pc = .list way ∧ runList s way = some s' := by
  cases a with
  | cxaThreadAtexit function object => exact .inr (.inl ⟨function, object, rfl, (runs_of_some h).2⟩)
  | setspecific key value =>
    rw [(runs_of_some h).2]
    exact .inl (setspecific_table s key value)
  | keyCreate dtor =>
    cases h
    exact .inl (keyCreate_table s dtor)
  | pthreadExit | exit =>
    rw [(runs_of_some h).2]
    exact .inl rfl
  | ret retval => exact .inl (ret_table h)
  | turn =>
    rw [State.next, State.turn] at h
    split at h
    · next way hpc => exact .inr (.inr ⟨way, hpc, h⟩)
    · cases h
      exact .inl (runKey_table _ _ _ _ _)
    · cases h
      exact .inl (publish_table _ _)
    · cases h

/-- **What a step does** to the list. -/
theorem effect_of_next (h : s.next a = some s') : Atexit.Effect s.table s'.table := by
  rcases table_of_next h with hsame | ⟨function, object, -, rfl⟩ | ⟨way, -, hlist⟩
  · exact effect_of_table hsame
  · exact effect_cxaThreadAtexit s function object
  · exact effect_runList hlist

theorem fits_next (hfits : s.tlsDtorCount ≤ maxTlsDtors) (h : s.next a = some s') :
    s'.tlsDtorCount ≤ maxTlsDtors := by
  rcases table_of_next h with hsame | ⟨function, object, -, rfl⟩ | ⟨way, -, hlist⟩
  · exact (congrArg Atexit.State.count hsame).le.trans hfits
  · rw [cxaThreadAtexit]
    split
    · exact hfits
    · next hroom => exact Nat.succ_le_of_lt (Nat.lt_of_not_le hroom)
  · rcases runList_cases hlist with ⟨-, rfl⟩ | ⟨hcount, -⟩
    · exact hfits
    · omega

theorem State.Listed.init (h : (threadSystem Fn).init s) : s.Listed := by
  obtain ⟨hcount, -, -, -, hmade, hran⟩ := h
  exact ⟨.init ⟨hcount, rfl, rfl, hmade, hran⟩, hcount ▸ Nat.zero_le _⟩

theorem State.Listed.next (h : s.Listed) (hnext : s.next a = some s') : s'.Listed :=
  ⟨h.sound.next rfl (effect_of_next hnext), fits_next h.fits hnext⟩

/-! ### Behind the first loop -/

def Pc.behind : Pc → Bool
  | .round _ _ _ _ | .keyDtor _ _ _ | .done _ | .gone => true
  | _ => false

/-- Behind the first loop no destructor is left in the list. -/
structure State.Drained (s : State Fn) : Prop where
  null : s.pc.behind = true → ∀ e ∈ s.table.pending, e.function = none
  gone : s.finished = true → s.pc = .gone

theorem State.Drained.init (h : (threadSystem Fn).init s) : s.Drained := by
  obtain ⟨-, -, hfinished, hpc, -, -⟩ := h
  refine ⟨fun hbehind => ?_, fun hf => ?_⟩
  · rw [hpc] at hbehind
    cases hbehind
  · rw [hfinished] at hf
    cases hf

/-- A step that leaves the list as it is and does not pass the first loop. -/
theorem State.Drained.of_table (h : s.Drained) (htable : s'.table = s.table)
    (hbehind : s'.pc.behind = true → s.pc.behind = true)
    (hgone : s'.finished = true → s'.pc = .gone) : s'.Drained :=
  ⟨fun hb => htable ▸ h.null (hbehind hb), hgone⟩

/-- A thread whose code runs is not finished. -/
theorem State.Drained.runs (h : s.Drained) (hruns : s.pc.runs = true) : s.finished ≠ true := by
  intro hf
  rw [h.gone hf] at hruns
  cases hruns

theorem cxaThreadAtexit_pc (s : State Fn) (function : Option Fn) (object : ℕ) :
    (cxaThreadAtexit s function object).1.pc = s.pc ∧
      (cxaThreadAtexit s function object).1.finished = s.finished := by
  rw [cxaThreadAtexit]
  split <;> exact ⟨rfl, rfl⟩

/-- A registration behind the first loop leaves no destructor in the list. -/
theorem State.Drained.register (h : s.Drained) {function : Option Fn} {object : ℕ}
    (hruns : s.pc.runs = true) (hok : s.InTime (.cxaThreadAtexit function object)) :
    (cxaThreadAtexit s function object).1.Drained := by
  obtain ⟨hpc, hfinished⟩ := cxaThreadAtexit_pc s function object
  refine ⟨fun hbehind => ?_, fun hf => absurd (hfinished ▸ hf) (h.runs hruns)⟩
  rw [hpc] at hbehind
  have hnull := h.null hbehind
  rw [cxaThreadAtexit]
  split
  · exact hnull
  · next hroom =>
    have hpending : ∀ e : TlsDtor Fn, Atexit.State.pending (State.table { s with
        tlsDtors := Function.update s.tlsDtors s.tlsDtorCount e
        tlsDtorCount := s.tlsDtorCount + 1
        made := s.made ++ [(e, 0)] }) = s.table.pending ++ [e] := fun e =>
      Atexit.pending_push (s := s.table) rfl rfl
    intro e he
    rw [hpending] at he
    rcases List.mem_append.1 he with hold | hnew
    · exact hnull e hold
    · -- What is accepted here, behind the first loop, is no destructor.
      rw [List.mem_singleton.1 hnew]
      cases function with
      | none => rfl
      | some f =>
        refine absurd (hok ?_) hroom
        cases hat : s.pc with
        | keyDtor way round key => exact ⟨way, round, key, rfl⟩
        | user | list | dtor =>
          rw [hat] at hbehind
          cases hbehind
        | round | done | gone =>
          rw [hat] at hruns
          cases hruns

theorem runKey_finished (s : State Fn) (way : Way) (round key : ℕ) (any : Bool) :
    (runKey s way round key any).finished = s.finished := by
  rw [runKey]
  dsimp only
  repeat' split
  all_goals rfl

/-- A destructor that returns leaves the thread on the same side of the first loop. -/
theorem State.Drained.ret (h : s.Drained) {retval : ℕ} (hret : s.ret retval = some s') :
    s'.Drained := by
  have htable := ret_table hret
  have hruns : s.pc.runs = true → s.finished ≠ true := h.runs
  rw [State.ret] at hret
  split at hret
  · next hpc =>
    cases hret
    exact h.of_table htable (fun hb => absurd hb Bool.false_ne_true)
      fun hf => absurd hf (hruns (hpc ▸ rfl))
  · next hpc =>
    cases hret
    exact h.of_table htable (fun hb => absurd hb Bool.false_ne_true)
      fun hf => absurd hf (hruns (hpc ▸ rfl))
  · next hpc =>
    cases hret
    exact h.of_table htable (fun _ => hpc ▸ rfl) fun hf => absurd hf (hruns (hpc ▸ rfl))
  · cases hret

/-- The first loop is passed when the list is empty. -/
theorem State.Drained.runList (h : s.Drained) {way : Way} (hpc : s.pc = .list way)
    (hlist : ThreadExit.runList s way = some s') : s'.Drained := by
  have hlives : s.finished ≠ true := fun hf => by
    rw [h.gone hf] at hpc
    cases hpc
  rcases runList_cases hlist with ⟨hcount, rfl⟩ | ⟨-, -, -, hfinished, hcalled⟩
  · have hnil : s.table.pending = [] := by
      rw [Atexit.State.pending, show s.table.count = 0 from hcount]
      rfl
    exact ⟨fun _ e he => absurd (hnil ▸ he) List.not_mem_nil, fun hf => absurd hf hlives⟩
  · refine ⟨fun hb => ?_, fun hf => absurd (hfinished ▸ hf) hlives⟩
    rcases hcalled with ⟨hpc', -⟩ | ⟨hpc', -⟩
    all_goals
      rw [hpc'] at hb
      cases hb

theorem State.Drained.turn (h : s.Drained) (hturn : s.turn = some s') : s'.Drained := by
  rw [State.turn] at hturn
  split at hturn
  · next way hpc => exact h.runList hpc hturn
  · next way round key any hpc =>
    cases hturn
    refine h.of_table (runKey_table _ _ _ _ _) (fun _ => hpc ▸ rfl) fun hf => ?_
    rw [runKey_finished] at hf
    rw [h.gone hf] at hpc
    cases hpc
  · next way hpc =>
    cases hturn
    refine h.of_table (publish_table _ _) (fun _ => hpc ▸ rfl) fun _ => ?_
    cases way <;> rfl
  · cases hturn

theorem State.Drained.next (h : s.Drained) (hok : s.InTime a) (hnext : s.next a = some s') :
    s'.Drained := by
  cases a with
  | cxaThreadAtexit function object =>
    obtain ⟨hruns, rfl⟩ := runs_of_some hnext
    exact h.register hruns hok
  | setspecific key value =>
    obtain ⟨-, rfl⟩ := runs_of_some hnext
    obtain ⟨hpc, hfinished⟩ := setspecific_pc s key value
    refine h.of_table (setspecific_table s key value) (hpc ▸ id) ?_
    rw [hpc, hfinished]
    exact h.gone
  | keyCreate dtor =>
    cases hnext
    obtain ⟨hpc, hfinished⟩ := keyCreate_pc s dtor
    refine h.of_table (keyCreate_table s dtor) (hpc ▸ id) ?_
    rw [hpc, hfinished]
    exact h.gone
  | pthreadExit | exit =>
    obtain ⟨hruns, rfl⟩ := runs_of_some hnext
    refine h.of_table rfl (fun hb => ?_) fun hf => absurd hf (h.runs hruns)
    cases hb
  | ret retval => exact h.ret hnext
  | turn => exact h.turn hnext

/-! ### Every run -/

theorem listed_of_reach (h : (threadSystem Fn).Reach State.InTime s) : s.Listed :=
  h.invariant (fun _ => State.Listed.init) fun _ _ _ hs _ hnext => hs.next hnext

theorem drained_of_reach (h : (threadSystem Fn).Reach State.InTime s) : s.Drained :=
  h.invariant (fun _ => State.Drained.init) fun _ _ _ hs hok hnext => hs.next hok hnext

theorem State.Listed.runs (h : s.Listed) :
    s.pc.runs = true ∨ s.pc = .gone ∨ (s.next .turn).isSome := by
  have hfits := h.fits
  rw [State.next, State.turn]
  cases s.pc with
  | user | dtor | keyDtor => exact .inl rfl
  | gone => exact .inr (.inl rfl)
  | round | done => exact .inr (.inr rfl)
  | list way =>
    refine .inr (.inr ?_)
    show (runList s way).isSome
    rw [runList]
    split
    · rfl
    · rw [if_pos (by omega)]
      dsimp only
      split <;> rfl

/-- In every run in which no destructor is accepted while those of the keys run, every destructor
that was accepted has run once before the thread is published as finished, and the one that is
chosen is always the most recent. -/
theorem destructors_exact (h : (threadSystem Fn).Reach State.InTime s) : s.Exact := by
  have hlisted := listed_of_reach h
  have hdrained := drained_of_reach h
  have hsound := hlisted.sound
  refine ⟨(List.nodup_append.1 hsound.once).1, hsound.ran_made, fun e v hmem hv hran => ?_,
    fun hend e hmem hf => ?_, fun a s' hnext => ?_, hlisted.runs⟩
  · -- A number stands in the record once.
    have hdifferent : (s.made.map fun p => p.1.number).Nodup :=
      List.pairwise_map.2 (hsound.numbered.imp fun hlt => Nat.ne_of_lt hlt)
    have hpair := List.inj_on_of_nodup_map hdifferent hmem (hsound.ran_made e hran) rfl
    exact hv (Prod.ext_iff.1 hpair).2
  · have hbehind : s.pc.behind = true := by
      rcases hend with ⟨way, hpc⟩ | hpc | hf
      · rw [hpc]
        rfl
      · rw [hpc]
        rfl
      · rw [hdrained.gone hf]
        rfl
    exact (hsound.somewhere e hmem hf).resolve_left fun hp => hf (hdrained.null hbehind e hp)
  · cases effect_of_next hnext with
    | called _ hcount _ hran _ => exact .inr ⟨_, hran, hsound.last hcount⟩
    | accepted _ _ _ _ _ _ hran _ | refused _ _ _ _ _ hran _ | quiet _ _ _ hran _
    | skipped _ _ _ hran _ _ => exact .inl hran

/-- A thread that registers one destructor and returns. -/
theorem destructors_exact_one : ∃ s : State Unit, s.Exact ∧ s.finished = true ∧
    s.ran = [⟨some (), 5, 0⟩] := by
  have hearly : ∀ (s : State Unit) (a : Act Unit),
      decide (s.pc = .user ∨ a = .ret 0 ∨ a = .turn) = true → s.InTime a := by
    intro s a hb
    rcases of_decide_eq_true hb with hpc | rfl | rfl
    · cases a with
      | cxaThreadAtexit function object =>
        cases function with
        | none => trivial
        | some f =>
          rintro ⟨way, round, key, hkey⟩
          rw [hpc] at hkey
          cases hkey
      | _ => trivial
    · trivial
    · trivial
  obtain ⟨s, hs, hends⟩ := EventSystem.Reach.exists_of_runIf (M := threadSystem Unit) hearly
    (s := ⟨fun _ => ⟨none, 0, 0⟩, 0, fun _ => 0, 0, fun _ => 0, 0, false, .user, [], []⟩)
    (.cxaThreadAtexit (some ()) 5 :: .ret 0 :: .turn :: .ret 0 :: List.replicate 35 .turn)
    (p := fun s => s.finished && s.ran = [⟨some (), 5, 0⟩])
    ⟨rfl, rfl, rfl, rfl, rfl, rfl⟩ (by decide)
  simp only [Bool.and_eq_true, decide_eq_true_eq] at hends
  exact ⟨s, destructors_exact hs, hends⟩

/-- The destructor of a key registers one that is accepted, and the thread is finished without
it. -/
theorem late_never_runs : ∃ s : State Unit, (threadSystem Unit).Reachable s ∧ ¬s.Exact := by
  obtain ⟨s, hs, hends⟩ := EventSystem.Reachable.exists_of_run (M := threadSystem Unit)
    (s := ⟨fun _ => ⟨none, 0, 0⟩, 0, fun _ => 0, 0, fun _ => 0, 0, false, .user, [], []⟩)
    ([.keyCreate 1, .setspecific 0 1, .ret 0, .turn, .turn, .cxaThreadAtexit (some ()) 5, .ret 0] ++
      List.replicate 66 .turn)
    (p := fun s => s.finished && s.made = [(⟨some (), 5, 0⟩, 0)] && s.ran = [])
    ⟨rfl, rfl, rfl, rfl, rfl, rfl⟩ (by decide)
  simp only [Bool.and_eq_true, decide_eq_true_eq] at hends
  obtain ⟨⟨hfinished, hmade⟩, hran⟩ := hends
  refine ⟨s, hs, fun hexact => ?_⟩
  have hmem := hexact.all (.inr (.inr hfinished)) ⟨some (), 5, 0⟩
    (hmade ▸ List.mem_cons_self) (Option.some_ne_none _)
  rw [hran] at hmem
  cases hmem

end ThreadExit

end StarOS
