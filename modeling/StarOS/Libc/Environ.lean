import Mathlib.Data.List.Nodup
import StarOS.Lib.EventSystem
import StarOS.Lib.SlotMap

/-!
# The environment

The environment is a table of pointers to strings `KEY=VALUE`, in any order, with a null pointer
behind the last. `setenv` puts a string of the library's own into it and `putenv` one of the
caller's; the table does not say which is which. What `setenv` replaces and what `unsetenv` removes
is freed, and what `putenv` replaces and `clearenv` drops is not.

## Main definitions

* `Environ.Call`, `Environ.call` — the four calls
* `Environ.environment` — any sequence of them, beside a plain map
* `Environ.State.spares` — a call frees no string of the caller's

## Main results

* `Environ.Env.Sound.place`, `Environ.Env.Sound.remove` — what a change of the table keeps
* `Environ.environ_sound`
-/

namespace StarOS

namespace Environ

/-- How many variables the environment holds. -/
def maxVars : ℕ := 64

/-- The byte between a name and a value. -/
def equals : UInt8 := 61

/-- What a call fails with. -/
def einval : ℕ := 22
def enomem : ℕ := 12

/-- A pointer to a string: one the library has allocated, by the number of the allocation, or one of
the caller's. -/
inductive Str
  | own (k : ℕ)
  | given (k : ℕ)
  deriving DecidableEq

/-- Whether a string is the library's. -/
def Str.isOwn : Str → Bool
  | .own _ => true
  | .given _ => false

/-- The table and the heap behind it. -/
structure Env where
  /-- `VARS`, where `none` is the null pointer. -/
  vars : ℕ → Option Str
  count : ℕ
  /-- The strings allocated so far, and the pointers that were freed. -/
  blocks : List (List UInt8)
  freed : List Str

/-- The name in an entry, all of it if there is no `=`. -/
def keyOf (entry : List UInt8) : List UInt8 := entry.takeWhile (· ≠ equals)

/-- What follows the first `=` of an entry. -/
def valueOf (entry : List UInt8) : List UInt8 := entry.drop ((keyOf entry).length + 1)

/-- A string a caller may give to `putenv`. -/
structure Entry where
  bytes : List UInt8
  separated : equals ∈ bytes

section

variable (given : ℕ → Entry)

/-- What a pointer points to. The caller's strings are what they are. -/
def Env.text (s : Env) : Str → List UInt8
  | .own k => s.blocks.getD k []
  | .given k => (given k).bytes

/-- The index of a name in the table, if it is there. -/
def find (s : Env) (name : List UInt8) : Option ℕ :=
  SlotMap.find (fun p => keyOf (s.text given p)) s.vars s.count name

/-- The value of a name: what follows the name and the `=` in its entry. -/
def getenv (s : Env) (name : List UInt8) : Option (List UInt8) :=
  (find given s name).bind fun i => (s.vars i).map fun p => (s.text given p).drop (name.length + 1)

/-- Store a new string at `slot`, at most one past the last, if the heap has room for it. -/
def store (slot : ℕ) (name value : List UInt8) (room : Bool) (s : Env) : Except ℕ Unit × Env :=
  if !room then (.error enomem, s)
  else
    let p := Str.own s.blocks.length
    -- the string replaced is freed
    let replaced := if slot < s.count then (s.vars slot).toList else []
    let s : Env :=
      { s with
        blocks := s.blocks ++ [name ++ equals :: value]
        freed := s.freed ++ replaced
        vars := Function.update s.vars slot (some p) }
    (.ok (), if slot = s.count then
      { s with count := s.count + 1, vars := Function.update s.vars (s.count + 1) none } else s)

/-- Whether a name is not one. -/
def badName (name : List UInt8) : Bool := name.isEmpty || name.contains equals

def setenv (name value : Option (List UInt8)) (overwrite room : Bool) (s : Env) :
    Except ℕ Unit × Env :=
  match name, value with
  | some name, some value =>
    if badName name then (.error einval, s)
    else match find given s name with
      | some i => if overwrite then store i name value room s else (.ok (), s)
      | none => if s.count ≥ maxVars then (.error enomem, s) else store s.count name value room s
  | _, _ => (.error einval, s)

/-- The last entry moves into the hole. -/
def unsetenv (name : Option (List UInt8)) (s : Env) : Except ℕ Unit × Env :=
  match name with
  | none => (.error einval, s)
  | some name =>
    if badName name then (.error einval, s)
    else match find given s name with
      | none => (.ok (), s)
      | some i =>
        let count := s.count - 1
        (.ok (),
          { s with
            freed := s.freed ++ (s.vars i).toList
            count
            vars := Function.update (Function.update s.vars i (s.vars count)) count none })

/-- The caller's string becomes the entry. -/
def putenv (entry : Option ℕ) (s : Env) : Except ℕ Unit × Env :=
  match entry with
  | none => (.error einval, s)
  | some k =>
    let name := keyOf (given k).bytes
    if name.isEmpty then (.error einval, s)
    else match find given s name with
      -- the entry replaced may be the caller's
      | some i => (.ok (), { s with vars := Function.update s.vars i (some (.given k)) })
      | none =>
        if s.count ≥ maxVars then (.error enomem, s)
        else (.ok (),
          { s with
            count := s.count + 1
            vars := Function.update (Function.update s.vars s.count (some (.given k))) (s.count + 1)
              none })

def clearenv (s : Env) : Except ℕ Unit × Env :=
  (.ok (), { s with count := 0, vars := Function.update s.vars 0 none })

/-- A call, and whether the heap has room if it asks for some. A null pointer is `none`. -/
inductive Call
  | setenv (name value : Option (List UInt8)) (overwrite room : Bool)
  | unsetenv (name : Option (List UInt8))
  | putenv (entry : Option ℕ)
  | clearenv
  deriving DecidableEq

def call (s : Env) : Call → Except ℕ Unit × Env
  | .setenv name value overwrite room => setenv given name value overwrite room s
  | .unsetenv name => unsetenv given name s
  | .putenv entry => putenv given entry s
  | .clearenv => clearenv s

/-! ### The plain map -/

/-- What a program believes the environment to be. -/
abbrev Map := List UInt8 → Option (List UInt8)

/-- What a call that succeeds does to a map. -/
def Map.after (m : Map) : Call → Map
  | .setenv (some name) (some value) overwrite _ =>
    if overwrite ∨ m name = none then Function.update m name (some value) else m
  | .unsetenv (some name) => Function.update m name none
  | .putenv (some k) =>
    Function.update m (keyOf (given k).bytes) (some (valueOf (given k).bytes))
  | .clearenv => fun _ => none
  | _ => m

/-- The environment, and the map it is to stand for. -/
structure State where
  env : Env
  map : Map

/-- Any sequence of calls, from an environment with nothing in it. -/
def environment : EventSystem State Call where
  init s := s.env.count = 0 ∧ s.env.vars 0 = none ∧ s.env.blocks = [] ∧ s.env.freed = [] ∧
    s.map = fun _ => none
  next s c :=
    match call given s.env c with
    | (.ok (), env) => some ⟨env, s.map.after given c⟩
    | (.error _, env) => some ⟨env, s.map⟩

/-- What a call would free is the library's. -/
def State.spares (s : State) : Call → Bool
  | .setenv (some name) (some _) true true | .unsetenv (some name) =>
    badName name || (find given s.env name).all fun i => (s.env.vars i).all Str.isOwn
  | _ => true

/-- A string has not been freed. -/
def Env.Live (s : Env) (p : Str) : Prop := p ∉ s.freed ∧ ∀ k, p = .own k → k < s.blocks.length

/-- What the table should be. -/
structure Env.Table (s : Env) : Prop where
  count_le : s.count ≤ maxVars
  live : ∀ i < s.count, ∃ p, s.vars i = some p ∧ s.Live p
  ends : s.vars s.count = none
  /-- The names are distinct. -/
  distinct : ∀ i < s.count, ∀ j < s.count, ∀ p q, s.vars i = some p → s.vars j = some q →
    keyOf (s.text given p) = keyOf (s.text given q) → i = j

/-- Only the library's strings were freed, and none twice. -/
structure Env.Frees (s : Env) : Prop where
  own : ∀ p ∈ s.freed, ∃ k < s.blocks.length, p = .own k
  once : s.freed.Nodup

/-- The table stands for the map, its strings live, and nothing was freed that should not be. -/
structure Env.Sound (s : Env) (m : Map) : Prop where
  count_le : s.count ≤ maxVars
  ends : s.vars s.count = none
  stands : SlotMap.Stands (fun p => keyOf (s.text given p)) (fun p => valueOf (s.text given p))
    s.vars s.count m
  live : ∀ i < s.count, ∀ p, s.vars i = some p → s.Live p
  frees : s.Frees

end

variable {given : ℕ → Entry} {s : Env} {m : Map} {name value : List UInt8} {i k : ℕ} {p : Str}

theorem Str.isOwn_iff : p.isOwn = true ↔ ∃ k, p = .own k := by
  cases p with
  | own k => exact ⟨fun _ => ⟨k, rfl⟩, fun _ => rfl⟩
  | given k =>
    constructor
    · intro h
      cases h
    · rintro ⟨j, h⟩
      cases h

theorem exists_of_find_all {f : Str → Bool}
    (h : ((find given s name).all fun i => (s.vars i).all f) = false) :
    ∃ i p, find given s name = some i ∧ s.vars i = some p ∧ f p = false := by
  cases hfind : find given s name with
  | none =>
    rw [hfind] at h
    cases h
  | some i =>
    cases hp : s.vars i with
    | none => rw [hfind, Option.all_some, hp] at h; cases h
    | some p =>
      rw [hfind, Option.all_some, hp, Option.all_some] at h
      exact ⟨i, p, rfl, hp, h⟩

/-! ### Entries -/

theorem keyOf_append (hname : equals ∉ name) : keyOf (name ++ equals :: value) = name := by
  rw [keyOf, List.takeWhile_append_of_pos, List.takeWhile_cons_of_neg, List.append_nil]
  · simp
  · intro c hc
    exact decide_eq_true fun heq => hname (heq ▸ hc)

theorem valueOf_append (hname : equals ∉ name) : valueOf (name ++ equals :: value) = value := by
  rw [valueOf, keyOf_append hname, List.drop_append, List.drop_eq_nil_of_le (Nat.le_succ _),
    List.nil_append, Nat.add_sub_cancel_left]
  rfl

theorem badName_eq_false : badName name = false ↔ name ≠ [] ∧ equals ∉ name := by
  simp [badName]

/-- Strings allocated later change no string there is. -/
theorem Env.Live.text_append {s' : Env} {block : List UInt8} (h : s.Live p)
    (hblocks : s'.blocks = s.blocks ++ [block]) : s'.text given p = s.text given p := by
  cases p with
  | given k => rfl
  | own k =>
    have hk : k < s.blocks.length := h.2 k rfl
    simp only [Env.text, hblocks, List.getD_eq_getElem?_getD, List.getElem?_append_left hk]

theorem Env.text_last {s' : Env} {block : List UInt8} (hblocks : s'.blocks = s.blocks ++ [block]) :
    s'.text given (.own s.blocks.length) = block := by
  simp only [Env.text, hblocks, List.getD_eq_getElem?_getD, List.getElem?_concat_length,
    Option.getD_some]

theorem Env.Live.mono (h : s.Live p) {s' : Env} (hfreed : s'.freed = s.freed)
    (hblocks : s.blocks.length ≤ s'.blocks.length) : s'.Live p :=
  ⟨hfreed ▸ h.1, fun l hl => Nat.lt_of_lt_of_le (h.2 l hl) hblocks⟩

theorem Env.Frees.mono (h : s.Frees) {s' : Env} (hfreed : s'.freed = s.freed)
    (hblocks : s.blocks.length ≤ s'.blocks.length) : s'.Frees := by
  refine ⟨fun p hp => ?_, hfreed ▸ h.once⟩
  obtain ⟨l, hl, rfl⟩ := h.own p (hfreed ▸ hp)
  exact ⟨l, Nat.lt_of_lt_of_le hl hblocks, rfl⟩

theorem getenv_eq (s : Env) (name : List UInt8) :
    getenv given s name =
      (find given s name).bind fun i => (s.vars i).map fun p => valueOf (s.text given p) := by
  rw [getenv]
  refine Option.bind_congr fun i hi => ?_
  obtain ⟨-, p, hp, rfl⟩ := SlotMap.find_eq_some hi
  rw [hp]
  rfl

namespace Env.Sound

variable (h : s.Sound given m)
include h

theorem table : s.Table given :=
  ⟨h.count_le, fun i hi => (h.stands.full i hi).imp fun p hp => ⟨hp, h.live i hi p hp⟩, h.ends,
    h.stands.distinct⟩

theorem getenv (name : List UInt8) : getenv given s name = m name := by
  rw [getenv_eq]
  exact h.stands.lookup name

/-- A string stands in one slot only. -/
theorem eq_of_vars {j : ℕ} (hi : i < s.count) (hj : j < s.count) (hp : s.vars i = some p)
    (hq : s.vars j = some p) : i = j :=
  h.stands.distinct i hi j hj p p hp hq rfl

/-- A live string of the library's is freed. -/
theorem frees_append (hk : s.Live (.own k)) {s' : Env} (hfreed : s'.freed = s.freed ++ [.own k])
    (hblocks : s.blocks.length ≤ s'.blocks.length) : s'.Frees := by
  refine ⟨fun p hp => ?_, ?_⟩
  · rw [hfreed, List.mem_append, List.mem_singleton] at hp
    obtain hp | rfl := hp
    · obtain ⟨j, hj, rfl⟩ := h.frees.own p hp
      exact ⟨j, by omega, rfl⟩
    · exact ⟨k, Nat.lt_of_lt_of_le (hk.2 k rfl) hblocks, rfl⟩
  · rw [hfreed]
    refine List.nodup_append.mpr ⟨h.frees.once, List.nodup_singleton _, fun p hp q hq => ?_⟩
    rintro rfl
    exact hk.1 (List.mem_singleton.mp hq ▸ hp)

/-- The other strings of the table outlive it. -/
theorem live_append (hi : i < s.count) (hk : s.vars i = some (.own k)) {j : ℕ} (hj : j < s.count)
    (hji : j ≠ i) (hp : s.vars j = some p) {s' : Env} (hfreed : s'.freed = s.freed ++ [.own k])
    (hblocks : s.blocks.length ≤ s'.blocks.length) : s'.Live p := by
  have hlive := h.live j hj p hp
  refine ⟨fun hmem => ?_, fun l hl => Nat.lt_of_lt_of_le (hlive.2 l hl) hblocks⟩
  rw [hfreed, List.mem_append, List.mem_singleton] at hmem
  obtain hmem | rfl := hmem
  · exact hlive.1 hmem
  · exact hji (h.eq_of_vars hj hi hp hk)

theorem given_not_freed : Str.given k ∉ s.freed := by
  intro hmem
  obtain ⟨j, -, heq⟩ := h.frees.own _ hmem
  cases heq

/-- The number of a string that is allocated now is not that of a freed one. -/
theorem last_not_freed : Str.own s.blocks.length ∉ s.freed := by
  intro hmem
  obtain ⟨k, hk, heq⟩ := h.frees.own _ hmem
  rw [Str.own.injEq] at heq
  omega

variable {s' : Env} {q : Str}

theorem stands_text
    (htext : ∀ j < s.count, ∀ r, s.vars j = some r → s'.text given r = s.text given r) :
    SlotMap.Stands (fun p => keyOf (s'.text given p)) (fun p => valueOf (s'.text given p))
      s.vars s.count m := by
  refine h.stands.congr (fun _ _ => rfl) fun j hj r hr => ?_
  rw [htext j hj r hr]
  exact ⟨rfl, rfl⟩

/-- **An entry is replaced** by one of the same name. -/
theorem replace (s' : Env)
    (htext : ∀ j < s.count, ∀ r, s.vars j = some r → s'.text given r = s.text given r)
    (hi : i < s.count) (hp : s.vars i = some p) (hcount : s'.count = s.count)
    (hvars : s'.vars = Function.update s.vars i (some q))
    (hkey : keyOf (s'.text given q) = keyOf (s.text given p))
    (hlive : ∀ j < s.count, j ≠ i → ∀ r, s.vars j = some r → s'.Live r) (hq : s'.Live q)
    (hfrees : s'.Frees) :
    s'.Sound given (Function.update m (keyOf (s'.text given q))
      (some (valueOf (s'.text given q)))) := by
  refine ⟨?_, ?_, ?_, fun j hj r hr => ?_, hfrees⟩
  · rw [hcount]
    exact h.count_le
  · rw [hvars, hcount, Function.update_of_ne (Nat.ne_of_gt hi)]
    exact h.ends
  · rw [hvars, hcount]
    exact (h.stands_text htext).replace hi hp (hkey.trans (congrArg keyOf (htext i hi p hp)).symm)
  · rw [hcount] at hj
    rw [hvars] at hr
    obtain rfl | hji := eq_or_ne j i
    · rw [Function.update_self] at hr
      obtain rfl := Option.some.inj hr
      exact hq
    · rw [Function.update_of_ne hji] at hr
      exact hlive j hj hji r hr

/-- **An entry is added**, and the null pointer moves up. -/
theorem add (s' : Env)
    (htext : ∀ j < s.count, ∀ r, s.vars j = some r → s'.text given r = s.text given r)
    (hroom : s.count < maxVars) (hnew : find given s (keyOf (s'.text given q)) = none)
    (hcount : s'.count = s.count + 1)
    (hvars : s'.vars = Function.update (Function.update s.vars s.count (some q)) (s.count + 1) none)
    (hlive : ∀ j < s.count, ∀ r, s.vars j = some r → s'.Live r) (hq : s'.Live q)
    (hfrees : s'.Frees) :
    s'.Sound given (Function.update m (keyOf (s'.text given q))
      (some (valueOf (s'.text given q)))) := by
  have hstands := h.stands_text htext
  refine ⟨?_, ?_, ?_, fun j hj r hr => ?_, hfrees⟩
  · rw [hcount]
    exact hroom
  · rw [hvars, hcount, Function.update_self]
  · rw [hvars, hcount]
    refine (hstands.add (b := q) ?_).congr (fun j hj => ?_) fun _ _ _ _ => ⟨rfl, rfl⟩
    · rw [hstands.find_eq_none_iff, ← h.stands.find_eq_none_iff]
      exact hnew
    · rw [Function.update_of_ne (Nat.ne_of_lt hj)]
  · rw [hcount] at hj
    rw [hvars, Function.update_of_ne (Nat.ne_of_lt hj)] at hr
    obtain rfl | hji := eq_or_ne j s.count
    · rw [Function.update_self] at hr
      obtain rfl := Option.some.inj hr
      exact hq
    · rw [Function.update_of_ne hji] at hr
      exact hlive j (by omega) r hr

omit h in
/-- What is stored is what the entry says. -/
theorem text_stored (given : ℕ → Entry) (hblocks : s'.blocks = s.blocks ++ [name ++ equals :: value])
    (hname : equals ∉ name) :
    keyOf (s'.text given (.own s.blocks.length)) = name ∧
      valueOf (s'.text given (.own s.blocks.length)) = value := by
  rw [Env.text_last hblocks, keyOf_append hname, valueOf_append hname]
  exact ⟨rfl, rfl⟩

/-- The string just allocated lives. -/
theorem live_stored {block : List UInt8} (hblocks : s'.blocks = s.blocks ++ [block])
    (hfreed : ∀ p ∈ s'.freed, p ∈ s.freed ∨ s.Live p) : s'.Live (.own s.blocks.length) := by
  refine ⟨fun hmem => ?_, fun l hl => ?_⟩
  · obtain hmem | hlive := hfreed _ hmem
    · exact h.last_not_freed hmem
    · exact absurd (hlive.2 _ rfl) (Nat.lt_irrefl _)
  · rw [Str.own.injEq] at hl
    rw [hblocks, List.length_append, ← hl]
    exact Nat.lt_succ_self _

/-- **A stored string takes the place** of one of the library's. -/
theorem store_replace (hname : equals ∉ name) (hi : i < s.count) (hk : s.vars i = some (.own k))
    (hkey : keyOf (s.text given (.own k)) = name) :
    (store i name value true s).1 = .ok () ∧
      ((store i name value true s).2).Sound given (Function.update m name (some value)) := by
  have hstore : store i name value true s = (.ok (),
      { s with
        blocks := s.blocks ++ [name ++ equals :: value]
        freed := s.freed ++ [.own k]
        vars := Function.update s.vars i (some (.own s.blocks.length)) }) := by
    simp only [store, Bool.not_true, Bool.false_eq_true, if_false, if_pos hi, hk,
      if_neg (Nat.ne_of_lt hi), Option.toList_some]
  generalize hs' : (store i name value true s).2 = s'
  rw [hstore] at hs' ⊢
  have hblocks : s'.blocks = s.blocks ++ [name ++ equals :: value] := by rw [← hs']
  have hfreed : s'.freed = s.freed ++ [.own k] := by rw [← hs']
  have hle : s.blocks.length ≤ s'.blocks.length := by
    rw [hblocks, List.length_append]
    exact Nat.le_add_right _ _
  have hlive := h.live i hi _ hk
  obtain ⟨hkeyq, hvalue⟩ := text_stored given hblocks hname
  have hsound := h.replace s' (q := .own s.blocks.length)
    (fun j hj r hr => (h.live j hj r hr).text_append hblocks) hi hk (by rw [← hs']) (by rw [← hs'])
    (hkeyq.trans hkey.symm) (fun j hj hji r hr => h.live_append hi hk hj hji hr hfreed hle)
    (h.live_stored hblocks fun p hp => ?_) (h.frees_append hlive hfreed hle)
  · rw [hkeyq, hvalue] at hsound
    exact ⟨rfl, hsound⟩
  · rw [hfreed, List.mem_append, List.mem_singleton] at hp
    obtain hp | rfl := hp
    · exact .inl hp
    · exact .inr hlive

/-- **A stored string comes last.** -/
theorem store_add (hname : equals ∉ name) (hroom : s.count < maxVars)
    (hnew : find given s name = none) :
    (store s.count name value true s).1 = .ok () ∧
      ((store s.count name value true s).2).Sound given
        (Function.update m name (some value)) := by
  have hstore : store s.count name value true s = (.ok (),
      { s with
        blocks := s.blocks ++ [name ++ equals :: value]
        count := s.count + 1
        vars := Function.update
          (Function.update s.vars s.count (some (.own s.blocks.length))) (s.count + 1) none }) := by
    simp only [store, Bool.not_true, Bool.false_eq_true, if_false, Nat.lt_irrefl, if_true,
      List.append_nil]
  generalize hs' : (store s.count name value true s).2 = s'
  rw [hstore] at hs' ⊢
  have hblocks : s'.blocks = s.blocks ++ [name ++ equals :: value] := by rw [← hs']
  have hfreed : s'.freed = s.freed := by rw [← hs']
  have hle : s.blocks.length ≤ s'.blocks.length := by
    rw [hblocks, List.length_append]
    exact Nat.le_add_right _ _
  obtain ⟨hkeyq, hvalue⟩ := text_stored given hblocks hname
  have hsound := h.add s' (q := .own s.blocks.length)
    (fun j hj r hr => (h.live j hj r hr).text_append hblocks) hroom (by rw [hkeyq]; exact hnew)
    (by rw [← hs']) (by rw [← hs'])
    (fun j hj r hr => (h.live j hj r hr).mono hfreed hle)
    (h.live_stored hblocks fun p hp => .inl (hfreed ▸ hp)) (h.frees.mono hfreed hle)
  rw [hkeyq, hvalue] at hsound
  exact ⟨rfl, hsound⟩

/-- `unsetenv` finds a string of the library's. -/
theorem unset (hi : i < s.count) (hk : s.vars i = some (.own k)) (hs' : s' =
    { s with
      freed := s.freed ++ (s.vars i).toList
      count := s.count - 1
      vars := Function.update (Function.update s.vars i (s.vars (s.count - 1))) (s.count - 1)
        none }) :
    s'.Sound given (Function.update m (keyOf (s.text given (.own k))) none) := by
  have hblocks : s'.blocks = s.blocks := by rw [hs']
  have hcount : s'.count = s.count - 1 := by rw [hs']
  have hfreed : s'.freed = s.freed ++ [.own k] := by rw [hs', hk, Option.toList_some]
  have hvars : ∀ j < s.count - 1,
      s'.vars j = Function.update s.vars i (s.vars (s.count - 1)) j := by
    intro j hj
    rw [hs']
    exact Function.update_of_ne (Nat.ne_of_lt hj) ..
  refine ⟨?_, ?_, ?_, fun j hj r hr => ?_, h.frees_append (h.live i hi _ hk) hfreed
    (Nat.le_of_eq (by rw [hblocks]))⟩
  · rw [hcount]
    exact Nat.le_trans (Nat.sub_le ..) h.count_le
  · rw [hs']
    exact Function.update_self ..
  · rw [hcount]
    refine (h.stands.remove hi hk).congr hvars fun _ _ r _ => ?_
    have htext : s'.text given r = s.text given r := by
      cases r with
      | given k => rfl
      | own k => rw [Env.text, Env.text, hblocks]
    rw [htext]
    exact ⟨rfl, rfl⟩
  · rw [hcount] at hj
    rw [hvars j hj] at hr
    -- the entry stood at `l`, and not at `i`
    obtain ⟨l, hl, hli, hr⟩ : ∃ l < s.count, l ≠ i ∧ s.vars l = some r := by
      obtain rfl | hji := eq_or_ne j i
      · rw [Function.update_self] at hr
        exact ⟨s.count - 1, by omega, by omega, hr⟩
      · rw [Function.update_of_ne hji] at hr
        exact ⟨j, by omega, hji, hr⟩
    exact h.live_append hi hk hl hli hr hfreed (Nat.le_of_eq (by rw [hblocks]))

/-- `putenv` finds the name, and nothing is freed. -/
theorem put_replace (hfind : find given s (keyOf (given k).bytes) = some i) :
    Env.Sound given { s with vars := Function.update s.vars i (some (.given k)) }
      (Function.update m (keyOf (given k).bytes) (some (valueOf (given k).bytes))) := by
  obtain ⟨hi, p, hp, hkey⟩ := SlotMap.find_eq_some hfind
  exact h.replace { s with vars := Function.update s.vars i (some (.given k)) }
    (q := .given k) (fun j _ r _ => by cases r <;> rfl) hi hp rfl rfl hkey.symm
    (fun j hj _ r hr => h.live j hj r hr)
    ⟨h.given_not_freed, fun l hl => by cases hl⟩ (h.frees.mono rfl (Nat.le_refl _))

theorem put_add (hroom : s.count < maxVars)
    (hnew : find given s (keyOf (given k).bytes) = none) :
    Env.Sound given
      { s with
        count := s.count + 1
        vars := Function.update (Function.update s.vars s.count (some (.given k))) (s.count + 1)
          none }
      (Function.update m (keyOf (given k).bytes) (some (valueOf (given k).bytes))) :=
  h.add
    { s with
      count := s.count + 1
      vars := Function.update (Function.update s.vars s.count (some (.given k))) (s.count + 1)
        none }
    (q := .given k) (fun j _ r _ => by cases r <;> rfl) hroom hnew rfl rfl
    (fun j hj r hr => h.live j hj r hr)
    ⟨h.given_not_freed, fun l hl => by cases hl⟩ (h.frees.mono rfl (Nat.le_refl _))

theorem clear : (clearenv s).2.Sound given fun _ => none := by
  rw [clearenv]
  refine ⟨Nat.zero_le _, ?_, .clear, fun i hi => absurd hi (Nat.not_lt_zero i),
    h.frees.mono rfl (Nat.le_refl _)⟩
  exact Function.update_self 0 (none : Option Str) s.vars

end Env.Sound

/-! ### Calls -/

variable {c : Call}

theorem store_error {room : Bool} {e : ℕ} (h : (store i name value room s).1 = .error e) :
    (store i name value room s).2 = s := by
  cases room with
  | false => rfl
  | true => cases h

/-- **A call that fails changes nothing.** -/
theorem call_error {e : ℕ} (h : (call given s c).1 = .error e) : (call given s c).2 = s := by
  revert h
  cases c with
  | setenv name value overwrite room =>
    simp only [call, setenv]
    repeat' split
    all_goals intro h
    all_goals first | rfl | exact store_error h
  | unsetenv name =>
    simp only [call, unsetenv]
    repeat' split
    all_goals intro h
    all_goals first | rfl | cases h
  | putenv entry =>
    simp only [call, putenv]
    repeat' split
    all_goals intro h
    all_goals first | rfl | cases h
  | clearenv =>
    intro h
    cases h

/-- **A call that succeeds** does to the map what it should, if it frees no string of the
caller's. -/
theorem Env.Sound.call_ok (h : s.Sound given m) (hok : State.spares given ⟨s, m⟩ c = true)
    (hcall : (call given s c).1 = .ok ()) :
    (call given s c).2.Sound given (m.after given c) := by
  cases c with
  | setenv name value overwrite room =>
    cases name with
    | none => cases hcall
    | some name =>
    cases value with
    | none => cases hcall
    | some value =>
    cases hbad : badName name with
    | true =>
      simp only [call, setenv, hbad, if_true, reduceCtorEq] at hcall
    | false =>
    have hname := (badName_eq_false.mp hbad).2
    have hmap := h.stands.find_eq_none_iff (k := name)
    rw [Map.after]
    cases hfind : find given s name with
    | some i =>
      obtain ⟨hi, p, hp, hkey⟩ := SlotMap.find_eq_some hfind
      have hm : m name ≠ none := by
        intro hm
        rw [find, hmap.mpr hm] at hfind
        cases hfind
      cases overwrite with
      | false =>
        rw [if_neg (by simp [hm])]
        simp only [call, setenv, hbad, hfind, Bool.false_eq_true, if_false]
        exact h
      | true =>
      rw [if_pos (.inl rfl)]
      simp only [call, setenv, hbad, hfind, Bool.false_eq_true, if_false, if_true] at hcall ⊢
      cases room with
      | false => cases hcall
      | true =>
      obtain ⟨k, rfl⟩ : ∃ k, p = .own k := by
        refine Str.isOwn_iff.mp ?_
        simpa only [State.spares, hbad, hfind, hp, Bool.false_or, Option.all_some] using hok
      exact (h.store_replace hname hi hp hkey).2
    | none =>
      rw [if_pos (.inr (hmap.mp hfind))]
      simp only [call, setenv, hbad, hfind, Bool.false_eq_true, if_false] at hcall ⊢
      split at hcall
      · cases hcall
      · next hroom =>
        rw [if_neg hroom]
        cases room with
        | false => cases hcall
        | true => exact (h.store_add hname (Nat.lt_of_not_le hroom) hfind).2
  | unsetenv name =>
    cases name with
    | none => cases hcall
    | some name =>
    cases hbad : badName name with
    | true => simp only [call, unsetenv, hbad, if_true, reduceCtorEq] at hcall
    | false =>
    rw [Map.after]
    cases hfind : find given s name with
    | none =>
      have hm : m name = none := h.stands.find_eq_none_iff.mp hfind
      rw [← hm, Function.update_eq_self]
      simp only [call, unsetenv, hbad, hfind, Bool.false_eq_true, if_false]
      exact h
    | some i =>
      obtain ⟨hi, p, hp, hkey⟩ := SlotMap.find_eq_some hfind
      obtain ⟨k, rfl⟩ : ∃ k, p = .own k := by
        refine Str.isOwn_iff.mp ?_
        simpa only [State.spares, hbad, hfind, hp, Bool.false_or, Option.all_some] using hok
      simp only [call, unsetenv, hbad, hfind, Bool.false_eq_true, if_false]
      rw [← hkey]
      exact h.unset hi hp rfl
  | putenv entry =>
    cases entry with
    | none => cases hcall
    | some k =>
    rw [Map.after]
    simp only [call, putenv] at hcall ⊢
    split at hcall
    · cases hcall
    · next hempty =>
      rw [if_neg hempty]
      cases hfind : find given s (keyOf (given k).bytes) with
      | some i => exact h.put_replace hfind
      | none =>
        rw [hfind] at hcall
        dsimp only at hcall ⊢
        split at hcall
        · cases hcall
        · next hroom =>
          rw [if_neg hroom]
          exact h.put_add (Nat.lt_of_not_le hroom) hfind
  | clearenv => exact h.clear

/-- What is true of every state of a run in which no call frees a string of the caller's. -/
def State.Sound (given : ℕ → Entry) (s : State) : Prop := s.env.Sound given s.map

theorem State.Sound.next {s s' : State} (h : s.Sound given) (hok : s.spares given c = true)
    (hn : (environment given).next s c = some s') : s'.Sound given := by
  simp only [environment] at hn
  cases hcall : (call given s.env c).1 with
  | ok _ =>
    rw [show call given s.env c = (.ok (), (call given s.env c).2) from Prod.ext hcall rfl] at hn
    obtain rfl := Option.some.inj hn
    exact Env.Sound.call_ok h hok hcall
  | error e =>
    rw [show call given s.env c = (.error e, (call given s.env c).2) from Prod.ext hcall rfl] at hn
    obtain rfl := Option.some.inj hn
    rw [State.Sound, call_error hcall]
    exact h

/-- The guard asks for no more than is needed. -/
theorem spares_of_own
    (hfreed : ∀ p ∈ (call given s c).2.freed, ∃ k, p = .own k) :
    State.spares given ⟨s, m⟩ c = true := by
  by_contra hno
  rw [Bool.not_eq_true] at hno
  -- a string of the caller's is found, and the call frees it
  obtain ⟨p, hmem, hown⟩ : ∃ p ∈ (call given s c).2.freed, p.isOwn = false := by
    cases c with
    | setenv name value overwrite room =>
      cases name <;> cases value <;> cases overwrite <;> cases room <;> try cases hno
      rename_i name value
      obtain ⟨hbad, hall⟩ := Bool.or_eq_false_iff.mp hno
      obtain ⟨i, p, hfind, hp, hown⟩ := exists_of_find_all hall
      have hi := (SlotMap.find_eq_some hfind).1
      have hp : s.vars i = some p := hp
      refine ⟨p, ?_, hown⟩
      simp [call, setenv, hbad, hfind, store, hi, hp, Nat.ne_of_lt hi]
    | unsetenv name =>
      cases name with
      | none => cases hno
      | some name =>
      obtain ⟨hbad, hall⟩ := Bool.or_eq_false_iff.mp hno
      obtain ⟨i, p, hfind, hp, hown⟩ := exists_of_find_all hall
      have hp : s.vars i = some p := hp
      refine ⟨p, ?_, hown⟩
      simp [call, unsetenv, hbad, hfind, hp]
    | putenv entry => cases hno
    | clearenv => cases hno
  obtain ⟨k, rfl⟩ := hfreed p hmem
  cases hown

/-- **The environment is a plain map** as long as no call frees a string of the caller's: in every
state reached so, the table holds live strings of distinct names with a null pointer behind them,
`getenv` says what the map says, and what was freed is the library's, each string once. A call that
fails changes nothing, and the next call frees only strings of the library's if and only if it meets
the guard. -/
theorem environ_sound (given : ℕ → Entry) (s : State)
    (h : (environment given).Reach (fun s c => s.spares given c = true) s) :
    s.env.Table given ∧ (∀ name, getenv given s.env name = s.map name) ∧ s.env.Frees ∧
      (∀ c e, (call given s.env c).1 = .error e → (call given s.env c).2 = s.env) ∧
      ∀ c, (∀ p ∈ (call given s.env c).2.freed, ∃ k, p = .own k) ↔ s.spares given c = true := by
  have hsound : s.Sound given := by
    refine EventSystem.Reach.invariant (I := State.Sound given) ?_ ?_ h
    · rintro s ⟨hcount, hvars, hblocks, hfreed, hmap⟩
      refine ⟨hcount ▸ Nat.zero_le _, hcount ▸ hvars, ?_, fun i hi => ?_, ?_⟩
      · rw [hcount, hmap]
        exact .clear
      · rw [hcount] at hi
        exact absurd hi (Nat.not_lt_zero i)
      · refine ⟨fun p hp => ?_, ?_⟩
        · rw [hfreed] at hp
          cases hp
        · rw [hfreed]
          exact List.nodup_nil
    · exact fun s c s' hs hok hn => hs.next hok hn
  refine ⟨hsound.table, hsound.getenv, hsound.frees, fun c e he => call_error he, fun c =>
    ⟨fun hown => spares_of_own hown, fun hok p hp => ?_⟩⟩
  cases hcall : (call given s.env c).1 with
  | ok _ =>
    obtain ⟨k, -, rfl⟩ := (Env.Sound.call_ok hsound hok hcall).frees.own p hp
    exact ⟨k, rfl⟩
  | error e =>
    rw [call_error hcall] at hp
    obtain ⟨k, -, rfl⟩ := hsound.frees.own p hp
    exact ⟨k, rfl⟩

/-- `A=1`, which is the caller's. -/
def callers (_ : ℕ) : Entry := ⟨[65, 61, 49], by decide⟩

/-- An environment with nothing in it. -/
def empty : State := ⟨⟨fun _ => none, 0, [], []⟩, fun _ => none⟩

theorem environ_sound_kept : ∃ s : State, s.env.count = 1 ∧ s.env.freed = [.own 0, .own 1] ∧
    getenv callers s.env [65] = s.map [65] := by
  obtain ⟨s, hs, hend⟩ := EventSystem.Reach.exists_of_runIf (M := environment callers)
    (b := State.spares callers) (fun _ _ => id)
    [.setenv (some [66]) (some [49]) false true, .setenv (some [66]) (some [50]) true true,
      .putenv (some 0), .unsetenv (some [66])]
    (s := empty) (p := fun s => s.env.count = 1 ∧ s.env.freed = [.own 0, .own 1])
    ⟨rfl, rfl, rfl, rfl, rfl⟩ (by decide +kernel)
  obtain ⟨hcount, hfreed⟩ := of_decide_eq_true hend
  exact ⟨s, hcount, hfreed, (environ_sound callers s hs).2.1 _⟩

/-- `unsetenv` frees the string `putenv` was given. -/
theorem environ_frees_callers :
    ∃ s : State, (environment callers).Reachable s ∧ Str.given 0 ∈ s.env.freed := by
  obtain ⟨s, hs, hend⟩ := EventSystem.Reachable.exists_of_run (M := environment callers)
    [.putenv (some 0), .unsetenv (some [65])] (s := empty)
    (p := fun s => .given 0 ∈ s.env.freed) ⟨rfl, rfl, rfl, rfl, rfl⟩ (by decide +kernel)
  exact ⟨s, hs, of_decide_eq_true hend⟩

end Environ

end StarOS
