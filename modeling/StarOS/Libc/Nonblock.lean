import StarOS.Libc.Alias

/-!
# Which descriptors block

Whether a descriptor blocks stands in an array beside the table. What fills an entry is to say what
stands there: a creation its flags, and a duplication what stands there for its source. `dup2` and
`dup3` fill an entry and say nothing.

## Main definitions

* `Fd.Call` — the calls
* `Fd.Modes` — a table, and for each descriptor the mode it was given
* `Fd.Modes.Agree` — the array says so
* `Fd.Call.Keeps` — the call leaves behind the mode it is to give

## Main results

* `Fd.Modes.agree_step` — one call
* `Fd.modes_exact`
-/

namespace StarOS

namespace Fd

/-- A call that fills an entry, leaves it or sets its mode. -/
inductive Call
  /-- A file was opened with these flags. -/
  | openFile (flags : BitVec 32) (handle size : BitVec 64)
  | eventfd (initial : ℤ) (flags : BitVec 32)
  | endpointFd (cap : Handle) (bound : ℤ)
  | pipe2 (flags : BitVec 32)
  | setNonblock (fd : ℤ) (on : Bool)
  | dup (fd : ℤ)
  | dup3 (old new : ℤ)
  | dup2 (old new : ℤ)
  | close (fd : ℤ)
  | closeRange (first last : ℤ)

/-- The table after a call. Opening a file does not look at the flags. -/
def Call.run (s : Fds) : Call → Fds
  | .openFile _ handle size => (Fd.installFile handle size s).2
  | .eventfd initial flags => (Fd.eventfd initial flags s).2
  | .endpointFd cap bound => (Fd.endpointFd cap bound s).2
  | .pipe2 flags => (Fd.pipe2 flags s).2
  | .setNonblock fd on => (Fd.setNonblock fd on s).2
  | .dup fd => (Fd.dup fd s).2
  | .dup3 old new => (Fd.dup3 old new s).2
  | .dup2 old new => (Fd.dup2 old new s).2
  | .close fd => (release fd s).2
  | .closeRange first last => (Fd.closeRange first last s).2

/-- A table, and for each descriptor the mode it was given last. -/
structure Modes where
  fds : Fds
  mode : Fin maxFds → Bool

namespace Modes

/-- What a call opens gets a mode. -/
def opened (t : Modes) (on : Bool) (fds : Fds) : Modes where
  fds := fds
  mode i := if t.fds.kinds i = .free then on else t.mode i

/-- One descriptor gets a mode. -/
def given (t : Modes) (fd : ℤ) (on : Bool) (fds : Fds) : Modes where
  fds := fds
  mode i := if number i = fd then on else t.mode i

/-- The mode of a descriptor. -/
def modeOf (t : Modes) (fd : ℤ) : Bool := (index fd).any t.mode

def step (t : Modes) (call : Call) : Modes :=
  let fds := call.run t.fds
  match call with
  | .openFile flags _ _ | .eventfd _ flags | .pipe2 flags => t.opened (flags &&& oNonblock ≠ 0) fds
  | .endpointFd .. => t.opened false fds
  | .setNonblock fd on => t.given fd on fds
  | .dup fd => t.opened (t.modeOf fd) fds
  | .dup3 old new | .dup2 old new =>
    if t.fds.get old = none ∨ old = new then { t with fds } else t.given new (t.modeOf old) fds
  | .close _ | .closeRange .. => { t with fds }

def run (t : Modes) (calls : List Call) : Modes := calls.foldl step t

/-- What is open blocks as it was told to. -/
def Agree (t : Modes) : Prop :=
  ∀ i, t.fds.kinds i ≠ .free → (isNonblock (number i) t.fds).1 = t.mode i

end Modes

/-- The call leaves behind the mode it is to give: a file is not opened in the other mode, and what
a duplication replaces last had the mode of what it is replaced by. -/
def Call.Keeps (s : Fds) : Call → Prop
  | .openFile flags _ _ => flags &&& oNonblock = 0 ∨ ∀ i, s.kinds i ≠ .free
  | .dup3 old new | .dup2 old new => ∀ i j, old = number i → new = number j → s.kinds i ≠ .free →
      s.nonblock j = s.nonblock i
  | _ => True

/-- Every call of a run does. -/
def AllKeep : List Call → Modes → Prop
  | [], _ => True
  | call :: calls, t => call.Keeps t.fds ∧ AllKeep calls (t.step call)

/-! ### What the calls leave in the array -/

variable {s s' s₁ : Fds} {i j : Fin maxFds} {fd : ℤ} {kind : Kind} {on : Bool} {w : Slot}

theorem isNonblock_number (i : Fin maxFds) (s : Fds) :
    (isNonblock (number i) s).1 = s.nonblock i := by
  rw [isNonblock, index_number]
  rfl

theorem Opens.refl (s : Fds) (on : Bool) : Opens s s on := opens_none rfl fun _ _ => rfl

theorem opens_installed (hfree : s.kinds i = .free) (kind : Kind) :
    Opens s (s.installed i kind) false :=
  opens_one (k := kind) hfree rfl (fun _ _ => rfl) rfl

theorem Makes.opens (h : Makes s s' on) : Opens s s' on := by
  obtain rfl | ⟨w, -, ho⟩ := h
  · exact .refl _ on
  · exact ho

theorem installFile_opens (handle size : BitVec 64) (s : Fds) :
    Opens s (installFile handle size s).2 false := by
  obtain hfull | ⟨i, hfree, hinst⟩ := installFile_cases handle size s
  · rw [hfull]
    exact .refl ..
  · rw [hinst]
    exact opens_installed hfree _

theorem dup_opens (fd : ℤ) (s : Fds) : Opens s (dup fd s).2 ((index fd).any s.nonblock) := by
  rw [dup, bind_of_eq (get_run fd s)]
  cases hget : s.get fd with
  | none => exact .refl ..
  | some kind =>
    obtain ⟨j, rfl, rfl, hne⟩ := Fds.get_eq_some.mp hget
    dsimp only
    obtain ⟨hfull, -⟩ | ⟨i, hfree, hinst⟩ := install_cases (s.kinds j) s
    · rw [bind_of_eq hfull]
      exact .refl ..
    have hji : j ≠ i := fun h => hne (h ▸ hfree)
    have hmode : isNonblock (number j) (s.installed i (s.kinds j)) =
        (s.nonblock j, s.installed i (s.kinds j)) := by
      rw [isNonblock, index_number]
      exact congrArg (·, _) (Function.update_of_ne hji ..)
    rw [bind_of_eq hinst, bind_of_eq hmode, index_number, Option.any_some]
    by_cases hon : s.nonblock j = true
    · rw [if_pos ⟨number_nonneg i, hon⟩, hon, bind_of_eq (setNonblock_installed hne true)]
      exact opens_one (k := s.kinds j) hfree rfl (fun _ _ => rfl) rfl
    · rw [if_neg (fun h => hon h.2), Bool.not_eq_true _ |>.mp hon]
      exact opens_installed hfree _

/-- What a call that closes does to the modes: nothing. -/
theorem nonblock_release (fd : ℤ) (s : Fds) : (release fd s).2.nonblock = s.nonblock ∧
    ∀ i, (release fd s).2.kinds i ≠ .free → s.kinds i ≠ .free := by
  obtain hnone | ⟨j, rfl, -, hrel⟩ := release_cases fd s
  · rw [hnone]
    exact ⟨rfl, fun _ => id⟩
  · rw [hrel]
    refine ⟨s.nonblock_released j, fun i hi hfree => hi ?_⟩
    rw [Fds.kinds_released, Function.update_apply]
    split
    · rfl
    · exact hfree

theorem nonblock_closeFrom (n : ℕ) (first : ℤ) (s : Fds) :
    (closeFrom first n s).2.nonblock = s.nonblock ∧
      ∀ i, (closeFrom first n s).2.kinds i ≠ .free → s.kinds i ≠ .free := by
  induction n generalizing first s with
  | zero => exact ⟨rfl, fun _ => id⟩
  | succ n ih =>
    have hfirst := nonblock_release first s
    have hrest := ih (first + 1) (release first s).2
    exact ⟨hrest.1.trans hfirst.1, fun i hi => hfirst.2 i (hrest.2 i hi)⟩

/-! ### Runs -/

namespace Modes

variable {t : Modes} {fds : Fds}

theorem agree_iff : t.Agree ↔ ∀ i, t.fds.kinds i ≠ .free → t.fds.nonblock i = t.mode i :=
  forall_congr' fun i => by rw [isNonblock_number]

theorem agree_opened (h : t.Agree) (ho : Opens t.fds fds on) : (t.opened on fds).Agree := by
  rw [agree_iff] at h ⊢
  intro i hi
  by_cases hfree : t.fds.kinds i = .free
  · exact (ho.new i hfree hi).trans (if_pos hfree).symm
  · exact (ho.old i hfree).trans ((h i hfree).trans (if_neg hfree).symm)

theorem agree_kept (h : t.Agree) (hn : fds.nonblock = t.fds.nonblock)
    (hk : ∀ i, fds.kinds i ≠ .free → t.fds.kinds i ≠ .free) : Agree { t with fds } := by
  rw [agree_iff] at h ⊢
  exact fun i hi => (congrFun hn i).trans (h i (hk i hi))

/-- A duplication onto a number leaves the array as it is. -/
theorem agree_dup3 (h : t.Agree) {old new : ℤ} (hno : ¬ (t.fds.get old = none ∨ old = new)) :
    (t.given new (t.modeOf old) (Fd.dup3 old new t.fds).2).Agree ↔
      ∀ i j, old = number i → new = number j → t.fds.kinds i ≠ .free →
        t.fds.nonblock j = t.fds.nonblock i := by
  rw [not_or] at hno
  have hrel := nonblock_release new t.fds
  rw [agree_iff] at h ⊢
  obtain ⟨hrun, hindex⟩ | ⟨j, i, rfl, hi, rfl, hji, hrun⟩ := dup3_cases old new t.fds hno.1 hno.2
  · refine iff_of_true (fun l hl => ?_) fun i j hi hj => ?_
    · rw [hrun] at hl ⊢
      have hne : number l ≠ new := by
        rintro rfl
        rw [index_number] at hindex
        cases hindex
      exact (congrFun hrel.1 l).trans ((h l (hrel.2 l hl)).trans (if_neg hne).symm)
    · rw [hj, index_number] at hindex
      cases hindex
  · have hmode : t.modeOf (number i) = t.fds.nonblock i := by
      rw [modeOf, index_number, Option.any_some, h i hi]
    have hkinds : (Fd.dup3 (number i) (number j) t.fds).2.kinds j = t.fds.kinds i := by
      rw [hrun]
      exact Function.update_self ..
    have hnonblock : (Fd.dup3 (number i) (number j) t.fds).2.nonblock = t.fds.nonblock := by
      rw [hrun]
      exact hrel.1
    have hothers : ∀ l, l ≠ j → (Fd.dup3 (number i) (number j) t.fds).2.kinds l ≠ .free →
        t.fds.kinds l ≠ .free := by
      intro l hlj hl
      rw [hrun] at hl
      refine hrel.2 l ?_
      rwa [← Function.update_of_ne hlj (t.fds.kinds i) (release (number j) t.fds).2.kinds]
    refine ⟨fun hagree i' j' hi' hj' _ => ?_, fun hkeep l hl => ?_⟩
    · obtain rfl := number_inj.mp hi'
      obtain rfl := number_inj.mp hj'
      have hj := hagree j (by show (Fd.dup3 _ _ _).2.kinds j ≠ _; rw [hkinds]; exact hi)
      exact (congrFun hnonblock j).symm.trans (hj.trans ((if_pos rfl).trans hmode))
    · show (Fd.dup3 _ _ _).2.nonblock l = if number l = number j then _ else _
      rw [hnonblock]
      by_cases hlj : l = j
      · rw [if_pos (congrArg number hlj), hlj, hmode]
        exact hkeep i j rfl rfl hi
      · rw [if_neg (fun heq => hlj (number_inj.mp heq))]
        exact h l (hothers l hlj hl)

theorem agree_setNonblock (h : t.Agree) (fd : ℤ) (on : Bool) :
    (t.given fd on (Fd.setNonblock fd on t.fds).2).Agree := by
  have hkinds := setNonblock_kinds fd on t.fds
  rw [agree_iff] at h ⊢
  intro i hi
  have hi : t.fds.kinds i ≠ .free := by
    rw [← hkinds.1]
    exact hi
  show (Fd.setNonblock fd on t.fds).2.nonblock i = if number i = fd then on else t.mode i
  by_cases hfd : number i = fd
  · rw [if_pos hfd, ← hfd, setNonblock_number hi]
    exact Function.update_self ..
  · rw [if_neg hfd, ← h i hi, Fd.setNonblock]
    split
    · rfl
    split
    · rfl
    · next j hj =>
      split
      · have hij : i ≠ j := fun hij => hfd (by rw [index_eq_some.mp hj, hij])
        exact Function.update_of_ne hij ..
      · rfl

/-- **One call** keeps the agreement if and only if it leaves behind the mode it is to give. -/
theorem agree_step (h : t.Agree) (call : Call) : (t.step call).Agree ↔ call.Keeps t.fds := by
  have hdup3 : ∀ old new, (t.step (.dup3 old new)).Agree ↔ (Call.dup3 old new).Keeps t.fds := by
    intro old new
    show Agree (if t.fds.get old = none ∨ old = new then _ else _) ↔ _
    by_cases hno : t.fds.get old = none ∨ old = new
    · rw [if_pos hno]
      refine iff_of_true ?_ fun i j hi hj hfree => ?_
      · show Agree { t with fds := (Fd.dup3 old new t.fds).2 }
        rw [dup3_refused hno]
        exact h
      · obtain hnone | heq := hno
        · rw [hi, Fds.get_number.mpr ⟨rfl, hfree⟩] at hnone
          cases hnone
        · rw [number_inj.mp (hi.symm.trans (heq.trans hj))]
    · rw [if_neg hno]
      exact agree_dup3 h hno
  cases call with
  | openFile flags handle size =>
    by_cases hflag : flags &&& oNonblock = 0
    · refine iff_of_true (agree_opened h ?_) (.inl hflag)
      rw [decide_eq_false (not_not.mpr hflag)]
      exact installFile_opens handle size t.fds
    obtain ⟨hfull, hnofree⟩ | ⟨i, hfree, hinst⟩ := install_cases (.file handle size 0) t.fds
    · refine iff_of_true (agree_opened h ?_) (.inr hnofree)
      show Opens t.fds (install (.file handle size 0) t.fds).2 _
      rw [hfull]
      exact .refl ..
    · refine iff_of_false (fun hagree => ?_) fun hkeep => ?_
      · -- the new descriptor blocks, but was asked not to
        have hnew := agree_iff.mp hagree i
        have hopen : (t.fds.installed i (.file handle size 0)).kinds i = .file handle size 0 :=
          Function.update_self ..
        have hblocks : (t.fds.installed i (.file handle size 0)).nonblock i = false :=
          Function.update_self ..
        have hasked : (t.step (.openFile flags handle size)).mode i = true :=
          (if_pos hfree).trans (decide_eq_true hflag)
        have hfds : (t.step (.openFile flags handle size)).fds =
            t.fds.installed i (.file handle size 0) := congrArg Prod.snd hinst
        rw [hfds, hopen, hblocks, hasked] at hnew
        exact absurd (hnew Kind.noConfusion) Bool.false_ne_true
      · exact hkeep.elim hflag fun hnofree => hnofree i hfree
  | eventfd initial flags => exact iff_of_true (agree_opened h (eventfd_makes ..).opens) trivial
  | endpointFd cap bound => exact iff_of_true (agree_opened h (endpointFd_makes ..).opens) trivial
  | pipe2 flags => exact iff_of_true (agree_opened h (pipe2_makes ..).opens) trivial
  | setNonblock fd on => exact iff_of_true (agree_setNonblock h fd on) trivial
  | dup fd =>
    refine iff_of_true (agree_opened h ?_) trivial
    cases hget : t.fds.get fd with
    | none =>
      show Opens t.fds (Fd.dup fd t.fds).2 _
      rw [Fd.dup, bind_of_eq (get_run fd t.fds), hget]
      exact .refl ..
    | some kind =>
      obtain ⟨i, rfl, rfl, hopen⟩ := Fds.get_eq_some.mp hget
      have hopens := dup_opens (number i) t.fds
      rw [index_number, Option.any_some, agree_iff.mp h i hopen] at hopens
      rwa [modeOf, index_number, Option.any_some]
  | dup3 old new => exact hdup3 old new
  | dup2 old new => exact hdup3 old new
  | close fd =>
    have hrel := nonblock_release fd t.fds
    exact iff_of_true (agree_kept h hrel.1 hrel.2) trivial
  | closeRange first last =>
    have hclose := nonblock_closeFrom (last + 1 - first).toNat first t.fds
    exact iff_of_true (agree_kept h hclose.1 hclose.2) trivial

theorem agree_run (h : t.Agree) (calls : List Call) (hkeep : AllKeep calls t) :
    (t.run calls).Agree := by
  induction calls generalizing t with
  | nil => exact h
  | cons call calls ih => exact ih ((agree_step h call).mpr hkeep.1) hkeep.2

end Modes

/-- **Blocking mode belongs to the descriptor** now in the entry, in every run whose calls leave
behind the modes they are to give. The first call that does not is where it ends. -/
theorem modes_exact (t : Modes) (h : ∀ i, t.fds.kinds i = .free) (calls : List Call)
    (hkeep : AllKeep calls t) : (t.run calls).Agree ∧
      ∀ call : Call, ((t.run calls).step call).Agree ↔ call.Keeps (t.run calls).fds := by
  have hstart : t.Agree := fun i hi => absurd (h i) hi
  have hrun := Modes.agree_run hstart calls hkeep
  exact ⟨hrun, fun call => Modes.agree_step hrun call⟩

/-- An eventfd that does not block is closed, and a pipe's end that blocks is put in its place. -/
theorem modes_stale : ¬ ∀ (t : Modes), (∀ i, t.fds.kinds i = .free) → ∀ calls : List Call,
    (t.run calls).Agree := by
  intro hall
  have hagree := hall ⟨emptyFds, fun _ => false⟩ (fun _ => rfl)
    [.eventfd 0 oNonblock, .pipe2 0, .close 3, .dup2 4 3] ⟨0, by decide⟩ (by decide +kernel)
  exact absurd hagree (by decide +kernel)

/-- The end of a pipe that does not block is put in the place of another one. -/
theorem modes_exact_dup : (Modes.run ⟨emptyFds, fun _ => false⟩
      [.pipe2 oNonblock, .eventfd 0 oNonblock, .dup2 3 5]).Agree ∧
    ∀ call : Call, ((Modes.run ⟨emptyFds, fun _ => false⟩
      [.pipe2 oNonblock, .eventfd 0 oNonblock, .dup2 3 5]).step call).Agree ↔
        call.Keeps (Modes.run ⟨emptyFds, fun _ => false⟩
          [.pipe2 oNonblock, .eventfd 0 oNonblock, .dup2 3 5]).fds := by
  refine modes_exact ⟨emptyFds, fun _ => false⟩ (fun _ => rfl) _ ⟨trivial, trivial, ?_, trivial⟩
  intro i j hi hj _
  rw [(number_inj (i := i) (j := ⟨0, by decide⟩)).mp hi.symm,
    (number_inj (i := j) (j := ⟨2, by decide⟩)).mp hj.symm]
  decide +kernel

end Fd

end StarOS
