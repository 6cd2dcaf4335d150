import StarOS.Libc.Fd

/-!
# Which descriptors share an object

Descriptors come to share an object by duplication only, and this file follows where each of them
comes from: a creation gives its descriptors a number of their own, and a copy takes the number of
what it is a copy of.

The table keeps no reference count. Releasing a copy releases the object, and after that the names
and the slots are out of step. As long as whatever is released is the last of its copies they stay
in step.

## Main definitions

* `Fd.Kind.Same` — two descriptors are copies of each other
* `Fd.Op`, `Fd.Op.Lone` — the calls, and that what they release has no copy
* `Fd.Lineage` — a table with the origin of each descriptor
* `Fd.SlotSound` — the names of a slot and the slot are in step

## Main results

* `Fd.Sound.released`, `Fd.Sound.copied`, `Fd.Sound.create` — what the calls are made of
* `Fd.Lineage.sound_step`, `Fd.names_sound` — a call, and a run
-/

namespace StarOS

namespace Fd

/-- Copies of each other: the same slot, and the same end if it is a pipe. -/
def Kind.Same (k k' : Kind) : Prop := k.slot ≠ none ∧ k.slot = k'.slot ∧ k.side = k'.side

instance (k k' : Kind) : Decidable (k.Same k') :=
  inferInstanceAs (Decidable (_ ∧ _ ∧ _))

/-- No other open descriptor is a copy of this one. -/
def Fds.Lone (s : Fds) (fd : ℤ) : Prop :=
  ∀ i, fd = number i → ∀ j, j ≠ i → ¬ (s.kinds i).Same (s.kinds j)

instance (s : Fds) (fd : ℤ) : Decidable (s.Lone fd) :=
  inferInstanceAs (Decidable (∀ i, fd = number i → ∀ j, j ≠ i → ¬ (s.kinds i).Same (s.kinds j)))

/-! ### Runs -/

/-- A call on the table. -/
inductive Op
  | eventfd (initial : ℤ) (flags : BitVec 32)
  | endpointFd (cap : Handle) (bound : ℤ)
  | pipe2 (flags : BitVec 32)
  /-- A file was opened. -/
  | installFile (handle size : BitVec 64)
  | dup (fd : ℤ)
  | dup3 (old new : ℤ)
  | dup2 (old new : ℤ)
  | close (fd : ℤ)
  | closeRange (first last : ℤ)

/-- The table after a call. -/
def Op.run (s : Fds) : Op → Fds
  | .eventfd initial flags => (Fd.eventfd initial flags s).2
  | .endpointFd cap bound => (Fd.endpointFd cap bound s).2
  | .pipe2 flags => (Fd.pipe2 flags s).2
  | .installFile handle size => (Fd.installFile handle size s).2
  | .dup fd => (Fd.dup fd s).2
  | .dup3 old new => (Fd.dup3 old new s).2
  | .dup2 old new => (Fd.dup2 old new s).2
  | .close fd => (release fd s).2
  | .closeRange first last => (Fd.closeRange first last s).2

/-- None of these descriptors has a copy when its turn comes to be released. -/
def LoneFrom (first : ℤ) : ℕ → Fds → Prop
  | 0, _ => True
  | n + 1, s => s.Lone first ∧ LoneFrom (first + 1) n (release first s).2

/-- What the call releases has no copy. -/
def Op.Lone (s : Fds) : Op → Prop
  | .dup3 old new => s.get old ≠ none → old ≠ new → s.Lone new
  | .dup2 old new => s.get old ≠ none → old ≠ new → s.Lone new
  | .close fd => s.Lone fd
  | .closeRange first last => LoneFrom first (last + 1 - first).toNat s
  | _ => True

/-- A table, and for each descriptor the creation it descends from. -/
structure Lineage where
  fds : Fds
  origin : Fin maxFds → ℕ
  /-- How many calls have created something. -/
  created : ℕ

namespace Lineage

/-- What a creation opens descends from it. -/
def create (t : Lineage) (fds : Fds) : Lineage where
  fds := fds
  origin i := if t.fds.kinds i = .free then t.created else t.origin i
  created := t.created + 1

/-- What a duplication opens descends from what its original does. -/
def copy (t : Lineage) (old : ℤ) (opened : Fin maxFds → Prop) [DecidablePred opened] (fds : Fds) :
    Lineage where
  fds := fds
  origin i := if opened i then ((index old).map t.origin).getD (t.origin i) else t.origin i
  created := t.created

def step (t : Lineage) (op : Op) : Lineage :=
  match op with
  | .eventfd .. | .endpointFd .. | .pipe2 .. | .installFile .. => t.create (op.run t.fds)
  | .dup fd => t.copy fd (t.fds.kinds · = .free) (op.run t.fds)
  | .dup3 old new | .dup2 old new =>
    if t.fds.get old = none ∨ old = new then t else t.copy old (number · = new) (op.run t.fds)
  | .close _ | .closeRange .. => { t with fds := op.run t.fds }

def run (t : Lineage) (ops : List Op) : Lineage := ops.foldl step t

/-- Whatever is released in a run has no copy. -/
def AllLone : List Op → Lineage → Prop
  | [], _ => True
  | op :: ops, t => op.Lone t.fds ∧ AllLone ops (t.step op)

end Lineage

/-! ### Names and slots -/

/-- The descriptors that name a slot and the slot are in step: it is in use, they descend from one
creation, and the ends of a pipe that are named are counted. -/
structure SlotSound (s : Fds) (origin : Fin maxFds → ℕ) (w : Slot) : Prop where
  used : ∀ i, (s.kinds i).slot = some w → (s.waitables w).used = true
  origin : ∀ i j, (s.kinds i).slot = some w → (s.kinds j).slot = some w → origin i = origin j
  sides : ∀ i j, (s.kinds i).slot = some w → (s.kinds j).slot = some w →
    (s.kinds i).side.isSome = (s.kinds j).side.isSome
  ends : ∀ i b, s.kinds i = .pipe w b →
    (s.waitables w).ends = if ∃ j, s.kinds j = .pipe w (!b) then 2 else 1

/-- All of them are. -/
def Sound (s : Fds) (origin : Fin maxFds → ℕ) : Prop := ∀ w, SlotSound s origin w

variable {s s' : Fds} {origin origin' : Fin maxFds → ℕ} {w : Slot} {i j : Fin maxFds} {fd : ℤ}

theorem slot_pipe {k : Kind} {b : Bool} (h : k = .pipe w b) : k.slot = some w := h ▸ rfl

theorem slot_free {k : Kind} (h : k = .free) : k.slot ≠ some w := h ▸ nofun

/-- A descriptor that names the slot of a pipe is an end of it. -/
theorem eq_pipe {k : Kind} (hslot : k.slot = some w) (hside : k.side.isSome = true) :
    ∃ b, k = .pipe w b := by
  cases k with
  | pipe slot b =>
    obtain rfl : slot = w := Option.some.inj hslot
    exact ⟨b, rfl⟩
  | _ => cases hside

/-- Only the descriptors that name a slot matter to it. -/
theorem SlotSound.congr (h : SlotSound s origin w)
    (hkinds : ∀ i, (s'.kinds i).slot = some w → s'.kinds i = s.kinds i ∧ origin' i = origin i)
    (hback : ∀ i, (s.kinds i).slot = some w → s'.kinds i = s.kinds i)
    (hw : s'.waitables w = s.waitables w) : SlotSound s' origin' w where
  used i hi := by
    obtain ⟨hk, -⟩ := hkinds i hi
    rw [hw]
    exact h.used i (hk ▸ hi)
  origin i j hi hj := by
    obtain ⟨hki, hoi⟩ := hkinds i hi
    obtain ⟨hkj, hoj⟩ := hkinds j hj
    rw [hoi, hoj]
    exact h.origin i j (hki ▸ hi) (hkj ▸ hj)
  sides i j hi hj := by
    obtain ⟨hki, -⟩ := hkinds i hi
    obtain ⟨hkj, -⟩ := hkinds j hj
    rw [hki, hkj]
    exact h.sides i j (hki ▸ hi) (hkj ▸ hj)
  ends i b hi := by
    obtain ⟨hk, -⟩ := hkinds i (slot_pipe hi)
    rw [hw, h.ends i b (hk ▸ hi)]
    refine if_congr ⟨?_, ?_⟩ rfl rfl
    · rintro ⟨j, hj⟩
      exact ⟨j, (hback j (slot_pipe hj)).trans hj⟩
    · rintro ⟨j, hj⟩
      exact ⟨j, (hkinds j (slot_pipe hj)).1 ▸ hj⟩

theorem slotSound_of_unnamed (h : ∀ i, (s.kinds i).slot ≠ some w) : SlotSound s origin w where
  used i hi := absurd hi (h i)
  origin i _ hi := absurd hi (h i)
  sides i _ hi := absurd hi (h i)
  ends i _ hi := absurd (slot_pipe hi) (h i)

/-- A slot that is not in use is not named. -/
theorem Sound.unnamed (h : Sound s origin) (hw : (s.waitables w).used = false) (i : Fin maxFds) :
    (s.kinds i).slot ≠ some w := by
  intro hi
  have hused := (h w).used i hi
  rw [hw] at hused
  cases hused

/-- **Releasing** a descriptor that has no copy. -/
theorem Sound.released (h : Sound s origin) (hfree : s.kinds i ≠ .free) (hl : s.Lone (number i)) :
    Sound (s.released i) origin := by
  intro w
  have hkinds := s.kinds_released i
  have hself : (s.released i).kinds i = .free := by rw [hkinds, Function.update_self]
  have hother : ∀ j, j ≠ i → (s.released i).kinds j = s.kinds j := fun j hj => by
    rw [hkinds, Function.update_of_ne hj]
  have hnot : ∀ j, ((s.released i).kinds j).slot = some w → j ≠ i := by
    rintro j hj rfl
    exact slot_free hself hj
  by_cases hslot : (s.kinds i).slot = some w
  · have hlone : ∀ j, j ≠ i → (s.kinds j).slot = some w →
        (s.kinds j).side.isSome = (s.kinds i).side.isSome ∧ (s.kinds j).side ≠ (s.kinds i).side :=
      fun j hj hjw => ⟨(h w).sides j i hjw hslot, fun hside =>
        hl i rfl j hj ⟨by rw [hslot]; nofun, hslot.trans hjw.symm, hside.symm⟩⟩
    have hobj : (s.released i).waitables w = (s.kinds i).letGo (s.waitables w) := by
      rw [Fds.released, hslot]
      exact Function.update_self ..
    cases hside : (s.kinds i).side with
    | none =>
      -- it was the only descriptor of its object
      refine slotSound_of_unnamed fun j hj => ?_
      have hji := hnot j hj
      rw [hother j hji] at hj
      obtain ⟨hsome, hne⟩ := hlone j hji hj
      rw [hside] at hsome hne
      exact hne (Option.isSome_eq_false_iff.mp hsome |> Option.isNone_iff_eq_none.mp)
    | some b =>
      -- only the other end can still be named, and it was counted
      obtain ⟨b', hpipe⟩ := eq_pipe hslot (by rw [hside]; rfl)
      obtain rfl : b' = b := by
        rw [hpipe] at hside
        exact Option.some.inj hside
      have hrest : ∀ j, ((s.released i).kinds j).slot = some w →
          s.kinds j = .pipe w (!b') := by
        intro j hj
        have hji := hnot j hj
        rw [hother j hji] at hj
        obtain ⟨hsome, hne⟩ := hlone j hji hj
        rw [hside] at hsome hne
        obtain ⟨c, hc⟩ := eq_pipe hj hsome
        rw [hc] at hne ⊢
        have hcb : c ≠ b' := fun heq => hne (by rw [heq]; rfl)
        rw [Bool.eq_not_of_ne hcb]
      have hcount : ∀ j, ((s.released i).kinds j).slot = some w → (s.waitables w).ends = 2 := by
        intro j hj
        rw [(h w).ends i b' hpipe, if_pos ⟨j, hrest j hj⟩]
      have hgo : ∀ j, ((s.released i).kinds j).slot = some w →
          ((s.released i).waitables w).ends = 1 ∧
            ((s.released i).waitables w).used = (s.waitables w).used := by
        intro j hj
        rw [hobj, Kind.letGo, hside, Option.isSome_some, if_pos rfl, hcount j hj]
        exact ⟨rfl, rfl⟩
      refine ⟨fun j hj => ?_, fun j k hj hk => ?_, fun j k hj hk => ?_, fun j c hj => ?_⟩
      · rw [(hgo j hj).2]
        exact (h w).used i hslot
      · exact (h w).origin j k (slot_pipe (hrest j hj)) (slot_pipe (hrest k hk))
      · rw [hother j (hnot j hj), hother k (hnot k hk), hrest j hj, hrest k hk]
      · have hj' := slot_pipe hj
        rw [(hgo j hj').1, if_neg]
        rintro ⟨k, hk⟩
        have hk' := slot_pipe hk
        have hjc := hrest j hj'
        rw [← hother j (hnot j hj'), hj] at hjc
        have hkc := hrest k hk'
        rw [← hother k (hnot k hk'), hk] at hkc
        have hc : c = !b' := (Kind.pipe.inj hjc).2
        have hc' : (!c) = !b' := (Kind.pipe.inj hkc).2
        rw [hc] at hc'
        cases b' <;> cases hc'
  · refine (h w).congr (fun j hj => ⟨hother j (hnot j hj), rfl⟩) (fun j hj => ?_) ?_
    · refine hother j ?_
      rintro rfl
      exact hslot hj
    · rw [Fds.released]
      split
      · next w' hw' =>
        refine Function.update_of_ne ?_ ..
        rintro rfl
        exact hslot hw'
      · rfl

/-- **Copying** what a descriptor names. -/
theorem Sound.copied (h : Sound s origin) (hfree : s.kinds i = .free)
    (hkinds : s'.kinds = Function.update s.kinds i (s.kinds j))
    (hw : s'.waitables = s.waitables) (hself : origin' i = origin j)
    (hrest : ∀ k, s.kinds k ≠ .free → origin' k = origin k) : Sound s' origin' := by
  intro w
  -- the original of a descriptor
  have hback : ∀ k, (s'.kinds k).slot = some w →
      ∃ k', s'.kinds k = s.kinds k' ∧ origin' k = origin k' := by
    intro k hk
    by_cases hki : k = i
    · subst hki
      exact ⟨j, by rw [hkinds, Function.update_self], hself⟩
    · have hkk : s'.kinds k = s.kinds k := by rw [hkinds, Function.update_of_ne hki]
      refine ⟨k, hkk, hrest k fun hfree' => ?_⟩
      rw [hkk] at hk
      exact slot_free hfree' hk
  have hkeep : ∀ k, s.kinds k ≠ .free → s'.kinds k = s.kinds k := by
    intro k hk
    rw [hkinds, Function.update_of_ne]
    rintro rfl
    exact hk hfree
  refine ⟨fun k hk => ?_, fun k l hk hl => ?_, fun k l hk hl => ?_, fun k b hk => ?_⟩
  · obtain ⟨k', heq, -⟩ := hback k hk
    rw [hw]
    exact (h w).used k' (heq ▸ hk)
  · obtain ⟨k', heq, ho⟩ := hback k hk
    obtain ⟨l', heq', ho'⟩ := hback l hl
    rw [ho, ho']
    exact (h w).origin k' l' (heq ▸ hk) (heq' ▸ hl)
  · obtain ⟨k', heq, -⟩ := hback k hk
    obtain ⟨l', heq', -⟩ := hback l hl
    rw [heq, heq']
    exact (h w).sides k' l' (heq ▸ hk) (heq' ▸ hl)
  · obtain ⟨k', heq, -⟩ := hback k (slot_pipe hk)
    rw [hw, (h w).ends k' b (heq ▸ hk)]
    refine if_congr ⟨?_, ?_⟩ rfl rfl
    · rintro ⟨l, hl⟩
      exact ⟨l, (hkeep l (by rw [hl]; nofun)).trans hl⟩
    · rintro ⟨l, hl⟩
      obtain ⟨l', heq', -⟩ := hback l (slot_pipe hl)
      exact ⟨l', heq' ▸ hl⟩

/-- What a creation does: it takes a slot that is not in use, and what it opens names that slot or
none. -/
structure Creates (s s' : Fds) (w : Slot) : Prop where
  fresh : (s.waitables w).used = false
  old : ∀ j, s.kinds j ≠ .free → s'.kinds j = s.kinds j
  opened : ∀ j, s.kinds j = .free → (s'.kinds j).slot = none ∨ (s'.kinds j).slot = some w
  others : ∀ w', w' ≠ w → s'.waitables w' = s.waitables w'
  /-- The new slot is in step with what was opened. -/
  sound : (∀ j, (s.kinds j).slot ≠ some w) → SlotSound s' (fun _ => 0) w

/-- **Creating** an object. -/
theorem Sound.create (h : Sound s origin) (hc : Creates s s' w) (n : ℕ) :
    Sound s' fun i => if s.kinds i = .free then n else origin i := by
  have hun := h.unnamed hc.fresh
  intro w'
  by_cases hw : w' = w
  · subst hw
    have hnew := hc.sound hun
    have hopened : ∀ i, (s'.kinds i).slot = some w' → s.kinds i = .free := by
      intro i hi
      by_contra hne
      rw [hc.old i hne] at hi
      exact hun i hi
    refine ⟨hnew.used, fun i j hi hj => ?_, hnew.sides, hnew.ends⟩
    rw [if_pos (hopened i hi), if_pos (hopened j hj)]
  · have hold : ∀ i, (s'.kinds i).slot = some w' → s.kinds i ≠ .free := by
      intro i hi hfree
      obtain hnone | hsome := hc.opened i hfree
      · rw [hnone] at hi
        cases hi
      · rw [hsome] at hi
        exact hw (Option.some.inj hi).symm
    refine (h w').congr (fun i hi => ⟨hc.old i (hold i hi), if_neg (hold i hi)⟩)
      (fun i hi => hc.old i fun hfree => slot_free hfree hi) (hc.others w' hw)

/-! ### The calls -/

theorem creates_none (hfresh : (s.waitables w).used = false) (hkinds : s'.kinds = s.kinds)
    (hothers : ∀ w', w' ≠ w → s'.waitables w' = s.waitables w') : Creates s s' w where
  fresh := hfresh
  old j _ := by rw [hkinds]
  opened j hj := .inl (by rw [hkinds, hj]; rfl)
  others := hothers
  sound hun := slotSound_of_unnamed fun i => by
    rw [hkinds]
    exact hun i

theorem creates_one {k : Kind} (hfresh : (s.waitables w).used = false) (hfree : s.kinds i = .free)
    (hkinds : s'.kinds = Function.update s.kinds i k)
    (hothers : ∀ w', w' ≠ w → s'.waitables w' = s.waitables w')
    (hslot : k.slot = none ∨ k.slot = some w ∧ (s'.waitables w).used = true)
    (hside : k.side = none) : Creates s s' w where
  fresh := hfresh
  old j hj := by
    rw [hkinds, Function.update_of_ne]
    rintro rfl
    exact hj hfree
  opened j hj := by
    rw [hkinds]
    by_cases hji : j = i
    · rw [hji, Function.update_self]
      exact hslot.imp_right And.left
    · rw [Function.update_of_ne hji, hj]
      exact .inl rfl
  others := hothers
  sound hun := by
    have honly : ∀ j, (s'.kinds j).slot = some w → s'.kinds j = k ∧
      (s'.waitables w).used = true := by
      intro j hj
      by_cases hji : j = i
      · subst hji
        rw [hkinds, Function.update_self] at hj ⊢
        obtain hnone | hsome := hslot
        · rw [hnone] at hj
          cases hj
        · exact ⟨rfl, hsome.2⟩
      · rw [hkinds, Function.update_of_ne hji] at hj
        exact absurd hj (hun j)
    refine ⟨fun j hj => (honly j hj).2, fun _ _ _ _ => rfl, fun j l hj hl => ?_, fun j b hj => ?_⟩
    · rw [(honly j hj).1, (honly l hl).1]
    · have hk := (honly j (slot_pipe hj)).1
      rw [hj] at hk
      rw [← hk] at hside
      cases hside

theorem creates_pipe (hfresh : (s.waitables w).used = false) (hi : s.kinds i = .free)
    (hj : s.kinds j = .free) (hij : i ≠ j)
    (hkinds : s'.kinds =
      Function.update (Function.update s.kinds i (.pipe w false)) j (.pipe w true))
    (hothers : ∀ w', w' ≠ w → s'.waitables w' = s.waitables w')
    (hused : (s'.waitables w).used = true) (hends : (s'.waitables w).ends = 2) :
    Creates s s' w where
  fresh := hfresh
  old l hl := by
    rw [hkinds, Function.update_of_ne, Function.update_of_ne]
    · rintro rfl
      exact hl hi
    · rintro rfl
      exact hl hj
  opened l hl := by
    rw [hkinds]
    by_cases hlj : l = j
    · rw [hlj, Function.update_self]
      exact .inr rfl
    by_cases hli : l = i
    · rw [hli, Function.update_of_ne hij, Function.update_self]
      exact .inr rfl
    · rw [Function.update_of_ne hlj, Function.update_of_ne hli, hl]
      exact .inl rfl
  others := hothers
  sound hun := by
    have honly : ∀ l, (s'.kinds l).slot = some w → ∃ b, s'.kinds l = .pipe w b := by
      intro l hl
      rw [hkinds] at hl ⊢
      by_cases hlj : l = j
      · rw [hlj, Function.update_self]
        exact ⟨true, rfl⟩
      by_cases hli : l = i
      · rw [hli, Function.update_of_ne hij, Function.update_self]
        exact ⟨false, rfl⟩
      · rw [Function.update_of_ne hlj, Function.update_of_ne hli] at hl
        exact absurd hl (hun l)
    have hboth : ∀ b, ∃ l, s'.kinds l = .pipe w b := by
      intro b
      rw [hkinds]
      cases b with
      | false => exact ⟨i, by rw [Function.update_of_ne hij, Function.update_self]⟩
      | true => exact ⟨j, by rw [Function.update_self]⟩
    refine ⟨fun _ _ => hused, fun _ _ _ _ => rfl, fun l m hl hm => ?_, fun l b hl => ?_⟩
    · obtain ⟨b, hb⟩ := honly l hl
      obtain ⟨c, hc⟩ := honly m hm
      rw [hb, hc]
      rfl
    · rw [hends, if_pos (hboth _)]

/-- What a call does that opens descriptors to whether they block: those that were open stay as they
are, and those that are new have a mode. -/
structure Opens (s s' : Fds) (on : Bool) : Prop where
  old : ∀ i, s.kinds i ≠ .free → s'.nonblock i = s.nonblock i
  new : ∀ i, s.kinds i = .free → s'.kinds i ≠ .free → s'.nonblock i = on

variable {on : Bool} {s₁ s₂ : Fds} {kind : Kind}

theorem opens_none (hkinds : s'.kinds = s.kinds)
    (hold : ∀ l, s.kinds l ≠ .free → s'.nonblock l = s.nonblock l) : Opens s s' on where
  old := hold
  new l hl hopen := absurd ((congrFun hkinds l).trans hl) hopen

theorem opens_one {k : Kind} (hfree : s.kinds i = .free)
    (hkinds : s'.kinds = Function.update s.kinds i k)
    (hold : ∀ l, s.kinds l ≠ .free → s₁.nonblock l = s.nonblock l)
    (hmode : s'.nonblock = Function.update s₁.nonblock i on) : Opens s s' on where
  old l hl := by
    have hli : l ≠ i := fun h => hl (h ▸ hfree)
    rw [hmode, Function.update_of_ne hli]
    exact hold l hl
  new l hl hopen := by
    rw [hkinds] at hopen
    obtain rfl : l = i := by
      by_contra hne
      rw [Function.update_of_ne hne] at hopen
      exact hopen hl
    rw [hmode, Function.update_self]

theorem opens_two {kind' : Kind} (hi : s.kinds i = .free) (hj : s.kinds j = .free)
    (hkinds : s'.kinds = Function.update (Function.update s.kinds i kind) j kind')
    (hold : ∀ l, s.kinds l ≠ .free → s₁.nonblock l = s.nonblock l)
    (hmode : ∀ l, s'.nonblock l = if l = i ∨ l = j then on else s₁.nonblock l) :
    Opens s s' on where
  old l hl := by
    have hli : l ≠ i := fun h => hl (h ▸ hi)
    have hlj : l ≠ j := fun h => hl (h ▸ hj)
    rw [hmode, if_neg (not_or.mpr ⟨hli, hlj⟩)]
    exact hold l hl
  new l hl hopen := by
    by_cases hl' : l = i ∨ l = j
    · rw [hmode, if_pos hl']
    · obtain ⟨hli, hlj⟩ := not_or.mp hl'
      rw [hkinds, Function.update_of_ne hlj, Function.update_of_ne hli] at hopen
      exact absurd hl hopen

theorem setNonblock_number (h : s.kinds i ≠ .free) (on : Bool) : setNonblock (number i) on s =
    (true, { s with nonblock := Function.update s.nonblock i on }) := by
  have hhigh : ¬ (0 ≤ number i ∧ number i < firstFd) := by
    rw [number]
    omega
  have hget : s.get (number i) = some (s.kinds i) := Fds.get_number.mpr ⟨rfl, h⟩
  rw [setNonblock, if_neg hhigh, index_number]
  dsimp only
  rw [hget]
  rfl

/-- The mode of a descriptor just installed may be set. -/
theorem setNonblock_installed (hkind : kind ≠ .free) (on : Bool) :
    setNonblock (number i) on (s.installed i kind) =
      (true, { s.installed i kind with nonblock := Function.update s.nonblock i on }) := by
  have hself : (s.installed i kind).kinds i = kind := Function.update_self ..
  have hmode : (s.installed i kind).nonblock = Function.update s.nonblock i false := rfl
  rw [setNonblock_number (by rw [hself]; exact hkind), hmode, Function.update_idem]

theorem Fds.nonblock_released (s : Fds) (i : Fin maxFds) :
    (s.released i).nonblock = s.nonblock := by
  rw [released]
  split
  · rfl
  · rfl

/-- The tables in which one slot may have changed, and the modes of what is not open. -/
structure Touched (s s' : Fds) (w : Slot) : Prop where
  kinds : s'.kinds = s.kinds
  modes : ∀ i, s.kinds i ≠ .free → s'.nonblock i = s.nonblock i
  others : ∀ w', w' ≠ w → s'.waitables w' = s.waitables w'

theorem touched_change (s : Fds) (w : Slot) (f : Waitable → Waitable) :
    Touched s (s.change w f) w :=
  ⟨rfl, fun _ _ => rfl, fun _ hw' => s.waitables_change_of_ne f hw'⟩

theorem Touched.change (h : Touched s s' w) (f : Waitable → Waitable) :
    Touched s (s'.change w f) w :=
  ⟨h.kinds, h.modes, fun w' hw' => (s'.waitables_change_of_ne f hw').trans (h.others w' hw')⟩

section Touched

variable (h : Touched s s₁ w) (hfresh : (s.waitables w).used = false)
include h hfresh

theorem Touched.none (on : Bool) : Creates s s₁ w ∧ Opens s s₁ on :=
  ⟨creates_none hfresh h.kinds h.others, opens_none h.kinds h.modes⟩

theorem Touched.one {k : Kind} (hfree : s₁.kinds i = .free)
    (hkinds : s₂.kinds = Function.update s₁.kinds i k)
    (hmode : s₂.nonblock = Function.update s₁.nonblock i on) (hw : s₂.waitables = s₁.waitables)
    (hslot : k.slot = .none ∨ k.slot = some w ∧ (s₁.waitables w).used = true)
    (hside : k.side = .none) : Creates s s₂ w ∧ Opens s s₂ on := by
  rw [h.kinds] at hfree hkinds
  rw [← hw] at hslot
  exact ⟨creates_one hfresh hfree hkinds (by rw [hw]; exact h.others) hslot hside,
    opens_one hfree hkinds h.modes hmode⟩

theorem Touched.pipe (hi : s₁.kinds i = .free) (hj : s₁.kinds j = .free) (hij : i ≠ j)
    (hkinds : s₂.kinds =
      Function.update (Function.update s₁.kinds i (.pipe w false)) j (.pipe w true))
    (hmode : ∀ l, s₂.nonblock l = if l = i ∨ l = j then on else s₁.nonblock l)
    (hw : s₂.waitables = s₁.waitables) (hused : (s₁.waitables w).used = true)
    (hends : (s₁.waitables w).ends = 2) : Creates s s₂ w ∧ Opens s s₂ on := by
  rw [h.kinds] at hi hj hkinds
  rw [← hw] at hused hends
  exact ⟨creates_pipe hfresh hi hj hij hkinds (by rw [hw]; exact h.others) hused hends,
    opens_two hi hj hkinds h.modes hmode⟩

end Touched

/-- A creation leaves the table as it is, or takes a slot, and what it opens has a mode. -/
def Makes (s s' : Fds) (on : Bool) : Prop := s' = s ∨ ∃ w, Creates s s' w ∧ Opens s s' on

theorem eventfd_makes (initial : ℤ) (flags : BitVec 32) (s : Fds) :
    Makes s (eventfd initial flags s).2 (flags &&& oNonblock ≠ 0) := by
  rw [eventfd]
  obtain hnone | ⟨w, hfresh, hsome⟩ := takeWaitable_cases s
  · rw [bind_of_eq hnone]
    exact .inl rfl
  refine .inr ⟨w, ?_⟩
  rw [bind_of_eq hsome]
  dsimp only
  rw [bind_of_eq (onSlot_run ..), Fds.change_change]
  have htouched := touched_change s w
    ((fun o => { o with count := BitVec.ofInt 64 (max initial 0) }) ∘ Waitable.taken)
  have hused : ((s.change w ((fun o => { o with count := BitVec.ofInt 64 (max initial 0) }) ∘
      Waitable.taken)).waitables w).used = true := by
    rw [Fds.waitables_change]
    rfl
  generalize s.change w _ = s₁ at htouched hused ⊢
  obtain ⟨hfull, -⟩ | ⟨i, hfree, hinst⟩ := install_cases (.event w (flags &&& efdSemaphore ≠ 0)) s₁
  · rw [bind_of_eq hfull]
    exact (htouched.change fun o => { o with used := false }).none hfresh _
  · rw [bind_of_eq hinst, if_neg (not_lt.mpr (number_nonneg i))]
    by_cases hflag : flags &&& oNonblock ≠ 0
    · rw [if_pos hflag, decide_eq_true hflag,
        bind_of_eq (setNonblock_installed (fun h => by cases h) true)]
      exact htouched.one hfresh hfree rfl rfl rfl (.inr ⟨rfl, hused⟩) rfl
    · rw [if_neg hflag, decide_eq_false hflag]
      exact htouched.one hfresh hfree rfl rfl rfl (.inr ⟨rfl, hused⟩) rfl

theorem endpointFd_makes (cap : Handle) (bound : ℤ) (s : Fds) :
    Makes s (endpointFd cap bound s).2 false := by
  rw [endpointFd]
  obtain hnone | ⟨w, hfresh, hsome⟩ := takeWaitable_cases s
  · rw [bind_of_eq hnone]
    exact .inl rfl
  refine .inr ⟨w, ?_⟩
  rw [bind_of_eq hsome]
  dsimp only
  have htouched := touched_change s w Waitable.taken
  have hused : ((s.change w Waitable.taken).waitables w).used = true := by
    rw [Fds.waitables_change]
    rfl
  generalize s.change w Waitable.taken = s₁ at htouched hused ⊢
  have hback := htouched.change fun o => { o with used := false }
  rw [bind_apply]
  show Creates s ((if (s₁.waitables w).readable = 0 then _ else _ : StateM Fds ℤ) s₁).2 w ∧
    Opens s ((if (s₁.waitables w).readable = 0 then _ else _ : StateM Fds ℤ) s₁).2 false
  by_cases hread : (s₁.waitables w).readable = 0
  · rw [if_pos hread]
    exact hback.none hfresh _
  rw [if_neg hread]
  by_cases hbound : bound = 0
  · -- bound: the descriptor gets the slot
    simp only [hbound, ne_eq, not_true_eq_false, if_false, false_and, if_true]
    obtain ⟨hfull, -⟩ | ⟨i, hfree, hinst⟩ := install_cases (.endpoint cap (some w)) s₁
    · rw [bind_of_eq hfull]
      exact hback.none hfresh _
    · rw [bind_of_eq hinst, if_neg (not_lt.mpr (number_nonneg i))]
      exact htouched.one hfresh hfree (k := .endpoint cap (some w)) rfl rfl rfl
        (.inr ⟨rfl, hused⟩) rfl
  · simp only [ne_eq, hbound, not_false_eq_true, if_true, true_and, if_false]
    rw [bind_of_eq (giveBack_run ..)]
    by_cases hdenied : bound = KError.permissionDenied.asRaw
    · -- it can only be sent to, and the slot goes back
      rw [hdenied, if_neg (fun h => h rfl)]
      generalize s₁.change w (fun o => { o with used := false }) = s₂ at hback ⊢
      obtain ⟨hfull, -⟩ | ⟨i, hfree, hinst⟩ := install_cases (.endpoint cap none) s₂
      · rw [bind_of_eq hfull]
        exact hback.none hfresh _
      · rw [bind_of_eq hinst, if_neg (not_lt.mpr (number_nonneg i))]
        exact hback.one hfresh hfree (k := .endpoint cap none) rfl rfl rfl (.inl rfl) rfl
    · rw [if_pos hdenied]
      exact hback.none hfresh _

theorem pipe2_makes (flags : BitVec 32) (s : Fds) :
    Makes s (pipe2 flags s).2 (flags &&& oNonblock ≠ 0) := by
  rw [pipe2]
  obtain hnone | ⟨w, hfresh, hsome⟩ := takeWaitable_cases s
  · rw [bind_of_eq hnone]
    exact .inl rfl
  refine .inr ⟨w, ?_⟩
  rw [bind_of_eq hsome]
  dsimp only
  rw [bind_of_eq (onSlot_run ..), Fds.change_change]
  have htouched := touched_change s w ((fun o => { o with ends := 2 }) ∘ Waitable.taken)
  have hobj : ((s.change w ((fun o => { o with ends := 2 }) ∘ Waitable.taken)).waitables w).used =
      true ∧ ((s.change w ((fun o => { o with ends := 2 }) ∘ Waitable.taken)).waitables w).ends =
        2 := by
    rw [Fds.waitables_change]
    exact ⟨rfl, rfl⟩
  generalize s.change w _ = s₁ at htouched hobj ⊢
  obtain ⟨hfull, hnofree⟩ | ⟨i, hfree, hinst⟩ := install_cases (.pipe w false) s₁
  · -- there is no room for the first end, and so none for the second
    have hfull' : install (.pipe w true) s₁ = (-1, s₁) := by
      obtain ⟨h, -⟩ | ⟨i, hfree, -⟩ := install_cases (.pipe w true) s₁
      · exact h
      · exact absurd hfree (hnofree i)
    rw [bind_of_eq hfull, bind_of_eq hfull']
    exact (htouched.change fun o => { o with used := false }).none hfresh _
  rw [bind_of_eq hinst]
  have hneg : ¬ number i < 0 := not_lt.mpr (number_nonneg i)
  have hpipe : (s₁.installed i (.pipe w false)).kinds i = .pipe w false := Function.update_self ..
  obtain ⟨hfull, -⟩ | ⟨j, hfree', hinst'⟩ := install_cases (.pipe w true)
    (s₁.installed i (.pipe w false))
  · -- the first end goes again, and then the slot
    have hrel := release_number (s := s₁.installed i (.pipe w false)) (i := i)
      (by rw [hpipe]; nofun)
    have hgone : Touched s ((s₁.installed i (.pipe w false)).released i) w := by
      refine ⟨?_, fun l hl => ?_, fun w' hw' => ?_⟩
      · rw [Fds.kinds_released]
        show Function.update (Function.update s₁.kinds i _) i _ = _
        rw [Function.update_idem, ← htouched.kinds, ← hfree, Function.update_eq_self]
      · have hli : l ≠ i := fun h => hl (by rw [h, ← htouched.kinds, hfree])
        rw [Fds.nonblock_released]
        exact (Function.update_of_ne hli ..).trans (htouched.modes l hl)
      · rw [Fds.released, hpipe]
        exact (Fds.waitables_change_of_ne _ _ hw').trans (htouched.others w' hw')
    rw [bind_of_eq hfull, if_pos (.inr (by decide)), if_pos (number_nonneg i), bind_of_eq hrel,
      if_neg (by decide), bind_of_eq (giveBack_run ..)]
    exact (hgone.change fun o => { o with used := false }).none hfresh _
  rw [bind_of_eq hinst', if_neg (by rw [not_or]; exact ⟨hneg, not_lt.mpr (number_nonneg j)⟩)]
  have hij : i ≠ j := by
    rintro rfl
    rw [hpipe] at hfree'
    cases hfree'
  have hj : s₁.kinds j = .free := (Function.update_of_ne hij.symm ..).symm.trans hfree'
  have hmodes : ∀ (f : Fin maxFds → Bool) (on : Bool) (l : Fin maxFds),
      Function.update (Function.update f i on) j on l = if l = i ∨ l = j then on else f l := by
    intro f on l
    simp only [Function.update_apply]
    split <;> simp [*]
  by_cases hflag : flags &&& oNonblock ≠ 0
  · have hopen : ((s₁.installed i (.pipe w false)).installed j (.pipe w true)).kinds i ≠ .free := by
      show Function.update (s₁.installed i (.pipe w false)).kinds j _ i ≠ _
      rw [Function.update_of_ne hij, hpipe]
      exact fun h => by cases h
    have hfirst := setNonblock_number hopen true
    have hself : ((s₁.installed i (.pipe w false)).installed j (.pipe w true)).kinds j ≠ .free := by
      show Function.update (s₁.installed i (.pipe w false)).kinds j _ j ≠ _
      rw [Function.update_self]
      exact fun h => by cases h
    have hsecond := setNonblock_number (s := { (s₁.installed i (.pipe w false)).installed j
      (.pipe w true) with nonblock := Function.update ((s₁.installed i (.pipe w false)).installed j
        (.pipe w true)).nonblock i true }) hself true
    rw [if_pos hflag, decide_eq_true hflag, bind_of_eq hfirst, bind_of_eq hsecond]
    refine htouched.pipe hfresh hfree hj hij rfl (fun l => ?_) rfl hobj.1 hobj.2
    refine (hmodes _ true l).trans ?_
    split
    · rfl
    · next hl => exact (hmodes s₁.nonblock false l).trans (if_neg hl)
  · rw [if_neg hflag, decide_eq_false hflag]
    exact htouched.pipe hfresh hfree hj hij rfl (hmodes s₁.nonblock false) rfl hobj.1 hobj.2

/-- What a free entry would descend from does not matter. -/
theorem Sound.of_origin (h : Sound s origin) (ho : ∀ i, s.kinds i ≠ .free → origin' i = origin i) :
    Sound s origin' := fun w =>
  (h w).congr (fun i hi => ⟨rfl, ho i fun hfree => slot_free hfree hi⟩) (fun _ _ => rfl) rfl

/-- A new descriptor that names no slot. -/
theorem Sound.plain (h : Sound s origin) {k : Kind} (hfree : s.kinds i = .free)
    (hslot : k.slot = none) (hkinds : s'.kinds = Function.update s.kinds i k)
    (hw : s'.waitables = s.waitables) (ho : ∀ i, s.kinds i ≠ .free → origin' i = origin i) :
    Sound s' origin' := by
  intro w
  have hne : ∀ j, (s'.kinds j).slot = some w → j ≠ i := by
    rintro j hj rfl
    rw [hkinds, Function.update_self, hslot] at hj
    cases hj
  have heq : ∀ j, j ≠ i → s'.kinds j = s.kinds j := fun j hj => by
    rw [hkinds, Function.update_of_ne hj]
  refine (h w).congr (fun j hj => ?_) (fun j hj => heq j ?_) (by rw [hw])
  · have hk := heq j (hne j hj)
    refine ⟨hk, ho j fun hj' => ?_⟩
    rw [hk] at hj
    exact slot_free hj' hj
  · rintro rfl
    exact slot_free hfree hj

theorem Sound.release (h : Sound s origin) (hl : s.Lone fd) : Sound (Fd.release fd s).2 origin := by
  obtain hnone | ⟨i, rfl, hfree, hrel⟩ := release_cases fd s
  · rw [hnone]
    exact h
  · rw [hrel]
    exact h.released hfree hl

theorem Sound.closeFrom {n : ℕ} {first : ℤ} (h : Sound s origin) (hl : LoneFrom first n s) :
    Sound (Fd.closeFrom first n s).2 origin := by
  induction n generalizing first s with
  | zero => exact h
  | succ n ih => exact ih (h.release hl.1) hl.2

theorem Sound.dup3 {old new : ℤ} (h : Sound s origin) (hget : s.get old ≠ none) (hne : old ≠ new)
    (hl : s.Lone new) : Sound (Fd.dup3 old new s).2
      fun i => if number i = new then ((index old).map origin).getD (origin i) else origin i := by
  have hrel := h.release hl
  obtain ⟨hrun, hindex⟩ | ⟨i, j, rfl, hj, rfl, hij, hrun⟩ := dup3_cases old new s hget hne
  · rw [hrun]
    refine hrel.of_origin fun i _ => if_neg ?_
    rintro rfl
    rw [index_number] at hindex
    cases hindex
  · -- what was released is free, and the original is as it was
    have hkinds : (Fd.release (number i) s).2.kinds i = .free ∧
        (Fd.release (number i) s).2.kinds j = s.kinds j := by
      rw [kinds_release]
      exact ⟨Function.update_self .., Function.update_of_ne hij.symm ..⟩
    rw [hrun]
    refine hrel.copied (i := i) (j := j) hkinds.1 ?_ rfl ?_ fun k hk => if_neg ?_
    · rw [hkinds.2]
      rfl
    · rw [if_pos rfl, index_number]
      rfl
    · intro hki
      rw [number_inj.mp hki] at hk
      exact hk hkinds.1

/-! ### Runs -/

namespace Lineage

variable {t : Lineage}

/-- **One call** keeps the names and the slots in step, if what it releases has no copy. -/
theorem sound_step (h : Sound t.fds t.origin) (op : Op) (hl : op.Lone t.fds) :
    Sound (t.step op).fds (t.step op).origin := by
  have hcreate : ∀ fds on, Makes t.fds fds on →
      Sound (t.create fds).fds (t.create fds).origin := by
    rintro fds on (rfl | ⟨w, hc, -⟩)
    · exact h.of_origin fun i hi => if_neg hi
    · exact h.create hc t.created
  have hdup3 : ∀ old new, (t.fds.get old ≠ none → old ≠ new → t.fds.Lone new) →
      Sound (t.step (.dup3 old new)).fds (t.step (.dup3 old new)).origin := by
    intro old new hl
    rw [step]
    split
    · exact h
    · next hno =>
      rw [not_or] at hno
      exact h.dup3 hno.1 hno.2 (hl hno.1 hno.2)
  cases op with
  | eventfd initial flags => exact hcreate _ _ (eventfd_makes initial flags t.fds)
  | endpointFd cap bound => exact hcreate _ _ (endpointFd_makes cap bound t.fds)
  | pipe2 flags => exact hcreate _ _ (pipe2_makes flags t.fds)
  | installFile handle size =>
    obtain heq | ⟨i, hfree, hinst⟩ := installFile_cases handle size t.fds
    · exact hcreate _ false (.inl (by rw [Op.run, heq]))
    · refine h.plain hfree (k := .file handle size 0) rfl ?_ ?_ fun j hj => if_neg hj
      · show (Fd.installFile handle size t.fds).2.kinds = _
        rw [hinst]
        rfl
      · show (Fd.installFile handle size t.fds).2.waitables = _
        rw [hinst]
        rfl
  | dup fd =>
    obtain heq | ⟨i, j, rfl, hj, hfree, hkinds, hw⟩ := dup_cases fd t.fds
    · show Sound (Fd.dup fd t.fds).2 _
      rw [heq]
      exact h.of_origin fun i hi => if_neg hi
    · refine h.copied hfree hkinds hw ?_ fun k hk => if_neg hk
      show (if t.fds.kinds i = .free then _ else _) = _
      rw [if_pos hfree, index_number]
      rfl
  | dup3 old new => exact hdup3 old new hl
  | dup2 old new => exact hdup3 old new hl
  | close fd => exact h.release hl
  | closeRange first last => exact h.closeFrom hl

theorem sound_run (h : Sound t.fds t.origin) (ops : List Op) (hl : AllLone ops t) :
    Sound (t.run ops).fds (t.run ops).origin := by
  induction ops generalizing t with
  | nil => exact h
  | cons op ops ih => exact ih (sound_step h op hl.1) hl.2

end Lineage

theorem Fds.Empty.sound (h : s.Empty) : Sound s origin := fun w =>
  slotSound_of_unnamed fun i => by
    rw [h.1 i]
    nofun

/-- The descriptors that name one slot descend from one creation, a slot that is handed out is not
named, and a pipe says that its other end is closed only when no descriptor names it. -/
structure Lineage.InStep (t : Lineage) : Prop where
  shared : ∀ i j w, (t.fds.kinds i).slot = some w → (t.fds.kinds j).slot = some w →
    t.origin i = t.origin j
  reuse : ∀ w s', takeWaitable t.fds = (some w, s') → ∀ i, (t.fds.kinds i).slot ≠ some w
  ended : ∀ i w b, t.fds.kinds i = .pipe w b →
    (t.fds.waitables w).endOfFile ∨ (t.fds.waitables w).brokenPipe →
    ∀ j, t.fds.kinds j ≠ .pipe w (!b)

/-- **Descriptors share an object by duplication only**, and the names and the slots are in step, in
every run in which nothing is released that has a copy. -/
theorem names_sound (s : Fds) (hempty : s.Empty) (ops : List Op)
    (hlone : Lineage.AllLone ops ⟨s, fun _ => 0, 0⟩) :
    (Lineage.run ⟨s, fun _ => 0, 0⟩ ops).InStep := by
  have hsound := Lineage.sound_run (t := ⟨s, fun _ => 0, 0⟩) hempty.sound ops hlone
  generalize Lineage.run ⟨s, fun _ => 0, 0⟩ ops = t at hsound ⊢
  refine ⟨fun i j w hi hj => (hsound w).origin i j hi hj, fun w s' htake => ?_,
    fun i w b hi hend j hj => ?_⟩
  · obtain hnone | ⟨w', hfresh, hsome⟩ := takeWaitable_cases t.fds
    · rw [hnone] at htake
      cases htake
    · rw [hsome] at htake
      obtain rfl := Option.some.inj (Prod.mk.inj htake).1
      exact hsound.unnamed hfresh
  · have htwo := (hsound w).ends i b hi
    rw [if_pos ⟨j, hj⟩] at htwo
    have hlt : (t.fds.waitables w).ends < 2 := hend.elim And.right id
    rw [htwo] at hlt
    exact absurd hlt (by decide)

/-- A table at the start of a process. -/
def emptyFds : Fds := ⟨fun _ => .free, fun _ => false, fun _ => ⟨false, 1, 1, 0, 0, 0, 0⟩⟩

/-- A pipe is made and its read end closed, and an eventfd is made beside it. -/
theorem names_sound_pipe :
    (Lineage.run ⟨emptyFds, fun _ => 0, 0⟩ [.pipe2 0, .close 3, .eventfd 0 0]).InStep :=
  names_sound emptyFds ⟨fun _ => rfl, fun _ => rfl⟩ _
    ⟨trivial, by show Fds.Lone _ 3; decide +kernel, trivial, trivial⟩

/-- An eventfd is duplicated and closed, and its slot is handed out while the copy is open. -/
theorem names_not_sound : ¬ ∀ (s : Fds) (_ : s.Empty) (ops : List Op),
    (Lineage.run ⟨s, fun _ => 0, 0⟩ ops).InStep := by
  intro hall
  have hstep := hall emptyFds ⟨fun _ => rfl, fun _ => rfl⟩ [.eventfd 0 0, .dup 3, .close 3]
  have hnamed : ((Lineage.run ⟨emptyFds, fun _ => 0, 0⟩ [.eventfd 0 0, .dup 3, .close 3]).fds.kinds
      ⟨1, by decide⟩).slot = some ⟨0, by decide⟩ := by decide +kernel
  have hfirst : (takeWaitable (Lineage.run ⟨emptyFds, fun _ => 0, 0⟩
      [.eventfd 0 0, .dup 3, .close 3]).fds).1 = some ⟨0, by decide⟩ := by decide +kernel
  exact hstep.reuse _ _ (Prod.ext hfirst rfl) _ hnamed

end Fd

end StarOS
