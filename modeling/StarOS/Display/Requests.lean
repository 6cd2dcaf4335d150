import StarOS.Display.Stack

/-!
# What a request does before it paints

A request that paints first looks its surface up, checks what it is told and changes the stack, and
then says which part of the screen has to be painted again. Each of these first halves is stated
here by the server it leaves, for every way it can end.

## Main definitions

* `Display.Answers.Accepts` — when a delegated buffer is taken
* `Display.Surface.Damages` — when a commit names a part of its surface

## Main results

* `Display.wp_acceptBuffer`, `Display.wp_create`
* `Display.wp_commitDamage`, `Display.wp_raiseDamage`, `Display.wp_destroyDamage`
* `Display.wp_serve`
-/

namespace StarOS

namespace Display

open Checked

variable {T : Prop} {o : OverflowChecks} {k : Answers} {s : Server} {F : Refusal → Server → Prop}

/-! ### Buffers -/

/-- A buffer is delegated, it can be mapped, and it holds that many pixels. -/
def Answers.Accepts (k : Answers) (cap : Handle) (width height : ℕ) : Prop :=
  cap ≠ .null ∧ 0 < k.pages ∧ 0 ≤ k.va ∧ width * height * bpp ≤ k.pages.toNat * page

instance (cap : Handle) (width height : ℕ) : Decidable (k.Accepts cap width height) :=
  inferInstanceAs (Decidable (_ ∧ _))

/-- The server with the buffer the kernel maps. -/
def Server.mapped (s : Server) (k : Answers) : Server :=
  { s with maps := if 0 ≤ k.va then ⟨k.va.toNat, k.pages.toNat * page⟩ :: s.maps else s.maps }

/-- A buffer is at most as large as the kernel makes them. -/
theorem Answers.pages_mul_le (k : Answers) : k.pages.toNat * page ≤ 2 ^ 23 := by
  have hle := k.pages_le
  simp only [maxSharedPages, page] at hle ⊢
  omega

theorem needed_eq {width height : ℕ} (h : width * height * bpp < 2 ^ 64) :
    (checkedMul 64 width height).bind (fun p => checkedMul 64 p bpp) =
      some (width * height * bpp) := by
  have hsmall : width * height < 2 ^ 64 :=
    Nat.lt_of_le_of_lt (Nat.le_mul_of_pos_right _ (by decide)) h
  rw [checkedMul, if_pos hsmall, Option.bind_some, checkedMul, if_pos h]

theorem of_needed {width height bytes : ℕ}
    (h : (checkedMul 64 width height).bind (fun p => checkedMul 64 p bpp) = some bytes) :
    bytes = width * height * bpp := by
  obtain ⟨p, hp, hb⟩ := Option.bind_eq_some_iff.mp h
  rw [checkedMul] at hp hb
  split at hp
  · split at hb
    · rw [← Option.some.inj hb, ← Option.some.inj hp]
    · simp at hb
  · simp at hp

/-- **Taking a delegated buffer**: it is mapped and large enough, or it is refused. -/
theorem wp_acceptBuffer {cap : Handle} {width height : ℕ} {Q : ℕ → Server → Prop}
    (hok : k.Accepts cap width height → Q k.va.toNat (s.mapped k))
    (hno : ∀ e s', ¬ k.Accepts cap width height → s' = s ∨ s' = s.mapped k → F e s') :
    wp T (acceptBuffer o k cap width height) Q F s := by
  have hpages := k.pages_mul_le
  rw [acceptBuffer, wp_bind, wp_require]
  refine ⟨fun hcap => ?_, fun hcap => hno _ _ (fun h => hcap h.1) (.inl rfl)⟩
  rw [wp_bind, mapShared, wp_modify]
  rw [wp_bind, wp_require]
  refine ⟨fun hpos => ?_, fun hpos => hno _ _ (fun h => hpos ⟨h.2.1, h.2.2.1⟩) (.inr rfl)⟩
  cases hneed : (checkedMul 64 width height).bind fun p => checkedMul 64 p bpp with
  | none =>
    refine (wp_fail _).mpr (hno _ _ (fun h => ?_) (.inr rfl))
    rw [needed_eq (Nat.lt_of_le_of_lt h.2.2.2 (by omega))] at hneed
    simp at hneed
  | some bytes =>
    obtain rfl := of_needed hneed
    show wp T (o.mul 64 k.pages.toNat page >>= _) _ _ _
    rw [wp_bind, wp_fit_mul (by omega), wp_bind, wp_require, wp_pure]
    exact ⟨fun hle => hok ⟨hcap, hpos.1, hpos.2, hle⟩, fun hle => hno _ _ (fun h => hle h.2.2.2) (.inr rfl)⟩

/-! ### Requests -/

variable {client : Client} {owner : ℕ} {msg : Message}

/-- The surface a request makes. -/
def created (k : Answers) (owner id : ℕ) (msg : Message) : Surface :=
  ⟨id, owner, k.va.toNat, (msg.words.get 0).toNat, (msg.words.get 1).toNat, (msg.words.get 2).toNat,
    (msg.words.get 3).toNat⟩

/-- The server with one more surface. -/
def Server.grown (s : Server) (k : Answers) (owner : ℕ) (msg : Message) : Server :=
  (s.mapped k).stacked (s.compositor.added (created k owner s.compositor.nextId msg)
    (nextOf s.compositor.nextId))

/-- A surface is made for this request. -/
def Server.Admits (s : Server) (k : Answers) (msg : Message) : Prop :=
  ((msg.words.get 0).toNat ≠ 0 ∧ (msg.words.get 1).toNat ≠ 0) ∧
    k.Accepts msg.cap (msg.words.get 0).toNat (msg.words.get 1).toNat ∧ s.compositor.count < maxSurfaces

/-- **Create.** -/
theorem wp_create {Q : ℕ → Server → Prop} (hcount : ¬ T → s.compositor.count ≤ maxSurfaces)
    (hon : ¬ T → o = .on → s.compositor.nextId + 1 < 2 ^ 64)
    (hok : s.Admits k msg → Q s.compositor.nextId (s.grown k owner msg))
    (hno : ∀ e s', ¬ s.Admits k msg → s' = s ∨ s' = s.mapped k → F e s') :
    wp T (create o k owner msg) Q F s := by
  rw [create, wp_bind, wp_require]
  refine ⟨fun hpos => ?_, fun hpos => hno _ _ (fun h => hpos h.1) (.inl rfl)⟩
  rw [wp_bind]
  refine wp_acceptBuffer (fun hacc => ?_) fun e s' hacc h => hno e s' (fun h => hacc h.2.1) h
  rw [wp_bind]
  refine wp_add hcount hon (fun hfull => ?_) fun hroom => ?_
  · exact wp_ofOption_none.mpr (hno _ _ (fun h => absurd hfull (Nat.ne_of_lt h.2.2)) (.inr rfl))
  · exact wp_ofOption_some.mpr (hok ⟨hpos, hacc, hroom⟩)

/-- The part of a surface that a commit names begins on it and is not empty. -/
def Surface.Damages (t : Surface) (msg : Message) : Prop :=
  ¬ (low (msg.words.get 1) ≥ t.width ∨ high (msg.words.get 1) ≥ t.height ∨ low (msg.words.get 2) = 0 ∨
    high (msg.words.get 2) = 0)

instance (t : Surface) : Decidable (t.Damages msg) := inferInstanceAs (Decidable (¬ _))

/-- The place on the screen that a commit names has coordinates. -/
def Surface.Reaches (t : Surface) (msg : Message) : Prop :=
  t.x + low (msg.words.get 1) < 2 ^ 64 ∧ t.y + high (msg.words.get 1) < 2 ^ 64

/-- The buffer a commit brings is shown by the surface at `i`. -/
def Server.swapped (s : Server) (k : Answers) (cap : Handle) (i : ℕ) : Server :=
  if cap = .null then s
  else (s.mapped k).stacked
    (s.compositor.replaced i { s.compositor.slots i with pixels := k.va.toNat })

/-- The surface at `i` after a commit differs in its buffer at most. -/
theorem Server.swapped_slot (s : Server) (k : Answers) (cap : Handle) (i : ℕ) :
    ∃ pixels, (s.swapped k cap i).compositor.slots i =
      { s.compositor.slots i with pixels := pixels } := by
  rw [swapped]
  split
  · exact ⟨_, rfl⟩
  · exact ⟨k.va.toNat, Function.update_self ..⟩

/-- What a commit has painted again. -/
def Surface.damage (t : Surface) (msg : Message) : Rect :=
  ⟨(t.x + low (msg.words.get 1)) % 2 ^ 64, (t.y + high (msg.words.get 1)) % 2 ^ 64,
    min (low (msg.words.get 2)) (t.width - low (msg.words.get 1)),
    min (high (msg.words.get 2)) (t.height - high (msg.words.get 1))⟩

/-- A surface whose size a machine word holds. -/
def Surface.Sized (t : Surface) : Prop := t.width < 2 ^ 64 ∧ t.height < 2 ^ 64

/-- A buffer that comes with a commit is one the server takes. -/
def Server.Takes (s : Server) (k : Answers) (cap : Handle) (i : ℕ) : Prop :=
  cap ≠ .null → k.Accepts cap (s.compositor.slots i).width (s.compositor.slots i).height

instance (cap : Handle) (i : ℕ) : Decidable (s.Takes k cap i) :=
  inferInstanceAs (Decidable (_ → _))

theorem wp_swapBuffer {cap : Handle} {i : ℕ} {Q : Unit → Server → Prop} (hi : i < maxSurfaces)
    (hok : s.Takes k cap i → Q () (s.swapped k cap i))
    (hno : ∀ e s', ¬ s.Takes k cap i → s' = s ∨ s' = s.mapped k → F e s') :
    wp T (swapBuffer o k cap i) Q F s := by
  rw [Server.swapped] at hok
  rw [swapBuffer, wp_ite]
  refine ⟨fun hcap => ?_, fun hcap => ?_⟩
  · rw [if_pos hcap] at hok
    exact (wp_pure _).mpr (hok fun h => absurd hcap h)
  · rw [if_neg hcap] at hok
    rw [wp_bind]
    refine wp_slot (fun _ => hi) fun _ => ?_
    rw [wp_bind]
    refine wp_acceptBuffer (fun hacc => ?_) fun e s' hacc hs => hno e s' (fun h => hacc (h hcap)) hs
    exact wp_setSlot (fun _ => hi) fun _ => hok fun _ => hacc

/-- **The first half of a commit.** -/
theorem wp_commitDamage {Q : Rect → Server → Prop} (hcount : ¬ T → s.compositor.count ≤ maxSurfaces)
    (hfits : ¬ T → o = .on → ∀ i, s.compositor.find? owner (msg.words.get 0).toNat = some i →
      (s.compositor.slots i).Damages msg →
      (s.compositor.slots i).Sized ∧ (s.compositor.slots i).Reaches msg)
    (hnone : s.compositor.find? owner (msg.words.get 0).toNat = none → F .noSurface s)
    (hbuffer : ∀ e s' i, s.compositor.find? owner (msg.words.get 0).toNat = some i →
      ¬ s.Takes k msg.cap i → s' = s ∨ s' = s.mapped k → F e s')
    (hbad : ∀ i, s.compositor.count ≤ maxSurfaces →
      s.compositor.find? owner (msg.words.get 0).toNat = some i → s.Takes k msg.cap i →
      ¬ (s.compositor.slots i).Damages msg → F .malformed (s.swapped k msg.cap i))
    (hok : ∀ i r, s.compositor.find? owner (msg.words.get 0).toNat = some i → s.Takes k msg.cap i →
      (s.compositor.slots i).Damages msg → (o = .on → (s.compositor.slots i).Reaches msg) →
      ((s.compositor.slots i).Sized → r = (s.compositor.slots i).damage msg) →
      Q r (s.swapped k msg.cap i)) :
    wp T (commitDamage o k owner msg) Q F s := by
  rw [commitDamage, wp_bind]
  refine wp_indexOf hcount fun hlt => ?_
  rw [wp_bind, wp_ofOption]
  refine ⟨fun i hi => ?_, hnone⟩
  have hi' : i < maxSurfaces := Nat.lt_of_lt_of_le (Compositor.of_find? hi).1 hlt
  rw [wp_bind]
  refine wp_swapBuffer hi' (fun htakes => ?_) fun e s' htakes hs => hbuffer e s' i hi htakes hs
  -- the surface shows the buffer it is to show, and is otherwise what it was
  obtain ⟨pixels, hslot⟩ := s.swapped_slot k msg.cap i
  rw [wp_bind]
  refine wp_slot (fun _ => hi') fun _ => ?_
  rw [hslot, wp_bind, wp_require]
  refine ⟨fun hdam => ?_, fun hdam => hbad i hlt hi htakes hdam⟩
  rw [wp_bind]
  refine wp_add_of (fun hT ho => (hfits hT ho i hi hdam).2.1) fun hx => ?_
  rw [wp_bind]
  refine wp_add_of (fun hT ho => (hfits hT ho i hi hdam).2.2) fun hy => ?_
  have hin := not_or.mp hdam
  have hw := Nat.not_le.mp hin.1
  have hh := Nat.not_le.mp (not_or.mp hin.2).1
  rw [wp_bind]
  refine wp_sub_of (fun hT ho => ⟨Nat.le_of_lt hw, (hfits hT ho i hi hdam).1.1⟩) fun w _ hw' => ?_
  rw [wp_bind]
  refine wp_sub_of (fun hT ho => ⟨Nat.le_of_lt hh, (hfits hT ho i hi hdam).1.2⟩) fun h _ hh' => ?_
  rw [wp_pure]
  refine hok i _ hi htakes hdam (fun ho => ⟨hx ho, hy ho⟩) fun hsized => ?_
  rw [hw' (Nat.le_of_lt hw) hsized.1, hh' (Nat.le_of_lt hh) hsized.2]
  rfl

/-- **The first half of a raise.** -/
theorem wp_raiseDamage {Q : Rect → Server → Prop} (hcount : ¬ T → s.compositor.count ≤ maxSurfaces)
    (hnone : s.compositor.find? owner (msg.words.get 0).toNat = none → F .noSurface s)
    (hok : ∀ i, s.compositor.find? owner (msg.words.get 0).toNat = some i →
      Q (s.compositor.slots i).rect (s.stacked (s.compositor.raised i))) :
    wp T (raiseDamage o owner msg) Q F s := by
  rw [raiseDamage, wp_bind]
  refine wp_indexOf hcount fun hlt => ?_
  rw [wp_bind, wp_ofOption]
  refine ⟨fun i hi => ?_, hnone⟩
  have hi' := (Compositor.of_find? hi).1
  have hok := hok i hi
  rw [wp_bind]
  refine wp_raiseSlot hi' hcount fun _ => ?_
  have hlast : s.compositor.count - 1 < maxSurfaces := by omega
  have hbig : s.compositor.count < 2 ^ 64 := Nat.lt_of_le_of_lt hlt (by decide)
  rw [wp_bind, wp_get]
  show wp T (o.sub 64 s.compositor.count 1 >>= _) _ _ _
  rw [wp_bind, wp_fit_sub (by omega) hbig, wp_bind]
  refine wp_slot (fun _ => hlast) fun _ => ?_
  rw [wp_pure]
  have hslot : (s.compositor.raised i).slots (s.compositor.count - 1) = s.compositor.slots i :=
    Function.update_self ..
  rw [Server.stacked, hslot]
  exact hok

/-- **The first half of a destroy.** -/
theorem wp_destroyDamage {Q : Rect → Server → Prop}
    (hcount : ¬ T → s.compositor.count ≤ maxSurfaces)
    (hnone : s.compositor.find? owner (msg.words.get 0).toNat = none → F .noSurface s)
    (hok : ∀ i, s.compositor.find? owner (msg.words.get 0).toNat = some i →
      Q (s.compositor.slots i).rect (s.stacked (s.compositor.removed i))) :
    wp T (destroyDamage o owner msg) Q F s := by
  rw [destroyDamage, wp_bind]
  refine wp_indexOf hcount fun hlt => ?_
  rw [wp_bind, wp_ofOption]
  refine ⟨fun i hi => ?_, hnone⟩
  have hi' := (Compositor.of_find? hi).1
  rw [wp_bind]
  refine wp_slot (fun _ => Nat.lt_of_lt_of_le hi' hlt) fun hi'' => ?_
  rw [wp_bind]
  exact wp_remove hi' hi'' hcount fun _ => (wp_pure _).mpr (hok i hi)

/-- A request is one of these. -/
theorem wp_serve {Q : List ℕ → Server → Prop} (hbye : msg.tag = tagBye → Q [0] s)
    (hscreen : msg.tag = tagScreen →
      Q [s.screen.width, s.screen.height, bpp * 8, formatXrgb8888.toNat] s)
    (hcreate : msg.tag = tagCreate → wp T (create o k client msg) (fun r => Q [r]) F s)
    (hcommit : msg.tag = tagCommit → wp T (commit o k client msg) (fun r => Q [r]) F s)
    (hraise : msg.tag = tagRaise → wp T (raise o k client msg) (fun r => Q [r]) F s)
    (hdestroy : msg.tag = tagDestroy → wp T (destroy o k client msg) (fun r => Q [r]) F s)
    (hwatch : msg.tag = tagWatch → msg.cap ≠ .null →
      Q [1] { s with watches := Function.update s.watches client msg.cap })
    (hfocus : msg.tag = tagFocus → Q [1] { s with focus := some client })
    (hrefused : msg.tag ≠ tagCreate → msg.tag ≠ tagCommit → msg.tag ≠ tagRaise →
      msg.tag ≠ tagDestroy → F .malformed s) :
    wp T (serve o k client msg) Q F s := by
  rw [serve, wp_ite]
  refine ⟨fun h => (wp_pure _).mpr (hbye h), fun _ => ?_⟩
  rw [wp_ite]
  refine ⟨fun h => by rw [wp_bind, wp_get, wp_pure]; exact hscreen h, fun _ => ?_⟩
  rw [wp_bind, outcome]
  simp only [wp_pure]
  rw [wp_ite]
  refine ⟨hcreate, fun hcr => ?_⟩
  rw [wp_ite]
  refine ⟨hcommit, fun hc => ?_⟩
  rw [wp_ite]
  refine ⟨hraise, fun hr => ?_⟩
  rw [wp_ite]
  refine ⟨hdestroy, fun hd => ?_⟩
  rw [wp_ite]
  refine ⟨fun h => ?_, fun _ => ?_⟩
  · rw [watch, wp_bind, wp_require, wp_bind, wp_modify, wp_pure]
    exact ⟨fun hcap => hwatch h hcap, fun _ => hrefused hcr hc hr hd⟩
  · rw [wp_ite, wp_bind, wp_modify, wp_pure]
    exact ⟨fun h => hfocus h, fun _ => (wp_fail _).mpr (hrefused hcr hc hr hd)⟩

end Display

end StarOS
