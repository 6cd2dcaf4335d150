import StarOS.Display.Machine

/-!
# The stack of surfaces

The surfaces stand in an array in stacking order, and taking one out or moving one to the top
shifts the entries behind it. What matters of the array is the list of the entries in use, and each
operation is stated by what it does to that list. A client's death takes out a list's worth at once,
and leaves the others as they are, in the order they had.

## Main results

* `Display.wp_remove`, `Display.wp_raiseSlot`, `Display.wp_add`, `Display.wp_setSlot`
* `Display.wp_removeOwner` — what a death leaves, and that the rectangle covers what it took
-/

namespace StarOS

namespace Display

open Checked

variable {ε : Type} {T : Prop} {o : OverflowChecks} {s : Server} {F : ε → Server → Prop}

namespace Compositor

variable (c : Compositor)

@[simp] theorem length_live : c.live.length = c.count := by simp [live]

theorem getElem?_live (i : ℕ) : c.live[i]? = if i < c.count then some (c.slots i) else none := by
  rw [live, List.getElem?_map]
  by_cases hi : i < c.count
  · simp [hi]
  · simp [hi]

/-- Without an entry: what was behind it has moved one place down. -/
def removed (i : ℕ) : Compositor :=
  { c with
    slots := fun j => if i ≤ j ∧ j < i + (c.count - (i + 1)) then c.slots (i + 1 + (j - i)) else c.slots j
    count := c.count - 1 }

/-- With an entry moved to the end. -/
def raised (i : ℕ) : Compositor :=
  { c with slots := Function.update (c.removed i).slots (c.count - 1) (c.slots i) }

/-- With one more entry. -/
def added (surface : Surface) (nextId : ℕ) : Compositor :=
  { slots := Function.update c.slots c.count surface, count := c.count + 1, nextId }

/-- With an entry replaced. -/
def replaced (i : ℕ) (surface : Surface) : Compositor :=
  { c with slots := Function.update c.slots i surface }

variable {c} {i : ℕ}

theorem live_removed (hi : i < c.count) : (c.removed i).live = c.live.eraseIdx i := by
  refine List.ext_getElem? fun j => ?_
  rw [List.getElem?_eraseIdx, getElem?_live, getElem?_live, getElem?_live]
  simp only [removed]
  grind

theorem live_raised (hi : i < c.count) :
    (c.raised i).live = c.live.eraseIdx i ++ [c.slots i] := by
  refine List.ext_getElem? fun j => ?_
  rw [List.getElem?_append, List.getElem?_eraseIdx, List.length_eraseIdx, length_live,
    getElem?_live, getElem?_live, getElem?_live]
  simp only [raised, removed, Function.update_apply]
  grind

theorem live_added (surface : Surface) (nextId : ℕ) :
    (c.added surface nextId).live = c.live ++ [surface] := by
  refine List.ext_getElem? fun j => ?_
  rw [List.getElem?_append, length_live, getElem?_live, getElem?_live]
  simp only [added, Function.update_apply]
  grind

theorem live_replaced (hi : i < c.count) (surface : Surface) :
    (c.replaced i surface).live = c.live.set i surface := by
  refine List.ext_getElem? fun j => ?_
  rw [List.getElem?_set, length_live, getElem?_live, getElem?_live]
  simp only [replaced, Function.update_apply]
  grind

end Compositor

theorem Compositor.getElem_live {c : Compositor} {i : ℕ} (hi : i < c.live.length) :
    c.live[i] = c.slots i := by
  have := c.getElem?_live i
  rw [if_pos (by simpa using hi), List.getElem?_eq_getElem hi] at this
  exact Option.some.inj this

/-- The server with another compositor. -/
def Server.stacked (s : Server) (c : Compositor) : Server := { s with compositor := c }

/-! ### The array operations -/

theorem wp_slot {i : ℕ} {Q : Surface → Server → Prop} (hT : ¬ T → i < maxSurfaces)
    (hQ : i < maxSurfaces → Q (s.compositor.slots i) s) : wp T (slot i) Q F s := by
  rw [slot, wp_ite, wp_bind, wp_get]
  exact ⟨fun hi => (wp_pure _).mpr (hQ hi),
    fun hi => wp_bounds.mpr (by_contra fun h => hi (hT h))⟩

theorem wp_setSlot {i : ℕ} {surface : Surface} {Q : Unit → Server → Prop}
    (hT : ¬ T → i < maxSurfaces)
    (hQ : i < maxSurfaces → Q () (s.stacked (s.compositor.replaced i surface))) :
    wp T (setSlot i surface) Q F s := by
  rw [setSlot, wp_ite]
  exact ⟨fun hi => (wp_modify _).mpr (hQ hi), fun hi => wp_bounds.mpr (by_contra fun h => hi (hT h))⟩

theorem wp_live {Q : List Surface → Server → Prop}
    (hT : ¬ T → s.compositor.count ≤ maxSurfaces)
    (hQ : s.compositor.count ≤ maxSurfaces → Q s.compositor.live s) : wp T live Q F s := by
  rw [live, wp_bind, wp_get, wp_ite]
  exact ⟨fun h => (wp_pure _).mpr (hQ h), fun h => wp_bounds.mpr (by_contra fun hn => h (hT hn))⟩

/-- The place of a client's surface in the stack. -/
def Compositor.find? (c : Compositor) (owner id : ℕ) : Option ℕ :=
  c.live.findIdx? fun t => t.id = id ∧ t.owner = owner

theorem wp_indexOf {owner id : ℕ} {Q : Option ℕ → Server → Prop}
    (hT : ¬ T → s.compositor.count ≤ maxSurfaces)
    (hQ : s.compositor.count ≤ maxSurfaces → Q (s.compositor.find? owner id) s) :
    wp T (indexOf owner id) Q F s := by
  rw [indexOf, wp_bind]
  exact wp_live hT fun h => (wp_pure _).mpr (hQ h)

/-- A surface that is found is live, has that id and is that client's. -/
theorem Compositor.of_find? {c : Compositor} {owner id i : ℕ} (h : c.find? owner id = some i) :
    i < c.count ∧ (c.slots i).id = id ∧ (c.slots i).owner = owner := by
  obtain ⟨hi, hp, -⟩ := List.findIdx?_eq_some_iff_getElem.mp h
  rw [Compositor.getElem_live] at hp
  exact ⟨by simpa using hi, by simpa using hp⟩

variable {i : ℕ} {Q : Unit → Server → Prop}

/-- Closing the gap over an entry. -/
theorem wp_copyDown (hi : i < s.compositor.count) (hT : ¬ T → s.compositor.count ≤ maxSurfaces)
    (hQ : s.compositor.count ≤ maxSurfaces →
      Q () (s.stacked { s.compositor with slots := (s.compositor.removed i).slots })) :
    wp T (copyWithin (i + 1) s.compositor.count i) Q F s := by
  rw [copyWithin, wp_ite]
  refine ⟨fun h => (wp_modify _).mpr (hQ h.2.1), fun h => wp_bounds.mpr (by_contra fun hn => h ?_)⟩
  have hcount := hT hn
  exact ⟨hi, hcount, by omega⟩

/-- **Taking a surface out.** -/
theorem wp_remove (hi : i < s.compositor.count) (hi' : i < maxSurfaces)
    (hT : ¬ T → s.compositor.count ≤ maxSurfaces)
    (hQ : s.compositor.count ≤ maxSurfaces → Q () (s.stacked (s.compositor.removed i))) :
    wp T (remove o i) Q F s := by
  rw [maxSurfaces] at hi'
  rw [remove, wp_bind, wp_get, wp_bind, wp_fit_add (by omega), wp_bind]
  refine wp_copyDown hi hT fun hcount => ?_
  have hlt := hcount
  rw [maxSurfaces] at hlt
  rw [wp_bind, wp_fit_sub (by omega) (by omega), wp_modify]
  exact hQ hcount

/-- **Moving a surface to the top.** -/
theorem wp_raiseSlot (hi : i < s.compositor.count) (hT : ¬ T → s.compositor.count ≤ maxSurfaces)
    (hQ : s.compositor.count ≤ maxSurfaces → Q () (s.stacked (s.compositor.raised i))) :
    wp T (raiseSlot o i) Q F s := by
  rw [raiseSlot, wp_bind]
  refine wp_slot (fun h => Nat.lt_of_lt_of_le hi (hT h)) fun hi' => ?_
  rw [maxSurfaces] at hi'
  rw [wp_bind, wp_get, wp_bind, wp_fit_add (by omega), wp_bind]
  refine wp_copyDown hi hT fun hcount => ?_
  have hlt := hcount
  rw [maxSurfaces] at hlt
  rw [wp_bind, wp_fit_sub (by omega) (by omega)]
  have hlast : s.compositor.count - 1 < maxSurfaces := by
    rw [maxSurfaces]
    omega
  exact wp_setSlot (fun _ => hlast) fun _ => hQ hcount

/-- The number that follows an id. -/
def nextOf (id : ℕ) : ℕ := (id + 1) % 2 ^ 64

/-- **Adding a surface**: there is no room, or it is on top with the next id. -/
theorem wp_add {Q : Option ℕ → Server → Prop} {owner pixels width height x y : ℕ}
    (hcount : ¬ T → s.compositor.count ≤ maxSurfaces)
    (hon : ¬ T → o = .on → s.compositor.nextId + 1 < 2 ^ 64)
    (hfull : s.compositor.count = maxSurfaces → Q none s)
    (hroom : s.compositor.count < maxSurfaces → Q (some s.compositor.nextId)
      (s.stacked (s.compositor.added ⟨s.compositor.nextId, owner, pixels, width, height, x, y⟩
        (nextOf s.compositor.nextId)))) :
    wp T (add o owner pixels width height x y) Q F s := by
  rw [add, wp_bind, wp_get, wp_ite]
  refine ⟨fun h => (wp_pure _).mpr (hfull h), fun h => ?_⟩
  rw [wp_bind]
  refine wp_add_of hon fun _ => ?_
  rw [wp_bind, wp_modify, wp_bind]
  refine wp_setSlot (fun hT => Nat.lt_of_le_of_ne (hcount hT) h) fun hlt => ?_
  have hroom := hroom hlt
  simp only [maxSurfaces] at hlt
  rw [wp_bind, wp_fit_add (by omega), wp_bind, wp_modify, wp_pure]
  exact hroom

/-! ### A death -/

/-- The surfaces a client does not own, in stacking order. -/
def Compositor.others (c : Compositor) (owner : ℕ) : List Surface :=
  c.live.filter (·.owner ≠ owner)

/-- A surface whose far corner has coordinates. -/
def Surface.Fits (t : Surface) : Prop := t.x + t.width < 2 ^ 64 ∧ t.y + t.height < 2 ^ 64

/-- A region whose corners are in order. -/
def Bounds.Ordered (b : Bounds) : Prop :=
  b.x0 ≤ b.x1 ∧ b.x1 < 2 ^ 64 ∧ b.y0 ≤ b.y1 ∧ b.y1 < 2 ^ 64

/-- What holds at each turn of the loop of `removeOwner`: the entries passed over are other
clients', and none of those has gone. -/
structure Sweeping (o : OverflowChecks) (s : Server) (owner : ℕ) (v : ℕ × Option Bounds)
    (s' : Server) : Prop where
  stacked : s' = s.stacked s'.compositor
  count : s'.compositor.count ≤ s.compositor.count
  nextId : s'.compositor.nextId = s.compositor.nextId
  passed : ∀ j < v.1, (s'.compositor.slots j).owner ≠ owner
  index : v.1 ≤ s'.compositor.count
  others : s'.compositor.others owner = s.compositor.others owner
  sub : ∀ t ∈ s'.compositor.live, t ∈ s.compositor.live
  ordered : o = .on → ∀ b, v.2 = some b → b.Ordered

theorem filter_eraseIdx {α : Type} {p : α → Bool} {l : List α} {i : ℕ} (hi : i < l.length)
    (h : p l[i] = false) : (l.eraseIdx i).filter p = l.filter p := by
  have hsplit : l.take i ++ l[i] :: l.drop (i + 1) = l := by
    rw [List.getElem_cons_drop, List.take_append_drop]
  rw [List.eraseIdx_eq_take_drop_succ, List.filter_append]
  conv_rhs => rw [← hsplit, List.filter_append, List.filter_cons_of_neg (by simp [h])]

/-- Taking out one of a client's surfaces leaves the others. -/
theorem Compositor.others_removed {c : Compositor} {owner i : ℕ} (hi : i < c.count)
    (h : (c.slots i).owner = owner) : (c.removed i).others owner = c.others owner := by
  have hlen : i < c.live.length := by simpa using hi
  rw [others, live_removed hi, filter_eraseIdx hlen (by simp [getElem_live hlen, h])]
  rfl

/-- The region grown by a surface. -/
def Bounds.grow (bounds : Option Bounds) (t : Surface) (right bottom : ℕ) : Bounds :=
  match bounds with
  | none => { x0 := t.x, y0 := t.y, x1 := right, y1 := bottom }
  | some b => { x0 := min b.x0 t.x, y0 := min b.y0 t.y, x1 := max b.x1 right, y1 := max b.y1 bottom }

theorem Bounds.Ordered.grow {bounds : Option Bounds} (h : ∀ b, bounds = some b → b.Ordered)
    {t : Surface} (ht : t.Fits) : (Bounds.grow bounds t (t.x + t.width) (t.y + t.height)).Ordered := by
  obtain ⟨hx, hy⟩ := ht
  cases bounds with
  | none => exact ⟨Nat.le_add_right .., hx, Nat.le_add_right .., hy⟩
  | some b =>
    obtain ⟨h₁, h₂, h₃, h₄⟩ := h b rfl
    simp only [Ordered, Bounds.grow]
    omega

theorem Compositor.slots_mem_live {c : Compositor} {i : ℕ} (hi : i < c.count) :
    c.slots i ∈ c.live :=
  List.mem_map.mpr ⟨i, List.mem_range.mpr hi, rfl⟩

/-- **A turn of the sweep.** -/
theorem Sweeping.turn {owner : ℕ} {v : ℕ × Option Bounds} {s₀ : Server}
    (hcount : ¬ T → s₀.compositor.count ≤ maxSurfaces)
    (hfits : ¬ T → o = .on → ∀ t ∈ s₀.compositor.live, t.owner = owner → t.Fits)
    (h : Sweeping o s₀ owner v s) :
    wp T (removeOwnerTurn o owner v) (fun r s' => match r with
      | .inl v' => Sweeping o s₀ owner v' s' ∧
          s'.compositor.count - v'.1 < s.compositor.count - v.1
      | .inr b => Sweeping o s₀ owner v s' ∧ s'.compositor.count ≤ v.1 ∧ b = v.2) F s := by
  obtain ⟨i, bounds⟩ := v
  have hlt : ¬ T → s.compositor.count ≤ maxSurfaces := fun hT => Nat.le_trans h.count (hcount hT)
  rw [removeOwnerTurn, wp_bind, wp_get, wp_ite]
  refine ⟨fun hi => (wp_pure _).mpr ⟨h, Nat.not_lt.mp hi, rfl⟩, fun hi => ?_⟩
  replace hi : i < s.compositor.count := Decidable.not_not.mp hi
  rw [wp_bind]
  refine wp_slot (fun hT => Nat.lt_of_lt_of_le hi (hlt hT)) fun hi' => ?_
  rw [wp_ite]
  refine ⟨fun hne => ?_, fun heq => ?_⟩
  · -- another client's: passed over
    rw [maxSurfaces] at hi'
    rw [wp_bind, wp_fit_add (by omega), wp_pure]
    refine ⟨{ h with passed := fun j hj => ?_, index := hi }, by show _ - (i + 1) < _ - i; omega⟩
    rcases Nat.lt_succ_iff_lt_or_eq.mp hj with hj | rfl
    · exact h.passed j hj
    · exact hne
  · replace heq : (s.compositor.slots i).owner = owner := Decidable.not_not.mp heq
    have hmem := h.sub _ (Compositor.slots_mem_live hi)
    rw [wp_bind]
    refine wp_add_of (fun hT ho => (hfits hT ho _ hmem heq).1) fun hx => ?_
    rw [wp_bind]
    refine wp_add_of (fun hT ho => (hfits hT ho _ hmem heq).2) fun hy => ?_
    rw [wp_bind]
    refine wp_remove hi hi' hlt fun _ => ?_
    rw [wp_pure]
    refine ⟨⟨?_, Nat.le_trans (Nat.sub_le _ _) h.count, h.nextId, ?_, ?_, ?_, ?_, ?_⟩, ?_⟩
    · rw [h.stacked]
      rfl
    · intro j hj
      have hsame : (s.compositor.removed i).slots j = s.compositor.slots j :=
        if_neg fun hij => absurd hij.1 (Nat.not_le.mpr hj)
      rw [Server.stacked, hsame]
      exact h.passed j hj
    · show i ≤ s.compositor.count - 1
      omega
    · rw [← h.others]
      exact Compositor.others_removed hi heq
    · intro t ht
      rw [Server.stacked, Compositor.live_removed hi] at ht
      exact h.sub t (List.mem_of_mem_eraseIdx ht)
    · intro ho b hb
      obtain rfl := Option.some.inj hb
      have hgrow := Bounds.Ordered.grow (h.ordered ho) ⟨hx ho, hy ho⟩
      rw [← Nat.mod_eq_of_lt (hx ho), ← Nat.mod_eq_of_lt (hy ho)] at hgrow
      exact hgrow
    · show s.compositor.count - 1 - i < s.compositor.count - i
      omega

/-- **A death** takes out the dead client's surfaces and no others. -/
theorem wp_removeOwner {owner : ℕ} (hcount : ¬ T → s.compositor.count ≤ maxSurfaces)
    (hfits : ¬ T → o = .on → ∀ t ∈ s.compositor.live, t.owner = owner → t.Fits) :
    wp T (removeOwner o owner) (fun _ s' => ∃ c, s' = s.stacked c ∧
      c.live = s.compositor.others owner ∧ c.nextId = s.compositor.nextId ∧
      c.count ≤ s.compositor.count) F s := by
  have hloop : wp T (loop (removeOwnerTurn o owner) (maxSurfaces + 1) (0, none))
      (fun b s' => ∃ i, Sweeping o s owner (i, b) s' ∧ s'.compositor.count ≤ i) F s := by
    refine wp_loop (Sweeping o s owner) (fun v s' => s'.compositor.count - v.1)
      (fun v s' h => wp_mono (h.turn hcount hfits) (fun r s'' h' => ?_) fun _ _ h => h) ?_
      fun hT => Nat.lt_succ_of_le (hcount hT)
    · cases r with
      | inl v' => exact h'
      | inr b =>
        obtain ⟨h', hle, rfl⟩ := h'
        exact ⟨v.1, h', hle⟩
    · exact ⟨rfl, Nat.le_refl _, rfl, fun j hj => absurd hj (Nat.not_lt_zero j), Nat.zero_le _, rfl,
        fun t ht => ht, fun _ b hb => by simp at hb⟩
  rw [removeOwner, wp_bind]
  refine wp_mono hloop ?_ fun _ _ h => h
  rintro bounds s' ⟨i, h, hi⟩
  -- everything has been passed over, so what is left is other clients'
  have hlive : s'.compositor.live = s.compositor.others owner := by
    rw [← h.others, Compositor.others, eq_comm, List.filter_eq_self]
    intro t ht
    obtain ⟨j, hj, rfl⟩ := List.mem_map.mp ht
    simpa using h.passed j (Nat.lt_of_lt_of_le (List.mem_range.mp hj) hi)
  have hdone : ∃ c, s' = s.stacked c ∧ c.live = s.compositor.others owner ∧
      c.nextId = s.compositor.nextId ∧ c.count ≤ s.compositor.count :=
    ⟨_, h.stacked, hlive, h.nextId, h.count⟩
  cases bounds with
  | none => exact (wp_pure _).mpr hdone
  | some b =>
    rw [wp_bind]
    refine wp_sub_of (fun _ ho => ?_) fun w _ _ => ?_
    · have := h.ordered ho b rfl
      exact ⟨this.1, this.2.1⟩
    · rw [wp_bind]
      refine wp_sub_of (fun _ ho => ?_) fun h' _ _ => (wp_pure _).mpr hdone
      have := h.ordered ho b rfl
      exact ⟨this.2.2.1, this.2.2.2⟩

end Display

end StarOS
