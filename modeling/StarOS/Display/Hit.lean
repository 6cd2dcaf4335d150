import StarOS.Display.Safety

/-!
# What is clicked is what is seen

Painting goes up the stack and the last surface that covers a position wins; the search for what is
under the pointer goes down it and the first one wins. They agree at every position that is painted.

## Main definitions

* `Display.Server.lowest` — the picture of the lowest surfaces
* `Display.Server.Paints` — a composite of a rectangle paints a position

## Main results

* `Display.wp_topmostAt_lowest` — the search finds the surface whose pixel the picture has
* `Display.hit_agrees`
-/

namespace StarOS

namespace Display

open Checked

variable {ε : Type} {T : Prop} {o : OverflowChecks} {k : Answers} {s : Server} {x y : ℕ}

/-- The picture of the lowest `n` surfaces over the background. -/
def Server.lowest (s : Server) (n : ℕ) : Picture := fun sx sy =>
  ((List.range n).map s.compositor.slots).foldl (Surface.over s.mem sx sy) background

theorem Server.lowest_zero : s.lowest 0 x y = background := rfl

theorem Server.lowest_succ (n : ℕ) :
    s.lowest (n + 1) x y = Surface.over s.mem x y (s.lowest n x y) (s.compositor.slots n) := by
  simp only [lowest, List.range_succ, List.map_append, List.map_cons, List.map_nil,
    List.foldl_append, List.foldl_cons, List.foldl_nil]

/-- **The search finds what is painted last.** By induction on how many surfaces are searched: the
highest of them either covers the position, and is what both find, or changes nothing for either. -/
theorem wp_topmostAt_lowest {n : ℕ} (hs : s.Sound) (hn : n ≤ s.compositor.count) (hx : x < 2 ^ 64)
    (hy : y < 2 ^ 64) :
    wp T (topmostAt o x y n : Checked Server ε (Option ℕ)) (fun found s' => s' = s ∧
        (∀ i, found = some i → i < n ∧
          (s.compositor.slots i).colour? s.mem x y = some (s.lowest n x y)) ∧
        (found = none → s.lowest n x y = background))
      (fun _ _ => False) s := by
  induction n with
  | zero =>
    rw [topmostAt, wp_pure]
    exact ⟨rfl, fun i hi => absurd hi (by simp), fun _ => Server.lowest_zero⟩
  | succ n ih =>
    have hlt : n < maxSurfaces := Nat.lt_of_lt_of_le hn hs.count
    rw [topmostAt, wp_bind]
    refine wp_slot (fun _ => hlt) fun _ => ?_
    rw [wp_bind, wp_at (hs.backed _ (Compositor.slots_mem_live hn)) hx hy, wp_ite]
    by_cases hcovers : (s.compositor.slots n).Covers x y
    · have hcolour : (s.compositor.slots n).colour? s.mem x y = some (s.lowest (n + 1) x y) := by
        rw [Surface.colour?, if_pos hcovers, Server.lowest_succ, Surface.over, if_pos hcovers]
      rw [hcolour, wp_pure]
      refine ⟨fun _ => ⟨rfl, fun i hi => ?_, fun hnone => by simp at hnone⟩,
        fun hno => absurd Option.isSome_some hno⟩
      obtain rfl := Option.some.inj hi
      exact ⟨Nat.lt_succ_self _, hcolour⟩
    · have hcolour : (s.compositor.slots n).colour? s.mem x y = none := by
        rw [Surface.colour?, if_neg hcovers]
      have hlowest : s.lowest (n + 1) x y = s.lowest n x y := by
        rw [Server.lowest_succ, Surface.over, if_neg hcovers]
      rw [hcolour, hlowest]
      refine ⟨fun hyes => absurd hyes (by simp), fun _ => ?_⟩
      refine wp_mono (ih (Nat.le_of_succ_le hn)) (fun found s' h => ?_) fun _ _ h => h
      exact ⟨h.1, fun i hi => ⟨Nat.lt_succ_of_lt (h.2.1 i hi).1, (h.2.1 i hi).2⟩, h.2.2⟩

/-- What a surface says of a position. -/
theorem Surface.at_eq {t : Surface} (ht : t.Backed s.maps) (hx : x < 2 ^ 64) (hy : y < 2 ^ 64) :
    (t.at o x y : Checked Server Empty _) s = .ok (t.colour? s.mem x y) s := by
  obtain ⟨found, s', hrun, rfl, rfl⟩ | ⟨e, _⟩ := exists_of_wp ((wp_at (T := False) (o := o)
    (F := fun (_ : Empty) _ => True) (Q := fun c s' => c = t.colour? s.mem x y ∧ s' = s)
    ht hx hy).mpr ⟨rfl, rfl⟩)
  · exact hrun
  · exact e.elim

/-- A composite of a rectangle paints a position: one of the region where the buffer being drawn
into is behind once what is on the screen of the rectangle has changed. -/
def Server.Paints (s : Server) (rect : Rect) (x y : ℕ) : Prop :=
  ∃ r, rect.cut s.screen = some r ∧ (s.screen.lag r s.screen.back).Has x y

/-- Every position of the rectangle on the screen is painted. -/
theorem Server.paints_of_has {rect : Rect} (hxy : s.screen.Has x y) (hrect : rect.Has x y) :
    s.Paints rect x y := by
  obtain hcut | ⟨r, hcut⟩ := Option.eq_none_or_eq_some (rect.cut s.screen)
  · exact absurd hrect (Rect.not_has_of_cut hcut hxy)
  · exact ⟨r, hcut, s.screen.lag_has s.screen.back (Rect.has_of_cut hcut hxy hrect)⟩

/-- What a composite leaves at a position it paints. -/
theorem pixel_of_composite {rect : Rect} {n : ℕ} {s' : Server} (hs : s.Sound)
    (hrun : composite o k rect s = .ok n s') (hpaints : s.Paints rect x y) :
    s.screen.Has x y ∧ s'.pixel s.screen.back x y = s.ideal x y := by
  obtain ⟨r, hcut, hlag⟩ := hpaints
  refine ⟨(hs.screen.lag_within (Rect.within_of_cut hcut) s.screen.back).screen_has hlag, ?_⟩
  have hwp : wp True (composite o k rect)
      (fun _ s' => s'.pixel s.screen.back x y = s.ideal x y) (fun _ _ => True) s :=
    wp_composite hs (fun hT => absurd trivial hT) (fun hnone => by simp [hcut] at hnone)
      fun r' s' hcut' _ hpainted => ?_
  · exact (wp_of_ok hrun).mp hwp
  · obtain rfl := Option.some.inj (hcut.symm.trans hcut')
    exact hpainted.painted x y hlag

/-- **Hit testing agrees with painting.** -/
theorem hit_agrees {rect : Rect} {n : ℕ} {s' : Server} (hs : s.Sound)
    (hrun : composite o k rect s = .ok n s') (hpaints : s.Paints rect x y) :
    ∃ found, (topmostAt o x y s.compositor.count : Checked Server Empty _) s = .ok found s ∧
      (∀ i, found = some i → ((s.compositor.slots i).at o x y : Checked Server Empty _) s =
        .ok (some (s'.pixel s.screen.back x y)) s) ∧
      (s'.pixel s.screen.back x y = background ↔ found = none ∨ ∃ i, found = some i ∧
        ((s.compositor.slots i).at o x y : Checked Server Empty _) s =
          .ok (some background) s) := by
  obtain ⟨hxy, hpixel⟩ := pixel_of_composite hs hrun hpaints
  have hx : x < 2 ^ 64 := Nat.lt_trans hxy.1 hs.screen.width_lt
  have hy : y < 2 ^ 64 := Nat.lt_trans hxy.2 hs.screen.height_lt
  obtain ⟨found, s₁, hfound, rfl, hsome, hnone⟩ | ⟨e, _⟩ := exists_of_wp
    (wp_topmostAt_lowest (T := False) (ε := Empty) (o := o) hs (Nat.le_refl _) hx hy)
  · have hat : ∀ i, found = some i → ((s₁.compositor.slots i).at o x y : Checked Server Empty _) s₁ =
        .ok (some (s'.pixel s₁.screen.back x y)) s₁ := by
      intro i hi
      obtain ⟨hlt, hcolour⟩ := hsome i hi
      rw [Surface.at_eq (hs.backed _ (Compositor.slots_mem_live hlt)) hx hy, hcolour, hpixel]
      rfl
    refine ⟨found, hfound, hat, ?_⟩
    cases found with
    | none => exact ⟨fun _ => .inl rfl, fun _ => hpixel.trans (hnone rfl)⟩
    | some i =>
      refine ⟨fun hback => .inr ⟨i, rfl, hback ▸ hat i rfl⟩, fun h => ?_⟩
      obtain hno | ⟨j, hj, hback⟩ := h
      · exact absurd hno (by simp)
      · obtain rfl := Option.some.inj hj
        exact Option.some.inj (EStateM.Result.ok.inj ((hat i rfl).symm.trans hback)).1
  · exact e.elim

/-- The screen of one pixel with a surface of one pixel on it, in a buffer that repeats the colour of
the background. -/
def disguised : Server :=
  { Server.new pinholeScreen (fun a => background.extractLsb' (a % 4 * 8) 8) (fun _ => 0) with
    compositor := ⟨fun _ => ⟨0, 0, 0, 1, 1, 0, 0⟩, 1, 1⟩
    maps := [⟨0, 4⟩] }

theorem sound_disguised : disguised.Sound := by
  have hseed : Screen.fromSeed pinhole = some pinholeScreen := rfl
  refine ⟨Screen.sound_of_fromSeed hseed (by rw [Screen.Mapped]; decide), by decide,
    fun t ht => ?_, by decide, by decide⟩
  obtain rfl := List.mem_singleton.mp ht
  exact ⟨by decide, by decide, ⟨0, 4⟩, List.mem_singleton_self _, rfl, by decide⟩

theorem paints_disguised : disguised.Paints ⟨0, 0, 1, 1⟩ 0 0 :=
  Server.paints_of_has ⟨Nat.one_pos, Nat.one_pos⟩
    ⟨⟨Nat.le_refl _, Nat.one_pos⟩, Nat.le_refl _, Nat.one_pos⟩

theorem exists_composite_disguised : ∃ n s', composite .on obliging ⟨0, 0, 1, 1⟩ disguised =
    .ok n s' ∧ s'.pixel disguised.screen.back 0 0 = background := by
  have hroom : disguised.Roomy :=
    ⟨by decide, by decide, by decide, by decide, by decide, by decide, by decide, by decide,
      by decide⟩
  have hideal : disguised.ideal 0 0 = background := by decide
  obtain ⟨n, s', hrun, -⟩ | ⟨e, _⟩ := exists_of_wp (wp_composite (T := False) (o := .on)
    (k := obliging) (F := fun _ _ => True) (Q := fun _ _ => True) sound_disguised
    (fun _ _ => hroom) (fun _ => trivial) fun _ _ _ _ _ => trivial)
  · have hpixel := pixel_of_composite sound_disguised hrun paints_disguised
    exact ⟨n, s', hrun, hpixel.2.trans hideal⟩
  · exact e.elim

theorem hit_agrees_disguised : ∃ (s' : Server) (found : Option ℕ),
    (topmostAt .on 0 0 disguised.compositor.count : Checked Server Empty _) disguised =
        .ok found disguised ∧
      (∀ i, found = some i →
        ((disguised.compositor.slots i).at .on 0 0 : Checked Server Empty _) disguised =
          .ok (some (s'.pixel disguised.screen.back 0 0)) disguised) ∧
      (s'.pixel disguised.screen.back 0 0 = background ↔ found = none ∨ ∃ i, found = some i ∧
        ((disguised.compositor.slots i).at .on 0 0 : Checked Server Empty _) disguised =
          .ok (some background) disguised) := by
  obtain ⟨n, s', hrun, -⟩ := exists_composite_disguised
  exact ⟨s', hit_agrees sound_disguised hrun paints_disguised⟩

/-- The colour of the background is also painted where a surface with that colour is hit. -/
theorem hit_background : ¬ ∀ (s s' : Server) (rect : Rect) (n x y : ℕ) (found : Option ℕ),
    s.Sound → composite .on obliging rect s = .ok n s' → s.Paints rect x y →
      (topmostAt .on x y s.compositor.count : Checked Server Empty _) s = .ok found s →
        (s'.pixel s.screen.back x y = background ↔ found = none) := by
  intro h
  obtain ⟨n, s', hrun, hback⟩ := exists_composite_disguised
  have hfound : (topmostAt .on 0 0 disguised.compositor.count : Checked Server Empty _) disguised =
      .ok (some 0) disguised := by rfl
  have hnone := (h disguised s' _ n 0 0 (some 0) sound_disguised hrun paints_disguised hfound).mp hback
  exact absurd hnone (by simp)

end Display

end StarOS
