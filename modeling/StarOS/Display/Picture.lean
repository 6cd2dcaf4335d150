import StarOS.Display.Safety

/-!
# The screen shows the ideal picture

Each buffer is behind by a history of its own: what it holds is the picture of the last composite
but for the positions of its `stale` region. A composite adds its damage to every region, paints the
back buffer wherever that one is behind, and shows it. So if nothing has changed outside the damage,
the buffer on the screen is the ideal picture after every composite, and with two buffers the one on
the screen is never drawn into.

## Main definitions

* `Display.Server.Shows` — where each buffer holds a picture
* `Display.Session.Honest` — the kernel flips, and the damage covers what has changed

## Main results

* `Display.shows_ideal`
-/

namespace StarOS

namespace Display

open Checked

variable {o : OverflowChecks} {k : Answers} {s s' : Server} {shown : Option Picture}

/-- A position where a buffer is behind. -/
def Screen.Behind (screen : Screen) (b sx sy : ℕ) : Prop :=
  ∃ had, screen.stale[b]? = some (some had) ∧ had.Has sx sy

/-- A pixel write missed the buffer that was being scanned out at the time. -/
def Screen.Missed (screen : Screen) (w : ℕ × ℕ) : Prop :=
  w.1 + bpp ≤ w.2 * screen.plane ∨ (w.2 + 1) * screen.plane ≤ w.1

/-- The buffers hold the picture `shown` but where they are behind, and the one on the screen is
behind nowhere. -/
structure Server.Shows (s : Server) (shown : Option Picture) : Prop where
  only : s.screen.buffers = 1 → s.front = 0
  other : s.screen.buffers = 2 → s.front < 2 ∧ s.front ≠ s.screen.back
  current : shown.isSome → s.screen.stale[s.front]? = some none
  holds : ∀ b < s.screen.buffers, ∀ x y, s.screen.Has x y → ¬ s.screen.Behind b x y →
    ∃ picture ∈ shown, s.pixel b x y = picture x y
  missed : s.screen.buffers = 2 → ∀ w ∈ s.writes, s.screen.Missed w

namespace Server.Shows

theorem congr (h : s.Shows shown) (hd : s'.display = s.display) : s'.Shows shown := by
  obtain ⟨hscreen, hd⟩ := Prod.mk.inj hd
  obtain ⟨hfb, hd⟩ := Prod.mk.inj hd
  obtain ⟨hfront, hwrites⟩ := Prod.mk.inj hd
  have hpixel : ∀ b, s'.pixel b = s.pixel b := fun b => by
    funext x y
    rw [pixel, pixel, hfb, hscreen]
  constructor
  · rw [hscreen, hfront]
    exact h.only
  · rw [hscreen, hfront]
    exact h.other
  · rw [hscreen, hfront]
    exact h.current
  · intro b
    rw [hscreen, hpixel]
    exact h.holds b
  · rw [hscreen, hwrites]
    exact h.missed

variable (h : s.Shows shown)
include h

theorem front_lt (hs : s.screen.Sound) : s.front < s.screen.buffers := by
  rcases hs.one_or_two with hone | htwo
  · rw [h.only hone, hone]
    exact Nat.zero_lt_one
  · rw [htwo]
    exact (h.other htwo).1

/-- The buffer on the screen holds the picture everywhere. -/
theorem front {picture : Picture} (hs : s.screen.Sound) (hshown : shown = some picture) {x y : ℕ}
    (hxy : s.screen.Has x y) : s.pixel s.front x y = picture x y := by
  obtain ⟨picture', hp, heq⟩ := h.holds s.front (h.front_lt hs) x y hxy fun ⟨had, hhad, _⟩ => by
    rw [h.current (by rw [hshown]; rfl)] at hhad
    simp at hhad
  rw [heq, Option.some.inj (hp.symm.trans hshown)]

/-- Where `r` leaves a buffer up to date it holds the ideal picture, if what has changed lies in
`r`. -/
theorem ideal_of_not_lag {r : Rect} {b x y : ℕ} (hb : b < s.screen.buffers)
    (hxy : s.screen.Has x y)
    (hchange : (∀ picture ∈ shown, s.ideal x y ≠ picture x y) → r.Has x y)
    (hlag : ¬ (s.screen.lag r b).Has x y) : s.pixel b x y = s.ideal x y := by
  obtain ⟨picture, hp, heq⟩ := h.holds b hb x y hxy fun ⟨_, hhad, hin⟩ =>
    hlag (Screen.lag_has_stale hhad hin)
  by_contra hne
  refine hlag (s.screen.lag_has b (hchange fun picture' hp' heq' => hne ?_))
  rw [heq, heq', Option.some.inj (hp.symm.trans hp')]

/-- A buffer that is drawn into while another is on the screen is painted in its own place. -/
theorem missed_of_offset (hs : s.screen.Sound) (htwo : s.screen.buffers = 2) {w : ℕ × ℕ} {x y : ℕ}
    (hfront : w.2 = s.front) (hxy : s.screen.Has x y)
    (hw : w.1 = s.screen.offset s.screen.back x y) : s.screen.Missed w := by
  obtain ⟨hlow, hhigh⟩ := hs.offset_lt (b := s.screen.back) hxy
  rw [Screen.Missed, hfront, hw]
  rcases Nat.lt_or_gt_of_ne (h.other htwo).2 with hlt | hgt
  · exact .inr (Nat.le_trans (Nat.mul_le_mul_right _ hlt) hlow)
  · exact .inl (Nat.le_trans hhigh (Nat.mul_le_mul_right _ hgt))

/-- **A composite brings the screen up to date.** -/
theorem repainted {r : Rect} (hs : s.screen.Sound)
    (hflips : s.screen.buffers = 2 → s.screen.Flips k)
    (hchange : ∀ x y, s.screen.Has x y → (∀ picture ∈ shown, s.ideal x y ≠ picture x y) →
      r.Has x y)
    (hr : Repainted k r s s') : s'.Shows (some s.ideal) := by
  have hback := hs.back
  have hwidth : s'.screen.width = s.screen.width := by rw [hr.shape]
  have hheight : s'.screen.height = s.screen.height := by rw [hr.shape]
  have hbuffers : s'.screen.buffers = s.screen.buffers := by rw [hr.shape]
  have hplane : s'.screen.plane = s.screen.plane := by rw [hr.shape]
  have hone : s.screen.buffers = 1 → ¬ s.screen.Flips k := fun hone hf => hf.1 (.inl (by omega))
  -- with one buffer it is the one painted, with two the one painted comes to the front
  have hfront : s'.front = s.screen.back := by
    rw [hr.front]
    rcases hs.one_or_two with h₁ | h₂
    · rw [if_neg (hone h₁), h.only h₁]
      omega
    · rw [if_pos (hflips h₂)]
  constructor
  · rw [hbuffers, hfront]
    omega
  · rw [hbuffers, hfront]
    intro htwo
    rw [hr.back, if_pos (hflips htwo), htwo]
    omega
  · intro _
    rw [hfront, hr.stale _ hback, if_pos rfl]
  · intro b hb x y hxy hbehind
    rw [hbuffers] at hb
    rw [Screen.Has, hwidth, hheight] at hxy
    refine ⟨s.ideal, rfl, ?_⟩
    by_cases hlag : (s.screen.lag r b).Has x y
    · -- a buffer that is behind somewhere was the one painted, or still is
      by_cases heq : b = s.screen.back
      · subst heq
        exact hr.painted x y hlag
      · exact absurd ⟨_, by rw [hr.stale b hb, if_neg heq], hlag⟩ hbehind
    · have hkept : s'.pixel b x y = s.pixel b x y := by
        refine hr.kept b x y hxy ?_
        by_cases heq : b = s.screen.back
        · exact .inr (heq ▸ hlag)
        · exact .inl heq
      rw [hkept]
      exact h.ideal_of_not_lag hb hxy (hchange x y hxy) hlag
  · intro htwo w hw
    rw [hbuffers] at htwo
    have hold : s.screen.Missed w := by
      obtain hw | ⟨hwfront, x, y, hxy, hoffset⟩ := hr.writes w hw
      · exact h.missed htwo w hw
      · exact h.missed_of_offset hs htwo hwfront hxy hoffset
    rw [Screen.Missed, hplane]
    exact hold

/-- The same of a rectangle that may lie outside the screen. -/
theorem composited {rect : Rect} (hs : s.screen.Sound)
    (hflips : s.screen.buffers = 2 → s.screen.Flips k)
    (hchange : ∀ x y, s.screen.Has x y → (∀ picture ∈ shown, s.ideal x y ≠ picture x y) →
      rect.Has x y)
    (hc : Composited k rect s s') : s'.Shows (some s.ideal) := by
  obtain ⟨-, ⟨hcut, hd⟩ | ⟨r, s₂, hcut, hr, hd⟩⟩ := hc
  · -- nothing of the screen has changed, so what it shows is still ideal
    have hideal : ∀ x y, s.screen.Has x y → ∃ picture ∈ shown, s.ideal x y = picture x y := by
      intro x y hxy
      by_contra hno
      exact Rect.not_has_of_cut hcut hxy (hchange x y hxy fun p hp heq => hno ⟨p, hp, heq⟩)
    obtain ⟨shown', hshown, -⟩ := hideal 0 0 hs.pos
    obtain rfl : shown = some shown' := hshown
    refine Shows.congr ?_ hd
    refine ⟨h.only, h.other, fun _ => h.current rfl, fun b hb x y hxy hbehind => ⟨_, rfl, ?_⟩, h.missed⟩
    obtain ⟨p, hp, heq⟩ := h.holds b hb x y hxy hbehind
    obtain ⟨p', hp', heq'⟩ := hideal x y hxy
    rw [heq, heq', Option.some.inj (hp.symm.trans hp')]
  · refine Shows.congr ?_ hd
    exact h.repainted hs hflips
      (fun x y hxy hp => Rect.has_of_cut hcut hxy (hchange x y hxy hp)) hr

end Server.Shows

/-- Before it has painted, a server shows nothing yet. -/
theorem Server.shows_new {seed : Seed} {screen : Screen} {mem fb : ByteMemory}
    (h : Screen.fromSeed seed = some screen) : (Server.new screen mem fb).Shows none := by
  simp only [Screen.fromSeed] at h
  split at h
  · simp at h
  · obtain rfl := Option.some.inj h
    refine ⟨fun _ => rfl, fun htwo => ?_, fun hno => by simp at hno, fun b hb x y hxy hno => ?_,
      fun _ w hw => absurd hw List.not_mem_nil⟩
    · dsimp only [new] at htwo ⊢
      rw [htwo]
      decide
    · -- every buffer is behind by the whole screen
      refine absurd ⟨_, List.getElem?_replicate_of_lt ?_, ⟨Nat.zero_le _, ?_⟩, Nat.zero_le _, ?_⟩ hno
      · dsimp only [new, maxBuffers] at hb ⊢
        omega
      · rw [Nat.zero_add]
        exact hxy.1
      · rw [Nat.zero_add]
        exact hxy.2

/-! ### Runs -/

/-- With two buffers the kernel accepts every flip the event asks for, and what has changed since
the last composite lies in the rectangle that is painted again. -/
def Session.Honest (o : OverflowChecks) (v : Session) (e : Event) : Prop :=
  (v.server.screen.buffers = 2 → v.server.screen.scanout ≠ .null ∧ ∀ k ∈ e.answers, 0 ≤ k.flip) ∧
    ∀ rect s₁, e.damages o v.server = some (rect, s₁) → ∀ picture ∈ v.shown, ∀ x y,
      v.server.screen.Has x y → s₁.ideal x y ≠ picture x y → rect.Has x y

/-- The first event that paints paints the whole screen. -/
theorem Session.change_has {v : Session} {e : Event} {rect : Rect} {s₁ : Server}
    (hen : v.Enabled e) (h : v.Honest o e) (hd : e.damages o v.server = some (rect, s₁)) {x y : ℕ}
    (hxy : v.server.screen.Has x y) (hp : ∀ picture ∈ v.shown, s₁.ideal x y ≠ picture x y) :
    rect.Has x y := by
  cases hshown : v.shown with
  | some picture => exact h.2 rect s₁ hd picture hshown x y hxy (hp picture hshown)
  | none =>
    cases e with
    | start k =>
      obtain ⟨rfl, -⟩ := Prod.mk.inj (Option.some.inj hd)
      refine ⟨⟨Nat.zero_le _, ?_⟩, Nat.zero_le _, ?_⟩
      · show x < 0 + v.server.screen.width
        rw [Nat.zero_add]
        exact hxy.1
      · show y < 0 + v.server.screen.height
        rw [Nat.zero_add]
        exact hxy.2
    | request => exact absurd hshown hen
    | death => exact absurd hshown hen
    | pointer => exact absurd hshown hen
    | draw => simp [Event.damages] at hd

/-- **An event keeps the screen.** -/
theorem Server.Shows.next {v v' : Session} {e : Event} (hs : v.server.Sound)
    (h : v.server.Shows v.shown) (hok : v.Honest o e) (hn : v.next o e = some v') :
    v'.server.Shows v'.shown := by
  obtain ⟨hen, id, hr, -, hshown⟩ := Session.of_next hn
  have hafter := (Event.sound_after hs hr).2
  cases hd : e.damages o v.server with
  | none =>
    rw [hd] at hafter hshown
    rw [hshown]
    exact h.congr hafter
  | some d =>
    obtain ⟨rect, s₁⟩ := d
    rw [hd] at hafter hshown
    obtain ⟨hdisplay, k, hk, hc⟩ := hafter
    have hscreen : s₁.screen = v.server.screen := (Prod.mk.inj hdisplay).1
    have hsound₁ : s₁.screen.Sound := hscreen ▸ hs.screen
    have hideal : v'.server.ideal = s₁.ideal := by
      obtain ⟨hcomp, hmem⟩ := Prod.mk.inj hc.1
      funext x y
      rw [ideal, ideal, hcomp, hmem]
    rw [hshown, Option.isSome_some, if_pos rfl, hideal]
    refine (h.congr hdisplay).composited hsound₁ (fun htwo => ?_) (fun x y hxy => ?_) hc
    · rw [hscreen] at htwo ⊢
      obtain ⟨hscanout, hflip⟩ := hok.1 htwo
      exact ⟨fun hno => hno.elim (by omega) hscanout, Int.not_lt.mpr (hflip k hk)⟩
    · exact Session.change_has hen hok hd (hscreen ▸ hxy)

theorem shows_of_reach {v : Session}
    (h : (displayServer o).Reach (fun v e => v.Honest o e) v) : v.server.Shows v.shown := by
  refine EventSystem.Reach.invariant_of (I := fun v => v.server.Shows v.shown)
    (J := fun v => v.server.Sound) (fun _ hv => sound_of_reach hv) ?_ ?_ h
  · rintro _ ⟨seed, screen, mem, fb, hseed, -, rfl⟩
    exact Server.shows_new hseed
  · intro v e v' hs hv hok hn
    exact hv.next hs hok hn

/-- **The screen is right after every composite.** With one buffer, or with two and flips that the
kernel accepts, where every change since the last composite lies in the rectangle that is painted
again: after a composite the buffer on the screen is the ideal picture at every position, and with
two buffers no pixel was ever written to the one on the screen. -/
theorem shows_ideal (o : OverflowChecks) :
    ∀ v, (displayServer o).Reach (fun v e => v.Honest o e) v →
      ∀ e v', v.Honest o e → v.next o e = some v' →
        ((e.damages o v.server).isSome → ∀ x y, v'.server.screen.Has x y →
          v'.server.pixel v'.server.front x y = v'.server.ideal x y) ∧
        (v'.server.screen.buffers = 2 → ∀ w ∈ v'.server.writes, v'.server.screen.Missed w) := by
  intro v hv e v' hok hn
  have hs := sound_of_reach hv
  have hs' := sound_of_reach (hv.step hok hn)
  have h' := shows_of_reach (hv.step hok hn)
  refine ⟨fun hd x y hxy => ?_, h'.missed⟩
  obtain ⟨-, -, -, -, hshown⟩ := Session.of_next hn
  rw [if_pos hd] at hshown
  exact h'.front hs'.screen hshown hxy

instance (r : Rect) (sx sy : ℕ) : Decidable (r.Has sx sy) := inferInstanceAs (Decidable (_ ∧ _))

/-- The flips an event asks for are accepted, and at every position of the screen the picture that
was shown is right or is painted again. -/
def Session.honestly (o : OverflowChecks) (v : Session) (e : Event) : Bool :=
  (v.server.screen.buffers ≠ 2 ∨ v.server.screen.scanout ≠ .null ∧
    e.answers.all fun k => 0 ≤ k.flip) &&
  (e.damages o v.server).all fun d => v.shown.all fun picture =>
    (List.range v.server.screen.width).all fun x => (List.range v.server.screen.height).all fun y =>
      d.2.ideal x y = picture x y ∨ d.1.Has x y

theorem Session.honest_of_honestly {v : Session} {e : Event} (h : v.honestly o e = true) :
    v.Honest o e := by
  obtain ⟨hflips, hdamages⟩ := Bool.and_eq_true_iff.mp h
  refine ⟨fun htwo => ?_, fun rect s₁ hd picture hp x y hxy hne => ?_⟩
  · obtain hno | ⟨hscanout, hanswers⟩ := of_decide_eq_true hflips
    · exact absurd htwo hno
    · refine ⟨hscanout, fun k hk => ?_⟩
      rw [Option.mem_def.mp hk] at hanswers
      exact of_decide_eq_true hanswers
  · rw [hd, Option.all_some, Option.mem_def.mp hp, Option.all_some] at hdamages
    have hrow := List.all_eq_true.mp hdamages x (List.mem_range.mpr hxy.1)
    obtain heq | hhas := of_decide_eq_true (List.all_eq_true.mp hrow y (List.mem_range.mpr hxy.2))
    · exact absurd heq hne
    · exact hhas

/-- A client shows a window and dies: the window is on the screen, and then it is not. -/
theorem shows_ideal_window :
    ∃ v v', (displayServer .on).Reach (fun v e => v.Honest .on e) v ∧
      v.server.pixel v.server.front 1 0 = 0 ∧ v.next .on (.death 0 obliging) = some v' ∧
      (∀ x y, v'.server.screen.Has x y →
        v'.server.pixel v'.server.front x y = v'.server.ideal x y) ∧
      (v'.server.screen.buffers = 2 → ∀ w ∈ v'.server.writes, v'.server.screen.Missed w) ∧
      v'.server.ideal 1 0 = background := by
  obtain ⟨v, hv, hp⟩ := EventSystem.Reach.exists_of_runIf (M := displayServer .on)
    (b := Session.honestly .on) (fun _ _ => Session.honest_of_honestly)
    [.start obliging, .request 0 createBeside obliging, .request 0 commitFirst obliging]
    (p := fun v => v.server.pixel v.server.front 1 0 = 0 ∧ v.honestly .on (.death 0 obliging) ∧
      ((Event.death 0 obliging).damages .on v.server).isSome ∧
      (v.next .on (.death 0 obliging)).any fun v' => v'.server.ideal 1 0 = background)
    ⟨shutter, _, fun _ => 0, fun _ => 0, rfl, by rw [Screen.Mapped]; decide, rfl⟩
    (by decide +kernel)
  obtain ⟨hpixel, hhonest, hdamages, hnext⟩ := of_decide_eq_true hp
  obtain ⟨v', hv', hideal⟩ := (Option.any_eq_true _ _).mp hnext
  obtain ⟨hshows, hmissed⟩ :=
    shows_ideal .on v hv _ v' (Session.honest_of_honestly hhonest) hv'
  exact ⟨v, v', hv, hpixel, hv', hshows hdamages, hmissed, of_decide_eq_true hideal⟩

end Display

end StarOS
