import StarOS.Display.Isolation
import StarOS.Display.Paint

/-!
# The display server does not stop

Whatever clients send and however they die, every pixel that is read lies in the buffer of its
surface and every pixel that is written in the framebuffer mapping: no run of the server's code
reaches outside either. In a build that checks its integers the server stops at one that does not
fit, and there are two places where a client can bring one about. A commit adds the part it names to
the surface's position, and a death adds the size of each surface to its position, and positions are
whatever the client said. Where those sums fit, and the running totals have room, nothing overflows.

## Main definitions

* `Display.Composited` — what painting a rectangle again leaves, if any of it is on the screen
* `Display.Session.Calm` — the sums fit

## Main results

* `Display.Event.wp_run` — an event keeps the server in order, and paints what it has to
* `Display.never_stops`
-/

namespace StarOS

namespace Display

open Checked

variable {ε : Type} {T : Prop} {o : OverflowChecks} {k : Answers} {s s₁ : Server}

/-! ### The server stays in order -/

theorem Surface.Backed.mono {t : Surface} {maps maps' : List Mapping} (h : t.Backed maps)
    (hsub : ∀ m ∈ maps, m ∈ maps') : t.Backed maps' := by
  obtain ⟨m, hm, hva, hlen⟩ := h.mapped
  exact ⟨h.pos, h.small, m, hsub m hm, hva, hlen⟩

theorem Server.mapped_sub (s : Server) (k : Answers) : ∀ m ∈ s.maps, m ∈ (s.mapped k).maps := by
  intro m hm
  rw [mapped]
  split
  · exact List.mem_cons_of_mem _ hm
  · exact hm

/-- A buffer that is taken has room for the pixels of the surface that shows it. -/
theorem Answers.Accepts.backed {cap : Handle} {t : Surface} (h : k.Accepts cap t.width t.height)
    (hpos : 0 < t.width ∧ 0 < t.height) (ht : t.pixels = k.va.toNat) :
    t.Backed (s.mapped k).maps := by
  refine ⟨hpos, Nat.le_trans h.2.2.2 k.pages_mul_le, ⟨k.va.toNat, k.pages.toNat * page⟩, ?_,
    ht.symm, h.2.2.2⟩
  rw [Server.mapped, if_pos h.2.2.1]
  exact List.mem_cons_self

namespace Server.Sound

variable (hs : s.Sound)
include hs

theorem stacked {c : Compositor} (hc : c.count ≤ maxSurfaces)
    (hlive : ∀ t ∈ c.live, t.Backed s.maps) : (s.stacked c).Sound :=
  ⟨hs.screen, hc, hlive, hs.pointer⟩

theorem mapped : (s.mapped k).Sound :=
  ⟨hs.screen, hs.count, fun t ht => (hs.backed t ht).mono (s.mapped_sub k), hs.pointer⟩

theorem raised {i : ℕ} (hi : i < s.compositor.count) : (s.stacked (s.compositor.raised i)).Sound := by
  refine hs.stacked hs.count fun t ht => hs.backed t ?_
  rw [Compositor.live_raised hi] at ht
  rcases List.mem_append.mp ht with ht | ht
  · exact List.mem_of_mem_eraseIdx ht
  · exact List.mem_singleton.mp ht ▸ Compositor.slots_mem_live hi

theorem removed {i : ℕ} (hi : i < s.compositor.count) :
    (s.stacked (s.compositor.removed i)).Sound := by
  refine hs.stacked (Nat.le_trans (Nat.sub_le _ _) hs.count) fun t ht => hs.backed t ?_
  rw [Compositor.live_removed hi] at ht
  exact List.mem_of_mem_eraseIdx ht

theorem grown {owner : ℕ} {msg : Message} (h : s.Admits k msg) : (s.grown k owner msg).Sound := by
  obtain ⟨⟨hw, hh⟩, hacc, hroom⟩ := h
  refine hs.mapped.stacked hroom fun t ht => ?_
  rw [Compositor.live_added] at ht
  rcases List.mem_append.mp ht with ht | ht
  · exact (hs.backed t ht).mono (s.mapped_sub k)
  · rw [List.mem_singleton.mp ht]
    exact hacc.backed ⟨Nat.pos_of_ne_zero hw, Nat.pos_of_ne_zero hh⟩ rfl

theorem swapped {cap : Handle} {i : ℕ} (hi : i < s.compositor.count) (h : s.Takes k cap i) :
    (s.swapped k cap i).Sound := by
  rw [Server.swapped]
  split
  · exact hs
  · next hcap =>
    refine hs.mapped.stacked hs.count fun t ht => ?_
    rw [Compositor.live_replaced hi] at ht
    rcases List.mem_or_eq_of_mem_set ht with ht | rfl
    · exact (hs.backed t ht).mono (s.mapped_sub k)
    · refine Answers.Accepts.backed (h hcap) ?_ rfl
      exact (hs.backed _ (Compositor.slots_mem_live hi)).pos

/-- A composite keeps the server in order. -/
theorem repainted {r : Rect} {s' : Server} (h : Repainted k r s s') : s'.Sound := by
  have hback : (if s.screen.Flips k then (s.screen.back + 1) % s.screen.buffers else s.screen.back) <
      s.screen.buffers := by
    split
    · exact Nat.mod_lt _ (Nat.zero_lt_of_lt hs.screen.back)
    · exact hs.screen.back
  refine ⟨?_, ?_, ?_, ?_⟩
  · rw [h.shape]
    exact hs.screen.replace (h.back ▸ hback) h.length_stale h.within
  · rw [h.frame]
    exact hs.count
  · rw [h.frame]
    exact hs.backed
  · rw [h.frame]
    exact hs.pointer

end Server.Sound

/-! ### What is painted -/

/-- What is shown, and what should be. -/
def Server.display (s : Server) : Screen × ByteMemory × ℕ × List (ℕ × ℕ) :=
  (s.screen, s.fb, s.front, s.writes)

def Server.content (s : Server) : Compositor × ByteMemory := (s.compositor, s.mem)

/-- What painting `rect` again leaves: nothing has changed if none of it is on the screen. -/
def Composited (k : Answers) (rect : Rect) (s s' : Server) : Prop :=
  s'.content = s.content ∧
    ((rect.cut s.screen = none ∧ s'.display = s.display) ∨
      ∃ r s₂, rect.cut s.screen = some r ∧ Repainted k r s s₂ ∧ s'.display = s₂.display)

theorem Composited.congr {rect : Rect} {s' s'' : Server} (h : Composited k rect s s')
    (hc : s''.content = s'.content) (hd : s''.display = s'.display) : Composited k rect s s'' :=
  ⟨hc.trans h.1, h.2.imp (fun h => ⟨h.1, hd.trans h.2⟩)
    fun ⟨r, s₂, hr, hp, hs₂⟩ => ⟨r, s₂, hr, hp, hd.trans hs₂⟩⟩

theorem wp_composited {rect : Rect} (hs : s.Sound)
    (hroom : ¬ T → o = .on → s.Roomy) :
    wp T (composite o k rect) (fun n s' => s'.Sound ∧ Composited k rect s s' ∧
      s'.profile = s.profile ∧ n ≤ s.screen.width * s.screen.height) (fun _ _ => False) s := by
  refine wp_composite hs hroom (fun hcut => ⟨hs, ⟨rfl, .inl ⟨hcut, rfl⟩⟩, rfl, Nat.zero_le _⟩)
    fun r s' hcut hr h => ⟨hs.repainted h, ⟨?_, .inr ⟨r, s', hcut, h, rfl⟩⟩, ?_,
      Screen.Sound.area_cut hr⟩
  · rw [h.frame]
    rfl
  · rw [h.frame]

/-- What an event does to the screen, where `d` is what it has painted again. -/
def After (answers : Option Answers) (d : Option (Rect × Server)) (s s' : Server) : Prop :=
  match d with
  | some (rect, s₁) => s₁.display = s.display ∧ ∃ k ∈ answers, Composited k rect s₁ s'
  | none => s'.display = s.display

/-! ### Events -/

/-- The totals of the profile have room for one more composite of `n` pixels. -/
structure Profile.Roomy (p : Profile) (n : ℕ) : Prop where
  frames : p.frames + 1 < 2 ^ 64
  pixels : p.pixels + n < 2 ^ 64
  totalNs : p.totalNs + 2 ^ 63 ≤ 2 ^ 64
  unmeasured : p.unmeasured + 1 < 2 ^ 64

theorem wp_measure {n : ℕ}
    (hroom : ¬ T → o = .on → s.profile.Roomy n) :
    wp T (measure o k n) (fun _ s' => ∃ profile, s' = { s with profile }) (fun _ _ => False) s := by
  have hstop := k.stop_lt
  rw [measure, wp_bind, wp_get, wp_bind, Profile.measured, wp_ite]
  refine ⟨fun hclock => ?_, fun _ => ?_⟩
  · rw [Profile.record, wp_bind]
    refine wp_add_of (fun hT ho => (hroom hT ho).frames) fun _ => ?_
    rw [wp_bind]
    refine wp_add_of (fun hT ho => (hroom hT ho).pixels) fun _ => ?_
    rw [wp_bind]
    refine wp_add_of (fun hT ho => ?_) fun _ => ?_
    · have := (hroom hT ho).totalNs
      omega
    · rw [wp_pure, wp_modify]
      exact ⟨_, rfl⟩
  · rw [wp_bind]
    refine wp_add_of (fun hT ho => (hroom hT ho).unmeasured) fun _ => ?_
    rw [wp_pure, wp_modify]
    exact ⟨_, rfl⟩

/-- The sums an event makes of what clients have said fit. -/
def Server.Calm (s : Server) : Event → Prop
  | .request client msg _ => msg.tag = tagCommit →
      ∀ i ∈ s.compositor.find? client (msg.words.get 0).toNat,
        (s.compositor.slots i).Damages msg → (s.compositor.slots i).Reaches msg
  | .death client _ => ∀ t ∈ s.compositor.live, t.owner = client → t.Fits
  | .start _ | .pointer _ | .draw _ => True

theorem Compositor.slots_backed {c : Compositor} {maps : List Mapping} {owner id i : ℕ}
    (h : ∀ t ∈ c.live, t.Backed maps) (hi : c.find? owner id = some i) : (c.slots i).Backed maps :=
  h _ (slots_mem_live (of_find? hi).1)

section Requests

variable {client : Client} {msg : Message} {F : Refusal → Server → Prop}

/-- **The first half of a request that paints**: the screen is not touched. -/
theorem wp_requestDamage (hs : s.Sound)
    (hcalm : ¬ T → o = .on → s.Calm (.request client msg k)) :
    wp T (requestDamage o k client msg)
      (fun _ s₁ => (Names msg ∧ s₁.Sound) ∧ s₁.display = s.display ∧ (s.Roomy → s₁.Roomy))
      (fun _ s₁ => s₁.Sound ∧ s₁.display = s.display) s := by
  have hlost : ∀ {s' : Server}, s' = s ∨ s' = s.mapped k → s'.Sound ∧ s'.display = s.display := by
    rintro _ (rfl | rfl)
    · exact ⟨hs, rfl⟩
    · exact ⟨hs.mapped, rfl⟩
  have hswapped : ∀ {i : ℕ}, (s.swapped k msg.cap i).display = s.display ∧
      (s.Roomy → (s.swapped k msg.cap i).Roomy) := by
    intro i
    rw [Server.swapped]
    split
    · exact ⟨rfl, id⟩
    · exact ⟨rfl, fun h => ⟨h.1, h.2, h.3, h.4, h.5, h.6, h.7, h.8, h.9⟩⟩
  rw [requestDamage, wp_ite]
  refine ⟨fun htag => ?_, fun _ => ?_⟩
  · refine wp_commitDamage (fun _ => hs.count) (fun hT ho i hi hd =>
      ⟨(Compositor.slots_backed hs.backed hi).sized, hcalm hT ho htag i hi hd⟩)
      (fun _ => ⟨hs, rfl⟩) (fun _ _ _ _ _ h => hlost h) (fun i _ hi ht _ => ?_)
      fun i r hi ht _ _ _ => ?_
    · exact ⟨hs.swapped (Compositor.of_find? hi).1 ht, hswapped.1⟩
    · exact ⟨⟨.inl htag, hs.swapped (Compositor.of_find? hi).1 ht⟩, hswapped⟩
  · rw [wp_ite]
    refine ⟨fun htag => ?_, fun _ => ?_⟩
    · refine wp_raiseDamage (fun _ => hs.count) (fun _ => ⟨hs, rfl⟩) fun i hi => ?_
      exact ⟨⟨.inr (.inl htag), hs.raised (Compositor.of_find? hi).1⟩, rfl,
        fun h => ⟨h.1, h.2, h.3, h.4, h.5, h.6, h.7, h.8, h.9⟩⟩
    · rw [wp_ite]
      refine ⟨fun htag => ?_, fun _ => (wp_fail _).mpr ⟨hs, rfl⟩⟩
      refine wp_destroyDamage (fun _ => hs.count) (fun _ => ⟨hs, rfl⟩) fun i hi => ?_
      exact ⟨⟨.inr (.inr htag), hs.removed (Compositor.of_find? hi).1⟩, rfl,
        fun h => ⟨h.1, h.2, h.3, h.4, h.5, h.6, h.7, h.8, h.9⟩⟩

/-- A request that paints nothing has nothing painted again. -/
theorem damages_of_not_names (h : ¬ Names msg) : (Event.request client msg k).damages o s = none := by
  have hreq : requestDamage o k client msg = fail .malformed := by
    rw [requestDamage, if_neg fun ht => h (.inl ht), if_neg fun ht => h (.inr (.inl ht)),
      if_neg fun ht => h (.inr (.inr ht))]
  simp only [Event.damages, hreq]
  rfl

theorem damages_of_ok {rect : Rect} (h : requestDamage o k client msg s = .ok rect s₁) :
    (Event.request client msg k).damages o s = some (rect, s₁) := by
  simp only [Event.damages, h]

theorem damages_of_error {e : Stop Refusal} (h : requestDamage o k client msg s = .error e s₁) :
    (Event.request client msg k).damages o s = none := by
  simp only [Event.damages, h]

/-- A request that paints, from its two halves. -/
theorem wp_halves {α : Type} {x : Rect → Checked Server Empty α} (hs : s.Sound)
    (hroom : ¬ T → o = .on → s.Roomy) (hcalm : ¬ T → o = .on → s.Calm (.request client msg k))
    (hx : ∀ rect s₁, s₁.Sound → (¬ T → o = .on → s₁.Roomy) →
      wp T (x rect) (fun _ s' => s'.Sound ∧ Composited k rect s₁ s') (fun _ _ => False) s₁) :
    wp T (requestDamage o k client msg)
      (fun rect s₁ => wp T (total (x rect) : Checked Server Refusal α)
        (fun _ s' => s'.Sound ∧ After (some k) ((Event.request client msg k).damages o s) s s')
        (fun _ s' => s'.Sound ∧ After (some k) ((Event.request client msg k).damages o s) s s') s₁)
      (fun _ s' => s'.Sound ∧ After (some k) ((Event.request client msg k).damages o s) s s') s := by
  refine wp_mono (wp_result (wp_requestDamage hs hcalm)) ?_ ?_
  · rintro rect s₁ ⟨hok, ⟨-, hs₁⟩, hdisplay, hroomy⟩
    rw [damages_of_ok hok, wp_total]
    refine wp_mono (hx rect s₁ hs₁ fun hT ho => hroomy (hroom hT ho)) ?_ fun e _ _ => e.elim
    exact fun _ s' h => ⟨h.1, hdisplay, k, rfl, h.2⟩
  · rintro _ s₁ ⟨herr, hs₁, hdisplay⟩
    rw [damages_of_error herr]
    exact ⟨hs₁, hdisplay⟩

/-- **A request** keeps the server in order and paints what it has to. -/
theorem wp_request (hs : s.Sound) (hroom : ¬ T → o = .on → s.Roomy)
    (hcalm : ¬ T → o = .on → s.Calm (.request client msg k)) :
    wp T (serve o k client msg)
      (fun _ s' => s'.Sound ∧ After (some k) ((Event.request client msg k).damages o s) s s')
      (fun _ s' => s'.Sound ∧ After (some k) ((Event.request client msg k).damages o s) s s') s := by
  have hquiet : ∀ {s' : Server}, ¬ Names msg → s'.Sound → s'.display = s.display →
      s'.Sound ∧ After (some k) ((Event.request client msg k).damages o s) s s' := by
    intro s' hn hs' hd
    rw [damages_of_not_names hn]
    exact ⟨hs', hd⟩
  have hnames : ∀ {tag}, msg.tag = tag → tag ≠ tagCommit → tag ≠ tagRaise → tag ≠ tagDestroy →
      ¬ Names msg := by
    rintro _ rfl hc hr hd (h | h | h)
    · exact hc h
    · exact hr h
    · exact hd h
  refine wp_serve
    (fun h => hquiet (hnames h (by decide) (by decide) (by decide)) hs rfl)
    (fun h => hquiet (hnames h (by decide) (by decide) (by decide)) hs rfl)
    (fun h => ?_) (fun h => ?_) (fun h => ?_) (fun h => ?_)
    (fun h _ => hquiet (hnames h (by decide) (by decide) (by decide))
      ⟨hs.screen, hs.count, hs.backed, hs.pointer⟩ rfl)
    (fun h => hquiet (hnames h (by decide) (by decide) (by decide))
      ⟨hs.screen, hs.count, hs.backed, hs.pointer⟩ rfl)
    fun _ hc hr hd => hquiet (fun h => h.elim hc fun h => h.elim hr hd) hs rfl
  · have hn := hnames h (by decide) (by decide) (by decide)
    refine wp_create (fun _ => hs.count) (fun hT ho => (hroom hT ho).nextId)
      (fun hadmits => hquiet hn (hs.grown hadmits) rfl) ?_
    rintro _ _ - (rfl | rfl)
    · exact hquiet hn hs rfl
    · exact hquiet hn hs.mapped rfl
  · rw [commit, wp_bind, ← show requestDamage o k client msg = commitDamage o k client msg from if_pos h]
    refine wp_halves hs hroom hcalm fun rect s₁ hs₁ hroom₁ => ?_
    rw [wp_bind]
    refine wp_mono (wp_composited hs₁ hroom₁) (fun n s₂ h₂ => ?_) fun e _ _ => e.elim
    obtain ⟨hs₂, hcomp, hprofile, hn⟩ := h₂
    rw [wp_bind]
    refine wp_mono (wp_measure fun hT ho => ?_) (fun _ s₃ h₃ => ?_) fun e _ _ => e.elim
    · rw [hprofile]
      have hr := hroom₁ hT ho
      exact ⟨hr.frames, Nat.lt_of_le_of_lt (Nat.add_le_add_left hn _) hr.pixels, hr.totalNs,
        hr.unmeasured⟩
    · obtain ⟨profile, rfl⟩ := h₃
      exact (wp_pure _).mpr ⟨⟨hs₂.screen, hs₂.count, hs₂.backed, hs₂.pointer⟩, hcomp.congr rfl rfl⟩
  · have hreq : requestDamage o k client msg = raiseDamage o client msg := by
      rw [requestDamage, if_neg (by rw [h]; decide), if_pos h]
    rw [raise, wp_bind, ← hreq]
    refine wp_halves hs hroom hcalm fun rect s₁ hs₁ hroom₁ => ?_
    exact wp_mono (wp_composited hs₁ hroom₁) (fun _ _ h => ⟨h.1, h.2.1⟩) fun e _ _ => e.elim
  · have hreq : requestDamage o k client msg = destroyDamage o client msg := by
      rw [requestDamage, if_neg (by rw [h]; decide), if_neg (by rw [h]; decide), if_pos h]
    rw [destroy, wp_bind, ← hreq]
    refine wp_halves hs hroom hcalm fun rect s₁ hs₁ hroom₁ => ?_
    exact wp_mono (wp_composited hs₁ hroom₁) (fun _ _ h => ⟨h.1, h.2.1⟩) fun e _ _ => e.elim

end Requests

/-- **A death** keeps the server in order and paints what it has to. -/
theorem wp_burial {client : Client} (hs : s.Sound) (hroom : ¬ T → o = .on → s.Roomy)
    (hcalm : ¬ T → o = .on → s.Calm (.death client k)) :
    wp T (bury o k client)
      (fun _ s' => s'.Sound ∧ After (some k) ((Event.death client k).damages o s) s s')
      (fun _ _ => False) s := by
  rw [bury, wp_bind, wp_modify, wp_bind]
  refine wp_mono (wp_result (wp_removeOwner (F := fun _ _ => False) (s := s.unwatched client)
    (fun _ => hs.count) hcalm)) ?_ fun e _ _ => e.elim
  rintro bounds s₁ ⟨hok, c, rfl, hlive, hnext, hcount⟩
  have hs₁ : ((s.unwatched client).stacked c).Sound := by
    refine ⟨hs.screen, Nat.le_trans hcount hs.count, fun t ht => hs.backed t ?_, hs.pointer⟩
    have ht : t ∈ s.compositor.others client := hlive ▸ ht
    exact List.mem_of_mem_filter ht
  rw [wp_bind]
  cases bounds with
  | none =>
    have hd : (Event.death client k).damages o s = none := by simp only [Event.damages, hok]
    rw [hd, uncover, wp_pure, wp_modify]
    exact ⟨⟨hs₁.screen, hs₁.count, hs₁.backed, hs₁.pointer⟩, rfl⟩
  | some rect =>
    have hd : (Event.death client k).damages o s =
        some (rect, (s.unwatched client).stacked c) := by
      simp only [Event.damages, hok]
    have hroom₁ : ¬ T → o = .on → ((s.unwatched client).stacked c).Roomy := by
      intro hT ho
      have h := hroom hT ho
      exact ⟨h.asked, h.painted, h.flips, h.flipsRefused, (congrArg (· + 1 < 2 ^ 64) hnext).mpr h.nextId,
        h.frames, h.pixels, h.totalNs, h.unmeasured⟩
    rw [hd, uncover, wp_bind]
    refine wp_mono (wp_composited hs₁ hroom₁) (fun _ s₂ h => ?_) fun e _ _ => e.elim
    rw [wp_pure, wp_modify]
    exact ⟨⟨h.1.screen, h.1.count, h.1.backed, h.1.pointer⟩, rfl, k, rfl, h.2.1.congr rfl rfl⟩

/-! ### The pointer -/

theorem wp_topmostAt {sx sy n : ℕ} (hs : s.Sound) (hn : n ≤ s.compositor.count) (hx : sx < 2 ^ 64)
    (hy : sy < 2 ^ 64) :
    wp T (topmostAt o sx sy n : Checked Server ε (Option ℕ))
      (fun r s' => s' = s ∧ ∀ i, r = some i → i < n ∧ (s.compositor.slots i).Covers sx sy)
      (fun _ _ => False) s := by
  induction n with
  | zero => exact (wp_pure _).mpr ⟨rfl, fun i h => by simp at h⟩
  | succ n ih =>
    have hlt : n < maxSurfaces := Nat.lt_of_lt_of_le hn hs.count
    rw [topmostAt, wp_bind]
    refine wp_slot (fun _ => hlt) fun _ => ?_
    rw [wp_bind, wp_at (hs.backed _ (Compositor.slots_mem_live hn)) hx hy, Surface.colour?, wp_ite]
    refine ⟨fun hsome => (wp_pure _).mpr ⟨rfl, fun i hi => ?_⟩, fun _ => ?_⟩
    · obtain rfl := Option.some.inj hi
      refine ⟨Nat.lt_succ_self _, ?_⟩
      by_contra hno
      rw [if_neg hno] at hsome
      simp at hsome
    · exact wp_mono (ih (Nat.le_of_succ_le hn)) (fun r s' h => ⟨h.1, fun i hi =>
        ⟨Nat.lt_succ_of_lt (h.2 i hi).1, (h.2 i hi).2⟩⟩) fun _ _ h => h

theorem wp_deliverPointer (hs : s.Sound) :
    wp T (deliverPointer o : Checked Server ε _) (fun _ s' => s' = s) (fun _ _ => False) s := by
  obtain ⟨hx, hy⟩ := hs.pointer
  rw [deliverPointer, wp_bind, wp_get, wp_ite]
  refine ⟨fun _ => (wp_pure _).mpr rfl, fun _ => ?_⟩
  rw [wp_bind, wp_get, wp_bind]
  refine wp_mono (wp_topmostAt hs (Nat.le_refl _) hx hy) ?_ fun _ _ h => h
  rintro found _ ⟨rfl, hfound⟩
  cases found with
  | none => exact (wp_pure _).mpr rfl
  | some i =>
    obtain ⟨hi, hcovers⟩ := hfound i rfl
    show wp T (slot i >>= _) _ _ _
    rw [wp_bind]
    refine wp_slot (fun _ => Nat.lt_of_lt_of_le hi hs.count) fun _ => ?_
    rw [wp_bind, wp_fit_sub hcovers.1.1 hx, wp_bind, wp_fit_sub hcovers.2.1 hy, wp_pure]

theorem wp_toPixels {f : BitVec 64} {extent : ℕ} {Q : ℕ → Server → Prop} {F : ε → Server → Prop}
    (hextent : extent ≤ 2 ^ 46) (hQ : ∀ n, n < 2 ^ 64 → Q n s) :
    wp T (toPixels o f extent) Q F s := by
  rw [toPixels, wp_ite]
  refine ⟨fun _ => (wp_pure _).mpr (hQ 0 (Nat.two_pow_pos 64)), fun hpos => ?_⟩
  have hmul : min f.toNat axisScale * (extent - 1) ≤ 65535 * 2 ^ 46 :=
    Nat.mul_le_mul (Nat.min_le_right ..) (by omega)
  rw [wp_bind, wp_fit_sub (by omega) (by omega), wp_bind, wp_fit_mul (by omega), wp_pure]
  exact hQ _ (Nat.lt_of_le_of_lt (Nat.div_le_self _ _) (by omega))

theorem Screen.Sound.extent_le {screen : Screen} (h : screen.Sound) :
    screen.width ≤ 2 ^ 46 ∧ screen.height ≤ 2 ^ 46 := by
  have harea := h.area_le
  have hw : screen.width * 1 ≤ screen.width * screen.height := Nat.mul_le_mul_left _ h.pos.2
  have hh : 1 * screen.height ≤ screen.width * screen.height := Nat.mul_le_mul_right _ h.pos.1
  rw [bpp] at harea
  exact ⟨by omega, by omega⟩

/-- **The pointer** changes nothing on the screen. -/
theorem wp_pointed {e : PointerEvent} (hs : s.Sound) :
    wp T (point o e : Checked Server Empty _) (fun _ s' => s'.Sound ∧ s'.display = s.display)
      (fun _ _ => False) s := by
  cases e with
  | moved x y =>
    rw [point, wp_bind, wp_get, wp_bind]
    refine wp_toPixels hs.screen.extent_le.1 fun px hpx => ?_
    rw [wp_bind]
    refine wp_toPixels hs.screen.extent_le.2 fun py hpy => ?_
    rw [wp_bind, wp_modify]
    refine wp_mono (wp_deliverPointer ⟨hs.screen, hs.count, hs.backed, hpx, hpy⟩) ?_ fun _ _ h => h
    rintro _ _ rfl
    exact ⟨⟨hs.screen, hs.count, hs.backed, hpx, hpy⟩, rfl⟩
  | button code down =>
    rw [point, wp_bind, wp_modify]
    refine wp_mono (wp_deliverPointer ⟨hs.screen, hs.count, hs.backed, hs.pointer⟩) ?_ fun _ _ h => h
    rintro _ _ rfl
    exact ⟨⟨hs.screen, hs.count, hs.backed, hs.pointer⟩, rfl⟩

/-! ### Runs -/

/-- What an event leaves, in every run of the server's code that comes to an answer. -/
theorem Event.sound_after {e : Event} {id : Option ℕ} {s' : Server} (hs : s.Sound)
    (h : e.run o s = some (id, s')) : s'.Sound ∧ After e.answers (e.damages o s) s s' := by
  cases e with
  | start k =>
    obtain ⟨r, hr, heq⟩ := Option.map_eq_some_iff.mp h
    obtain ⟨rfl, rfl⟩ := Prod.mk.inj heq
    obtain ⟨_, _, hs', hc, -, -⟩ | ⟨_, e, _⟩ := of_answered hr
      (wp_composited (T := True) hs fun h => absurd trivial h)
    · exact ⟨hs', rfl, k, rfl, hc⟩
    · exact e.elim
  | request client msg k =>
    obtain ⟨r, hr, heq⟩ := Option.map_eq_some_iff.mp h
    obtain ⟨rfl, rfl⟩ := Prod.mk.inj heq
    obtain ⟨_, _, h⟩ | ⟨_, _, h⟩ := of_answered hr
      (wp_request (T := True) hs (fun h => absurd trivial h) fun h => absurd trivial h)
    · exact h
    · exact h
  | death client k =>
    obtain ⟨r, hr, heq⟩ := Option.map_eq_some_iff.mp h
    obtain ⟨rfl, rfl⟩ := Prod.mk.inj heq
    obtain ⟨_, _, h⟩ | ⟨_, e, _⟩ := of_answered hr
      (wp_burial (T := True) hs (fun h => absurd trivial h) fun h => absurd trivial h)
    · exact h
    · exact e.elim
  | pointer e =>
    obtain ⟨r, hr, heq⟩ := Option.map_eq_some_iff.mp h
    obtain ⟨rfl, rfl⟩ := Prod.mk.inj heq
    obtain ⟨_, _, h⟩ | ⟨_, e, _⟩ := of_answered hr (wp_pointed (T := True) hs)
    · exact h
    · exact e.elim
  | draw mem =>
    obtain ⟨rfl, rfl⟩ := Prod.mk.inj (Option.some.inj h)
    exact ⟨⟨hs.screen, hs.count, hs.backed, hs.pointer⟩, rfl⟩

/-- A run of the server's code that comes to a value or is refused. -/
theorem exists_answered {α : Type} {x : Checked Server ε α} {Q : α → Server → Prop}
    {F : ε → Server → Prop} (h : wp False x Q F s) : ∃ r, answered x s = some r := by
  obtain ⟨a, s', hx, -⟩ | ⟨e, s', hx, -⟩ := exists_of_wp h
  · exact ⟨(some a, s'), by rw [answered, hx]⟩
  · exact ⟨(none, s'), by rw [answered, hx]⟩

/-- **No event stops the server** in a build without checks, nor in one with them where the sums
fit. -/
theorem Event.exists_run {e : Event} (hs : s.Sound) (hcalm : o = .on → s.Roomy ∧ s.Calm e) :
    ∃ r, e.run o s = some r := by
  cases e with
  | start k =>
    obtain ⟨r, hr⟩ := exists_answered (wp_composited (k := k) hs fun _ ho => (hcalm ho).1)
    exact ⟨_, Option.map_eq_some_iff.mpr ⟨r, hr, rfl⟩⟩
  | request client msg k =>
    obtain ⟨r, hr⟩ := exists_answered (wp_request hs (fun _ ho => (hcalm ho).1)
      fun _ ho => (hcalm ho).2)
    exact ⟨_, Option.map_eq_some_iff.mpr ⟨r, hr, rfl⟩⟩
  | death client k =>
    obtain ⟨r, hr⟩ := exists_answered (wp_burial hs (fun _ ho => (hcalm ho).1)
      fun _ ho => (hcalm ho).2)
    exact ⟨_, Option.map_eq_some_iff.mpr ⟨r, hr, rfl⟩⟩
  | pointer e =>
    obtain ⟨r, hr⟩ := exists_answered (wp_pointed (e := e) (o := o) hs)
    exact ⟨_, Option.map_eq_some_iff.mpr ⟨r, hr, rfl⟩⟩
  | draw mem => exact ⟨_, rfl⟩

/-- The screen the kernel seeds is in order. -/
theorem Screen.sound_of_fromSeed {seed : Seed} {screen : Screen}
    (h : Screen.fromSeed seed = some screen) (hmapped : screen.Mapped) : screen.Sound := by
  simp only [fromSeed] at h
  split at h
  · simp at h
  · next hok =>
    obtain rfl := Option.some.inj h
    have hpos : 0 < seed.width.toNat ∧ 0 < seed.height.toNat := by omega
    refine ⟨hpos, by dsimp only; omega, rfl, hmapped, ?_, ?_, rfl, ?_⟩
    · dsimp only [maxBuffers]
      omega
    · show (if max 1 (min seed.buffers.toNat 2) > 1 then 1 else 0) < max 1 (min seed.buffers.toNat 2)
      split <;> omega
    · intro r hr
      obtain rfl := Option.some.inj (List.eq_of_mem_replicate hr)
      exact ⟨hpos, Nat.le_of_eq (Nat.zero_add _), Nat.le_of_eq (Nat.zero_add _)⟩

theorem sound_of_init {v : Session} (h : (displayServer o).init v) : v.server.Sound := by
  obtain ⟨seed, screen, mem, fb, hseed, hmapped, rfl⟩ := h
  refine ⟨Screen.sound_of_fromSeed hseed hmapped, Nat.zero_le _, fun t ht => ?_, Nat.two_pow_pos 64,
    Nat.two_pow_pos 64⟩
  exact absurd ht List.not_mem_nil

/-- Every server a run reaches is in order. -/
theorem sound_of_reach {ok : Session → Event → Prop} {v : Session}
    (h : (displayServer o).Reach ok v) : v.server.Sound :=
  h.invariant (fun _ hv => sound_of_init hv) fun _ _ _ hv _ hn =>
    let ⟨_, _, hr, _⟩ := Session.of_next hn
    (Event.sound_after hv hr).1

/-- The running totals have room and the sums fit. -/
def Session.Calm (v : Session) (e : Event) : Prop := v.server.Roomy ∧ v.server.Calm e

/-- **No client can stop the server.** In every run whose events meet `Calm`, no event stops it: no
integer fails to fit, and no pixel is read or written outside the memory it belongs to. In a build
that does not check its integers no pixel is in any run. -/
theorem never_stops (o : OverflowChecks) :
    ∀ v, (displayServer o).Reach (fun v e => o = .on → v.Calm e) v →
      ∀ e, v.Enabled e → (o = .on → v.Calm e) → ∃ v', v.next o e = some v' := by
  intro v hv e hen hcalm
  obtain ⟨⟨id, s'⟩, hr⟩ := Event.exists_run (sound_of_reach hv) hcalm
  exact ⟨_, by rw [Session.next, if_pos hen, hr]; rfl⟩

/-- The screen of one pixel. -/
def pinholeScreen : Screen := ⟨1, 1, 4, 1, 4, 0, .null, [some ⟨0, 0, 1, 1⟩, some ⟨0, 0, 1, 1⟩], 0, 0, 0, 0⟩

instance (s : Server) : Decidable s.Roomy :=
  decidable_of_iff
    ((s.screen.asked + s.screen.width * s.screen.height < 2 ^ 64 ∧
        s.screen.painted + s.screen.width * s.screen.height < 2 ^ 64) ∧
      (s.screen.flips + 1 < 2 ^ 64 ∧ s.screen.flipsRefused + 1 < 2 ^ 64) ∧
      s.compositor.nextId + 1 < 2 ^ 64 ∧
      (s.profile.frames + 1 < 2 ^ 64 ∧
        s.profile.pixels + s.screen.width * s.screen.height < 2 ^ 64) ∧
      s.profile.totalNs + 2 ^ 63 ≤ 2 ^ 64 ∧ s.profile.unmeasured + 1 < 2 ^ 64)
    ⟨fun ⟨⟨hasked, hpainted⟩, ⟨hflips, hrefused⟩, hid, ⟨hframes, hpixels⟩, hns, hunmeasured⟩ =>
      ⟨hasked, hpainted, hflips, hrefused, hid, hframes, hpixels, hns, hunmeasured⟩,
    fun h => ⟨⟨h.asked, h.painted⟩, ⟨h.flips, h.flipsRefused⟩, h.nextId, ⟨h.frames, h.pixels⟩,
      h.totalNs, h.unmeasured⟩⟩

instance (t : Surface) (msg : Message) : Decidable (t.Reaches msg) :=
  inferInstanceAs (Decidable (_ ∧ _))

instance (t : Surface) : Decidable t.Fits := inferInstanceAs (Decidable (_ ∧ _))

instance (s : Server) : DecidablePred s.Calm
  | .request client msg _ =>
    inferInstanceAs (Decidable (msg.tag = tagCommit →
      ∀ i ∈ s.compositor.find? client (msg.words.get 0).toNat,
        (s.compositor.slots i).Damages msg → (s.compositor.slots i).Reaches msg))
  | .death client _ =>
    inferInstanceAs (Decidable (∀ t ∈ s.compositor.live, t.owner = client → t.Fits))
  | .start _ | .pointer _ | .draw _ => isTrue trivial

instance (v : Session) (e : Event) : Decidable (v.Calm e) := inferInstanceAs (Decidable (_ ∧ _))

/-- A screen of two pixels with two buffers. -/
def shutter : Seed := { pinhole with width := 2, stride := 8, buffers := 2, scanout := 1 }

/-- A part of one pixel of the first surface has changed. -/
def commitFirst : Message := { tag := tagCommit, words := #v[1, 0, 0x100000001, 0], cap := .null }

def raiseFirst : Message := { tag := tagRaise, words := #v[1, 0, 0, 0], cap := .null }

/-- A client shows a window, raises it and dies, and the server goes on. -/
theorem never_stops_window :
    ∃ v v', (displayServer .on).Reach (fun v e => OverflowChecks.on = .on → v.Calm e) v ∧
      v.server.compositor.live.map Surface.owner = [0] ∧
      v.next .on (.death 0 obliging) = some v' ∧ v'.server.compositor.live = [] := by
  obtain ⟨v, hv, hp⟩ := EventSystem.Reach.exists_of_runIf (M := displayServer .on)
    (b := fun v e => decide (v.Calm e)) (fun _ _ h _ => of_decide_eq_true h)
    [.start obliging, .request 0 createBeside obliging, .request 0 commitFirst obliging,
      .request 0 raiseFirst obliging]
    (p := fun v => v.server.compositor.live.map Surface.owner = [0] ∧
      v.Enabled (.death 0 obliging) ∧ v.Calm (.death 0 obliging) ∧
      (v.next .on (.death 0 obliging)).all fun v' => v'.server.compositor.live = [])
    ⟨shutter, _, fun _ => 0, fun _ => 0, rfl, by rw [Screen.Mapped]; decide, rfl⟩
    (by decide +kernel)
  obtain ⟨howner, henabled, hcalm, hempty⟩ := of_decide_eq_true hp
  obtain ⟨v', hv'⟩ := never_stops .on v hv (.death 0 obliging) henabled fun _ => hcalm
  rw [hv', Option.all_some] at hempty
  exact ⟨v, v', hv, howner, hv', of_decide_eq_true hempty⟩

/-- A surface two pixels wide at the last position there is, and its right half committed. -/
def createLast : Message :=
  { tag := tagCreate, words := #v[2, 1, BitVec.ofNat 64 (2 ^ 64 - 1), 0], cap := 1 }

def commitRight : Message := { tag := tagCommit, words := #v[1, 1, 0x100000001, 0], cap := .null }

theorem commit_stops : ¬ ∀ v, (displayServer .on).Reachable v → ∀ e, v.Enabled e →
    ∃ v', v.next .on e = some v' := by
  intro h
  obtain ⟨v, hv, hp⟩ : ∃ v, (displayServer .on).Reachable v ∧
      decide (v.shown.isSome = true ∧
        (v.next .on (.request 0 commitRight obliging)).isNone = true) = true :=
    EventSystem.Reachable.exists_of_run [.start obliging, .request 0 createLast obliging]
      ⟨pinhole, _, fun _ => 0, fun _ => 0, rfl, by rw [Screen.Mapped]; decide, rfl⟩
      (by decide +kernel)
  obtain ⟨hshown, hnone⟩ := of_decide_eq_true hp
  obtain ⟨v', hv'⟩ := h v hv (.request 0 commitRight obliging)
    fun hn => by rw [hn] at hshown; simp at hshown
  rw [hv'] at hnone
  simp at hnone

end Display

end StarOS
