import StarOS.Display.Requests
import StarOS.Display.Run

/-!
# What one client can do to the others

Painting looks at the surfaces and changes none of them, so what a request does to the stack of
surfaces it does before it paints, and there every path looks the surface up by its owner. A
client's request, and its death, leave the other clients' surfaces as they are, in the order they
had, and a request that names a surface of somebody else's is refused before it changes anything.

A refusal leaves everything as it was but in one place. A commit that brings a buffer shows it before
it looks at the part of the surface that it is told has changed, and refuses an impossible part with
the buffer already shown.

## Main results

* `Display.keeps_composite` — painting changes nothing of the clients'
* `Display.isolation` — what a client can do to the others' surfaces
* `Display.refused_unchanged_iff` — when a refusal changes nothing
-/

namespace StarOS

namespace Display

open Checked

variable {ε : Type} {o : OverflowChecks} {k : Answers} {s : Server}

/-- Everything of the server that is not about the screen. -/
def Server.clients (s : Server) : Compositor × Option Client × (Client → Handle) × Pointer ×
    List Mapping × ByteMemory :=
  (s.compositor, s.focus, s.watches, s.pointer, s.maps, s.mem)

/-! ### Painting -/

section

variable {γ : Type} {g : Server → γ}

theorem keeps_union (a b : Rect) : Keeps g (union o a b : Checked Server ε Rect) :=
  keeps_add.bind fun _ => keeps_add.bind fun _ => keeps_add.bind fun _ => keeps_add.bind fun _ =>
    keeps_sub.bind fun _ => keeps_sub.bind fun _ => keeps_pure _

theorem keeps_clip (r : Rect) : Keeps g (r.clip o : Checked Server ε (Option Rect)) :=
  keeps_get.bind fun _ => keeps_ite (keeps_pure _) (keeps_sub.bind fun _ => keeps_sub.bind fun _ =>
    keeps_pure _)

theorem keeps_at (t : Surface) (sx sy : ℕ) :
    Keeps g (t.at o sx sy : Checked Server ε (Option (BitVec 32))) :=
  keeps_ite (keeps_pure _) (keeps_sub.bind fun _ => keeps_sub.bind fun _ =>
    keeps_ite (keeps_pure _) (keeps_mul.bind fun _ => keeps_add.bind fun _ =>
      (keeps_get.bind fun _ => keeps_ite (keeps_pure _) (keeps_throw _)).bind fun _ =>
        keeps_pure _))

theorem keeps_live : Keeps g (live : Checked Server ε (List Surface)) :=
  keeps_get.bind fun _ => keeps_ite (keeps_pure _) (keeps_throw _)

theorem keeps_colourAt (sx sy : ℕ) : Keeps g (colourAt o sx sy : Checked Server ε (BitVec 32)) :=
  keeps_live.bind fun l =>
    Keeps.foldlM (fun _ t => (keeps_at t sx sy).bind fun _ => keeps_pure _) l _

end

theorem keeps_writePixel (offset : ℕ) (colour : BitVec 32) :
    Keeps Server.clients (writePixel offset colour : Checked Server ε Unit) := by
  refine ⟨fun s => ?_⟩
  rw [writePixel, wp_bind, wp_get, wp_ite]
  refine ⟨fun _ => ?_, fun _ => wp_bounds.mpr trivial⟩
  rw [wp_set]
  rfl

theorem keeps_put (x y : ℕ) (colour : BitVec 32) :
    Keeps Server.clients (put o x y colour : Checked Server ε Unit) :=
  keeps_get.bind fun _ => keeps_ite (keeps_pure _) (keeps_mul.bind fun _ => keeps_mul.bind fun _ =>
    keeps_add.bind fun _ => keeps_mul.bind fun _ => keeps_add.bind fun offset =>
      keeps_writePixel offset colour)

theorem keeps_fallBehind (r : Rect) (i : ℕ) :
    Keeps Server.clients (fallBehind o r i : Checked Server ε Unit) := by
  refine keeps_get.bind fun _ => (keeps_index _ _).bind fun had => ?_
  cases had with
  | none => exact keeps_modify fun _ => by rfl
  | some had => exact (keeps_union had r).bind fun _ => keeps_modify fun _ => by rfl

theorem keeps_damage (r : Rect) : Keeps Server.clients (damage o r : Checked Server ε Rect) := by
  refine keeps_get.bind fun _ => (Keeps.foldlM (fun _ i => keeps_fallBehind r i) _ _).bind
    fun _ => ⟨fun s => ?_⟩
  rw [wp_bind, wp_get, wp_bind]
  refine wp_index_of fun _ _ => ?_
  rw [wp_bind, wp_set, wp_pure]
  rfl

theorem keeps_present : Keeps Server.clients (present o k : Checked Server ε Unit) := by
  refine ⟨fun s => ?_⟩
  rw [present, wp_bind, wp_get, wp_ite]
  refine ⟨fun _ => (wp_pure _).mpr rfl, fun _ => ?_⟩
  rw [wp_ite]
  refine ⟨fun _ => ?_, fun _ => ?_⟩
  · rw [wp_bind]
    refine wp_fit_any ?_
    intro c
    rw [wp_bind, wp_set, wp_pure]
    rfl
  · rw [wp_bind]
    refine wp_fit_any ?_
    intro c
    rw [wp_bind]
    refine wp_fit_any ?_
    intro c
    rw [wp_set]
    rfl

theorem keeps_paint (n : ℕ) (pos : ℕ × ℕ) :
    Keeps Server.clients (paint o n pos : Checked Server ε ℕ) :=
  (keeps_colourAt _ _).bind fun _ => (keeps_put _ _ _).bind fun _ => keeps_add

theorem keeps_repaint (r : Rect) (n : ℕ) : Keeps Server.clients (repaint o k r n) := by
  refine (keeps_damage r).bind fun r' => (keeps_clip r').bind fun clipped => ?_
  cases clipped with
  | none => exact keeps_pure _
  | some r =>
    exact keeps_add.bind fun _ => keeps_add.bind fun _ => (Keeps.foldlM keeps_paint _ _).bind
      fun _ => keeps_get.bind fun _ => keeps_add.bind fun _ => (keeps_modify fun _ => by rfl).bind
        fun _ => keeps_present.bind fun _ => keeps_pure _

/-- **Painting changes nothing of the clients'.** -/
theorem keeps_composite (r : Rect) : Keeps Server.clients (composite o k r) := by
  refine (keeps_clip r).bind fun clipped => ?_
  cases clipped with
  | none => exact keeps_pure _
  | some r =>
    exact keeps_mul.bind fun _ => keeps_get.bind fun _ => keeps_add.bind fun _ =>
      (keeps_modify fun _ => by rfl).bind fun _ => keeps_repaint r _

theorem keeps_measured (p : Profile) (n : ℕ) :
    Keeps Server.clients (p.measured o k n : Checked Server ε Profile) :=
  keeps_ite (keeps_add.bind fun _ => keeps_add.bind fun _ => keeps_add.bind fun _ =>
    keeps_pure _) (keeps_add.bind fun _ => keeps_pure _)

theorem keeps_measure (n : ℕ) : Keeps Server.clients (measure o k n) :=
  keeps_get.bind fun _ => (keeps_measured _ _).bind fun _ => keeps_modify fun _ => by rfl

theorem keeps_topmostAt (sx sy n : ℕ) :
    Keeps Server.clients (topmostAt o sx sy n : Checked Server ε (Option ℕ)) := by
  induction n with
  | zero => exact keeps_pure _
  | succ n ih =>
    exact (keeps_ite (keeps_get.bind fun _ => keeps_pure _) (keeps_throw _)).bind fun t =>
      (keeps_at t sx sy).bind fun _ => keeps_ite (keeps_pure _) ih

/-! ### The other clients' surfaces -/

namespace Compositor

variable {c : Compositor} {owner i : ℕ}

theorem others_raised (hi : i < c.count) (h : (c.slots i).owner = owner) :
    (c.raised i).others owner = c.others owner := by
  have hlen : i < c.live.length := by simpa using hi
  rw [others, live_raised hi, List.filter_append,
    filter_eraseIdx hlen (by simp [getElem_live hlen, h])]
  simp [others, h]

theorem others_added {t : Surface} (nextId : ℕ) (h : t.owner = owner) :
    (c.added t nextId).others owner = c.others owner := by
  rw [others, live_added, List.filter_append]
  simp [others, h]

theorem others_replaced {t : Surface} (hi : i < c.count) (h : (c.slots i).owner = owner)
    (ht : t.owner = owner) : (c.replaced i t).others owner = c.others owner := by
  have hlen : i < c.live.length := by simpa using hi
  have hsplit : c.live.take i ++ c.live[i] :: c.live.drop (i + 1) = c.live := by
    rw [List.getElem_cons_drop, List.take_append_drop]
  rw [others, live_replaced hi, List.set_eq_take_append_cons_drop, if_pos hlen, List.filter_append,
    List.filter_cons_of_neg (by simp [ht])]
  conv_rhs =>
    rw [others, ← hsplit, List.filter_append, List.filter_cons_of_neg (by simp [getElem_live hlen, h])]

end Compositor

variable {client : Client} {msg : Message}

/-- Painting, with whatever is done to the profile. -/
theorem wp_paint_any {α : Type} {x : Checked Server Empty α} (hx : Keeps Server.clients x)
    {Q : α → Server → Prop} {F : Refusal → Server → Prop}
    (hQ : ∀ a s', s'.clients = s.clients → Q a s') : wp True (total x) Q F s := by
  rw [wp_total]
  exact wp_mono (hx.run s) (fun a s' h => hQ a s' h) fun e _ _ => e.elim

theorem compositor_of_clients {s' : Server} (h : s'.clients = s.clients) :
    s'.compositor = s.compositor := congrArg Prod.fst h

/-- What a request may do to the stack, and to the ids: nothing to the other clients', and the next
id is taken by a create that succeeds and by nothing else. -/
structure Behaves (client : Client) (s s' : Server) (taken : Bool) : Prop where
  others : s'.compositor.others client = s.compositor.others client
  nextId : s'.compositor.nextId =
    if taken then nextOf s.compositor.nextId else s.compositor.nextId

theorem Behaves.refl : Behaves client s s false := ⟨rfl, rfl⟩

theorem Behaves.of_clients {s' s'' : Server} {taken : Bool} (h : Behaves client s s' taken)
    (h' : s''.clients = s'.clients) : Behaves client s s'' taken := by
  have hc := compositor_of_clients h'
  exact ⟨by rw [hc, h.others], by rw [hc, h.nextId]⟩

/-- Whichever way buffers are swapped. -/
theorem Behaves.swapped {cap : Handle} {i id : ℕ}
    (hi : s.compositor.find? client id = some i) :
    Behaves client s (s.swapped k cap i) false := by
  obtain ⟨hlt, -, howner⟩ := Compositor.of_find? hi
  rw [Server.swapped]
  split
  · exact .refl
  · exact ⟨Compositor.others_replaced hlt howner howner, rfl⟩

/-- **A request, by what it does to the stack.** -/
theorem serve_behaves : wp True (serve o k client msg)
    (fun r s' => Behaves client s s' (msg.tag = tagCreate) ∧
      (msg.tag = tagCreate → r = [s.compositor.nextId]))
    (fun _ s' => Behaves client s s' false) s := by
  have hlost : ∀ {e : Refusal} {s' : Server}, s' = s ∨ s' = s.mapped k →
      Behaves client s s' false := by
    rintro _ _ (rfl | rfl)
    · exact .refl
    · exact ⟨rfl, rfl⟩
  refine wp_serve (fun h => ?_) (fun h => ?_) (fun h => ?_) (fun h => ?_) (fun h => ?_) (fun h => ?_)
    (fun h _ => ?_) (fun h => ?_) fun _ _ _ _ => .refl
  · simp only [h]
    exact ⟨.refl, fun h => absurd h (by decide)⟩
  · simp only [h]
    exact ⟨.refl, fun h => absurd h (by decide)⟩
  · refine wp_create (fun h => absurd trivial h) (fun h => absurd trivial h) (fun _ => ?_)
      fun e s' _ hs => hlost (e := e) hs
    simp only [h]
    exact ⟨⟨Compositor.others_added _ rfl, rfl⟩, fun _ => trivial⟩
  · simp only [h]
    rw [commit, wp_bind]
    refine wp_commitDamage (fun h => absurd trivial h) (fun h => absurd trivial h) (fun _ => .refl)
      (fun e s' i _ _ hs => hlost (e := e) hs) (fun i _ hi _ _ => .swapped hi)
      fun i r hi _ _ _ _ => ?_
    exact wp_paint_any ((keeps_composite r).bind fun n => (keeps_measure n).bind fun _ =>
      keeps_pure _) fun _ s' hs => ⟨(Behaves.swapped hi).of_clients hs, fun h => absurd h (by decide)⟩
  · simp only [h]
    rw [raise, wp_bind]
    refine wp_raiseDamage (fun h => absurd trivial h) (fun _ => .refl) fun i hi => ?_
    obtain ⟨hlt, -, howner⟩ := Compositor.of_find? hi
    have hraised : Behaves client s (s.stacked _) false := ⟨Compositor.others_raised hlt howner, rfl⟩
    refine wp_paint_any (keeps_composite _) fun _ s' hs => ⟨hraised.of_clients hs, fun h => ?_⟩
    exact absurd h (by decide)
  · simp only [h]
    rw [destroy, wp_bind]
    refine wp_destroyDamage (fun h => absurd trivial h) (fun _ => .refl) fun i hi => ?_
    obtain ⟨hlt, -, howner⟩ := Compositor.of_find? hi
    have hremoved : Behaves client s (s.stacked _) false := ⟨Compositor.others_removed hlt howner, rfl⟩
    refine wp_paint_any (keeps_composite _) fun _ s' hs => ⟨hremoved.of_clients hs, fun h => ?_⟩
    exact absurd h (by decide)
  · simp only [h]
    exact ⟨⟨rfl, rfl⟩, fun h => absurd h (by decide)⟩
  · simp only [h]
    exact ⟨⟨rfl, rfl⟩, fun h => absurd h (by decide)⟩

theorem keeps_uncover (bounds : Option Rect) : Keeps Server.clients (uncover o k bounds) := by
  cases bounds with
  | none => exact keeps_pure _
  | some r => exact (keeps_composite r).bind fun _ => keeps_pure _

/-- **A death, by what it does to the stack.** -/
theorem bury_behaves {F : Empty → Server → Prop} :
    wp True (bury o k client) (fun _ s' => Behaves client s s' false) F s := by
  rw [bury, wp_bind, wp_modify, wp_bind]
  refine wp_mono (wp_removeOwner (fun h => absurd trivial h) (fun h => absurd trivial h) (F := F))
    (fun bounds s' h => ?_) fun e _ _ => e.elim
  obtain ⟨c, rfl, hlive, hnext, -⟩ := h
  rw [wp_bind]
  refine wp_mono ((keeps_uncover bounds).wp _ (F := F)) (fun _ s'' h => ?_) fun e _ _ => e.elim
  have hc : s''.compositor = c := compositor_of_clients h
  rw [wp_modify]
  refine ⟨?_, (congrArg Compositor.nextId hc).trans hnext⟩
  -- what is left is other clients', so leaving out the dead one's changes nothing
  show s''.compositor.others client = s.compositor.others client
  rw [hc, Compositor.others, hlive, Compositor.others, List.filter_filter]
  simp only [Bool.and_self]
  rfl

theorem keeps_toPixels {γ : Type} {g : Server → γ} (f : BitVec 64) (n : ℕ) :
    Keeps g (toPixels o f n : Checked Server ε ℕ) :=
  keeps_ite (keeps_pure _) (keeps_sub.bind fun _ => keeps_mul.bind fun _ => keeps_pure _)

theorem keeps_deliverPointer :
    Keeps Server.clients (deliverPointer o : Checked Server ε (Option (ℕ × Message))) := by
  refine keeps_get.bind fun s => keeps_ite (keeps_pure _) (keeps_get.bind fun _ =>
    (keeps_topmostAt _ _ _).bind fun found => ?_)
  cases found with
  | none => exact keeps_pure _
  | some i =>
    exact (keeps_ite (keeps_get.bind fun _ => keeps_pure _) (keeps_throw _)).bind fun t =>
      keeps_sub.bind fun _ => keeps_sub.bind fun _ => keeps_pure _

/-- **The pointer changes no surface.** -/
theorem keeps_point (e : PointerEvent) : Keeps (fun s : Server => s.compositor)
    (point o e : Checked Server ε (Option (ℕ × Message))) := by
  have hdeliver : Keeps (fun s : Server => s.compositor)
      (deliverPointer o : Checked Server ε (Option (ℕ × Message))) :=
    ⟨fun s => wp_mono (keeps_deliverPointer.run s) (fun _ _ h => compositor_of_clients h)
      fun _ _ h => compositor_of_clients h⟩
  cases e with
  | moved x y =>
    exact keeps_get.bind fun _ => (keeps_toPixels _ _).bind fun _ => (keeps_toPixels _ _).bind
      fun _ => (keeps_modify fun _ => by rfl).bind fun _ => hdeliver
  | button code down => exact (keeps_modify fun _ => by rfl).bind fun _ => hdeliver

/-! ### Ids -/

/-- The first `n` ids a server hands out, the latest first. -/
def issued : ℕ → List ℕ
  | 0 => []
  | n + 1 => (n + 1) % 2 ^ 64 :: issued n

@[simp] theorem length_issued (n : ℕ) : (issued n).length = n := by
  induction n with
  | zero => rfl
  | succ n ih => rw [issued, List.length_cons, ih]

theorem mem_issued {n id : ℕ} : id ∈ issued n ↔ ∃ i < n, id = (i + 1) % 2 ^ 64 := by
  induction n with
  | zero => simp [issued]
  | succ n ih =>
    rw [issued, List.mem_cons, ih]
    constructor
    · rintro (rfl | ⟨i, hi, rfl⟩)
      · exact ⟨n, Nat.lt_succ_self n, rfl⟩
      · exact ⟨i, Nat.lt_succ_of_lt hi, rfl⟩
    · rintro ⟨i, hi, rfl⟩
      rcases Nat.lt_succ_iff_lt_or_eq.mp hi with hi | rfl
      · exact .inr ⟨i, hi, rfl⟩
      · exact .inl rfl

/-- The ids are different until they have all been handed out. -/
theorem nodup_issued {n : ℕ} (h : n ≤ 2 ^ 64) : (issued n).Nodup := by
  induction n with
  | zero => exact List.nodup_nil
  | succ n ih =>
    refine List.nodup_cons.mpr ⟨fun hmem => ?_, ih (Nat.le_of_succ_le h)⟩
    obtain ⟨i, hi, heq⟩ := mem_issued.mp hmem
    omega

theorem not_nodup_issued : ¬ (issued (2 ^ 64 + 1)).Nodup := by
  rw [issued, List.nodup_cons]
  exact fun h => h.1 (mem_issued.mpr ⟨0, Nat.two_pow_pos 64, rfl⟩)

/-- What has been handed out, and what comes next. -/
def Session.Numbered (v : Session) : Prop :=
  ∃ n, v.handed = issued n ∧ v.server.compositor.nextId = (n + 1) % 2 ^ 64

/-- What a run of the server's code that came to an answer leaves. -/
theorem of_answered {α : Type} {x : Checked Server ε α} {r : Option α × Server}
    {Q : α → Server → Prop} {F : ε → Server → Prop} (h : answered x s = some r)
    (hx : wp True x Q F s) : (∃ a, r.1 = some a ∧ Q a r.2) ∨ r.1 = none ∧ ∃ e, F e r.2 := by
  rw [answered] at h
  split at h
  · next a s' heq =>
    obtain rfl := Option.some.inj h
    exact .inl ⟨a, rfl, (wp_of_ok heq).mp hx⟩
  · next e s' heq =>
    obtain rfl := Option.some.inj h
    exact .inr ⟨rfl, e, (wp_of_fail heq).mp hx⟩
  · simp at h

/-- The client a request or a death is attributed to. -/
def Event.client? : Event → Option Client
  | .request client _ _ | .death client _ => some client
  | .start _ | .pointer _ | .draw _ => none

/-- **An event, by what it does to the stack**: a request and a death do nothing to the surfaces of
other clients, and an id that is handed out is the next one. -/
theorem Event.run_behaves {e : Event} {id : Option ℕ} {s' : Server} (h : e.run o s = some (id, s')) :
    (∀ c, e.client? = some c → s'.compositor.others c = s.compositor.others c) ∧
    ((id = none ∧ s'.compositor.nextId = s.compositor.nextId) ∨
      id = some s.compositor.nextId ∧ s'.compositor.nextId = nextOf s.compositor.nextId) := by
  -- a run that leaves the stack alone
  have hsame : s'.compositor = s.compositor → id = none → e.client? = none →
      (∀ c, e.client? = some c → s'.compositor.others c = s.compositor.others c) ∧
      ((id = none ∧ s'.compositor.nextId = s.compositor.nextId) ∨
        id = some s.compositor.nextId ∧ s'.compositor.nextId = nextOf s.compositor.nextId) :=
    fun hc hid he => ⟨fun c h => by simp [he] at h, .inl ⟨hid, by rw [hc]⟩⟩
  cases e with
  | start k =>
    obtain ⟨r, hr, heq⟩ := Option.map_eq_some_iff.mp h
    obtain ⟨rfl, rfl⟩ := Prod.mk.inj heq
    refine hsame ?_ rfl rfl
    obtain ⟨_, _, hc⟩ | ⟨_, e, _⟩ := of_answered hr ((keeps_composite _).run s)
    · exact compositor_of_clients hc
    · exact e.elim
  | request client msg k =>
    obtain ⟨r, hr, heq⟩ := Option.map_eq_some_iff.mp h
    obtain ⟨rfl, rfl⟩ := Prod.mk.inj heq
    obtain ⟨a, ha, hb, hid⟩ | ⟨hnone, _, hb⟩ := of_answered hr serve_behaves
    · refine ⟨fun c hc => Option.some.inj hc ▸ hb.others, ?_⟩
      have hnext := hb.nextId
      by_cases htag : msg.tag = tagCreate
      · rw [decide_eq_true htag, if_pos rfl] at hnext
        rw [if_pos htag, ha, hid htag]
        exact .inr ⟨rfl, hnext⟩
      · rw [decide_eq_false htag, if_neg (by decide)] at hnext
        rw [if_neg htag]
        exact .inl ⟨rfl, hnext⟩
    · refine ⟨fun c hc => Option.some.inj hc ▸ hb.others, .inl ⟨?_, hb.nextId⟩⟩
      rw [hnone]
      split <;> rfl
  | death client k =>
    obtain ⟨r, hr, heq⟩ := Option.map_eq_some_iff.mp h
    obtain ⟨rfl, rfl⟩ := Prod.mk.inj heq
    obtain ⟨_, _, hb⟩ | ⟨_, e, _⟩ := of_answered hr (bury_behaves (F := fun _ _ => True))
    · exact ⟨fun c hc => Option.some.inj hc ▸ hb.others, .inl ⟨rfl, hb.nextId⟩⟩
    · exact e.elim
  | pointer e =>
    obtain ⟨r, hr, heq⟩ := Option.map_eq_some_iff.mp h
    obtain ⟨rfl, rfl⟩ := Prod.mk.inj heq
    refine hsame ?_ rfl rfl
    obtain ⟨_, _, hc⟩ | ⟨_, e, _⟩ := of_answered hr ((keeps_point e).run s)
    · exact hc
    · exact e.elim
  | draw mem =>
    obtain ⟨rfl, rfl⟩ := Prod.mk.inj (Option.some.inj h)
    exact hsame rfl rfl rfl

/-- Every state a run reaches has handed out the first so many ids. -/
theorem numbered {v : Session} (h : (displayServer o).Reachable v) : v.Numbered := by
  refine h.invariant (fun v hv => ?_) fun v e v' hv _ hn => ?_
  · obtain ⟨seed, screen, mem, fb, -, -, rfl⟩ := hv
    exact ⟨0, rfl, rfl⟩
  · obtain ⟨-, id, hr, hhanded', -⟩ := Session.of_next hn
    obtain ⟨n, hhanded, hnext⟩ := hv
    obtain ⟨rfl, hid⟩ | ⟨rfl, hid⟩ := (Event.run_behaves hr).2
    · exact ⟨n, hhanded'.trans hhanded, hid.trans hnext⟩
    · refine ⟨n + 1, ?_, ?_⟩
      · rw [hhanded', hhanded, hnext]
        rfl
      · rw [hid, hnext, nextOf, Nat.mod_add_mod]

/-! ### Surfaces of somebody else's -/

/-- Requests that name a surface. -/
def Names (msg : Message) : Prop :=
  msg.tag = tagCommit ∨ msg.tag = tagRaise ∨ msg.tag = tagDestroy

theorem Compositor.find?_eq_none {c : Compositor} {owner id : ℕ}
    (h : ∀ t ∈ c.live, t.id = id → t.owner ≠ owner) : c.find? owner id = none := by
  rw [find?, List.findIdx?_eq_none_iff]
  intro t ht
  simpa using h t ht

/-- **A request that names somebody else's surface is refused**, and the server is as it was. -/
theorem wp_serve_foreign {T : Prop} (hcount : ¬ T → s.compositor.count ≤ maxSurfaces)
    (hnames : Names msg)
    (h : ∀ t ∈ s.compositor.live, t.id = (msg.words.get 0).toNat → t.owner ≠ client) :
    wp T (serve o k client msg) (fun _ _ => False) (fun e s' => e = .noSurface ∧ s' = s) s := by
  have hnone := Compositor.find?_eq_none h
  have hno : ∀ {i : ℕ}, s.compositor.find? client (msg.words.get 0).toNat ≠ some i := by simp [hnone]
  have hne : ∀ tag, tag ≠ tagCommit → tag ≠ tagRaise → tag ≠ tagDestroy → msg.tag ≠ tag := by
    rintro _ hc hr hd rfl
    rcases hnames with h | h | h
    · exact hc h
    · exact hr h
    · exact hd h
  refine wp_serve (fun h => absurd h (hne _ (by decide) (by decide) (by decide)))
    (fun h => absurd h (hne _ (by decide) (by decide) (by decide)))
    (fun h => absurd h (hne _ (by decide) (by decide) (by decide))) (fun _ => ?_) (fun _ => ?_)
    (fun _ => ?_) (fun h => absurd h (hne _ (by decide) (by decide) (by decide)))
    (fun h => absurd h (hne _ (by decide) (by decide) (by decide)))
    fun _ hc hr hd => absurd rfl (hne _ hc hr hd)
  · rw [commit, wp_bind]
    exact wp_commitDamage hcount (fun _ _ _ hi => absurd hi hno) (fun _ => ⟨rfl, rfl⟩)
      (fun _ _ _ hi => absurd hi hno) (fun _ _ hi => absurd hi hno) fun _ _ hi => absurd hi hno
  · rw [raise, wp_bind]
    exact wp_raiseDamage hcount (fun _ => ⟨rfl, rfl⟩) fun _ hi => absurd hi hno
  · rw [destroy, wp_bind]
    exact wp_destroyDamage hcount (fun _ => ⟨rfl, rfl⟩) fun _ hi => absurd hi hno

/-- A kernel that gives a page, accepts every flip and has no clock. -/
def obliging : Answers :=
  { pages := 1, va := 2 ^ 20, flip := 0, start := -1, stop := -1
    pages_le := by decide, stop_lt := by decide }

/-- A screen of one pixel and one buffer. -/
def pinhole : Seed := { base := 0x1000, width := 1, height := 1, stride := 4, buffers := 1, scanout := 0 }

/-- A surface of one pixel beside that screen. -/
def createBeside : Message := { tag := tagCreate, words := #v[1, 1, 1, 0], cap := 1 }

/-- The surface with an id, no longer wanted. -/
def destroyOf (id : ℕ) : Message :=
  { tag := tagDestroy, words := #v[BitVec.ofNat 64 id, 0, 0, 0], cap := .null }

/-- **Isolation.** A request or a death of a client leaves the surfaces of all the other clients as
they are, in the order they had; a request of the client that names a surface that is not its own
is refused and changes nothing; and the first `2 ^ 64` surface ids the server hands out are
different. -/
theorem isolation (o : OverflowChecks) :
    (∀ e (c : Client) s id s', Event.client? e = some c → e.run o s = some (id, s') →
      s'.compositor.others c = s.compositor.others c) ∧
    (∀ k (c : Client) msg s, Names msg →
      (∀ t ∈ s.compositor.live, t.id = (msg.words.get 0).toNat → t.owner ≠ (c : ℕ)) →
      (∀ r s', serve o k c msg s ≠ .ok r s') ∧
        (s.compositor.count ≤ maxSurfaces → serve o k c msg s = .error (.fail .noSurface) s)) ∧
    ∀ v, (displayServer o).Reachable v → v.handed.length ≤ 2 ^ 64 → v.handed.Nodup := by
  refine ⟨fun e c s id s' hc h => (Event.run_behaves h).1 c hc, fun k c msg s hnames hforeign => ?_,
    fun v hv hlen => ?_⟩
  · constructor
    · intro r s' hr
      exact (wp_of_ok hr).mp (wp_serve_foreign (T := True) (fun h => absurd trivial h) hnames hforeign)
    · intro hcount
      obtain ⟨_, _, _, h⟩ | ⟨e, s', hr, rfl, rfl⟩ :=
        exists_of_wp (wp_serve_foreign (o := o) (k := k) (fun _ => hcount) hnames hforeign)
      · exact h.elim
      · exact hr
  · obtain ⟨n, hn, -⟩ := numbered hv
    rw [hn, length_issued] at hlen
    exact hn ▸ nodup_issued hlen

theorem isolation_beside : ∃ v, (displayServer .off).Reachable v ∧ v.handed.Nodup ∧
    serve .off obliging 1 (destroyOf 1) v.server = .error (.fail .noSurface) v.server ∧
    ∃ s', Event.run .off (.death 1 obliging) v.server = some (none, s') ∧
      s'.compositor.others 1 = v.server.compositor.others 1 := by
  obtain ⟨v, hv, hp⟩ : ∃ v, (displayServer .off).Reachable v ∧
      decide (v.handed = [1] ∧ v.server.compositor.count = 1 ∧
        (∀ t ∈ v.server.compositor.live, t.owner ≠ 1) ∧
        (Event.run .off (.death 1 obliging) v.server).map Prod.fst = some none) = true :=
    EventSystem.Reachable.exists_of_run [.start obliging, .request 0 createBeside obliging]
      ⟨pinhole, _, fun _ => 0, fun _ => 0, rfl, by rw [Screen.Mapped]; decide, rfl⟩
      (by decide +kernel)
  obtain ⟨hhanded, hcount, howner, hdeath⟩ := of_decide_eq_true hp
  obtain ⟨⟨_, s'⟩, hs', rfl⟩ := Option.map_eq_some_iff.mp hdeath
  refine ⟨v, hv, (isolation .off).2.2 v hv (by rw [hhanded]; decide),
    ((isolation .off).2.1 obliging 1 (destroyOf 1) v.server (.inr (.inr rfl))
      fun t ht _ => howner t ht).2 (by rw [hcount]; decide), s', hs', ?_⟩
  exact (isolation .off).1 (.death 1 obliging) 1 _ _ _ rfl hs'

/-- A server on that screen with no surfaces, which has handed out `n` ids. -/
structure Idle (n : ℕ) (v : Session) : Prop where
  reachable : (displayServer .off).Reachable v
  handed : v.handed = issued n
  count : v.server.compositor.count = 0
  nextId : v.server.compositor.nextId = (n + 1) % 2 ^ 64
  width : v.server.screen.width = 1
  shown : v.shown ≠ none

theorem exists_idle : ∃ v, Idle 0 v := by
  obtain ⟨v, hv, hp⟩ : ∃ v, (displayServer .off).Reachable v ∧
      decide (v.handed = [] ∧ v.server.compositor.count = 0 ∧ v.server.compositor.nextId = 1 ∧
        v.server.screen.width = 1 ∧ v.shown.isSome = true) = true :=
    EventSystem.Reachable.exists_of_run [.start obliging]
      ⟨pinhole, _, fun _ => 0, fun _ => 0, rfl, by rw [Screen.Mapped]; decide, rfl⟩
      (by decide +kernel)
  obtain ⟨hhanded, hcount, hnext, hwidth, hshown⟩ := of_decide_eq_true hp
  exact ⟨v, hv, hhanded, hcount, hnext, hwidth, fun h => by simp [h] at hshown⟩

theorem wp_composite_beside {rect : Rect} (h : s.screen.width ≤ rect.x) {Q : ℕ → Server → Prop}
    {F : Empty → Server → Prop} {T : Prop} (hQ : Q 0 s) : wp T (composite o k rect) Q F s := by
  rw [composite, wp_bind, Rect.clip, wp_bind, wp_get, wp_ite]
  exact ⟨fun _ => (wp_pure _).mpr ((wp_pure _).mpr hQ), fun hn => absurd (.inl h) hn⟩

/-- A run of the server's code that comes to a value. -/
theorem answered_of_wp {α : Type} {x : Checked Server ε α} {Q : α → Server → Prop}
    (h : wp False x Q (fun _ _ => False) s) :
    ∃ a s', answered x s = some (some a, s') ∧ Q a s' := by
  obtain ⟨a, s', hx, hQ⟩ | ⟨_, _, _, h⟩ := exists_of_wp h
  · exact ⟨a, s', by rw [answered, hx], hQ⟩
  · exact h.elim

/-- One surface made. -/
theorem Idle.created {n : ℕ} {v : Session} (h : Idle n v) : ∃ v', v'.shown ≠ none ∧
    (displayServer .off).Reachable v' ∧ v'.handed = issued (n + 1) ∧
    v'.server = v.server.grown obliging 0 createBeside := by
  have hadmits : v.server.Admits obliging createBeside :=
    ⟨by decide, by decide, by rw [h.count]; decide⟩
  have hserve : wp False (serve .off obliging 0 createBeside)
      (fun r s' => r = [v.server.compositor.nextId] ∧ s' = v.server.grown obliging 0 createBeside)
      (fun _ _ => False) v.server := by
    refine wp_serve (fun h => absurd h (by decide)) (fun h => absurd h (by decide)) (fun _ => ?_)
      (fun h => absurd h (by decide)) (fun h => absurd h (by decide)) (fun h => absurd h (by decide))
      (fun h => absurd h (by decide)) (fun h => absurd h (by decide)) fun h => absurd rfl h
    exact wp_create (fun _ => by rw [h.count]; decide) (fun _ h => absurd h (by decide))
      (fun _ => ⟨rfl, rfl⟩) fun _ _ hno => absurd hadmits hno
  obtain ⟨_, s', hans, rfl, rfl⟩ := answered_of_wp hserve
  obtain ⟨v', hn, hserver, hhanded, hshown⟩ := Session.exists_next (o := .off)
    (e := .request 0 createBeside obliging) (show v.Enabled (.request _ _ _) from h.shown)
    (by rw [Event.run, hans]; rfl) h.shown
  refine ⟨v', hshown, .step h.reachable trivial hn, ?_, hserver⟩
  rw [hhanded, h.handed, issued, ← h.nextId]
  rfl

/-- And destroyed again. -/
theorem Idle.next {n : ℕ} {v : Session} (h : Idle n v) : ∃ v', Idle (n + 1) v' := by
  obtain ⟨v', hshown, hreach, hhanded, hserver⟩ := h.created
  have hlive : v.server.compositor.live = [] := List.eq_nil_of_length_eq_zero (by simp [h.count])
  have hid : ((destroyOf v.server.compositor.nextId).words.get 0).toNat = v.server.compositor.nextId := by
    show (BitVec.ofNat 64 _).toNat = _
    rw [BitVec.toNat_ofNat, h.nextId, Nat.mod_mod]
  have hfind : v'.server.compositor.find? 0 v.server.compositor.nextId = some 0 := by
    rw [hserver, Server.grown, Server.stacked, Compositor.find?, Compositor.live_added, hlive]
    simp [Display.created]
  have hne : ∀ tag, tagDestroy ≠ tag → (destroyOf v.server.compositor.nextId).tag ≠ tag :=
    fun _ h => h
  have hcount : v'.server.compositor.count = 1 := by
    rw [hserver]
    show v.server.compositor.count + 1 = 1
    rw [h.count]
  have hserve : wp False (serve .off obliging 0 (destroyOf v.server.compositor.nextId))
      (fun _ s' => s' = v'.server.stacked (v'.server.compositor.removed 0)) (fun _ _ => False)
      v'.server := by
    refine wp_serve (fun h => absurd h (hne _ (by decide))) (fun h => absurd h (hne _ (by decide)))
      (fun h => absurd h (hne _ (by decide))) (fun h => absurd h (hne _ (by decide)))
      (fun h => absurd h (hne _ (by decide))) (fun _ => ?_)
      (fun h => absurd h (hne _ (by decide))) (fun h => absurd h (hne _ (by decide)))
      fun _ _ _ h => absurd rfl h
    rw [destroy, wp_bind]
    refine wp_destroyDamage (fun _ => by rw [hcount]; decide) (fun hnone => ?_) fun i hi => ?_
    · rw [hid, Fin.val_zero, hfind] at hnone
      exact absurd hnone (by simp)
    · rw [hid, Fin.val_zero, hfind] at hi
      obtain rfl := Option.some.inj hi
      rw [wp_total]
      refine wp_composite_beside ?_ rfl
      have hslot : v'.server.compositor.slots 0 =
          Display.created obliging 0 v.server.compositor.nextId createBeside := by
        have := Compositor.getElem_live (c := v'.server.compositor) (i := 0) (by simp [hcount])
        rw [← this]
        simp [hserver, Server.grown, Server.stacked, Compositor.live_added, hlive]
      have hwidth : (v'.server.stacked (v'.server.compositor.removed 0)).screen.width = 1 := by
        rw [hserver]
        exact h.width
      rw [hslot, hwidth]
      exact Nat.le_refl _
  obtain ⟨_, s', hans, rfl⟩ := answered_of_wp hserve
  obtain ⟨v'', hn, hserver', hhanded', hshown'⟩ := Session.exists_next (o := .off)
    (e := .request 0 (destroyOf v.server.compositor.nextId) obliging)
    (show v'.Enabled (.request _ _ _) from hshown) (by rw [Event.run, hans]; rfl) hshown
  refine ⟨v'', .step hreach trivial hn, by rw [hhanded', ← hhanded]; rfl, ?_, ?_, ?_, hshown'⟩
  · rw [hserver']
    show v'.server.compositor.count - 1 = 0
    rw [hcount]
  · rw [hserver', hserver]
    show nextOf v.server.compositor.nextId = _
    rw [nextOf, h.nextId, Nat.mod_add_mod]
  · rw [hserver', hserver]
    exact h.width

/-- After as many ids as there are numbers the first one comes again. -/
theorem ids_repeat : ¬ ∀ v, (displayServer .off).Reachable v → v.handed.Nodup := by
  have hidle : ∀ n, ∃ v, Idle n v := by
    intro n
    induction n with
    | zero => exact exists_idle
    | succ n ih =>
      obtain ⟨v, hv⟩ := ih
      exact hv.next
  intro h
  obtain ⟨v, hv⟩ := hidle (2 ^ 64 + 1)
  exact not_nodup_issued (hv.handed ▸ h v hv.reachable)

/-! ### Refusals -/

/-- The surfaces with their buffers, in their order, the focus, the watches and the screen with what
each of its buffers is behind by are as they were. -/
structure Unchanged (s s' : Server) : Prop where
  compositor : s'.compositor = s.compositor
  focus : s'.focus = s.focus
  watches : s'.watches = s.watches
  screen : s'.screen = s.screen

/-- A commit that brings the client's surface a buffer the server takes, another than the one it
shows, and names a part of the surface that does not exist. -/
def Server.SwapsBadly (s : Server) (k : Answers) (client : Client) (msg : Message) : Prop :=
  (msg.tag = tagCommit ∧ msg.cap ≠ .null ∧ s.compositor.count ≤ maxSurfaces) ∧
    ∃ i ∈ s.compositor.find? client (msg.words.get 0).toNat,
      k.Accepts msg.cap (s.compositor.slots i).width (s.compositor.slots i).height ∧
        k.va.toNat ≠ (s.compositor.slots i).pixels ∧ ¬ (s.compositor.slots i).Damages msg

instance : Decidable (s.SwapsBadly k client msg) := inferInstanceAs (Decidable (_ ∧ _))

/-- Such a commit is refused with the new buffer in place. -/
theorem exists_swapped_badly (h : s.SwapsBadly k client msg) :
    ∃ s', serve o k client msg s = .error (.fail .malformed) s' ∧
      s'.compositor.live ≠ s.compositor.live := by
  obtain ⟨⟨htag, hcap, hcount⟩, i, hi, hacc, hne, hdam⟩ := h
  have hwrong : ∀ {tag}, tag ≠ tagCommit → msg.tag ≠ tag := fun hne h => hne (h ▸ htag)
  have hserve : wp False (serve o k client msg) (fun _ _ => False)
      (fun e s' => e = .malformed ∧ s' = s.swapped k msg.cap i) s := by
    refine wp_serve (fun h => absurd h (hwrong (by decide))) (fun h => absurd h (hwrong (by decide)))
      (fun h => absurd h (hwrong (by decide))) (fun _ => ?_)
      (fun h => absurd h (hwrong (by decide))) (fun h => absurd h (hwrong (by decide)))
      (fun h => absurd h (hwrong (by decide))) (fun h => absurd h (hwrong (by decide)))
      fun _ h => absurd htag h
    rw [commit, wp_bind]
    have hi' : ∀ {j}, s.compositor.find? client (msg.words.get 0).toNat = some j → j = i :=
      fun hj => Option.some.inj (hj.symm.trans hi)
    refine wp_commitDamage (fun _ => hcount) (fun _ _ j hj hd => ?_) (fun hnone => ?_)
      (fun _ _ j hj hno _ => ?_) (fun j _ hj _ _ => ?_) fun j _ hj _ hd => ?_
    · exact absurd (hi' hj ▸ hd) hdam
    · exact absurd (hnone.symm.trans hi) (by simp)
    · exact absurd (fun _ => hi' hj ▸ hacc) hno
    · exact ⟨rfl, by rw [hi' hj]⟩
    · exact absurd (hi' hj ▸ hd) hdam
  obtain ⟨_, _, _, hf⟩ | ⟨_, _, hr, rfl, rfl⟩ := exists_of_wp hserve
  · exact hf.elim
  · have hlt := (Compositor.of_find? hi).1
    refine ⟨_, hr, fun hlive => hne ?_⟩
    -- the entry at `i` shows the buffer the commit brought
    have hslot := congrArg (·[i]?) hlive
    rw [Server.swapped, if_neg hcap] at hslot
    simp only [Server.stacked, Compositor.live_replaced hlt, List.getElem?_set,
      Compositor.length_live, if_pos hlt, Compositor.getElem?_live] at hslot
    exact congrArg Surface.pixels (Option.some.inj hslot)

/-- **Refusals.** A request that is refused leaves the server as it was if and only if it is not a
commit that brings another buffer and names an impossible part of its surface. -/
theorem refused_unchanged_iff (o : OverflowChecks) (k : Answers) (client : Client) (msg : Message)
    (s : Server) :
    (∀ e s', serve o k client msg s = .error (.fail e) s' → Unchanged s s') ↔
      ¬ s.SwapsBadly k client msg := by
  have hlost : ∀ {s' : Server}, s' = s ∨ s' = s.mapped k → Unchanged s s' := by
    rintro _ (rfl | rfl)
    · exact ⟨rfl, rfl, rfl, rfl⟩
    · exact ⟨rfl, rfl, rfl, rfl⟩
  constructor
  · intro h hbad
    obtain ⟨s', hr, hne⟩ := exists_swapped_badly hbad
    exact hne (congrArg Compositor.live (h _ _ hr).compositor)
  · intro hbad e s' hr
    have hserve : wp True (serve o k client msg) (fun _ _ => True) (fun _ s' => Unchanged s s') s := by
      refine wp_serve (fun _ => trivial) (fun _ => trivial) (fun _ => ?_) (fun htag => ?_)
        (fun _ => ?_) (fun _ => ?_) (fun _ _ => trivial) (fun _ => trivial)
        fun _ _ _ _ => hlost (.inl rfl)
      · exact wp_create (fun h => absurd trivial h) (fun h => absurd trivial h) (fun _ => trivial)
          fun _ _ _ hs => hlost hs
      · rw [commit, wp_bind]
        refine wp_commitDamage (fun h => absurd trivial h) (fun h => absurd trivial h)
          (fun _ => hlost (.inl rfl)) (fun _ _ _ _ _ hs => hlost hs)
          (fun i hcount hi htakes hdam => ?_) fun _ _ _ _ _ _ _ => wp_total.mpr (wp_trivial _)
        -- the buffer that was swapped in, if any, is the one that was there
        rw [Server.swapped]
        split
        · exact hlost (.inl rfl)
        · next hcap =>
          have hsame : k.va.toNat = (s.compositor.slots i).pixels := by
            by_contra hne
            exact hbad ⟨⟨htag, hcap, hcount⟩, i, hi, htakes hcap, hne, hdam⟩
          refine ⟨?_, rfl, rfl, rfl⟩
          rw [Server.stacked, Compositor.replaced, hsame, Function.update_eq_self]
      · rw [raise, wp_bind]
        exact wp_raiseDamage (fun h => absurd trivial h) (fun _ => hlost (.inl rfl))
          fun _ _ => wp_total.mpr (wp_trivial _)
      · rw [destroy, wp_bind]
        exact wp_destroyDamage (fun h => absurd trivial h) (fun _ => hlost (.inl rfl))
          fun _ _ => wp_total.mpr (wp_trivial _)
    exact (wp_of_fail hr).mp hserve

/-- The same kernel when it maps another buffer. -/
def obligingElsewhere : Answers := { obliging with va := 2 ^ 21 }

/-- A commit of the first surface with a buffer, and with a part five pixels to its right. -/
def commitOutside : Message :=
  { tag := tagCommit, words := #v[1, 5, 0x100000001, 0], cap := 1 }

theorem refused_with_new_buffer : ¬ ∀ v, (displayServer .off).Reachable v →
    ∀ k client msg e s', serve .off k client msg v.server = .error (.fail e) s' →
      Unchanged v.server s' := by
  intro h
  obtain ⟨v, hv, hp⟩ : ∃ v, (displayServer .off).Reachable v ∧
      decide (v.server.SwapsBadly obligingElsewhere 0 commitOutside) = true :=
    EventSystem.Reachable.exists_of_run [.start obliging, .request 0 createBeside obliging]
      ⟨pinhole, _, fun _ => 0, fun _ => 0, rfl, by rw [Screen.Mapped]; decide, rfl⟩
      (by decide +kernel)
  obtain ⟨s', hr, hne⟩ := exists_swapped_badly (o := .off) (of_decide_eq_true hp)
  exact hne (congrArg Compositor.live (h v hv _ _ _ _ _ hr).compositor)

end Display

end StarOS
