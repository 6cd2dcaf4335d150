import StarOS.Fdt.Forest

/-!
# The readers of a device tree agree

The tokens are read in three ways: the linear walk goes through all of them, a reader of properties
stops at the first child, and a reader of children skips what is inside each. In a forest that the
walk has read, the properties of a node are those in front of its first child, and its children are
the nodes one level down.

The walk takes the cells of a node from every property that came before, and a node looks its own up
by name. So they can differ, but not where the properties of a node that give cells are in front of
its children, once each, and no longer than a cell.

## Main definitions

* `Fdt.Forest.leading`, `Fdt.Forest.tops` — what is read of a node
* `Fdt.Forest.Plain`

## Main results

* `Fdt.Properties.Stands.collects`, `Fdt.Children.Stands.collects`
* `Fdt.readers_agree`
-/

namespace StarOS

namespace Fdt

open Checked

namespace Forest

/-- The nodes of the level itself. -/
def tops : Forest → List Node
  | nil => []
  | prop _ rest => rest.tops
  | node n _ rest => n :: rest.tops

/-- Its properties. -/
def props : Forest → List Property
  | nil => []
  | prop p rest => p :: rest.props
  | node _ _ rest => rest.props

/-- Those in front of the first node. -/
def leading : Forest → List Property
  | nil | node _ _ _ => []
  | prop p rest => p :: rest.leading

/-- And those behind it. -/
def later : Forest → List Property
  | nil => []
  | prop _ rest => rest.later
  | node _ _ rest => rest.props

end Forest

/-- The same node, with other cells from its parent. -/
def Node.under (cells : CellCounts) (node : Node) : Node := { node with parentCells := cells }

/-! ### Reading a node -/

section Node

variable {b : Blob} {cells : CellCounts} {pos last stop : ℕ} {f inner : Forest} {name : String}
  {p : Property} {t : Token}

theorem Lays.le (h : Lays b cells pos f stop) (hb : b.Sound) : pos ≤ stop := by
  induction h with
  | nil => exact le_rfl
  | nop _ _ ih => omega
  | prop _ hprop _ ih =>
    have hbounds := hprop.bounds
    omega
  | node _ hname _ _ _ ih ih' =>
    have hbounds := hname.bounds hb
    omega

/-- Where a node of a forest begins there is what is in it, and then its end. -/
theorem Lays.node_inner (h : Lays b cells pos f stop) :
    ∀ x ∈ f.nodes, x.1.blob = b ∧
      ∃ last, Lays b x.1.parentCells x.1.body x.2 last ∧ TokenAt b last .endNode := by
  induction h with
  | nil => exact fun x hx => absurd hx List.not_mem_nil
  | nop _ _ ih | prop _ _ _ ih => exact ih
  | node _ _ hinner hend _ ih ih' =>
    rintro x hx
    rcases List.mem_cons.mp hx with rfl | hx
    · exact ⟨rfl, _, hinner, hend⟩
    · exact (List.mem_append.mp hx).elim (ih x) (ih' x)

/-- A name reads the same up to the end of the blob. -/
theorem NameAt.skipCstr (h : NameAt b pos name stop) (hb : b.Sound) : ∃ len region,
    0 < len ∧ pos + len ≤ b.data.len ∧ align4 (pos + len) = some stop ∧
      b.data.get pos (pos + len - 1) = some region ∧ fromUtf8 region.bytes = some name ∧
        ∀ {σ : Type} (s : σ), (skipCstr b.data pos : Checked σ Unit ℕ) s = .ok len s := by
  obtain ⟨region, len, hregion, hname, hstop⟩ := h
  have hstruct := hb.struct_le
  have hlen := b.data.len_lt
  obtain ⟨⟨hle, -⟩, hbytes⟩ := Slice.get_eq_some.mp hregion
  have hregionLen := Slice.len_of_get hregion
  have hlt := position_lt hname.stop
  obtain ⟨all, hall⟩ : ∃ all, b.data.get pos b.data.len = some all :=
    Option.ne_none_iff_exists'.mp fun hn => Slice.get_eq_none.mp hn ⟨by omega, le_rfl⟩
  obtain ⟨head, hhead⟩ : ∃ head, b.data.get pos (pos + len) = some head :=
    Option.ne_none_iff_exists'.mp fun hn => Slice.get_eq_none.mp hn ⟨by omega, by omega⟩
  obtain ⟨-, hallBytes⟩ := Slice.get_eq_some.mp hall
  obtain ⟨-, hheadBytes⟩ := Slice.get_eq_some.mp hhead
  obtain ⟨rest, hrest⟩ : region.bytes <+: all.bytes := by
    rw [hallBytes, hbytes, List.extract_eq_take_drop, List.extract_eq_take_drop]
    exact List.take_prefix_take_left (by omega)
  have hposition : position all = some len := by
    have hstop' := hname.stop
    rw [position] at hstop' ⊢
    rw [← hrest, List.findIdx?_append, hstop']
    rfl
  refine ⟨len + 1, head, Nat.succ_pos _, by omega, hstop, hhead, ?_, fun s => ok_of_wp ?_⟩
  · refine fromUtf8_eq_some.mpr (hname.text.trans ?_)
    rw [hbytes, hheadBytes, List.extract_eq_take_drop, List.extract_eq_take_drop, List.take_take]
    congr 1
    omega
  · rw [Fdt.skipCstr, hall, wp_bind, wp_ofOption_some, wp_bind, hposition, wp_ofOption_some, wp_add]
    exact ⟨by omega, rfl, rfl⟩

namespace Properties

/-- An iterator in front of what is in a node, with the properties `ps` in front of the first
child. -/
structure Stands (b : Blob) (ps : List Property) (it : Properties) : Prop where
  blob_eq : it.blob = b
  done : it.done = false
  lays : ∃ cells f last, Lays b cells it.pos f last ∧ TokenAt b last .endNode ∧ f.leading = ps

variable {it : Properties} {ps : List Property}

/-- A property that is there is yielded. -/
theorem wp_step_prop (htoken : TokenAt it.blob it.pos .prop) (hdone : it.done = false)
    (hprop : PropAt it.blob (it.pos + 4) p stop) {Q : Unit ⊕ Property → Properties → Prop}
    {F : Unit → Properties → Prop} (hQ : Q (.inr p) { it with pos := stop }) :
    wp False step Q F it := by
  obtain ⟨word, hword, hof⟩ := htoken
  obtain ⟨len, nameoff, hlenAt, hnameoff, hvalue, hname, hstop⟩ := hprop
  obtain ⟨⟨-, hend⟩, -⟩ := Slice.get_eq_some.mp hvalue
  have hlen := it.blob.data.len_lt
  rw [step, wp_bind, wp_get, wp_bind, wp_require]
  refine ⟨fun _ => ?_, fun hn => absurd hdone hn⟩
  rw [wp_bind, readBeU32_eq, hword, wp_ofOption_some, hof]
  dsimp only
  rw [wp_bind, wp_add]
  refine ⟨by omega, ?_⟩
  rw [wp_bind, readBeU32_eq, hlenAt, wp_ofOption_some, wp_bind, wp_add]
  refine ⟨by omega, ?_⟩
  rw [wp_bind, readBeU32_eq, hnameoff, wp_ofOption_some, wp_bind, wp_add]
  refine ⟨by omega, ?_⟩
  rw [wp_bind, checkedAdd_of_lt (by omega), wp_ofOption_some, wp_bind, hvalue, wp_ofOption_some,
    wp_bind, wp_mapErr]
  refine hname.wp ?_
  rw [wp_bind, wp_add]
  refine ⟨by omega, ?_⟩
  rw [wp_bind, hstop, wp_ofOption_some, wp_bind, wp_set, wp_pure]
  exact hQ

/-- Where a child begins or the node ends there are no more. -/
theorem wp_step_end (htoken : TokenAt it.blob it.pos t) (hdone : it.done = false)
    (ht : t = .beginNode ∨ t = .endNode) {Q : Unit ⊕ Property → Properties → Prop}
    {F : Unit → Properties → Prop} (hF : F () { it with done := true }) : wp False step Q F it := by
  obtain ⟨word, hword, hof⟩ := htoken
  rw [step, wp_bind, wp_get, wp_bind, wp_require]
  refine ⟨fun _ => ?_, fun hn => absurd hdone hn⟩
  rw [wp_bind, readBeU32_eq, hword, wp_ofOption_some, hof]
  rcases ht with rfl | rfl
  all_goals
    dsimp only
    rw [wp_bind, wp_set, wp_fail]
    exact hF

theorem Stands.wp_step (h : it.Stands b ps) :
    wp False step (fun r it' => (r = .inl () ∧ it'.Stands b ps ∧ it'.ahead < it.ahead) ∨
      ∃ p ps', r = .inr p ∧ ps = p :: ps' ∧ it'.Stands b ps')
      (fun _ it' => ps = [] ∧ it'.done = true) it := by
  obtain ⟨rfl, hdone, cells, f, last, hlays, hend, rfl⟩ := h
  have hlen := it.blob.data.len_lt
  cases hlays with
  | nil => exact wp_step_end hend hdone (.inr rfl) ⟨rfl, rfl⟩
  | node htoken => exact wp_step_end htoken hdone (.inl rfl) ⟨rfl, rfl⟩
  | @prop _ p _ _ _ f htoken hprop hlays =>
    exact wp_step_prop htoken hdone hprop
      (.inr ⟨p, f.leading, rfl, rfl, rfl, hdone, _, f, last, hlays, hend, rfl⟩)
  | nop htoken hlays =>
    have hle := htoken.le
    obtain ⟨word, hword, hof⟩ := htoken
    rw [step, wp_bind, wp_get, wp_bind, wp_require]
    refine ⟨fun _ => ?_, fun hn => absurd hdone hn⟩
    rw [wp_bind, readBeU32_eq, hword, wp_ofOption_some, hof]
    dsimp only
    rw [wp_bind, wp_add]
    refine ⟨by omega, ?_⟩
    rw [wp_bind, wp_set, wp_pure]
    refine .inl ⟨rfl, ⟨rfl, hdone, cells, f, last, hlays, hend, rfl⟩, ?_⟩
    simp only [ahead]
    omega

/-- **The properties of a node** are those in front of its first child. -/
theorem Stands.collects (h : it.Stands b ps) :
    ∃ it' : Properties, Collects next it ps it' ∧ it'.done = true := by
  refine collects_of_next (I := Stands b) (R := fun it => it.done = true)
    (fun ps it hit => ?_) h
  rw [next, wp_bind, wp_get]
  refine wp_loop (fun _ it' => it'.Stands b ps) (fun _ it' => it'.ahead) (fun _ it' hit' => ?_)
    hit fun _ => ?_
  · refine wp_mono hit'.wp_step (fun r it'' hr => ?_) fun _ _ hr => hr
    obtain ⟨rfl, hstands, hlt⟩ | ⟨p, ps', rfl, hps, hstands⟩ := hr
    · exact ⟨hstands, hlt⟩
    · exact ⟨ps', hps, hstands⟩
  · rw [ahead]
    omega

end Properties

namespace Children

variable {it : Children} {depth : ℕ}

theorem token_of (h : TokenAt it.blob it.pos t) :
    token it = .ok t { it with pos := it.pos + 4 } := by
  have hle := h.le
  have hlen := it.blob.data.len_lt
  obtain ⟨word, hword, rfl⟩ := h
  refine ok_of_wp ?_
  rw [token, wp_bind, wp_get, wp_bind, readBeU32_eq, hword, wp_ofOption_some, wp_bind, wp_add]
  refine ⟨by omega, ?_⟩
  rw [wp_bind, wp_set, wp_pure]
  exact ⟨rfl, rfl⟩

theorem skipProp_of (h : PropAt it.blob it.pos p stop) :
    skipProp it = .ok () { it with pos := stop } := by
  obtain ⟨len, nameoff, hlenAt, -, hvalue, -, hstop⟩ := h
  obtain ⟨⟨-, hend⟩, -⟩ := Slice.get_eq_some.mp hvalue
  have hlen := it.blob.data.len_lt
  refine ok_of_wp ?_
  rw [skipProp, wp_bind, wp_get, wp_bind, readBeU32_eq, hlenAt, wp_ofOption_some, wp_bind, wp_add]
  refine ⟨by omega, ?_⟩
  rw [wp_bind, wp_add]
  refine ⟨by omega, ?_⟩
  rw [wp_bind, hstop, wp_ofOption_some, wp_set]
  exact ⟨rfl, rfl⟩

/-- What is to be skipped: the rest of each of the nodes that are open, and their ends. -/
inductive Pending (b : Blob) : ℕ → ℕ → ℕ → Prop
  | none {pos : ℕ} : Pending b 0 pos pos
  | inside {depth pos last stop : ℕ} {cells : CellCounts} {f : Forest} : Lays b cells pos f last →
      TokenAt b last .endNode → Pending b depth (last + 4) stop → Pending b (depth + 1) pos stop

theorem Pending.le (h : Pending b depth pos stop) (hb : b.Sound) : pos + 4 * depth ≤ stop := by
  induction h with
  | none => exact le_rfl
  | inside hlays hend _ ih =>
    have hle := hlays.le hb
    omega

theorem Pending.stop_le (h : Pending b depth pos stop) (hne : depth ≠ 0) : stop ≤ b.data.len := by
  induction h with
  | none => exact absurd rfl hne
  | @inside depth _ _ _ _ _ _ hend hrest ih =>
    have hle := hend.le
    by_cases hdepth : depth = 0
    · subst hdepth
      cases hrest
      exact hle
    · exact ih hdepth

/-- One token of what is to be skipped. -/
theorem Pending.wp_skipToken (h : Pending it.blob depth it.pos stop) (hb : it.blob.Sound) :
    wp False (skipToken depth) (fun r it' => (r = .inr () ∧ it' = { it with pos := stop }) ∨
      ∃ depth' pos, r = .inl depth' ∧ it' = { it with pos } ∧ it.pos < pos ∧
        it.pos < it.blob.data.len ∧ Pending it.blob depth' pos stop)
      (fun _ _ => False) it := by
  have hdepth := h.le hb
  have hstop := h.stop_le
  have hlen := it.blob.data.len_lt
  rw [skipToken, wp_ite]
  cases h with
  | none => exact ⟨fun _ => (wp_pure _).mpr (.inl ⟨rfl, rfl⟩), fun hne => absurd rfl hne⟩
  | @inside depth _ last _ cells f hlays hend hrest =>
    refine ⟨fun hzero => absurd hzero (Nat.succ_ne_zero _), fun hne => ?_⟩
    have hle := hstop hne
    rw [wp_bind]
    cases hlays with
    | nil =>
      rw [wp_of_ok (token_of hend), wp_bind, wp_sub, wp_pure]
      exact ⟨by omega, .inr ⟨depth, _, rfl, rfl, by omega, by omega, hrest⟩⟩
    | nop htoken hlays =>
      rw [wp_of_ok (token_of htoken), wp_pure]
      exact .inr ⟨depth + 1, _, rfl, rfl, by omega, by omega, .inside hlays hend hrest⟩
    | prop htoken hprop hlays =>
      have hbounds := hprop.bounds
      have hskip : skipProp { it with pos := it.pos + 4 } = .ok () { it with pos := _ } :=
        skipProp_of hprop
      rw [wp_of_ok (token_of htoken), wp_bind, wp_of_ok hskip, wp_pure]
      exact .inr ⟨depth + 1, _, rfl, rfl, by omega, by omega, .inside hlays hend hrest⟩
    | node htoken hname hinner hinnerEnd hlays =>
      have hbounds := hname.bounds hb
      obtain ⟨len, -, -, hin, hbody, -, -, hskip⟩ := hname.skipCstr hb
      rw [wp_of_ok (token_of htoken), wp_bind, wp_add]
      refine ⟨by omega, ?_⟩
      rw [wp_bind, wp_get, wp_bind, wp_of_ok (hskip _), wp_bind, wp_add]
      refine ⟨by dsimp only; omega, ?_⟩
      rw [wp_bind, hbody, wp_ofOption_some, wp_bind, wp_set, wp_pure]
      exact .inr ⟨depth + 1 + 1, _, rfl, rfl, by omega, by omega,
        .inside hinner hinnerEnd (.inside hlays hend hrest)⟩

/-- **A subtree is skipped** up to just past its end. -/
theorem skipSubtree_of (hlays : Lays it.blob cells it.pos inner last)
    (hend : TokenAt it.blob last .endNode) (hb : it.blob.Sound) :
    skipSubtree it = .ok () { it with pos := last + 4 } := by
  refine ok_of_wp ?_
  rw [skipSubtree, wp_bind, wp_get]
  refine wp_loop
    (fun depth it' => ∃ pos, it' = { it with pos } ∧ Pending it.blob depth pos (last + 4))
    (fun _ it' => it'.ahead) (fun depth it' hit' => ?_) ⟨it.pos, rfl, .inside hlays hend .none⟩
    fun _ => ?_
  · obtain ⟨pos, rfl, hpending⟩ := hit'
    have hat : Pending ({ it with pos } : Children).blob depth ({ it with pos } : Children).pos
        (last + 4) := hpending
    refine wp_mono (hat.wp_skipToken hb) (fun r it'' hr => ?_) fun _ _ h => h
    obtain ⟨rfl, rfl⟩ | ⟨depth', pos', rfl, rfl, hlt, hin, hpending'⟩ := hr
    · exact ⟨rfl, rfl⟩
    · refine ⟨⟨pos', rfl, hpending'⟩, ?_⟩
      simp only [ahead] at hlt hin ⊢
      omega
  · rw [ahead]
    omega

/-- **A child** is read, and what is in it is skipped. -/
theorem child_of (hname : NameAt it.blob it.pos name stop)
    (hlays : Lays it.blob cells stop inner last) (hend : TokenAt it.blob last .endNode)
    (hb : it.blob.Sound) :
    child it = .ok ⟨it.blob, name, stop, it.cells⟩ { it with pos := last + 4 } := by
  obtain ⟨len, region, hpos, hin, hbody, hregion, htext, hskip⟩ := hname.skipCstr hb
  have hlen := it.blob.data.len_lt
  refine ok_of_wp ?_
  rw [child, wp_bind, wp_get, wp_bind, wp_of_ok (hskip _), wp_bind, wp_add]
  refine ⟨by omega, ?_⟩
  rw [wp_bind, wp_sub]
  refine ⟨by omega, ?_⟩
  rw [wp_bind, hregion, wp_ofOption_some, wp_bind, htext, wp_ofOption_some, wp_bind, wp_add]
  refine ⟨by omega, ?_⟩
  have hsub : skipSubtree { it with pos := stop } = .ok () { it with pos := last + 4 } :=
    skipSubtree_of hlays hend hb
  rw [wp_bind, hbody, wp_ofOption_some, wp_bind, wp_set, wp_bind, wp_of_ok hsub, wp_pure]
  exact ⟨rfl, rfl⟩

/-- An iterator in front of what is in a node, with the children `ns`. -/
structure Stands (b : Blob) (cells : CellCounts) (ns : List Node) (it : Children) : Prop where
  blob_eq : it.blob = b
  cells_eq : it.cells = cells
  done : it.done = false
  lays : ∃ c f last, Lays b c it.pos f last ∧ TokenAt b last .endNode ∧
    f.tops.map (Node.under cells) = ns

variable {ns : List Node}

theorem Stands.wp_step (h : it.Stands b cells ns) (hb : b.Sound) :
    wp False step (fun r it' => (r = .inl () ∧ it'.Stands b cells ns ∧ it'.ahead < it.ahead) ∨
      ∃ node ns', r = .inr node ∧ ns = node :: ns' ∧ it'.Stands b cells ns')
      (fun _ it' => ns = [] ∧ it'.done = true) it := by
  obtain ⟨rfl, rfl, hdone, c, f, last, hlays, hend, rfl⟩ := h
  have hlen := it.blob.data.len_lt
  have hahead : ∀ pos, it.pos < pos → it.pos < it.blob.data.len →
      ({ it with pos } : Children).ahead < it.ahead := by
    intro pos hlt hin
    simp only [ahead]
    omega
  rw [step, wp_bind, wp_get, wp_bind, wp_require]
  refine ⟨fun _ => ?_, fun hn => absurd hdone hn⟩
  rw [wp_bind]
  cases hlays with
  | nil =>
    rw [wp_of_ok (token_of hend), wp_bind, wp_modify, wp_fail]
    exact ⟨rfl, rfl⟩
  | nop htoken hlays =>
    have hle := htoken.le
    rw [wp_of_ok (token_of htoken), wp_pure]
    exact .inl ⟨rfl, ⟨rfl, rfl, hdone, c, f, last, hlays, hend, rfl⟩,
      hahead _ (by omega) (by omega)⟩
  | @prop _ p _ next _ f htoken hprop hlays =>
    have hle := htoken.le
    have hbounds := hprop.bounds
    have hskip : skipProp { it with pos := it.pos + 4 } = .ok () { it with pos := next } :=
      skipProp_of hprop
    rw [wp_of_ok (token_of htoken), wp_bind, wp_of_ok hskip, wp_pure]
    exact .inl ⟨rfl, ⟨rfl, rfl, hdone, c.note p, f, last, hlays, hend, rfl⟩,
      hahead _ (by omega) (by omega)⟩
  | @node _ name _ body _ _ _ rest htoken hname hinner hinnerEnd hlays =>
    have hchild : child { it with pos := it.pos + 4 } = .ok _ _ :=
      child_of hname hinner hinnerEnd hb
    rw [wp_of_ok (token_of htoken), wp_bind, wp_of_ok hchild, wp_pure]
    exact .inr ⟨_, rest.tops.map (Node.under it.cells), rfl, rfl, rfl, rfl, hdone, c, rest, last,
      hlays, hend, rfl⟩

/-- **The children of a node** are the nodes one level down. -/
theorem Stands.collects (h : it.Stands b cells ns) (hb : b.Sound) :
    ∃ it' : Children, Collects next it ns it' ∧ it'.done = true := by
  refine collects_of_next (I := Stands b cells) (R := fun it => it.done = true)
    (fun ns it hit => ?_) h
  rw [next, wp_bind, wp_get]
  refine wp_loop (fun _ it' => it'.Stands b cells ns) (fun _ it' => it'.ahead)
    (fun _ it' hit' => ?_) hit fun _ => ?_
  · refine wp_mono (hit'.wp_step hb) (fun r it'' hr => ?_) fun _ _ hr => hr
    obtain ⟨rfl, hstands, hlt⟩ | ⟨node, ns', rfl, hns, hstands⟩ := hr
    · exact ⟨hstands, hlt⟩
    · exact ⟨ns', hns, hstands⟩
  · rw [ahead]
    omega

end Children

end Node

/-! ### Cells -/

/-- The properties that give the cells of a node's children. -/
def cellNames : List String := ["#address-cells", "#size-cells"]

/-- A level where the walk and a lookup by name find the same cells. -/
structure Forest.Plain (f : Forest) : Prop where
  once : ∀ key ∈ cellNames, f.leading.countP (·.name = key) ≤ 1
  short : ∀ p ∈ f.leading, p.name ∈ cellNames → p.value.len ≤ 4
  front : ∀ p ∈ f.later, p.name ∉ cellNames

/-- The cell of the first property of that name. -/
def lookup (ps : List Property) (key : String) : Option (BitVec 32) :=
  (ps.find? (·.name = key)).bind fun p => if p.value.len = 4 then beU32 p.value 0 else none

/-- The cells a lookup by name finds. -/
def ownCells (ps : List Property) (cells : CellCounts) : CellCounts where
  address := (lookup ps "#address-cells").getD cells.address
  size := (lookup ps "#size-cells").getD cells.size

section Cells

variable {b : Blob} {cells : CellCounts} {pos last : ℕ} {f : Forest} {p : Property}
  {ps : List Property}

theorem CellCounts.note_address (cells : CellCounts) (p : Property) : (cells.note p).address =
    if p.name = "#address-cells" then (beU32 p.value 0).getD cells.address else cells.address := by
  rw [CellCounts.note]
  cases beU32 p.value 0 with
  | none => simp
  | some n =>
    by_cases haddress : p.name = "#address-cells"
    · simp [haddress]
    · by_cases hsize : p.name = "#size-cells" <;> simp [haddress, hsize]

theorem CellCounts.note_size (cells : CellCounts) (p : Property) : (cells.note p).size =
    if p.name = "#size-cells" then (beU32 p.value 0).getD cells.size else cells.size := by
  rw [CellCounts.note]
  cases beU32 p.value 0 with
  | none => simp
  | some n =>
    by_cases haddress : p.name = "#address-cells"
    · simp [haddress]
    · by_cases hsize : p.name = "#size-cells" <;> simp [haddress, hsize]

theorem CellCounts.note_of_not_mem (hp : p.name ∉ cellNames) : cells.note p = cells := by
  simp only [cellNames, List.mem_cons, List.not_mem_nil, or_false, not_or] at hp
  rw [CellCounts.note]
  split
  · rfl
  · rw [if_neg hp.1, if_neg hp.2]

/-- One of the two cells, behind properties that give it at most once. -/
theorem foldl_note {g : CellCounts → BitVec 32} {key : String}
    (hg : ∀ c p, g (c.note p) = if p.name = key then (beU32 p.value 0).getD (g c) else g c)
    (honce : ps.countP (·.name = key) ≤ 1) (hshort : ∀ p ∈ ps, p.name = key → p.value.len ≤ 4) :
    g (ps.foldl CellCounts.note cells) = (lookup ps key).getD (g cells) := by
  induction ps generalizing cells with
  | nil => rfl
  | cons p ps ih =>
    have hshort' : ∀ p ∈ ps, p.name = key → p.value.len ≤ 4 := fun p hp =>
      hshort p (List.mem_cons_of_mem _ hp)
    rw [List.foldl_cons, ih (le_trans (by simp [List.countP_cons]) honce) hshort', hg]
    by_cases hp : p.name = key
    · -- there is no second one
      have hnone : ps.find? (·.name = key) = none := by
        rw [List.find?_eq_none]
        intro p' hp'
        have hpos : ¬ 0 < ps.countP (·.name = key) := by
          rw [List.countP_cons_of_pos (by simpa using hp)] at honce
          omega
        rw [List.countP_pos_iff] at hpos
        exact fun heq => hpos ⟨p', hp', heq⟩
      have hlen := hshort p List.mem_cons_self hp
      rw [lookup, hnone, lookup, List.find?_cons_of_pos (by simpa using hp), if_pos hp]
      simp only [Option.bind_none, Option.getD_none, Option.bind_some]
      split
      · rfl
      · next hne =>
        cases hread : beU32 p.value 0 with
        | none => rfl
        | some v =>
          have hle := beU32_eq_some hread
          omega
    · rw [if_neg hp, lookup, lookup, List.find?_cons_of_neg (by simpa using hp)]

theorem Lays.tops_of_not_mem (h : Lays b cells pos f last)
    (hf : ∀ p ∈ f.props, p.name ∉ cellNames) : ∀ n ∈ f.tops, n.parentCells = cells := by
  induction h with
  | nil => exact fun n hn => absurd hn List.not_mem_nil
  | nop _ _ ih => exact ih hf
  | prop _ _ _ ih =>
    rw [CellCounts.note_of_not_mem (hf _ List.mem_cons_self)] at ih
    exact ih fun p hp => hf p (List.mem_cons_of_mem _ hp)
  | node _ _ _ _ _ _ ih =>
    rintro n hn
    rcases List.mem_cons.mp hn with rfl | hn
    · rfl
    · exact ih hf n hn

/-- The children of a node begin where all its cells have been given. -/
theorem Lays.tops_cells (h : Lays b cells pos f last) (hf : ∀ p ∈ f.later, p.name ∉ cellNames) :
    ∀ n ∈ f.tops, n.parentCells = f.leading.foldl CellCounts.note cells := by
  induction h with
  | nil => exact fun n hn => absurd hn List.not_mem_nil
  | nop _ _ ih | prop _ _ _ ih => exact ih hf
  | node _ _ _ _ hrest =>
    rintro n hn
    rcases List.mem_cons.mp hn with rfl | hn
    · rfl
    · exact hrest.tops_of_not_mem hf n hn

theorem Forest.Plain.tops_cells (hf : f.Plain) (h : Lays b cells pos f last) :
    f.tops.map (Node.under (ownCells f.leading cells)) = f.tops := by
  have hown : f.leading.foldl CellCounts.note cells = ownCells f.leading cells := by
    have haddress : (f.leading.foldl CellCounts.note cells).address = _ :=
      foldl_note CellCounts.note_address (hf.once _ (by simp [cellNames])) fun p hp hname =>
        hf.short p hp (by simp [hname, cellNames])
    have hsize : (f.leading.foldl CellCounts.note cells).size = _ :=
      foldl_note CellCounts.note_size (hf.once _ (by simp [cellNames])) fun p hp hname =>
        hf.short p hp (by simp [hname, cellNames])
    rw [ownCells, ← haddress, ← hsize]
  refine (List.map_congr_left fun n hn => ?_).trans (List.map_id _)
  rw [Node.under, ← hown, ← h.tops_cells hf.front n hn, id]

variable {node : Node} {it : Properties} {σ ε : Type}

/-- Looking a property up is looking for it in what the reader of properties yields. -/
theorem Node.On.wp_property (hon : node.On b) (h : Collects Properties.next node.properties ps it)
    (name : String) {s : σ} : wp False (node.property name)
      (fun p s' => ps.find? (·.name = name) = some p ∧ s' = s)
      (fun _ s' => ps.find? (·.name = name) = none ∧ s' = s) s := by
  obtain ⟨ps', it', h', hlen, -⟩ := (Properties.finite_next hon.properties).ends
  obtain ⟨rfl, rfl⟩ := h.unique h'
  rw [Node.property, wp_on]
  refine wp_mono (h.wp_find (hlen.trans_lt ?_)) (fun p _ hp => ⟨hp, rfl⟩) fun _ _ hp => ⟨hp, rfl⟩
  show node.blob.data.len - node.body < node.blob.data.len + 1
  omega

theorem Node.On.wp_lookup (hon : node.On b) (h : Collects Properties.next node.properties ps it)
    (key : String) {Q : Option (BitVec 32) → σ → Prop} {F : ε → σ → Prop} {s : σ}
    (hQ : Q (lookup ps key) s) :
    wp False (attempt (do (← node.property key).asU32)) Q F s := by
  rw [wp_attempt, wp_bind]
  refine wp_mono (hon.wp_property h key) (fun p s' hp => ?_) fun _ s' hp => ?_
  · obtain ⟨hfind, rfl⟩ := hp
    rw [lookup, hfind, Option.bind_some] at hQ
    rw [Property.asU32, wp_bind, wp_require, wp_readBeU32]
    refine ⟨fun hlen => ?_, fun hlen => ?_⟩
    · rw [if_pos hlen] at hQ
      exact ⟨fun v hv => hv ▸ hQ, fun hnone => hnone ▸ hQ⟩
    · rw [if_neg hlen] at hQ
      exact hQ
  · obtain ⟨hfind, rfl⟩ := hp
    rw [lookup, hfind] at hQ
    exact hQ

/-- The children of a node get the cells it looks up. -/
theorem Node.On.children_eq (hon : node.On b)
    (h : Collects Properties.next node.properties ps it) :
    (node.children : Checked σ ε Children) = fun s =>
      .ok ⟨node.blob, node.body, ownCells ps node.parentCells, false⟩ s := by
  funext s
  refine ok_of_wp ?_
  rw [Node.children, wp_bind, Node.cells, wp_bind, addressCells, wp_bind]
  refine hon.wp_lookup h _ ?_
  rw [wp_pure, wp_bind, sizeCells, wp_bind]
  refine hon.wp_lookup h _ ?_
  rw [wp_pure, wp_pure, wp_pure]
  exact ⟨rfl, rfl⟩

end Cells

/-- **The readers agree.** A walk that comes to the end of the stream with every node closed has
read a forest, and each of its nodes has the properties and the children it has there. -/
theorem readers_agree {data : Slice} {f : Fdt} {ns : List Node} {w : Nodes} (hf : Accepted data f)
    (hwalk : Collects Nodes.next f.nodes ns w) (hdone : w.done = true) (hdepth : w.depth = 0) :
    ∃ forest last, Lays f.blob .default f.blob.structStart forest last ∧
      forest.nodes.map Prod.fst = ns ∧
      ∀ node inner, (node, inner) ∈ forest.nodes →
        (∃ it, Collects Properties.next node.properties inner.leading it) ∧
        (∀ name p, (node.property name : Checked Unit Unit Property) () = .ok p () ↔
          inner.leading.find? (·.name = name) = some p) ∧
        (∃ it it', (node.children : Checked Unit Unit Children) () = .ok it () ∧
          Collects Children.next it
            (inner.tops.map (Node.under (ownCells inner.leading node.parentCells))) it') ∧
        (inner.Plain →
          inner.tops.map (Node.under (ownCells inner.leading node.parentCells)) = inner.tops) := by
  obtain ⟨-, hsound⟩ := (wp_of_ok hf).mp (wp_new data)
  have hb := hsound.blob
  obtain ⟨ns', w', hwalk', -, hall⟩ := (Nodes.finite_next f hb).ends
  obtain ⟨rfl, rfl⟩ := hwalk.unique hwalk'
  obtain ⟨as, rfl, hcloses, -⟩ := closes_of_collects hwalk (Walk.on_new hb) hb rfl hdone hdepth
  cases hcloses with
  | @stop level pos last forest hlays =>
    refine ⟨forest, last, hlays, (forest.map_trails _).symm, fun node inner hmem => ?_⟩
    have hon := hall node (by
      rw [forest.map_trails]
      exact List.mem_map_of_mem hmem)
    obtain ⟨hblob, stop, hinner, hend⟩ := hlays.node_inner _ hmem
    have hstands : Properties.Stands f.blob inner.leading node.properties :=
      ⟨hblob, rfl, _, inner, stop, hinner, hend, rfl⟩
    obtain ⟨it, hit, -⟩ := hstands.collects
    refine ⟨⟨it, hit⟩, fun name p => ?_, ?_, fun hplain => hplain.tops_cells hinner⟩
    · obtain ⟨p', ⟨⟩, hp, hfind, -⟩ | ⟨e, ⟨⟩, hp, hfind, -⟩ :=
        exists_of_wp (hon.wp_property hit name (s := ()))
      · rw [hp, hfind]
        simp
      · rw [hp, hfind]
        simp
    · have hstands : Children.Stands f.blob (ownCells inner.leading node.parentCells) _
          ⟨node.blob, node.body, ownCells inner.leading node.parentCells, false⟩ :=
        ⟨hblob, rfl, rfl, _, inner, stop, hinner, hend, rfl⟩
      obtain ⟨it', hit', -⟩ := hstands.collects hb
      exact ⟨_, it', congrFun (hon.children_eq hit) (), hit'⟩
  | endNode _ _ hrest => cases hrest

/-- A small tree is read the same. -/
theorem readers_agree_small : ∃ f, Accepted ⟨smallTree, smallTree_fits⟩ f ∧
    ∃ forest : Forest, forest.nodes.length = 2 ∧ ∀ node inner, (node, inner) ∈ forest.nodes →
      ∃ it, Collects Properties.next node.properties inner.leading it := by
  obtain ⟨f, as, w, hf, hwalk, hlen, hdone, hdepth⟩ :=
    exists_of_walksWell ⟨smallTree, smallTree_fits⟩ 2 (by decide +kernel)
  obtain ⟨forest, last, -, hnodes, hread⟩ := readers_agree hf hwalk hdone hdepth
  refine ⟨f, hf, forest, ?_, fun node inner hmem => (hread node inner hmem).1⟩
  rw [← List.length_map (f := Prod.fst), hnodes, hlen]

end Fdt

end StarOS
