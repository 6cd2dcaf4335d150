import StarOS.Fdt.Safety

/-!
# What a walk reads

Where the linear walk comes to the end of the stream with every node closed, the tokens have laid
out a forest, and the walk has gone through its nodes in preorder. Behind a node the open nodes are
those on the way down to it, so a search by path is a search in that list.

## Main definitions

* `Fdt.Forest`, `Fdt.Lays` — a forest, and the tokens that lay it out
* `Fdt.Closes` — what is left of a walk whose nodes all end
* `Fdt.Fits` — a path and the names on the way to a node

## Main results

* `Fdt.closes_of_collects` — a walk that ends well has read a forest
* `Fdt.findNode_first` — a search finds the first node that fits
-/

namespace StarOS

namespace Fdt

open Checked

/-! ### Forests -/

/-- What is on one level of a tree: properties, and nodes with what is in them. -/
inductive Forest
  | nil
  | prop (p : Property) (rest : Forest)
  | node (n : Node) (inner rest : Forest)

namespace Forest

/-- Every node of a forest with what is in it, in preorder. -/
def nodes : Forest → List (Node × Forest)
  | nil => []
  | prop _ rest => rest.nodes
  | node n inner rest => (n, inner) :: (inner.nodes ++ rest.nodes)

/-- The same nodes, each with the names on the way to it from below the nodes `above`. -/
def trails (above : List String) : Forest → List (Node × List String)
  | nil => []
  | prop _ rest => rest.trails above
  | node n inner rest =>
    (n, above ++ [n.name]) :: (inner.trails (above ++ [n.name]) ++ rest.trails above)

theorem map_trails (f : Forest) (above : List String) :
    (f.trails above).map Prod.fst = f.nodes.map Prod.fst := by
  induction f generalizing above with
  | nil => rfl
  | prop p rest ih => exact ih above
  | node n inner rest ih ih' =>
    simp only [trails, nodes, List.map_cons, List.map_append, ih, ih']

end Forest

/-- The tokens from `pos` to `stop` lay out a forest, where `cells` are in force at `pos`. -/
inductive Lays (b : Blob) : CellCounts → ℕ → Forest → ℕ → Prop
  | nil {cells : CellCounts} {pos : ℕ} : Lays b cells pos .nil pos
  | nop {cells : CellCounts} {pos stop : ℕ} {f : Forest} : TokenAt b pos .nop →
      Lays b cells (pos + 4) f stop → Lays b cells pos f stop
  | prop {cells : CellCounts} {p : Property} {pos next stop : ℕ} {f : Forest} :
      TokenAt b pos .prop → PropAt b (pos + 4) p next → Lays b (cells.note p) next f stop →
      Lays b cells pos (.prop p f) stop
  | node {cells : CellCounts} {name : String} {pos body last stop : ℕ} {inner rest : Forest} :
      TokenAt b pos .beginNode → NameAt b (pos + 4) name body → Lays b cells body inner last →
      TokenAt b last .endNode → Lays b cells (last + 4) rest stop →
      Lays b cells pos (.node ⟨b, name, body, cells⟩ inner rest) stop

/-- A level that is open: the cells in force on it, and the names on the way to it. -/
structure Level where
  cells : CellCounts
  trail : List String

/-- The tokens from `pos` on are what is left of the levels that are open, the innermost first,
and then the stream ends. The nodes that begin on the way are `as`. -/
inductive Closes (b : Blob) : List Level → ℕ → List (Node × List String) → Prop
  | stop {level : Level} {pos last : ℕ} {f : Forest} : Lays b level.cells pos f last →
      TokenAt b last .stop → Closes b [level] pos (f.trails level.trail)
  | endNode {level : Level} {outer : List Level} {pos last : ℕ} {f : Forest}
      {as : List (Node × List String)} : Lays b level.cells pos f last → TokenAt b last .endNode →
      Closes b outer (last + 4) as → Closes b (level :: outer) pos (f.trails level.trail ++ as)

section Walk

variable {b : Blob} {cells cells' : CellCounts} {trail : List String} {outer : List Level}
  {pos pos' : ℕ} {as : List (Node × List String)}

/-- More in front of what is left. -/
theorem Closes.lift (h : Closes b (⟨cells, trail⟩ :: outer) pos as) {l : List (Node × List String)}
    (hl : ∀ f last, Lays b cells pos f last →
      ∃ f', Lays b cells' pos' f' last ∧ f'.trails trail = l ++ f.trails trail) :
    Closes b (⟨cells', trail⟩ :: outer) pos' (l ++ as) := by
  cases h with
  | stop hlays htoken =>
    obtain ⟨f', hlays', hf⟩ := hl _ _ hlays
    have hstop : Closes b [⟨cells', trail⟩] pos' (f'.trails trail) := .stop hlays' htoken
    exact hf ▸ hstop
  | endNode hlays htoken hrest =>
    obtain ⟨f', hlays', hf⟩ := hl _ _ hlays
    rw [← List.append_assoc, ← hf]
    have hend : Closes b (⟨cells', trail⟩ :: outer) pos' (f'.trails trail ++ _) :=
      .endNode hlays' htoken hrest
    exact hend

/-- A node and what is in it, in front of what is left. -/
theorem Closes.node {name : String} {body : ℕ}
    (h : Closes b (⟨cells, trail ++ [name]⟩ :: ⟨cells, trail⟩ :: outer) body as)
    (htoken : TokenAt b pos .beginNode) (hname : NameAt b (pos + 4) name body) :
    Closes b (⟨cells, trail⟩ :: outer) pos ((⟨b, name, body, cells⟩, trail ++ [name]) :: as) := by
  cases h with
  | @endNode _ _ _ last inner as hlays hend hrest =>
    refine hrest.lift
      (l := (⟨b, name, body, cells⟩, trail ++ [name]) :: inner.trails (trail ++ [name]))
      fun f stop hf => ?_
    exact ⟨.node ⟨b, name, body, cells⟩ inner f, .node htoken hname hlays hend hf, rfl⟩

namespace Walk

variable {w w' w₁ : Walk}

/-- The names of the nodes that are open, the outermost first. -/
def openNames (w : Walk) : List String := w.names.toList.take w.depth

/-- The level at the cursor. -/
def level (w : Walk) : Level := ⟨w.inForce, w.openNames⟩

/-- The levels that are open, the innermost first. -/
def levels (w : Walk) : List Level :=
  (List.range (w.depth + 1)).reverse.map fun depth => level { w with depth }

theorem levels_eq (w : Walk) : ∃ outer, w.levels = w.level :: outer := by
  rw [levels, List.range_succ, List.reverse_append]
  exact ⟨_, rfl⟩

theorem levels_of_succ {depth : ℕ} (h : w.depth = depth + 1) :
    w.levels = w.level :: ({ w with depth } : Walk).levels := by
  rw [levels, List.range_succ, List.reverse_append, h]
  simp only [List.reverse_cons, List.reverse_nil, List.nil_append, List.cons_append, List.map_cons,
    ← h, levels]

theorem openNames_node (hdepth : w.depth < maxDepth) (name : String) (pos : ℕ)
    (cells : Vector CellCounts maxDepth) :
    ({ w with
        pos, depth := w.depth + 1, names := w.names.set w.depth name hdepth,
        cells } : Walk).openNames = w.openNames ++ [name] := by
  have hlen : w.depth < w.names.toList.length := by
    rw [Vector.length_toList]
    exact hdepth
  simp [openNames, List.take_add_one, Vector.toList_set, List.take_set_of_le,
    List.getElem?_set_self hlen]

/-- What is written behind the part of the arrays that is in use. -/
theorem levels_set {depth : ℕ} (hdepth : depth < maxDepth) (hle : w.depth ≤ depth) (name : String)
    (cells : CellCounts) (pos : ℕ) :
    ({ w with
        pos, names := w.names.set depth name hdepth,
        cells := w.cells.set depth cells hdepth } : Walk).levels = w.levels := by
  refine List.map_congr_left fun k hk => ?_
  have hkle : k ≤ depth := by
    simp only [List.mem_reverse, List.mem_range] at hk
    omega
  simp [level, inForce, stack, openNames, Vector.toList_set, List.take_set_of_le hkle]

theorem levels_set_cells {depth : ℕ} (hdepth : depth < maxDepth) (hle : w.depth ≤ depth)
    (cells : CellCounts) (pos : ℕ) :
    ({ w with pos, cells := w.cells.set depth cells hdepth } : Walk).levels = w.levels := by
  refine List.map_congr_left fun k hk => ?_
  have hkle : k ≤ depth := by
    simp only [List.mem_reverse, List.mem_range] at hk
    omega
  simp [level, inForce, stack, openNames, Vector.toList_set, List.take_set_of_le hkle]

/-- The levels behind a property. -/
theorem levels_prop {depth : ℕ} (hdepth : depth < maxDepth) (h : w.depth = depth + 1)
    (cells : CellCounts) (pos : ℕ) :
    ({ w with pos, cells := w.cells.set depth cells hdepth } : Walk).levels =
      ⟨cells, w.openNames⟩ :: ({ w with depth } : Walk).levels := by
  have hcells : ({ w with pos, cells := w.cells.set depth cells hdepth } : Walk).inForce =
      cells :=
    Eq.trans (inForce_of_pos hdepth h) (Vector.getElem_set_self ..)
  refine Eq.trans (levels_of_succ h) ?_
  rw [level, hcells, levels_set_cells (w := { w with depth }) hdepth le_rfl cells pos]
  rfl

/-- The levels behind the beginning of a node. -/
theorem levels_node (hdepth : w.depth < maxDepth) (name : String) (pos : ℕ) :
    ({ w with
        pos, depth := w.depth + 1, names := w.names.set w.depth name hdepth,
        cells := w.cells.set w.depth w.inForce hdepth } : Walk).levels =
      ⟨w.inForce, w.openNames ++ [name]⟩ :: w.levels := by
  have hcells : ({ w with
      pos, depth := w.depth + 1, names := w.names.set w.depth name hdepth,
      cells := w.cells.set w.depth w.inForce hdepth } : Walk).inForce = w.inForce :=
    Eq.trans (inForce_of_pos hdepth rfl) (Vector.getElem_set_self ..)
  refine Eq.trans (levels_of_succ rfl) ?_
  rw [level, hcells, openNames_node, levels_set hdepth le_rfl name w.inForce pos]

/-- What one token adds to what is left. -/
theorem Went.closes (h : w.Went (.inl ()) w') (hon : w.On b)
    (hleft : Closes b w'.levels w'.pos as) : Closes b w.levels w.pos as := by
  obtain rfl := hon.blob_eq
  have hdepth := hon.depth_le
  cases h with
  | nop htoken =>
    obtain ⟨outer, houter⟩ := w.levels_eq
    have hsame : ({ w with pos := w.pos + 4 } : Walk).levels = w.levels := rfl
    rw [hsame, houter] at hleft
    rw [houter]
    exact hleft.lift (l := []) fun f last hf => ⟨f, .nop htoken hf, rfl⟩
  | @endNode depth htoken heq =>
    rw [levels_of_succ heq]
    exact .endNode (f := .nil) .nil htoken hleft
  | @prop p stop depth hlt htoken hprop heq =>
    rw [levels_of_succ heq, level, inForce_of_pos hlt heq]
    rw [levels_prop hlt heq] at hleft
    exact hleft.lift (l := []) fun f last hf => ⟨.prop p f, .prop htoken hprop hf, rfl⟩

theorem Went.closes_node {node : Node} (h : w.Went (.inr (some node)) w') (hon : w.On b)
    (hleft : Closes b w'.levels w'.pos as) :
    Closes b w.levels w.pos ((node, w'.openNames) :: as) := by
  obtain rfl := hon.blob_eq
  obtain ⟨outer, houter⟩ := w.levels_eq
  cases h with
  | @beginNode name stop hlt htoken hname =>
    rw [levels_node, houter] at hleft
    rw [houter, openNames_node]
    exact hleft.node htoken hname

theorem Went.closes_stop (h : w.Went (.inr none) w') (hon : w.On b) (hdone : w.done = false)
    (hdone' : w'.done = true) (hdepth : w'.depth = 0) : Closes b w.levels w.pos [] := by
  obtain rfl := hon.blob_eq
  cases h with
  | ended =>
    rw [hdone] at hdone'
    cases hdone'
  | stop htoken =>
    have hlevels : w.levels = [level { w with depth := 0 }] := by
      have hzero : w.depth = 0 := hdepth
      rw [levels, hzero]
      rfl
    rw [hlevels]
    exact .stop (f := .nil) .nil htoken

theorem Skips.closes (h : w.Skips w₁) (hon : w.On b) (hb : b.Sound)
    (hleft : Closes b w₁.levels w₁.pos as) : Closes b w.levels w.pos as := by
  induction h using Relation.ReflTransGen.head_induction_on with
  | refl => exact hleft
  | @head w w₂ hstep _ ih => exact hstep.closes hon (ih (hon.blob_eq ▸ (hstep.after hon hb).on))

end Walk

/-- The next node, with the names of the nodes that are open then. -/
def Nodes.nextTrail : Checked Nodes Unit (Node × List String) := do
  let node ← Nodes.next
  return (node, (← get).openNames)

/-- The next node, and what came before it. -/
theorem Nodes.wp_went {w : Nodes} (h : Walk.On b w) (hb : b.Sound) :
    wp False Nodes.next
      (fun node w' => ∃ w₁ : Walk, Walk.Skips w w₁ ∧ w₁.Went (.inr (some node)) w')
      (fun _ w' => w'.done = w.done ∨ ∃ w₁ : Walk, Walk.Skips w w₁ ∧ w₁.Went (.inr none) w') w := by
  rw [next, wp_bind, wp_mapErr]
  refine wp_mono (Walk.wp_nextNode h hb) (fun r w' hr => ?_) fun _ w' hw' => .inl hw'.2
  obtain ⟨⟨w₁, hskips, hwent⟩, -⟩ := hr
  rw [wp_ofOption]
  exact ⟨fun node hnode => ⟨w₁, hskips, hnode ▸ hwent⟩,
    fun hnone => .inr ⟨w₁, hskips, hnone ▸ hwent⟩⟩

/-- **A walk that ends well** has read a forest. -/
theorem closes_of_collects {w w' : Nodes} {ns : List Node} (h : Collects Nodes.next w ns w')
    (hon : Walk.On b w) (hb : b.Sound) (hdone : w.done = false) (hdone' : w'.done = true)
    (hdepth : w'.depth = 0) :
    ∃ as, as.map Prod.fst = ns ∧ Closes b w.levels w.pos as ∧
      Collects Nodes.nextTrail w as w' := by
  induction h with
  | @nil w w' hnext =>
    obtain heq | ⟨w₁, hskips, hwent⟩ := (wp_of_fail hnext).mp (Nodes.wp_went hon hb)
    · rw [hdone, hdone'] at heq
      cases heq
    · obtain ⟨hafter, -, hsame⟩ := hskips.after hon hb
      have hon₁ : w₁.On b := hon.blob_eq ▸ hafter.on
      have hstop := hwent.closes_stop hon₁ (hsame.trans hdone) hdone' hdepth
      exact ⟨[], rfl, hskips.closes hon hb hstop, .nil (bind_of_error hnext)⟩
  | @cons w w₂ w' node ns hnext _ ih =>
    obtain ⟨w₁, hskips, hwent⟩ := (wp_of_ok hnext).mp (Nodes.wp_went hon hb)
    obtain ⟨hafter, -, hsame⟩ := hskips.after hon hb
    have hon₁ : w₁.On b := hon.blob_eq ▸ hafter.on
    have hon₂ : Walk.On b w₂ := hon₁.blob_eq ▸ (hwent.after hon₁ hb).on
    have hdone₂ : w₂.done = false := by
      refine Eq.trans ?_ (hsame.trans hdone)
      cases hwent
      rfl
    obtain ⟨as, rfl, hcloses, hcollects⟩ := ih hon₂ hdone₂ hdone' hdepth
    exact ⟨(node, w₂.openNames) :: as, rfl, hskips.closes hon hb (hwent.closes_node hon₁ hcloses),
      .cons (bind_of_ok hnext) hcollects⟩

end Walk

/-! ### Looking for a node -/

/-- Do the components of a path fit the names on the way down? -/
def Fits : List (List Char) → List String → Bool
  | [], [] => true
  | component :: rest, name :: names => nameMatches name component && Fits rest names
  | [], _ :: _ | _ :: _, [] => false

section Find

variable {b : Blob} {w w' : Walk} {path : String} {as : List (Node × List String)}

theorem Walk.length_openNames (hdepth : w.depth ≤ maxDepth) : w.openNames.length = w.depth := by
  rw [openNames, List.length_take, Vector.length_toList, Nat.min_eq_left hdepth]

/-- Comparing a path with the open nodes is comparing it with their names. -/
theorem Walk.wp_fits {σ : Type} {s : σ} (hdepth : w.depth ≤ maxDepth) (comps : List (List Char))
    {level : ℕ} (hle : level ≤ w.depth) :
    wp False (w.matchesFrom comps level)
      (fun r s' => r = Fits comps (w.openNames.drop level) ∧ s' = s) (fun _ _ => False) s := by
  have hlen := length_openNames hdepth
  induction comps generalizing level with
  | nil =>
    rw [matchesFrom, wp_pure]
    refine ⟨?_, rfl⟩
    by_cases heq : level = w.depth
    · rw [List.drop_of_length_le (by omega), Fits, decide_eq_true heq]
    · rw [List.drop_eq_getElem_cons (by omega), Fits, decide_eq_false heq]
  | cons component rest ih =>
    rw [matchesFrom, wp_ite]
    refine ⟨fun hend => (wp_pure _).mpr ⟨?_, rfl⟩, fun hlt => ?_⟩
    · rw [List.drop_of_length_le (by omega), Fits]
    · have hlevel : level < w.names.toList.length := by
        rw [Vector.length_toList]
        omega
      have hopen : level < w.openNames.length := by omega
      have hname : w.names.toList[level] = w.openNames[level] := by
        simp only [openNames, List.getElem_take]
      rw [wp_bind, wp_index]
      refine ⟨_, List.getElem?_eq_getElem hlevel, ?_⟩
      rw [List.drop_eq_getElem_cons (by omega), Fits, ← hname, wp_ite, wp_bind, wp_add, wp_pure]
      rw [Vector.length_toList, maxDepth] at hlevel
      refine ⟨fun hmatch => ⟨by omega, ?_⟩, fun hmatch => ⟨?_, rfl⟩⟩
      · rw [hmatch, Bool.true_and]
        exact ih (by omega)
      · rw [Bool.eq_false_iff.mpr hmatch, Bool.false_and]

/-- One node of a search. -/
theorem wp_findStep (hon : w.On b) (hb : b.Sound) {Q : Unit ⊕ Node → Walk → Prop}
    {F : Unit → Walk → Prop}
    (h : wp False Nodes.nextTrail (fun x w' =>
      Q (if Fits (components path) x.2.tail then .inr x.1 else .inl ()) w') F w) :
    wp False (findStep path) Q F w := by
  rw [Nodes.nextTrail, wp_bind, Nodes.next, wp_bind, wp_mapErr] at h
  rw [findStep, wp_bind, wp_mapErr]
  refine wp_mono (wp_and h (Walk.wp_nextNode hon hb)) (fun r w' hr => ?_) fun _ _ hr => hr.1
  obtain ⟨hQ, hwent, hafter, -⟩ := hr
  cases r with
  | none =>
    rw [wp_ofOption_none] at hQ
    rwa [wp_bind, wp_ofOption_none]
  | some node =>
    have hdepth : w'.depth ≤ maxDepth := hafter.on.depth_le
    have hpos : 1 ≤ w'.depth := by
      obtain ⟨w₁, -, ⟨⟩⟩ := hwent
      exact Nat.le_add_left _ _
    rw [wp_ofOption_some, wp_bind, wp_get, wp_pure, ← List.drop_one] at hQ
    rw [wp_bind, wp_ofOption_some, wp_bind, wp_get, wp_bind, wp_mapErr]
    refine wp_mono (Walk.wp_fits hdepth (components path) hpos) (fun r s' hr => ?_)
      fun _ _ hfalse => hfalse.elim
    obtain ⟨rfl, rfl⟩ := hr
    rw [wp_ite, wp_pure, wp_pure]
    refine ⟨fun hfits => ?_, fun hfits => ?_⟩
    · rwa [if_pos hfits] at hQ
    · rwa [if_neg hfits] at hQ

/-- Searching is searching the list of the nodes that are still to come. -/
theorem wp_findFrom (h : Collects Nodes.nextTrail w as w') (hon : w.On b) (hb : b.Sound) {n : ℕ}
    (hn : as.length < n) :
    wp False (loop (fun _ => findStep path) n ())
      (fun node _ => (as.find? fun x => Fits (components path) x.2.tail).map Prod.fst = some node)
      (fun _ _ => (as.find? fun x => Fits (components path) x.2.tail) = none) w := by
  induction h generalizing n with
  | nil hx =>
    obtain ⟨n, rfl⟩ := Nat.exists_eq_succ_of_ne_zero (Nat.ne_zero_of_lt hn)
    rw [loop, wp_bind]
    exact wp_findStep hon hb ((wp_of_fail hx).mpr rfl)
  | @cons w w₁ w' x as hx _ ih =>
    obtain ⟨n, rfl⟩ := Nat.exists_eq_succ_of_ne_zero (Nat.ne_zero_of_lt hn)
    have hon₁ : w₁.On b := by
      have hnext := Nodes.wp_next hon hb
      have hx' : wp False Nodes.nextTrail (fun _ w' => Walk.On b w') (fun _ _ => True) w := by
        rw [Nodes.nextTrail, wp_bind]
        refine wp_mono hnext (fun _ w' hw' => ?_) fun _ _ _ => trivial
        rw [wp_bind, wp_get, wp_pure]
        exact hw'.1
      exact (wp_of_ok hx).mp hx'
    rw [loop, wp_bind]
    refine wp_findStep hon hb ((wp_of_ok hx).mpr ?_)
    cases hfits : Fits (components path) x.2.tail with
    | true => simp [hfits]
    | false =>
      simp only [hfits, List.find?_cons, Bool.false_eq_true, if_false]
      exact ih hon₁ (Nat.lt_of_succ_lt_succ hn)

end Find

/-- **A search by path** finds the first node that fits, in the order of the blob, and fails only if
there is none. -/
theorem findNode_first {data : Slice} {f : Fdt} {ns : List Node} {w : Nodes} (hf : Accepted data f)
    (hwalk : Collects Nodes.next f.nodes ns w) (hdone : w.done = true) (hdepth : w.depth = 0) :
    ∃ forest last, Lays f.blob .default f.blob.structStart forest last ∧
      forest.nodes.map Prod.fst = ns ∧
      ∀ (path : String) (w₀ : Walk),
        (∀ node, (∃ w₁, findNode f path w₀ = .ok node w₁) ↔ ((forest.trails []).find? fun x =>
          Fits (components path) x.2.tail).map Prod.fst = some node) := by
  obtain ⟨-, hsound⟩ := (wp_of_ok hf).mp (wp_new data)
  have hb := hsound.blob
  obtain ⟨as, rfl, hcloses, hcollects⟩ :=
    closes_of_collects hwalk (Walk.on_new hb) hb rfl hdone hdepth
  have hlen : as.length < f.blob.data.len + 1 := by
    obtain ⟨ns', w', hwalk', hlen, -⟩ := (Nodes.finite_next f hb).ends
    obtain ⟨rfl, rfl⟩ := hwalk.unique hwalk'
    have hahead : f.nodes.ahead ≤ f.blob.data.len := Nat.sub_le _ _
    rw [List.length_map] at hlen
    omega
  cases hcloses with
  | @stop level pos last forest hlays =>
    refine ⟨forest, last, hlays, (forest.map_trails _).symm, fun path w₀ node => ?_⟩
    have hfind : wp False (findNode f path)
        (fun node _ => ((forest.trails []).find? fun x =>
          Fits (components path) x.2.tail).map Prod.fst = some node)
        (fun _ _ => ((forest.trails []).find? fun x =>
          Fits (components path) x.2.tail) = none) w₀ := by
      rw [findNode, wp_bind, wp_set]
      exact wp_findFrom hcollects (Walk.on_new hb) hb hlen
    constructor
    · rintro ⟨w₁, hx⟩
      exact (wp_of_ok hx).mp hfind
    · intro hsome
      obtain ⟨node', w', hx, hnode⟩ | ⟨e, w', hx, hnone⟩ := exists_of_wp hfind
      · rw [hnode, Option.some.injEq] at hsome
        exact ⟨w', hsome ▸ hx⟩
      · rw [hnone] at hsome
        cases hsome
  | endNode _ _ hrest => cases hrest

/-- A blob with a root, a property of it and a child. -/
def smallTree : List UInt8 :=
  [0xd0, 0x0d, 0xfe, 0xed, 0, 0, 0, 104, 0, 0, 0, 56, 0, 0, 0, 100, 0, 0, 0, 40, 0, 0, 0, 17,
    0, 0, 0, 16, 0, 0, 0, 0, 0, 0, 0, 4, 0, 0, 0, 44,
    0, 0, 0, 0, 0, 0, 0, 0, 0, 0, 0, 0, 0, 0, 0, 0,
    0, 0, 0, 1, 0, 0, 0, 0, 0, 0, 0, 3, 0, 0, 0, 1, 0, 0, 0, 0, 7, 0, 0, 0,
    0, 0, 0, 1, 0x61, 0, 0, 0, 0, 0, 0, 2, 0, 0, 0, 2, 0, 0, 0, 9,
    0x6f, 0x6b, 0, 0]

theorem smallTree_fits : smallTree.length < 2 ^ 63 := by
  decide

/-- The tree is accepted, and a walk of `n` nodes comes to the end of the stream with every node
closed. -/
def walksWell (data : Slice) (n : ℕ) : Bool :=
  match (new data : Checked Unit FdtError Fdt) () with
  | .ok f _ => (gather Nodes.next (n + 1) f.nodes).any fun r =>
    r.1.length = n ∧ r.2.done = true ∧ r.2.depth = 0
  | .error _ _ => false

theorem exists_of_walksWell (data : Slice) (n : ℕ) (h : walksWell data n = true) :
    ∃ f as w, Accepted data f ∧ Collects Nodes.next f.nodes as w ∧ as.length = n ∧
      w.done = true ∧ w.depth = 0 := by
  rw [walksWell] at h
  split at h
  · next f _ hf =>
    obtain ⟨⟨as, w⟩, hgather, hend⟩ := (Option.any_eq_true _ _).mp h
    rw [decide_eq_true_eq] at hend
    exact ⟨f, as, w, hf, collects_of_gather hgather, hend⟩
  · cases h

/-- A search in the small tree. -/
theorem findNode_first_small : ∃ f, Accepted ⟨smallTree, smallTree_fits⟩ f ∧
    ∃ forest : Forest, forest.nodes.length = 2 ∧ ∀ (path : String) (w₀ : Walk) (node : Node),
      (∃ w₁, findNode f path w₀ = .ok node w₁) ↔ ((forest.trails []).find? fun x =>
        Fits (components path) x.2.tail).map Prod.fst = some node := by
  obtain ⟨f, as, w, hf, hwalk, hlen, hdone, hdepth⟩ :=
    exists_of_walksWell ⟨smallTree, smallTree_fits⟩ 2 (by decide +kernel)
  obtain ⟨forest, last, -, hnodes, hfind⟩ := findNode_first hf hwalk hdone hdepth
  refine ⟨f, hf, forest, ?_, hfind⟩
  rw [← List.length_map (f := Prod.fst), hnodes, hlen]

end Fdt

end StarOS
