import StarOS.Fdt.Blob

/-!
# The linear walk over a device tree

The walk goes through the tokens from the first to the last, and keeps on the way the names of the
nodes that are open and the cell counts in force for their children, in two arrays. It needs no
recursion. What the tokens say is not trusted: a node that would not fit the arrays ends the walk,
and so does the end of a node where none is open.

## Main definitions

* `Fdt.Token`, `Fdt.Node`, `Fdt.Walk`
* `Fdt.Walk.nextNode`, with `Fdt.Walk.step` for one token
* `Fdt.Nodes.next`, `Fdt.root`, `Fdt.findNode`

## Main results

* `Fdt.Walk.wp_step`, `Fdt.Walk.wp_nextNode` — a walk stays in the blob and in its arrays
* `Fdt.Nodes.finite_next`
* `Fdt.wp_findNode`
-/

namespace StarOS

namespace Fdt

open Checked

/-- Maximum node nesting that is tracked. -/
def maxDepth : ℕ := 32

/-- What a node that does not say has. -/
def defaultAddressCells : BitVec 32 := 2
def defaultSizeCells : BitVec 32 := 1

/-- The tokens of the structure block. -/
inductive Token
  | beginNode
  | endNode
  | prop
  | nop
  | stop
  | unknown
  deriving DecidableEq, Repr

def Token.of (word : BitVec 32) : Token :=
  if word = 1 then .beginNode
  else if word = 2 then .endNode
  else if word = 3 then .prop
  else if word = 4 then .nop
  else if word = 9 then .stop
  else .unknown

/-- The address and size cells of a node's children. -/
structure CellCounts where
  address : BitVec 32
  size : BitVec 32
  deriving DecidableEq, Repr

def CellCounts.default : CellCounts := ⟨defaultAddressCells, defaultSizeCells⟩

/-- A node: where its first token is, and the cells its parent imposed. -/
structure Node where
  blob : Blob
  name : String
  body : ℕ
  parentCells : CellCounts
  deriving DecidableEq

/-- A property: a name and bytes. -/
structure Property where
  name : String
  value : Slice
  deriving DecidableEq

/-- A cursor over the structure block that tracks node nesting. -/
structure Walk where
  blob : Blob
  pos : ℕ
  /-- Number of nodes currently open. -/
  depth : ℕ
  /-- Name of the node open at each level. -/
  names : Vector String maxDepth
  /-- In force for the children of the node open at each level. -/
  cells : Vector CellCounts maxDepth
  /-- Set once the token stream has ended. -/
  done : Bool

namespace Walk

def new (blob : Blob) : Walk where
  blob := blob
  pos := blob.structStart
  depth := 0
  names := .replicate maxDepth ""
  cells := .replicate maxDepth .default
  done := false

/-- Read the name behind the beginning of a node. -/
def readName : Checked Walk FdtError String := do
  let self ← get
  let region ← ofOption .truncated (self.blob.data.get self.pos self.blob.structEnd)
  let len ← ofOption .badStructure (position region)
  let head ← region.range 0 len
  let name ← ofOption .badString (fromUtf8 head.bytes)
  let next ← ofOption .truncated (checkedAdd 64 self.pos (← add 64 len 1))
  set { self with pos := ← ofOption .truncated (align4 next) }
  return name

/-- Read the length, the offset of the name and the value behind the token of a property. -/
def readProp : Checked Walk FdtError (String × Slice) := do
  let self ← get
  let len := (← truncated (readBeU32 self.blob.data self.pos)).toNat
  let nameoff := (← truncated (readBeU32 self.blob.data (← add 64 self.pos 4))).toNat
  let valueStart ← add 64 self.pos 8
  let valueEnd ← ofOption .truncated (checkedAdd 64 valueStart len)
  let value ← ofOption .truncated (self.blob.data.get valueStart valueEnd)
  let name ← self.blob.stringAt nameoff
  set { self with pos := ← ofOption .truncated (align4 valueEnd) }
  return (name, value)

/-- The cells a node has from its parent. -/
def inherited (w : Walk) : Checked Walk FdtError CellCounts :=
  if w.depth = 0 then pure .default
  else do index w.cells.toList (← sub w.depth 1)

/-- A node begins. Its children have its parent's cells until it says otherwise. -/
def openNode : Checked Walk FdtError Node := do
  let name ← readName
  let self ← get
  require (self.depth < maxDepth) .tooDeep
  let inherited ← self.inherited
  let names ← store self.names self.depth name
  let cells ← store self.cells self.depth inherited
  set { self with names, cells, depth := ← add 64 self.depth 1 }
  return ⟨self.blob, name, self.pos, inherited⟩

/-- The cells of the open node, with what a property says of them. -/
def noteCells (name : String) (value : Slice) : Checked Walk FdtError Unit := do
  let self ← get
  let level ← ofOption .badStructure (checkedSub self.depth 1)
  match ← attempt (readBeU32 value 0) with
  | none => return ()
  | some n =>
    if name = "#address-cells" then
      let old ← index self.cells.toList level
      set { self with cells := ← store self.cells level { old with address := n } }
    else if name = "#size-cells" then
      let old ← index self.cells.toList level
      set { self with cells := ← store self.cells level { old with size := n } }
    else return ()

/-- One token. The walk goes on, or it has come to a node or to its end. -/
def step : Checked Walk FdtError (Unit ⊕ Option Node) := do
  let self ← get
  if self.done ∨ self.blob.structEnd ≤ self.pos then return .inr none
  else
    let token ← truncated (readBeU32 self.blob.data self.pos)
    set { self with pos := ← add 64 self.pos 4 }
    match Token.of token with
    | .nop => return .inl ()
    | .stop =>
      modify fun w => { w with done := true }
      return .inr none
    | .endNode =>
      let depth ← ofOption .badStructure (checkedSub self.depth 1)
      modify fun w => { w with depth }
      return .inl ()
    | .beginNode =>
      let node ← openNode
      return .inr (some node)
    | .prop =>
      let (name, value) ← readProp
      noteCells name value
      return .inl ()
    | .unknown => fail .badStructure

/-- Advance to the next node that begins. A token takes space. -/
def nextNode : Checked Walk FdtError (Option Node) := do
  let self ← get
  loop (fun _ => step) (self.blob.data.len + 1) ()

end Walk

/-- The name at its first `c`. -/
def splitOnce (c : Char) (name : String) : Option (List Char × List Char) :=
  match name.toList.span (· ≠ c) with
  | (_, []) => none
  | (base, _ :: unit) => some (base, unit)

/-- A component of a path without a unit address stands for any. -/
def nameMatches (name : String) (component : List Char) : Bool :=
  if name.toList = component then true
  else match splitOnce '@' name with
    | some (base, _) => base = component ∧ '@' ∉ component
    | none => false

/-- The components of a path. -/
def components (path : String) : List (List Char) := (path.toList.splitOn '/').filter (· ≠ [])

/-- Are the open nodes from `level` on these components? -/
def Walk.matchesFrom (w : Walk) {σ : Type} : List (List Char) → ℕ → Checked σ FdtError Bool
  | [], level => return level = w.depth
  | component :: rest, level => do
    if w.depth ≤ level then return false
    else
      let name ← index w.names.toList level
      if nameMatches name component then matchesFrom w rest (← add 64 level 1)
      else return false

/-- Does the node that is open sit at exactly `path`? The root's own name is empty. -/
def Walk.matchesPath (w : Walk) {σ : Type} (path : String) : Checked σ FdtError Bool :=
  w.matchesFrom (components path) 1

/-- Iterator over every node in the tree, depth-first. -/
abbrev Nodes := Walk

/-- A malformed blob ends the iteration. -/
def Nodes.next : Checked Nodes Unit Node := do
  ofOption () (← mapErr (fun _ => ()) Walk.nextNode)

def nodes (f : Fdt) : Nodes := Walk.new f.blob

/-- The root node. -/
def root (f : Fdt) : Checked Walk FdtError Node := do
  set (Walk.new f.blob)
  ofOption .badStructure (← Walk.nextNode)

/-- One node of a search by path. -/
def findStep (path : String) : Checked Walk Unit (Unit ⊕ Node) := do
  let node ← ofOption () (← mapErr (fun _ => ()) Walk.nextNode)
  let self ← get
  if ← mapErr (fun _ => ()) (self.matchesPath path) then return .inr node
  else return .inl ()

/-- Find a node by absolute path. -/
def findNode (f : Fdt) (path : String) : Checked Walk Unit Node := do
  set (Walk.new f.blob)
  loop (fun _ => findStep path) (f.blob.data.len + 1) ()

/-! ### What stands in the tokens -/

/-- A token. -/
def TokenAt (b : Blob) (pos : ℕ) (t : Token) : Prop :=
  ∃ word, beU32 b.data pos = some word ∧ Token.of word = t

/-- The name of a node, with `stop` behind it. -/
def NameAt (b : Blob) (pos : ℕ) (name : String) (stop : ℕ) : Prop :=
  ∃ region len, b.data.get pos b.structEnd = some region ∧ Cstr region len name ∧
    align4 (pos + (len + 1)) = some stop

/-- A property, with `stop` behind it. -/
def PropAt (b : Blob) (pos : ℕ) (p : Property) (stop : ℕ) : Prop :=
  ∃ len nameoff, beU32 b.data pos = some len ∧ beU32 b.data (pos + 4) = some nameoff ∧
    b.data.get (pos + 8) (pos + 8 + len.toNat) = some p.value ∧ b.StringAt nameoff.toNat p.name ∧
    align4 (pos + 8 + len.toNat) = some stop

/-- The cells in force behind a property. -/
def CellCounts.note (cells : CellCounts) (p : Property) : CellCounts :=
  match beU32 p.value 0 with
  | none => cells
  | some n =>
    if p.name = "#address-cells" then { cells with address := n }
    else if p.name = "#size-cells" then { cells with size := n }
    else cells

/-- A property of a blob. -/
structure Property.On (b : Blob) (p : Property) : Prop where
  name : utf8 p.name <:+: b.data.bytes
  value : p.value.bytes <:+: b.data.bytes

/-- A node of a blob. -/
structure Node.On (b : Blob) (node : Node) : Prop where
  blob_eq : node.blob = b
  body_le : node.body ≤ b.data.len + 3
  part : utf8 node.name <:+: b.data.bytes

section At

variable {b : Blob} {pos stop : ℕ} {t : Token} {name : String} {p : Property}

theorem TokenAt.le (h : TokenAt b pos t) : pos + 4 ≤ b.data.len := by
  obtain ⟨word, hword, -⟩ := h
  exact beU32_eq_some hword

theorem NameAt.bounds (h : NameAt b pos name stop) (hb : b.Sound) :
    pos < stop ∧ stop ≤ b.data.len + 3 := by
  obtain ⟨region, len, hregion, hname, hstop⟩ := h
  obtain ⟨⟨-, hend⟩, -⟩ := Slice.get_eq_some.mp hregion
  have hlen := Slice.len_of_get hregion
  have hlt := position_lt hname.stop
  have hstruct := hb.struct_le
  obtain ⟨hge, hle, -⟩ := align4_eq_some hstop
  omega

theorem NameAt.text_part (h : NameAt b pos name stop) : utf8 name <:+: b.data.bytes := by
  obtain ⟨region, len, hregion, hname, -⟩ := h
  exact hname.text_part.trans (Slice.get_infix hregion)

theorem PropAt.bounds (h : PropAt b pos p stop) : pos + 8 ≤ stop ∧ stop ≤ b.data.len + 3 := by
  obtain ⟨len, nameoff, -, -, hvalue, -, hstop⟩ := h
  obtain ⟨⟨-, hend⟩, -⟩ := Slice.get_eq_some.mp hvalue
  obtain ⟨hge, hle, -⟩ := align4_eq_some hstop
  omega

end At

/-! ### Any bytes at all -/

namespace Walk

/-- Where a walk over a blob may stand. -/
structure On (b : Blob) (w : Walk) : Prop where
  blob_eq : w.blob = b
  pos_le : w.pos ≤ b.data.len + 3
  depth_le : w.depth ≤ maxDepth

/-- How much of the blob is ahead. -/
def ahead (w : Walk) : ℕ := w.blob.data.len - w.pos

/-- The cells in force for the children of each node that is open, the innermost first. -/
def stack (w : Walk) : List CellCounts := (w.cells.toList.take w.depth).reverse

/-- The cells in force at the cursor. -/
def inForce (w : Walk) : CellCounts := w.stack.headD .default

/-- The same walk, not before where it was. -/
structure After (w w' : Walk) : Prop where
  on : w'.On w.blob
  pos_le : w.pos ≤ w'.pos

/-- What a token does to a walk. -/
inductive Went (w : Walk) : Unit ⊕ Option Node → Walk → Prop
  | ended : w.done = true ∨ w.blob.structEnd ≤ w.pos → Went w (.inr none) w
  | nop : TokenAt w.blob w.pos .nop → Went w (.inl ()) { w with pos := w.pos + 4 }
  | stop : TokenAt w.blob w.pos .stop →
      Went w (.inr none) { w with pos := w.pos + 4, done := true }
  | endNode {depth : ℕ} : TokenAt w.blob w.pos .endNode → w.depth = depth + 1 →
      Went w (.inl ()) { w with pos := w.pos + 4, depth }
  | beginNode {name : String} {stop : ℕ} (hdepth : w.depth < maxDepth) :
      TokenAt w.blob w.pos .beginNode → NameAt w.blob (w.pos + 4) name stop →
      Went w (.inr (some ⟨w.blob, name, stop, w.inForce⟩))
        { w with
          pos := stop
          depth := w.depth + 1
          names := w.names.set w.depth name hdepth
          cells := w.cells.set w.depth w.inForce hdepth }
  | prop {p : Property} {stop depth : ℕ} (hdepth : depth < maxDepth) :
      TokenAt w.blob w.pos .prop → PropAt w.blob (w.pos + 4) p stop → w.depth = depth + 1 →
      Went w (.inl ())
        { w with pos := stop, cells := w.cells.set depth (w.cells[depth].note p) hdepth }

variable {b : Blob} {w w' : Walk}

theorem wp_readName (h : w.On b) (hb : b.Sound) :
    wp False readName
      (fun name w' => ∃ stop, w' = { w with pos := stop } ∧ NameAt b w.pos name stop)
      (fun _ w' => w' = w) w := by
  obtain rfl := h.blob_eq
  have hlen := w.blob.data.len_lt
  have hstruct := hb.struct_le
  rw [readName, wp_bind, wp_get, wp_bind, wp_ofOption]
  refine ⟨fun region hregion => ?_, fun _ => rfl⟩
  obtain ⟨⟨-, hend⟩, -⟩ := Slice.get_eq_some.mp hregion
  have hregionLen := Slice.len_of_get hregion
  rw [wp_bind, wp_ofOption]
  refine ⟨fun len hposition => ?_, fun _ => rfl⟩
  have hlt := position_lt hposition
  simp only [wp_bind]
  refine wp_cstr hposition (fun name hname => ?_) fun _ => rfl
  simp only [wp_add, wp_ofOption, wp_set, wp_pure]
  refine ⟨by omega, fun next hnext => ⟨fun stop hstop => ?_, fun _ => trivial⟩, fun _ => trivial⟩
  obtain ⟨-, rfl⟩ := checkedAdd_eq_some.mp hnext
  exact ⟨stop, rfl, region, len, hregion, hname, hstop⟩

theorem wp_readProp (h : w.On b) :
    wp False readProp (fun x w' => ∃ stop, w' = { w with pos := stop } ∧
      PropAt b w.pos ⟨x.1, x.2⟩ stop) (fun _ w' => w' = w) w := by
  obtain rfl := h.blob_eq
  have hlen := w.blob.data.len_lt
  have hpos := h.pos_le
  rw [readProp, wp_bind, wp_get, wp_bind, truncated, wp_mapErr, wp_readBeU32]
  refine ⟨fun len hlenAt => ?_, fun _ => rfl⟩
  rw [wp_bind, wp_add]
  refine ⟨by omega, ?_⟩
  rw [wp_bind, truncated, wp_mapErr, wp_readBeU32]
  refine ⟨fun nameoff hnameoff => ?_, fun _ => rfl⟩
  rw [wp_bind, wp_add]
  refine ⟨by omega, ?_⟩
  rw [wp_bind, wp_ofOption]
  refine ⟨fun valueEnd hvalueEnd => ?_, fun _ => rfl⟩
  obtain ⟨-, rfl⟩ := checkedAdd_eq_some.mp hvalueEnd
  rw [wp_bind, wp_ofOption]
  refine ⟨fun value hvalue => ?_, fun _ => rfl⟩
  rw [wp_bind]
  refine wp_stringAt _ _ (fun name hname => ?_) fun _ _ => rfl
  rw [wp_bind, wp_ofOption]
  refine ⟨fun stop hstop => ?_, fun _ => rfl⟩
  rw [wp_bind, wp_set, wp_pure]
  exact ⟨stop, rfl, len, nameoff, hlenAt, hnameoff, hvalue, hname, hstop⟩

theorem inForce_of_pos {depth : ℕ} (hdepth : depth < maxDepth) (h : w.depth = depth + 1) :
    w.inForce = w.cells[depth] := by
  rw [inForce, stack, h, List.take_add_one]
  simp [Vector.getElem?_toList, Vector.getElem?_eq_getElem hdepth]

theorem inForce_of_zero (h : w.depth = 0) : w.inForce = .default := by
  rw [inForce, stack, h]
  rfl

/-- The cells a node has from its parent are those in force where it begins. -/
theorem wp_inherited (h : w.On b) {Q : CellCounts → Walk → Prop} {F : FdtError → Walk → Prop}
    {s : Walk} (hQ : Q w.inForce s) : wp False w.inherited Q F s := by
  have hdepth := h.depth_le
  rw [inherited, wp_ite]
  refine ⟨fun hzero => ?_, fun hne => ?_⟩
  · rw [wp_pure, ← inForce_of_zero hzero]
    exact hQ
  · rw [wp_bind, wp_sub]
    refine ⟨by omega, ?_⟩
    have hlevel : w.depth - 1 < maxDepth := by omega
    rw [wp_index]
    refine ⟨w.inForce, ?_, hQ⟩
    rw [inForce_of_pos hlevel (by omega), Vector.getElem?_toList,
      Vector.getElem?_eq_getElem hlevel]

/-- A node that begins finds its place in the arrays, or is refused. -/
theorem wp_openNode (h : w.On b) (hb : b.Sound) :
    wp False openNode (fun node w' => ∃ name stop, ∃ hdepth : w.depth < maxDepth,
      NameAt b w.pos name stop ∧ node = ⟨b, name, stop, w.inForce⟩ ∧
        w' = { w with
          pos := stop
          depth := w.depth + 1
          names := w.names.set w.depth name hdepth
          cells := w.cells.set w.depth w.inForce hdepth })
      (fun _ w' => w.After w' ∧ w'.done = w.done) w := by
  obtain rfl := h.blob_eq
  have hstay : w.After w ∧ w.done = w.done := ⟨⟨h, le_rfl⟩, rfl⟩
  rw [openNode, wp_bind]
  refine wp_mono (wp_readName h hb) (fun name w' hname => ?_) fun _ w' hw' => hw'.symm ▸ hstay
  obtain ⟨stop, rfl, hname⟩ := hname
  obtain ⟨hlt, hle⟩ := hname.bounds hb
  have hmoved : ({ w with pos := stop } : Walk).On w.blob := ⟨rfl, hle, h.depth_le⟩
  rw [wp_bind, wp_get, wp_bind, wp_require]
  refine ⟨fun hdepth => ?_, fun _ => ⟨⟨hmoved, hlt.le⟩, rfl⟩⟩
  have hdepth' : w.depth < maxDepth := hdepth
  rw [wp_bind]
  refine wp_inherited hmoved ?_
  simp only [wp_bind, wp_store hdepth, wp_add, wp_set, wp_pure]
  refine ⟨?_, name, stop, hdepth', hname, rfl, rfl⟩
  rw [maxDepth] at hdepth'
  omega

/-- What a property says of the cells changes nothing else. -/
theorem wp_noteCells (h : w.On b) (p : Property) :
    wp False (noteCells p.name p.value) (fun _ w' => ∃ depth, ∃ hdepth : depth < maxDepth,
      w.depth = depth + 1 ∧
        w' = { w with cells := w.cells.set depth (w.cells[depth].note p) hdepth })
      (fun _ w' => w' = w) w := by
  have hdepth := h.depth_le
  rw [noteCells, wp_bind, wp_get, wp_bind, wp_ofOption]
  refine ⟨fun level hlevel => ?_, fun _ => rfl⟩
  obtain ⟨hle, rfl⟩ := checkedSub_eq_some.mp hlevel
  have hlt : w.depth - 1 < maxDepth := by omega
  have hget : w.cells.toList[w.depth - 1]? = some w.cells[w.depth - 1] := by
    rw [Vector.getElem?_toList, Vector.getElem?_eq_getElem hlt]
  rw [wp_bind, wp_attempt, wp_readBeU32]
  refine ⟨fun n hn => ?_, fun hnone => ?_⟩
  · simp only [wp_ite, wp_bind, wp_index, wp_store hlt, wp_set, wp_pure]
    refine ⟨fun hname => ⟨_, hget, w.depth - 1, hlt, by omega, ?_⟩, fun hname => ⟨fun hname' =>
      ⟨_, hget, w.depth - 1, hlt, by omega, ?_⟩, fun hname' => ⟨w.depth - 1, hlt, by omega, ?_⟩⟩⟩
    · simp only [CellCounts.note, hn, if_pos hname]
    · simp only [CellCounts.note, hn, if_neg hname, if_pos hname']
    · simp only [CellCounts.note, hn, if_neg hname, if_neg hname', Vector.set_getElem_self]
  · rw [wp_pure]
    refine ⟨w.depth - 1, hlt, by omega, ?_⟩
    simp only [CellCounts.note, hnone, Vector.set_getElem_self]

/-- **One token**, whatever it is. -/
theorem wp_step (h : w.On b) (hb : b.Sound) :
    wp False step (fun r w' => w.Went r w') (fun _ w' => w.After w' ∧ w'.done = w.done) w := by
  obtain rfl := h.blob_eq
  have hlen := w.blob.data.len_lt
  have hstay : w.After w ∧ w.done = w.done := ⟨⟨h, le_rfl⟩, rfl⟩
  rw [step, wp_bind, wp_get, wp_ite]
  refine ⟨fun hover => (wp_pure _).mpr (.ended hover), fun _ => ?_⟩
  rw [wp_bind, truncated, wp_mapErr, wp_readBeU32]
  refine ⟨fun word hword => ?_, fun _ => hstay⟩
  have hread := beU32_eq_some hword
  have htoken : TokenAt w.blob w.pos (Token.of word) := ⟨word, hword, rfl⟩
  rw [wp_bind, wp_add]
  refine ⟨by omega, ?_⟩
  rw [wp_bind, wp_set]
  have hmoved : ({ w with pos := w.pos + 4 } : Walk).On w.blob :=
    ⟨rfl, hread.trans (Nat.le_add_right _ _), h.depth_le⟩
  have hnext : ∀ {w'}, ({ w with pos := w.pos + 4 } : Walk).After w' → w.After w' := fun hw' =>
    ⟨hw'.on, (Nat.le_add_right _ _).trans hw'.pos_le⟩
  have hmoved' : w.After { w with pos := w.pos + 4 } := ⟨hmoved, Nat.le_add_right _ _⟩
  cases ht : Token.of word with
  | nop => exact (wp_pure _).mpr (.nop (ht ▸ htoken))
  | stop =>
    rw [wp_bind, wp_modify, wp_pure]
    exact .stop (ht ▸ htoken)
  | endNode =>
    rw [wp_bind, wp_ofOption]
    refine ⟨fun depth hdepth => ?_, fun _ => ⟨hmoved', rfl⟩⟩
    obtain ⟨hle, rfl⟩ := checkedSub_eq_some.mp hdepth
    rw [wp_bind, wp_modify, wp_pure]
    have hle' : 1 ≤ w.depth := hle
    have hgo : w.Went (.inl ()) { w with pos := w.pos + 4, depth := w.depth - 1 } :=
      .endNode (ht ▸ htoken) (by omega)
    exact hgo
  | beginNode =>
    rw [wp_bind]
    refine wp_mono (wp_openNode hmoved hb) (fun node w' hw' => (wp_pure _).mpr ?_)
      fun _ w' hw' => ⟨hnext hw'.1, hw'.2⟩
    obtain ⟨name, stop, hdepth, hname, rfl, rfl⟩ := hw'
    exact Went.beginNode (w := w) hdepth (ht ▸ htoken) hname
  | prop =>
    rw [wp_bind]
    refine wp_mono (wp_readProp hmoved) (fun x w' hw' => ?_) fun _ w' hw' => ?_
    · obtain ⟨stop, rfl, hprop⟩ := hw'
      obtain ⟨hge, hle⟩ := hprop.bounds
      have hat : ({ w with pos := stop } : Walk).On w.blob := ⟨rfl, hle, h.depth_le⟩
      rw [wp_bind]
      refine wp_mono (wp_noteCells hat ⟨x.1, x.2⟩) (fun _ w' hw' => (wp_pure _).mpr ?_)
        fun _ w' hw' => ?_
      · obtain ⟨depth, hlt, hdepth, rfl⟩ := hw'
        exact Went.prop (w := w) hlt (ht ▸ htoken) hprop hdepth
      · have hge' : w.pos + 4 + 8 ≤ stop := hge
        exact hw'.symm ▸ ⟨⟨hat, by dsimp only; omega⟩, rfl⟩
    · exact hw'.symm ▸ ⟨hmoved', rfl⟩
  | unknown => exact (wp_fail _).mpr ⟨hmoved', rfl⟩

/-- **A token** keeps the walk in the blob and in its arrays. -/
theorem Went.after {r : Unit ⊕ Option Node} (hw : w.Went r w') (h : w.On b) (hb : b.Sound) :
    w.After w' := by
  obtain rfl := h.blob_eq
  have hdepth := h.depth_le
  cases hw with
  | ended => exact ⟨h, le_rfl⟩
  | nop htoken | stop htoken =>
    have hle := htoken.le
    exact ⟨⟨rfl, by dsimp only; omega, hdepth⟩, Nat.le_add_right _ _⟩
  | endNode htoken heq =>
    have hle := htoken.le
    exact ⟨⟨rfl, by dsimp only; omega, by dsimp only; omega⟩, Nat.le_add_right _ _⟩
  | beginNode hlt htoken hname =>
    obtain ⟨hpos, hle⟩ := hname.bounds hb
    exact ⟨⟨rfl, hle, hlt⟩, by dsimp only; omega⟩
  | prop hlt htoken hprop heq =>
    obtain ⟨hpos, hle⟩ := hprop.bounds
    exact ⟨⟨rfl, hle, hdepth⟩, by dsimp only; omega⟩

/-- All but the last bring it further. -/
theorem Went.ahead_lt {r : Unit ⊕ Option Node} (hw : w.Went r w') (hb : w.blob.Sound)
    (hr : r ≠ .inr none) : w'.ahead < w.ahead := by
  cases hw with
  | ended | stop => exact absurd rfl hr
  | nop htoken | endNode htoken =>
    have hle := htoken.le
    simp only [ahead]
    omega
  | beginNode hlt htoken hname =>
    have hle := htoken.le
    obtain ⟨hpos, -⟩ := hname.bounds hb
    simp only [ahead]
    omega
  | prop hlt htoken hprop =>
    have hle := htoken.le
    obtain ⟨hpos, -⟩ := hprop.bounds
    simp only [ahead]
    omega

/-- A node that begins is one of the blob. -/
theorem Went.node_on {node : Node} (hw : w.Went (.inr (some node)) w') (h : w.On b)
    (hb : b.Sound) : node.On b := by
  obtain rfl := h.blob_eq
  cases hw with
  | beginNode hlt htoken hname =>
    obtain ⟨-, hle⟩ := hname.bounds hb
    exact ⟨rfl, hle, hname.text_part⟩

/-- Tokens without a node. -/
def Skips : Walk → Walk → Prop := Relation.ReflTransGen fun w w' => w.Went (.inl ()) w'

theorem Skips.after (hw : w.Skips w') (h : w.On b) (hb : b.Sound) :
    w.After w' ∧ w'.ahead ≤ w.ahead ∧ w'.done = w.done := by
  induction hw with
  | refl =>
    obtain rfl := h.blob_eq
    exact ⟨⟨h, le_rfl⟩, le_rfl, rfl⟩
  | tail _ hstep ih =>
    obtain ⟨hafter, hahead, hdone⟩ := ih
    have hon : _ := h.blob_eq ▸ hafter.on
    have hnext := hstep.after hon hb
    refine ⟨⟨hafter.on.blob_eq ▸ hnext.on, hafter.pos_le.trans hnext.pos_le⟩, ?_, ?_⟩
    · exact ((hstep.ahead_lt (hon.blob_eq.symm ▸ hb) (by simp)).trans_le hahead).le
    · rw [← hdone]
      cases hstep <;> rfl

/-- What a walk has come to is a node of the blob, and brings it further. -/
theorem Skips.went {w₁ : Walk} {r : Option Node} (hskips : w.Skips w₁) (hw : w₁.Went (.inr r) w')
    (h : w.On b) (hb : b.Sound) :
    w.After w' ∧ ∀ node, r = some node → node.On b ∧ w'.ahead < w.ahead := by
  obtain ⟨hafter, hahead, -⟩ := hskips.after h hb
  have hon : w₁.On b := h.blob_eq ▸ hafter.on
  have hnext := hw.after hon hb
  refine ⟨⟨hafter.on.blob_eq ▸ hnext.on, hafter.pos_le.trans hnext.pos_le⟩, fun node hnode => ?_⟩
  subst hnode
  exact ⟨hw.node_on hon hb, (hw.ahead_lt (hon.blob_eq.symm ▸ hb) (by simp)).trans_le hahead⟩

/-- **The next node** is reached within as many tokens as there are bytes, whatever they are. -/
theorem wp_nextNode (h : w.On b) (hb : b.Sound) :
    wp False nextNode (fun r w' => (∃ w₁, w.Skips w₁ ∧ w₁.Went (.inr r) w') ∧ w.After w' ∧
      ∀ node, r = some node → node.On b ∧ w'.ahead < w.ahead)
      (fun _ w' => w.After w' ∧ w'.done = w.done) w := by
  obtain rfl := h.blob_eq
  rw [nextNode, wp_bind, wp_get]
  refine wp_loop (fun _ w₁ => w.Skips w₁) (fun _ w₁ => w₁.ahead) (fun _ w₁ hw₁ => ?_) .refl
    fun _ => ?_
  · obtain ⟨hafter, -, hdone⟩ := hw₁.after h hb
    refine wp_mono (wp_step hafter.on hb) (fun r w' hw' => ?_) fun _ w' hw' => ?_
    · cases r with
      | inl u => exact ⟨hw₁.tail hw', hw'.ahead_lt (hafter.on.blob_eq.symm ▸ hb) (by simp)⟩
      | inr r => exact ⟨⟨w₁, hw₁, hw'⟩, hw₁.went hw' h hb⟩
    · exact ⟨⟨hafter.on.blob_eq ▸ hw'.1.on, hafter.pos_le.trans hw'.1.pos_le⟩, hw'.2.trans hdone⟩
  · rw [ahead]
    omega

theorem on_new (hb : b.Sound) : (new b).On b where
  blob_eq := rfl
  pos_le := hb.start_le.trans (hb.struct_le.trans (Nat.le_add_right _ _))
  depth_le := Nat.zero_le _

/-- **Comparing a path** with the open nodes stays in the array of their names. -/
theorem wp_matchesFrom {σ : Type} {s : σ} (hdepth : w.depth ≤ maxDepth) (path : List (List Char))
    (level : ℕ) :
    wp False (w.matchesFrom path level) (fun _ s' => s' = s) (fun _ s' => s' = s) s := by
  induction path generalizing level with
  | nil => exact (wp_pure _).mpr rfl
  | cons component rest ih =>
    rw [matchesFrom, wp_ite]
    refine ⟨fun _ => (wp_pure _).mpr rfl, fun hlt => ?_⟩
    have hlevel : level < w.names.toList.length := by
      rw [Vector.length_toList]
      omega
    rw [wp_bind, wp_index]
    refine ⟨_, List.getElem?_eq_getElem hlevel, ?_⟩
    rw [wp_ite, wp_bind, wp_add, wp_pure]
    rw [Vector.length_toList, maxDepth] at hlevel
    exact ⟨fun _ => ⟨by omega, ih (level + 1)⟩, fun _ => rfl⟩

end Walk

/-- **Going round all nodes** ends, however the blob is made. -/
theorem Nodes.wp_next {b : Blob} {w : Nodes} (h : Walk.On b w) (hb : b.Sound) :
    wp False Nodes.next (fun node w' => Walk.On b w' ∧ node.On b ∧ w'.ahead < w.ahead)
      (fun _ w' => Walk.On b w' ∧ w'.ahead ≤ w.ahead) w := by
  obtain rfl := h.blob_eq
  have hle : ∀ w', w.After w' → Walk.On w.blob w' ∧ w'.ahead ≤ w.ahead := by
    intro w' hafter
    refine ⟨hafter.on, ?_⟩
    rw [Walk.ahead, Walk.ahead, hafter.on.blob_eq]
    have hpos := hafter.pos_le
    omega
  rw [next, wp_bind, wp_mapErr]
  refine wp_mono (Walk.wp_nextNode h hb) (fun r w' hr => ?_) fun _ w' hafter => hle w' hafter.1
  rw [wp_ofOption]
  obtain ⟨-, hafter, hsome⟩ := hr
  refine ⟨fun node hnode => ?_, fun _ => hle w' hafter⟩
  obtain ⟨hon, hlt⟩ := hsome node hnode
  exact ⟨hafter.on, hon, hlt⟩

theorem Nodes.finite_next (f : Fdt) (hb : f.blob.Sound) :
    Finite Nodes.next (Node.On f.blob) f.nodes f.nodes.ahead :=
  finite (fun _ h => Nodes.wp_next h hb) (Walk.on_new hb)

theorem wp_root (f : Fdt) (hb : f.blob.Sound) (w : Walk) :
    wp False (root f) (fun node _ => node.On f.blob) (fun _ _ => True) w := by
  rw [root, wp_bind, wp_set, wp_bind]
  refine wp_mono (Walk.wp_nextNode (Walk.on_new hb) hb) (fun r w' hr => ?_) fun _ _ _ => trivial
  rw [wp_ofOption]
  exact ⟨fun node hnode => (hr.2.2 node hnode).1, fun _ => trivial⟩

/-- **Looking for a node** ends, and what is found is a node of the blob. -/
theorem wp_findNode (f : Fdt) (hb : f.blob.Sound) (path : String) (w : Walk) :
    wp False (findNode f path) (fun node _ => node.On f.blob) (fun _ _ => True) w := by
  rw [findNode, wp_bind, wp_set]
  refine wp_loop (fun _ w' => Walk.On f.blob w') (fun _ w' => w'.ahead) (fun _ w' hw' => ?_)
    (Walk.on_new hb) fun _ => ?_
  · rw [findStep, wp_bind, wp_mapErr]
    refine wp_mono (Walk.wp_nextNode hw' hb) (fun r w'' hr => ?_) fun _ _ _ => trivial
    have hon' : Walk.On f.blob w'' := hw'.blob_eq ▸ hr.2.1.on
    rw [wp_bind, wp_ofOption]
    refine ⟨fun node hnode => ?_, fun _ => trivial⟩
    obtain ⟨hon, hlt⟩ := hr.2.2 node hnode
    rw [wp_bind, wp_get, wp_bind, wp_mapErr]
    refine wp_mono (Walk.wp_matchesFrom hon'.depth_le _ _) (fun found w₃ hw₃ => ?_)
      fun _ _ _ => trivial
    rw [wp_ite, wp_pure, wp_pure, hw₃]
    exact ⟨fun _ => hon, fun _ => ⟨hon', hlt⟩⟩
  · show f.blob.data.len - f.blob.structStart < f.blob.data.len + 1
    omega

end Fdt

end StarOS
