import StarOS.Fdt.Walk

/-!
# Reading a node

A node carries where its first token is. Its properties and its children are read from there on
demand, with readers of their own: one stops at the first child, the other skips over properties and
over whole subtrees. A property is bytes, which the accessors take for a number, for text, for a
list of strings, of cells, of address ranges or of interrupts.

## Main definitions

* `Fdt.Properties.next`, `Fdt.Node.property`
* `Fdt.Children.next`, with `Fdt.Children.skipSubtree`
* `Fdt.Strings.next`, `Fdt.Cells.next`, `Fdt.Reg.next`, `Fdt.Interrupts.next`
* `Fdt.Node.Of` — the nodes a tree can be asked for
* `Fdt.Safe`

## Main results

* `Fdt.Properties.finite_next`, `Fdt.Children.finite_next` and those of the values
* `Fdt.safe`
-/

namespace StarOS

namespace Fdt

open Checked

variable {σ ε : Type}

/-! ### Properties -/

/-- Iterator over a node's own properties. Stops at the first child node. -/
structure Properties where
  blob : Blob
  pos : ℕ
  done : Bool

namespace Properties

/-- One token. -/
def step : Checked Properties Unit (Unit ⊕ Property) := do
  let self ← get
  require (self.done = false) ()
  let token ← readBeU32 self.blob.data self.pos
  match Token.of token with
  | .nop =>
    set { self with pos := ← add 64 self.pos 4 }
    return .inl ()
  | .prop =>
    let len := (← readBeU32 self.blob.data (← add 64 self.pos 4)).toNat
    let nameoff := (← readBeU32 self.blob.data (← add 64 self.pos 8)).toNat
    let valueStart ← add 64 self.pos 12
    let valueEnd ← ofOption () (checkedAdd 64 valueStart len)
    let value ← ofOption () (self.blob.data.get valueStart valueEnd)
    let name ← mapErr (fun _ => ()) (self.blob.stringAt nameoff)
    set { self with pos := ← ofOption () (align4 (← add 64 valueStart len)) }
    return .inr ⟨name, value⟩
  -- A child node or the end of this one.
  | .beginNode | .endNode | .stop | .unknown =>
    set { self with done := true }
    fail ()

def next : Checked Properties Unit Property := do
  let self ← get
  loop (fun _ => step) (self.blob.data.len + 1) ()

end Properties

namespace Property

/-- The value as a single cell. -/
def asU32 (p : Property) : Checked σ Unit (BitVec 32) := do
  require (p.value.len = 4) ()
  readBeU32 p.value 0

/-- The value as two cells. -/
def asU64 (p : Property) : Checked σ Unit (BitVec 64) := do
  require (p.value.len = 8) ()
  readBeU64 p.value 0

/-- The value as an unsigned integer of either width. -/
def asUint (p : Property) : Checked σ Unit (BitVec 64) :=
  if p.value.len = 4 then do return (← p.asU32).setWidth 64
  else if p.value.len = 8 then p.asU64
  else fail ()

/-- The value as a NUL-terminated string. -/
def asStr (p : Property) : Checked σ Unit String := do
  let head ← p.value.range 0 ((position p.value).getD p.value.len)
  ofOption () (fromUtf8 head.bytes)

end Property

/-! ### Lists in a property -/

/-- Iterator over a string-list property. -/
structure Strings where
  data : Slice

/-- The next string. The last need not have its NUL. -/
def Strings.next : Checked Strings Unit String := do
  let self ← get
  require (self.data.bytes ≠ []) ()
  let stop := (position self.data).getD self.data.len
  let head ← self.data.range 0 stop
  let tail ← self.data.range stop self.data.len
  set ({ data := (tail.get 1 tail.len).getD ⟨[], Slice.nil_fits⟩ } : Strings)
  ofOption () (fromUtf8 head.bytes)

/-- Iterator over a property's raw cells. -/
structure Cells where
  data : Slice
  pos : ℕ

def Cells.next : Checked Cells Unit (BitVec 32) := do
  let self ← get
  let cell ← readBeU32 self.data self.pos
  set { self with pos := ← add 64 self.pos 4 }
  return cell

/-- Iterator over address ranges, as many cells each as the parent says. -/
structure Reg where
  data : Slice
  pos : ℕ
  cells : CellCounts

/-- The next range: its address and its size. -/
def Reg.next : Checked Reg Unit (BitVec 64 × BitVec 64) := do
  let self ← get
  let address ← readCells self.data self.pos self.cells.address
  let sizeAt ← add 64 self.pos (← mul 64 self.cells.address.toNat 4)
  let size ← readCells self.data sizeAt self.cells.size
  let entry ← mul 64 (← add 64 self.cells.address.toNat self.cells.size.toNat) 4
  require (entry ≠ 0) ()
  set { self with pos := ← add 64 self.pos entry }
  return (address, size)

/-- Iterator over groups of cells, each one interrupt. -/
structure Interrupts where
  data : Slice
  pos : ℕ
  cells : BitVec 32

/-- One of the first three cells of a group. One that is not there is 0. -/
def Interrupts.cell (self : Interrupts) (i : ℕ) : Checked σ Unit (BitVec 32) :=
  if self.cells.toNat ≤ i then return 0
  else do return (← readCells self.data (← add 64 self.pos (← mul 64 i 4)) 1).setWidth 32

def Interrupts.next : Checked Interrupts Unit (BitVec 32 × BitVec 32 × BitVec 32) := do
  let self ← get
  require (self.cells ≠ 0) ()
  let entry := (← self.cell 0, ← self.cell 1, ← self.cell 2)
  set { self with pos := ← add 64 self.pos (← mul 64 self.cells.toNat 4) }
  return entry

/-! ### Nodes -/

namespace Node

def properties (node : Node) : Properties := ⟨node.blob, node.body, false⟩

/-- Look up one property by name. -/
def property (node : Node) (name : String) : Checked σ Unit Property :=
  on node.properties (Checked.find Properties.next (·.name = name) (node.blob.data.len + 1))

/-- The cells of the node's children: its own, or else its parent's. -/
def addressCells (node : Node) : Checked σ ε (BitVec 32) := do
  let own ← attempt (do (← node.property "#address-cells").asU32)
  return own.getD node.parentCells.address

def sizeCells (node : Node) : Checked σ ε (BitVec 32) := do
  let own ← attempt (do (← node.property "#size-cells").asU32)
  return own.getD node.parentCells.size

def cells (node : Node) : Checked σ ε CellCounts :=
  return ⟨← node.addressCells, ← node.sizeCells⟩

/-- Does the list of what the node is compatible with contain `compatible`? -/
def isCompatible (node : Node) (compatible : String) : Checked σ ε Bool := do
  let found ← attempt (do
    let p ← node.property "compatible"
    on (⟨p.value⟩ : Strings) (Checked.find Strings.next (· = compatible) (p.value.len + 1)))
  return found.isSome

/-- The ranges of the node, in the cells of its parent. -/
def reg (node : Node) : Checked σ Unit Reg :=
  return ⟨(← node.property "reg").value, 0, node.parentCells⟩

/-- The interrupts of the node, in the cells of its controller. -/
def interrupts (node : Node) (cells : BitVec 32) : Checked σ Unit Interrupts :=
  return ⟨(← node.property "interrupts").value, 0, cells⟩

end Node

/-! ### Children -/

/-- Length of the NUL-terminated string at `pos`, including the terminator. -/
def skipCstr (data : Slice) (pos : ℕ) : Checked σ Unit ℕ := do
  let region ← ofOption () (data.get pos data.len)
  add 64 (← ofOption () (position region)) 1

/-- Iterator over a node's immediate children. -/
structure Children where
  blob : Blob
  pos : ℕ
  /-- The parent's cells, handed to each child. -/
  cells : CellCounts
  done : Bool

namespace Children

/-- The token at the cursor, which goes past it. -/
def token : Checked Children Unit Token := do
  let self ← get
  let token ← readBeU32 self.blob.data self.pos
  set { self with pos := ← add 64 self.pos 4 }
  return Token.of token

/-- Past a property. -/
def skipProp : Checked Children Unit Unit := do
  let self ← get
  let len := (← readBeU32 self.blob.data self.pos).toNat
  set { self with pos := ← ofOption () (align4 (← add 64 (← add 64 self.pos 8) len)) }

/-- One token of a subtree, with `depth` nodes open. -/
def skipToken (depth : ℕ) : Checked Children Unit (ℕ ⊕ Unit) :=
  if depth = 0 then return .inr ()
  else do
    match ← token with
    | .nop => return .inl depth
    | .beginNode =>
      let depth ← add 64 depth 1
      let self ← get
      let len ← skipCstr self.blob.data self.pos
      set { self with pos := ← ofOption () (align4 (← add 64 self.pos len)) }
      return .inl depth
    | .endNode => return .inl (← sub depth 1)
    | .prop =>
      skipProp
      return .inl depth
    | .stop | .unknown => fail ()

/-- Skip the subtree of a node that has begun, up to just past its end. -/
def skipSubtree : Checked Children Unit Unit := do
  let self ← get
  loop skipToken (self.blob.data.len + 2) 1

/-- A child begins: it is read, and what is in it is skipped. -/
def child : Checked Children Unit Node := do
  let self ← get
  let len ← skipCstr self.blob.data self.pos
  let region ← ofOption () (self.blob.data.get self.pos (← sub (← add 64 self.pos len) 1))
  let name ← ofOption () (fromUtf8 region.bytes)
  let body ← ofOption () (align4 (← add 64 self.pos len))
  set { self with pos := body }
  skipSubtree
  return ⟨self.blob, name, body, self.cells⟩

/-- One token of the parent. -/
def step : Checked Children Unit (Unit ⊕ Node) := do
  require ((← get).done = false) ()
  match ← token with
  | .nop => return .inl ()
  | .prop =>
    skipProp
    return .inl ()
  | .beginNode => return .inr (← child)
  -- The end of the parent.
  | .endNode | .stop | .unknown =>
    modify fun self => { self with done := true }
    fail ()

def next : Checked Children Unit Node := do
  let self ← get
  loop (fun _ => step) (self.blob.data.len + 1) ()

end Children

def Node.children (node : Node) : Checked σ ε Children :=
  return ⟨node.blob, node.body, ← node.cells, false⟩

/-! ### The properties of a node -/

namespace Properties

/-- Where an iterator over properties may stand. -/
structure On (b : Blob) (it : Properties) : Prop where
  blob_eq : it.blob = b
  pos_le : it.pos ≤ b.data.len + 3

def ahead (it : Properties) : ℕ := it.blob.data.len - it.pos

variable {b : Blob} {it : Properties}

theorem On.moved (h : it.On b) {pos : ℕ} (hpos : pos ≤ b.data.len + 3) :
    ({ it with pos } : Properties).On b := ⟨h.blob_eq, hpos⟩

/-- **One token** of a node's properties. -/
theorem wp_step (h : it.On b) :
    wp False step (fun r it' => it'.On b ∧ it'.ahead < it.ahead ∧
      ∀ p, r = .inr p → p.On b) (fun _ it' => it'.On b ∧ it'.ahead ≤ it.ahead) it := by
  obtain rfl := h.blob_eq
  have hlen := it.blob.data.len_lt
  have hstay : it.On it.blob ∧ it.ahead ≤ it.ahead := ⟨h, le_rfl⟩
  rw [step, wp_bind, wp_get, wp_bind, wp_require]
  refine ⟨fun _ => ?_, fun _ => hstay⟩
  rw [wp_bind, wp_readBeU32]
  refine ⟨fun token htoken => ?_, fun _ => hstay⟩
  have hread := beU32_eq_some htoken
  have hdone : wp False (do
      set { it with done := true }
      (fail () : Checked Properties Unit (Unit ⊕ Property)))
      (fun r it' => it'.On it.blob ∧ it'.ahead < it.ahead ∧ ∀ p, r = .inr p → p.On it.blob)
      (fun _ it' => it'.On it.blob ∧ it'.ahead ≤ it.ahead) it := by
    rw [wp_bind, wp_set, wp_fail]
    exact ⟨⟨rfl, h.pos_le⟩, le_rfl⟩
  cases Token.of token with
  | nop =>
    simp only [wp_bind, wp_add, wp_set, wp_pure]
    refine ⟨by omega, h.moved (by omega), ?_, fun p hp => ?_⟩
    · show it.blob.data.len - (it.pos + 4) < it.blob.data.len - it.pos
      omega
    · cases hp
  | prop =>
    rw [wp_bind, wp_add]
    refine ⟨by omega, ?_⟩
    rw [wp_bind, wp_readBeU32]
    refine ⟨fun len _ => ?_, fun _ => hstay⟩
    have hlenlt := len.isLt
    rw [wp_bind, wp_add]
    refine ⟨by omega, ?_⟩
    rw [wp_bind, wp_readBeU32]
    refine ⟨fun nameoff _ => ?_, fun _ => hstay⟩
    rw [wp_bind, wp_add]
    refine ⟨by omega, ?_⟩
    rw [wp_bind, wp_ofOption]
    refine ⟨fun valueEnd hvalueEnd => ?_, fun _ => hstay⟩
    obtain ⟨hfits, rfl⟩ := checkedAdd_eq_some.mp hvalueEnd
    rw [wp_bind, wp_ofOption]
    refine ⟨fun value hvalue => ?_, fun _ => hstay⟩
    obtain ⟨⟨-, hend⟩, -⟩ := Slice.get_eq_some.mp hvalue
    rw [wp_bind, wp_mapErr]
    refine wp_stringAt _ _ (fun name hname => ?_) fun _ _ => hstay
    rw [wp_bind, wp_add]
    refine ⟨hfits, ?_⟩
    rw [wp_bind, wp_ofOption]
    refine ⟨fun pos hpos => ?_, fun _ => hstay⟩
    obtain ⟨hge, hle, -⟩ := align4_eq_some hpos
    rw [wp_bind, wp_set, wp_pure]
    refine ⟨h.moved (by omega), ?_, fun p hp => ?_⟩
    · show it.blob.data.len - pos < it.blob.data.len - it.pos
      omega
    · cases hp
      exact ⟨hname.text_part, Slice.get_infix hvalue⟩
  | beginNode | endNode | stop | unknown => exact hdone

theorem wp_next (h : it.On b) :
    wp False next (fun p it' => it'.On b ∧ p.On b ∧ it'.ahead < it.ahead)
      (fun _ it' => it'.On b ∧ it'.ahead ≤ it.ahead) it := by
  rw [next, wp_bind, wp_get]
  refine wp_loop (fun _ it' => it'.On b ∧ it'.ahead ≤ it.ahead) (fun _ it' => it'.ahead)
    (fun _ it' hit' => ?_) ⟨h, le_rfl⟩ fun _ => ?_
  · refine wp_mono (wp_step hit'.1) (fun r it'' hr => ?_)
      fun _ it'' hr => ⟨hr.1, hr.2.trans hit'.2⟩
    obtain ⟨hon, hlt, hprop⟩ := hr
    cases r with
    | inl u => exact ⟨⟨hon, hlt.le.trans hit'.2⟩, hlt⟩
    | inr p => exact ⟨hon, hprop p rfl, hlt.trans_le hit'.2⟩
  · rw [ahead]
    omega

/-- **A node's properties** come to an end. -/
theorem finite_next (h : it.On b) : Finite next (Property.On b) it it.ahead :=
  finite (fun _ h => wp_next h) h

end Properties

namespace Node

variable {b : Blob} {node : Node} {s : σ}

theorem On.properties (h : node.On b) : node.properties.On b := ⟨h.blob_eq, h.body_le⟩

/-- **Looking a property up** ends. -/
theorem wp_property (h : node.On b) (name : String) :
    wp False (node.property name) (fun p _ => p.On b) (fun _ _ => True) s := by
  rw [property, wp_on]
  refine (Properties.finite_next h.properties).wp_find ?_ _
  show node.blob.data.len - node.body < node.blob.data.len + 1
  omega

/-- The cells of a node are its own or its parent's. -/
theorem wp_cells (h : node.On b) {Q : CellCounts → σ → Prop} {F : ε → σ → Prop}
    (hQ : ∀ cells s', Q cells s') : wp False node.cells Q F s := by
  have hown : ∀ (name : String) (s : σ) (Q : Option (BitVec 32) → σ → Prop), (∀ o s', Q o s') →
      wp False (attempt (do (← node.property name).asU32)) Q F s := by
    intro name s Q hQ
    rw [wp_attempt, wp_bind]
    refine wp_mono (wp_property h name) (fun p s' _ => ?_) fun _ s' _ => hQ none s'
    rw [Property.asU32, wp_bind, wp_require, wp_readBeU32]
    exact ⟨fun _ => ⟨fun v _ => hQ _ _, fun _ => hQ _ _⟩, fun _ => hQ _ _⟩
  rw [cells, wp_bind, addressCells, wp_bind]
  refine hown _ _ _ fun address s' => ?_
  rw [wp_pure, wp_bind, sizeCells, wp_bind]
  refine hown _ _ _ fun size s' => ?_
  rw [wp_pure, wp_pure]
  exact hQ _ _

end Node

/-! ### The children of a node -/

theorem wp_skipCstr {s : σ} (data : Slice) (pos : ℕ) :
    wp False (skipCstr data pos) (fun len s' => s' = s ∧ 0 < len ∧ pos + len ≤ data.len)
      (fun _ s' => s' = s) s := by
  have hlen := data.len_lt
  rw [skipCstr, wp_bind, wp_ofOption]
  refine ⟨fun region hregion => ?_, fun _ => rfl⟩
  obtain ⟨⟨hle, -⟩, -⟩ := Slice.get_eq_some.mp hregion
  have hregionLen := Slice.len_of_get hregion
  rw [wp_bind, wp_ofOption]
  refine ⟨fun len hposition => ?_, fun _ => rfl⟩
  have hlt := position_lt hposition
  rw [wp_add]
  exact ⟨by omega, rfl, by omega, by omega⟩

namespace Children

/-- Where an iterator over children may stand. What a property says of its length is believed when
it is skipped, so this may be outside the blob. -/
structure On (b : Blob) (it : Children) : Prop where
  blob_eq : it.blob = b
  pos_le : it.pos ≤ b.data.len + 2 ^ 33

def ahead (it : Children) : ℕ := it.blob.data.len - it.pos

/-- The same iterator, not before where it was. -/
structure After (it it' : Children) : Prop where
  on : it'.On it.blob
  pos_le : it.pos ≤ it'.pos

variable {b : Blob} {it it' it'' : Children} {depth : ℕ}

theorem After.trans (h : it.After it') (h' : it'.After it'') : it.After it'' :=
  ⟨h.on.blob_eq ▸ h'.on, h.pos_le.trans h'.pos_le⟩

theorem After.ahead_le (h : it.After it') : it'.ahead ≤ it.ahead := by
  have hpos := h.pos_le
  rw [ahead, ahead, h.on.blob_eq]
  omega

theorem On.after (h : it.On b) {pos : ℕ} (hge : it.pos ≤ pos) (hle : pos ≤ b.data.len + 2 ^ 33) :
    it.After { it with pos } := ⟨⟨rfl, h.blob_eq ▸ hle⟩, hge⟩

/-- A token is in the blob, and the cursor goes past it. -/
theorem wp_token (h : it.On b) :
    wp False token (fun _ it' => it' = { it with pos := it.pos + 4 } ∧ it'.pos ≤ b.data.len ∧
      it.After it' ∧ it'.ahead < it.ahead) (fun _ it' => it.After it') it := by
  obtain rfl := h.blob_eq
  have hlen := it.blob.data.len_lt
  have hstay : it.After it := ⟨h, le_rfl⟩
  rw [token, wp_bind, wp_get, wp_bind, wp_readBeU32]
  refine ⟨fun token htoken => ?_, fun _ => hstay⟩
  have hread := beU32_eq_some htoken
  rw [wp_bind, wp_add]
  refine ⟨by omega, ?_⟩
  rw [wp_bind, wp_set, wp_pure]
  refine ⟨rfl, hread, h.after (Nat.le_add_right _ _) (by omega), ?_⟩
  show it.blob.data.len - (it.pos + 4) < it.blob.data.len - it.pos
  omega

theorem wp_skipProp (h : it.On b) (hpos : it.pos ≤ b.data.len) :
    wp False skipProp (fun _ it' => it.After it') (fun _ it' => it.After it') it := by
  obtain rfl := h.blob_eq
  have hlen := it.blob.data.len_lt
  have hstay : it.After it := ⟨h, le_rfl⟩
  rw [skipProp, wp_bind, wp_get, wp_bind, wp_readBeU32]
  refine ⟨fun len _ => ?_, fun _ => hstay⟩
  have hlenlt := len.isLt
  rw [wp_bind, wp_add]
  refine ⟨by omega, ?_⟩
  rw [wp_bind, wp_add]
  refine ⟨by omega, ?_⟩
  rw [wp_bind, wp_ofOption]
  refine ⟨fun pos hpos => ?_, fun _ => hstay⟩
  obtain ⟨hge, hle, -⟩ := align4_eq_some hpos
  rw [wp_set]
  exact h.after (by omega) (by omega)

/-- **One token of a subtree.** There are not more nodes open than bytes behind. -/
theorem wp_skipToken (h : it.On b) (hdepth : depth ≤ it.pos + 1) :
    wp False (skipToken depth) (fun r it' => it.After it' ∧
      ∀ d, r = .inl d → d ≤ it'.pos + 1 ∧ it'.ahead < it.ahead) (fun _ it' => it.After it') it := by
  obtain rfl := h.blob_eq
  have hlen := it.blob.data.len_lt
  rw [skipToken, wp_ite]
  refine ⟨fun _ => (wp_pure _).mpr ⟨⟨h, le_rfl⟩, fun d hd => ?_⟩, fun hne => ?_⟩
  · cases hd
  rw [wp_bind]
  refine wp_mono (wp_token h) (fun token it₁ htoken => ?_) fun _ _ hit => hit
  obtain ⟨heq, hin, hafter, hlt⟩ := htoken
  have hpos : it₁.pos = it.pos + 4 := by rw [heq]
  have hon : it₁.On it.blob := hafter.on
  have hgo : ∀ {it' d}, it₁.After it' → d ≤ it'.pos + 1 → it.After it' ∧
      ∀ d', (.inl d : ℕ ⊕ Unit) = .inl d' → d' ≤ it'.pos + 1 ∧ it'.ahead < it.ahead := by
    intro it' d hit' hd
    refine ⟨hafter.trans hit', fun d' hd' => ?_⟩
    obtain rfl := Sum.inl.inj hd'
    exact ⟨hd, hit'.ahead_le.trans_lt hlt⟩
  have hstay : it₁.After it₁ := ⟨hon.blob_eq.symm ▸ hon, le_rfl⟩
  cases token with
  | nop => exact (wp_pure _).mpr (hgo hstay (by omega))
  | beginNode =>
    rw [wp_bind, wp_add]
    refine ⟨by omega, ?_⟩
    rw [wp_bind, wp_get, wp_bind]
    refine wp_mono (wp_skipCstr _ _) (fun len it' hlen' => ?_) fun _ it' hit' => hit' ▸ hafter
    obtain ⟨rfl, -, hle⟩ := hlen'
    rw [hon.blob_eq] at hle
    rw [wp_bind, wp_add]
    refine ⟨by omega, ?_⟩
    rw [wp_bind, wp_ofOption]
    refine ⟨fun pos hpos' => ?_, fun _ => hafter⟩
    obtain ⟨hge, hle', -⟩ := align4_eq_some hpos'
    rw [wp_bind, wp_set, wp_pure]
    refine hgo (hon.after (by omega) (by omega)) ?_
    show depth + 1 ≤ pos + 1
    omega
  | endNode =>
    rw [wp_bind, wp_sub, wp_pure]
    exact ⟨by omega, hgo hstay (by omega)⟩
  | prop =>
    rw [wp_bind]
    refine wp_mono (wp_skipProp hon hin) (fun _ it' hit' => (wp_pure _).mpr (hgo hit' ?_))
      fun _ it' hit' => hafter.trans hit'
    have hge := hit'.pos_le
    omega
  | stop | unknown => exact (wp_fail _).mpr hafter

/-- **Skipping a subtree** ends, whatever is in it. -/
theorem wp_skipSubtree (h : it.On b) :
    wp False skipSubtree (fun _ it' => it.After it') (fun _ it' => it.After it') it := by
  obtain rfl := h.blob_eq
  rw [skipSubtree, wp_bind, wp_get]
  refine wp_loop (fun depth it' => it.After it' ∧ depth ≤ it'.pos + 1) (fun _ it' => it'.ahead)
    (fun depth it' hit' => ?_) ⟨⟨h, le_rfl⟩, Nat.le_add_left _ _⟩ fun _ => ?_
  · refine wp_mono (wp_skipToken hit'.1.on hit'.2) (fun r it'' hr => ?_)
      fun _ it'' hit'' => hit'.1.trans hit''
    cases r with
    | inl d => exact ⟨⟨hit'.1.trans hr.1, (hr.2 d rfl).1⟩, (hr.2 d rfl).2⟩
    | inr u => exact hit'.1.trans hr.1
  · rw [ahead]
    omega

theorem wp_child (h : it.On b) (hpos : it.pos ≤ b.data.len) :
    wp False child (fun node it' => it.After it' ∧ node.On b) (fun _ it' => it.After it') it := by
  obtain rfl := h.blob_eq
  have hlen := it.blob.data.len_lt
  have hstay : it.After it := ⟨h, le_rfl⟩
  rw [child, wp_bind, wp_get, wp_bind]
  refine wp_mono (wp_skipCstr _ _) (fun len it' hlen' => ?_) fun _ it' hit' => hit' ▸ hstay
  obtain ⟨rfl, hlenpos, hle⟩ := hlen'
  rw [wp_bind, wp_add]
  refine ⟨by omega, ?_⟩
  rw [wp_bind, wp_sub]
  refine ⟨by omega, ?_⟩
  rw [wp_bind, wp_ofOption]
  refine ⟨fun region hregion => ?_, fun _ => hstay⟩
  rw [wp_bind, wp_ofOption]
  refine ⟨fun name hname => ?_, fun _ => hstay⟩
  rw [wp_bind, wp_add]
  refine ⟨by omega, ?_⟩
  rw [wp_bind, wp_ofOption]
  refine ⟨fun body hbody => ?_, fun _ => hstay⟩
  obtain ⟨hge, hle', -⟩ := align4_eq_some hbody
  rw [wp_bind, wp_set, wp_bind]
  have hafter : it'.After { it' with pos := body } := h.after (by omega) (by omega)
  refine wp_mono (wp_skipSubtree hafter.on) (fun _ it'' hit'' => (wp_pure _).mpr ?_)
    fun _ it'' hit'' => hafter.trans hit''
  refine ⟨hafter.trans hit'', rfl, ?_, ?_⟩
  · show body ≤ it'.blob.data.len + 3
    omega
  · show utf8 name <:+: it'.blob.data.bytes
    rw [fromUtf8_eq_some.mp hname]
    exact Slice.get_infix hregion

/-- **One token** of a node's children. -/
theorem wp_step (h : it.On b) :
    wp False step (fun r it' => it.After it' ∧ it'.ahead < it.ahead ∧
      ∀ node, r = .inr node → node.On b) (fun _ it' => it.After it') it := by
  obtain rfl := h.blob_eq
  rw [step, wp_bind, wp_get, wp_bind, wp_require]
  refine ⟨fun _ => ?_, fun _ => ⟨h, le_rfl⟩⟩
  rw [wp_bind]
  refine wp_mono (wp_token h) (fun token it₁ htoken => ?_) fun _ _ hit => hit
  obtain ⟨heq, hin, hafter, hlt⟩ := htoken
  have hon : it₁.On it.blob := hafter.on
  have hgo : ∀ {it'}, it₁.After it' → it.After it' ∧ it'.ahead < it.ahead ∧
      ∀ node, (.inl () : Unit ⊕ Node) = .inr node → node.On it.blob := by
    intro it' hit'
    refine ⟨hafter.trans hit', hit'.ahead_le.trans_lt hlt, fun node hnode => ?_⟩
    cases hnode
  have hstay : it₁.After it₁ := ⟨hon.blob_eq.symm ▸ hon, le_rfl⟩
  have hdone : wp False (do
      modify fun self => { self with done := true }
      (fail () : Checked Children Unit (Unit ⊕ Node)))
      (fun r it' => it.After it' ∧ it'.ahead < it.ahead ∧ ∀ node, r = .inr node → node.On it.blob)
      (fun _ it' => it.After it') it₁ := by
    rw [wp_bind, wp_modify, wp_fail]
    exact ⟨⟨hon.blob_eq, hon.pos_le⟩, hafter.pos_le⟩
  cases token with
  | nop => exact (wp_pure _).mpr (hgo hstay)
  | prop =>
    rw [wp_bind]
    exact wp_mono (wp_skipProp hon hin) (fun _ it' hit' => (wp_pure _).mpr (hgo hit'))
      fun _ it' hit' => hafter.trans hit'
  | beginNode =>
    rw [wp_bind]
    refine wp_mono (wp_child hon hin) (fun node it' hit' => (wp_pure _).mpr ?_)
      fun _ it' hit' => hafter.trans hit'
    refine ⟨hafter.trans hit'.1, hit'.1.ahead_le.trans_lt hlt, fun node' hnode' => ?_⟩
    obtain rfl := Sum.inr.inj hnode'
    exact hit'.2
  | endNode | stop | unknown => exact hdone

theorem wp_next (h : it.On b) :
    wp False next (fun node it' => it'.On b ∧ node.On b ∧ it'.ahead < it.ahead)
      (fun _ it' => it'.On b ∧ it'.ahead ≤ it.ahead) it := by
  obtain rfl := h.blob_eq
  rw [next, wp_bind, wp_get]
  refine wp_loop (fun _ it' => it.After it') (fun _ it' => it'.ahead) (fun _ it' hit' => ?_)
    ⟨h, le_rfl⟩ fun _ => ?_
  · refine wp_mono (wp_step hit'.on) (fun r it'' hr => ?_)
      fun _ it'' hr => ⟨(hit'.trans hr).on, (hit'.trans hr).ahead_le⟩
    obtain ⟨hafter, hlt, hnode⟩ := hr
    cases r with
    | inl u => exact ⟨hit'.trans hafter, hlt⟩
    | inr node => exact ⟨(hit'.trans hafter).on, hnode node rfl, hlt.trans_le hit'.ahead_le⟩
  · rw [ahead]
    omega

/-- **A node's children** come to an end. -/
theorem finite_next (h : it.On b) : Finite next (Node.On b) it it.ahead :=
  finite (fun _ h => wp_next h) h

end Children

/-! ### The lists in a property -/

/-- **A list of strings** ends. -/
theorem Strings.finite_next (value : Slice) :
    Finite Strings.next (fun name => utf8 name <:+: value.bytes) ⟨value⟩ value.len := by
  refine finite (I := fun it : Strings => it.data.bytes <:+: value.bytes)
    (μ := fun it : Strings => it.data.len) (fun it hit => ?_) (List.infix_refl _)
  have hstay : it.data.bytes <:+: value.bytes ∧ it.data.len ≤ it.data.len := ⟨hit, le_rfl⟩
  rw [next, wp_bind, wp_get, wp_bind, wp_require]
  refine ⟨fun hne => ?_, fun _ => hstay⟩
  have hpos : 0 < it.data.len := List.length_pos_iff.mpr hne
  have hstop := getD_position_le it.data
  obtain ⟨head, hhead⟩ : ∃ head, it.data.get 0 ((position it.data).getD it.data.len) = some head :=
    Option.ne_none_iff_exists'.mp fun hn => Slice.get_eq_none.mp hn ⟨Nat.zero_le _, hstop⟩
  obtain ⟨tail, htail⟩ : ∃ tail, it.data.get ((position it.data).getD it.data.len) it.data.len =
      some tail :=
    Option.ne_none_iff_exists'.mp fun hn => Slice.get_eq_none.mp hn ⟨hstop, le_rfl⟩
  have htailLen := Slice.len_of_get htail
  rw [wp_bind, Slice.wp_range]
  refine ⟨head, hhead, ?_⟩
  rw [wp_bind, Slice.wp_range]
  refine ⟨tail, htail, ?_⟩
  -- what is left is a part of what there was, and shorter by the NUL
  have hrest : ((tail.get 1 tail.len).getD ⟨[], Slice.nil_fits⟩).bytes <:+: value.bytes ∧
      ((tail.get 1 tail.len).getD ⟨[], Slice.nil_fits⟩).len < it.data.len := by
    cases hget : tail.get 1 tail.len with
    | none => exact ⟨List.nil_infix, hpos⟩
    | some rest =>
      have hrestLen := Slice.len_of_get hget
      obtain ⟨⟨hle, -⟩, -⟩ := Slice.get_eq_some.mp hget
      refine ⟨(Slice.get_infix hget).trans ((Slice.get_infix htail).trans hit), ?_⟩
      show rest.len < it.data.len
      omega
  rw [wp_bind, wp_set, wp_ofOption]
  refine ⟨fun name hname => ⟨hrest.1, ?_, hrest.2⟩, fun _ => ⟨hrest.1, hrest.2.le⟩⟩
  rw [fromUtf8_eq_some.mp hname]
  exact (Slice.get_infix hhead).trans hit

/-- **A list of cells** ends. -/
theorem Cells.finite_next (value : Slice) :
    Finite Cells.next (fun _ => True) ⟨value, 0⟩ value.len := by
  refine finite (I := fun it : Cells => it.pos ≤ it.data.len)
    (μ := fun it : Cells => it.data.len - it.pos) (fun it hit => ?_) (Nat.zero_le _)
  have hlen := it.data.len_lt
  rw [next, wp_bind, wp_get, wp_bind, wp_readBeU32]
  refine ⟨fun cell hcell => ?_, fun _ => ⟨hit, le_rfl⟩⟩
  have hread := beU32_eq_some hcell
  rw [wp_bind, wp_add]
  refine ⟨by omega, ?_⟩
  rw [wp_bind, wp_set, wp_pure]
  exact ⟨hread, trivial, by dsimp only; omega⟩

/-- **A list of address ranges** ends, whatever the counts of their cells are. -/
theorem Reg.finite_next (value : Slice) (cells : CellCounts) :
    Finite Reg.next (fun _ => True) ⟨value, 0, cells⟩ value.len := by
  refine finite (I := fun it : Reg => it.pos ≤ it.data.len)
    (μ := fun it : Reg => it.data.len - it.pos) (fun it hit => ?_) (Nat.zero_le _)
  have hlen := it.data.len_lt
  have hstay : it.pos ≤ it.data.len ∧ it.data.len - it.pos ≤ it.data.len - it.pos := ⟨hit, le_rfl⟩
  have haddress := it.cells.address.isLt
  have hsize := it.cells.size.isLt
  have hzero : ∀ n : BitVec 32, ¬n ≠ 0 → n.toNat = 0 := fun n hn => by
    rw [not_not.mp hn]
    rfl
  rw [next, wp_bind, wp_get, wp_bind]
  refine wp_readCells (fun address hread => ?_) hstay
  rw [wp_bind, wp_mul]
  refine ⟨by omega, ?_⟩
  rw [wp_bind, wp_add]
  refine ⟨by omega, ?_⟩
  rw [wp_bind]
  refine wp_readCells (fun size hread' => ?_) hstay
  rw [wp_bind, wp_add]
  refine ⟨by omega, ?_⟩
  rw [wp_bind, wp_mul]
  refine ⟨by omega, ?_⟩
  rw [wp_bind, wp_require]
  refine ⟨fun hne => ?_, fun _ => hstay⟩
  have hend : it.pos + (it.cells.address.toNat + it.cells.size.toNat) * 4 ≤ it.data.len := by
    by_cases hs : it.cells.size ≠ 0
    · have := hread' hs
      omega
    · rw [hzero _ hs]
      by_cases ha : it.cells.address ≠ 0
      · have := hread ha
        omega
      · rw [hzero _ ha]
        omega
  rw [wp_bind, wp_add]
  refine ⟨by omega, ?_⟩
  rw [wp_bind, wp_set, wp_pure]
  exact ⟨hend, trivial, by dsimp only; omega⟩

/-- **A list of interrupts** ends, whatever the count of their cells is. -/
theorem Interrupts.finite_next (value : Slice) (cells : BitVec 32) :
    Finite Interrupts.next (fun _ => True) ⟨value, 0, cells⟩ value.len := by
  refine finite (I := fun it : Interrupts => it.pos ≤ it.data.len + 2 ^ 34)
    (μ := fun it : Interrupts => it.data.len - it.pos) (fun it hit => ?_) (Nat.zero_le _)
  have hlen := it.data.len_lt
  have hstay : it.pos ≤ it.data.len + 2 ^ 34 ∧
      it.data.len - it.pos ≤ it.data.len - it.pos := ⟨hit, le_rfl⟩
  have hcells := it.cells.isLt
  have hcell : ∀ i < 3, ∀ Q : BitVec 32 → Interrupts → Prop,
      (∀ v, (i < it.cells.toNat → it.pos + 4 * i + 4 ≤ it.data.len) → Q v it) →
      wp False (it.cell i) Q (fun _ it' => it'.pos ≤ it'.data.len + 2 ^ 34 ∧
        it'.data.len - it'.pos ≤ it.data.len - it.pos) it := by
    intro i hi Q hQ
    rw [cell, wp_ite]
    refine ⟨fun hle => (wp_pure _).mpr (hQ _ fun hlt => absurd hle hlt.not_ge), fun _ => ?_⟩
    rw [wp_bind, wp_mul]
    refine ⟨by omega, ?_⟩
    rw [wp_bind, wp_add]
    refine ⟨by omega, ?_⟩
    rw [wp_bind]
    refine wp_readCells (fun v hread => (wp_pure _).mpr (hQ _ fun _ => ?_)) hstay
    have hend := hread (by decide)
    have hone : (1 : BitVec 32).toNat = 1 := rfl
    omega
  rw [next, wp_bind, wp_get, wp_bind, wp_require]
  refine ⟨fun hne => ?_, fun _ => hstay⟩
  have hpos : 0 < it.cells.toNat := Nat.pos_of_ne_zero fun h => hne (BitVec.eq_of_toNat_eq h)
  simp only [wp_bind]
  refine hcell 0 (by omega) _ fun c0 h0 => hcell 1 (by omega) _ fun c1 _ =>
    hcell 2 (by omega) _ fun c2 _ => ?_
  have hread := h0 hpos
  simp only [wp_mul, wp_add, wp_set, wp_pure]
  exact ⟨by omega, by omega, by omega, trivial, by omega⟩

end Fdt

end StarOS
