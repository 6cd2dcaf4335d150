import StarOS.Fdt.Node

/-!
# The parser is safe on garbage

Whatever the firmware left, the parser reads inside the slice it was given, lets no integer
overflow, stays in its arrays and comes to an end: the header, every walk, and every list of every
node that can be reached. The nodes that can be reached are those of the linear walk and of the
searches, and the children of nodes that can.

## Main definitions

* `Fdt.Node.Of` — the nodes a tree can be asked for
* `Fdt.Node.Safe`, `Fdt.Property.Safe`, `Fdt.Safe`

## Main results

* `Fdt.Node.Of.on` — they are nodes of the blob
* `Fdt.safe_of_slice`
-/

namespace StarOS

namespace Fdt

open Checked

/-- A header that was accepted. -/
def Accepted (data : Slice) (f : Fdt) : Prop :=
  (new data : Checked Unit FdtError Fdt) () = .ok f ()

/-- The nodes of a tree: what the linear walk yields, the root, what a search finds, and what the
children of a node yield. -/
inductive Node.Of (f : Fdt) : Node → Prop
  | walked {n : ℕ} {as : List Node} {w : Nodes} {node : Node} :
      calls Nodes.next n f.nodes = some (as, w) → node ∈ as → Node.Of f node
  | root {w w' : Walk} {node : Node} : root f w = .ok node w' → Node.Of f node
  | found {path : String} {w w' : Walk} {node : Node} :
      findNode f path w = .ok node w' → Node.Of f node
  | child {parent node : Node} {it it' : Children} {n : ℕ} {as : List Node} : Node.Of f parent →
      (parent.children : Checked Unit Unit Children) () = .ok it () →
      calls Children.next n it = some (as, it') → node ∈ as → Node.Of f node

/-- The value of a property can be read as anything. -/
structure Property.Safe (p : Property) : Prop where
  u32 : Answers (p.asU32 : Checked Unit Unit (BitVec 32)) ()
  u64 : Answers (p.asU64 : Checked Unit Unit (BitVec 64)) ()
  uint : Answers (p.asUint : Checked Unit Unit (BitVec 64)) ()
  str : Answers (p.asStr : Checked Unit Unit String) ()
  strings : Finite Strings.next (fun name => utf8 name <:+: p.value.bytes) ⟨p.value⟩ p.value.len
  cells : Finite Cells.next (fun _ => True) ⟨p.value, 0⟩ p.value.len

/-- A node can be asked for anything. -/
structure Node.Safe (node : Node) : Prop where
  properties : Finite Properties.next (fun p => p.On node.blob ∧ p.Safe) node.properties
    node.properties.ahead
  property : ∀ name, Answers (node.property name : Checked Unit Unit Property) ()
  compatible : ∀ name, Answers (node.isCompatible name : Checked Unit Unit Bool) ()
  children : ∃ it : Children, (node.children : Checked Unit Unit Children) () = .ok it () ∧
    Finite Children.next (Node.On node.blob) it it.ahead
  reg : Answers (node.reg : Checked Unit Unit Reg) () ∧
    ∀ it : Reg, (node.reg : Checked Unit Unit Reg) () = .ok it () →
      Finite Reg.next (fun _ => True) it it.data.len
  interrupts : ∀ cells, Answers (node.interrupts cells : Checked Unit Unit Interrupts) () ∧
    ∀ it : Interrupts, (node.interrupts cells : Checked Unit Unit Interrupts) () = .ok it () →
      Finite Interrupts.next (fun _ => True) it it.data.len

/-- A tree that was accepted can be asked for anything. -/
structure Safe (f : Fdt) : Prop where
  reservations : Finite MemoryReservations.next (fun _ => True) f.memoryReservations
    f.memoryReservations.ahead
  nodes : Finite Nodes.next (Node.On f.blob) f.nodes f.nodes.ahead
  root : ∀ w, Answers (root f) w
  findNode : ∀ path w, Answers (findNode f path) w
  node : ∀ node : Node, node.Of f → node.On f.blob ∧ node.Safe

variable {b : Blob} {f : Fdt} {node : Node}

/-- **Any bytes** can be read as anything. -/
theorem Property.safe (p : Property) : p.Safe := by
  have hu32 : wp False (p.asU32 : Checked Unit Unit (BitVec 32)) (fun _ _ => True) (fun _ _ => True)
      () := by
    rw [asU32, wp_bind, wp_require, wp_readBeU32]
    exact ⟨fun _ => ⟨fun _ _ => trivial, fun _ => trivial⟩, fun _ => trivial⟩
  have hu64 : wp False (p.asU64 : Checked Unit Unit (BitVec 64)) (fun _ _ => True) (fun _ _ => True)
      () := by
    rw [asU64, wp_bind, wp_require]
    exact ⟨fun _ => wp_readBeU64 (fun _ _ => trivial) trivial, fun _ => trivial⟩
  have huint : wp False (p.asUint : Checked Unit Unit (BitVec 64)) (fun _ _ => True)
      (fun _ _ => True) () := by
    rw [asUint, wp_ite, wp_ite, wp_bind]
    exact ⟨fun _ => wp_mono hu32 (fun _ _ _ => (wp_pure _).mpr trivial) fun _ _ _ => trivial,
      fun _ => ⟨fun _ => hu64, fun _ => (wp_fail _).mpr trivial⟩⟩
  have hstr : wp False (p.asStr : Checked Unit Unit String) (fun _ _ => True) (fun _ _ => True)
      () := by
    have hstop := getD_position_le p.value
    obtain ⟨head, hhead⟩ : ∃ head, p.value.get 0 ((position p.value).getD p.value.len) =
        some head :=
      Option.ne_none_iff_exists'.mp fun hn => Slice.get_eq_none.mp hn ⟨Nat.zero_le _, hstop⟩
    rw [asStr, wp_bind, Slice.wp_range]
    refine ⟨head, hhead, ?_⟩
    rw [wp_ofOption]
    exact ⟨fun _ _ => trivial, fun _ => trivial⟩
  exact {
    u32 := answers_of_wp hu32
    u64 := answers_of_wp hu64
    uint := answers_of_wp huint
    str := answers_of_wp hstr
    strings := Strings.finite_next p.value
    cells := Cells.finite_next p.value }

/-- The children of a node are read from where it begins. -/
theorem Node.On.children (h : node.On b) :
    ∃ it : Children, (node.children : Checked Unit Unit Children) () = .ok it () ∧ it.On b := by
  have hbody := h.body_le
  have hwp : wp False (node.children : Checked Unit Unit Children) (fun it _ => it.On b)
      (fun _ _ => False) () := by
    rw [Node.children, wp_bind]
    refine wp_cells h fun cells _ => (wp_pure _).mpr ⟨h.blob_eq, ?_⟩
    show node.body ≤ b.data.len + 2 ^ 33
    omega
  obtain ⟨it, ⟨⟩, hit, hon⟩ | ⟨_, _, -, hfalse⟩ := exists_of_wp hwp
  · exact ⟨it, hit, hon⟩
  · exact hfalse.elim

/-- **What a tree can be asked for** is a node of its blob. -/
theorem Node.Of.on (h : node.Of f) (hb : f.blob.Sound) : node.On f.blob := by
  induction h with
  | walked hcalls hmem =>
    obtain ⟨as, w, hcalls', -, hall⟩ := (Nodes.finite_next f hb).calls _
    rw [hcalls'] at hcalls
    cases hcalls
    exact hall _ hmem
  | root hroot => exact (wp_of_ok hroot).mp (wp_root f hb _)
  | found hfound => exact (wp_of_ok hfound).mp (wp_findNode f hb _ _)
  | child hparent hit hcalls hmem ih =>
    obtain ⟨it, hit', hon⟩ := ih.children
    rw [hit'] at hit
    cases hit
    obtain ⟨as, it', hcalls', -, hall⟩ := (Children.finite_next hon).calls _
    rw [hcalls'] at hcalls
    cases hcalls
    exact hall _ hmem

/-- **A node** can be asked for anything. -/
theorem Node.On.safe (h : node.On b) : node.Safe := by
  obtain rfl := h.blob_eq
  have hproperty : ∀ {α : Type} (name : String) (k : Property → Checked Unit Unit α)
      (Q : α → Unit → Prop), (∀ p, wp False (k p) Q (fun _ _ => True) ()) →
      wp False (node.property name >>= k) Q (fun _ _ => True) () := by
    intro α name k Q hk
    rw [wp_bind]
    exact wp_mono (wp_property h name) (fun p _ _ => hk p) fun _ _ _ => trivial
  have hreg : wp False (node.reg : Checked Unit Unit Reg) (fun it _ => ∃ value,
      it = ⟨value, 0, node.parentCells⟩) (fun _ _ => True) () :=
    hproperty _ _ _ fun p => (wp_pure _).mpr ⟨p.value, rfl⟩
  have hinterrupts : ∀ cells, wp False (node.interrupts cells : Checked Unit Unit Interrupts)
      (fun it _ => ∃ value, it = ⟨value, 0, cells⟩) (fun _ _ => True) () := fun cells =>
    hproperty _ _ _ fun p => (wp_pure _).mpr ⟨p.value, rfl⟩
  obtain ⟨it, hit, hon⟩ := h.children
  exact {
    properties := by
      refine finite (I := Properties.On node.blob) (fun it hit => ?_) h.properties
      exact wp_mono (Properties.wp_next hit) (fun p _ hp => ⟨hp.1, ⟨hp.2.1, p.safe⟩, hp.2.2⟩)
        fun _ _ hp => hp
    property := fun name => answers_of_wp (wp_property h name)
    compatible := fun name => by
      refine answers_of_wp (Q := fun _ _ => True) (F := fun _ _ => True) ?_
      rw [isCompatible, wp_bind, wp_attempt]
      refine wp_mono (hproperty _ _ (fun _ _ => True) fun p => ?_)
        (fun _ _ _ => (wp_pure _).mpr trivial) fun _ _ _ => (wp_pure _).mpr trivial
      rw [wp_on]
      exact wp_mono ((Strings.finite_next p.value).wp_find (Nat.lt_succ_self _) _)
        (fun _ _ _ => trivial) fun _ _ _ => trivial
    children := ⟨it, hit, Children.finite_next hon⟩
    reg := by
      refine ⟨answers_of_wp hreg, fun it hit => ?_⟩
      obtain ⟨value, rfl⟩ := (wp_of_ok hit).mp hreg
      exact Reg.finite_next value node.parentCells
    interrupts := by
      refine fun cells => ⟨answers_of_wp (hinterrupts cells), fun it hit => ?_⟩
      obtain ⟨value, rfl⟩ := (wp_of_ok hit).mp (hinterrupts cells)
      exact Interrupts.finite_next value cells }

/-- **The parser is safe on garbage.** On any slice the header is accepted or refused, and a tree
that was accepted lies in the slice and can be asked for anything. -/
theorem safe_of_slice (data : Slice) :
    Answers (new data : Checked Unit FdtError Fdt) () ∧
      ∀ f, Accepted data f → f.Sound data ∧ f.Safe := by
  refine ⟨answers_of_wp (wp_new data), fun f hf => ?_⟩
  obtain ⟨-, hsound⟩ := (wp_of_ok hf).mp (wp_new data)
  have hb := hsound.blob
  exact ⟨hsound, {
    reservations := MemoryReservations.finite_next f hsound.rsvmap.le
    nodes := Nodes.finite_next f hb
    root := fun w => answers_of_wp (wp_root f hb w)
    findNode := fun path w => answers_of_wp (wp_findNode f hb path w)
    node := fun node hnode => ⟨hnode.on hb, (hnode.on hb).safe⟩ }⟩

end Fdt

end StarOS
