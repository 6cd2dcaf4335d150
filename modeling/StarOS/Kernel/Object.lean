import Mathlib.Algebra.Group.Nat.Defs
import Mathlib.Data.List.Nodup
import Mathlib.Data.List.Range
import Mathlib.Tactic.Common
import StarOS.Lib.EventSystem

/-!
# The kernel object table

A capability does not name a kernel resource; it holds a reference into one global table of
objects. A reference is a slot index and the generation the slot held when the reference was
minted, and it resolves only while the two still agree, so bumping the generation withdraws every
copy of it at once.

## What the heap decides

`create` grows the table with `try_reserve`, which fails when the kernel heap has no room. Whether
it has room at a given moment is not modelled: it is an argument. What is modelled is that it
never has room for a table of `2 ^ 32` slots. A slot is at least sixteen bytes, so such a table is
64 GiB, and the heap `main.rs` carves is the frame allocator's own tree and 3 MiB of slack.

## Main results

* `Obj.revoke_create` — undoing a creation
* `Obj.revocation_final` — what a reference resolves to, in every state of every history
-/

namespace StarOS

/-- The most pages one `CreateShared` may ask for. -/
def maxSharedPages : ℕ := 2048

/-- The most pages one `CreateDma` may ask for. -/
def maxDmaPages : ℕ := 256

/-- A kernel resource a capability can name. -/
inductive Object
  /-- An IPC endpoint, by index into the endpoint table. -/
  | endpoint (id : ℕ)
  /-- A device MMIO page, by physical base address. -/
  | device (phys : BitVec 64)
  /-- A notification, by index into the notification table. -/
  | notification (id : ℕ)
  /-- A hardware interrupt line. -/
  | interrupt (intid : BitVec 32)
  /-- The authority to mint devices and interrupts. -/
  | deviceAuthority
  /-- A shared-memory buffer: a frame run in `shm` and its length. -/
  | sharedMemory (id : ℕ) (pages : BitVec 32)
  /-- A DMA buffer: a contiguous run of frames. -/
  | dmaBuffer (phys : BitVec 64) (pages : BitVec 32)
  /-- The display's scanout. -/
  | scanout
  deriving DecidableEq, Repr

/-- A revocable reference to an object: a slot, and the generation it held when the reference was
made. -/
structure ObjectRef where
  /-- Slot index in the object table. -/
  index : BitVec 32
  /-- Generation this reference was minted at. -/
  generation : BitVec 32
  deriving DecidableEq, Repr

namespace Obj

/-- One slot: the live object, if any, and its current generation. -/
structure Slot where
  generation : BitVec 32
  object : Option Object
  deriving DecidableEq, Repr

/-- `Vec::try_reserve(1)` on a table of `len` slots, `room` being whether the heap has room. -/
def tryReserve (len : ℕ) (room : Bool) : Bool := room && decide (len < 2 ^ 32)

/-- Create an object, answering with a reference to it: in the first empty slot, which keeps its
generation, or in a new one. `live` is whether the endpoint the object names, if it names one,
exists in the endpoint table. -/
def create (live room : Bool) (slots : List Slot) (object : Object) :
    Option (ObjectRef × List Slot) :=
  match object, live with
  | .endpoint _, false => none
  | _, _ =>
    match slots.findIdx? (·.object.isNone) with
    | some i =>
      let generation := (slots.getD i ⟨0, none⟩).generation
      some (⟨BitVec.ofNat 32 i, generation⟩, slots.set i ⟨generation, some object⟩)
    | none =>
      if tryReserve slots.length room then
        some (⟨BitVec.ofNat 32 slots.length, 0⟩, slots ++ [⟨0, some object⟩])
      else none

/-- Resolve a reference to its live object. -/
def get (slots : List Slot) (r : ObjectRef) : Option Object :=
  match slots[r.index.toNat]? with
  | none => none
  | some slot => if slot.generation = r.generation then slot.object else none

/-- Empty a slot and move its generation on. -/
def Slot.clear (slot : Slot) : Slot := ⟨slot.generation + 1, none⟩

/-- Revoke the object a reference names. The flag is whether the reference was live. -/
def revoke (slots : List Slot) (r : ObjectRef) : Bool × List Slot :=
  match slots[r.index.toNat]? with
  | none => (false, slots)
  | some slot =>
    if slot.generation = r.generation ∧ slot.object.isSome then
      (true, slots.set r.index.toNat slot.clear)
    else (false, slots)

/-- Whether the shutdown sweep frees what this slot's object holds. -/
def Slot.reclaimable (slot : Slot) : Bool :=
  match slot.object with
  | some (.sharedMemory ..) | some (.dmaBuffer ..) => true
  | _ => false

/-- The shutdown sweep: the table with every slot that owns frames cleared, the shared-memory runs
to hand back, and the bases of the DMA runs freed. -/
def freeReclaimable (slots : List Slot) : List Slot × List ℕ × List (BitVec 64) :=
  (slots.map fun slot => if slot.reclaimable then slot.clear else slot,
   slots.filterMap fun slot => match slot.object with
    | some (.sharedMemory id _) => some id
    | _ => none,
   slots.filterMap fun slot => match slot.object with
    | some (.dmaBuffer phys _) => some phys
    | _ => none)

/-! ### Histories

The table together with what has happened to it, oldest first. -/

/-- What a history records: the successes of the three operations. -/
inductive Entry
  | created (r : ObjectRef) (object : Object)
  | revoked (r : ObjectRef)
  | reclaimed (r : ObjectRef)
  deriving DecidableEq, Repr

/-- A table and the record of the operations that made it. -/
structure History where
  slots : List Slot
  log : List Entry

/-- An operation on the table, with what the rest of the kernel answers it. -/
inductive Op
  | create (object : Object) (live room : Bool)
  | revoke (r : ObjectRef)
  | freeReclaimable

/-- What the sweep does to the slot at `i`: it withdraws the reference to an object that owns
frames. -/
def sweepAt (slots : List Slot) (i : ℕ) : Option Entry :=
  (slots[i]?.filter Slot.reclaimable).map fun slot =>
    .reclaimed ⟨BitVec.ofNat 32 i, slot.generation⟩

/-- The references the sweep withdraws, in the order of the slots. -/
def sweep (slots : List Slot) : List Entry := (List.range slots.length).filterMap (sweepAt slots)

/-- One operation. Every operation is possible in every state; one that fails changes nothing. -/
def History.step (h : History) : Op → History
  | .create object live room =>
    match create live room h.slots object with
    | some (r, slots) => ⟨slots, h.log ++ [.created r object]⟩
    | none => h
  | .revoke r =>
    match revoke h.slots r with
    | (true, slots) => ⟨slots, h.log ++ [.revoked r]⟩
    | (false, _) => h
  | .freeReclaimable => ⟨(freeReclaimable h.slots).1, h.log ++ sweep h.slots⟩

/-- The object table from boot on. -/
def objectTable : EventSystem History Op where
  init h := h = ⟨[], []⟩
  next h op := some (h.step op)

/-! ### What a history says about one slot -/

/-- The generations and objects of the references minted in slot `i`, oldest first. -/
def createdAt (log : List Entry) (i : ℕ) : List (BitVec 32 × Object) :=
  log.filterMap fun
    | .created r object => if r.index.toNat = i then some (r.generation, object) else none
    | _ => none

/-- The generations withdrawn in slot `i`, oldest first. -/
def endedAt (log : List Entry) (i : ℕ) : List (BitVec 32) :=
  log.filterMap fun
    | .revoked r | .reclaimed r => if r.index.toNat = i then some r.generation else none
    | _ => none

/-- How often slot `i` has been reused: every creation in it but the first. -/
def reuses (log : List Entry) (i : ℕ) : ℕ := (createdAt log i).length - 1

/-- The references handed out, oldest first. -/
def minted (log : List Entry) : List ObjectRef :=
  log.filterMap fun
    | .created r _ => some r
    | _ => none

@[simp] theorem createdAt_append (log log' : List Entry) (i : ℕ) :
    createdAt (log ++ log') i = createdAt log i ++ createdAt log' i :=
  List.filterMap_append

@[simp] theorem endedAt_append (log log' : List Entry) (i : ℕ) :
    endedAt (log ++ log') i = endedAt log i ++ endedAt log' i :=
  List.filterMap_append

theorem toNat_inj {r : ObjectRef} {i : BitVec 32} : i.toNat = r.index.toNat ↔ i = r.index :=
  BitVec.toNat_inj

theorem mem_createdAt {log : List Entry} {r : ObjectRef} {o : Object} :
    (r.generation, o) ∈ createdAt log r.index.toNat ↔ Entry.created r o ∈ log := by
  simp only [createdAt, List.mem_filterMap]
  constructor
  · rintro ⟨e, he, hs⟩
    cases e with
    | created r' o' =>
      simp only [Option.ite_none_right_eq_some, Option.some.injEq, Prod.mk.injEq, toNat_inj] at hs
      obtain ⟨hi, hg, rfl⟩ := hs
      cases r'
      cases r
      simp_all
    | revoked | reclaimed => simp at hs
  · exact fun he => ⟨_, he, by simp⟩

theorem mem_endedAt {log : List Entry} {r : ObjectRef} :
    r.generation ∈ endedAt log r.index.toNat ↔
      Entry.revoked r ∈ log ∨ Entry.reclaimed r ∈ log := by
  simp only [endedAt, List.mem_filterMap]
  constructor
  · rintro ⟨e, he, hs⟩
    cases e with
    | created => simp at hs
    | revoked r' | reclaimed r' =>
      simp only [Option.ite_none_right_eq_some, Option.some.injEq, toNat_inj] at hs
      obtain ⟨hi, hg⟩ := hs
      obtain rfl : r' = r := by
        cases r'
        cases r
        simp_all
      first | exact .inl he | exact .inr he
  · rintro (he | he) <;> exact ⟨_, he, by simp⟩

theorem minted_filter (log : List Entry) (i : ℕ) :
    ((minted log).filter fun r => r.index.toNat = i).map (·.generation) =
      (createdAt log i).map Prod.fst := by
  induction log with
  | nil => rfl
  | cons e log ih =>
    cases e with
    | created r o =>
      by_cases hi : r.index.toNat = i <;>
        simpa [minted, createdAt, hi] using ih
    | revoked | reclaimed => simpa [minted, createdAt] using ih

theorem filterMap_range_eq {α : Type*} (f : ℕ → Option α) (i n : ℕ) :
    ((List.range n).filterMap fun k => if k = i then f k else none) =
      if i < n then (f i).toList else [] := by
  induction n with
  | zero => simp
  | succ n ih =>
    rw [List.range_succ, List.filterMap_append, ih]
    rcases Nat.lt_trichotomy i n with hin | rfl | hin
    · rw [if_pos hin, if_pos (by omega)]
      simp [hin.ne']
    · rw [if_neg (by omega), if_pos (by omega)]
      cases hf : f i <;> simp [hf]
    · rw [if_neg (by omega), if_neg (by omega)]
      simp [hin.ne]

/-- What the sweep withdraws in slot `i`: the generation of that slot, if it owns frames. -/
theorem endedAt_sweep {slots : List Slot} (hlen : slots.length ≤ 2 ^ 32) (i : ℕ) :
    endedAt (sweep slots) i =
      ((slots[i]?.filter Slot.reclaimable).map Slot.generation).toList := by
  have hstep : endedAt (sweep slots) i = (List.range slots.length).filterMap fun k =>
      if k = i then (slots[k]?.filter Slot.reclaimable).map Slot.generation else none := by
    rw [endedAt, sweep, List.filterMap_filterMap]
    refine List.filterMap_congr fun k hk => ?_
    have hk32 : k % 2 ^ 32 = k :=
      Nat.mod_eq_of_lt ((List.mem_range.mp hk).trans_le hlen)
    rw [sweepAt]
    cases slots[k]?.filter Slot.reclaimable with
    | none => simp
    | some slot => simp only [Option.map_some, Option.bind_some, BitVec.toNat_ofNat, hk32]
  rw [hstep, filterMap_range_eq]
  split
  · rfl
  · next hge => rw [List.getElem?_eq_none (Nat.le_of_not_lt hge)]; rfl

theorem createdAt_sweep (slots : List Slot) (i : ℕ) : createdAt (sweep slots) i = [] := by
  rw [createdAt, sweep, List.filterMap_filterMap, List.filterMap_eq_nil_iff]
  intro k _
  rw [sweepAt]
  cases slots[k]?.filter Slot.reclaimable <;> rfl

/-! ### The invariant

The generations withdrawn in a slot are `0, 1, …, g - 1` and the one it holds is `g`; those minted
in it are the same, and `g` as well while the slot is occupied. Everything is read modulo
`2 ^ 32`, which is why nothing follows about references until the reuses are bounded. -/

/-- Slot `i`, which the table holds as `slot`, is as the history says. -/
def SlotInv (log : List Entry) (i : ℕ) : Option Slot → Prop
  | none => createdAt log i = [] ∧ endedAt log i = []
  | some slot => ∃ g, slot.generation = BitVec.ofNat 32 g ∧
      endedAt log i = (List.range g).map (BitVec.ofNat 32) ∧
      ∃ past, createdAt log i = past ++ slot.object.toList.map (slot.generation, ·) ∧
        past.map Prod.fst = (List.range g).map (BitVec.ofNat 32)

/-- Every slot is as the history says, and an index of the table fits a reference. -/
structure History.Inv (h : History) : Prop where
  len : h.slots.length ≤ 2 ^ 32
  slot : ∀ i, SlotInv h.log i h.slots[i]?

theorem SlotInv.append {log log' : List Entry} {i : ℕ} {slot : Option Slot}
    (h : SlotInv log i slot) (hc : createdAt log' i = []) (he : endedAt log' i = []) :
    SlotInv (log ++ log') i slot := by
  cases slot <;> simpa only [SlotInv, createdAt_append, endedAt_append, hc, he, List.append_nil]

/-- A creation fills an empty slot, at the generation it stands at. -/
theorem SlotInv.fill {log : List Entry} {i : ℕ} {slot : Slot} {r : ObjectRef} {o : Object}
    (h : SlotInv log i (some slot)) (hn : slot.object = none) (hi : r.index.toNat = i)
    (hg : r.generation = slot.generation) :
    SlotInv (log ++ [.created r o]) i (some ⟨slot.generation, some o⟩) := by
  obtain ⟨g, hgen, hend, past, hcre, hpast⟩ := h
  refine ⟨g, hgen, ?_, past, ?_, hpast⟩
  · simpa [endedAt] using hend
  · rw [hn] at hcre
    simpa [createdAt, hi, hg] using hcre

/-- A withdrawal empties a slot and moves its generation on. -/
theorem SlotInv.clear {log log' : List Entry} {i : ℕ} {slot : Slot} {o : Object}
    (h : SlotInv log i (some slot)) (ho : slot.object = some o) (hc : createdAt log' i = [])
    (he : endedAt log' i = [slot.generation]) :
    SlotInv (log ++ log') i (some slot.clear) := by
  obtain ⟨g, hgen, hend, past, hcre, hpast⟩ := h
  rw [ho] at hcre
  refine ⟨g + 1, ?_, ?_, past ++ [(slot.generation, o)], ?_, ?_⟩
  · simp only [Slot.clear, hgen]
    exact BitVec.eq_of_toNat_eq (by simp)
  · rw [endedAt_append, hend, he, hgen, List.range_succ, List.map_append]
    rfl
  · simpa [hc, Slot.clear] using hcre
  · rw [List.map_append, hpast, List.range_succ, List.map_append, hgen]
    rfl

/-- Nothing happens to a slot when the one entry logged is about another. -/
theorem SlotInv.other {log : List Entry} {i j : ℕ} {slot : Option Slot} {e : Entry}
    (h : SlotInv log i slot) (hij : j ≠ i)
    (he : (∃ r o, e = .created r o ∧ r.index.toNat = j) ∨ ∃ r, e = .revoked r ∧ r.index.toNat = j) :
    SlotInv (log ++ [e]) i slot := by
  refine h.append ?_ ?_ <;>
    rcases he with ⟨r, o, rfl, hr⟩ | ⟨r, rfl, hr⟩ <;> simp [createdAt, endedAt, hr, hij]

/-- A creation fills an empty slot, or adds one. -/
theorem create_eq_some {slots slots' : List Slot} {live room : Bool} {object : Object}
    {r : ObjectRef} (hc : create live room slots object = some (r, slots')) :
    (∃ i slot, slots[i]? = some slot ∧ slot.object = none ∧
      r = ⟨BitVec.ofNat 32 i, slot.generation⟩ ∧
      slots' = slots.set i ⟨slot.generation, some object⟩) ∨
    (slots.length < 2 ^ 32 ∧ r = ⟨BitVec.ofNat 32 slots.length, 0⟩ ∧
      slots' = slots ++ [⟨0, some object⟩]) := by
  unfold create at hc
  split at hc
  · simp at hc
  · split at hc
    · next i hf =>
      obtain ⟨hlt, hnone, -⟩ := List.findIdx?_eq_some_iff_getElem.mp hf
      have hget : slots[i]? = some slots[i] := List.getElem?_eq_getElem hlt
      obtain ⟨rfl, rfl⟩ := Prod.mk.inj (Option.some.inj hc)
      refine .inl ⟨i, slots[i], hget, by simpa using hnone, ?_, ?_⟩ <;>
        simp [List.getD_eq_getElem?_getD, hget]
    · split at hc
      · next hroom =>
        obtain ⟨rfl, rfl⟩ := Prod.mk.inj (Option.some.inj hc)
        refine .inr ⟨?_, rfl, rfl⟩
        simp only [tryReserve, Bool.and_eq_true, decide_eq_true_eq] at hroom
        exact hroom.2
      · simp at hc

/-- A revocation empties the slot the reference names, or does nothing. -/
theorem revoke_cases (slots : List Slot) (r : ObjectRef) :
    (∃ o, slots[r.index.toNat]? = some ⟨r.generation, some o⟩ ∧
      revoke slots r = (true, slots.set r.index.toNat (Slot.clear ⟨r.generation, some o⟩))) ∨
    (get slots r = none ∧ revoke slots r = (false, slots)) := by
  rw [revoke, get]
  cases hget : slots[r.index.toNat]? with
  | none => exact .inr ⟨rfl, rfl⟩
  | some slot =>
    obtain ⟨generation, object⟩ := slot
    dsimp only
    by_cases hgen : generation = r.generation
    · subst hgen
      cases object with
      | none =>
        rw [if_neg (by simp), if_pos rfl]
        exact .inr ⟨rfl, rfl⟩
      | some o =>
        rw [if_pos ⟨rfl, rfl⟩]
        exact .inl ⟨o, rfl, rfl⟩
    · rw [if_neg fun h => hgen h.1, if_neg hgen]
      exact .inr ⟨rfl, rfl⟩

/-- Whether `create` finds a slot for an object, `room` being whether the heap has room for a new
one. -/
def canCreate (slots : List Slot) (room : Bool) : Bool :=
  slots.any (·.object.isNone) || tryReserve slots.length room

/-- Which object is created makes no difference. -/
theorem create_isSome (slots : List Slot) (room : Bool) (object : Object) :
    (create true room slots object).isSome = canCreate slots room := by
  have hlive : create true room slots object =
      match slots.findIdx? (·.object.isNone) with
      | some i => some (⟨BitVec.ofNat 32 i, (slots.getD i ⟨0, none⟩).generation⟩,
          slots.set i ⟨(slots.getD i ⟨0, none⟩).generation, some object⟩)
      | none =>
        if tryReserve slots.length room then
          some (⟨BitVec.ofNat 32 slots.length, 0⟩, slots ++ [⟨0, some object⟩])
        else none := by
    cases object <;> rfl
  rw [hlive, canCreate, ← List.findIdx?_isSome]
  cases slots.findIdx? (·.object.isNone) with
  | some i => rfl
  | none => cases tryReserve slots.length room <;> rfl

/-- In a slot that has no object, nothing is live. -/
theorem get_set_none {slots : List Slot} {i : ℕ} {slot slot' : Slot} (hget : slots[i]? = some slot)
    (hnone : slot.object = none) (hnone' : slot'.object = none) (r : ObjectRef) :
    get (slots.set i slot') r = get slots r := by
  have hdead : ∀ dead : Slot, dead.object = none →
      (if dead.generation = r.generation then dead.object else none) = none := by
    intro dead hdead
    rw [hdead, ite_self]
  rw [get, get, List.getElem?_set]
  by_cases hi : i = r.index.toNat
  · rw [if_pos hi, if_pos (List.getElem?_eq_some_iff.mp hget).1, ← hi, hget]
    exact (hdead _ hnone').trans (hdead _ hnone).symm
  · rw [if_neg hi]

/-- Nor is it in one that was never used. -/
theorem get_append_none (slots : List Slot) {slot : Slot} (hnone : slot.object = none)
    (r : ObjectRef) : get (slots ++ [slot]) r = get slots r := by
  rw [get, get]
  rcases Nat.lt_trichotomy r.index.toNat slots.length with hlt | heq | hgt
  · rw [List.getElem?_append_left hlt]
  · rw [heq, List.getElem?_concat_length, List.getElem?_eq_none (Nat.le_refl _)]
    dsimp only
    rw [hnone, ite_self]
  · rw [List.getElem?_eq_none (Nat.le_of_lt hgt), List.getElem?_eq_none]
    rw [List.length_append, List.length_singleton]
    exact hgt

/-- **Undoing a creation**: once the reference is revoked, the same objects are live as before. -/
theorem revoke_create {slots slots' : List Slot} {live room : Bool} {object : Object}
    {r : ObjectRef} (hlen : slots.length ≤ 2 ^ 32)
    (hc : create live room slots object = some (r, slots')) :
    slots'.length ≤ 2 ^ 32 ∧ (revoke slots' r).2.length ≤ 2 ^ 32 ∧
      ∀ r', get (revoke slots' r).2 r' = get slots r' := by
  have hlive : ∀ {table : List Slot} {i : ℕ} {g : BitVec 32}, i < 2 ^ 32 →
      table[i]? = some ⟨g, some object⟩ →
      (revoke table ⟨BitVec.ofNat 32 i, g⟩).2 = table.set i ⟨g + 1, none⟩ := by
    intro table i g hi hget
    have hi32 : (BitVec.ofNat 32 i).toNat = i := by
      rw [BitVec.toNat_ofNat, Nat.mod_eq_of_lt hi]
    rw [revoke]
    dsimp only
    rw [hi32, hget]
    dsimp only
    rw [if_pos ⟨rfl, rfl⟩]
    rfl
  rcases create_eq_some hc with ⟨i, slot, hget, hnone, rfl, rfl⟩ | ⟨hlt, rfl, rfl⟩
  · have hi : i < slots.length := (List.getElem?_eq_some_iff.mp hget).1
    rw [hlive (hi.trans_le hlen) (List.getElem?_set_self hi), List.set_set]
    refine ⟨by rwa [List.length_set], by rwa [List.length_set], fun r' => ?_⟩
    exact get_set_none hget hnone rfl r'
  · rw [hlive hlt List.getElem?_concat_length, List.set_append_right _ _ (Nat.le_refl _),
      Nat.sub_self]
    refine ⟨?_, ?_, fun r' => get_append_none slots rfl r'⟩
    · rw [List.length_append, List.length_singleton]
      exact hlt
    · rw [List.length_append]
      exact hlt

theorem Inv_create {h : History} (hi : h.Inv) {live room : Bool} {object : Object} {r : ObjectRef}
    {slots : List Slot} (hc : create live room h.slots object = some (r, slots)) :
    History.Inv ⟨slots, h.log ++ [.created r object]⟩ := by
  rcases create_eq_some hc with ⟨i, slot, hget, hnone, rfl, rfl⟩ | ⟨hlt, rfl, rfl⟩
  · have hilt : i < h.slots.length := (List.getElem?_eq_some_iff.mp hget).1
    have hi32 : (BitVec.ofNat 32 i).toNat = i := by
      rw [BitVec.toNat_ofNat, Nat.mod_eq_of_lt (hilt.trans_le hi.len)]
    refine ⟨by simpa using hi.len, fun j => ?_⟩
    rcases eq_or_ne i j with rfl | hij
    · simp only [List.getElem?_set_self hilt]
      exact (hget ▸ hi.slot i).fill hnone hi32 rfl
    · rw [List.getElem?_set_ne hij]
      exact (hi.slot j).other hij (.inl ⟨_, _, rfl, hi32⟩)
  · have hi32 : (BitVec.ofNat 32 h.slots.length).toNat = h.slots.length := by
      rw [BitVec.toNat_ofNat, Nat.mod_eq_of_lt hlt]
    refine ⟨by simp only [List.length_append, List.length_singleton]; omega, fun j => ?_⟩
    rcases eq_or_ne h.slots.length j with rfl | hij
    · obtain ⟨hcre, hend⟩ := (List.getElem?_eq_none (Nat.le_refl _)) ▸ hi.slot h.slots.length
      rw [List.getElem?_concat_length]
      exact ⟨0, rfl, by simpa [endedAt] using hend, [], by simpa [createdAt, hi32] using hcre, rfl⟩
    · have hget : (h.slots ++ [⟨0, some object⟩])[j]? = h.slots[j]? := by
        rcases Nat.lt_or_ge j h.slots.length with hj | hj
        · exact List.getElem?_append_left hj
        · rw [List.getElem?_append_right hj, List.getElem?_eq_none hj, List.getElem?_eq_none]
          simp only [List.length_singleton]
          omega
      simp only [hget]
      exact (hi.slot j).other hij (.inl ⟨_, _, rfl, hi32⟩)

theorem Inv_revoke {h : History} (hi : h.Inv) {r : ObjectRef} {slots : List Slot}
    (hr : revoke h.slots r = (true, slots)) : History.Inv ⟨slots, h.log ++ [.revoked r]⟩ := by
  rw [revoke] at hr
  split at hr
  · simp at hr
  · next slot hget =>
    split at hr
    · next hlive =>
      obtain ⟨-, rfl⟩ := Prod.mk.inj hr
      obtain ⟨o, ho⟩ := Option.isSome_iff_exists.mp hlive.2
      have hilt := (List.getElem?_eq_some_iff.mp hget).1
      refine ⟨by simpa using hi.len, fun j => ?_⟩
      rcases eq_or_ne r.index.toNat j with rfl | hij
      · simp only [List.getElem?_set_self hilt]
        exact (hget ▸ hi.slot _).clear ho (by simp [createdAt]) (by simp [endedAt, hlive.1])
      · rw [List.getElem?_set_ne hij]
        exact (hi.slot j).other hij (.inr ⟨_, rfl, rfl⟩)
    · simp at hr

theorem Inv_freeReclaimable {h : History} (hi : h.Inv) :
    History.Inv ⟨(freeReclaimable h.slots).1, h.log ++ sweep h.slots⟩ := by
  refine ⟨by simpa [freeReclaimable] using hi.len, fun j => ?_⟩
  have hend := endedAt_sweep hi.len j
  simp only [freeReclaimable, List.getElem?_map]
  have hslot := hi.slot j
  cases hget : h.slots[j]? with
  | none =>
    rw [hget] at hend hslot
    exact hslot.append (createdAt_sweep _ _) (by simpa using hend)
  | some slot =>
    rw [hget] at hend hslot
    simp only [Option.map_some]
    split
    · next hrec =>
      obtain ⟨o, ho⟩ : ∃ o, slot.object = some o := by
        cases ho : slot.object with
        | none => simp [Slot.reclaimable, ho] at hrec
        | some o => exact ⟨o, rfl⟩
      exact hslot.clear ho (createdAt_sweep _ _) (by simpa [Option.filter, hrec] using hend)
    · next hrec =>
      exact hslot.append (createdAt_sweep _ _) (by simpa [Option.filter, hrec] using hend)

theorem Inv_step {h : History} (hi : h.Inv) (op : Op) : (h.step op).Inv := by
  cases op with
  | create object live room =>
    simp only [History.step]
    split
    · next hc => exact Inv_create hi hc
    · exact hi
  | revoke r =>
    simp only [History.step]
    split
    · next hr => exact Inv_revoke hi hr
    · exact hi
  | freeReclaimable => exact Inv_freeReclaimable hi

theorem inv_of_reachable {h : History} (hr : objectTable.Reachable h) : h.Inv := by
  refine hr.invariant (fun s hs => ?_) fun s op s' hi _ hn => ?_
  · rw [show s = ⟨[], []⟩ from hs]
    exact ⟨by simp, fun i => ⟨rfl, rfl⟩⟩
  · obtain rfl := Option.some.inj hn
    exact Inv_step hi op

/-! ### References -/

theorem get_eq_some {slots : List Slot} {r : ObjectRef} {o : Object} :
    get slots r = some o ↔
      ∃ slot, slots[r.index.toNat]? = some slot ∧ slot.generation = r.generation ∧
        slot.object = some o := by
  rw [get]
  split <;> simp_all

/-- Below `2 ^ 32` generations, no two of them are the same. -/
theorem nodup_generations {g : ℕ} (hg : g ≤ 2 ^ 32) :
    ((List.range g).map (BitVec.ofNat 32)).Nodup := by
  refine List.Nodup.map_on (fun a ha b hb hab => ?_) List.nodup_range
  have := congrArg BitVec.toNat hab
  simp only [List.mem_range] at ha hb
  simp only [BitVec.toNat_ofNat] at this
  omega

/-- The generations minted in a slot are `0, …, n - 1`. -/
theorem SlotInv.createdAt_fst {log : List Entry} {i : ℕ} {slot : Option Slot}
    (h : SlotInv log i slot) :
    (createdAt log i).map Prod.fst =
      (List.range (createdAt log i).length).map (BitVec.ofNat 32) := by
  cases slot with
  | none => simp [h.1]
  | some slot =>
    obtain ⟨g, hgen, -, past, hcre, hpast⟩ := h
    have hlen : past.length = g := by simpa using congrArg List.length hpast
    rw [hcre]
    cases ho : slot.object with
    | none => simp [hpast, hlen]
    | some o => simp [hpast, hlen, List.range_succ, hgen]

/-- A slot reused fewer than `2 ^ 32` times has minted at most `2 ^ 32` generations. -/
theorem length_createdAt_le {log : List Entry} {i : ℕ} (h : reuses log i < 2 ^ 32) :
    (createdAt log i).length ≤ 2 ^ 32 := by
  simp only [reuses] at h
  omega

theorem get_iff {h : History} (hi : h.Inv) {r : ObjectRef} (hb : reuses h.log r.index.toNat < 2 ^ 32)
    (o : Object) :
    get h.slots r = some o ↔ Entry.created r o ∈ h.log ∧
      ¬ (Entry.revoked r ∈ h.log ∨ Entry.reclaimed r ∈ h.log) := by
  have hslot := hi.slot r.index.toNat
  have hle := length_createdAt_le hb
  rw [get_eq_some, ← mem_createdAt, ← mem_endedAt]
  cases hget : h.slots[r.index.toNat]? with
  | none =>
    rw [hget] at hslot
    simp [hslot.1]
  | some slot =>
    rw [hget] at hslot
    obtain ⟨g, hgen, hend, past, hcre, hpast⟩ := hslot
    have hlen : past.length = g := by simpa using congrArg List.length hpast
    rw [hcre] at hle
    constructor
    · rintro ⟨_, hs, hrg, ho⟩
      obtain rfl := Option.some.inj hs
      rw [ho] at hcre hle
      refine ⟨by simp [hcre, hrg], fun hm => ?_⟩
      -- the generation it stands at is above every generation withdrawn
      have hnd := nodup_generations (g := g + 1) (by simpa [hlen] using hle)
      rw [List.range_succ, List.map_append, List.nodup_append] at hnd
      exact hnd.2.2 _ (hend ▸ hm) _ (by simp [hgen]) hrg.symm
    · rintro ⟨hm, hne⟩
      rw [hcre, List.mem_append] at hm
      rcases hm with hm | hm
      · exact absurd (by rw [hend, ← hpast]; exact List.mem_map_of_mem hm) hne
      · obtain ⟨o', ho', heq⟩ := List.mem_map.mp hm
        obtain ⟨hg', rfl⟩ := Prod.mk.inj heq
        exact ⟨slot, rfl, hg', by simpa using ho'⟩

theorem nodup_minted {h : History} (hi : h.Inv) (hb : ∀ i, reuses h.log i < 2 ^ 32) :
    (minted h.log).Nodup := by
  rw [List.nodup_iff_count_le_one]
  intro r
  have hmap : (((minted h.log).filter fun r' => r'.index.toNat = r.index.toNat).map
      (·.generation)).Nodup := by
    rw [minted_filter, (hi.slot _).createdAt_fst]
    exact nodup_generations (length_createdAt_le (hb _))
  rw [← List.count_filter (p := fun r' => decide (r'.index.toNat = r.index.toNat)) (by simp)]
  exact List.nodup_iff_count_le_one.mp hmap.of_map r

/-- The record only grows. -/
theorem log_prefix_step (h : History) (op : Op) : h.log <+: (h.step op).log := by
  cases op with
  | create | revoke => simp only [History.step]; split <;> simp
  | freeReclaimable => simp [History.step]

theorem log_prefix_run {h h' : History} {ops : List Op} (hr : objectTable.run h ops = some h') :
    h.log <+: h'.log := by
  induction ops generalizing h with
  | nil => exact Option.some.inj hr ▸ List.prefix_refl _
  | cons op ops ih => exact (log_prefix_step h op).trans (ih hr)

/-- **Revocation is final.** Take any history of the table and any continuation of it, with fewer
than `2 ^ 32` reuses of each slot. At the end a reference resolves to an object exactly when it
was returned by the creation of that object and has been neither revoked nor reclaimed since; a
reference withdrawn before the continuation does not resolve; and no two creations ever returned
the same reference. -/
theorem revocation_final {h h' : History} {ops : List Op} (hr : objectTable.Reachable h)
    (hrun : objectTable.run h ops = some h') (hb : ∀ i, reuses h'.log i < 2 ^ 32) :
    (∀ r o, get h'.slots r = some o ↔ Entry.created r o ∈ h'.log ∧
        ¬ (Entry.revoked r ∈ h'.log ∨ Entry.reclaimed r ∈ h'.log)) ∧
      (∀ r, Entry.revoked r ∈ h.log ∨ Entry.reclaimed r ∈ h.log → get h'.slots r = none) ∧
      (minted h'.log).Nodup := by
  have hi : h'.Inv := inv_of_reachable (EventSystem.Reach.of_runIf (fun _ _ _ _ => trivial) hr hrun)
  refine ⟨fun r o => get_iff hi (hb _) o, fun r hend => ?_, nodup_minted hi hb⟩
  cases hg : get h'.slots r with
  | none => rfl
  | some o =>
    have hmem := (log_prefix_run hrun).subset
    exact absurd (hend.imp (hmem ·) (hmem ·)) ((get_iff hi (hb _) o).mp hg).2

/-- An interrupt line is revoked, a buffer is swept away, and the first slot is taken by another
line. -/
def revokedOnce : List Entry :=
  [.created ⟨0, 0⟩ (.interrupt 33), .created ⟨1, 0⟩ (.sharedMemory 0 4), .revoked ⟨0, 0⟩,
    .reclaimed ⟨1, 0⟩]

/-- Neither old reference comes to name the new line. -/
theorem revocation_final_reuse :
    get [⟨1, some (.interrupt 34)⟩, ⟨1, none⟩] ⟨0, 0⟩ = none ∧
      get [⟨1, some (.interrupt 34)⟩, ⟨1, none⟩] ⟨1, 0⟩ = none ∧
      get [⟨1, some (.interrupt 34)⟩, ⟨1, none⟩] ⟨0, 1⟩ = some (.interrupt 34) := by
  have hr : objectTable.Reachable ⟨[⟨1, none⟩, ⟨1, none⟩], revokedOnce⟩ :=
    .of_run [.create (.interrupt 33) true true, .create (.sharedMemory 0 4) true true,
      .revoke ⟨0, 0⟩, .freeReclaimable] (show objectTable.init ⟨[], []⟩ from rfl) rfl
  have hrun : objectTable.run ⟨[⟨1, none⟩, ⟨1, none⟩], revokedOnce⟩
      [.create (.interrupt 34) true true] =
    some ⟨[⟨1, some (.interrupt 34)⟩, ⟨1, none⟩],
      revokedOnce ++ [.created ⟨0, 1⟩ (.interrupt 34)]⟩ := rfl
  obtain ⟨hget, hend, -⟩ := revocation_final hr hrun fun i => by
    have : (createdAt (revokedOnce ++ [.created ⟨0, 1⟩ (.interrupt 34)]) i).length ≤ 5 :=
      List.length_filterMap_le _ _
    simp only [reuses]
    omega
  exact ⟨hend _ (by decide), hend _ (by decide), (hget _ _).mpr (by decide)⟩

end Obj

end StarOS
