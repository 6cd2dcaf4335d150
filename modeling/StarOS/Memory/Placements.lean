import StarOS.Arch.Tables
import StarOS.Kernel.Object

/-!
# Where mapped objects land

A task keeps one record of where the shared buffers it has mapped landed in its address space, and
one for device pages. The same object comes back to the same address; a new one gets the next,
which is never used again.

A record is made to hold so many objects and starts at a base, and no object has more pages than
its kind may have, so what a record hands out stays in a window of its own.

## Main definitions

* `Window` — shared buffers or device pages
* `Placements`, with `find` and `place`
* `Mappable` — an object that can be mapped, and the descriptors its pages get

## Main results

* `Placements.place_spec` — what placing an object answers
* `Mappable.translates` — a page of an object translates to its frame
-/

namespace StarOS

open Mmu

/-- The page an address is on. -/
def page (va : ℕ) : ℕ := va / page4K

/-- How many distinct shared buffers one task may have mapped at once. -/
def maxSharedMappings : ℕ := 16

/-- How many distinct device pages one task may have mapped at once. -/
def maxDeviceMappings : ℕ := 48

/-- Where mapped device pages are placed. -/
def userDevVa : ℕ := userDataVa + page4K

/-- Where shared buffers are placed. -/
def userSharedVa : ℕ := 0x500000000

/-- What kind of object a record of placements is for. -/
inductive Window
  | shared
  | devices
  deriving DecidableEq, Repr

namespace Window

def base : Window → ℕ
  | shared => userSharedVa
  | devices => userDevVa

/-- How many objects are placed there. -/
def slots : Window → ℕ
  | shared => maxSharedMappings
  | devices => maxDeviceMappings

/-- The most pages one of them has. -/
def maxPages : Window → ℕ
  | shared => maxSharedPages
  | devices => 1

/-- Where the window ends. -/
def limit (w : Window) : ℕ := w.base + w.slots * (w.maxPages * page4K)

theorem disjoint {w w' : Window} (h : w ≠ w') :
    w.limit ≤ w'.base ∨ w'.limit ≤ w.base := by
  cases w <;> cases w' <;> first | exact absurd rfl h | decide

end Window

/-- Where the objects of one kind that a task has mapped landed, and the next unused address. -/
structure Placements (w : Window) where
  entries : List (ObjectRef × ℕ)
  cursor : ℕ
  length_le : entries.length ≤ w.slots
  aligned : page4K ∣ cursor
  le_cursor : w.base ≤ cursor
  cursor_le : cursor ≤ w.base + entries.length * (w.maxPages * page4K)

namespace Placements

variable {w : Window} {p p' : Placements w} {obj : ObjectRef} {va pages : ℕ}

def new (w : Window) : Placements w where
  entries := []
  cursor := w.base
  length_le := Nat.zero_le _
  aligned := by cases w <;> decide
  le_cursor := Nat.le_refl _
  cursor_le := Nat.le_add_right _ _

/-- The address this object already occupies, if it has one. -/
def find (p : Placements w) (obj : ObjectRef) : Option ℕ :=
  (p.entries.find? fun e => decide (e.1 = obj)).map Prod.snd

/-- Reserve an address for the pages of `obj`, or `none` if the table is full. -/
def place (p : Placements w) (obj : ObjectRef) (pages : ℕ) (hpages : pages ≤ w.maxPages) :
    Option (ℕ × Placements w) :=
  if hslot : p.entries.length < w.slots then
    some (p.cursor,
      { entries := p.entries ++ [(obj, p.cursor)]
        cursor := p.cursor + pages * page4K
        length_le := by rw [List.length_append]; exact hslot
        aligned := Nat.dvd_add p.aligned (Nat.dvd_mul_left _ _)
        le_cursor := Nat.le_add_right_of_le p.le_cursor
        cursor_le := by
          rw [List.length_append, List.length_singleton, Nat.succ_mul, ← Nat.add_assoc]
          exact Nat.add_le_add p.cursor_le (Nat.mul_le_mul_right _ hpages) })
  else none

theorem mem_of_find (h : p.find obj = some va) : (obj, va) ∈ p.entries := by
  obtain ⟨e, he, rfl⟩ := Option.map_eq_some_iff.mp h
  have hobj : decide (e.1 = obj) = true := by simpa using List.find?_some he
  obtain rfl := of_decide_eq_true hobj
  exact List.mem_of_find?_eq_some he

theorem not_mem_of_find (h : p.find obj = none) : (obj, va) ∉ p.entries := by
  intro hmem
  have hne := List.find?_eq_none.mp (Option.map_eq_none_iff.mp h) _ hmem
  exact hne (decide_eq_true rfl)

theorem cursor_le_limit (p : Placements w) : p.cursor ≤ w.limit :=
  p.cursor_le.trans (Nat.add_le_add_left (Nat.mul_le_mul_right _ p.length_le) _)

/-- **Placing an object** gives it the next unused address. -/
theorem place_spec {hpages : pages ≤ w.maxPages} (h : p.place obj pages hpages = some (va, p')) :
    va = p.cursor ∧ p'.cursor = va + pages * page4K ∧ p'.entries = p.entries ++ [(obj, va)] := by
  rw [place] at h
  split at h
  · obtain ⟨rfl, rfl⟩ := Prod.ext_iff.mp (Option.some.inj h)
    exact ⟨rfl, rfl, rfl⟩
  · cases h

end Placements

/-- The placements of a task: `Task::shared` and `Task::devices`. -/
abbrev Placed : Type := (w : Window) → Placements w

/-! ### What is mapped -/

/-- The frames of one shared buffer, in the order they are mapped. -/
structure ShmRun where
  frames : List ℕ
  pos : 0 < frames.length
  length_le : frames.length ≤ maxSharedPages
  isFrame : ∀ f ∈ frames, IsFrame f
  deriving DecidableEq

/-- An object that can be mapped. -/
inductive Mappable
  /-- A shared-memory object, by its run of frames. -/
  | shared (run : ShmRun)
  /-- A device, by its physical address. -/
  | device (phys : BitVec 64)
  deriving DecidableEq

namespace Mappable

def window : Mappable → Window
  | shared _ => .shared
  | device _ => .devices

def pages : Mappable → ℕ
  | shared run => run.frames.length
  | device _ => 1

/-- Where in its first page the object starts. -/
def offset : Mappable → ℕ
  | shared _ => 0
  | device phys => phys.toNat &&& (page4K - 1)

/-- The frames of the object. -/
def frames : Mappable → List ℕ
  | shared run => run.frames
  | device phys => [phys.toNat - (phys.toNat &&& (page4K - 1))]

/-- The descriptors its pages are mapped with. -/
def descs : Mappable → List ℕ
  | shared run => run.frames.map userDataPage
  | device phys => [userDevicePage (phys.toNat - (phys.toNat &&& (page4K - 1)))]

/-- Its physical addresses are of the 48 bits a descriptor has room for. -/
def InReach : Mappable → Prop
  | shared _ => True
  | device phys => phys.toNat < 2 ^ 48

/-- A buffer of one frame. -/
def buffer (frame : ℕ) (h : IsFrame frame) : Mappable :=
  shared ⟨[frame], Nat.one_pos, (by decide : 1 ≤ maxSharedPages),
    fun _ hf => List.mem_singleton.mp hf ▸ h⟩

theorem pages_le (o : Mappable) : o.pages ≤ o.window.maxPages := by
  cases o with
  | shared run => exact run.length_le
  | device phys => exact Nat.le_refl 1

@[simp] theorem length_frames (o : Mappable) : o.frames.length = o.pages := by
  cases o <;> rfl

@[simp] theorem length_descs (o : Mappable) : o.descs.length = o.pages := by
  cases o with
  | shared run => exact List.length_map _
  | device phys => rfl

theorem offset_lt (o : Mappable) : o.offset < page4K := by
  cases o with
  | shared run => exact (by decide : 0 < page4K)
  | device phys => exact Nat.lt_of_le_of_lt Nat.and_le_right (by decide)

end Mappable

/-- Through this descriptor EL0 reads and writes the frame. -/
def Translates (desc frame : ℕ) : Prop :=
  desc &&& addrMask = frame ∧ userReadable desc = true ∧ userWritable desc = true

theorem translates_or {frame flags : ℕ} (hf : IsFrame frame) (haddr : flags &&& addrMask = 0)
    (hvalid : flags &&& descValid ≠ 0) (hap : flags &&& apMask = apRwEl0) :
    Translates (frame ||| flags) frame := by
  have hbits : ∀ mask, addrMask &&& mask = 0 → (frame ||| flags) &&& mask = flags &&& mask := by
    intro mask hmask
    rw [Nat.and_or_distrib_right, hf.and_eq_zero hmask, Nat.zero_or]
  have hread : flags &&& (1 <<< 6) ≠ 0 := by
    intro h
    have hsub : apRwEl0 &&& (1 <<< 6) = 0 := by
      rw [← hap, Nat.and_assoc, (by decide : apMask &&& (1 <<< 6) = 1 <<< 6), h]
    exact absurd hsub (by decide)
  refine ⟨?_, ?_, ?_⟩
  · rw [Nat.and_or_distrib_right, hf, haddr, Nat.or_zero]
  · rw [userReadable, hbits _ (by decide), hbits _ (by decide), decide_eq_true hvalid,
      decide_eq_true hread]
    rfl
  · rw [userWritable, hbits _ (by decide), hbits _ (by decide), decide_eq_true hvalid,
      decide_eq_true hap]
    rfl

theorem translates_userDataPage {frame : ℕ} (hf : IsFrame frame) :
    Translates (userDataPage frame) frame := by
  simp only [userDataPage, Nat.or_assoc]
  exact translates_or hf (by decide) (by decide) (by decide)

theorem translates_userDevicePage {frame : ℕ} (hf : IsFrame frame) :
    Translates (userDevicePage frame) frame := by
  simp only [userDevicePage, Nat.or_assoc]
  exact translates_or hf (by decide) (by decide) (by decide)

/-- The page of a physical address below `2 ^ 48` is a frame. -/
theorem isFrame_page {phys : ℕ} (h : phys < 2 ^ 48) :
    IsFrame (phys - (phys &&& (page4K - 1))) := by
  have hmask : addrMask = 2 ^ 48 - 2 ^ 12 := by decide
  have hoff : phys &&& (page4K - 1) = phys % 2 ^ 12 := Nat.and_two_pow_sub_one_eq_mod phys 12
  rw [IsFrame, hoff, hmask, Bits.and_mask _ (by decide)]
  omega

/-- **A page of an object translates to its frame.** -/
theorem Mappable.translates (o : Mappable) (h : o.InReach) {i desc : ℕ}
    (hdesc : o.descs[i]? = some desc) : ∃ frame, o.frames[i]? = some frame ∧ Translates desc frame := by
  cases o with
  | shared run =>
    rw [Mappable.descs, List.getElem?_map] at hdesc
    obtain ⟨frame, hframe, rfl⟩ := Option.map_eq_some_iff.mp hdesc
    refine ⟨frame, hframe, translates_userDataPage (run.isFrame _ ?_)⟩
    exact List.mem_of_getElem? hframe
  | device phys =>
    obtain ⟨hi, rfl⟩ := List.getElem?_eq_some_iff.mp hdesc
    obtain rfl : i = 0 := by simpa [Mappable.descs] using hi
    exact ⟨_, rfl, translates_userDevicePage (isFrame_page h)⟩

end StarOS
