import StarOS.Input.Virtio
import StarOS.Lib.WrapRing

/-!
# The fields of a queue

Behind the descriptor table stand two rings of the same form: flags, an index, the entries, and the
field that says at which count the other side wants to hear of it. A field is known by what it is,
and begins where the layout says. An index counts up without an end, and its remainder is the entry.

## Main definitions

* `Virtio.RingField`, `Virtio.Field` — the fields of a ring and of a queue
* `Virtio.QueueLayout.start`, `Virtio.QueueLayout.bytes` — where a field begins and how long it is
* `Virtio.QueueLayout.entryOf` — the entry of a count

## Main results

* `Virtio.RingField.apart`, `Virtio.QueueLayout.Laid.apart` — no two fields meet
* `Virtio.QueueLayout.entryOf_injective` — nor do the entries of as many counts as there are
* `Virtio.QueueLayout.layout_exact`
-/

namespace StarOS

namespace Virtio

/-- The fields of a ring. -/
inductive RingField
  | flags
  | idx
  | entry (k : ℕ)
  | event
  deriving DecidableEq

/-- The fields of a queue. -/
inductive Field
  | desc (k : ℕ)
  | avail (f : RingField)
  | used (f : RingField)
  deriving DecidableEq

namespace RingField

/-- Where a field begins, in a ring of `n` entries of `width` bytes. -/
def offset (width n : ℕ) : RingField → ℕ
  | flags => 0
  | idx => 2
  | entry k => 4 + width * k
  | event => 4 + width * n

def bytes (width : ℕ) : RingField → ℕ
  | flags | idx | event => 2
  | entry _ => width

/-- A ring of `n` entries has the field. -/
def Of (n : ℕ) : RingField → Prop
  | entry k => k < n
  | _ => True

variable {n k l : ℕ} {f g : RingField}

theorem width_mul_lt (width : ℕ) (h : k < l) : width * k + width ≤ width * l := by
  rw [← Nat.mul_succ]
  exact Nat.mul_le_mul_left width h

/-- The fields of a ring lie in it. -/
theorem offset_add_bytes_le (width : ℕ) (h : f.Of n) :
    f.offset width n + f.bytes width ≤ 6 + width * n := by
  cases f with
  | flags | idx =>
    simp only [offset, bytes]
    omega
  | entry k =>
    have hentry := width_mul_lt width (show k < n from h)
    rw [offset, bytes]
    omega
  | event =>
    rw [offset, bytes]
    omega

/-- No two fields of a ring meet. -/
theorem apart (width : ℕ) (hf : f.Of n) (hg : g.Of n) (hne : f ≠ g) :
    f.offset width n + f.bytes width ≤ g.offset width n ∨
      g.offset width n + g.bytes width ≤ f.offset width n := by
  have hentry : ∀ {k l : ℕ}, k < l → width * k + width ≤ width * l := width_mul_lt width
  cases f with
  | flags =>
    cases g with
    | flags => exact absurd rfl hne
    | idx | entry | event => exact .inl (by simp only [offset, bytes]; omega)
  | idx =>
    cases g with
    | flags => exact .inr (by simp only [offset, bytes]; omega)
    | idx => exact absurd rfl hne
    | entry | event => exact .inl (by simp only [offset, bytes]; omega)
  | entry k =>
    cases g with
    | flags | idx => exact .inr (by simp only [offset, bytes]; omega)
    | entry l =>
      rcases lt_or_gt_of_ne (fun he => hne (congrArg entry he) : k ≠ l) with hlt | hgt
      · have hbefore := hentry hlt
        exact .inl (by simp only [offset, bytes]; omega)
      · have hbehind := hentry hgt
        exact .inr (by simp only [offset, bytes]; omega)
    | event =>
      have hbefore := hentry (show k < n from hf)
      exact .inl (by simp only [offset, bytes]; omega)
  | event =>
    cases g with
    | flags | idx => exact .inr (by simp only [offset, bytes]; omega)
    | entry l =>
      have hbehind := hentry (show l < n from hg)
      exact .inr (by simp only [offset, bytes]; omega)
    | event => exact absurd rfl hne

end RingField

namespace QueueLayout

variable {q : QueueLayout} {size : BitVec 16} {align : BitVec 64} {f g : Field}

/-- The fields of a queue of this size. -/
def Has (q : QueueLayout) : Field → Prop
  | .desc k => k < q.size.toNat
  | .avail f | .used f => f.Of q.size.toNat

/-- The descriptor table is at the beginning. -/
def descOffset (_ : QueueLayout) : ℕ := 0

/-- Where a field begins. The entries are two bytes in the available ring, and eight in the used
ring. -/
def start (q : QueueLayout) : Field → ℕ
  | .desc k => q.descOffset + descBytes * k
  | .avail f => q.avail + f.offset 2 q.size.toNat
  | .used f => q.used + f.offset 8 q.size.toNat

def bytes : Field → ℕ
  | .desc _ => descBytes
  | .avail f => f.bytes 2
  | .used f => f.bytes 8

/-- The entry of a count, in either ring. -/
def entryOf (q : QueueLayout) (count : BitVec 16) : ℕ := (count % q.size).toNat

/-! ### The three parts -/

theorem Laid.desc_le {k : ℕ} (h : q.Laid) (hk : q.Has (.desc k)) :
    q.start (.desc k) + bytes (.desc k) ≤ q.avail := by
  have hdesc := RingField.width_mul_lt descBytes (show k < q.size.toNat from hk)
  have havail := h.avail
  simp only [start, bytes, descOffset]
  omega

variable {r t : RingField}

theorem Laid.avail_mem (h : q.Laid) (hr : q.Has (.avail r)) :
    q.avail ≤ q.start (.avail r) ∧ q.start (.avail r) + bytes (.avail r) ≤ q.used := by
  have hin := RingField.offset_add_bytes_le 2 (show r.Of q.size.toNat from hr)
  have hused := h.used
  simp only [start, bytes]
  omega

theorem Laid.used_mem (h : q.Laid) (hr : q.Has (.used r)) :
    q.used ≤ q.start (.used r) ∧ q.start (.used r) + bytes (.used r) ≤ q.total := by
  have hin := RingField.offset_add_bytes_le 8 (show r.Of q.size.toNat from hr)
  have htotal := h.total
  simp only [start, bytes]
  omega

/-- Everything lies inside the queue. -/
theorem Laid.le_total (h : q.Laid) (hf : q.Has f) : q.start f + bytes f ≤ q.total := by
  have hused := h.used
  have htotal := h.total
  cases f with
  | desc k =>
    have hdesc := h.desc_le hf
    omega
  | avail r =>
    have havail := h.avail_mem hf
    omega
  | used r => exact (h.used_mem hf).2

/-- **No two fields of a queue meet.** -/
theorem Laid.apart (h : q.Laid) (hf : q.Has f) (hg : q.Has g) (hne : f ≠ g) :
    q.start f + bytes f ≤ q.start g ∨ q.start g + bytes g ≤ q.start f := by
  have hused := h.used
  cases f with
  | desc k =>
    have hdesc := h.desc_le hf
    cases g with
    | desc l =>
      rcases lt_or_gt_of_ne (fun he => hne (congrArg Field.desc he) : k ≠ l) with hlt | hgt
      · have hbefore := RingField.width_mul_lt descBytes hlt
        exact .inl (by simp only [start, bytes]; omega)
      · have hbehind := RingField.width_mul_lt descBytes hgt
        exact .inr (by simp only [start, bytes]; omega)
    | avail r => exact .inl (hdesc.trans (h.avail_mem hg).1)
    | used r =>
      have hlast := h.used_mem hg
      exact .inl (by omega)
  | avail r =>
    have havail := h.avail_mem hf
    cases g with
    | desc l => exact .inr ((h.desc_le hg).trans havail.1)
    | avail t =>
      have hfields := RingField.apart 2 hf hg fun he => hne (congrArg Field.avail he)
      simp only [start, bytes]
      omega
    | used t => exact .inl (havail.2.trans (h.used_mem hg).1)
  | used r =>
    have hlast := h.used_mem hf
    cases g with
    | desc l =>
      have hdesc := h.desc_le hg
      exact .inr (by omega)
    | avail t => exact .inr ((h.avail_mem hg).2.trans hlast.1)
    | used t =>
      have hfields := RingField.apart 8 hf hg fun he => hne (congrArg Field.used he)
      simp only [start, bytes]
      omega

/-! ### Counts -/

theorem entryOf_lt (h : q.Laid) (count : BitVec 16) : q.entryOf count < q.size.toNat :=
  Nat.mod_lt _ h.pos

/-- As many counts in a row as there are entries have different ones, also where the count wraps. -/
theorem entryOf_injective (hdvd : q.size.toNat ∣ 2 ^ 16) (hpos : 0 < q.size.toNat)
    {count : BitVec 16} {i j : ℕ} (hi : i < q.size.toNat) (hj : j < q.size.toNat)
    (h : q.entryOf (count + .ofNat 16 i) = q.entryOf (count + .ofNat 16 j)) : i = j := by
  have hne : NeZero q.size.toNat := ⟨hpos.ne'⟩
  exact WrapRing.place_injective hdvd hi hj (Fin.ext h)

/-- A layout is accepted if both numbers are powers of two. -/
theorem isSome_new_iff (size : BitVec 16) (align : BitVec 64) :
    (new size align.toNat).isSome ↔ size.toNat.isPowerOfTwo ∧ align.toNat.isPowerOfTwo := by
  have hpos : ∀ {n : ℕ}, n.isPowerOfTwo → n ≠ 0 := fun h => (Nat.pos_of_isPowerOfTwo h).ne'
  rw [new]
  constructor
  · intro h
    split at h
    · cases h
    · split at h
      · cases h
      · tauto
  · rintro ⟨hsize, halign⟩
    have hzero : size ≠ 0 := fun he => hpos hsize (congrArg BitVec.toNat he)
    have hle : ¬ 32768 < size.toNat := by
      obtain ⟨k, hk⟩ := id hsize
      have hlt : 2 ^ k < 2 ^ 16 := hk ▸ size.isLt
      have hk16 : k < 16 := (Nat.pow_lt_pow_iff_right (by decide)).1 hlt
      have hpow : 2 ^ k ≤ 2 ^ 15 := Nat.pow_le_pow_right (by decide) (by omega)
      omega
    rw [if_neg (by have := hpos halign; tauto), if_neg (not_not.2 halign)]
    rfl

/-- No sum leaves the machine word. -/
theorem new_fits (h : new size align.toNat = some q) :
    q.avail + 6 + 2 * q.size.toNat + align.toNat < 2 ^ 64 ∧ q.total < 2 ^ 64 := by
  obtain ⟨-, k, hk⟩ := (isSome_new_iff size align).1 (Option.isSome_of_eq_some h)
  have halign : align.toNat ≤ 2 ^ 63 := by
    have hlt : 2 ^ k < 2 ^ 64 := hk ▸ align.isLt
    have hk64 : k < 64 := (Nat.pow_lt_pow_iff_right (by decide)).1 hlt
    exact hk ▸ Nat.pow_le_pow_right (by decide) (by omega)
  rw [new] at h
  split at h
  · cases h
  · next hsize =>
    split at h
    · cases h
    · have hused : _ &&& (2 ^ 64 - align.toNat) ≤
          size.toNat * descBytes + 6 + 2 * size.toNat + align.toNat - 1 := Nat.and_le_left
      simp only [not_or, Nat.not_lt] at hsize
      simp only [Option.some.injEq] at h
      subst h
      simp only [descBytes] at hused ⊢
      omega

/-- The layout of a queue: what is accepted, that no sum leaves the machine word, that the used ring
is aligned, that no two fields meet, and that the counts of a window have different entries. -/
theorem layout_exact (size : BitVec 16) (align : BitVec 64) :
    ((new size align.toNat).isSome ↔ size.toNat.isPowerOfTwo ∧ align.toNat.isPowerOfTwo) ∧
    ∀ q, new size align.toNat = some q →
      q.size = size ∧ align.toNat ∣ q.used ∧
      (q.avail + 6 + 2 * q.size.toNat + align.toNat < 2 ^ 64 ∧ q.total < 2 ^ 64) ∧
      (∀ f, q.Has f → q.start f + bytes f ≤ q.total) ∧
      (∀ f g, q.Has f → q.Has g → f ≠ g →
        q.start f + bytes f ≤ q.start g ∨ q.start g + bytes g ≤ q.start f) ∧
      (q.availIdxOffset = q.start (.avail .idx) ∧ q.usedIdxOffset = q.start (.used .idx) ∧
        ∀ slot, q.entryOf slot < q.size.toNat ∧
          q.availRingOffset slot = q.start (.avail (.entry (q.entryOf slot))) ∧
          q.usedRingOffset slot = q.start (.used (.entry (q.entryOf slot)))) ∧
      ∀ count i j, i < q.size.toNat → j < q.size.toNat →
        q.entryOf (count + .ofNat 16 i) = q.entryOf (count + .ofNat 16 j) → i = j := by
  refine ⟨isSome_new_iff size align, fun q h => ?_⟩
  obtain ⟨hsize, hlaid, hdvd⟩ := new_spec align.isLt h
  obtain ⟨⟨k, hk⟩, -⟩ := (isSome_new_iff size align).1 (Option.isSome_of_eq_some h)
  rw [← hsize] at hk
  have hpow : q.size.toNat ∣ 2 ^ 16 := by
    have hlt : 2 ^ k < 2 ^ 16 := hk ▸ q.size.isLt
    rw [hk]
    exact Nat.pow_dvd_pow 2 ((Nat.pow_lt_pow_iff_right (by decide)).1 hlt).le
  refine ⟨hsize, hdvd, new_fits h, fun f => hlaid.le_total, fun f g => hlaid.apart,
    ⟨rfl, rfl, fun slot => ⟨entryOf_lt hlaid slot, ?_, ?_⟩⟩,
    fun count i j hi hj => entryOf_injective hpow hlaid.pos hi hj⟩
  · exact Nat.add_assoc ..
  · exact Nat.add_assoc ..

end QueueLayout

end Virtio

end StarOS
