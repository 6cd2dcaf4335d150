import Mathlib.Data.List.Infix
import StarOS.Lib.Checked

/-!
# Property messages

A message to the firmware is a run of words: two of a header, then tags, then an end tag and
padding. A tag says how many bytes its value has, and its value is as many words as that takes.

## Main definitions

* `Mailbox.Tags`, `Mailbox.Tags.next` — the walker over the tags of a buffer
* `Mailbox.Item`, `Mailbox.layout` — a message as the documentation lays it out

## Main results

* `Mailbox.Tags.wp_next` — one step stays in the buffer and gets on
* `Mailbox.tags_exact` — which messages the walker decodes
-/

namespace StarOS

namespace Mailbox

open Checked

/-- A buffer of words. No object in memory is longer than the largest signed machine integer. -/
structure Buffer where
  words : List (BitVec 32)
  fits : 4 * words.length < 2 ^ 63

/-- The words from `a` up to `b`, or `none` if these are not offsets into the buffer. -/
def Buffer.get (buf : Buffer) (a b : ℕ) : Option (List (BitVec 32)) :=
  if a ≤ b ∧ b ≤ buf.words.length then some (buf.words.extract a b) else none

/-- The id that ends a message. -/
def tagEnd : BitVec 32 := 0

/-- A tag: its id, the third word of it, and its value. -/
structure Tag where
  id : BitVec 32
  code : BitVec 32
  values : List (BitVec 32)
  deriving DecidableEq

/-- A walker over the tags of a buffer, with its cursor. -/
structure Tags where
  buf : Buffer
  cursor : ℕ

/-- Walk the tags of a whole property buffer. -/
def Tags.new (buf : Buffer) : Tags := ⟨buf, min 2 buf.words.length⟩

/-- The next tag. -/
def Tags.next : Checked Tags Unit Tag := do
  let t ← get
  let id ← ofOption () t.buf.words[t.cursor]?
  require (id ≠ tagEnd) ()
  let sizeAt ← add 64 t.cursor 1
  let valueBytes ← ofOption () t.buf.words[sizeAt]?
  let codeAt ← add 64 t.cursor 2
  let code ← ofOption () t.buf.words[codeAt]?
  let valueWords := valueBytes.toNat / 4
  let start ← add 64 t.cursor 3
  let stop ← ofOption () (checkedAdd 64 start valueWords)
  let values ← ofOption () (t.buf.get start stop)
  set { t with cursor := stop }
  return ⟨id, code, values⟩

variable {buf : Buffer} {t : Tags} {a b : ℕ} {ws : List (BitVec 32)}

theorem Buffer.get_eq_some :
    buf.get a b = some ws ↔ (a ≤ b ∧ b ≤ buf.words.length) ∧ ws = buf.words.extract a b := by
  rw [get]
  split <;> simp [*, eq_comm]

/-- **One step** stays in the buffer and, if there is a tag, gets on. -/
theorem Tags.wp_next (t : Tags) :
    wp False Tags.next
      (fun tag t' => t'.buf = t.buf ∧ tag.values <:+: t.buf.words ∧
        t.buf.words.length - t'.cursor < t.buf.words.length - t.cursor)
      (fun _ t' => t' = t) t := by
  have hfits := t.buf.fits
  rw [next, wp_bind, wp_get, wp_bind, wp_ofOption]
  refine ⟨fun id hid => ?_, fun _ => rfl⟩
  obtain ⟨hcursor, -⟩ := List.getElem?_eq_some_iff.mp hid
  simp only [wp_bind, wp_require, wp_add, wp_ofOption, wp_set, wp_pure]
  refine ⟨fun _ => ⟨by omega, fun size _ => ⟨by omega, fun code _ => ⟨by omega, fun stop hstop =>
    ⟨fun values hvalues => ⟨trivial, ?_, ?_⟩, fun _ => trivial⟩, fun _ => trivial⟩,
    fun _ => trivial⟩, fun _ => trivial⟩, fun _ => trivial⟩
  · obtain ⟨-, rfl⟩ := Buffer.get_eq_some.mp hvalues
    rw [List.extract_eq_take_drop]
    exact (List.take_prefix ..).isInfix.trans (List.drop_suffix ..).isInfix
  · obtain ⟨-, rfl⟩ := checkedAdd_eq_some.mp hstop
    show t.buf.words.length - (t.cursor + 3 + _) < _
    omega

/-- The walk over any buffer ends, and what it yields stands in the buffer. -/
theorem Tags.finite_next (buf : Buffer) :
    Finite Tags.next (fun tag => tag.values <:+: buf.words) (Tags.new buf)
      (buf.words.length - min 2 buf.words.length) := by
  refine finite (I := fun t : Tags => t.buf = buf) (μ := fun t : Tags => t.buf.words.length - t.cursor)
    (fun t ht => ?_) rfl
  subst ht
  refine wp_mono t.wp_next (fun tag t' h => ?_) fun _ t' h => ?_
  · obtain ⟨hbuf, hvalues, hlt⟩ := h
    exact ⟨hbuf, hvalues, by rwa [hbuf]⟩
  · exact h ▸ ⟨rfl, Nat.le_refl _⟩

/-! ### Messages -/

/-- A tag of a message, as the documentation lays it out: a value of `size` bytes takes as many whole
words as hold it. -/
structure Item where
  id : BitVec 32
  size : BitVec 32
  code : BitVec 32
  values : List (BitVec 32)
  id_ne : id ≠ tagEnd
  length_values : values.length = (size.toNat + 3) / 4

/-- The words of a tag. -/
def Item.words (i : Item) : List (BitVec 32) := i.id :: i.size :: i.code :: i.values

/-- What a walker should yield for it. -/
def Item.tag (i : Item) : Tag := ⟨i.id, i.code, i.values⟩

/-- A message: the header, the tags, the end tag and padding. -/
def layout (size code : BitVec 32) (items : List Item) (padding : List (BitVec 32)) :
    List (BitVec 32) :=
  [size, code] ++ (items.flatMap Item.words ++ tagEnd :: padding)

/-- The step at a tag of a message: the value is cut to the whole words of its size. -/
theorem Tags.next_item {pre post : List (BitVec 32)} {i : Item}
    (h : buf.words = pre ++ (i.words ++ post)) :
    Tags.next ⟨buf, pre.length⟩ =
      .ok ⟨i.id, i.code, i.values.take (i.size.toNat / 4)⟩
        ⟨buf, pre.length + 3 + i.size.toNat / 4⟩ := by
  have hfits := buf.fits
  have hlen : buf.words.length = pre.length + (3 + i.values.length + post.length) := by
    rw [h, List.length_append, List.length_append, Item.words]
    simp only [List.length_cons]
    omega
  have hvalues := i.length_values
  have hsize := i.size.isLt
  have hw : wp False Tags.next (fun tag t' =>
      tag = ⟨i.id, i.code, i.values.take (i.size.toNat / 4)⟩ ∧
        t' = ⟨buf, pre.length + 3 + i.size.toNat / 4⟩) (fun _ _ => False) ⟨buf, pre.length⟩ := by
    have hid : buf.words[pre.length]? = some i.id := by simp [h, Item.words]
    have hsizeAt : buf.words[pre.length + 1]? = some i.size := by simp [h, Item.words]
    have hcodeAt : buf.words[pre.length + 2]? = some i.code := by simp [h, Item.words]
    have hget : buf.get (pre.length + 3) (pre.length + 3 + i.size.toNat / 4) =
        some (i.values.take (i.size.toNat / 4)) := by
      refine Buffer.get_eq_some.mpr ⟨by omega, ?_⟩
      have hdrop : (pre ++ (i.words ++ post)).drop (pre.length + 3) = i.values ++ post := by
        rw [← List.drop_drop, List.drop_left]
        rfl
      rw [h, List.extract_eq_take_drop, Nat.add_sub_cancel_left, hdrop,
        List.take_append_of_le_length (by omega)]
    rw [Tags.next]
    simp only [wp_bind, wp_get, hid, wp_ofOption_some, wp_require, wp_add, hsizeAt, hcodeAt,
      wp_set, wp_pure]
    refine ⟨fun _ => ⟨by omega, by omega, by omega, ?_⟩, fun hne => hne i.id_ne⟩
    rw [checkedAdd_of_lt (by omega), wp_ofOption_some, hget, wp_ofOption_some]
    exact ⟨rfl, rfl⟩
  obtain ⟨_, _, hx, rfl, rfl⟩ | ⟨_, _, -, hfalse⟩ := exists_of_wp hw
  · exact hx
  · exact hfalse.elim

/-- The step at the end tag. -/
theorem Tags.next_end {pre padding : List (BitVec 32)}
    (h : buf.words = pre ++ tagEnd :: padding) :
    Tags.next ⟨buf, pre.length⟩ = .error (.fail ()) ⟨buf, pre.length⟩ := by
  have hid : buf.words[pre.length]? = some tagEnd := by simp [h]
  have hw : wp False Tags.next (fun _ _ => False) (fun _ t' => t' = ⟨buf, pre.length⟩)
      ⟨buf, pre.length⟩ := by
    rw [Tags.next]
    simp only [wp_bind, wp_get, hid, wp_ofOption_some, wp_require]
    exact ⟨fun hne => absurd rfl hne, fun _ => trivial⟩
  obtain ⟨_, _, -, hfalse⟩ | ⟨_, _, hx, rfl⟩ := exists_of_wp hw
  · exact hfalse.elim
  · exact hx

/-- The walk over the rest of a message. -/
theorem Tags.collects_iff {items : List Item} {pre padding : List (BitVec 32)}
    (h : buf.words = pre ++ (items.flatMap Item.words ++ tagEnd :: padding)) :
    (∃ t, Collects Tags.next ⟨buf, pre.length⟩ (items.map Item.tag) t) ↔
      ∀ i ∈ items, 4 ∣ i.size.toNat := by
  induction items generalizing pre with
  | nil => exact ⟨fun _ _ hi => absurd hi List.not_mem_nil, fun _ => ⟨_, .nil (Tags.next_end h)⟩⟩
  | cons i items ih =>
    have hcons : buf.words = pre ++ (i.words ++ (items.flatMap Item.words ++ tagEnd :: padding)) := by
      rw [h, List.flatMap_cons, List.append_assoc]
    have hnext := Tags.next_item hcons
    have hlen := i.length_values
    have hwords : buf.words = pre ++ i.words ++ (items.flatMap Item.words ++ tagEnd :: padding) := by
      rw [hcons, List.append_assoc]
    have hend : (pre ++ i.words).length = pre.length + 3 + i.values.length := by
      rw [List.length_append, Item.words]
      simp only [List.length_cons]
      omega
    rw [List.forall_mem_cons, ← ih hwords, List.map_cons]
    constructor
    · rintro ⟨t, hcollects⟩
      cases hcollects with
      | cons hfirst hrest =>
        rw [hnext] at hfirst
        obtain ⟨htag, rfl⟩ := EStateM.Result.ok.inj hfirst
        -- the value comes out whole
        have hall : i.values.take (i.size.toNat / 4) = i.values := congrArg Tag.values htag
        have hwhole : i.values.length ≤ i.size.toNat / 4 := List.take_eq_self_iff _ |>.mp hall
        refine ⟨by omega, t, ?_⟩
        rw [hend, show i.values.length = i.size.toNat / 4 by omega]
        exact hrest
    · rintro ⟨hdvd, t, hcollects⟩
      have hwhole : i.values.length = i.size.toNat / 4 := by omega
      rw [← hwhole, List.take_length, ← hend] at hnext
      exact ⟨t, .cons hnext hcollects⟩

/-- **The walk over a message**, and over anything else: it ends without going past the buffer, and it
yields the tags of a message exactly when the size of each is a whole number of words. -/
theorem tags_exact (buf : Buffer) :
    (∃ tags t, Collects Tags.next (Tags.new buf) tags t ∧
        ∀ tag ∈ tags, tag.values <:+: buf.words) ∧
      ∀ size code items padding, buf.words = layout size code items padding →
        ((∃ t, Collects Tags.next (Tags.new buf) (items.map Item.tag) t) ↔
          ∀ i ∈ items, 4 ∣ i.size.toNat) := by
  refine ⟨?_, fun size code items padding hwords => ?_⟩
  · obtain ⟨tags, t, hcollects, -, hvalues⟩ := (Tags.finite_next buf).ends
    exact ⟨tags, t, hcollects, hvalues⟩
  · have hnew : Tags.new buf = ⟨buf, [size, code].length⟩ := by
      have hlen : 2 ≤ buf.words.length := by
        rw [hwords, layout, List.length_append]
        exact Nat.le_add_right ..
      rw [Tags.new, Nat.min_eq_left hlen]
      rfl
    rw [hnew]
    exact Tags.collects_iff hwords

/-- A tag whose value is two words. -/
def twoWords : Item := ⟨0x48003, 8, 0, [640, 480], by decide, by decide⟩

/-- A tag whose value is six bytes, which take two words. -/
def sixBytes : Item := ⟨0x10003, 6, 0x80000006, [0x11223344, 0x5566], by decide, by decide⟩

/-- The buffer of one tag. -/
def single (i : Item) (h : 4 * (layout 32 0 [i] []).length < 2 ^ 63) : Buffer :=
  ⟨layout 32 0 [i] [], h⟩

/-- A tag whose value is one word. -/
def oneWord : Item := ⟨0x48005, 4, 0, [32], by decide, by decide⟩

/-- Two tags, and a word of padding. -/
theorem tags_exact_pair :
    ∃ (hfits : 4 * (layout 48 0 [twoWords, oneWord] [0]).length < 2 ^ 63) (t : Tags), Collects
      Tags.next (Tags.new ⟨layout 48 0 [twoWords, oneWord] [0], hfits⟩)
        [twoWords.tag, oneWord.tag] t := by
  have hfits : 4 * (layout 48 0 [twoWords, oneWord] [0]).length < 2 ^ 63 := by decide
  obtain ⟨t, ht⟩ := ((tags_exact ⟨_, hfits⟩).2 48 0 [twoWords, oneWord] [0] rfl).mpr (by decide)
  exact ⟨hfits, t, ht⟩

/-- A value of six bytes is cut to one word. -/
theorem tags_cut :
    ¬ ∃ t, Collects Tags.next (Tags.new (single sixBytes (by decide))) [sixBytes.tag] t := by
  have hwords : (single sixBytes (by decide)).words =
      [32, 0] ++ ([sixBytes].flatMap Item.words ++ tagEnd :: []) := rfl
  intro h
  exact absurd ((Tags.collects_iff hwords).mp h) (by decide)

end Mailbox

end StarOS
