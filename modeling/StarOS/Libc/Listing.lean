import StarOS.Libc.Dir

/-!
# What a listing shows

A member's name, less the slashes and `./` around it, is a path, and the directories of an archive
are its root, the members that are directories, and the proper prefixes of members. The children of
a directory are the names one step below it.

A listing of a directory should report each child once, with the right kind. It does so unless
members get in each other's way: a directory that is a member itself is reported as a file, and once
more if something lies under it; two members of one path are reported twice; of two subdirectories
whose names begin with the same 32 bytes only one is reported.

## Main definitions

* `Directory.Child`, `Directory.IsDirectory`
* `Directory.Exact` — a listing is what it should be
* `Directory.Listable` — no two members get in each other's way

## Main results

* `Directory.exact_reported` — what is reported is exact just if the members are listable
* `Directory.listing_exact`
-/

namespace StarOS

namespace Directory

open Files

/-- The path of a member. -/
def pathOf (e : Cpio.Entry) : List UInt8 := trimSlashes (utf8 e.name)

/-- The member is a directory. -/
def isDir (e : Cpio.Entry) : Bool := e.mode &&& sIfmt = sIfdir

/-- The path of a name in a directory. -/
def child (dir name : List UInt8) : List UInt8 := if dir = [] then name else dir ++ slash :: name

/-- The path is a proper prefix of some member. -/
def Within (es : List Cpio.Entry) (path : List UInt8) : Prop :=
  ∃ e ∈ es, path ++ [slash] <+: pathOf e

/-- The name is one step below the directory. -/
structure Child (es : List Cpio.Entry) (dir name : List UInt8) : Prop where
  ne_nil : name ≠ []
  no_slash : slash ∉ name
  exists_member : (∃ e ∈ es, pathOf e = child dir name) ∨ Within es (child dir name)

/-- The path is a directory member or a proper prefix of some member. -/
def IsDirectory (es : List Cpio.Entry) (path : List UInt8) : Prop :=
  (∃ e ∈ es, pathOf e = path ∧ isDir e = true) ∨ Within es path

/-- **What a listing should be**: each child once, and nothing else. -/
structure Exact (es : List Cpio.Entry) (dir : List UInt8) (listing : List (List UInt8 × Bool)) :
    Prop where
  once : (listing.map Prod.fst).Nodup
  mem_iff : ∀ name kind, (name, kind) ∈ listing ↔
    Child es dir name ∧ (kind = true ↔ IsDirectory es (child dir name))

/-- No two members get in each other's way in a listing of the directory. -/
structure Listable (es : List Cpio.Entry) (dir : List UInt8) : Prop where
  /-- No subdirectory is without a name. -/
  named : ¬ Within es (child dir [])
  /-- No name has a NUL in it. -/
  no_nul : ∀ name, Child es dir name → 0 ∉ name
  /-- What is a member is not a directory, and the only member of its path. -/
  file : ∀ name, name ≠ [] → slash ∉ name → ∀ e ∈ es, pathOf e = child dir name →
    ¬ IsDirectory es (child dir name)
  once : ∀ name, name ≠ [] → slash ∉ name → es.countP (pathOf · = child dir name) ≤ 1
  /-- Subdirectories differ where their names are remembered. -/
  apart : ∀ name name', slash ∉ name → slash ∉ name' → Within es (child dir name) →
    Within es (child dir name') → name.take seenLen = name'.take seenLen → name = name'

variable {es ms : List Cpio.Entry} {dir pre c name : List UInt8} {rest : List UInt8}

/-! ### Components -/

/-- A path is cut at its first slash. -/
theorem findIdx?_slash_eq_some {cut : ℕ} (h : rest.findIdx? (· = slash) = some cut) :
    slash ∉ rest.take cut ∧ rest = rest.take cut ++ slash :: rest.drop (cut + 1) := by
  obtain ⟨hlt, hcut, hbefore⟩ := List.findIdx?_eq_some_iff_getElem.mp h
  refine ⟨fun hmem => ?_, ?_⟩
  · obtain ⟨i, hi, heq⟩ := List.mem_iff_getElem.mp hmem
    rw [List.getElem_take] at heq
    rw [List.length_take] at hi
    exact hbefore i (by omega) (decide_eq_true heq)
  · have hslash : rest[cut] = slash := of_decide_eq_true hcut
    rw [← hslash, ← List.drop_eq_getElem_cons hlt, List.take_append_drop]

theorem append_slash_prefix_iff (hc : slash ∉ c) :
    c ++ [slash] <+: rest ↔ ∃ cut, rest.findIdx? (· = slash) = some cut ∧ rest.take cut = c := by
  constructor
  · rintro ⟨more, rfl⟩
    refine ⟨c.length, ?_, by simp⟩
    rw [List.findIdx?_append, List.findIdx?_append]
    have hnone : c.findIdx? (· = slash) = none :=
      List.findIdx?_eq_none_iff.mpr fun b hb => decide_eq_false fun heq => hc (heq ▸ hb)
    rw [hnone]
    simp
  · rintro ⟨cut, hcut, rfl⟩
    obtain ⟨-, heq⟩ := findIdx?_slash_eq_some hcut
    exact ⟨rest.drop (cut + 1), by rw [List.append_assoc]; exact heq.symm⟩

/-- What is below the prefix of a listing. -/
def below (pre path : List UInt8) : List UInt8 :=
  if pre = [] then path
  else if Under pre path then path.drop (pre.length + 1)
  else []

theorem eq_of_under {path : List UInt8} (h : Under pre path) :
    path = pre ++ slash :: path.drop (pre.length + 1) := by
  obtain ⟨hlt, ⟨more, rfl⟩, hslash⟩ := h
  rw [List.getElem?_append_right (Nat.le_refl _), Nat.sub_self] at hslash
  cases more with
  | nil => cases hslash
  | cons b more =>
    obtain rfl : b = slash := Option.some.inj hslash
    simp

theorem under_append (pre more : List UInt8) : Under pre (pre ++ slash :: more) := by
  refine ⟨by simp, List.prefix_append .., ?_⟩
  rw [List.getElem?_append_right (Nat.le_refl _), Nat.sub_self]
  rfl

/-- A path with something below the prefix. -/
theorem below_eq_iff {path : List UInt8} (hc : c ≠ []) : below pre path = c ↔
    path = child pre c := by
  rw [below, child]
  split
  · rfl
  · constructor
    · intro h
      split at h
      · next hunder =>
        rw [← h]
        exact eq_of_under hunder
      · exact absurd h.symm hc
    · rintro rfl
      rw [if_pos (under_append ..)]
      simp

theorem prefix_below_iff {path : List UInt8} :
    c ++ [slash] <+: below pre path ↔ child pre c ++ [slash] <+: path := by
  constructor
  · rintro ⟨more, hmore⟩
    have hne : c ++ [slash] ++ more ≠ [] := by simp
    have hpath := (below_eq_iff hne).mp hmore.symm
    refine ⟨more, ?_⟩
    rw [hpath, child, child]
    split <;> simp
  · rintro ⟨more, hmore⟩
    have hne : c ++ slash :: more ≠ [] := by simp
    refine ⟨more, ?_⟩
    rw [List.append_assoc, List.singleton_append, ← (below_eq_iff hne).mpr]
    rw [← hmore, child, child]
    split <;> simp

theorem componentUnder_eq (pre entry : List UInt8) : componentUnder pre entry =
    if below pre (trimSlashes entry) = [] then none
    else match (below pre (trimSlashes entry)).findIdx? (· = slash) with
      | some cut => some ((below pre (trimSlashes entry)).take cut, true)
      | none => some (below pre (trimSlashes entry), false) := rfl

/-- **A subdirectory** is what stands before a slash. -/
theorem componentUnder_dir {entry : List UInt8} : componentUnder pre entry = some (c, true) ↔
    slash ∉ c ∧ child pre c ++ [slash] <+: trimSlashes entry := by
  rw [componentUnder_eq, ← prefix_below_iff]
  generalize below pre (trimSlashes entry) = rest
  constructor
  · intro h
    split at h
    · cases h
    split at h
    · next cut hcut =>
      cases h
      have hno := (findIdx?_slash_eq_some hcut).1
      exact ⟨hno, (append_slash_prefix_iff hno).mpr ⟨cut, hcut, rfl⟩⟩
    · cases h
  · rintro ⟨hno, hpfx⟩
    obtain ⟨cut, hcut, rfl⟩ := (append_slash_prefix_iff hno).mp hpfx
    have hne : rest ≠ [] := by
      rintro rfl
      cases hcut
    rw [if_neg hne, hcut]

/-- **A file** is what has no slash behind it. -/
theorem componentUnder_file {entry : List UInt8} : componentUnder pre entry = some (c, false) ↔
    c ≠ [] ∧ slash ∉ c ∧ trimSlashes entry = child pre c := by
  rw [componentUnder_eq]
  constructor
  · intro h
    split at h
    · cases h
    next hne =>
    split at h
    · cases h
    · next hnone =>
      cases h
      refine ⟨hne, fun hmem => ?_, (below_eq_iff hne).mp rfl⟩
      exact of_decide_eq_false (List.findIdx?_eq_none_iff.mp hnone _ hmem) rfl
  · rintro ⟨hne, hno, hpath⟩
    have hnone : c.findIdx? (· = slash) = none :=
      List.findIdx?_eq_none_iff.mpr fun b hb => decide_eq_false fun heq => hno (heq ▸ hb)
    rw [(below_eq_iff hne).mpr hpath, if_neg hne, hnone]

/-! ### Items -/

/-- The names are listed in full. -/
def Short (es : List Cpio.Entry) : Prop := ∀ e ∈ es, (utf8 e.name).length ≤ FileServer.maxPath

theorem nameOf_eq (hshort : Short es) {e : Cpio.Entry} (he : e ∈ es) : nameOf e = utf8 e.name :=
  List.take_of_length_le (hshort e he)

theorem mem_items_dir (hshort : Short es) :
    (c, true) ∈ items dir es ↔ slash ∉ c ∧ Within es (child dir c) := by
  rw [items, List.mem_filterMap]
  constructor
  · rintro ⟨e, he, hc⟩
    rw [nameOf_eq hshort he, componentUnder_dir] at hc
    exact ⟨hc.1, e, he, hc.2⟩
  · rintro ⟨hc, e, he, hpfx⟩
    refine ⟨e, he, ?_⟩
    rw [nameOf_eq hshort he]
    exact componentUnder_dir.mpr ⟨hc, hpfx⟩

theorem mem_items_file (hshort : Short es) :
    (c, false) ∈ items dir es ↔ c ≠ [] ∧ slash ∉ c ∧ ∃ e ∈ es, pathOf e = child dir c := by
  rw [items, List.mem_filterMap]
  constructor
  · rintro ⟨e, he, hc⟩
    rw [nameOf_eq hshort he, componentUnder_file] at hc
    exact ⟨hc.1, hc.2.1, e, he, hc.2.2⟩
  · rintro ⟨hne, hc, e, he, hpath⟩
    refine ⟨e, he, ?_⟩
    rw [nameOf_eq hshort he]
    exact componentUnder_file.mpr ⟨hne, hc, hpath⟩

/-- A file is met as often as there are members of its path. -/
theorem countP_items_file (hshort : Short es) (hne : c ≠ []) (hc : slash ∉ c) :
    (items dir es).countP (· = (c, false)) = es.countP (pathOf · = child dir c) := by
  induction es with
  | nil => rfl
  | cons e es ih =>
    have ih := ih fun e he => hshort e (List.mem_cons_of_mem _ he)
    have hfile : componentUnder dir (nameOf e) = some (c, false) ↔ _ := componentUnder_file
    rw [nameOf_eq hshort List.mem_cons_self] at hfile
    rw [List.countP_cons]
    cases hitem : componentUnder dir (nameOf e) with
    | none =>
      rw [items_cons_none hitem, ih, if_neg, Nat.add_zero]
      rw [decide_eq_true_eq]
      intro hpath
      rw [nameOf_eq hshort List.mem_cons_self, hfile.mpr ⟨hne, hc, hpath⟩] at hitem
      cases hitem
    | some item =>
      rw [nameOf_eq hshort List.mem_cons_self] at hitem
      rw [items_cons_some (by rw [nameOf_eq hshort List.mem_cons_self]; exact hitem),
        List.countP_cons, ih]
      congr 1
      simp only [decide_eq_true_eq]
      rw [hitem, Option.some.injEq, and_iff_right hne, and_iff_right hc] at hfile
      exact if_congr hfile rfl rfl

/-! ### What is reported -/

theorem mem_of_reported {item : List UInt8 × Bool} (h : item ∈ reported dir [] es) :
    item ∈ items dir es := (Firsts.run_sublist ..).subset h

theorem filter_reported (dir : List UInt8) (es : List Cpio.Entry) :
    (reported dir [] es).filter (!·.2) = (items dir es).filter (!·.2) :=
  Firsts.filter_run _ fun a ha => by
    rw [tag, if_neg]
    simpa using ha

theorem mem_reported_file :
    (c, false) ∈ reported dir [] es ↔ (c, false) ∈ items dir es := by
  have hmem := congrArg ((c, false) ∈ ·) (filter_reported dir es)
  simpa using hmem

/-- Every subdirectory is met among those reported, as far as its name is remembered. -/
theorem exists_reported_dir (h : (c, true) ∈ items dir es) :
    ∃ c', (c', true) ∈ reported dir [] es ∧ c'.take seenLen = c.take seenLen := by
  obtain hnil | ⟨⟨c', k⟩, hmem, htag⟩ := Firsts.covers seenMax [] h (tag_dir c)
  · cases hnil
  · cases k with
    | false => cases htag
    | true => exact ⟨c', hmem, Option.some.inj htag⟩

theorem filterMap_tag (items : List (List UInt8 × Bool)) :
    items.filterMap tag = (items.filter (·.2)).map ((·.take seenLen) ∘ Prod.fst) := by
  induction items with
  | nil => rfl
  | cons item items ih =>
    obtain ⟨c, k⟩ := item
    cases k with
    | false => exact ih
    | true => exact congrArg (c.take seenLen :: ·) ih

/-- The listing of the members. -/
def listing (dir : List UInt8) (es : List Cpio.Entry) : List (List UInt8 × Bool) :=
  (reported dir [] es).map fun item => (cString item.1, item.2)

theorem cString_eq_self (h : 0 ∉ c) : cString c = c :=
  List.takeWhile_eq_self_iff.mpr fun _ hb => decide_eq_true fun heq => h (heq ▸ hb)

theorem zero_not_mem_cString (c : List UInt8) : 0 ∉ cString c := by
  intro h
  rw [cString] at h
  have hp := List.mem_takeWhile_imp h
  simp at hp

theorem mem_listing {k : Bool} :
    (name, k) ∈ listing dir es ↔ ∃ c, (c, k) ∈ reported dir [] es ∧ cString c = name := by
  rw [listing, List.mem_map]
  constructor
  · rintro ⟨⟨c, k'⟩, hmem, heq⟩
    cases heq
    exact ⟨c, hmem, rfl⟩
  · rintro ⟨c, hmem, rfl⟩
    exact ⟨(c, k), hmem, rfl⟩

/-! ### When a listing is exact -/

/-- There are no more subdirectories than can be remembered. -/
def Few (es : List Cpio.Entry) (dir : List UInt8) : Prop :=
  ∀ names : List (List UInt8), names.Nodup →
    (∀ name ∈ names, Child es dir name ∧ IsDirectory es (child dir name)) →
    names.length ≤ seenMax

variable (hshort : Short es)
include hshort

theorem Listable.child_of_mem (h : Listable es dir) {k : Bool} (hmem : (c, k) ∈ items dir es) :
    Child es dir c ∧ (k = true ↔ IsDirectory es (child dir c)) := by
  cases k with
  | false =>
    obtain ⟨hne, hc, e, he, hpath⟩ := (mem_items_file hshort).mp hmem
    exact ⟨⟨hne, hc, .inl ⟨e, he, hpath⟩⟩,
      iff_of_false Bool.false_ne_true (h.file c hne hc e he hpath)⟩
  | true =>
    obtain ⟨hc, hwithin⟩ := (mem_items_dir hshort).mp hmem
    refine ⟨⟨fun hnil => h.named (hnil ▸ hwithin), hc, .inr hwithin⟩,
      iff_of_true rfl (.inr hwithin)⟩

/-- The subdirectories that are reported differ where their names are remembered. -/
theorem Listable.nodup_tags (h : Listable es dir) (hfew : Few es dir) :
    ((reported dir [] es).filterMap tag).Nodup := by
  let names := (((items dir es).filter (·.2)).map Prod.fst).dedup
  refine (Firsts.nodup (names.map (·.take seenLen)) ?_ ?_ List.nodup_nil
    (List.nil_subset _)).1
  · rw [List.length_map]
    refine hfew names (List.nodup_dedup _) fun name hname => ?_
    obtain ⟨⟨c, k⟩, hmem, rfl⟩ := List.mem_map.mp (List.mem_dedup.mp hname)
    obtain ⟨hmem, hk⟩ := List.mem_filter.mp hmem
    obtain ⟨hchild, hiff⟩ := h.child_of_mem hshort hmem
    exact ⟨hchild, hiff.mp hk⟩
  · rintro ⟨c, k⟩ hmem t ht
    cases k with
    | false => cases ht
    | true =>
      obtain rfl := Option.some.inj ht
      refine List.mem_map.mpr ⟨c, List.mem_dedup.mpr (List.mem_map.mpr ⟨(c, true), ?_, rfl⟩), rfl⟩
      exact List.mem_filter.mpr ⟨hmem, rfl⟩

theorem Listable.nodup (h : Listable es dir) (hfew : Few es dir) :
    ((reported dir [] es).map Prod.fst).Nodup := by
  have hdirs : (((reported dir [] es).filter (·.2)).map Prod.fst).Nodup := by
    have htags := h.nodup_tags hshort hfew
    rw [filterMap_tag, ← List.map_map] at htags
    exact htags.of_map
  rw [List.nodup_iff_count_le_one] at hdirs ⊢
  intro name
  have hdir := hdirs name
  rw [List.count_eq_countP, List.countP_map] at hdir ⊢
  rw [List.countP_eq_countP_filter_add (reported dir [] es) _ (·.2)]
  have hfile : ((reported dir [] es).filter (!·.2)).countP ((· == name) ∘ Prod.fst) =
      (items dir es).countP (· = (name, false)) := by
    rw [filter_reported, List.countP_filter]
    refine List.countP_congr fun item _ => ?_
    obtain ⟨c, k⟩ := item
    simp
  by_cases hmem : (name, false) ∈ items dir es
  · -- a file, and so the only one, and no subdirectory
    obtain ⟨hne, hc, e, he, hpath⟩ := (mem_items_file hshort).mp hmem
    have hnone : ((reported dir [] es).filter (·.2)).countP ((· == name) ∘ Prod.fst) = 0 := by
      rw [List.countP_eq_zero]
      rintro ⟨c, k⟩ hitem heq
      obtain ⟨hitem, rfl⟩ := List.mem_filter.mp hitem
      obtain rfl : c = name := by simpa using heq
      have hwithin := ((mem_items_dir hshort).mp (mem_of_reported hitem)).2
      exact h.file c hne hc e he hpath (.inr hwithin)
    have hone := h.once name hne hc
    rw [← countP_items_file hshort hne hc, ← hfile] at hone
    omega
  · have hzero : (items dir es).countP (· = (name, false)) = 0 := by
      rw [List.countP_eq_zero]
      intro item hitem heq
      exact hmem (of_decide_eq_true heq ▸ hitem)
    omega

theorem Listable.listing_eq (h : Listable es dir) : listing dir es = reported dir [] es := by
  refine (List.map_congr_left fun item hitem => ?_).trans (List.map_id _)
  obtain ⟨c, k⟩ := item
  have hchild := (h.child_of_mem hshort (mem_of_reported hitem)).1
  exact Prod.ext (cString_eq_self (h.no_nul c hchild)) rfl

/-- **If the members are listable the listing is exact.** -/
theorem Listable.exact (h : Listable es dir) (hfew : Few es dir) :
    Exact es dir (listing dir es) := by
  rw [h.listing_eq hshort]
  refine ⟨h.nodup hshort hfew, fun name kind => ⟨fun hmem => ?_, fun hchild => ?_⟩⟩
  · exact h.child_of_mem hshort (mem_of_reported hmem)
  · obtain ⟨⟨hne, hc, hmember⟩, hkind⟩ := hchild
    cases kind with
    | false =>
      have hno : ¬ IsDirectory es (child dir name) := fun hdir =>
        Bool.false_ne_true (hkind.mpr hdir)
      obtain hmember | hwithin := hmember
      · exact mem_reported_file.mpr ((mem_items_file hshort).mpr ⟨hne, hc, hmember⟩)
      · exact absurd (.inr hwithin) hno
    | true =>
      have hdir := hkind.mp rfl
      have hwithin : Within es (child dir name) := by
        obtain ⟨e, he, hpath, hmode⟩ | hwithin := hdir
        · exact absurd (.inl ⟨e, he, hpath, hmode⟩) (h.file name hne hc e he hpath)
        · exact hwithin
      obtain ⟨c', hmem, htake⟩ :=
        exists_reported_dir ((mem_items_dir hshort).mpr ⟨hc, hwithin⟩)
      obtain ⟨hc', hwithin'⟩ := (mem_items_dir hshort).mp (mem_of_reported hmem)
      rwa [← h.apart c' name hc' hc hwithin' hwithin htake]

/-- **If the listing is exact the members are listable**, where the listing is of some of the
members. -/
theorem Exact.listable (h : Exact ms dir (listing dir es)) (hes : ∀ e ∈ es, e ∈ ms)
    (hfew : Few ms dir) : Listable es dir := by
  have hwithin : ∀ path, Within es path → Within ms path :=
    fun path ⟨e, he, hpfx⟩ => ⟨e, hes e he, hpfx⟩
  have hchild : ∀ name, Child es dir name → Child ms dir name :=
    fun name ⟨hne, hc, hmember⟩ =>
      ⟨hne, hc, hmember.imp (fun ⟨e, he, hpath⟩ => ⟨e, hes e he, hpath⟩) (hwithin _)⟩
  have hno_nul : ∀ name, Child es dir name → 0 ∉ name := by
    intro name hname
    classical
    obtain ⟨c, -, rfl⟩ := mem_listing.mp ((h.mem_iff name (decide (IsDirectory ms _))).mpr
      ⟨hchild name hname, decide_eq_true_iff⟩)
    exact zero_not_mem_cString c
  have hfile : ∀ name, name ≠ [] → slash ∉ name → ∀ e ∈ es, pathOf e = child dir name →
      (name, false) ∈ listing dir es := by
    intro name hne hc e he hpath
    have hmem := mem_reported_file.mpr ((mem_items_file hshort).mpr ⟨hne, hc, e, he, hpath⟩)
    exact mem_listing.mpr ⟨name, hmem, cString_eq_self
      (hno_nul name ⟨hne, hc, .inl ⟨e, he, hpath⟩⟩)⟩
  have hnamed : ¬ Within es (child dir []) := by
    intro hnil
    obtain ⟨c, hmem, htake⟩ := exists_reported_dir
      ((mem_items_dir (c := []) hshort).mpr ⟨List.not_mem_nil, hnil⟩)
    obtain rfl : c = [] := by
      cases c with
      | nil => rfl
      | cons b c => cases htake
    exact ((h.mem_iff [] true).mp (mem_listing.mpr ⟨[], hmem, rfl⟩)).1.ne_nil rfl
  have hnames : ((reported dir [] es).map Prod.fst).Nodup := by
    have hnodup := h.once
    rw [listing, List.map_map] at hnodup
    refine List.Nodup.of_map cString ?_
    rw [List.map_map]
    exact hnodup
  refine ⟨hnamed, hno_nul, fun name hne hc e he hpath hdir => ?_, fun name hne hc => ?_,
    fun name name' hc hc' hname hname' htake => ?_⟩
  · have hkind := ((h.mem_iff name false).mp (hfile name hne hc e he hpath)).2
    refine Bool.false_ne_true (hkind.mpr ?_)
    exact hdir.imp (fun ⟨e, he, hpath⟩ => ⟨e, hes e he, hpath⟩) (hwithin _)
  · -- each member of the path is reported, and names are reported once
    have hone := List.nodup_iff_count_le_one.mp hnames name
    rw [List.count_eq_countP, List.countP_map] at hone
    have hfiles := congrArg (List.countP (· = (name, false)))
      (filter_reported dir es)
    rw [List.countP_filter, List.countP_filter] at hfiles
    have hkind : ∀ l : List (List UInt8 × Bool),
        l.countP (fun item => decide (item = (name, false)) && !item.2) =
          l.countP (· = (name, false)) := fun l =>
      List.countP_congr fun item _ => by simp +contextual
    rw [hkind, hkind] at hfiles
    rw [← countP_items_file hshort hne hc, ← hfiles]
    refine (List.countP_mono_left fun item _ hitem => ?_).trans hone
    rw [of_decide_eq_true hitem]
    simp
  · -- both are reported, and there is room to remember all that are
    have hreported : ∀ name, slash ∉ name → Within es (child dir name) →
        (name, true) ∈ reported dir [] es := by
      intro name hc hname
      have hne : name ≠ [] := fun hnil => hnamed (hnil ▸ hname)
      obtain ⟨c, hmem, hcut⟩ := mem_listing.mp ((h.mem_iff name true).mpr
        ⟨hchild name ⟨hne, hc, .inr hname⟩, iff_of_true rfl (.inr (hwithin _ hname))⟩)
      obtain ⟨hcc, hcw⟩ := (mem_items_dir hshort).mp (mem_of_reported hmem)
      have hnul := hno_nul c ⟨fun hnil => hnamed (hnil ▸ hcw), hcc, .inr hcw⟩
      rwa [← hcut, cString_eq_self hnul]
    have htags : ((reported dir [] es).filterMap tag).Nodup := by
      refine (Firsts.nodup ((reported dir [] es).filterMap tag) ?_ ?_ List.nodup_nil
        (List.nil_subset _)).1
      · rw [filterMap_tag, ← List.map_map, List.length_map]
        refine hfew _ (hnames.sublist (List.filter_sublist.map _)) fun name hname => ?_
        obtain ⟨⟨c, k⟩, hitem, rfl⟩ := List.mem_map.mp hname
        obtain ⟨hitem, rfl⟩ := List.mem_filter.mp hitem
        obtain ⟨hcc, hcw⟩ := (mem_items_dir hshort).mp (mem_of_reported hitem)
        exact ⟨hchild c ⟨fun hnil => hnamed (hnil ▸ hcw), hcc, .inr hcw⟩, .inr (hwithin _ hcw)⟩
      · rintro ⟨c, k⟩ hitem t ht
        cases k with
        | false => cases ht
        | true =>
          obtain rfl := Option.some.inj ht
          obtain ⟨c', hmem, htake⟩ := exists_reported_dir hitem
          exact List.mem_filterMap.mpr ⟨(c', true), hmem, congrArg some htake⟩
    rw [filterMap_tag] at htags
    have hinj := List.inj_on_of_nodup_map htags
      (List.mem_filter.mpr ⟨hreported name hc hname, rfl⟩)
      (List.mem_filter.mpr ⟨hreported name' hc' hname', rfl⟩) htake
    exact congrArg Prod.fst hinj

omit hshort

theorem Child.mono (hes : es ⊆ ms) (h : Child es dir name) : Child ms dir name :=
  ⟨h.ne_nil, h.no_slash, h.exists_member.imp (fun ⟨e, he, hpath⟩ => ⟨e, hes he, hpath⟩)
    fun ⟨e, he, hpfx⟩ => ⟨e, hes he, hpfx⟩⟩

theorem IsDirectory.mono {path : List UInt8} (hes : es ⊆ ms) (h : IsDirectory es path) :
    IsDirectory ms path :=
  h.imp (fun ⟨e, he, hpath⟩ => ⟨e, hes he, hpath⟩) fun ⟨e, he, hpfx⟩ => ⟨e, hes he, hpfx⟩

/-- Some of the members show the same children as all of them. -/
def SameChildren (es ms : List Cpio.Entry) (dir : List UInt8) : Prop :=
  ∀ name, (Child es dir name ↔ Child ms dir name) ∧
    (Child ms dir name → (IsDirectory es (child dir name) ↔ IsDirectory ms (child dir name)))

/-- **A listing of some of the members is exact** just if they show the same children as all of
them, and are listable. -/
theorem exact_listing_iff (hshort : Short ms) (hfew : Few ms dir) (hes : es ⊆ ms) :
    Exact ms dir (listing dir es) ↔ SameChildren es ms dir ∧ Listable es dir := by
  have hshort' : Short es := fun e he => hshort e (hes he)
  have hfew' : Few es dir := fun names hnodup hnames =>
    hfew names hnodup fun name hname => ⟨(hnames name hname).1.mono hes, (hnames name hname).2.mono
        hes⟩
  constructor
  · intro h
    have hlist := h.listable hshort' (fun e he => hes he) hfew
    have hexact := hlist.exact hshort' hfew'
    refine ⟨fun name => ?_, hlist⟩
    classical
    have hiff := fun kind => (hexact.mem_iff name kind).symm.trans (h.mem_iff name kind)
    have hchild : Child es dir name ↔ Child ms dir name := by
      refine ⟨fun hc => hc.mono hes, fun hc => ?_⟩
      exact ((hiff (decide (IsDirectory ms _))).mpr ⟨hc, decide_eq_true_iff⟩).1
    refine ⟨hchild, fun hc => ?_⟩
    have hdir := (hiff true).trans (and_iff_right hc)
    rw [and_iff_right (hchild.mpr hc)] at hdir
    simpa using hdir
  · rintro ⟨hsame, hlist⟩
    have hexact := hlist.exact hshort' hfew'
    refine ⟨hexact.once, fun name kind => (hexact.mem_iff name kind).trans ?_⟩
    rw [(hsame name).1]
    exact and_congr_right fun hc => by rw [(hsame name).2 hc]

/-! ### A process reads a directory -/

theorem under_iff {path entry : List UInt8} : Under path entry ↔ path ++ [slash] <+: entry := by
  constructor
  · intro h
    exact ⟨entry.drop (path.length + 1), by rw [List.append_assoc]; exact (eq_of_under h).symm⟩
  · rintro ⟨more, rfl⟩
    rw [List.append_assoc]
    exact under_append path more

theorem exists_lies_iff {path : List UInt8} (hshort : Short es) :
    (∃ e ∈ es, Lies path e) ↔ Within es path := by
  refine exists_congr fun e => and_congr_right fun he => ?_
  rw [Lies, nameOf_eq hshort he, under_iff]
  exact Iff.rfl

theorem shown_sublist (es : List Cpio.Entry) (l : Link) : (l.shown es).Sublist es := by
  induction es generalizing l with
  | nil => exact .refl _
  | cons e es ih =>
    rw [Link.shown]
    split
    · exact (ih _).cons_cons e
    · exact List.nil_sublist _

/-- The members a process is shown from the first on, after it was answered `k` requests. -/
def shownAfter (k : ℕ) (p : Process) : List Cpio.Entry :=
  if p.page.isSome then (Link.next^[k] p.link).shown p.members else []

theorem shownAfter_subset (k : ℕ) (p : Process) : shownAfter k p ⊆ p.members := by
  rw [shownAfter]
  split
  · exact (shown_sublist ..).subset
  · exact List.nil_subset _

/-- The requests it takes to find that a directory exists. -/
def asks (dir : List UInt8) (es : List Cpio.Entry) : ℕ :=
  if dir = [] ∨ dir = [46] then 0 else asked dir es

/-- **What opening does**, when it finds the directory. -/
theorem directoryExists_spec (path : List UInt8) (p : Process) (hshort : Short p.members) :
    ((directoryExists path p).1 = true ↔ trimSlashes path = [] ∨ trimSlashes path = [46] ∨
      Within (shownAfter 0 p) (trimSlashes path)) ∧
    ((directoryExists path p).1 = true →
      (directoryExists path p).2.members = p.members ∧ (directoryExists path p).2.shown 0 =
        shownAfter (asks (trimSlashes path) p.members) p) := by
  rw [directoryExists]
  by_cases hroot : trimSlashes path = [] ∨ trimSlashes path = [46]
  · rw [if_pos hroot, asks, if_pos hroot]
    exact ⟨iff_of_true rfl (or_assoc.mp (.inl hroot)), fun _ => ⟨rfl, rfl⟩⟩
  · rw [if_neg hroot, asks, if_neg hroot, ← or_assoc, or_iff_right hroot]
    obtain ⟨hiff, hmembers, hfound⟩ := existsLoop_spec (trimSlashes path) 0 p
    have hshown : p.shown 0 = shownAfter 0 p := rfl
    have hshort' : Short (shownAfter 0 p) := fun e he => hshort e (shownAfter_subset 0 p he)
    rw [hshown, exists_lies_iff hshort'] at hiff
    refine ⟨hiff, fun h => ⟨hmembers, ?_⟩⟩
    obtain ⟨hpage, hlink⟩ := hfound h
    have hpage' : p.page.isSome = true := by
      obtain ⟨e, he, -⟩ := hiff.mp h
      rw [shownAfter] at he
      split at he
      · assumption
      · cases he
    rw [Process.shown, if_pos hpage, hlink, hmembers, shownAfter, if_pos hpage']
    rfl

/-- Reading a directory from `opendir` to the end gives what it should. -/
def Lists (p : Process) (path : List UInt8) (room : Bool) : Prop :=
  ∃ d p', opendir path room p = (.ok d, p') ∧
    Exact p.members (trimSlashes path) ((readAll d p').1.map Dirent.told)

theorem lists_iff (p : Process) (path : List UInt8) (room : Bool) (hshort : Short p.members)
    (hlen : (trimSlashes path).length ≤ FileServer.maxPath) :
    Lists p path room ↔ room = true ∧ (trimSlashes path = [] ∨ trimSlashes path = [46] ∨
        Within (shownAfter 0 p) (trimSlashes path)) ∧
      Exact p.members (trimSlashes path) (listing (trimSlashes path)
        (shownAfter (asks (trimSlashes path) p.members) p)) := by
  obtain ⟨hiff, hafter⟩ := directoryExists_spec path p hshort
  rw [← hiff]
  obtain ⟨⟨e, herror⟩, hno⟩ | ⟨-, hfound, hroom, hopen⟩ := opendir_cases path room p
  · refine iff_of_false ?_ fun h => hno ⟨hlen, h.2.1, h.1⟩
    rintro ⟨d, p', hd, -⟩
    rw [hd] at herror
    cases herror
  · obtain ⟨hmembers, hshown⟩ := hafter hfound
    rw [and_iff_right hroom, and_iff_right hfound, Lists, hopen]
    constructor
    · rintro ⟨d, p', hd, hexact⟩
      cases hd
      rw [readAll_spec, hshown] at hexact
      exact hexact
    · intro hexact
      refine ⟨_, _, rfl, ?_⟩
      rw [readAll_spec, hshown]
      exact hexact

/-- There are no more subdirectories than members. -/
theorem few_of_length (hshort : Short es) (hlen : es.length ≤ seenMax) (dir : List UInt8) :
    Few es dir := by
  intro names hnodup hnames
  have hsub : names ⊆ (items dir es).map Prod.fst := by
    intro name hname
    obtain ⟨⟨hne, hc, hmember⟩, -⟩ := hnames name hname
    obtain hmember | hwithin := hmember
    · exact List.mem_map.mpr ⟨_, (mem_items_file hshort).mpr ⟨hne, hc, hmember⟩, rfl⟩
    · exact List.mem_map.mpr ⟨_, (mem_items_dir hshort).mpr ⟨hc, hwithin⟩, rfl⟩
  have hle := (List.subperm_of_subset hnodup hsub).length_le
  rw [List.length_map] at hle
  exact hle.trans ((List.length_filterMap_le ..).trans hlen)

/-- **When a listing is complete and exact.** A directory is read from `opendir` to the end: the
root, or a path that is a directory member or a proper prefix of a member. What is reported is each
child once under its full name with the right kind, and nothing else, just if the heap has room, the
directory is found among the members that are shown, the members shown after that show the same
children as the whole archive, and they do not get in each other's way. -/
theorem listing_exact (p : Process) (path : List UInt8) (room : Bool)
    (hdir : trimSlashes path = [] ∨ IsDirectory p.members (trimSlashes path))
    (hshort : Short p.members) (hfew : Few p.members (trimSlashes path)) :
    let dir := trimSlashes path
    let es := shownAfter (asks dir p.members) p
    Lists p path room ↔ room = true ∧ (dir = [] ∨ dir = [46] ∨ Within (shownAfter 0 p) dir) ∧
      SameChildren es p.members dir ∧ Listable es dir := by
  intro dir es
  have hlen : (trimSlashes path).length ≤ FileServer.maxPath := by
    have hmember : ∀ e ∈ p.members, (pathOf e).length ≤ FileServer.maxPath := fun e he =>
      (length_trimSlashes_le _).trans (hshort e he)
    obtain hnil | ⟨e, he, hpath, -⟩ | ⟨e, he, hpfx⟩ := hdir
    · rw [hnil]
      exact Nat.zero_le _
    · exact hpath ▸ hmember e he
    · have hle := hpfx.length_le
      rw [List.length_append] at hle
      exact (Nat.le_of_add_right_le hle).trans (hmember e he)
  rw [lists_iff p path room hshort hlen, exact_listing_iff hshort hfew (shownAfter_subset ..)]

/-- A process on an archive, whose requests are all answered until the server stops. -/
def processOn (archive : Slice) : Process :=
  { process fun _ => goodTurn with link := ⟨.start archive, fun _ => goodTurn⟩ }

/-- A file, and a file in a directory. -/
def archiveOfTwo : Slice :=
  ⟨Cpio.pushEntry (Cpio.pushEntry [] ⟨"a", 0o100644, ⟨[], Slice.nil_fits⟩⟩)
    ⟨"d/b", 0o100644, ⟨[], Slice.nil_fits⟩⟩, by decide +kernel⟩

set_option maxRecDepth 20000 in
/-- The root of it has a file and a directory. -/
theorem listing_exact_two : Lists (processOn archiveOfTwo) [47] true ∧
    listing [] (processOn archiveOfTwo).members = [([97], false), ([100], true)] := by
  have hitems : items [] (processOn archiveOfTwo).members = [([97], false), ([100], true)] := by
    decide +kernel
  have hfiles : ∀ e ∈ (processOn archiveOfTwo).members, isDir e = false := by decide +kernel
  have hshown : shownAfter 0 (processOn archiveOfTwo) = (processOn archiveOfTwo).members := by
    decide +kernel
  have hshort : Short (processOn archiveOfTwo).members := by
    unfold Short
    decide +kernel
  have hfew := few_of_length hshort (show (processOn archiveOfTwo).members.length ≤ seenMax by
    decide +kernel) (trimSlashes [47])
  refine ⟨(listing_exact (processOn archiveOfTwo) [47] true (.inl (by decide)) hshort hfew).mpr
    ⟨rfl, .inl (by decide), ?_⟩, by decide +kernel⟩
  have hroot : trimSlashes [47] = [] := by decide
  rw [hroot, asks, if_pos (.inl rfl), hshown]
  have hwithin : ∀ name, slash ∉ name →
      Within (processOn archiveOfTwo).members (child [] name) → name = [100] := by
    intro name hname hw
    have hmem := (mem_items_dir hshort).mpr ⟨hname, hw⟩
    rw [hitems] at hmem
    simpa using hmem
  have hmember : ∀ name, name ≠ [] → slash ∉ name → ∀ e ∈ (processOn archiveOfTwo).members,
      pathOf e = child [] name → name = [97] := by
    intro name hne hname e he hpath
    have hmem := (mem_items_file hshort).mpr ⟨hne, hname, e, he, hpath⟩
    rw [hitems] at hmem
    simpa using hmem
  refine ⟨fun name => ⟨Iff.rfl, fun _ => Iff.rfl⟩, fun hw => ?_, fun name hname => ?_,
    fun name hne hname e he hpath hdir => ?_, fun name hne hname => ?_,
    fun name name' hname hname' hw hw' _ => ?_⟩
  · exact absurd (hwithin [] List.not_mem_nil hw) (by decide)
  · obtain ⟨e, he, hpath⟩ | hw := hname.exists_member
    · rw [hmember name hname.ne_nil hname.no_slash e he hpath]
      decide
    · rw [hwithin name hname.no_slash hw]
      decide
  · obtain ⟨e', he', -, hmode⟩ | hw := hdir
    · rw [hfiles e' he'] at hmode
      cases hmode
    · have hfile := hmember name hne hname e he hpath
      rw [hwithin name hname hw] at hfile
      exact absurd hfile (by decide)
  · by_contra hmany
    have hpos : 0 < (processOn archiveOfTwo).members.countP (pathOf · = child [] name) := by omega
    obtain ⟨e, he, hpath⟩ := List.countP_pos_iff.mp hpos
    rw [hmember name hne hname e he (of_decide_eq_true hpath)] at hmany
    exact hmany (by decide +kernel)
  · rw [hwithin name hname hw, hwithin name' hname' hw']

/-- A directory member, and a file in it. -/
def archiveWithDirectory : Slice :=
  ⟨Cpio.pushEntry (Cpio.pushEntry [] ⟨"d", 0o040755, ⟨[], Slice.nil_fits⟩⟩)
    ⟨"d/a", 0o100644, ⟨[], Slice.nil_fits⟩⟩, by decide +kernel⟩

set_option maxRecDepth 20000 in
/-- The directory is reported as a file, and once more as a directory. -/
theorem listing_repeats : ∃ p : Process, Short p.members ∧ Few p.members (trimSlashes []) ∧
    p.shown 0 = p.members ∧ ¬ Lists p [] true := by
  have hshort : Short (processOn archiveWithDirectory).members := by
    unfold Short
    decide +kernel
  refine ⟨processOn archiveWithDirectory, hshort, few_of_length hshort (by decide +kernel) _,
    by decide +kernel, fun h => ?_⟩
  obtain ⟨-, -, hexact⟩ := (lists_iff _ [] true hshort (by decide)).mp h
  exact absurd hexact.once (by decide +kernel)

end Directory

end StarOS
