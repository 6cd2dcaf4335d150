import StarOS.Libc.Spelling

/-!
# Resolving a path

There are no symbolic links and one working directory, so `realpath` answers with the path it was
given, if there is something there. The path is looked up without the `/` and `./` in front of it,
and copied with them.

## Main definitions

* `Files.realpath`
* `Files.Resolves` — what is asked of an answer

## Main results

* `Files.realpath_spec`
* `Files.realpath_exact`
-/

namespace StarOS

namespace Files

open Directory (cString cString_eq_self)

variable {p : Process} {path : List UInt8}

/-- The longest path a caller has room for, with its zero. -/
def pathMax : ℕ := 4096

/-- `realpath`: the bytes written, at the caller's buffer or, without one, at memory of their own,
if there is room for them. -/
def realpath (path : List UInt8) (resolved room : Bool) :
    StateM Process (Except ℕ (List UInt8)) := do
  let found ← if ← pathExists path then pure true else directoryExists path
  if !found then return .error enoent
  if !resolved && !room then return .error Directory.enomem
  return .ok (path ++ [0])

/-! ### Asking whether a path exists -/

/-- What the server takes for a member: a file that can be opened, and a name that is no text, which
it refuses as such and not as one it does not have. -/
def Claimed (archive : Slice) (path : List UInt8) : Prop :=
  (fileAt archive (normalise path)).isSome = true ∨
    ¬ IsText (normalise path) ∧ (normalise path).length ≤ FileServer.maxPath

theorem fileAt_of_not_text {archive : Slice} (h : ¬ IsText path) : fileAt archive path = none := by
  rw [fileAt]
  split
  · rfl
  · cases htext : fromUtf8 path with
    | none => rfl
    | some name => exact absurd (isText_iff.mpr ⟨name, fromUtf8_eq_some.mp htext⟩) h

/-- **Asking whether a path exists**, where the request is answered. -/
theorem pathExists_spec (hpage : p.page.isSome = true) (hgood : p.link.Good) (path : List UInt8) :
    ∃ p', pathExists path p = ((pathExists path p).1, p') ∧
      ((pathExists path p).1 = true ↔ Claimed p.link.server.archive path) ∧
      p'.page.isSome = true ∧ p'.members = p.members ∧
      (IsText (normalise path) → p'.link = p.link ∨ p'.link = p.link.next) := by
  by_cases hbad : normalise path = [] ∨ (normalise path).length > FileServer.maxPath
  · obtain ⟨page, hpage'⟩ := Option.isSome_iff_exists.mp hpage
    have hput := putPath_eq hpage' path
    rw [if_pos hbad] at hput
    have hrun : pathExists path p = (false, p) := by
      rw [pathExists, Fd.bind_of_eq hput]
      rfl
    rw [hrun]
    refine ⟨p, rfl, iff_of_false Bool.false_ne_true ?_, hpage, rfl, fun _ => .inl rfl⟩
    rintro (hsome | ⟨htext, hlen⟩)
    · rw [fileAt, if_pos hbad] at hsome
      cases hsome
    · rcases hbad with hnil | hlong
      · rw [hnil] at htext
        exact htext ⟨[], rfl⟩
      · exact absurd hlen (Nat.not_le.mpr hlong)
  · obtain ⟨q, p', reply, hput, hreq, hreply, hpage', hmembers, hlink⟩ :=
      request_statOf hpage hgood hbad
    have hrun : pathExists path p = (decide (reply.tag ≠ FileServer.tagError ∨
        reply.words.get 0 ≠ FileServer.errNoFile), p') := by
      rw [pathExists, Fd.bind_of_eq hput]
      dsimp only
      rw [Fd.bind_of_eq hreq]
      rfl
    rw [hrun]
    refine ⟨p', rfl, ?_, hpage', hmembers, fun htext => .inr (hlink htext)⟩
    rw [decide_eq_true_eq, hreply, Claimed]
    rw [not_or, Nat.not_lt] at hbad
    by_cases htext : IsText (normalise path)
    · obtain ⟨name, hname⟩ := isText_iff.mp htext
      have hsome : (fromUtf8 (normalise path)).isSome = true := by
        rw [fromUtf8_eq_some.mpr hname]
        rfl
      rw [if_pos hsome]
      cases fileAt p.link.server.archive (normalise path) with
      | some e =>
        have htag : FileServer.tagStat ≠ FileServer.tagError := by decide
        exact iff_of_true (.inl htag) (.inl rfl)
      | none =>
        refine iff_of_false ?_ ?_
        · rintro (htag | hcode)
          · exact htag rfl
          · exact hcode rfl
        · rintro (hnone | ⟨hno, -⟩)
          · cases hnone
          · exact hno htext
    · have hnone : fromUtf8 (normalise path) = none := by
        refine Option.eq_none_iff_forall_ne_some.mpr fun name hname => ?_
        exact htext (isText_iff.mpr ⟨name, fromUtf8_eq_some.mp hname⟩)
      rw [fileAt_of_not_text htext, hnone]
      exact iff_of_true (.inr (by decide)) (.inr ⟨htext, hbad.2⟩)

/-! ### What is answered -/

/-- **What a path is resolved to**: itself, if the server takes it for a member or if there is a
directory. -/
theorem realpath_spec (hpage : p.page.isSome = true)
    (hgood : p.link.GoodFor (p.members.length + 1)) (path : List UInt8) (room : Bool) :
    (Claimed p.link.server.archive path ∨ Found p.members path →
      (realpath path true room p).1 = .ok (path ++ [0])) ∧
    (¬ (Claimed p.link.server.archive path ∨ Found p.members path) →
      (realpath path true room p).1 = .error enoent) := by
  obtain ⟨p', hexists, hiff, hpage', hmembers, hlink⟩ := pathExists_spec hpage hgood.1 path
  rw [realpath, Fd.bind_of_eq hexists]
  cases hclaim : (pathExists path p).1 with
  | true => exact ⟨fun _ => rfl, fun hno => absurd (.inl (hiff.mp hclaim)) hno⟩
  | false =>
    have hno : ¬ Claimed p.link.server.archive path := by
      rw [← hiff, hclaim]
      exact Bool.false_ne_true
    have hfound : (directoryExists path p').1 = true ↔ Found p.members path := by
      rw [directoryExists_iff]
      by_cases htext : IsText (normalise path)
      · have hgood' : p'.link.GoodFor p'.members.length := by
          rw [hmembers]
          obtain h | h := hlink htext
          · rw [h]
            exact hgood.mono (Nat.le_succ _)
          · rw [h]
            exact hgood.2
        rw [shown_of_good hpage' hgood', hmembers]
      · exact iff_of_false (fun h => htext (isText_of_found h)) fun h => htext (isText_of_found h)
    obtain ⟨found, p₁, hdir⟩ : ∃ found p₁, directoryExists path p' = (found, p₁) := ⟨_, _, rfl⟩
    rw [hdir] at hfound
    rw [or_iff_right hno, if_neg Bool.false_ne_true, Fd.bind_of_eq hdir]
    cases found with
    | true => exact ⟨fun _ => rfl, fun hnot => absurd (hfound.mp rfl) hnot⟩
    | false => exact ⟨fun h => absurd (hfound.mpr h) Bool.false_ne_true, fun _ => rfl⟩

/-- There is a file or a directory at a path. -/
def Exists (archive : Slice) (path : List UInt8) : Prop :=
  (fileAt archive (normalise path)).isSome = true ∨ Found (Cpio.members archive) path

/-- What is asked of an answer: it fits the caller's buffer, it is none exactly if there is nothing
at the path, and it leads to the same. -/
structure Resolves (archive : Slice) (path : List UInt8) (answer : Except ℕ (List UInt8)) :
    Prop where
  fits : ∀ out, answer = .ok out → out.length ≤ pathMax
  null : (∃ e, answer = .error e) ↔ ¬ Exists archive path
  same : ∀ out, answer = .ok out → ∀ q : Process, SameAnswers q path (cString out) ∧
    ∀ resolved room, realpath (cString out) resolved room q = realpath path resolved room q

/-- **A path is resolved as it should be** exactly if it fits the buffer, where there is something
at it, and is text, where it is short enough to be asked about. -/
theorem realpath_exact (hpage : p.page.isSome = true)
    (hgood : p.link.GoodFor (p.members.length + 1)) (path : List UInt8) (hzero : 0 ∉ path)
    (room : Bool) :
    Resolves p.link.server.archive path (realpath path true room p).1 ↔
      (Exists p.link.server.archive path → path.length < pathMax) ∧
        (IsText (normalise path) ∨ FileServer.maxPath < (normalise path).length) := by
  obtain ⟨hok, herror⟩ := realpath_spec hpage hgood path room
  have hexists : Exists p.link.server.archive path →
      Claimed p.link.server.archive path ∨ Found p.members path := Or.imp_left .inl
  have hstring : cString (path ++ [0]) = path := by
    rw [cString, List.takeWhile_append_of_pos fun b hb => ?_]
    · exact List.append_nil path
    · refine decide_eq_true fun hb0 => hzero ?_
      rwa [← hb0]
  constructor
  · intro h
    refine ⟨fun hthere => ?_, ?_⟩
    · have hfits := h.fits _ (hok (hexists hthere))
      rw [List.length_append, List.length_singleton] at hfits
      exact hfits
    · refine or_iff_not_imp_left.mpr fun htext => Nat.not_le.mp fun hlen => ?_
      have hno : ¬ Exists p.link.server.archive path := by
        rintro (hfile | hfound)
        · rw [fileAt_of_not_text htext] at hfile
          cases hfile
        · exact htext (isText_of_found hfound)
      obtain ⟨e, he⟩ := h.null.mpr hno
      rw [hok (.inl (.inr ⟨htext, hlen⟩))] at he
      cases he
  · rintro ⟨hfits, htext⟩
    have hiff : Claimed p.link.server.archive path ∨ Found p.members path ↔
        Exists p.link.server.archive path := by
      refine ⟨?_, hexists⟩
      rintro ((hfile | ⟨hno, hlen⟩) | hfound)
      · exact .inl hfile
      · rcases htext with htext | hlong
        · exact absurd htext hno
        · exact absurd hlen (Nat.not_le.mpr hlong)
      · exact .inr hfound
    by_cases hthere : Exists p.link.server.archive path
    · rw [hok (hiff.mpr hthere)]
      refine ⟨?_, iff_of_false ?_ (not_not.mpr hthere), ?_⟩
      · rintro out ⟨⟩
        rw [List.length_append, List.length_singleton]
        exact hfits hthere
      · rintro ⟨e, he⟩
        cases he
      · rintro out ⟨⟩ q
        rw [hstring]
        exact ⟨.of_trimSlashes rfl rfl q, fun resolved room => rfl⟩
    · rw [herror fun h => hthere (hiff.mp h)]
      refine ⟨?_, iff_of_true ⟨_, rfl⟩ hthere, ?_⟩
      · rintro out ⟨⟩
      · rintro out ⟨⟩

set_option maxRecDepth 20000 in
/-- The file `d/a`, where it is. -/
theorem realpath_exact_file :
    Resolves archiveInDirectory [100, 47, 97]
      (realpath [100, 47, 97] true false (Directory.processOn archiveInDirectory)).1 := by
  have hgood : (Directory.processOn archiveInDirectory).link.GoodFor
      ((Directory.processOn archiveInDirectory).members.length + 1) := by decide +kernel
  refine (realpath_exact rfl hgood [100, 47, 97] (by decide) false).mpr
    ⟨fun _ => by decide, .inl (isText_of_ascii (by decide))⟩

theorem trimSlashes_replicate (n : ℕ) : trimSlashes (List.replicate n slash) = [] := by
  have hdot : dropDotSlash (List.replicate n slash) = List.replicate n slash := by
    cases n with
    | zero => rfl
    | succ n => rfl
  rw [trimSlashes, hdot, List.dropWhile_replicate, if_pos (by decide)]
  rfl

set_option maxRecDepth 20000 in
/-- The root, spelled with as many slashes as there is room for, is written with a zero behind
them. -/
theorem realpath_overruns : ∃ p : Process, p.page.isSome = true ∧
    p.link.GoodFor (p.members.length + 1) ∧ ∃ path : List UInt8, 0 ∉ path ∧
      ¬ Resolves p.link.server.archive path (realpath path true false p).1 := by
  have hgood : (Directory.processOn archiveInDirectory).link.GoodFor
      ((Directory.processOn archiveInDirectory).members.length + 1) := by decide +kernel
  refine ⟨Directory.processOn archiveInDirectory, rfl, hgood, List.replicate 4096 slash, ?_,
    fun h => ?_⟩
  · intro hzero
    exact absurd (List.eq_of_mem_replicate hzero) (by decide)
  · have hroot : Found (Directory.processOn archiveInDirectory).members
        (List.replicate 4096 slash) := .inl (trimSlashes_replicate 4096)
    have hfits := h.fits _ ((realpath_spec rfl hgood _ false).1 (.inr hroot))
    rw [List.length_append, List.length_replicate, List.length_singleton] at hfits
    exact absurd hfits (by decide)

end Files

end StarOS
