import StarOS.Libc.Listing

/-!
# Spellings of a path

Files are looked up under a path without the `/` and `./` in front of it, in any order of the two.
Directories are looked up under a path without the `./` in front of it, and then the `/` in front of
that and at its end. The two agree on most spellings, and not on `/./fonts`.

## Main definitions

* `Files.fileAt`, `Files.Found` — what a path leads to in an archive
* `Files.SameAnswers` — two spellings that no call tells apart
* `Files.Link.GoodFor` — the next requests are answered

## Main results

* `Files.stat_spec`
* `Files.spellings_agree`
-/

namespace StarOS

namespace Files

open FileServer (Request Server)
open Directory (readAll opendir reported)

variable {p p' : Process} {l : Link} {path path' : List UInt8} {k n : ℕ}

/-! ### What is in front of a path -/

/-- Something that may stand in front of a path: ASCII up to a slash. -/
structure Lead (lead : List UInt8) : Prop where
  ascii : ∀ b ∈ lead, b < 128
  ends : lead = [] ∨ ∃ l, lead = l ++ [slash]

theorem lead_nil : Lead [] := ⟨fun _ hb => absurd hb List.not_mem_nil, .inl rfl⟩

theorem Lead.append {l₁ l₂ : List UInt8} (h₁ : Lead l₁) (h₂ : Lead l₂) : Lead (l₁ ++ l₂) := by
  refine ⟨fun b hb => (List.mem_append.mp hb).elim (h₁.ascii b) (h₂.ascii b), ?_⟩
  obtain rfl | ⟨l, rfl⟩ := h₂.ends
  · rw [List.append_nil]
    exact h₁.ends
  · exact .inr ⟨l₁ ++ l, (List.append_assoc ..).symm⟩

theorem lead_slash : Lead [slash] :=
  ⟨fun _ hb => List.mem_singleton.mp hb ▸ (by decide : slash < 128), .inr ⟨[], rfl⟩⟩

theorem lead_dot_slash : Lead [46, slash] := by
  refine ⟨fun b hb => ?_, .inr ⟨[46], rfl⟩⟩
  obtain rfl | hb := List.mem_cons.mp hb
  · decide
  · exact lead_slash.ascii b hb

/-- Text behind a lead is text. -/
theorem Lead.isText {lead bs : List UInt8} (h : Lead lead) (htext : IsText (lead ++ bs)) :
    IsText bs := by
  obtain rfl | ⟨l, rfl⟩ := h.ends
  · exact htext
  · rw [List.append_assoc] at htext
    exact (htext.split (by decide)).2

theorem exists_lead_normalise (path : List UInt8) :
    ∃ lead, Lead lead ∧ path = lead ++ normalise path := by
  fun_induction normalise path with
  | case1 path ih =>
    obtain ⟨lead, h, heq⟩ := ih
    exact ⟨[slash] ++ lead, lead_slash.append h, congrArg (slash :: ·) heq⟩
  | case2 path ih =>
    obtain ⟨lead, h, heq⟩ := ih
    exact ⟨[46, slash] ++ lead, lead_dot_slash.append h, congrArg (46 :: slash :: ·) heq⟩
  | case3 path => exact ⟨[], lead_nil, rfl⟩

theorem exists_lead_dropDotSlash (path : List UInt8) :
    ∃ lead, Lead lead ∧ path = lead ++ dropDotSlash path := by
  fun_induction dropDotSlash path with
  | case1 path ih =>
    obtain ⟨lead, h, heq⟩ := ih
    exact ⟨[46, slash] ++ lead, lead_dot_slash.append h, congrArg (46 :: slash :: ·) heq⟩
  | case2 path => exact ⟨[], lead_nil, rfl⟩

theorem lead_of_slashes {lead : List UInt8} (h : ∀ b ∈ lead, b = slash) : Lead lead := by
  induction lead with
  | nil => exact lead_nil
  | cons b lead ih =>
    obtain rfl := h b List.mem_cons_self
    exact lead_slash.append (ih fun c hc => h c (List.mem_cons_of_mem _ hc))

/-- What `trimSlashes` takes away. -/
theorem exists_lead_trimSlashes (path : List UInt8) :
    ∃ lead trail, Lead lead ∧ (∀ b ∈ trail, b = slash) ∧
      path = lead ++ (trimSlashes path ++ trail) := by
  obtain ⟨lead, h, heq⟩ := exists_lead_dropDotSlash path
  let inner := (dropDotSlash path).dropWhile (· = slash)
  refine ⟨lead ++ (dropDotSlash path).takeWhile (· = slash), inner.rtakeWhile (· = slash),
    h.append (lead_of_slashes fun b hb => ?_), fun b hb => ?_, ?_⟩
  · have hp := List.mem_takeWhile_imp hb
    exact of_decide_eq_true hp
  · have hp := List.mem_rtakeWhile_imp hb
    exact of_decide_eq_true hp
  · have hinner : trimSlashes path ++ inner.rtakeWhile (· = slash) = inner :=
      List.rdropWhile_append_rtakeWhile ..
    rw [hinner, List.append_assoc, List.takeWhile_append_dropWhile]
    exact heq

/-- **A path is text** if what is left of it is. -/
theorem isText_normalise (h : IsText (trimSlashes path)) : IsText (normalise path) := by
  obtain ⟨lead, trail, hlead, htrail, heq⟩ := exists_lead_trimSlashes path
  obtain ⟨lead', hlead', heq'⟩ := exists_lead_normalise path
  refine hlead'.isText ?_
  rw [← heq', heq]
  refine (isText_of_ascii hlead.ascii).append (h.append (isText_of_ascii fun b hb => ?_))
  rw [htrail b hb]
  decide

/-- A path with a member under it is text. -/
theorem isText_of_lies {e : Cpio.Entry} (h : Lies path e) : IsText path := by
  obtain ⟨more, hmore⟩ := Directory.under_iff.mp h
  obtain ⟨lead, trail, hlead, -, heq⟩ := exists_lead_trimSlashes (nameOf e)
  have htext : IsText (utf8 e.name) := isText_iff.mpr ⟨_, rfl⟩
  have hname : utf8 e.name =
      lead ++ path ++ slash :: (more ++ trail ++ (utf8 e.name).drop FileServer.maxPath) := by
    have htake : (utf8 e.name).take FileServer.maxPath =
        lead ++ (path ++ [slash] ++ more ++ trail) := by
      rw [hmore]
      exact heq
    conv_lhs => rw [← List.take_append_drop FileServer.maxPath (utf8 e.name), htake]
    simp only [List.append_assoc, List.cons_append, List.nil_append]
  rw [hname] at htext
  exact hlead.isText (htext.split (by decide)).1

/-! ### Requests that are answered -/

/-- The next `k` requests are answered. -/
def Link.GoodFor : ℕ → Link → Prop
  | 0, _ => True
  | k + 1, l => l.Good ∧ l.next.GoodFor k

instance Link.decidableGoodFor : ∀ (k : ℕ) (l : Link), Decidable (l.GoodFor k)
  | 0, _ => .isTrue trivial
  | k + 1, l => @instDecidableAnd _ _ _ (Link.decidableGoodFor k l.next)

theorem Link.GoodFor.mono (h : l.GoodFor n) (hle : k ≤ n) : l.GoodFor k := by
  induction k generalizing l n with
  | zero => trivial
  | succ k ih =>
    obtain ⟨n, rfl⟩ := Nat.exists_eq_add_one_of_ne_zero (Nat.ne_zero_of_lt hle)
    exact ⟨h.1, ih h.2 (Nat.le_of_succ_le_succ hle)⟩

theorem Link.GoodFor.iterate (h : l.GoodFor (k + n)) : (Link.next^[k] l).GoodFor n := by
  induction k generalizing l with
  | zero => rwa [Nat.zero_add] at h
  | succ k ih =>
    rw [Nat.add_right_comm] at h
    exact ih h.2

/-- All members are shown if the requests for them are answered. -/
theorem Link.GoodFor.shown {es : List Cpio.Entry} (h : l.GoodFor es.length) : l.shown es = es := by
  induction es generalizing l with
  | nil => rfl
  | cons e es ih => rw [Link.shown, if_pos h.1, ih h.2]

theorem Link.fst_request_of_good (msg : Message) (page : List UInt8) (h : l.Good)
    (hbye : msg.tag ≠ FileServer.tagBye) :
    (l.request msg page).1 =
      some (FileServer.serve l.server.archive l.before.table ⟨msg, some page⟩).reply := by
  have hserving : (!l.before.serving) = false := by rw [h.serving]; rfl
  simp only [Link.request, h.arrives, h.maps, if_true, Server.turn, hserving, Bool.false_eq_true,
    if_false, hbye, h.replies, h.hears, Bool.and_self, Link.archive_before]

/-! ### Asking about a file -/

/-- The regular file stored under a name, if it is the first member of that name. -/
def fileAt (archive : Slice) (name : List UInt8) : Option Cpio.Entry :=
  if name = [] ∨ name.length > FileServer.maxPath then none
  else (fromUtf8 name).bind (FileServer.find archive)

/-- The page with a path in it. -/
def Page.withPath (page : Page) (path : List UInt8) : Page :=
  page.filled (FileServer.write page.bytes path)

theorem putPath_eq {page : Page} (hpage : p.page = some page) (path : List UInt8) :
    putPath path p =
      if normalise path = [] ∨ (normalise path).length > FileServer.maxPath then (none, p)
      else (some (normalise path).length, { p with page := some (page.withPath (normalise path))
          }) := by
  rw [putPath]
  split
  · rfl
  · next h =>
    have hfits : ¬ (normalise path).length > pageSize := by
      rw [not_or] at h
      have hmax : FileServer.maxPath ≤ pageSize := by decide
      omega
    rw [hpage]
    dsimp only
    rw [if_neg hfits]
    rfl

/-- The server finds the path in the page. -/
theorem path_withPath (page : Page) {name : List UInt8}
    (h : ¬ (name = [] ∨ name.length > FileServer.maxPath)) :
    FileServer.path (page.withPath name).bytes name.length = fromUtf8 name := by
  rw [not_or, Nat.not_lt] at h
  have hfits : name.length ≤ pageSize := h.2.trans (by decide)
  have hlen := (page.withPath name).length
  rw [FileServer.path, if_neg, Page.withPath, Page.filled_write hfits, List.take_left]
  rw [hlen]
  have hne := List.length_pos_iff.mpr h.1
  omega

/-- **What the server says about a path.** -/
theorem serve_statOf (page : Page) {name : List UInt8} (archive : Slice) (t : FileServer.Table)
    (h : ¬ (name = [] ∨ name.length > FileServer.maxPath)) :
    let a := FileServer.serve archive t
      ⟨⟨FileServer.tagStat, Message.three (.ofNat 64 name.length) 0 0, page.cap⟩,
        some (page.withPath name).bytes⟩
    a.table = t ∧ a.buffer = some (page.withPath name).bytes ∧
      a.reply = match fileAt archive name with
        | some e =>
          FileServer.reply FileServer.tagStat (.ofNat 64 e.data.len) (e.mode.setWidth 64) 0
        | none => FileServer.refusal
            (if (fromUtf8 name).isSome then FileServer.errNoFile else FileServer.errMalformed) := by
  have hpath := path_withPath page h
  have hlen : (BitVec.ofNat 64 name.length).toNat = name.length := by
    rw [BitVec.toNat_ofNat, Nat.mod_eq_of_lt]
    rw [not_or, Nat.not_lt, FileServer.maxPath] at h
    omega
  have hmap : Request.map ⟨⟨FileServer.tagStat, Message.three (.ofNat 64 name.length) 0 0,
      page.cap⟩, some (page.withPath name).bytes⟩ = some (page.withPath name).bytes :=
    if_neg page.cap_ne
  have hlookup := FileServer.lookup.eq_1 archive
    ⟨⟨FileServer.tagStat, Message.three (.ofNat 64 name.length) 0 0, page.cap⟩,
      some (page.withPath name).bytes⟩
  rw [hmap] at hlookup
  dsimp only at hlookup
  rw [show (Message.three (.ofNat 64 name.length) 0 0).get 0 = .ofNat 64 name.length from rfl,
    hlen, hpath] at hlookup
  rw [FileServer.serve_stat _ rfl, hlookup, fileAt, if_neg h]
  cases fromUtf8 name with
  | none => exact ⟨rfl, rfl, rfl⟩
  | some text =>
    dsimp only
    rw [Option.bind_some]
    cases FileServer.find archive text with
    | none => exact ⟨rfl, rfl, rfl⟩
    | some e => exact ⟨rfl, rfl, rfl⟩

/-- **What a request about a path is answered.** -/
theorem request_statOf (hpage : p.page.isSome = true) (hgood : p.link.Good)
    (hname : ¬ (normalise path = [] ∨ (normalise path).length > FileServer.maxPath)) :
    ∃ q p' reply, putPath path p = (some (normalise path).length, q) ∧
      request FileServer.tagStat (.ofNat 64 (normalise path).length) 0 0 true q =
        (some reply, p') ∧
      reply = (match fileAt p.link.server.archive (normalise path) with
        | some e =>
          FileServer.reply FileServer.tagStat (.ofNat 64 e.data.len) (e.mode.setWidth 64) 0
        | none => FileServer.refusal (if (fromUtf8 (normalise path)).isSome then
            FileServer.errNoFile else FileServer.errMalformed)) ∧
      p'.page.isSome = true ∧ p'.members = p.members ∧
      (IsText (normalise path) → p'.link = p.link.next) := by
  obtain ⟨page, hpage⟩ := Option.isSome_iff_exists.mp hpage
  have hput := putPath_eq hpage path
  rw [if_neg hname] at hput
  let q : Process := { p with page := some (page.withPath (normalise path)) }
  have hreq := request_page (p := q) rfl FileServer.tagStat (.ofNat 64 (normalise path).length) 0 0
    true
  have hmembers := members_request FileServer.tagStat (.ofNat 64 (normalise path).length) 0 0 true q
  have hcap : (if true then (page.withPath (normalise path)).cap else .null) = page.cap :=
    Page.cap_filled ..
  rw [hcap] at hreq
  dsimp only at hreq
  have hbye : FileServer.tagStat ≠ FileServer.tagBye := by decide
  have hfst := Link.fst_request_of_good (l := q.link)
    ⟨FileServer.tagStat, #v[.ofNat 64 (normalise path).length, 0, 0, 0], page.cap⟩
    (page.withPath (normalise path)).bytes hgood hbye
  obtain ⟨htable, hbuffer, hreply⟩ :=
    serve_statOf page p.link.server.archive p.link.before.table hname
  rw [hreply] at hfst
  have hreq' := hreq
  rw [hfst] at hreq'
  refine ⟨q, _, _, hput, hreq', rfl, rfl, ?_, fun htext => ?_⟩
  · rw [hreq'] at hmembers
    exact hmembers
  · rw [Link.request_of_good hgood hbye (by rw [Link.archive_before]) htable ?_]
    rw [hreply]
    rintro ⟨htag, hcode⟩
    cases hfile : fileAt p.link.server.archive (normalise path) with
    | some e =>
      rw [hfile] at htag
      exact (by decide : FileServer.tagStat ≠ FileServer.tagError) htag
    | none =>
      obtain ⟨name, hname⟩ := isText_iff.mp htext
      rw [hfile, fromUtf8_eq_some.mpr hname] at hcode
      exact (by decide : FileServer.errNoFile ≠ FileServer.errMalformed) hcode

/-- **Asking about a file**, where the request is answered. -/
theorem statOfPath_spec (hpage : p.page.isSome = true) (hgood : p.link.Good) (path : List UInt8) :
    ∃ p', statOfPath path p = ((fileAt p.link.server.archive (normalise path)).map fun e =>
        (.ofNat 64 e.data.len, e.mode), p') ∧
      p'.page.isSome = true ∧ p'.members = p.members ∧
      (IsText (normalise path) → p'.link = p.link ∨ p'.link = p.link.next) := by
  by_cases hbad : normalise path = [] ∨ (normalise path).length > FileServer.maxPath
  · obtain ⟨page, hpage'⟩ := Option.isSome_iff_exists.mp hpage
    have hput := putPath_eq hpage' path
    rw [if_pos hbad] at hput
    refine ⟨p, ?_, hpage, rfl, fun _ => .inl rfl⟩
    rw [statOfPath, Fd.bind_of_eq hput, fileAt, if_pos hbad]
    rfl
  · obtain ⟨q, p', reply, hput, hreq, hreply, hpage', hmembers, hlink⟩ :=
      request_statOf hpage hgood hbad
    refine ⟨p', ?_, hpage', hmembers, fun htext => .inr (hlink htext)⟩
    rw [statOfPath, Fd.bind_of_eq hput]
    dsimp only
    rw [Fd.bind_of_eq hreq, hreply]
    dsimp only
    cases fileAt p.link.server.archive (normalise path) with
    | none => rfl
    | some e =>
      have hmode : (e.mode.setWidth 64).setWidth 32 = e.mode := by simp
      rw [Option.map_some]
      refine Prod.ext (congrArg some (Prod.ext rfl ?_)) rfl
      exact hmode

/-! ### Directories -/

/-- A path that names a directory, among the members that are listed. -/
def Found (es : List Cpio.Entry) (path : List UInt8) : Prop :=
  trimSlashes path = [] ∨ trimSlashes path = [46] ∨ ∃ e ∈ es, Lies (trimSlashes path) e

instance (es : List Cpio.Entry) (path : List UInt8) : Decidable (Found es path) :=
  inferInstanceAs (Decidable (_ ∨ _ ∨ _))

theorem isText_of_found {es : List Cpio.Entry} (h : Found es path) :
    IsText (normalise path) := by
  refine isText_normalise ?_
  obtain h | h | ⟨e, -, hlies⟩ := h
  · rw [h]
    exact ⟨[], rfl⟩
  · rw [h]
    exact isText_of_ascii fun b hb => List.mem_singleton.mp hb ▸ (by decide : (46 : UInt8) < 128)
  · exact isText_of_lies hlies

theorem length_of_found {es : List Cpio.Entry} (h : Found es path) :
    (trimSlashes path).length ≤ FileServer.maxPath := by
  obtain h | h | ⟨e, -, hlies⟩ := h
  · rw [h]
    exact Nat.zero_le _
  · rw [h]
    decide
  · have hlt : (trimSlashes path).length < (trimSlashes (nameOf e)).length := hlies.1
    exact (hlt.le.trans (length_trimSlashes_le _)).trans (List.length_take_le ..)

theorem directoryExists_iff (path : List UInt8) (p : Process) :
    (directoryExists path p).1 = true ↔ Found (p.shown 0) path := by
  rw [directoryExists, Found, ← or_assoc]
  by_cases hroot : trimSlashes path = [] ∨ trimSlashes path = [46]
  · rw [if_pos hroot]
    exact iff_of_true rfl (.inl hroot)
  · rw [if_neg hroot, or_iff_right hroot]
    exact (existsLoop_spec (trimSlashes path) 0 p).1

/-- All members are shown to a process whose requests are answered. -/
theorem shown_of_good (hpage : p.page.isSome = true) (h : p.link.GoodFor p.members.length) :
    p.shown 0 = p.members := by
  rw [Process.shown, if_pos hpage]
  exact h.shown

/-- **What a path leads to**: a file, or else a directory. -/
theorem stat_spec (hpage : p.page.isSome = true) (hgood : p.link.GoodFor (p.members.length + 1))
    (path : List UInt8) : (stat path p).1 =
      match fileAt p.link.server.archive (normalise path) with
      | some e => .ok (fill (.ofNat 64 e.data.len) e.mode)
      | none => if Found p.members path then .ok (fill 0 (sIfdir ||| 0o755)) else .error
          enoent := by
  obtain ⟨p', hstat, hpage', hmembers, hlink⟩ := statOfPath_spec hpage hgood.1 path
  rw [stat, Fd.bind_of_eq hstat]
  cases fileAt p.link.server.archive (normalise path) with
  | some e => rfl
  | none =>
    have hiff : (directoryExists path p').1 = true ↔ Found p.members path := by
      rw [directoryExists_iff]
      by_cases htext : IsText (normalise path)
      · have hgood' : p'.link.GoodFor p'.members.length := by
          rw [hmembers]
          obtain h | h := hlink htext
          · rw [h]
            exact hgood.mono (Nat.le_succ _)
          · rw [h]
            exact hgood.2
        rw [shown_of_good hpage' hgood', hmembers]
      · exact iff_of_false (fun h => htext (isText_of_found h)) fun h => htext (isText_of_found h)
    obtain ⟨found, p₁, hfound⟩ : ∃ found p₁, directoryExists path p' = (found, p₁) := ⟨_, _, rfl⟩
    rw [hfound] at hiff
    rw [Option.map_none]
    dsimp only
    rw [Fd.bind_of_eq hfound]
    cases found with
    | true => rw [if_pos (hiff.mp rfl)]; rfl
    | false => rw [if_neg fun h => Bool.false_ne_true (hiff.mpr h)]; rfl

/-! ### Two spellings -/

/-- No call tells the two spellings apart. -/
structure SameAnswers (p : Process) (path path' : List UInt8) : Prop where
  openFile : (openFile path p).1 = (openFile path' p).1
  stat : (stat path p).1 = (stat path' p).1
  access : (access path p).1 = (access path' p).1
  opendir : ∀ room, (opendir path room p).1 = (opendir path' room p).1
  directoryExists : (directoryExists path p).1 = (directoryExists path' p).1

theorem putPath_congr (h : normalise path = normalise path') : putPath path = putPath path' := by
  funext p
  rw [putPath, putPath, h]

theorem openFile_congr (h : normalise path = normalise path') : openFile path = openFile path' := by
  rw [openFile, openFile, putPath_congr h]

theorem access_congr (h : normalise path = normalise path') : access path = access path' := by
  rw [access, access, pathExists, pathExists, putPath_congr h]

theorem statOfPath_congr (h : normalise path = normalise path') :
    statOfPath path = statOfPath path' := by
  rw [statOfPath, statOfPath, putPath_congr h]

theorem directoryExists_congr (h : trimSlashes path = trimSlashes path') :
    directoryExists path = directoryExists path' := by
  funext p
  rw [directoryExists, directoryExists, h]

/-- **Two spellings that come to the same in both ways** are one path to every call, whatever the
server does. -/
theorem SameAnswers.of_trimSlashes (hnorm : normalise path = normalise path')
    (htrim : trimSlashes path = trimSlashes path') (p : Process) : SameAnswers p path path' := by
  refine ⟨?_, ?_, ?_, fun room => ?_, ?_⟩
  · rw [openFile_congr hnorm]
  · rw [Files.stat, Files.stat, statOfPath_congr hnorm, directoryExists_congr htrim]
  · rw [access_congr hnorm]
  · rw [Directory.opendir, Directory.opendir, htrim, directoryExists_congr htrim]
  · rw [directoryExists_congr htrim]

theorem opendir_of_not_found {room : Bool} (h : (directoryExists path p).1 = false) :
    (opendir path room p).1 = .error enoent := by
  obtain ⟨found, p₁, hfound⟩ : ∃ found p₁, directoryExists path p = (found, p₁) := ⟨_, _, rfl⟩
  rw [hfound] at h
  obtain rfl : found = false := h
  rw [Directory.opendir]
  split
  · rfl
  · rw [Fd.bind_of_eq hfound]
    rfl

theorem opendir_of_found (h : (directoryExists path p).1 = true)
    (hlen : (trimSlashes path).length ≤ FileServer.maxPath) :
    ∃ d, (opendir path true p).1 = .ok d ∧ d.pre = trimSlashes path := by
  obtain ⟨-, hno⟩ | ⟨-, -, -, hopen⟩ := Directory.opendir_cases path true p
  · exact absurd ⟨hlen, h, rfl⟩ hno
  · rw [hopen]
    exact ⟨_, rfl, rfl⟩

/-- **When two spellings are one path.** -/
theorem sameAnswers_iff (hpage : p.page.isSome = true)
    (hgood : p.link.GoodFor (p.members.length + 1)) (hnorm : normalise path = normalise path') :
    SameAnswers p path path' ↔ trimSlashes path = trimSlashes path' ∨
      ¬ Found p.members path ∧ ¬ Found p.members path' := by
  have hshown := shown_of_good hpage (hgood.mono (Nat.le_succ _))
  have hfound := fun path => directoryExists_iff path p
  simp only [hshown] at hfound
  constructor
  · intro h
    refine or_iff_not_imp_right.mpr fun hsome => ?_
    -- both are found, and opened
    have hboth : Found p.members path ∧ Found p.members path' := by
      have hiff : Found p.members path ↔ Found p.members path' := by
        rw [← hfound, ← hfound, h.directoryExists]
      by_contra hno
      exact hsome ⟨fun h => hno ⟨h, hiff.mp h⟩, fun h => hno ⟨hiff.mpr h, h⟩⟩
    obtain ⟨d, hd, hpre⟩ :=
      opendir_of_found ((hfound _).mpr hboth.1) (length_of_found hboth.1)
    obtain ⟨d', hd', hpre'⟩ :=
      opendir_of_found ((hfound _).mpr hboth.2) (length_of_found hboth.2)
    have heq := h.opendir true
    rw [hd, hd'] at heq
    rw [← hpre, ← hpre', Except.ok.inj heq]
  · rintro (htrim | ⟨hno, hno'⟩)
    · exact .of_trimSlashes hnorm htrim p
    · have hfalse : (directoryExists path p).1 = false := by
        rw [← Bool.not_eq_true, hfound]
        exact hno
      have hfalse' : (directoryExists path' p).1 = false := by
        rw [← Bool.not_eq_true, hfound]
        exact hno'
      refine ⟨by rw [openFile_congr hnorm], ?_, by rw [access_congr hnorm], fun room => ?_, ?_⟩
      · rw [stat_spec hpage hgood, stat_spec hpage hgood, hnorm, if_neg hno, if_neg hno']
      · rw [opendir_of_not_found hfalse, opendir_of_not_found hfalse']
      · rw [hfalse, hfalse']

/-! ### Names that were listed -/

/-- Looking a path up finds a directory, or a regular file. -/
def LooksUp (p : Process) (path : List UInt8) (kind : Bool) : Prop :=
  ∃ st, (stat path p).1 = .ok st ∧ st.mode &&& sIfmt = if kind then sIfdir else sIfreg

/-- What an archive has at a path: a regular file stored under exactly that name, or a directory and
no such file. -/
def Has (archive : Slice) (path : List UInt8) (kind : Bool) : Prop :=
  if kind then fileAt archive (normalise path) = none ∧ Found (Cpio.members archive) path
  else (fileAt archive (normalise path)).isSome = true

/-- The mode of a file says so. -/
theorem mode_fill_file {archive : Slice} {name : List UInt8} {e : Cpio.Entry}
    (h : fileAt archive name = some e) (size : BitVec 64) :
    (fill size e.mode).mode &&& sIfmt = sIfreg := by
  have hfile : e.mode &&& sIfmt = sIfreg := by
    rw [fileAt] at h
    split at h
    · cases h
    · obtain ⟨text, -, hfind⟩ := Option.bind_eq_some_iff.mp h
      exact of_decide_eq_true (Option.filter_eq_some_iff.mp hfind).2
  have hne : ¬ e.mode &&& sIfmt = 0 := by
    rw [hfile]
    decide
  rw [fill]
  dsimp only
  rw [if_neg hne, hfile]

theorem looksUp_iff (hpage : p.page.isSome = true)
    (hgood : p.link.GoodFor (p.members.length + 1)) (path : List UInt8) (kind : Bool) :
    LooksUp p path kind ↔ Has p.link.server.archive path kind := by
  have hstat := stat_spec hpage hgood path
  have hdir : ∀ size, (fill size (sIfdir ||| 0o755)).mode &&& sIfmt = sIfdir := by
    have hmode : (if (sIfdir ||| 0o755) &&& sIfmt = 0 then sIfreg ||| 0o644 else sIfdir ||| 0o755)
        &&& sIfmt = sIfdir := by decide
    exact fun size => hmode
  have hne : sIfdir ≠ sIfreg := by decide
  rw [LooksUp, hstat, Has]
  cases hfile : fileAt p.link.server.archive (normalise path) with
  | some e =>
    have hmode := mode_fill_file hfile (.ofNat 64 e.data.len)
    cases kind with
    | true =>
      refine iff_of_false ?_ fun h => Option.some_ne_none _ h.1
      rintro ⟨st, hst, hkind⟩
      rw [← Except.ok.inj hst, hmode] at hkind
      exact hne hkind.symm
    | false => exact iff_of_true ⟨_, rfl, hmode⟩ rfl
  | none =>
    by_cases hfound : Found p.members path
    · rw [if_pos hfound]
      cases kind with
      | true => exact iff_of_true ⟨_, rfl, hdir 0⟩ ⟨rfl, hfound⟩
      | false =>
        refine iff_of_false ?_ Bool.false_ne_true
        rintro ⟨st, hst, hkind⟩
        rw [← Except.ok.inj hst, hdir] at hkind
        exact hne hkind
    · rw [if_neg hfound]
      refine iff_of_false ?_ ?_
      · rintro ⟨st, hst, -⟩
        cases hst
      · cases kind with
        | true => exact fun h => hfound h.2
        | false => exact Bool.false_ne_true

/-- Looking up a name that was listed, at any later time. -/
def LooksUpLater (p : Process) (path : List UInt8) (item : List UInt8 × Bool) : Prop :=
  ∀ q : Process, q.link.server.archive = p.link.server.archive → q.page.isSome = true →
    q.link.GoodFor (q.members.length + 1) → LooksUp q (path ++ slash :: item.1) item.2

/-- **What a directory lists** when all requests are answered. -/
theorem says_readAll {d : Directory.Dir} (hpage : p.page.isSome = true)
    (hgood : p.link.GoodFor (2 * p.members.length + 1))
    (hopen : opendir path true p = (.ok d, p')) :
    (readAll d p').1.map Directory.Dirent.told =
      (reported (trimSlashes path) [] p.members).map fun item =>
        (Directory.cString item.1, item.2) := by
  obtain ⟨⟨e, herror⟩, -⟩ | ⟨-, hfound, -, hopen'⟩ := Directory.opendir_cases path true p
  · rw [hopen] at herror
    cases herror
  rw [hopen] at hopen'
  cases hopen'
  rw [Directory.readAll_spec]
  have hall : p.shown 0 = p.members := shown_of_good hpage (hgood.mono (by omega))
  have hshown : (directoryExists path p).2.shown 0 = p.members := by
    rw [directoryExists] at hfound ⊢
    by_cases hroot : trimSlashes path = [] ∨ trimSlashes path = [46]
    · rw [if_pos hroot]
      exact hall
    · rw [if_neg hroot] at hfound ⊢
      obtain ⟨hiff, hmembers, hafter⟩ := existsLoop_spec (trimSlashes path) 0 p
      obtain ⟨hpage', hlink⟩ := hafter hfound
      obtain ⟨e, he, hlies⟩ := hiff.mp hfound
      rw [hall] at he
      have hasked : asked (trimSlashes path) p.members ≤ p.members.length := by
        rw [asked, Nat.add_one_le_iff, List.findIdx_lt_length]
        exact ⟨e, he, decide_eq_true hlies⟩
      rw [shown_of_good hpage', hmembers]
      rw [hmembers, hlink]
      refine Link.GoodFor.iterate (hgood.mono ?_)
      have hdrop : p.members.drop (0 : BitVec 64).toNat = p.members := rfl
      rw [hdrop]
      omega
  rw [hshown]

/-- **Spellings of one path.** Two spellings that differ in the `/` and `./` in front of them are
one path to every call if they also come to the same without `./` and then slashes in front and
slashes behind; and where the server answers, only then, or if neither is a directory's. What a
directory lists is found again under its name behind the directory's, just if the archive has it
there. -/
theorem spellings_agree (p : Process) (hpage : p.page.isSome = true)
    (hgood : p.link.GoodFor (2 * p.members.length + 1)) :
    (∀ q path path', normalise path = normalise path' → trimSlashes path = trimSlashes path' →
      SameAnswers q path path') ∧
    (∀ path path', normalise path = normalise path' → (SameAnswers p path path' ↔
      trimSlashes path = trimSlashes path' ∨
        ¬ Found p.members path ∧ ¬ Found p.members path')) ∧
    ∀ path d p', opendir path true p = (.ok d, p') →
      ((∀ entry ∈ (readAll d p').1, LooksUpLater p path entry.told) ↔
        ∀ item ∈ reported (trimSlashes path) [] p.members,
          Has p.link.server.archive (path ++ slash :: Directory.cString item.1) item.2) := by
  have hgood' : p.link.GoodFor (p.members.length + 1) := hgood.mono (by omega)
  refine ⟨fun q path path' hnorm htrim => .of_trimSlashes hnorm htrim q,
    fun path path' hnorm => sameAnswers_iff hpage hgood' hnorm, fun path d p' hopen => ?_⟩
  have hsays := says_readAll hpage hgood hopen
  have hall : (∀ entry ∈ (readAll d p').1, LooksUpLater p path entry.told) ↔
      ∀ item ∈ (readAll d p').1.map Directory.Dirent.told, LooksUpLater p path item := by
    rw [List.forall_mem_map]
  rw [hall, hsays, List.forall_mem_map]
  refine forall₂_congr fun item _ => ?_
  constructor
  · intro h
    exact (looksUp_iff hpage hgood' _ _).mp (h p rfl hpage hgood')
  · intro h q harchive hq hgoodq
    rw [looksUp_iff hq hgoodq, harchive]
    exact h

/-- A file in a directory. -/
def archiveInDirectory : Slice :=
  ⟨Cpio.pushEntry [] ⟨"d/a", 0o100644, ⟨[], Slice.nil_fits⟩⟩, by decide +kernel⟩

set_option maxRecDepth 20000 in
theorem spellings_agree_once :
    SameAnswers (Directory.processOn archiveInDirectory) [47, 46, 47, 97] [97] := by
  have hpage : (Directory.processOn archiveInDirectory).page.isSome = true := rfl
  have hgood : (Directory.processOn archiveInDirectory).link.GoodFor
      (2 * (Directory.processOn archiveInDirectory).members.length + 1) := by decide +kernel
  refine ((spellings_agree _ hpage hgood).2.1 [47, 46, 47, 97] [97] (by decide)).mpr (.inr ?_)
  decide +kernel

set_option maxRecDepth 20000 in
/-- The directory `d` is there, and `/./d` is not. -/
theorem spellings_differ : ∃ p : Process, p.page.isSome = true ∧
    p.link.GoodFor (2 * p.members.length + 1) ∧
    normalise [47, 46, 47, 100] = normalise [100] ∧
    (directoryExists [47, 46, 47, 100] p).1 ≠ (directoryExists [100] p).1 :=
  ⟨Directory.processOn archiveInDirectory, rfl, by decide +kernel, by decide, by decide +kernel⟩

end Files

end StarOS
