import Mathlib.Data.List.DropRight
import StarOS.Lib.Firsts
import StarOS.Libc.FileRead

/-!
# Directories, over a flat archive

The archive stores paths. A directory is a prefix that some member uses, so `opendir` succeeds just
if something lies under it, and `readdir` is a filter over the members: it keeps the ones under the
prefix and reports the first component of what remains, a subdirectory once however many members
are beneath it.

The server may not answer a request. To this code the archive then ends.

## Main definitions

* `Files.trimSlashes`, `Files.list`, `Files.directoryExists`, `Files.stat`, `Files.access`
* `Directory.componentUnder`, `Directory.opendir`, `Directory.readdir`
* `Directory.readAll` — reading to the end
* `Files.Process.shown` — the members the server tells of before a request is not answered

## Main results

* `Files.list_spec`, `Files.existsLoop_spec`, `Directory.readdir_spec`
-/

namespace StarOS

namespace Files

open FileServer (Request Server)

/-- The byte between the components of a path. -/
def slash : UInt8 := 47

/-- Drop leading `./`. -/
def dropDotSlash : List UInt8 → List UInt8
  | 46 :: 47 :: path => dropDotSlash path
  | path => path

/-- Drop leading `./` and any leading or trailing `/`. -/
def trimSlashes (path : List UInt8) : List UInt8 :=
  ((dropDotSlash path).dropWhile (· = slash)).rdropWhile (· = slash)

/-- The entries of the archive. -/
def Process.members (p : Process) : List Cpio.Entry := Cpio.members p.link.server.archive

/-- One member of the archive by its index: its name, size and mode. -/
def list (index : BitVec 64) : StateM Process (Option (List UInt8 × BitVec 64 × BitVec 32)) := do
  match ← request FileServer.tagList index 0 0 true with
  | none => return none
  | some reply =>
    if reply.tag = FileServer.tagError then return none
    let len := min (reply.words.get 0).toNat FileServer.maxPath
    fun p => (some ((p.page.elim [] Page.bytes).take len, reply.words.get 1,
      (reply.words.get 2).setWidth 32), p)

/-- A member under a directory, and not the directory itself. -/
def Under (path entry : List UInt8) : Prop :=
  path.length < entry.length ∧ path <+: entry ∧ entry[path.length]? = some slash

instance (path entry : List UInt8) : Decidable (Under path entry) :=
  inferInstanceAs (Decidable (_ ∧ _ ∧ _))

variable {p p' : Process} {l : Link}

theorem Link.archive_before (l : Link) : l.before.archive = l.server.archive := by
  rw [Link.before]
  generalize (l.turns 0).others = others
  generalize l.server = s
  induction others generalizing s with
  | nil => rfl
  | cons r others ih => exact (ih _).trans (Server.archive_turn ..)

/-- Whatever is asked, the archive stays what it is. -/
theorem Link.archive_request (l : Link) (msg : Message) (page : List UInt8) :
    (l.request msg page).2.2.server.archive = l.server.archive := by
  have hturn := Server.archive_turn l.before ⟨msg, if (l.turns 0).maps then some page else none⟩
    (l.turns 0).replies
  rw [Link.request]
  split
  · split
    · next hr =>
      rw [hr] at hturn
      exact hturn.trans l.archive_before
    · next hr =>
      rw [hr] at hturn
      exact hturn.trans l.archive_before
  · exact l.archive_before

theorem members_request (tag a b c : BitVec 64) (withBuffer : Bool) (p : Process) :
    (request tag a b c withBuffer p).2.members = p.members := by
  rw [request]
  split
  · rfl
  · exact congrArg Cpio.members (Link.archive_request ..)

/-- The next request is answered. -/
structure Link.Good (l : Link) : Prop where
  arrives : (l.turns 0).arrives = true
  maps : (l.turns 0).maps = true
  replies : (l.turns 0).replies = true
  hears : (l.turns 0).hears = true
  serving : l.before.serving = true

instance (l : Link) : Decidable l.Good :=
  decidable_of_iff ((l.turns 0).arrives = true ∧ (l.turns 0).maps = true ∧
      (l.turns 0).replies = true ∧ (l.turns 0).hears = true ∧ l.before.serving = true)
    ⟨fun h => ⟨h.1, h.2.1, h.2.2.1, h.2.2.2.1, h.2.2.2.2⟩,
      fun h => ⟨h.arrives, h.maps, h.replies, h.hears, h.serving⟩⟩

/-- **A request that is answered**, where the answer changes nothing on the server's side. -/
theorem Link.request_of_good {msg : Message} {page : List UInt8} {a : FileServer.Answer}
    (h : l.Good) (hbye : msg.tag ≠ FileServer.tagBye)
    (hserve : FileServer.serve l.before.archive l.before.table ⟨msg, some page⟩ = a)
    (htable : a.table = l.before.table)
    (hok : ¬ (a.reply.tag = FileServer.tagError ∧ a.reply.words.get 0 = FileServer.errMalformed)) :
    l.request msg page = (some a.reply, a.buffer.getD page, l.next) := by
  have hserving : (!l.before.serving) = false := by rw [h.serving]; rfl
  simp only [Link.request, h.arrives, h.maps, if_true, Server.turn, hserving, Bool.false_eq_true,
    if_false, hbye, hserve, h.replies, h.hears, htable, hok]
  rfl

/-- A reply comes if the messages do. -/
theorem Link.hears_of_request {msg : Message} {page : List UInt8} {reply : Message}
    (h : (l.request msg page).1 = some reply) :
    (l.turns 0).arrives = true ∧ (l.turns 0).replies = true ∧ (l.turns 0).hears = true := by
  rw [Link.request] at h
  split at h
  · next harrives =>
    split at h
    · split at h
      · next hboth =>
        rw [Bool.and_eq_true] at hboth
        exact ⟨harrives, hboth⟩
      · cases h
    · cases h
  · cases h

/-- A member that is listed is there, and the request for it was answered. -/
theorem list_eq_some {index : BitVec 64} {r : List UInt8 × BitVec 64 × BitVec 32}
    (h : list index p = (some r, p')) :
    p.page.isSome = true ∧ p.link.Good ∧ index.toNat < p.members.length ∧
      p'.members = p.members := by
  have hmembers := members_request FileServer.tagList index 0 0 true p
  rw [list] at h
  cases hpage : p.page with
  | none =>
    have hreq : request FileServer.tagList index 0 0 true p = (none, p) := by
      rw [request, hpage]
    rw [Fd.bind_of_eq hreq] at h
    cases h
  | some page =>
    have hreq := request_page hpage FileServer.tagList index 0 0 true
    rw [hreq] at hmembers
    dsimp only at hreq hmembers
    cases hanswer : (p.link.request ⟨FileServer.tagList, #v[index, 0, 0, 0],
        if true then page.cap else .null⟩ page.bytes).1 with
    | none =>
      rw [hanswer] at hreq
      rw [Fd.bind_of_eq hreq] at h
      cases h
    | some reply =>
      rw [hanswer] at hreq
      rw [Fd.bind_of_eq hreq] at h
      dsimp only at h
      split at h
      · cases h
      · next htag =>
        cases h
        obtain ⟨hserving, hreply, -⟩ := Link.request_eq_some hanswer
        obtain ⟨harrives, hreplies, hhears⟩ := Link.hears_of_request hanswer
        rw [FileServer.serve_list _ rfl] at hreply
        split at hreply
        · rw [hreply] at htag
          exact absurd rfl htag
        next buffer hmap =>
        split at hreply
        · rw [hreply] at htag
          exact absurd rfl htag
        next e he =>
        refine ⟨rfl, ⟨harrives, ?_, hreplies, hhears, hserving⟩, ?_, hmembers⟩
        · by_contra hno
          rw [Request.map, Link.arrived, if_neg hno, ite_self] at hmap
          cases hmap
        · rw [Link.archive_before] at he
          exact (List.getElem?_eq_some_iff.mp he).1

/-- A member that is there is listed, if the request is answered. -/
theorem list_of_good {index : BitVec 64} {e : Cpio.Entry} (hpage : p.page.isSome = true)
    (hgood : p.link.Good) (he : p.members[index.toNat]? = some e) :
    ∃ page, list index p = (some ((utf8 e.name).take FileServer.maxPath, .ofNat 64 e.data.len,
      e.mode), ⟨p.fds, some page, p.link.next⟩) := by
  obtain ⟨page, hpage⟩ := Option.isSome_iff_exists.mp hpage
  have hlen : ((utf8 e.name).take (min (min (utf8 e.name).length FileServer.maxPath)
      pageSize)) = (utf8 e.name).take FileServer.maxPath := by
    have hmax : FileServer.maxPath ≤ pageSize := by decide
    rw [List.take_eq_take_iff]
    omega
  have hserve : FileServer.serve p.link.before.archive p.link.before.table
      ⟨⟨FileServer.tagList, Message.three index 0 0, page.cap⟩, some page.bytes⟩ =
      ⟨FileServer.reply FileServer.tagList
          (.ofNat 64 (min (min (utf8 e.name).length FileServer.maxPath) pageSize))
          (.ofNat 64 e.data.len) (e.mode.setWidth 64), p.link.before.table,
        some (FileServer.write page.bytes ((utf8 e.name).take FileServer.maxPath))⟩ := by
    have he' : (Cpio.members p.link.before.archive)[index.toNat]? = some e := by
      rw [Link.archive_before]
      exact he
    rw [FileServer.serve_list _ rfl]
    rw [show (Request.map ⟨⟨FileServer.tagList, Message.three index 0 0, page.cap⟩,
      some page.bytes⟩) = some page.bytes from if_neg page.cap_ne]
    dsimp only
    rw [show (Message.three index 0 0).get 0 = index from rfl, he']
    dsimp only
    rw [page.length, hlen]
  have hbye : FileServer.tagList ≠ FileServer.tagBye := by decide
  have herror : ∀ a b c, (FileServer.reply FileServer.tagList a b c).tag ≠ FileServer.tagError :=
    fun _ _ _ => (by decide : FileServer.tagList ≠ FileServer.tagError)
  have hanswer := Link.request_of_good hgood hbye hserve rfl fun h => herror _ _ _ h.1
  have hreq := request_page hpage FileServer.tagList index 0 0 true
  rw [if_pos rfl, hanswer] at hreq
  have hfits : ((utf8 e.name).take FileServer.maxPath).length ≤ pageSize :=
    Nat.le_trans (List.length_take_le ..) (by decide)
  refine ⟨page.filled (FileServer.write page.bytes ((utf8 e.name).take FileServer.maxPath)), ?_⟩
  rw [list, Fd.bind_of_eq hreq]
  dsimp only
  rw [if_neg (herror _ _ _)]
  refine Prod.ext (congrArg some (Prod.ext ?_ (Prod.ext rfl ?_))) rfl
  · show List.take (min (BitVec.ofNat 64 _).toNat FileServer.maxPath)
      (page.filled (FileServer.write page.bytes ((utf8 e.name).take FileServer.maxPath))).bytes = _
    rw [Page.filled_write hfits, BitVec.toNat_ofNat, Nat.mod_eq_of_lt,
      List.take_append_of_le_length]
    · rw [List.take_take, List.take_eq_take_iff, pageSize, FileServer.maxPath]
      omega
    · rw [List.length_take, pageSize, FileServer.maxPath]
      omega
    · rw [pageSize, FileServer.maxPath]
      omega
  · have hmode : (e.mode.setWidth 64).setWidth 32 = e.mode := by simp
    exact hmode

/-- How many members are behind an index. -/
def Process.left (p : Process) (index : BitVec 64) : ℕ := p.members.length - index.toNat

/-- The index of the member behind one that is listed. -/
theorem toNat_succ_of_list {index : BitVec 64} {r : List UInt8 × BitVec 64 × BitVec 32}
    (h : list index p = (some r, p')) : (index + 1).toNat = index.toNat + 1 := by
  have hlt := (list_eq_some h).2.2.1
  have hmax := Cpio.length_members_lt p.link.server.archive
  rw [Process.members] at hlt
  rw [BitVec.toNat_add, Nat.mod_eq_of_lt]
  · rfl
  · show index.toNat + 1 < _
    omega

theorem left_of_list {index : BitVec 64} {r : List UInt8 × BitVec 64 × BitVec 32}
    (h : list index p = (some r, p')) : p'.left (index + 1) < p.left index := by
  obtain ⟨-, -, hlt, hmembers⟩ := list_eq_some h
  rw [Process.left, Process.left, hmembers, toNat_succ_of_list h]
  omega

/-- Whether a member from an index on lies under a path. -/
def existsLoop (path : List UInt8) (index : BitVec 64) (p : Process) : Bool × Process :=
  match _h : list index p with
  | (none, p) => (false, p)
  | (some (name, _, _), p) =>
    if Under path (trimSlashes name) then (true, p) else existsLoop path (index + 1) p
termination_by p.left index
decreasing_by exact left_of_list _h

/-- Whether a directory exists. The root does, even in an empty archive. -/
def directoryExists (path : List UInt8) : StateM Process Bool := fun p =>
  let path := trimSlashes path
  if path = [] ∨ path = [46] then (true, p) else existsLoop path 0 p

/-- The size and mode of a file. -/
def statOfPath (path : List UInt8) : StateM Process (Option (BitVec 64 × BitVec 32)) := do
  match ← putPath path with
  | none => return none
  | some len =>
    match ← request FileServer.tagStat (.ofNat 64 len) 0 0 true with
    | none => return none
    | some reply =>
      if reply.tag ≠ FileServer.tagError then
        return some (reply.words.get 0, (reply.words.get 1).setWidth 32)
      else return none

/-- Whether a path exists. -/
def pathExists (path : List UInt8) : StateM Process Bool := do
  match ← putPath path with
  | none => return false
  | some len =>
    match ← request FileServer.tagStat (.ofNat 64 len) 0 0 true with
    | none => return false
    | some reply =>
      return reply.tag ≠ FileServer.tagError ∨ reply.words.get 0 ≠ FileServer.errNoFile

/-- Check whether a path exists. Modes are ignored. -/
def access (path : List UInt8) : StateM Process ℤ := do
  return if ← pathExists path then 0 else -1

/-- The type in the mode of a file. -/
def sIfmt : BitVec 32 := 0o170000
def sIfreg : BitVec 32 := 0o100000
def sIfdir : BitVec 32 := 0o040000

/-- The fields of `struct stat` that are not always zero. -/
structure Stat where
  mode : BitVec 32
  nlink : ℕ
  size : BitVec 64
  blksize : ℕ
  blocks : BitVec 64
  deriving DecidableEq

/-- A `Stat` from a size and the archive's mode bits, where no type means a regular file. -/
def fill (size : BitVec 64) (mode : BitVec 32) : Stat where
  mode := if mode &&& sIfmt = 0 then sIfreg ||| 0o644 else mode
  nlink := 1
  size
  blksize := 4096
  blocks := .ofNat 64 ((size.toNat + 511) / 512)

/-- There is no such file or directory. -/
def enoent : ℕ := 2

def stat (path : List UInt8) : StateM Process (Except ℕ Stat) := do
  match ← statOfPath path with
  | some (size, mode) => return .ok (fill size mode)
  | none =>
    -- a directory that the archive implies
    if ← directoryExists path then return .ok (fill 0 (sIfdir ||| 0o755))
    else return .error enoent

end Files

namespace Directory

open Files

/-- The longest name `readdir` reports. -/
def nameMax : ℕ := 255

/-- How many subdirectories are remembered, and how much of their names. -/
def seenMax : ℕ := 32
def seenLen : ℕ := 32

/-- `d_type` values. -/
def dtDir : UInt8 := 4
def dtReg : UInt8 := 8

/-- What the heap lacks when it is full. -/
def enomem : ℕ := 12

/-- `struct dirent`. The name ends at its first NUL. -/
structure Dirent where
  ino : BitVec 64
  off : BitVec 64
  reclen : ℕ
  type : UInt8
  name : List UInt8
  deriving DecidableEq

/-- An open directory. -/
structure Dir where
  /-- The path of it, without leading or trailing slashes. -/
  pre : List UInt8
  /-- The next archive index to examine. -/
  index : BitVec 64
  /-- The subdirectories already reported, as much of their names as is remembered. -/
  seen : List (List UInt8)
  entry : Dirent

/-- The entry an archive member contributes to a listing, if any: its name, and whether it is a
subdirectory. -/
def componentUnder (pre entry : List UInt8) : Option (List UInt8 × Bool) :=
  let entry := trimSlashes entry
  let rest :=
    if pre = [] then entry
    else if Under pre entry then entry.drop (pre.length + 1)
    else []
  if rest = [] then none
  else match rest.findIdx? (· = slash) with
    | some cut => some (rest.take cut, true)
    | none => some (rest, false)

/-- Open a directory, if the heap has room for it. -/
def opendir (path : List UInt8) (room : Bool) : StateM Process (Except ℕ Dir) := do
  let pre := trimSlashes path
  if pre.length > FileServer.maxPath then return .error enoent
  if !(← directoryExists path) then return .error enoent
  if !room then return .error enomem
  return .ok ⟨pre, 0, [], ⟨0, 0, 280, dtReg, .replicate (nameMax + 1) 0⟩⟩

/-- Remember a directory name, and report whether it was already there. -/
def alreadySeen (d : Dir) (name : List UInt8) : Bool × Dir :=
  let name := name.take seenLen
  if name ∈ d.seen then (true, d)
  else (false, if d.seen.length < seenMax then { d with seen := d.seen ++ [name] } else d)

/-- The entry after the name of a component is written into it. -/
def Dirent.report (entry : Dirent) (index : BitVec 64) (component : List UInt8) (isDir : Bool) :
    Dirent where
  ino := index
  off := index
  reclen := entry.reclen
  type := if isDir then dtDir else dtReg
  name := component ++ 0 :: entry.name.drop (component.length + 1)

/-- The next entry of a directory. -/
def readdir (d : Dir) (p : Process) : Option Dirent × Dir × Process :=
  match _h : list d.index p with
  -- the end of the archive
  | (none, p) => (none, d, p)
  | (some (name, _, _), p) =>
    match componentUnder d.pre name with
    | none => readdir { d with index := d.index + 1 } p
    | some (component, isDir) =>
      let r := if isDir then alreadySeen d component else (false, d)
      if r.1 then readdir { d with index := d.index + 1 } p
      else if component.length > nameMax then
        readdir ⟨d.pre, d.index + 1, r.2.seen, d.entry⟩ p
      else
        let entry := d.entry.report (d.index + 1) component isDir
        (some entry, ⟨d.pre, d.index + 1, r.2.seen, entry⟩, p)
termination_by p.left d.index
decreasing_by all_goals exact left_of_list _h

/-- An entry that is reported is of a member at the index or behind it. -/
theorem left_of_readdir {d d' : Dir} {p p' : Process} {entry : Dirent}
    (h : readdir d p = (some entry, d', p')) : p'.left d'.index < p.left d.index := by
  fun_induction readdir d p with
  | case1 d p p₁ hlist => cases h
  | case2 d p name size mode p₁ hlist hunder ih => exact (ih h).trans (left_of_list hlist)
  | case3 d p name size mode p₁ hlist component isDir hunder r hseen ih =>
    exact (ih h).trans (left_of_list hlist)
  | case4 d p name size mode p₁ hlist component isDir hunder r hseen hlong ih =>
    exact (ih h).trans (left_of_list hlist)
  | case5 d p name size mode p₁ hlist component isDir hunder r hseen hlong entry' =>
    simp only [Prod.mk.injEq] at h
    obtain ⟨-, rfl, rfl⟩ := h
    exact left_of_list hlist

/-- Reading a directory to the end. -/
def readAll (d : Dir) (p : Process) : List Dirent × Process :=
  match _h : readdir d p with
  | (none, _, p) => ([], p)
  | (some entry, d, p) =>
    let (entries, p) := readAll d p
    (entry :: entries, p)
termination_by p.left d.index
decreasing_by exact left_of_readdir _h

end Directory

/-! ### What is shown of an archive -/

namespace Files

/-- The members that are listed, one after another, before a request is not answered. -/
def Link.shown : List Cpio.Entry → Link → List Cpio.Entry
  | [], _ => []
  | e :: es, l => if l.Good then e :: Link.shown es l.next else []

/-- The members a process is shown from an index on. -/
def Process.shown (p : Process) (index : BitVec 64) : List Cpio.Entry :=
  if p.page.isSome then p.link.shown (p.members.drop index.toNat) else []

/-- The name of a member, as much of it as is listed. -/
def nameOf (e : Cpio.Entry) : List UInt8 := (utf8 e.name).take FileServer.maxPath

theorem list_snd (index : BitVec 64) (p : Process) :
    (list index p).2 = (request FileServer.tagList index 0 0 true p).2 := by
  obtain ⟨answer, p', hreq⟩ : ∃ answer p', request FileServer.tagList index 0 0 true p =
      (answer, p') := ⟨_, _, rfl⟩
  rw [list, Fd.bind_of_eq hreq, hreq]
  cases answer with
  | none => rfl
  | some reply =>
    dsimp only
    split <;> rfl

theorem members_list (index : BitVec 64) (p : Process) :
    (list index p).2.members = p.members := by
  rw [list_snd]
  exact members_request ..

/-- **One member is listed**: the next one that is shown, if one is. -/
theorem list_spec (index : BitVec 64) (p : Process) :
    (p.shown index = [] ∧ (list index p).1 = none) ∨
      ∃ e p', p.shown index = e :: p'.shown (index + 1) ∧
        p.members.drop index.toNat = e :: p'.members.drop (index + 1).toNat ∧
        p'.page.isSome = true ∧ p'.link = p.link.next ∧
        list index p = (some (nameOf e, .ofNat 64 e.data.len, e.mode), p') := by
  by_cases h : p.page.isSome = true ∧ p.link.Good ∧ index.toNat < p.members.length
  · obtain ⟨hpage, hgood, hlt⟩ := h
    have he := List.getElem?_eq_getElem hlt
    generalize p.members[index.toNat] = e at he
    obtain ⟨page, hlist⟩ := list_of_good hpage hgood he
    have hmembers := (list_eq_some hlist).2.2.2
    have hdrop : p.members.drop index.toNat = e :: p.members.drop (index + 1).toNat := by
      rw [toNat_succ_of_list hlist, List.drop_eq_getElem?_toList_append, he, Option.toList_some,
        List.singleton_append]
    refine .inr ⟨e, _, ?_, by rw [hmembers, hdrop], rfl, rfl, hlist⟩
    rw [Process.shown, if_pos hpage, hdrop, Link.shown, if_pos hgood, Process.shown, hmembers]
    rfl
  · refine .inl ⟨?_, ?_⟩
    · rw [Process.shown]
      split
      · next hpage =>
        rw [not_and] at h
        cases hdrop : p.members.drop index.toNat with
        | nil => rfl
        | cons e es =>
          have hlt : index.toNat < p.members.length := by
            by_contra hno
            rw [List.drop_eq_nil_of_le (Nat.le_of_not_lt hno)] at hdrop
            cases hdrop
          rw [Link.shown, if_neg fun hgood => h hpage ⟨hgood, hlt⟩]
      · rfl
    · by_contra hne
      obtain ⟨r, hr⟩ := Option.ne_none_iff_exists'.mp hne
      obtain ⟨hpage, hgood, hlt, -⟩ := list_eq_some (Prod.ext hr rfl : list index p = (some r, _))
      exact h ⟨hpage, hgood, hlt⟩

/-- Whether a member lies under a path. -/
def Lies (path : List UInt8) (e : Cpio.Entry) : Prop := Under path (trimSlashes (nameOf e))

instance (path : List UInt8) : DecidablePred (Lies path) := fun _ =>
  inferInstanceAs (Decidable (Under _ _))

/-- How many requests it takes to find a member under a path, if the members from one on are
listed. -/
def asked (path : List UInt8) (es : List Cpio.Entry) : ℕ := es.findIdx (Lies path ·) + 1

/-- **A path is looked for** among the members that are shown. -/
theorem existsLoop_spec (path : List UInt8) (index : BitVec 64) (p : Process) :
    ((existsLoop path index p).1 = true ↔ ∃ e ∈ p.shown index, Lies path e) ∧
    (existsLoop path index p).2.members = p.members ∧
    ((existsLoop path index p).1 = true → (existsLoop path index p).2.page.isSome = true ∧
      (existsLoop path index p).2.link =
        Link.next^[asked path (p.members.drop index.toNat)] p.link) := by
  fun_induction existsLoop path index p with
  | case1 index p p' hlist =>
    have hmembers := members_list index p
    obtain ⟨hshown, -⟩ | ⟨e, p₁, -, -, -, -, hsome⟩ := list_spec index p
    · rw [hlist] at hmembers
      rw [hshown]
      refine ⟨iff_of_false Bool.false_ne_true ?_, hmembers, fun h => absurd h Bool.false_ne_true⟩
      rintro ⟨e, he, -⟩
      cases he
    · rw [hlist] at hsome
      cases hsome
  | case2 index p name size mode p' hlist hunder =>
    have hmembers := members_list index p
    obtain ⟨-, hnone⟩ | ⟨e, p₁, hshown, hdrop, hpage, hlink, hsome⟩ := list_spec index p
    · rw [hlist] at hnone
      cases hnone
    · rw [hlist] at hsome hmembers
      cases hsome
      refine ⟨iff_of_true rfl ⟨e, ?_, hunder⟩, hmembers, fun _ => ⟨hpage, ?_⟩⟩
      · rw [hshown]
        exact List.mem_cons_self
      · rw [hlink, hdrop, asked, List.findIdx_cons, decide_eq_true (show Lies path e from hunder)]
        rfl
  | case3 index p name size mode p' hlist hunder ih =>
    have hmembers := members_list index p
    obtain ⟨-, hnone⟩ | ⟨e, p₁, hshown, hdrop, hpage, hlink, hsome⟩ := list_spec index p
    · rw [hlist] at hnone
      cases hnone
    · rw [hlist] at hsome hmembers
      cases hsome
      obtain ⟨hiff, hmembers', hfound⟩ := ih
      have hno : ¬ Lies path e := hunder
      refine ⟨?_, hmembers'.trans hmembers, fun h => ⟨(hfound h).1, ?_⟩⟩
      · rw [hiff, hshown]
        simp only [List.mem_cons, exists_eq_or_imp, hno, false_or]
      · rw [(hfound h).2, hlink, hdrop, asked, asked, List.findIdx_cons, decide_eq_false hno]
        rfl

theorem length_dropDotSlash_le (path : List UInt8) : (dropDotSlash path).length ≤ path.length := by
  fun_induction dropDotSlash path with
  | case1 path ih => exact ih.trans (Nat.le_add_right _ 2)
  | case2 path => exact Nat.le_refl _

theorem length_trimSlashes_le (path : List UInt8) : (trimSlashes path).length ≤ path.length :=
  ((List.rdropWhile_prefix _ _).length_le.trans (List.dropWhile_suffix _).length_le).trans
    (length_dropDotSlash_le path)

end Files

namespace Directory

open Files

/-! ### Reading -/

theorem length_componentUnder {pre entry c : List UInt8} {k : Bool}
    (h : componentUnder pre entry = some (c, k)) : c.length ≤ entry.length := by
  have htrim := length_trimSlashes_le entry
  simp only [componentUnder] at h
  generalize hrest : (if pre = [] then trimSlashes entry
    else if Under pre (trimSlashes entry) then (trimSlashes entry).drop (pre.length + 1)
    else []) = rest at h
  have hlen : rest.length ≤ (trimSlashes entry).length := by
    rw [← hrest]
    split
    · exact Nat.le_refl _
    split
    · rw [List.length_drop]
      exact Nat.sub_le ..
    · exact Nat.zero_le _
  split at h
  · cases h
  split at h
  · cases h
    exact ((List.length_take_le' ..).trans hlen).trans htrim
  · cases h
    exact hlen.trans htrim

/-- What the members contribute to a listing, one after another. -/
def items (pre : List UInt8) (es : List Cpio.Entry) : List (List UInt8 × Bool) :=
  es.filterMap fun e => componentUnder pre (nameOf e)

theorem items_cons_none {pre : List UInt8} {e : Cpio.Entry} {es : List Cpio.Entry}
    (h : componentUnder pre (nameOf e) = none) : items pre (e :: es) = items pre es :=
  List.filterMap_cons_none h

theorem items_cons_some {pre : List UInt8} {e : Cpio.Entry} {es : List Cpio.Entry}
    {item : List UInt8 × Bool} (h : componentUnder pre (nameOf e) = some item) :
    items pre (e :: es) = item :: items pre es :=
  List.filterMap_cons_some h

/-- What is remembered of a subdirectory. -/
def tag (item : List UInt8 × Bool) : Option (List UInt8) :=
  if item.2 then some (item.1.take seenLen) else none

theorem tag_dir (c : List UInt8) : tag (c, true) = some (c.take seenLen) := rfl

theorem tag_file (c : List UInt8) : tag (c, false) = none := rfl

/-- What is reported of the members. -/
def reported (pre : List UInt8) (seen : List (List UInt8)) (es : List Cpio.Entry) :
    List (List UInt8 × Bool) :=
  Firsts.run tag seenMax seen (items pre es)

/-- The name in an entry as C reads it. -/
def cString (name : List UInt8) : List UInt8 := name.takeWhile (· ≠ 0)

/-- What an entry says: a name, and whether it is a directory. -/
def Dirent.told (entry : Dirent) : List UInt8 × Bool := (cString entry.name, entry.type = dtDir)

theorem Dirent.told_report (entry : Dirent) (index : BitVec 64) (c : List UInt8) (k : Bool) :
    (entry.report index c k).told = (cString c, k) := by
  refine Prod.ext ?_ ?_
  · show cString (c ++ 0 :: entry.name.drop (c.length + 1)) = cString c
    rw [cString, cString, List.takeWhile_append]
    split
    · next h =>
      rw [List.takeWhile_cons_of_neg (by simp), List.append_nil]
      exact ((List.takeWhile_prefix _).eq_of_length h).symm
    · rfl
  · cases k <;> rfl

theorem shown_of_list {index : BitVec 64} {p p' : Process} {name : List UInt8}
    {size : BitVec 64} {mode : BitVec 32} (h : list index p = (some (name, size, mode), p')) :
    ∃ e, name = nameOf e ∧ p.shown index = e :: p'.shown (index + 1) := by
  obtain ⟨-, hnone⟩ | ⟨e, p₁, hshown, -, -, -, hsome⟩ := list_spec index p
  · rw [h] at hnone
    cases hnone
  · rw [h] at hsome
    cases hsome
    exact ⟨e, rfl, hshown⟩

theorem alreadySeen_of_mem {d : Dir} {c : List UInt8} (h : c.take seenLen ∈ d.seen) :
    alreadySeen d c = (true, d) := if_pos h

theorem alreadySeen_of_not_mem {d : Dir} {c : List UInt8} (h : c.take seenLen ∉ d.seen) :
    (alreadySeen d c).1 = false ∧
      (alreadySeen d c).2.seen = Firsts.remember seenMax d.seen (c.take seenLen) := by
  rw [alreadySeen]
  simp only [if_neg h, Firsts.remember, true_and]
  split <;> rfl

/-- **The next entry** is the first of what is reported of the members still to come. -/
theorem readdir_spec (d : Dir) (p : Process) :
    (reported d.pre d.seen (p.shown d.index) = [] ∧ (readdir d p).1 = none) ∨
      ∃ item entry d' p', readdir d p = (some entry, d', p') ∧
        entry.told = (cString item.1, item.2) ∧
        reported d.pre d.seen (p.shown d.index) =
          item :: reported d'.pre d'.seen (p'.shown d'.index) := by
  fun_induction readdir d p with
  | case1 d p p' hlist =>
    obtain ⟨hshown, -⟩ | ⟨e, p₁, -, -, -, -, hsome⟩ := list_spec d.index p
    · exact .inl ⟨by rw [hshown]; rfl, rfl⟩
    · rw [hlist] at hsome
      cases hsome
  | case2 d p name size mode p' hlist hunder ih =>
    obtain ⟨e, rfl, hshown⟩ := shown_of_list hlist
    rw [hshown, reported, items_cons_none hunder]
    exact ih
  | case3 d p name size mode p' hlist component isDir hunder r hseen ih =>
    obtain ⟨e, rfl, hshown⟩ := shown_of_list hlist
    rw [hshown, reported, items_cons_some hunder]
    cases isDir with
    | false => exact absurd hseen Bool.false_ne_true
    | true =>
      have hmem : component.take seenLen ∈ d.seen := by
        by_contra hno
        exact Bool.false_ne_true ((alreadySeen_of_not_mem hno).1.symm.trans hseen)
      rw [Firsts.run_cons_mem (tag_dir _) hmem]
      exact ih
  | case4 d p name size mode p' hlist component isDir hunder r hseen hlong ih =>
    -- names that are listed are shorter
    obtain ⟨e, rfl, -⟩ := shown_of_list hlist
    have hlen := length_componentUnder hunder
    have hmax : (nameOf e).length ≤ FileServer.maxPath := List.length_take_le ..
    rw [nameMax] at hlong
    rw [FileServer.maxPath] at hmax
    omega
  | case5 d p name size mode p' hlist component isDir hunder r hseen hlong entry' =>
    obtain ⟨e, rfl, hshown⟩ := shown_of_list hlist
    refine .inr ⟨(component, isDir), entry', _, _, rfl, Dirent.told_report .., ?_⟩
    rw [hshown, reported, items_cons_some hunder]
    cases isDir with
    | false =>
      rw [Firsts.run_cons_none (tag_file _)]
      rfl
    | true =>
      have hno : component.take seenLen ∉ d.seen := by
        intro hmem
        exact hseen (congrArg Prod.fst (alreadySeen_of_mem hmem))
      rw [Firsts.run_cons_new (tag_dir _) hno, ← (alreadySeen_of_not_mem hno).2]
      rfl

/-- **Reading to the end** gives what is reported of the members that are shown. -/
theorem readAll_spec (d : Dir) (p : Process) :
    (readAll d p).1.map Dirent.told =
      (reported d.pre d.seen (p.shown d.index)).map fun item => (cString item.1, item.2) := by
  fun_induction readAll d p with
  | case1 d p d' p' hread =>
    obtain ⟨hnil, -⟩ | ⟨item, entry, d₁, p₁, hsome, -, -⟩ := readdir_spec d p
    · rw [hnil]
      rfl
    · rw [hread] at hsome
      cases hsome
  | case2 d p entry d' p' hread entries p'' hrest ih =>
    obtain ⟨-, hnone⟩ | ⟨item, entry, d₁, p₁, hsome, hsays, hreported⟩ := readdir_spec d p
    · rw [hread] at hnone
      cases hnone
    · rw [hread] at hsome
      cases hsome
      rw [hrest] at ih
      rw [hreported, List.map_cons, List.map_cons, hsays, ← ih]

/-- Opening that fails, or makes a directory at its first member. -/
theorem opendir_cases (path : List UInt8) (room : Bool) (p : Process) :
    ((∃ e, (opendir path room p).1 = .error e) ∧
        ¬ ((trimSlashes path).length ≤ FileServer.maxPath ∧ (directoryExists path p).1 = true ∧
          room = true)) ∨
      ((trimSlashes path).length ≤ FileServer.maxPath ∧ (directoryExists path p).1 = true ∧
        room = true ∧ opendir path room p =
          (.ok ⟨trimSlashes path, 0, [], ⟨0, 0, 280, dtReg, .replicate (nameMax + 1) 0⟩⟩,
            (directoryExists path p).2)) := by
  rw [opendir]
  by_cases hlong : (trimSlashes path).length > FileServer.maxPath
  · rw [if_pos hlong]
    exact .inl ⟨⟨_, rfl⟩, fun h => absurd h.1 (Nat.not_le_of_lt hlong)⟩
  rw [if_neg hlong]
  obtain ⟨found, p', hfound⟩ : ∃ found p', directoryExists path p = (found, p') := ⟨_, _, rfl⟩
  rw [Fd.bind_of_eq hfound, hfound]
  cases found with
  | false => exact .inl ⟨⟨_, rfl⟩, fun h => absurd h.2.1 Bool.false_ne_true⟩
  | true =>
    cases room with
    | false => exact .inl ⟨⟨_, rfl⟩, fun h => absurd h.2.2 Bool.false_ne_true⟩
    | true => exact .inr ⟨Nat.le_of_not_lt hlong, rfl, rfl, rfl⟩

end Directory

end StarOS
