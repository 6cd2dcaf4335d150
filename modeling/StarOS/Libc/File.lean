import StarOS.Fs.Server
import StarOS.Libc.Fd

/-!
# Files over the file server

A file is read by asking the server for at most a page at a time: the process shares one page with
it, the server fills the page, and the bytes are copied out of it. The cursor stays on this side.

What happens around a request is up to others: the server may have served other clients before it,
it may have stopped, and a message may be lost.

## Main definitions

* `Files.Turn`, `Files.Link` — a process's way to the server
* `Files.Process`
* `Files.request`, `Files.openFile`, `Files.read`, `Files.seek`, `Files.close`
-/

namespace StarOS

namespace Files

open FileServer (Request Server)

/-- The unit the shared buffer is measured in. -/
def pageSize : ℕ := 4096

/-- What happens around one request. -/
structure Turn where
  /-- The requests of other clients that are served before it, and whether each reply is sent. -/
  others : List (Request × Bool)
  /-- The request comes to the server. -/
  arrives : Bool
  /-- The server can map the client's page. -/
  maps : Bool
  /-- The server can send the reply. -/
  replies : Bool
  /-- The client receives it. -/
  hears : Bool

/-- The way to the server: its state, and what will happen around each request to come. -/
structure Link where
  server : Server
  turns : ℕ → Turn

namespace Link

/-- The server when the next request comes. -/
def before (l : Link) : Server := (l.turns 0).others.foldl (fun s r => (s.turn r.1 r.2).2) l.server

/-- The turns after the next one. -/
def later (l : Link) : ℕ → Turn := fun n => l.turns (n + 1)

/-- Send one request and wait for the reply: the reply, and the shared page after it. -/
def request (l : Link) (msg : Message) (page : List UInt8) : Option Message × List UInt8 × Link :=
  let turn := l.turns 0
  if turn.arrives then
    match l.before.turn ⟨msg, if turn.maps then some page else none⟩ turn.replies with
    | (some answer, server) =>
      (if turn.replies && turn.hears then some answer.reply else none, answer.buffer.getD page,
        ⟨server, l.later⟩)
    | (none, server) => (none, page, ⟨server, l.later⟩)
  else (none, page, ⟨l.before, l.later⟩)

end Link

/-- The page a process shares with the server. -/
structure Page where
  cap : Handle
  bytes : List UInt8
  cap_ne : cap ≠ .null
  length : bytes.length = pageSize

/-- The page with what the server left in it. -/
def Page.filled (page : Page) (bytes : List UInt8) : Page :=
  if h : bytes.length = pageSize then { page with bytes, length := h } else page

/-- A process: its descriptors, the shared page if the start-up got one, and the server. -/
structure Process where
  fds : Fd.Fds
  page : Option Page
  link : Link

/-- Work on the descriptors. -/
def onFds {α : Type} (x : StateM Fd.Fds α) : StateM Process α := fun p =>
  let (a, fds) := x p.fds
  (a, { p with fds })

/-- Send one request and wait for the reply. -/
def request (tag a b c : BitVec 64) (withBuffer : Bool) : StateM Process (Option Message) :=
    fun p =>
  match p.page with
  | none => (none, p)
  | some page =>
    let msg : Message := ⟨tag, Message.three a b c, if withBuffer then page.cap else .null⟩
    let (answer, bytes, link) := p.link.request msg page.bytes
    (answer, { p with page := some (page.filled bytes), link })

/-- Strip what an absolute path means on a system with one file system: leading `/` and `./`. -/
def normalise : List UInt8 → List UInt8
  | 47 :: path => normalise path
  | 46 :: 47 :: path => normalise path
  | path => path

/-- Copy a path into the shared page. Answers its length, unless it would not fit. -/
def putPath (path : List UInt8) : StateM Process (Option ℕ) := fun p =>
  let path := normalise path
  if path = [] ∨ path.length > FileServer.maxPath then (none, p)
  else match p.page with
    | none => (none, p)
    | some page =>
      if path.length > pageSize then (none, p)
      else (some path.length,
        { p with page := some (page.filled (FileServer.write page.bytes path)) })

/-- Open a file for reading. -/
def openFile (path : List UInt8) : StateM Process ℤ := do
  match ← putPath path with
  | none => return -1
  | some len =>
    match ← request FileServer.tagOpen (.ofNat 64 len) 0 0 true with
    | none => return -1
    | some reply =>
      if reply.tag = FileServer.tagError then return -1
      let fd ← onFds (Fd.installFile (reply.words.get 0) (reply.words.get 1))
      if fd < 0 then
        -- out of descriptors: the handle the server just made would leak
        let _ ← request FileServer.tagClose (reply.words.get 0) 0 0 false
        return -1
      return fd

/-- The rounds of a read of `n` bytes at an offset: what was read, and the offset behind it. -/
def readLoop (handle : BitVec 64) (n : ℕ) (offset : BitVec 64) (p : Process) :
    List UInt8 × BitVec 64 × Process :=
  if _hn : n = 0 then ([], offset, p)
  else
    match request FileServer.tagRead handle offset (.ofNat 64 (min n pageSize)) true p with
    | (none, p) => ([], offset, p)
    | (some reply, p) =>
      if reply.tag = FileServer.tagError then ([], offset, p)
      else
        let got := (reply.words.get 0).toNat
        -- end of file
        if _hgot : got = 0 then ([], offset, p)
        else
          let bytes := (p.page.elim [] Page.bytes).take got
          let (more, offset, p) := readLoop handle (n - got) (offset + .ofNat 64 got) p
          (bytes ++ more, offset, p)
termination_by n
decreasing_by omega

/-- Fill `n` bytes from the descriptor's cursor, and advance it. -/
def read (fd : ℤ) (n : ℕ) : StateM Process (ℤ × List UInt8) := fun p =>
  match p.fds.get fd with
  | some (.file handle _ offset) =>
    let (bytes, offset, p) := readLoop handle n offset p
    let (_, fds) := Fd.setOffset fd offset p.fds
    -- nothing read: end of file is zero, and a refusal is an error
    let done : ℤ := if bytes = [] ∧ n ≠ 0 then 0 else bytes.length
    ((done, bytes), { p with fds })
  | _ => ((-1, []), p)

/-- The sum of two signed numbers, unless it overflows. -/
def checkedAdd (a b : ℤ) : Option ℤ := if -2 ^ 63 ≤ a + b ∧
    a + b < 2 ^ 63 then some (a + b) else none

/-- Move the cursor. -/
def seek (fd : ℤ) (offset : BitVec 64) (whence : ℤ) : StateM Process ℤ := fun p =>
  match p.fds.get fd with
  | some (.file _ size current) =>
    let base : Option ℤ :=
      if whence = 0 then some 0
      else if whence = 1 then some current.toInt
      else if whence = 2 then some size.toInt
      else none
    match base.bind fun base => (checkedAdd base offset.toInt).filter (0 ≤ ·) with
    | none => (-1, p)
    | some target =>
      -- past the end is legal, and simply reads nothing later
      let (_, fds) := Fd.setOffset fd (.ofInt 64 target) p.fds
      (target, { p with fds })
  | _ => (-1, p)

/-- Tell the server a handle is finished with. -/
def closeHandle (handle : BitVec 64) : StateM Process ℤ := do
  match ← request FileServer.tagClose handle 0 0 false with
  | some reply => return if reply.tag ≠ FileServer.tagError then 0 else -1
  | none => return -1

def close (fd : ℤ) : StateM Process ℤ := do
  match ← onFds (Fd.release fd) with
  | some handle => closeHandle handle
  | none => return 0

end Files

end StarOS
