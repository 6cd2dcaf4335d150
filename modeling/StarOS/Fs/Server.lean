import StarOS.Abi
import StarOS.Cpio.Archive

/-!
# The file server

The server holds the archive and a table of eight open files. A request names a file by its path or
by a handle, and bulk data travels through a buffer of the client that the server maps. A handle is
the slot of the table with the generation that was current at the open, so that the handle of a
closed file does not become the handle of whatever is opened next in the same slot.

The server stops after a number of requests, so its generations never come round.

## Main definitions

* `FileServer.Table` with `insert`, `get`, `remove`
* `FileServer.serve` — the answer to one request
* `FileServer.Server.turn` — one turn of the server's loop

## Main results

* `FileServer.Table.get_insert` — which handle an open makes, and what the others name after it
* `FileServer.Server.Knows.turn` — a handle goes on naming what it was made for, or nothing
-/

namespace StarOS

namespace FileServer

/-- The tags of requests. -/
def tagOpen : BitVec 64 := 1
def tagRead : BitVec 64 := 2
def tagStat : BitVec 64 := 3
def tagClose : BitVec 64 := 4
def tagList : BitVec 64 := 5
def tagBye : BitVec 64 := 9

/-- The tag of a refused request. The reason is in the first word. -/
def tagError : BitVec 64 := 0

/-- The reasons: no member by that name, a handle that names no open file, a request that is itself
wrong. -/
def errNoFile : BitVec 64 := 1
def errBadHandle : BitVec 64 := 2
def errMalformed : BitVec 64 := 3

/-- The longest path the server will look at. -/
def maxPath : ℕ := 128

/-- How many files may be open at once. -/
def maxOpen : ℕ := 8

/-- How many requests the server answers, and how many of them may be malformed. -/
def maxRequests : ℕ := 2048
def maxRejected : ℕ := 8

/-- One open file: the archive member it names, and the generation of its handle. -/
structure Open where
  entry : Cpio.Entry
  generation : BitVec 32

/-- The open-file table. -/
structure Table where
  slots : Vector (Option Open) maxOpen
  nextGeneration : BitVec 32

namespace Table

def new : Table := ⟨.replicate maxOpen none, 1⟩

/-- The handle of a slot. Slot 0 is never handle 0. -/
def handle (generation : BitVec 32) (slot : Fin maxOpen) : BitVec 64 :=
  generation.setWidth 64 <<< 8 ||| BitVec.ofNat 64 (slot + 1)

/-- Take a free slot for an entry. -/
def insert (self : Table) (entry : Cpio.Entry) : Option (BitVec 64 × Table) :=
  (List.finRange maxOpen).find? (fun slot => self.slots[slot].isNone) |>.map fun slot =>
    let generation := self.nextGeneration
    let next := generation + 1
    (handle generation slot,
      ⟨self.slots.set slot (some ⟨entry, generation⟩), if next < 1 then 1 else next⟩)

/-- The slot in a handle. -/
def slot (handle : BitVec 64) : Option (Fin maxOpen) :=
  let low := (handle &&& 0xFF).toNat
  if h : low ≠ 0 ∧ low - 1 < maxOpen then some ⟨low - 1, h.2⟩ else none

/-- The file a handle names. -/
def get (self : Table) (handle : BitVec 64) : Option Cpio.Entry := do
  let f ← self.slots[← slot handle]
  if f.generation.setWidth 64 = handle >>> 8 then some f.entry else none

/-- Close a handle. Answers whether it named anything. -/
def remove (self : Table) (handle : BitVec 64) : Bool × Table :=
  match self.get handle, slot handle with
  | some _, some slot => (true, { self with slots := self.slots.set slot none })
  | _, _ => (false, self)

end Table

/-- A request, with the bytes the server finds if it maps the capability in it. -/
structure Request where
  msg : Message
  buffer : Option (List UInt8)

/-- The client's buffer, mapped into the server. -/
def Request.map (r : Request) : Option (List UInt8) := if r.msg.cap = .null then none else r.buffer

/-- The path at the start of a buffer. -/
def path (buffer : List UInt8) (len : ℕ) : Option String :=
  if len = 0 ∨ len > maxPath ∨ len > buffer.length then none else fromUtf8 (buffer.take len)

/-- The buffer with something written at its start. -/
def write (buffer data : List UInt8) : List UInt8 := data ++ buffer.drop data.length

/-- What the server does for a request: the reply, its table, and the client's buffer. -/
structure Answer where
  reply : Message
  table : Table
  buffer : Option (List UInt8)

/-- A reply with these words. -/
def reply (tag a b c : BitVec 64) : Message := { Message.new tag with words := Message.three a b c }

/-- A refusal. -/
def refusal (code : BitVec 64) : Message := reply tagError code 0 0

/-- A member that is a file, by its name. -/
def find (archive : Slice) (path : String) : Option Cpio.Entry :=
  ((Cpio.members archive).find? (·.name = path)).filter Cpio.Entry.isFile

/-- What a path in the buffer names, or the reason for a refusal. -/
def lookup (archive : Slice) (r : Request) : Except (BitVec 64) Cpio.Entry :=
  match r.map with
  | none => .error errMalformed
  | some buffer =>
    match path buffer (r.msg.words.get 0).toNat with
    | none => .error errMalformed
    | some path =>
      match find archive path with
      | none => .error errNoFile
      | some entry => .ok entry

/-- Answer one request. -/
def serve (archive : Slice) (table : Table) (r : Request) : Answer :=
  let msg := r.msg
  let error code : Answer := ⟨refusal code, table, r.buffer⟩
  if msg.tag = tagOpen ∨ msg.tag = tagStat then
    match lookup archive r with
    | .error code => error code
    | .ok entry =>
      let size := .ofNat 64 entry.data.len
      if msg.tag = tagStat then ⟨reply msg.tag size (entry.mode.setWidth 64) 0, table, r.buffer⟩
      else match table.insert entry with
        | some (handle, table) => ⟨reply msg.tag handle size 0, table, r.buffer⟩
        -- the table is full
        | none => error errBadHandle
  else if msg.tag = tagRead then
    match table.get (msg.words.get 0) with
    | none => error errBadHandle
    | some entry =>
      match r.map with
      | none => error errMalformed
      | some buffer =>
        -- past the end there are no bytes, which is how a reader hears of the end
        let offset := min (msg.words.get 1).toNat entry.data.len
        let available := entry.data.len - offset
        let len := min (min (msg.words.get 2).toNat available) buffer.length
        ⟨reply tagRead (.ofNat 64 len) (.ofNat 64 (available - len)) 0, table,
          some (write buffer ((entry.data.bytes.drop offset).take len))⟩
  else if msg.tag = tagClose then
    match table.remove (msg.words.get 0) with
    | (true, table) => ⟨reply tagClose 0 0 0, table, r.buffer⟩
    | (false, _) => error errBadHandle
  else if msg.tag = tagList then
    match r.map with
    | none => error errMalformed
    | some buffer =>
      match (Cpio.members archive)[(msg.words.get 0).toNat]? with
      | none => error errNoFile
      | some entry =>
        let name := utf8 entry.name
        let len := min (min name.length maxPath) buffer.length
        ⟨reply tagList (.ofNat 64 len) (.ofNat 64 entry.data.len) (entry.mode.setWidth 64), table,
          some (write buffer (name.take len))⟩
  else error errMalformed

/-- The server's process. -/
structure Server where
  archive : Slice
  table : Table
  served : ℕ
  rejected : ℕ
  /-- It has left its loop for a reason other than its counts. -/
  gone : Bool

namespace Server

/-- The server at its start. -/
def start (archive : Slice) : Server := ⟨archive, .new, 0, 0, false⟩

/-- Whether it goes round its loop again. -/
def serving (self : Server) : Bool :=
  !self.gone && self.served < maxRequests && self.rejected < maxRejected

/-- One turn of the loop, where the reply can be sent if `sent`. A server that has stopped does
nothing, and it does not answer the client that says goodbye. -/
def turn (self : Server) (r : Request) (sent : Bool) : Option Answer × Server :=
  if !self.serving then (none, self)
  else if r.msg.tag = tagBye then (none, { self with gone := true })
  else
    let a := serve self.archive self.table r
    (some a,
      { self with
        table := a.table
        served := self.served + 1
        rejected := self.rejected +
          if a.reply.tag = tagError ∧ a.reply.words.get 0 = errMalformed then 1 else 0
        gone := !sent })

end Server

/-! ### The table -/

namespace Table

variable {t t' : Table} {h h' : BitVec 64} {e : Cpio.Entry}

theorem toNat_handle (g : BitVec 32) (i : Fin maxOpen) :
    (handle g i).toNat = g.toNat * 256 + (i + 1) := by
  have hi : (i : ℕ) < 8 := i.isLt
  have hg := g.isLt
  have hlow : ((i : ℕ) + 1) % 2 ^ 64 = i + 1 := Nat.mod_eq_of_lt (by omega)
  rw [handle, BitVec.toNat_or, BitVec.toNat_shiftLeft, BitVec.toNat_setWidth, BitVec.toNat_ofNat,
    hlow, Nat.shiftLeft_eq, Nat.mod_eq_of_lt (by omega), Nat.mod_eq_of_lt (by omega), Nat.mul_comm,
    ← Nat.two_pow_add_eq_or_of_lt (by omega)]

theorem slot_eq_some {i : Fin maxOpen} : slot h = some i ↔ h.toNat % 256 = i + 1 := by
  have hi := i.isLt
  have hlow : (h &&& 0xFF).toNat = h.toNat % 256 := by
    rw [BitVec.toNat_and]
    exact Nat.and_two_pow_sub_one_eq_mod _ 8
  rw [slot]
  simp only [hlow]
  split
  · next hb =>
    rw [Option.some.injEq, Fin.ext_iff]
    show h.toNat % 256 - 1 = i ↔ _
    omega
  · next hb =>
    refine ⟨nofun, fun heq => absurd ?_ hb⟩
    rw [heq]
    exact ⟨Nat.succ_ne_zero _, hi⟩

/-- **What a handle names.** -/
theorem get_eq_some : t.get h = some e ↔
    ∃ i f, t.slots[i] = some f ∧ f.entry = e ∧ h = handle f.generation i := by
  have hgen : ∀ g : BitVec 32, g.setWidth 64 = h >>> 8 ↔ g.toNat = h.toNat / 256 := by
    intro g
    rw [← BitVec.toNat_inj, BitVec.toNat_setWidth, BitVec.toNat_ushiftRight,
      Nat.shiftRight_eq_div_pow,
      Nat.mod_eq_of_lt (Nat.lt_trans g.isLt (by decide))]
  have hhandle : ∀ (g : BitVec 32) (i : Fin maxOpen),
      h = handle g i ↔ h.toNat % 256 = i + 1 ∧ g.toNat = h.toNat / 256 := by
    intro g i
    have hi : (i : ℕ) < 8 := i.isLt
    rw [← BitVec.toNat_inj, toNat_handle]
    omega
  simp only [get, Option.bind_eq_bind, Option.bind_eq_some_iff, hgen, hhandle, slot_eq_some]
  constructor
  · rintro ⟨i, hi, f, hf, he⟩
    split at he
    · next hg => exact ⟨i, f, hf, Option.some.inj he, hi, hg⟩
    · cases he
  · rintro ⟨i, f, hf, rfl, hi, hg⟩
    exact ⟨i, hi, f, hf, if_pos hg⟩

theorem handle_inj {g g' : BitVec 32} {i j : Fin maxOpen} :
    handle g i = handle g' j ↔ g = g' ∧ i = j := by
  have hi : (i : ℕ) < 8 := i.isLt
  have hj : (j : ℕ) < 8 := j.isLt
  rw [← BitVec.toNat_inj, toNat_handle, toNat_handle, ← BitVec.toNat_inj, Fin.ext_iff]
  omega

/-- The tables in which every open file has an older generation than the next one, after at most
`n` opens. -/
structure Fresh (t : Table) (n : ℕ) : Prop where
  pos : 0 < t.nextGeneration.toNat
  le : t.nextGeneration.toNat ≤ n + 1
  older : ∀ (i : Fin maxOpen) (f : Open), t.slots[i] = some f →
      f.generation.toNat < t.nextGeneration.toNat

/-- The handles made so far. -/
def Issued (t : Table) (h : BitVec 64) : Prop :=
  ∃ (g : BitVec 32) (i : Fin maxOpen), g.toNat < t.nextGeneration.toNat ∧ h = handle g i

variable {n : ℕ}

theorem fresh_new : new.Fresh 0 := by
  refine ⟨by decide, by decide, fun i f hf => ?_⟩
  simp [new] at hf

theorem Fresh.mono {m : ℕ} (hfresh : t.Fresh n) (hle : n ≤ m) : t.Fresh m :=
  ⟨hfresh.pos, Nat.le_trans hfresh.le (Nat.succ_le_succ hle), hfresh.older⟩

theorem Fresh.issued (hfresh : t.Fresh n) (he : t.get h = some e) : t.Issued h := by
  obtain ⟨i, f, hf, -, rfl⟩ := get_eq_some.mp he
  exact ⟨f.generation, i, hfresh.older i f hf, rfl⟩

/-- What an open does to the table. -/
theorem insert_eq_some (hi : t.insert e = some (h, t')) :
    ∃ i, t.slots[i] = none ∧ h = handle t.nextGeneration i ∧
      t'.slots = t.slots.set i (some ⟨e, t.nextGeneration⟩) ∧
      t'.nextGeneration = if t.nextGeneration + 1 < 1 then 1 else t.nextGeneration + 1 := by
  obtain ⟨i, hfind, heq⟩ := Option.map_eq_some_iff.mp hi
  rw [Prod.mk.injEq] at heq
  obtain ⟨rfl, rfl⟩ := heq
  have hnone := List.find?_some hfind
  exact ⟨i, Option.isNone_iff_eq_none.mp hnone, rfl, rfl, rfl⟩

/-- **An open makes a new handle** and nothing else. -/
theorem get_insert (hi : t.insert e = some (h, t')) (h' : BitVec 64) :
    t'.get h' = if h' = h then some e else t.get h' := by
  obtain ⟨i, hnone, rfl, hslots, -⟩ := insert_eq_some hi
  have hslot : ∀ j : Fin maxOpen, t'.slots[j] = if i = j then some ⟨e, t.nextGeneration⟩ else
    t.slots[j] := by
    intro j
    simp only [hslots, Fin.getElem_fin, Vector.getElem_set, Fin.ext_iff]
  refine Option.ext fun e' => ?_
  rw [get_eq_some]
  simp only [hslot]
  split
  · next heq =>
    subst heq
    rw [Option.some.injEq]
    constructor
    · rintro ⟨j, f, hf, rfl, heq⟩
      obtain ⟨-, rfl⟩ := handle_inj.mp heq
      rw [if_pos rfl, Option.some.injEq] at hf
      rw [← hf]
    · rintro rfl
      exact ⟨i, _, if_pos rfl, rfl, rfl⟩
  · next hne =>
    rw [get_eq_some]
    constructor
    · rintro ⟨j, f, hf, rfl, rfl⟩
      split at hf
      · next hij =>
        subst hij
        rw [← Option.some.inj hf] at hne
        exact absurd rfl hne
      · exact ⟨j, f, hf, rfl, rfl⟩
    · rintro ⟨j, f, hf, rfl, rfl⟩
      refine ⟨j, f, ?_, rfl, rfl⟩
      rwa [if_neg]
      rintro rfl
      rw [hnone] at hf
      cases hf

theorem nextGeneration_insert (hfresh : t.Fresh n) (hn : n + 2 < 2 ^ 32)
    (hi : t.insert e = some (h, t')) :
    t'.nextGeneration.toNat = t.nextGeneration.toNat + 1 := by
  obtain ⟨i, -, -, -, hnext⟩ := insert_eq_some hi
  have hle := hfresh.le
  have hadd : (t.nextGeneration + 1).toNat = t.nextGeneration.toNat + 1 := by
    rw [BitVec.toNat_add]
    exact Nat.mod_eq_of_lt (by show _ + 1 < _; omega)
  rw [hnext, if_neg, hadd]
  rw [BitVec.lt_def, hadd]
  show ¬ _ < 1
  omega

theorem Fresh.insert (hfresh : t.Fresh n) (hn : n + 2 < 2 ^ 32) (hi : t.insert e = some (h, t')) :
    t'.Fresh (n + 1) := by
  have hnext := nextGeneration_insert hfresh hn hi
  obtain ⟨i, hnone, rfl, hslots, -⟩ := insert_eq_some hi
  have hle := hfresh.le
  refine ⟨by omega, by omega, fun j f hf => ?_⟩
  rw [hnext]
  simp only [hslots, Fin.getElem_fin, Vector.getElem_set] at hf
  split at hf
  · rw [← Option.some.inj hf]
    exact Nat.lt_succ_self _
  · exact Nat.lt_succ_of_lt (hfresh.older j f hf)

/-- What a close does to the table. -/
theorem slots_remove (h : BitVec 64) : (t.remove h).2.nextGeneration = t.nextGeneration ∧
    ∀ j : Fin maxOpen, (t.remove h).2.slots[j] =
      if (t.get h).isSome ∧ slot h = some j then none else t.slots[j] := by
  rw [remove]
  split
  · next e i he hslot =>
    refine ⟨rfl, fun j => ?_⟩
    simp only [he, hslot, Fin.getElem_fin, Vector.getElem_set, Fin.ext_iff, Option.isSome_some,
      Option.some.injEq, true_and]
  · next hno =>
    refine ⟨rfl, fun j => (if_neg ?_).symm⟩
    rintro ⟨hget, hslot⟩
    obtain ⟨e, he⟩ := Option.isSome_iff_exists.mp hget
    exact hno e j he hslot

/-- **A close takes its handle away** and nothing else. -/
theorem get_remove (h h' : BitVec 64) :
    (t.remove h).2.get h' = if h' = h then none else t.get h' := by
  have hslots := (slots_remove (t := t) h).2
  refine Option.ext fun e' => ?_
  rw [get_eq_some]
  simp only [hslots]
  split
  · next heq =>
    subst heq
    refine ⟨?_, nofun⟩
    rintro ⟨j, f, hf, rfl, rfl⟩
    split at hf
    · cases hf
    · next hno =>
      refine absurd ⟨Option.isSome_iff_exists.mpr ⟨f.entry, get_eq_some.mpr ⟨j, f, hf, rfl, rfl⟩⟩,
        ?_⟩ hno
      rw [slot_eq_some, toNat_handle]
      have hj : (j : ℕ) < 8 := j.isLt
      omega
  · next hne =>
    rw [get_eq_some]
    constructor
    · rintro ⟨j, f, hf, rfl, rfl⟩
      split at hf
      · cases hf
      · exact ⟨j, f, hf, rfl, rfl⟩
    · rintro ⟨j, f, hf, rfl, rfl⟩
      refine ⟨j, f, ?_, rfl, rfl⟩
      rwa [if_neg]
      rintro ⟨hget, hslot⟩
      obtain ⟨e, he⟩ := Option.isSome_iff_exists.mp hget
      obtain ⟨i, f', hf', -, rfl⟩ := get_eq_some.mp he
      -- the slot of the handle holds only one file
      rw [slot_eq_some, toNat_handle] at hslot
      have hi : (i : ℕ) < 8 := i.isLt
      have hj : (j : ℕ) < 8 := j.isLt
      obtain rfl : i = j := Fin.ext (by omega)
      rw [hf] at hf'
      rw [Option.some.inj hf'] at hne
      exact hne rfl

theorem remove_fst (h : BitVec 64) : (t.remove h).1 = (t.get h).isSome := by
  rw [remove]
  split
  · next he _ => rw [he]; rfl
  · next hno =>
    cases he : t.get h with
    | none => rfl
    | some e =>
      obtain ⟨i, f, hf, -, rfl⟩ := get_eq_some.mp he
      refine absurd (slot_eq_some.mpr ?_) (hno e i he)
      rw [toNat_handle]
      have hi : (i : ℕ) < 8 := i.isLt
      omega

theorem Fresh.remove (hfresh : t.Fresh n) (h : BitVec 64) : (t.remove h).2.Fresh n := by
  obtain ⟨hnext, hslots⟩ := slots_remove (t := t) h
  refine ⟨hnext ▸ hfresh.pos, hnext ▸ hfresh.le, fun i f hf => ?_⟩
  rw [hslots] at hf
  split at hf
  · cases hf
  · exact hnext ▸ hfresh.older i f hf

end Table

/-! ### The answers -/

section

variable (archive : Slice) {t t' : Table} {r : Request} {e : Cpio.Entry} {h : BitVec 64}

@[simp] theorem tag_reply (tag a b c : BitVec 64) : (reply tag a b c).tag = tag := rfl
@[simp] theorem word_zero_reply (tag a b c : BitVec 64) : (reply tag a b c).words.get 0 = a := rfl

/-- **What a request does to the table.** -/
theorem serve_table (t : Table) (r : Request) :
    (serve archive t r).table = t ∨
      (∃ e h, t.insert e = some (h, (serve archive t r).table)) ∨
      (serve archive t r).table = (t.remove (r.msg.words.get 0)).2 := by
  rw [serve]
  split
  · cases lookup archive r with
    | error code => exact .inl rfl
    | ok entry =>
      by_cases hstat : r.msg.tag = tagStat
      · exact .inl (by simp only [if_pos hstat])
      · simp only [if_neg hstat]
        split
        · next h t' hins => exact .inr (.inl ⟨entry, h, hins⟩)
        · exact .inl rfl
  split
  · split
    · exact .inl rfl
    · split
      · exact .inl rfl
      · exact .inl rfl
  split
  · split
    · next hrem => exact .inr (.inr (by rw [hrem]))
    · exact .inl rfl
  split
  · split
    · exact .inl rfl
    · split
      · exact .inl rfl
      · exact .inl rfl
  · exact .inl rfl

/-- The number of bytes a read is answered with. -/
def readLen (e : Cpio.Entry) (offset want page : ℕ) : ℕ := min (min want (e.data.len - offset)) page

/-- **A read that is answered.** -/
theorem serve_read {buffer : List UInt8} (htag : r.msg.tag = tagRead)
    (he : t.get (r.msg.words.get 0) = some e) (hcap : r.msg.cap ≠ .null)
      (hb : r.buffer = some buffer) :
    let len := readLen e (r.msg.words.get 1).toNat (r.msg.words.get 2).toNat buffer.length
    ∃ left, serve archive t r = ⟨reply tagRead (.ofNat 64 len) left 0, t,
      some (write buffer ((e.data.bytes.drop (r.msg.words.get 1).toNat).take len))⟩ := by
  have hmap : r.map = some buffer := by rw [Request.map, if_neg hcap, hb]
  have hnot : ¬ (r.msg.tag = tagOpen ∨ r.msg.tag = tagStat) := by
    rw [htag]
    decide
  refine ⟨.ofNat 64 (e.data.len - (r.msg.words.get 1).toNat -
    readLen e (r.msg.words.get 1).toNat (r.msg.words.get 2).toNat buffer.length), ?_⟩
  rw [serve]
  simp only [if_neg hnot, if_pos htag, he, hmap, readLen]
  obtain hle | hle := Nat.le_total (r.msg.words.get 1).toNat e.data.len
  · rw [Nat.min_eq_left hle]
  · -- past the end there is nothing to drop
    have hnil : e.data.bytes.drop (r.msg.words.get 1).toNat = [] := List.drop_eq_nil_of_le hle
    have hnil' : e.data.bytes.drop e.data.len = [] := List.drop_eq_nil_of_le (Nat.le_refl _)
    rw [Nat.min_eq_right hle, Nat.sub_self, Nat.sub_eq_zero_of_le hle, hnil, hnil']

/-- A read of what the server cannot give. -/
theorem serve_read_refused (htag : r.msg.tag = tagRead)
    (hno : t.get (r.msg.words.get 0) = none ∨ r.map = none) :
    ∃ code, serve archive t r = ⟨refusal code, t, r.buffer⟩ := by
  have hnot : ¬ (r.msg.tag = tagOpen ∨ r.msg.tag = tagStat) := by
    rw [htag]
    decide
  rw [serve]
  simp only [if_neg hnot, if_pos htag]
  split
  · exact ⟨_, rfl⟩
  · next he =>
    rw [hno.resolve_left (by simp [he])]
    exact ⟨_, rfl⟩

/-- An open is refused, or makes a handle for a file of the archive. -/
theorem serve_open (htag : r.msg.tag = tagOpen) :
    (∃ code, serve archive t r = ⟨refusal code, t, r.buffer⟩) ∨
      ∃ e h t', lookup archive r = .ok e ∧ t.insert e = some (h, t') ∧
        serve archive t r = ⟨reply tagOpen h (.ofNat 64 e.data.len) 0, t', r.buffer⟩ := by
  have hstat : r.msg.tag ≠ tagStat := by
    rw [htag]
    decide
  rw [serve]
  simp only [if_pos (Or.inl htag : r.msg.tag = tagOpen ∨ r.msg.tag = tagStat), if_neg hstat]
  cases hlookup : lookup archive r with
  | error code => exact .inl ⟨code, rfl⟩
  | ok entry =>
    cases hins : t.insert entry with
    | none => exact .inl ⟨errBadHandle, by simp only [hins]⟩
    | some p => exact .inr ⟨entry, p.1, p.2, rfl, hins, by simp only [hins, htag]⟩

/-- A file is asked about by its path. -/
theorem serve_stat (htag : r.msg.tag = tagStat) : serve archive t r =
    match lookup archive r with
    | .error code => ⟨refusal code, t, r.buffer⟩
    | .ok entry => ⟨reply tagStat (.ofNat 64 entry.data.len) (entry.mode.setWidth 64) 0, t,
        r.buffer⟩ := by
  rw [serve]
  simp only [htag, or_true, if_true]

/-- A member is listed by its index. -/
theorem serve_list (htag : r.msg.tag = tagList) : serve archive t r =
    match r.map with
    | none => ⟨refusal errMalformed, t, r.buffer⟩
    | some buffer =>
      match (Cpio.members archive)[(r.msg.words.get 0).toNat]? with
      | none => ⟨refusal errNoFile, t, r.buffer⟩
      | some entry =>
        let len := min (min (utf8 entry.name).length maxPath) buffer.length
        ⟨reply tagList (.ofNat 64 len) (.ofNat 64 entry.data.len) (entry.mode.setWidth 64), t,
          some (write buffer ((utf8 entry.name).take len))⟩ := by
  have hopen : ¬ (r.msg.tag = tagOpen ∨ r.msg.tag = tagStat) := by
    rw [htag]
    decide
  have hread : r.msg.tag ≠ tagRead := by
    rw [htag]
    decide
  have hclose : r.msg.tag ≠ tagClose := by
    rw [htag]
    decide
  rw [serve]
  simp only [if_neg hopen, if_neg hread, if_neg hclose, if_pos htag]

/-- A close is refused, or takes its handle away. -/
theorem serve_close (htag : r.msg.tag = tagClose) :
    (serve archive t r).table = (t.remove (r.msg.words.get 0)).2 ∧
      ((serve archive t r).reply.tag = tagError ↔ t.get (r.msg.words.get 0) = none) := by
  have hnot : ¬ (r.msg.tag = tagOpen ∨ r.msg.tag = tagStat) := by
    rw [htag]
    decide
  have hread : r.msg.tag ≠ tagRead := by
    rw [htag]
    decide
  have hfst := Table.remove_fst (t := t) (r.msg.words.get 0)
  rw [serve]
  simp only [if_neg hnot, if_neg hread, if_pos htag]
  split
  · next t' hrem =>
    rw [hrem] at hfst ⊢
    obtain ⟨e, he⟩ := Option.isSome_iff_exists.mp hfst.symm
    rw [he, tag_reply]
    exact ⟨rfl, fun htag => absurd htag (by decide), nofun⟩
  · next t' hrem =>
    rw [hrem] at hfst
    have hnone : t.get (r.msg.words.get 0) = none :=
      Option.isNone_iff_eq_none.mp (Option.isSome_eq_false_iff.mp hfst.symm)
    refine ⟨?_, fun _ => hnone, fun _ => rfl⟩
    rw [Table.remove, hnone]

end

/-! ### The server over time -/

namespace Server

variable {s : Server} {r : Request} {sent : Bool} {h : BitVec 64} {e : Cpio.Entry}

/-- What holds of the server at any time. -/
structure Sound (s : Server) : Prop where
  fresh : s.table.Fresh s.served
  served : s.served ≤ maxRequests

theorem sound_start (archive : Slice) : (start archive).Sound :=
  ⟨Table.fresh_new, Nat.zero_le _⟩

theorem archive_turn (s : Server) (r : Request) (sent : Bool) :
    (s.turn r sent).2.archive = s.archive := by
  rw [turn]
  split
  · rfl
  split
  · rfl
  · rfl

/-- A turn changes nothing, or serves a request. -/
theorem table_turn (s : Server) (r : Request) (sent : Bool) :
    ((s.turn r sent).1 = none ∧ (s.turn r sent).2.table = s.table ∧
        (s.turn r sent).2.served = s.served) ∨
      (s.serving = true ∧ (s.turn r sent).1 = some (serve s.archive s.table r) ∧
        (s.turn r sent).2.table = (serve s.archive s.table r).table ∧
        (s.turn r sent).2.served = s.served + 1) := by
  rw [turn]
  split
  · exact .inl ⟨rfl, rfl, rfl⟩
  · next hserving =>
    split
    · exact .inl ⟨rfl, rfl, rfl⟩
    · exact .inr ⟨by simpa using hserving, rfl, rfl, rfl⟩

theorem served_lt (h : s.serving = true) : s.served < maxRequests := by
  simp only [serving, Bool.and_eq_true, decide_eq_true_eq] at h
  exact h.1.2

theorem Sound.turn (hs : s.Sound) (r : Request) (sent : Bool) : (s.turn r sent).2.Sound := by
  obtain ⟨-, htable, hserved⟩ | ⟨hserving, -, htable, hserved⟩ := table_turn s r sent
  · exact ⟨by rw [htable, hserved]; exact hs.fresh, by rw [hserved]; exact hs.served⟩
  · have hlt := served_lt hserving
    refine ⟨?_, by omega⟩
    rw [htable, hserved]
    obtain heq | ⟨e, h, hins⟩ | heq := serve_table s.archive s.table r
    · rw [heq]
      exact hs.fresh.mono (Nat.le_succ _)
    · refine hs.fresh.insert ?_ hins
      rw [maxRequests] at hlt
      omega
    · rw [heq]
      exact (hs.fresh.remove _).mono (Nat.le_succ _)

/-- A server that goes on serving has served the request. -/
theorem serving_turn (h : (s.turn r sent).2.serving = true) :
    s.serving = true ∧ (s.turn r sent).1 = some (serve s.archive s.table r) ∧
      (s.turn r sent).2.table = (serve s.archive s.table r).table := by
  rw [turn] at h ⊢
  split at h
  · next hno =>
    rw [h] at hno
    cases hno
  · next hserving =>
    rw [if_neg hserving]
    split at h
    · cases h
    · next htag =>
      rw [if_neg htag]
      exact ⟨by simpa using hserving, rfl, rfl⟩

/-- **A handle that was made is not made again**: a turn can only close it. -/
theorem Sound.get_turn (hs : s.Sound) (hi : s.table.Issued h) (r : Request) (sent : Bool) :
    (s.turn r sent).2.table.Issued h ∧
      ∀ e, (s.turn r sent).2.table.get h = some e → s.table.get h = some e := by
  obtain ⟨-, htable, -⟩ | ⟨hserving, -, htable, -⟩ := table_turn s r sent
  · rw [htable]
    exact ⟨hi, fun _ he => he⟩
  rw [htable]
  obtain heq | ⟨e₁, h₁, hins⟩ | heq := serve_table s.archive s.table r
  · rw [heq]
    exact ⟨hi, fun _ he => he⟩
  · have hlt := served_lt hserving
    have hnext := Table.nextGeneration_insert hs.fresh (by rw [maxRequests] at hlt; omega) hins
    obtain ⟨g, i, hg, rfl⟩ := hi
    refine ⟨⟨g, i, by omega, rfl⟩, fun e' he' => ?_⟩
    rw [Table.get_insert hins, if_neg] at he'
    · exact he'
    · -- the new handle is of this generation, and this one is older
      obtain ⟨j, -, rfl, -⟩ := Table.insert_eq_some hins
      intro hsame
      rw [(Table.handle_inj.mp hsame).1] at hg
      exact Nat.lt_irrefl _ hg
  · rw [heq]
    obtain ⟨g, i, hg, rfl⟩ := hi
    refine ⟨⟨g, i, ?_, rfl⟩, fun e' he' => ?_⟩
    · rwa [(Table.slots_remove _).1]
    rw [Table.get_remove] at he'
    split at he'
    · cases he'
    · exact he'

/-- A handle was made for a member: it names it as long as it names anything. -/
structure Knows (s : Server) (h : BitVec 64) (e : Cpio.Entry) : Prop where
  sound : s.Sound
  issued : s.table.Issued h
  names : ∀ e', s.table.get h = some e' → e' = e

/-- **A handle goes on naming what it was made for**, or nothing. -/
theorem Knows.turn (hk : s.Knows h e) (r : Request) (sent : Bool) :
    (s.turn r sent).2.Knows h e := by
  obtain ⟨hissued, hback⟩ := hk.sound.get_turn hk.issued r sent
  exact ⟨hk.sound.turn r sent, hissued, fun e' he' => hk.names e' (hback e' he')⟩

end Server

end FileServer

end StarOS
