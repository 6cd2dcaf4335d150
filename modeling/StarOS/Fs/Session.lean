import StarOS.Fs.Server

/-!
# The handles of the file server

Whatever clients send, with whatever words, a handle is good from the open that returned it to the
close that takes it away, and names the member that open named. A client that makes a handle up, or
keeps one too long, is refused.

The code checks its arithmetic and its indices. `serveChecked` is `serve` with every operation on an
integer and every access to a byte spelled out, as code that stops where one of them goes wrong.

## Main definitions

* `FileServer.Session` — a table and what has been asked of it
* `FileServer.serveChecked`

## Main results

* `FileServer.Session.Sound.next` — which handles are good
* `FileServer.serveChecked_eq` — nothing overflows, and no byte is written outside the buffer
* `FileServer.handles_exact`
-/

namespace StarOS

namespace FileServer

/-! ### The code, with its arithmetic checked -/

section

variable {σ ε : Type}

/-- Write a byte of the buffer. -/
def put (buffer : List UInt8) (i : ℕ) (b : UInt8) : Checked σ ε (List UInt8) :=
  if i < buffer.length then pure (buffer.set i b) else throw .bounds

/-- `for i in 0..n`, from `i` on: copy bytes of `data` from `offset` on into the buffer. -/
def copyLoop (data : List UInt8) (offset : ℕ) : ℕ → ℕ → List UInt8 → Checked σ ε (List UInt8)
  | 0, _, buffer => pure buffer
  | n + 1, i, buffer => do
    let byte ← Checked.index data (← Checked.add 64 offset i)
    copyLoop data offset n (i + 1) (← put buffer i byte)

/-- Take a free slot for an entry. -/
def Table.insertChecked (self : Table) (entry : Cpio.Entry) :
    Checked σ ε (Option (BitVec 64 × Table)) :=
  match (List.finRange maxOpen).find? (fun slot => (self.slots.get slot).isNone) with
  | none => pure none
  | some slot => do
    let generation := self.nextGeneration
    let next := generation + 1
    let low ← Checked.add 64 slot 1
    return some (generation.setWidth 64 <<< 8 ||| BitVec.ofNat 64 low,
      ⟨self.slots.set slot (some ⟨entry, generation⟩) slot.isLt,
        if next < 1 then 1 else next⟩)

/-- Close a handle. Answers whether it named anything. -/
def Table.removeChecked (self : Table) (handle : BitVec 64) : Checked σ ε (Bool × Table) :=
  match self.get handle with
  | none => pure (false, self)
  | some _ => do
    let slot ← Checked.sub (handle &&& 0xFF).toNat 1
    if h : slot < maxOpen then return (true, { self with slots := self.slots.set slot none })
    else throw .bounds

/-- Answer one request, and count the bytes of the files that went out. -/
def serveChecked (archive : Slice) (table : Table) (r : Request) (bytesOut : ℕ) :
    Checked σ ε (Answer × ℕ) :=
  let msg := r.msg
  let error code : Answer := ⟨refusal code, table, r.buffer⟩
  if msg.tag = tagOpen ∨ msg.tag = tagStat then
    match lookup archive r with
    | .error code => return (error code, bytesOut)
    | .ok entry =>
      let size := .ofNat 64 entry.data.len
      if msg.tag = tagStat then
        return (⟨reply msg.tag size (entry.mode.setWidth 64) 0, table, r.buffer⟩, bytesOut)
      else do
        match ← table.insertChecked entry with
        | some (handle, table) => return (⟨reply msg.tag handle size 0, table, r.buffer⟩, bytesOut)
        | none => return (error errBadHandle, bytesOut)
  else if msg.tag = tagRead then
    match table.get (msg.words.get 0) with
    | none => return (error errBadHandle, bytesOut)
    | some entry =>
      match r.map with
      | none => return (error errMalformed, bytesOut)
      | some buffer => do
        let offset := min (msg.words.get 1).toNat entry.data.len
        let available ← Checked.sub entry.data.len offset
        let len := min (min (msg.words.get 2).toNat available) buffer.length
        let buffer ← copyLoop entry.data.bytes offset len 0 buffer
        let bytesOut ← Checked.add 64 bytesOut len
        let left ← Checked.sub available len
        return (⟨reply tagRead (.ofNat 64 len) (.ofNat 64 left) 0, table, some buffer⟩, bytesOut)
  else if msg.tag = tagClose then do
    match ← table.removeChecked (msg.words.get 0) with
    | (true, table) => return (⟨reply tagClose 0 0 0, table, r.buffer⟩, bytesOut)
    | (false, _) => return (error errBadHandle, bytesOut)
  else if msg.tag = tagList then
    match r.map with
    | none => return (error errMalformed, bytesOut)
    | some buffer =>
      match (Cpio.members archive)[(msg.words.get 0).toNat]? with
      | none => return (error errNoFile, bytesOut)
      | some entry => do
        let name := utf8 entry.name
        let len := min (min name.length maxPath) buffer.length
        let buffer ← copyLoop name 0 len 0 buffer
        return (⟨reply tagList (.ofNat 64 len) (.ofNat 64 entry.data.len) (entry.mode.setWidth 64),
          table, some buffer⟩, bytesOut)
  else return (error errMalformed, bytesOut)

/-- How many bytes of a file an answer carries. -/
def Answer.bytes (a : Answer) : ℕ := if a.reply.tag = tagRead then (a.reply.words.get 0).toNat else
    0

variable {data buffer : List UInt8} {offset n i : ℕ}

/-- **A copy** stays in the data and in the buffer. -/
theorem copyLoop_eq (hbuffer : i + n ≤ buffer.length) (hdata : offset + (i + n) ≤ data.length)
    (hfits : data.length ≤ 2 ^ 64) : (copyLoop data offset n i buffer : Checked σ ε (List UInt8)) =
      pure (buffer.take i ++ (data.drop (offset + i)).take n ++ buffer.drop (i + n)) := by
  induction n generalizing i buffer with
  | zero =>
    rw [copyLoop, List.take_zero, List.append_nil, Nat.add_zero, List.take_append_drop]
  | succ n ih =>
    have hlt : offset + i < data.length := by omega
    have hset : i < buffer.length := by omega
    have hadd : (Checked.add 64 offset i : Checked σ ε ℕ) = pure (offset + i) :=
      if_pos (by omega)
    have hindex : (Checked.index data (offset + i) : Checked σ ε UInt8) =
        pure (data[offset + i]) := by
      rw [Checked.index, List.getElem?_eq_getElem hlt]
    have hput : (put buffer i data[offset + i] : Checked σ ε (List UInt8)) =
        pure (buffer.set i data[offset + i]) := if_pos hset
    rw [copyLoop, hadd, pure_bind, hindex, pure_bind, hput, pure_bind,
      ih (by rw [List.length_set]; omega) (by omega)]
    refine congrArg pure ?_
    rw [List.drop_eq_getElem_cons hlt, List.take_succ_cons, List.drop_set_of_lt (by omega)]
    have htake : (buffer.set i data[offset + i]).take (i + 1) =
        buffer.take i ++ [data[offset + i]] := by
      rw [List.take_set, List.take_succ_eq_append_getElem hset, List.set_append_right _ _ (by simp)]
      simp [Nat.min_eq_left (Nat.le_of_lt hset)]
    have hrest : i + 1 + n = i + (n + 1) := by omega
    rw [htake, hrest, ← Nat.add_assoc offset i 1]
    simp only [List.append_assoc, List.cons_append, List.nil_append]

/-- What is copied to the start of a buffer. -/
theorem copyLoop_write (hbuffer : n ≤ buffer.length) (hdata : offset + n ≤ data.length)
    (hfits : data.length ≤ 2 ^ 64) : (copyLoop data offset n 0 buffer : Checked σ ε (List UInt8)) =
      pure (write buffer ((data.drop offset).take n)) := by
  have hlen : ((data.drop offset).take n).length = n := by
    rw [List.length_take, List.length_drop]
    omega
  rw [copyLoop_eq (by omega) (by omega) hfits, List.take_zero, List.nil_append, Nat.add_zero,
    Nat.zero_add, write, hlen]

theorem Table.insertChecked_eq (t : Table) (e : Cpio.Entry) :
    (t.insertChecked e : Checked σ ε _) = pure (t.insert e) := by
  rw [insertChecked, insert]
  show (match (List.finRange maxOpen).find? (fun slot => t.slots[slot].isNone) with
    | none => pure none
    | some slot => _ : Checked σ ε _) = _
  cases (List.finRange maxOpen).find? (fun slot => t.slots[slot].isNone) with
  | none => rfl
  | some slot =>
    have hlt : (slot : ℕ) < 8 := slot.isLt
    have hadd : (Checked.add 64 (slot : ℕ) 1 : Checked σ ε ℕ) = pure ((slot : ℕ) + 1) :=
      if_pos (by omega)
    dsimp only
    rw [hadd, pure_bind]
    rfl

theorem Table.removeChecked_eq (t : Table) (h : BitVec 64) :
    (t.removeChecked h : Checked σ ε _) = pure (t.remove h) := by
  rw [removeChecked, remove]
  cases he : t.get h with
  | none => rfl
  | some e =>
    obtain ⟨i, f, -, -, rfl⟩ := get_eq_some.mp he
    have hi : (i : ℕ) < 8 := i.isLt
    have hslot : slot (handle f.generation i) = some i := by
      rw [slot_eq_some, toNat_handle]
      omega
    have hlow : (handle f.generation i &&& 0xFF).toNat = i + 1 := by
      rw [BitVec.toNat_and, toNat_handle]
      refine (Nat.and_two_pow_sub_one_eq_mod _ 8).trans ?_
      omega
    have hsub : (Checked.sub (handle f.generation i &&& 0xFF).toNat 1 : Checked σ ε ℕ) =
      pure ↑i := by
      rw [hlow]
      exact if_pos (Nat.le_add_left 1 i)
    rw [hslot]
    dsimp only
    rw [hsub, pure_bind, dif_pos i.isLt]

/-- **Nothing overflows**, no byte is read outside the data and none is written outside the buffer,
as long as the files are not so long that the count of what went out does. -/
theorem serveChecked_eq (archive : Slice) (t : Table) (r : Request) {bytesOut bound : ℕ}
    (hopen : ∀ h e, t.get h = some e → e.data.len ≤ bound) (hout : bytesOut + bound < 2 ^ 64) :
    (serveChecked archive t r bytesOut : Checked σ ε (Answer × ℕ)) =
      pure (serve archive t r, bytesOut + (serve archive t r).bytes) ∧
    (serve archive t r).bytes ≤ bound := by
  have hzero : ∀ code, (⟨refusal code, t, r.buffer⟩ : Answer).bytes = 0 := fun _ => rfl
  rw [serveChecked, serve]
  dsimp only
  split
  · next htag =>
    cases lookup archive r with
    | error code => exact ⟨rfl, Nat.zero_le _⟩
    | ok entry =>
      dsimp only
      split
      · next hstat =>
        rw [hstat]
        exact ⟨rfl, Nat.zero_le _⟩
      · next hstat =>
        rw [htag.resolve_right hstat, Table.insertChecked_eq, pure_bind]
        cases t.insert entry with
        | none => exact ⟨rfl, Nat.zero_le _⟩
        | some p => exact ⟨rfl, Nat.zero_le _⟩
  split
  · cases he : t.get (r.msg.words.get 0) with
    | none => exact ⟨rfl, Nat.zero_le _⟩
    | some entry =>
      dsimp only
      cases r.map with
      | none => exact ⟨rfl, Nat.zero_le _⟩
      | some buffer =>
        have hbound := hopen _ _ he
        have hfits := entry.data.len_lt
        dsimp only
        generalize hoffset : min (r.msg.words.get 1).toNat entry.data.len = offset
        generalize hlen : min (min (r.msg.words.get 2).toNat (entry.data.len - offset))
            buffer.length = len
        have hsub : (Checked.sub entry.data.len offset : Checked σ ε ℕ) =
            pure (entry.data.len - offset) := if_pos (by omega)
        have hadd : (Checked.add 64 bytesOut len : Checked σ ε ℕ) = pure (bytesOut + len) :=
          if_pos (by omega)
        have hleft : (Checked.sub (entry.data.len - offset) len : Checked σ ε ℕ) =
            pure (entry.data.len - offset - len) := if_pos (by omega)
        have hdata : offset + len ≤ entry.data.bytes.length := by
          rw [entry.data.length_bytes]
          omega
        have hbytes : (⟨reply tagRead (.ofNat 64 len) (.ofNat 64 (entry.data.len - offset - len)) 0,
          t,
            some (write buffer ((entry.data.bytes.drop offset).take len))⟩ : Answer).bytes =
                len := by
          rw [Answer.bytes, tag_reply, if_pos rfl, word_zero_reply, BitVec.toNat_ofNat]
          exact Nat.mod_eq_of_lt (by omega)
        rw [hsub, pure_bind, hlen, copyLoop_write (by omega) hdata
          (by rw [entry.data.length_bytes]; omega), pure_bind, hadd, pure_bind, hleft, pure_bind,
            hbytes]
        exact ⟨rfl, by omega⟩
  split
  · rw [Table.removeChecked_eq, pure_bind]
    cases t.remove (r.msg.words.get 0) with
    | mk found t' =>
      cases found with
      | true => exact ⟨rfl, Nat.zero_le _⟩
      | false => exact ⟨rfl, Nat.zero_le _⟩
  split
  · cases r.map with
    | none => exact ⟨rfl, Nat.zero_le _⟩
    | some buffer =>
      dsimp only
      cases hentry : (Cpio.members archive)[(r.msg.words.get 0).toNat]? with
      | none => exact ⟨rfl, Nat.zero_le _⟩
      | some entry =>
        have hname := (Cpio.partOf_of_mem_members (List.mem_of_getElem? hentry)).1.length_le
        have hfits := archive.len_lt
        rw [archive.length_bytes] at hname
        dsimp only
        rw [copyLoop_write (by omega) (by omega) (by omega), pure_bind, List.drop_zero]
        exact ⟨rfl, Nat.zero_le _⟩
  · exact ⟨rfl, Nat.zero_le _⟩

end

/-! ### The handles -/

/-- A table, and what it was asked: the handles that opens have returned, with the members they were
for, those that have been closed, and how many bytes of files went out. -/
structure Session where
  table : Table
  opened : List (BitVec 64 × Cpio.Entry)
  closed : List (BitVec 64)
  bytesOut : ℕ

namespace Session

def start : Session := ⟨.new, [], [], 0⟩

/-- One more request. -/
def next (archive : Slice) (s : Session) (r : Request) : Session :=
  let a := serve archive s.table r
  { table := a.table
    opened := s.opened ++
      if r.msg.tag = tagOpen ∧ a.reply.tag ≠ tagError then
        match lookup archive r with
        | .ok entry => [(a.reply.words.get 0, entry)]
        | .error _ => []
      else []
    closed := s.closed ++
      if r.msg.tag = tagClose ∧ a.reply.tag ≠ tagError then [r.msg.words.get 0] else []
    bytesOut := s.bytesOut + a.bytes }

/-- Any requests, from the start. -/
def run (archive : Slice) (rs : List Request) : Session := rs.foldl (next archive) start

end Session

/-- Whether a request is an open. -/
def Request.isOpen (r : Request) : Bool := r.msg.tag = tagOpen

section

variable (archive : Slice) {t : Table} {r : Request} {s : Session} {n : ℕ}

/-- Only an open and a close change the table. -/
theorem serve_other (hopen : r.msg.tag ≠ tagOpen) (hclose : r.msg.tag ≠ tagClose) :
    (serve archive t r).table = t := by
  rw [serve]
  dsimp only
  split
  · next htag =>
    cases lookup archive r with
    | error code => rfl
    | ok entry =>
      dsimp only
      rw [if_pos (htag.resolve_left hopen)]
  split
  · cases t.get (r.msg.words.get 0) with
    | none => rfl
    | some entry => cases r.map <;> rfl
  split
  · cases r.map with
    | none => rfl
    | some buffer =>
      dsimp only
      cases (Cpio.members archive)[(r.msg.words.get 0).toNat]? <;> rfl
  · rfl

/-- A refusal leaves the table as it was. -/
theorem serve_refused (h : (serve archive t r).reply.tag = tagError) :
    (serve archive t r).table = t := by
  by_cases hopen : r.msg.tag = tagOpen
  · obtain ⟨code, hserve⟩ | ⟨e, handle, t', -, -, hserve⟩ := serve_open archive (t := t) hopen
    · rw [hserve]
    · rw [hserve] at h
      exact absurd (show tagOpen = tagError from h) (by decide)
  by_cases hclose : r.msg.tag = tagClose
  · obtain ⟨htable, htag⟩ := serve_close archive (t := t) hclose
    rw [htable, Table.remove, htag.mp h]
  · exact serve_other archive hopen hclose

theorem length_write {buffer data : List UInt8} (h : data.length ≤ buffer.length) :
    (write buffer data).length = buffer.length := by
  rw [write, List.length_append, List.length_drop]
  omega

/-- The buffer is as long as it was. -/
theorem serve_buffer :
    (serve archive t r).buffer.map List.length = r.buffer.map List.length := by
  have hmap : ∀ buffer data, r.map = some buffer → data.length ≤ buffer.length →
      (some (write buffer data)).map List.length = r.buffer.map List.length := by
    intro buffer data hmap hlen
    rw [Request.map] at hmap
    obtain ⟨-, hbuffer⟩ := Option.ite_none_left_eq_some.mp hmap
    rw [hbuffer, Option.map_some, Option.map_some, length_write hlen]
  rw [serve]
  dsimp only
  split
  · cases lookup archive r with
    | error code => rfl
    | ok entry =>
      dsimp only
      split
      · rfl
      · cases t.insert entry <;> rfl
  split
  · cases t.get (r.msg.words.get 0) with
    | none => rfl
    | some entry =>
      cases hb : r.map with
      | none => rfl
      | some buffer =>
        refine hmap buffer _ hb ?_
        rw [List.length_take]
        omega
  split
  · cases t.remove (r.msg.words.get 0) with
    | mk found t' => cases found <;> rfl
  split
  · cases hb : r.map with
    | none => rfl
    | some buffer =>
      dsimp only
      cases (Cpio.members archive)[(r.msg.words.get 0).toNat]? with
      | none => rfl
      | some entry =>
        refine hmap buffer _ hb ?_
        rw [List.length_take]
        omega
  · rfl

/-- What holds of a session after at most `n` opens. -/
structure Session.Sound (archive : Slice) (s : Session) (n : ℕ) : Prop where
  fresh : s.table.Fresh n
  /-- A handle is good from its open to its close. -/
  good : ∀ h e, s.table.get h = some e ↔ (h, e) ∈ s.opened ∧ h ∉ s.closed
  nodup : (s.opened.map Prod.fst).Nodup
  issued : ∀ p ∈ s.opened, s.table.Issued p.1
  closed : ∀ h ∈ s.closed, s.table.Issued h
  members : ∀ p ∈ s.opened, p.2 ∈ Cpio.members archive

theorem mem_of_lookup {e : Cpio.Entry} (h : lookup archive r = .ok e) :
    e ∈ Cpio.members archive := by
  rw [lookup] at h
  split at h
  · cases h
  split at h
  · cases h
  split at h
  · cases h
  · next hfind =>
    cases h
    rw [find] at hfind
    exact List.mem_of_find?_eq_some (Option.filter_eq_some_iff.mp hfind).1

theorem Session.sound_start : start.Sound archive 0 := by
  refine ⟨Table.fresh_new, fun h e => ⟨fun he => ?_, fun he => ?_⟩, List.nodup_nil, nofun, nofun,
    nofun⟩
  · obtain ⟨i, f, hf, -⟩ := Table.get_eq_some.mp he
    simp [start, Table.new] at hf
  · exact absurd he.1 List.not_mem_nil

variable {archive}

/-- A handle made before is not the one an open makes. -/
theorem Session.Sound.ne_of_insert {e : Cpio.Entry} {h h' : BitVec 64} {t' : Table}
    (hins : s.table.insert e = some (h, t')) (hi : s.table.Issued h') : h' ≠ h := by
  obtain ⟨j, -, rfl, -⟩ := Table.insert_eq_some hins
  obtain ⟨g, i, hg, rfl⟩ := hi
  intro hsame
  rw [(Table.handle_inj.mp hsame).1] at hg
  exact Nat.lt_irrefl _ hg

theorem Session.Sound.open {e : Cpio.Entry} {h : BitVec 64} {t' : Table} (hs : s.Sound archive n)
    (hn : n + 2 < 2 ^ 32) (hins : s.table.insert e = some (h, t')) (he : e ∈ Cpio.members archive)
    (out : ℕ) : Session.Sound archive ⟨t', s.opened ++ [(h, e)], s.closed, out⟩ (n + 1) := by
  have hnext := Table.nextGeneration_insert hs.fresh hn hins
  have hissued : ∀ h', s.table.Issued h' → t'.Issued h' := by
    rintro h' ⟨g, i, hg, rfl⟩
    exact ⟨g, i, by omega, rfl⟩
  have hself : t'.Issued h := by
    obtain ⟨j, -, rfl, -⟩ := Table.insert_eq_some hins
    exact ⟨_, j, by omega, rfl⟩
  have hnew : h ∉ s.opened.map Prod.fst := by
    intro hmem
    obtain ⟨p, hp, rfl⟩ := List.mem_map.mp hmem
    exact ne_of_insert hins (hs.issued p hp) rfl
  have hopen : h ∉ s.closed := fun hmem => ne_of_insert hins (hs.closed h hmem) rfl
  refine ⟨hs.fresh.insert hn hins, fun h' e' => ?_, ?_, fun p hp => ?_, fun h' hh => ?_,
    fun p hp => ?_⟩
  · show t'.get h' = some e' ↔ (h', e') ∈ s.opened ++ [(h, e)] ∧ h' ∉ s.closed
    rw [Table.get_insert hins, List.mem_append, List.mem_singleton, Prod.mk.injEq]
    split
    · next heq =>
      subst heq
      have hnot : (h', e') ∉ s.opened := fun hmem => hnew (List.mem_map.mpr ⟨_, hmem, rfl⟩)
      rw [Option.some.injEq]
      exact ⟨fun heq => ⟨.inr ⟨rfl, heq.symm⟩, hopen⟩, fun hor => (hor.1.resolve_left hnot).2.symm⟩
    · next hne =>
      rw [hs.good]
      exact and_congr_left fun _ => ⟨.inl, fun hor => hor.resolve_right fun heq => hne heq.1⟩
  · rw [List.map_append]
    refine List.nodup_append.mpr ⟨hs.nodup, List.nodup_singleton _, fun a ha b hb hab => ?_⟩
    obtain rfl := List.mem_singleton.mp hb
    exact hnew (hab ▸ ha)
  · obtain hp | hp := List.mem_append.mp hp
    · exact hissued _ (hs.issued p hp)
    · obtain rfl := List.mem_singleton.mp hp
      exact hself
  · exact hissued _ (hs.closed h' hh)
  · obtain hp | hp := List.mem_append.mp hp
    · exact hs.members p hp
    · obtain rfl := List.mem_singleton.mp hp
      exact he

theorem Session.Sound.close {e : Cpio.Entry} {h : BitVec 64} (hs : s.Sound archive n)
    (he : s.table.get h = some e) (out : ℕ) :
    Session.Sound archive ⟨(s.table.remove h).2, s.opened, s.closed ++ [h], out⟩ n := by
  have hissued : ∀ h', s.table.Issued h' → (s.table.remove h).2.Issued h' := by
    rintro h' ⟨g, i, hg, rfl⟩
    exact ⟨g, i, by rwa [(Table.slots_remove _).1], rfl⟩
  refine ⟨hs.fresh.remove h, fun h' e' => ?_, hs.nodup, fun p hp => hissued _ (hs.issued p hp),
    fun h' hh => ?_, hs.members⟩
  · show (s.table.remove h).2.get h' = some e' ↔ (h', e') ∈ s.opened ∧ h' ∉ s.closed ++ [h]
    rw [Table.get_remove, List.mem_append, List.mem_singleton, not_or]
    split
    · next heq => exact ⟨nofun, fun hand => absurd heq hand.2.2⟩
    · next hne =>
      rw [hs.good]
      exact and_congr_right fun _ => (and_iff_left hne).symm
  · obtain hh | hh := List.mem_append.mp hh
    · exact hissued _ (hs.closed h' hh)
    · obtain rfl := List.mem_singleton.mp hh
      exact hissued _ (hs.fresh.issued he)

theorem Session.Sound.same (hs : s.Sound archive n) (out : ℕ) {m : ℕ} (hle : n ≤ m) :
    Session.Sound archive ⟨s.table, s.opened, s.closed, out⟩ m :=
  ⟨hs.fresh.mono hle, hs.good, hs.nodup, hs.issued, hs.closed, hs.members⟩

/-- **One request** keeps the handles good. -/
theorem Session.Sound.next (hs : s.Sound archive n) (r : Request)
    (hn : r.isOpen = true → n + 2 < 2 ^ 32) :
    (s.next archive r).Sound archive (n + if r.isOpen then 1 else 0) := by
  have hcount : (if r.isOpen then 1 else 0) = if r.msg.tag = tagOpen then 1 else 0 := by
    simp only [Request.isOpen, decide_eq_true_eq]
  rw [hcount, Session.next]
  by_cases hopen : r.msg.tag = tagOpen
  · have hclose : ¬ (r.msg.tag = tagClose ∧ (serve archive s.table r).reply.tag ≠ tagError) := by
      rw [hopen]
      exact fun h => absurd h.1 (by decide)
    rw [if_pos hopen, if_neg hclose, List.append_nil]
    obtain ⟨code, hserve⟩ | ⟨e, h, t', hlookup, hins, hserve⟩ :=
      serve_open archive (t := s.table) hopen
    · rw [hserve, if_neg fun h => h.2 rfl, List.append_nil]
      exact hs.same _ (Nat.le_succ n)
    · have hok : r.msg.tag = tagOpen ∧ (serve archive s.table r).reply.tag ≠ tagError := by
        refine ⟨hopen, ?_⟩
        rw [hserve]
        show tagOpen ≠ tagError
        decide
      rw [if_pos hok, hserve, hlookup]
      exact hs.open (hn (decide_eq_true hopen)) hins (mem_of_lookup archive hlookup) _
  · have hno : ¬ (r.msg.tag = tagOpen ∧ (serve archive s.table r).reply.tag ≠ tagError) :=
      fun h => hopen h.1
    rw [if_neg hopen, if_neg hno, List.append_nil, Nat.add_zero]
    by_cases hclose : r.msg.tag = tagClose
    · obtain ⟨htable, htag⟩ := serve_close archive (t := s.table) hclose
      rw [htable]
      cases he : s.table.get (r.msg.words.get 0) with
      | none =>
        rw [if_neg fun h => h.2 (htag.mpr he), List.append_nil, Table.remove, he]
        exact hs.same _ (Nat.le_refl n)
      | some e =>
        have hok : (serve archive s.table r).reply.tag ≠ tagError := fun h => by
          rw [htag.mp h] at he
          cases he
        rw [if_pos ⟨hclose, hok⟩]
        exact hs.close he _
    · rw [serve_other archive hopen hclose, if_neg fun h => hclose h.1, List.append_nil]
      exact hs.same _ (Nat.le_refl n)

end

section

variable {archive : Slice} {r : Request} {s : Session} {n : ℕ}

/-! ### Whatever is asked -/

/-- What the answer to a request may do, after what has been asked before. -/
structure Session.Exact (archive : Slice) (s : Session) (r : Request) : Prop where
  /-- A handle that is read or closed was returned by an open, and has not been closed. -/
  handle : r.msg.tag = tagRead ∨ r.msg.tag = tagClose →
    (serve archive s.table r).reply.tag ≠ tagError →
      ∃ e, (r.msg.words.get 0, e) ∈ s.opened ∧ r.msg.words.get 0 ∉ s.closed
  /-- A read carries the bytes of the member the handle was opened for. -/
  read : ∀ e, (r.msg.words.get 0, e) ∈ s.opened → r.msg.tag = tagRead →
    (serve archive s.table r).reply.tag ≠ tagError → ∃ buffer, r.buffer = some buffer ∧
      let len := readLen e (r.msg.words.get 1).toNat (r.msg.words.get 2).toNat buffer.length
      (serve archive s.table r).reply.words.get 0 = .ofNat 64 len ∧
        (serve archive s.table r).buffer =
          some (write buffer ((e.data.bytes.drop (r.msg.words.get 1).toNat).take len))
  /-- A close frees one entry. -/
  close : r.msg.tag = tagClose → (serve archive s.table r).reply.tag ≠ tagError →
    ∃ (i : Fin maxOpen) (f : Open), s.table.slots.get i = some f ∧
      r.msg.words.get 0 = Table.handle f.generation i ∧ ∀ j : Fin maxOpen,
        (serve archive s.table r).table.slots.get j = if i = j then none else s.table.slots.get j
  refused : (serve archive s.table r).reply.tag = tagError →
    (serve archive s.table r).table = s.table
  buffer : (serve archive s.table r).buffer.map List.length = r.buffer.map List.length

theorem Session.Sound.exact (hs : s.Sound archive n) (r : Request) : s.Exact archive r := by
  have hread : r.msg.tag = tagRead → (serve archive s.table r).reply.tag ≠ tagError →
      ∃ e, s.table.get (r.msg.words.get 0) = some e ∧ r.map ≠ none := by
    intro htag hok
    cases he : s.table.get (r.msg.words.get 0) with
    | none =>
      obtain ⟨code, hserve⟩ := serve_read_refused archive (t := s.table) htag (.inl he)
      rw [hserve] at hok
      exact absurd rfl hok
    | some e =>
      refine ⟨e, rfl, fun hnone => ?_⟩
      obtain ⟨code, hserve⟩ := serve_read_refused archive (t := s.table) htag (.inr hnone)
      rw [hserve] at hok
      exact hok rfl
  have hclose : r.msg.tag = tagClose → (serve archive s.table r).reply.tag ≠ tagError →
      ∃ e, s.table.get (r.msg.words.get 0) = some e := fun htag hok =>
    Option.ne_none_iff_exists'.mp fun hnone =>
      hok ((serve_close archive (t := s.table) htag).2.mpr hnone)
  refine ⟨fun htag hok => ?_, fun e he htag hok => ?_, fun htag hok => ?_, serve_refused archive,
    serve_buffer archive⟩
  · obtain ⟨e, he⟩ : ∃ e, s.table.get (r.msg.words.get 0) = some e := by
      obtain htag | htag := htag
      · obtain ⟨e, he, -⟩ := hread htag hok
        exact ⟨e, he⟩
      · exact hclose htag hok
    exact ⟨e, (hs.good _ e).mp he⟩
  · obtain ⟨e', he', hmap⟩ := hread htag hok
    obtain ⟨hopened, -⟩ := (hs.good _ e').mp he'
    obtain rfl : e' = e :=
      congrArg Prod.snd (List.inj_on_of_nodup_map hs.nodup hopened he rfl)
    rw [Request.map] at hmap
    have hcap : r.msg.cap ≠ .null := fun hnull => hmap (if_pos hnull)
    rw [if_neg hcap] at hmap
    obtain ⟨buffer, hbuffer⟩ := Option.ne_none_iff_exists'.mp hmap
    obtain ⟨left, hserve⟩ := serve_read archive htag he' hcap hbuffer
    refine ⟨buffer, hbuffer, ?_⟩
    rw [hserve]
    exact ⟨rfl, rfl⟩
  · obtain ⟨e, he⟩ := hclose htag hok
    obtain ⟨i, f, hf, -, hhandle⟩ := Table.get_eq_some.mp he
    refine ⟨i, f, hf, hhandle, fun j => ?_⟩
    have hi : (i : ℕ) < 8 := i.isLt
    have hslot : Table.slot (r.msg.words.get 0) = some i := by
      rw [hhandle, Table.slot_eq_some, Table.toNat_handle]
      omega
    rw [(serve_close archive (t := s.table) htag).1]
    refine ((Table.slots_remove _).2 j).trans ?_
    rw [he, hslot, Option.isSome_some]
    refine if_congr ?_ rfl rfl
    rw [eq_self_iff_true, true_and, Option.some.injEq]

theorem Session.Sound.len_le (hs : s.Sound archive n) (h : BitVec 64) (e : Cpio.Entry)
    (he : s.table.get h = some e) : e.data.len ≤ archive.len :=
  (Cpio.partOf_of_mem_members (hs.members (h, e) ((hs.good h e).mp he).1)).len_le

theorem Session.run_snoc (archive : Slice) (rs : List Request) (r : Request) :
    run archive (rs ++ [r]) = (run archive rs).next archive r := List.foldl_concat ..

/-- Handles stay good, over any requests. -/
theorem Session.sound_run (rs : List Request) (hopens : rs.countP Request.isOpen < 2 ^ 32 - 1) :
    (run archive rs).Sound archive (rs.countP Request.isOpen) ∧
      (run archive rs).bytesOut ≤ rs.length * archive.len := by
  induction rs using List.reverseRecOn with
  | nil => exact ⟨sound_start archive, Nat.zero_le _⟩
  | append_singleton rs r ih =>
    rw [List.countP_append, List.countP_singleton] at hopens ⊢
    obtain ⟨hs, hout⟩ := ih (by omega)
    have hfits := archive.len_lt
    have hbytes : (serve archive (run archive rs).table r).bytes ≤ archive.len :=
      (serveChecked_eq archive _ r hs.len_le (by omega) :
        (serveChecked archive (run archive rs).table r 0 : Checked Unit Empty _) = _ ∧ _).2
    rw [run_snoc, List.length_append, List.length_singleton, Nat.add_mul, Nat.one_mul]
    refine ⟨hs.next r fun hopen => ?_, Nat.add_le_add hout hbytes⟩
    rw [if_pos hopen] at hopens
    omega

/-- **Handles are exact.** For any requests, with fewer than `2 ^ 32 - 1` opens among them, the
handles returned are distinct and the next answer does what it may and no more. The server answers
no more than `maxRequests`, from an archive shorter than `2 ^ 32`, and there nothing overflows. -/
theorem handles_exact (archive : Slice) (rs : List Request) (r : Request)
    (hopens : (rs ++ [r]).countP Request.isOpen < 2 ^ 32 - 1) :
    ((Session.run archive (rs ++ [r])).opened.map Prod.fst).Nodup ∧
      (Session.run archive rs).Exact archive r ∧
      (rs.length < maxRequests → archive.len < 2 ^ 32 →
        (serveChecked archive (Session.run archive rs).table r (Session.run archive rs).bytesOut :
          Checked Unit Empty (Answer × ℕ)) =
        pure (serve archive (Session.run archive rs).table r,
          (Session.run archive (rs ++ [r])).bytesOut)) := by
  have hbefore : rs.countP Request.isOpen < 2 ^ 32 - 1 := by
    rw [List.countP_append] at hopens
    omega
  have hafter : (Session.run archive (rs ++ [r])).Sound archive _ := (Session.sound_run _ hopens).1
  obtain ⟨hs, hout⟩ : (Session.run archive rs).Sound archive _ ∧ _ := Session.sound_run rs hbefore
  refine ⟨hafter.nodup, hs.exact r, fun hrequests hfits => ?_⟩
  have hbound : rs.length * archive.len ≤ maxRequests * 2 ^ 32 :=
    Nat.mul_le_mul (Nat.le_of_lt hrequests) (Nat.le_of_lt hfits)
  have hsmall : maxRequests * 2 ^ 32 + 2 ^ 32 < 2 ^ 64 := by decide
  rw [Session.run_snoc]
  exact (serveChecked_eq archive _ r hs.len_le (by omega)).1

/-- An archive of one file. -/
def oneFile : Slice :=
  ⟨Cpio.pushEntry [] ⟨"a", 0o100644, ⟨[1, 2, 3, 4], by decide⟩⟩, by decide +kernel⟩

/-- Open it, read it from the second byte on, and close it. -/
def openIt : Request := ⟨⟨tagOpen, Message.three 1 0 0, 1⟩, some [97]⟩
def readIt : Request := ⟨⟨tagRead, Message.three 0x101 1 8, 1⟩, some [0, 0]⟩
def closeIt : Request := ⟨⟨tagClose, Message.three 0x101 0 0, 0⟩, none⟩

/-- A handle is good from the open to the close, and refused after that. -/
theorem handles_exact_life :
    (∃ e, (readIt.msg.words.get 0, e) ∈ (Session.run oneFile [openIt]).opened ∧
      (serve oneFile (Session.run oneFile [openIt]).table readIt).buffer =
        some (write [0, 0] ((e.data.bytes.drop 1).take (readLen e 1 8 2)))) ∧
    (∃ i f, (Session.run oneFile [openIt, readIt]).table.slots.get i = some f ∧
      closeIt.msg.words.get 0 = Table.handle f.generation i) ∧
    (serve oneFile (Session.run oneFile [openIt, readIt, closeIt]).table readIt).reply.tag =
      tagError := by
  refine ⟨?_, ?_, ?_⟩
  · have hok : (serve oneFile (Session.run oneFile [openIt]).table readIt).reply.tag ≠ tagError := by
      decide +kernel
    obtain ⟨-, hexact, -⟩ := handles_exact oneFile [openIt] readIt (by decide)
    obtain ⟨e, he, -⟩ := hexact.handle (.inl rfl) hok
    obtain ⟨buffer, hbuffer, -, hread⟩ := hexact.read e he rfl hok
    obtain rfl : [0, 0] = buffer := Option.some.inj hbuffer
    exact ⟨e, he, hread⟩
  · have hok : (serve oneFile (Session.run oneFile [openIt, readIt]).table closeIt).reply.tag ≠
        tagError := by decide +kernel
    obtain ⟨-, hexact, -⟩ := handles_exact oneFile [openIt, readIt] closeIt (by decide)
    obtain ⟨i, f, hf, hhandle, -⟩ := hexact.close rfl hok
    exact ⟨i, f, hf, hhandle⟩
  · by_contra hok
    have hclosed : readIt.msg.words.get 0 ∈
        (Session.run oneFile [openIt, readIt, closeIt]).closed := by decide +kernel
    obtain ⟨-, hexact, -⟩ := handles_exact oneFile [openIt, readIt, closeIt] readIt (by decide)
    obtain ⟨e, -, hopen⟩ := hexact.handle (.inl rfl) hok
    exact hopen hclosed

end

end FileServer

end StarOS
