import StarOS.Libc.File

/-!
# Reading a file

A read is a loop of requests, each for at most a page. A request that is answered gives the bytes at
its offset, as many as fit in the page and are there. The server may not answer: a message is lost,
the server has stopped, it cannot map the page, or somebody has closed the handle. Then the loop
ends as it does at the end of the file, and if nothing was read by then the caller cannot tell the
two apart.

## Main definitions

* `Files.Link.Answers`, `Files.Link.AnswersAll` — the requests that are answered
* `Files.Process.Has` — a descriptor names a file
* `Files.Process.ReadsRight` — what a read should come to

## Main results

* `Files.readLoop_spec`, `Files.seek_spec`, `Files.openFile_spec`
* `Files.file_reads` — when a read is right
-/

namespace StarOS

namespace Files

open FileServer (Request Server)

variable {l : Link} {h : BitVec 64} {e : Cpio.Entry} {p : Process} {n : ℕ}

/-! ### One request -/

/-- The next request is answered, if it is a read of this handle. -/
structure Link.Answers (l : Link) (h : BitVec 64) : Prop where
  arrives : (l.turns 0).arrives = true
  maps : (l.turns 0).maps = true
  replies : (l.turns 0).replies = true
  hears : (l.turns 0).hears = true
  serving : l.before.serving = true
  opened : (l.before.table.get h).isSome = true

instance (l : Link) (h : BitVec 64) : Decidable (l.Answers h) :=
  decidable_of_iff ((l.turns 0).arrives = true ∧ (l.turns 0).maps = true ∧
      (l.turns 0).replies = true ∧
    (l.turns 0).hears = true ∧ l.before.serving = true ∧ (l.before.table.get h).isSome = true)
    ⟨fun ⟨a, b, c, d, f, g⟩ => ⟨a, b, c, d, f, g⟩, fun ⟨a, b, c, d, f, g⟩ => ⟨a, b, c, d, f, g⟩⟩

/-- The link after a read that was answered. -/
def Link.next (l : Link) : Link :=
  ⟨{ l.before with served := l.before.served + 1, gone := false }, l.later⟩

/-- The next `k` requests are answered, if they are reads of this handle. -/
def Link.AnswersAll (h : BitVec 64) : ℕ → Link → Prop
  | 0, _ => True
  | k + 1, l => l.Answers h ∧ l.next.AnswersAll h k

theorem Link.knows_before (hk : l.server.Knows h e) : l.before.Knows h e := by
  rw [Link.before]
  generalize (l.turns 0).others = others
  generalize l.server = s at hk
  induction others generalizing s with
  | nil => exact hk
  | cons r others ih => exact ih _ (hk.turn r.1 r.2)

/-- Whatever is asked, a handle goes on naming its file or nothing. -/
theorem Link.knows_request (hk : l.server.Knows h e) (msg : Message) (page : List UInt8) :
    (l.request msg page).2.2.server.Knows h e := by
  have hbefore := Link.knows_before hk
  rw [Link.request]
  split
  · have hturn := hbefore.turn ⟨msg, if (l.turns 0).maps then some page else none⟩
      (l.turns 0).replies
    split
    · next hr =>
      rw [hr] at hturn
      exact hturn
    · next hr =>
      rw [hr] at hturn
      exact hturn
  · exact hbefore

/-- The message of a read. -/
def readMessage (h offset want : BitVec 64) (page : Page) : Message :=
  ⟨FileServer.tagRead, Message.three h offset want, page.cap⟩

theorem Page.filled_write {page : Page} {data : List UInt8} (h : data.length ≤ pageSize) :
    (page.filled (FileServer.write page.bytes data)).bytes = data ++ page.bytes.drop
      data.length := by
  rw [filled, dif_pos]
  · rfl
  · rw [FileServer.write, List.length_append, List.length_drop, page.length]
    omega

/-- **A read that is answered** gives the bytes at its offset. -/
theorem Link.request_of_answers (offset want : BitVec 64) (page : Page) (hk : l.server.Knows h e)
    (hans : l.Answers h) :
    let len := FileServer.readLen e offset.toNat want.toNat pageSize
    ∃ left, l.request (readMessage h offset want page) page.bytes =
      (some (FileServer.reply FileServer.tagRead (.ofNat 64 len) left 0),
        FileServer.write page.bytes ((e.data.bytes.drop offset.toNat).take len), l.next) := by
  obtain ⟨e', he'⟩ := Option.isSome_iff_exists.mp hans.opened
  obtain rfl := (Link.knows_before hk).names e' he'
  obtain ⟨left, hserve⟩ := FileServer.serve_read l.before.archive (t := l.before.table)
    (r := ⟨readMessage h offset want page, some page.bytes⟩) rfl he' page.cap_ne rfl
  refine ⟨left, ?_⟩
  have hserving : (!l.before.serving) = false := by rw [hans.serving]; rfl
  have hbye : (readMessage h offset want page).tag ≠ FileServer.tagBye :=
    (by decide : FileServer.tagRead ≠ FileServer.tagBye)
  simp only [page.length] at hserve
  simp only [Link.request, hans.arrives, hans.maps, if_true, Server.turn, hserving,
    Bool.false_eq_true, if_false, hbye, hserve, hans.replies, hans.hears]
  rfl

/-- A read that is not answered gives nothing, or a refusal. -/
theorem Link.request_of_not_answers (offset want : BitVec 64) (page : Page) (hno : ¬ l.Answers h)
    (reply : Message) (hr : (l.request (readMessage h offset want page) page.bytes).1 =
      some reply) :
    reply.tag = FileServer.tagError := by
  rw [Link.request] at hr
  split at hr
  · next harrives =>
    split at hr
    · next a s' hturn =>
      split at hr
      · next hboth =>
        rw [Bool.and_eq_true] at hboth
        obtain ⟨hsome, -⟩ | ⟨hserving, hserve, -⟩ := Server.table_turn l.before
          ⟨readMessage h offset want page, if (l.turns 0).maps then some page.bytes else none⟩
          (l.turns 0).replies
        · rw [hturn] at hsome
          cases hsome
        rw [hturn] at hserve
        rw [← Option.some.inj hr, Option.some.inj hserve]
        refine (FileServer.serve_read_refused l.before.archive rfl ?_).elim
          fun code hcode => by rw [hcode]; rfl
        -- the server refuses what it could not map, and what it does not name
        by_cases hmaps : (l.turns 0).maps = true
        · refine .inl (by_contra fun hopen => hno ?_)
          exact ⟨harrives, hmaps, hboth.1, hboth.2, hserving, Option.isSome_iff_ne_none.mpr hopen⟩
        · right
          rw [Request.map]
          exact (if_neg page.cap_ne).trans (if_neg hmaps)
      · cases hr
    · cases hr
  · cases hr

/-! ### The loop -/

/-- What the read loop relies on: the process has the page, and the handle is the file's. -/
structure Process.Serves (p : Process) (h : BitVec 64) (e : Cpio.Entry) : Prop where
  page : p.page ≠ none
  knows : p.link.server.Knows h e

/-- A read of up to a page, if it is answered. -/
theorem request_of_answers (hp : p.Serves h e) (hans : p.link.Answers h) (offset : BitVec 64)
    (want : ℕ) (hwant : want ≤ pageSize) :
    let data := (e.data.bytes.drop offset.toNat).take want
    ∃ reply p', request FileServer.tagRead h offset (.ofNat 64 want) true p = (some reply, p') ∧
      reply.tag ≠ FileServer.tagError ∧ (reply.words.get 0).toNat = data.length ∧
      (p'.page.elim [] Page.bytes).take data.length = data ∧ p'.fds = p.fds ∧
        p'.link = p.link.next ∧
      p'.Serves h e := by
  intro data
  obtain ⟨page, hpage⟩ := Option.ne_none_iff_exists'.mp hp.page
  have hwant' : (BitVec.ofNat 64 want).toNat = want := by
    rw [BitVec.toNat_ofNat]
    exact Nat.mod_eq_of_lt (Nat.lt_of_le_of_lt hwant (by decide))
  have hlen : FileServer.readLen e offset.toNat want pageSize = data.length := by
    rw [FileServer.readLen, List.length_take, List.length_drop, Slice.length_bytes]
    omega
  have hdata : (e.data.bytes.drop offset.toNat).take data.length = data := by
    rw [List.length_take, ← List.take_take, List.take_length]
  obtain ⟨left, hreq⟩ := Link.request_of_answers offset (.ofNat 64 want) page hp.knows hans
  rw [hwant', hlen, hdata] at hreq
  have hfits : data.length ≤ pageSize := by
    rw [List.length_take]
    omega
  refine ⟨FileServer.reply FileServer.tagRead (.ofNat 64 data.length) left 0,
    ⟨p.fds, some (page.filled (FileServer.write page.bytes data)), p.link.next⟩, ?_, ?_, ?_, ?_,
        rfl,
    rfl, ?_⟩
  · rw [readMessage] at hreq
    simp only [request, hpage, if_true, hreq]
  · exact (by decide : FileServer.tagRead ≠ FileServer.tagError)
  · show (BitVec.ofNat 64 data.length).toNat = _
    rw [BitVec.toNat_ofNat]
    exact Nat.mod_eq_of_lt (Nat.lt_of_le_of_lt hfits (by decide))
  · simp [Page.filled_write hfits]
  · refine ⟨fun h => absurd h (Option.some_ne_none _), ?_⟩
    have hknows := Link.knows_request hp.knows (readMessage h offset (.ofNat 64 want) page)
      page.bytes
    rwa [hreq] at hknows

/-- A read that is not answered. -/
theorem request_of_not_answers (hp : p.Serves h e) (hno : ¬ p.link.Answers h)
    (offset want : BitVec 64) :
    ∃ p', p'.fds = p.fds ∧ p'.Serves h e ∧
      (request FileServer.tagRead h offset want true p = (none, p') ∨
        ∃ reply, request FileServer.tagRead h offset want true p = (some reply, p') ∧
          reply.tag = FileServer.tagError) := by
  obtain ⟨page, hpage⟩ := Option.ne_none_iff_exists'.mp hp.page
  have hknows := Link.knows_request hp.knows (readMessage h offset want page) page.bytes
  have herror := Link.request_of_not_answers offset want page hno
  rw [readMessage] at hknows herror
  refine ⟨(request FileServer.tagRead h offset want true p).2, ?_, ⟨?_, ?_⟩, ?_⟩ <;>
    simp only [request, hpage, if_true]
  · exact nofun
  · exact hknows
  · cases hr : (p.link.request ⟨FileServer.tagRead, #v[h, offset, want, 0], page.cap⟩
      page.bytes).1 with
    | none => exact .inl rfl
    | some reply => exact .inr ⟨reply, rfl, herror reply hr⟩

/-- How many requests it takes to read so many bytes. -/
def rounds (n : ℕ) : ℕ := (n + pageSize - 1) / pageSize

theorem rounds_zero : rounds 0 = 0 := rfl

theorem rounds_succ {n : ℕ} (hn : n ≠ 0) : rounds n = rounds (n - min pageSize n) + 1 := by
  rw [rounds, rounds, pageSize]
  omega

/-- An offset moved on within a file does not wrap. -/
theorem toNat_advance (offset : BitVec 64) {g len : ℕ} (hlen : len < 2 ^ 63)
    (hg : g ≤ len - offset.toNat) (hpos : g ≠ 0) :
    (offset + .ofNat 64 g).toNat = offset.toNat + g := by
  have hlt : offset.toNat + g < 2 ^ 64 := by omega
  rw [BitVec.toNat_add, BitVec.toNat_ofNat, Nat.add_mod_mod, Nat.mod_eq_of_lt hlt]

/-- **The loop** reads bytes from the offset on: all there are to have of `n` just if the server
answers each request it takes to read them. -/
theorem readLoop_spec (hp : p.Serves h e) (n : ℕ) (offset : BitVec 64) :
    ∃ m p', readLoop h n offset p =
        ((e.data.bytes.drop offset.toNat).take m, offset + .ofNat 64 m, p') ∧
      m ≤ min n (e.data.len - offset.toNat) ∧ p'.fds = p.fds ∧ p'.Serves h e ∧
      (n ≠ 0 → ¬ p.link.Answers h → m = 0) ∧
      (m = min n (e.data.len - offset.toNat) ↔
        p.link.AnswersAll h (rounds (min n (e.data.len - offset.toNat)))) := by
  induction n using Nat.strongRecOn generalizing offset p with
  | ind n ih =>
    rw [readLoop]
    split
    · next hn =>
      subst hn
      refine ⟨0, p, by simp, Nat.zero_le _, rfl, hp, fun hne => absurd rfl hne, ?_⟩
      rw [Nat.zero_min, rounds_zero]
      exact iff_of_true rfl trivial
    · next hn =>
      by_cases hans : p.link.Answers h
      · -- the round gives a page, or what there is of it
        obtain ⟨reply, p₁, hreq, htag, hgot, hdata, hfds, hlink, hp₁⟩ :=
          request_of_answers hp hans offset (min n pageSize) (Nat.min_le_right ..)
        have hg : ((e.data.bytes.drop offset.toNat).take (min n pageSize)).length =
            min pageSize (min n (e.data.len - offset.toNat)) := by
          rw [List.length_take, List.length_drop, Slice.length_bytes, Nat.min_comm n, Nat.min_assoc]
        rw [hg] at hgot hdata
        have hle : min pageSize (min n (e.data.len - offset.toNat)) ≤ e.data.len - offset.toNat :=
          Nat.le_trans (Nat.min_le_right ..) (Nat.min_le_right ..)
        have hadv := toNat_advance offset e.data.len_lt hle
        have hT' : min (n - min pageSize (min n (e.data.len - offset.toNat)))
            (e.data.len - (offset.toNat + min pageSize (min n (e.data.len - offset.toNat)))) =
              min n (e.data.len - offset.toNat) -
                min pageSize (min n (e.data.len - offset.toNat)) := by
          rw [← Nat.sub_sub, Nat.sub_min_sub_right]
        have htake : (e.data.bytes.drop offset.toNat).take (min n pageSize) =
            (e.data.bytes.drop offset.toNat).take
              (min pageSize (min n (e.data.len - offset.toNat))) := by
          rw [← hg, List.length_take]
          exact List.take_eq_take_min
        have hlast : min pageSize (min n (e.data.len - offset.toNat)) ≤
            min n (e.data.len - offset.toNat) := Nat.min_le_right ..
        have hn' : min pageSize (min n (e.data.len - offset.toNat)) ≤ n :=
          hlast.trans (Nat.min_le_left ..)
        have hpage : pageSize ≠ 0 := by decide
        simp only [hreq, if_neg htag, hgot]
        generalize min n (e.data.len - offset.toNat) = T at *
        split
        · next hzero =>
          have hT0 : T = 0 := (Nat.min_eq_zero_iff.mp hzero).resolve_left hpage
          refine ⟨0, p₁, by simp, Nat.zero_le _, hfds, hp₁, fun _ hno => absurd hans hno, ?_⟩
          rw [hT0, rounds_zero]
          exact iff_of_true rfl trivial
        · next hpos =>
          obtain ⟨m, p₂, hloop, hm, hfds₂, hp₂, -, hiff⟩ :=
            ih (n - min pageSize T) (Nat.sub_lt (Nat.pos_of_ne_zero hn) (Nat.pos_of_ne_zero hpos))
              hp₁ (offset + .ofNat 64 (min pageSize T))
          rw [hadv hpos, hT'] at hm hiff
          rw [hadv hpos] at hloop
          have hT0 : T ≠ 0 := fun hT0 => hpos (by rw [hT0, Nat.min_zero])
          refine ⟨min pageSize T + m, p₂, ?_, (Nat.le_sub_iff_add_le' hlast).mp hm,
            hfds₂.trans hfds, hp₂, fun _ hno => absurd hans hno, ?_⟩
          · rw [hloop, hdata, htake, List.take_add, List.drop_drop, BitVec.add_assoc,
              ← BitVec.ofNat_add]
          · rw [rounds_succ hT0, Link.AnswersAll, and_iff_right hans, ← hlink, ← hiff]
            exact ⟨fun h => (Nat.sub_eq_of_eq_add' h.symm).symm,
              fun h => h ▸ Nat.add_sub_cancel' hlast⟩
      · obtain ⟨p', hfds, hp', hr⟩ := request_of_not_answers hp hans offset
          (.ofNat 64 (min n pageSize))
        have hloop : ∀ m : ℕ, m = 0 ↔ p.link.AnswersAll h (rounds m) := by
          intro m
          by_cases hm : m = 0
          · rw [hm, rounds_zero]
            exact iff_of_true rfl trivial
          · rw [rounds_succ hm]
            exact iff_of_false hm fun hall => hans hall.1
        refine ⟨0, p', ?_, Nat.zero_le _, hfds, hp', fun _ _ => rfl, eq_comm.trans (hloop _)⟩
        obtain hr | ⟨reply, hr, htag⟩ := hr
        · simp [hr]
        · simp [hr, htag]

/-! ### The calls -/

/-- A descriptor of a process names a file, and its cursor is at `c`. -/
structure Process.Has (p : Process) (fd : ℤ) (h : BitVec 64) (e : Cpio.Entry) (c : ℕ) : Prop where
  serves : p.Serves h e
  named : p.fds.get fd = some (.file h (.ofNat 64 e.data.len) (.ofNat 64 c))
  cursor : c < 2 ^ 63

variable {fd : ℤ} {c : ℕ}

theorem Process.Has.toNat (hp : p.Has fd h e c) : (BitVec.ofNat 64 c).toNat = c := by
  have hc := hp.cursor
  rw [BitVec.toNat_ofNat]
  omega

/-- Moving the cursor of a file that a descriptor names. -/
theorem Process.Has.moved (c' : ℕ) {p' : Process} (hp : p.Has fd h e c) (hfds : p'.fds = p.fds)
    (hserves : p'.Serves h e) (hc : c' < 2 ^ 63) :
    { p' with fds := (Fd.setOffset fd (.ofNat 64 c') p'.fds).2 }.Has fd h e c' := by
  obtain ⟨i, rfl, hkind, hne⟩ := Fd.Fds.get_eq_some.mp hp.named
  refine ⟨⟨hserves.page, hserves.knows⟩, ?_, hc⟩
  rw [hfds, Fd.setOffset_run hp.named]
  exact Fd.Fds.get_put_self nofun

/-- **What a read does.** It delivers some of the bytes from the cursor on and moves the cursor
behind them: all there are to have of `n` just if the server answers each request for them. -/
theorem read_spec (hp : p.Has fd h e c) (n : ℕ) :
    ∃ m p', read fd n p = ((((m : ℕ) : ℤ), (e.data.bytes.drop c).take m), p') ∧
      m ≤ min n (e.data.len - c) ∧ p'.Has fd h e (c + m) ∧
      (n ≠ 0 → ¬ p.link.Answers h → m = 0) ∧
      (m = min n (e.data.len - c) ↔ p.link.AnswersAll h (rounds (min n (e.data.len - c)))) := by
  obtain ⟨m, p', hloop, hm, hfds, hp', hzero, hiff⟩ := readLoop_spec hp.serves n (.ofNat 64 c)
  rw [hp.toNat] at hloop hm hiff
  have hlen := e.data.len_lt
  have hc := hp.cursor
  have hmlen : ((e.data.bytes.drop c).take m).length = m := by
    rw [List.length_take, List.length_drop, Slice.length_bytes]
    omega
  rw [← BitVec.ofNat_add] at hloop
  refine ⟨m, _, ?_, hm, hp.moved (c + m) hfds hp' (by omega), hzero, hiff⟩
  have hdone : (if (e.data.bytes.drop c).take m = [] ∧ n ≠ 0 then (0 : ℤ) else m) = m := by
    split
    · next hnil =>
      rw [hnil.1] at hmlen
      rw [← hmlen]
      rfl
    · rfl
  simp only [read, hp.named, hloop, hmlen, hdone]
  rfl

theorem toInt_ofNat {k : ℕ} (hk : k < 2 ^ 63) : (BitVec.ofNat 64 k).toInt = k := by
  have hnat : (BitVec.ofNat 64 k).toNat = k := by
    rw [BitVec.toNat_ofNat]
    omega
  rw [BitVec.toInt_eq_toNat_of_lt (by omega), hnat]

/-- Where a move of the cursor comes to, if it is allowed. -/
def target (size c : ℕ) (offset : BitVec 64) (whence : ℤ) : Option ℕ :=
  let base : Option ℤ :=
    if whence = 0 then some 0
    else if whence = 1 then some c
    else if whence = 2 then some size
    else none
  (base.bind fun base => (checkedAdd base offset.toInt).filter (0 ≤ ·)).map Int.toNat

/-- **What a seek does.** -/
theorem seek_spec (hp : p.Has fd h e c) (offset : BitVec 64) (whence : ℤ) :
    (target e.data.len c offset whence = none ∧ seek fd offset whence p = (-1, p)) ∨
      ∃ c' p', target e.data.len c offset whence = some c' ∧
        seek fd offset whence p = ((c' : ℤ), p') ∧
        p'.Has fd h e c' := by
  have hlen := e.data.len_lt
  simp only [seek, hp.named, toInt_ofNat hlen, toInt_ofNat hp.cursor, target]
  generalize (if whence = 0 then some (0 : ℤ) else if whence = 1 then some (c : ℤ)
    else if whence = 2 then some (e.data.len : ℤ) else none) = base
  cases ht : base.bind fun base => (checkedAdd base offset.toInt).filter (0 ≤ ·) with
  | none => exact .inl ⟨rfl, rfl⟩
  | some t =>
    obtain ⟨b, -, hb⟩ := Option.bind_eq_some_iff.mp ht
    obtain ⟨hadd, hpos⟩ := Option.filter_eq_some_iff.mp hb
    have hbound : t < 2 ^ 63 := by
      rw [checkedAdd] at hadd
      split at hadd
      · next hb => exact Option.some.inj hadd ▸ hb.2
      · cases hadd
    have hnat : 0 ≤ t := by simpa using hpos
    obtain ⟨c', rfl⟩ := Int.eq_ofNat_of_zero_le hnat
    refine .inr ⟨c', _, rfl, ?_, hp.moved c' rfl hp.serves (by omega)⟩
    simp only [BitVec.ofInt_natCast]
    rfl

/-! ### Opening -/

theorem Link.sound_before (hs : l.server.Sound) : l.before.Sound ∧
    l.before.archive = l.server.archive := by
  rw [Link.before]
  generalize (l.turns 0).others = others
  generalize l.server = s at hs
  induction others generalizing s with
  | nil => exact ⟨hs, rfl⟩
  | cons r others ih =>
    obtain ⟨hsound, harchive⟩ := ih _ (hs.turn r.1 r.2)
    exact ⟨hsound, harchive.trans (Server.archive_turn ..)⟩

/-- The path the server finds in a page. -/
theorem path_write (page : Page) {path : List UInt8} {name : String}
    (h : FileServer.path (page.filled (FileServer.write page.bytes path)).bytes path.length =
      some name) :
    utf8 name = path := by
  rw [FileServer.path] at h
  split at h
  · cases h
  · next hb =>
    rw [Page.filled_write, List.take_left] at h
    · exact fromUtf8_eq_some.mp h
    · have hlen := (page.filled (FileServer.write page.bytes path)).length
      omega

/-- A handle that was just made. -/
theorem knows_of_open {s : Server} (hs : s.Sound) {r : Request} {sent : Bool}
    {t' : FileServer.Table}
    (hserving : s.serving = true) (hins : s.table.insert e = some (h, t'))
    (htable : (s.turn r sent).2.table = t') : (s.turn r sent).2.Knows h e := by
  have hlt := Server.served_lt hserving
  refine ⟨hs.turn r sent, ?_, fun e' he' => ?_⟩
  · have hnext := FileServer.Table.nextGeneration_insert hs.fresh
      (by rw [FileServer.maxRequests] at hlt; omega) hins
    obtain ⟨i, -, rfl, -⟩ := FileServer.Table.insert_eq_some hins
    exact ⟨_, i, by rw [htable, hnext]; exact Nat.lt_succ_self _, rfl⟩
  · rw [htable, FileServer.Table.get_insert hins, if_pos rfl] at he'
    exact (Option.some.inj he').symm

/-- The request as the server gets it. -/
def Link.arrived (l : Link) (msg : Message) (page : List UInt8) : Request :=
  ⟨msg, if (l.turns 0).maps then some page else none⟩

/-- **A reply** is what the server makes of the request. -/
theorem Link.request_eq_some {msg : Message} {page : List UInt8} {reply : Message}
    (hr : (l.request msg page).1 = some reply) :
    l.before.serving = true ∧
      reply = (FileServer.serve l.before.archive l.before.table (l.arrived msg page)).reply ∧
      (l.before.turn (l.arrived msg page) true).2.table =
        (FileServer.serve l.before.archive l.before.table (l.arrived msg page)).table ∧
      (l.request msg page).2.2 = ⟨(l.before.turn (l.arrived msg page) true).2, l.later⟩ := by
  rw [Link.request] at hr ⊢
  split at hr
  · next harrives =>
    obtain ⟨hnone, -⟩ | ⟨hserving, hserve, htable, -⟩ :=
      Server.table_turn l.before (l.arrived msg page) (l.turns 0).replies
    · rw [arrived] at hnone
      split at hr
      · next hturn =>
        rw [hturn] at hnone
        cases hnone
      · cases hr
    · rw [if_pos harrives]
      rw [arrived] at hserve htable ⊢
      split at hr
      · next hturn =>
        rw [hturn] at hserve
        split at hr
        · next hboth =>
          rw [Bool.and_eq_true] at hboth
          rw [hboth.1] at hturn htable
          refine ⟨hserving, ?_, htable, ?_⟩
          · rw [← Option.some.inj hr, Option.some.inj hserve]
          · rw [hturn]
        · cases hr
      · cases hr
  · cases hr

/-- **An open that is answered** makes a handle for the file of that name. -/
theorem Link.request_open (page : Page) {path : List UInt8} (hs : l.server.Sound)
    (hlen : path.length ≤ FileServer.maxPath) (reply : Message)
      (htag : reply.tag ≠ FileServer.tagError)
    (hr : (l.request ⟨FileServer.tagOpen, #v[.ofNat 64 path.length, 0, 0, 0], page.cap⟩
      (page.filled (FileServer.write page.bytes path)).bytes).1 = some reply) :
    ∃ name e, utf8 name = path ∧ FileServer.find l.server.archive name = some e ∧
      reply.words.get 1 = .ofNat 64 e.data.len ∧
      (l.request ⟨FileServer.tagOpen, #v[.ofNat 64 path.length, 0, 0, 0], page.cap⟩
        (page.filled (FileServer.write page.bytes path)).bytes).2.2.server.Knows (reply.words.get 0)
          e := by
  obtain ⟨hbefore, harchive⟩ := Link.sound_before hs
  obtain ⟨hserving, rfl, htable, hlink⟩ := Link.request_eq_some hr
  rw [hlink]
  generalize hreq : l.arrived ⟨FileServer.tagOpen, #v[.ofNat 64 path.length, 0, 0, 0], page.cap⟩
    (page.filled (FileServer.write page.bytes path)).bytes = r at htag htable ⊢
  have hopen : r.msg.tag = FileServer.tagOpen := by rw [← hreq]; rfl
  obtain ⟨code, hcode⟩ | ⟨e, h, t', hlookup, hins, hserve⟩ :=
    FileServer.serve_open l.before.archive (t := l.before.table) hopen
  · rw [hcode] at htag
    exact absurd rfl htag
  · rw [hserve] at htable ⊢
    obtain ⟨name, hname, hfind⟩ : ∃ name, utf8 name = path ∧
        FileServer.find l.before.archive name = some e := by
      rw [FileServer.lookup] at hlookup
      split at hlookup
      · cases hlookup
      next buffer hmap =>
      split at hlookup
      · cases hlookup
      next name hpath =>
      split at hlookup
      · cases hlookup
      next e' hfind =>
      rw [Except.ok.inj hlookup] at hfind
      refine ⟨name, path_write page ?_, hfind⟩
      have hbuffer : buffer = (page.filled (FileServer.write page.bytes path)).bytes := by
        have hcap : r.msg.cap ≠ .null := by
          rw [← hreq]
          exact page.cap_ne
        rw [Request.map, if_neg hcap, ← hreq, Link.arrived] at hmap
        split at hmap
        · exact (Option.some.inj hmap).symm
        · cases hmap
      have hlen' : (r.msg.words.get 0).toNat = path.length := by
        rw [← hreq]
        show (BitVec.ofNat 64 path.length).toNat = _
        rw [BitVec.toNat_ofNat]
        rw [FileServer.maxPath] at hlen
        omega
      rwa [hbuffer, hlen'] at hpath
    refine ⟨name, e, hname, harchive ▸ hfind, rfl, ?_⟩
    exact knows_of_open hbefore hserving hins htable

theorem putPath_cases (path : List UInt8) (p : Process) :
    putPath path p = (none, p) ∨
      ∃ page, p.page = some page ∧ (normalise path).length ≤ FileServer.maxPath ∧
        putPath path p = (some (normalise path).length,
          { p with page := some (page.filled (FileServer.write page.bytes (normalise path)))
            }) := by
  rw [putPath]
  by_cases hbad : normalise path = [] ∨ (normalise path).length > FileServer.maxPath
  · exact .inl (if_pos hbad)
  rw [if_neg hbad]
  cases hpage : p.page with
  | none => exact .inl rfl
  | some page =>
    simp only
    split
    · exact .inl rfl
    · exact .inr ⟨page, rfl, by omega, rfl⟩

theorem request_page {page : Page} (hpage : p.page = some page) (tag a b c : BitVec 64)
    (withBuffer : Bool) :
    let r := p.link.request ⟨tag, #v[a, b, c, 0], if withBuffer then page.cap else .null⟩ page.bytes
    request tag a b c withBuffer p =
      (r.1, { p with page := some (page.filled r.2.1), link := r.2.2 }) := by
  simp only [request, hpage]

theorem Page.cap_filled (page : Page) (bytes : List UInt8) :
    (page.filled bytes).cap = page.cap := by
  rw [filled]
  split <;> rfl

theorem onFds_apply {α : Type} (x : StateM Fd.Fds α) (p : Process) :
    onFds x p = ((x p.fds).1, { p with fds := (x p.fds).2 }) := rfl

/-- **What an open does.** -/
theorem openFile_spec (hs : p.link.server.Sound) (path : List UInt8)
    (hfd : 0 ≤ (openFile path p).1) :
    ∃ name h e, utf8 name = normalise path ∧ FileServer.find p.link.server.archive name = some e ∧
      (openFile path p).2.Has (openFile path p).1 h e 0 := by
  have hneg : ¬ (0 : ℤ) ≤ -1 := by decide
  rw [openFile] at hfd ⊢
  obtain hput | ⟨page, hpage, hlen, hput⟩ := putPath_cases path p
  · rw [Fd.bind_of_eq hput] at hfd
    exact absurd hfd hneg
  rw [Fd.bind_of_eq hput] at hfd ⊢
  have hreq := request_page
    (p := { p with page := some (page.filled (FileServer.write page.bytes (normalise path))) })
    rfl FileServer.tagOpen (.ofNat 64 (normalise path).length) 0 0 true
  have hopen := Link.request_open page hs hlen
  rw [if_pos rfl, Page.cap_filled] at hreq
  generalize p.link.request _ _ = r at hreq hopen
  simp only [Fd.bind_of_eq hreq] at hfd ⊢
  obtain ⟨_ | reply, bytes, link⟩ := r
  · exact absurd hfd hneg
  by_cases htag : reply.tag = FileServer.tagError
  · simp only [if_pos htag] at hfd
    exact absurd hfd hneg
  obtain ⟨name, e, hname, hfind, hsize, hknows⟩ := hopen reply htag rfl
  simp only [if_neg htag] at hfd ⊢
  have hinstall := onFds_apply (Fd.installFile (reply.words.get 0) (reply.words.get 1))
    ⟨p.fds, some ((page.filled (FileServer.write page.bytes (normalise path))).filled bytes), link⟩
  obtain hfull | ⟨i, -, hinst⟩ :=
    Fd.installFile_cases (reply.words.get 0) (reply.words.get 1) p.fds
  · rw [hfull] at hinstall
    rw [Fd.bind_of_eq hinstall] at hfd
    exact absurd hfd hneg
  · rw [hinst] at hinstall
    rw [Fd.bind_of_eq hinstall, if_neg (Int.not_lt.mpr (Fd.number_nonneg i))]
    refine ⟨name, reply.words.get 0, e, hname, hfind, ⟨nofun, hknows⟩, ?_, by decide⟩
    rw [← hsize]
    exact Fd.Fds.get_put_self nofun

/-! ### The main result -/

/-- A call on a descriptor. -/
inductive Call
  | read (n : ℕ)
  | seek (offset : BitVec 64) (whence : ℤ)

/-- The process after a call, and after several. -/
def Process.call (fd : ℤ) (p : Process) : Call → Process
  | .read n => (read fd n p).2
  | .seek offset whence => (seek fd offset whence p).2

def Process.calls (p : Process) (fd : ℤ) (cs : List Call) : Process := cs.foldl (Process.call fd) p

/-- What a read of `n` bytes at the cursor `c` should come to: an error if the first request is not
answered, and otherwise all the bytes there are to have. -/
def Process.ReadsRight (p : Process) (fd : ℤ) (h : BitVec 64) (e : Cpio.Entry) (c n : ℕ) : Prop :=
  if n ≠ 0 ∧ ¬ p.link.Answers h then (read fd n p).1.1 = -1 ∧ (read fd n p).2.Has fd h e c
  else
    (read fd n p).1 = (((min n (e.data.len - c) : ℕ) : ℤ), (e.data.bytes.drop c).take n) ∧
      (read fd n p).2.Has fd h e (c + min n (e.data.len - c))

theorem Process.Has.calls (hp : p.Has fd h e c) (cs : List Call) :
    ∃ c', (p.calls fd cs).Has fd h e c' := by
  induction cs generalizing p c with
  | nil => exact ⟨c, hp⟩
  | cons call cs ih =>
    cases call with
    | read n =>
      obtain ⟨m, p', hread, -, hp', -⟩ := read_spec hp n
      refine ih (p := (read fd n p).2) (c := c + m) ?_
      rwa [hread]
    | seek offset whence =>
      obtain ⟨-, hseek⟩ | ⟨c', p', -, hseek, hp'⟩ := seek_spec hp offset whence
      · refine ih (p := (seek fd offset whence p).2) (c := c) ?_
        rwa [hseek]
      · refine ih (p := (seek fd offset whence p).2) (c := c') ?_
        rwa [hseek]

/-- **When a read is right**: just if it asks for nothing, or the server answers its first request
and each request for the bytes there are to have. -/
theorem Process.Has.readsRight_iff (hp : p.Has fd h e c) (n : ℕ) :
    p.ReadsRight fd h e c n ↔
      n = 0 ∨ p.link.AnswersAll h (max 1 (rounds (min n (e.data.len - c)))) := by
  obtain ⟨m, p', hread, hm, hp', hzero, hiff⟩ := read_spec hp n
  have hall : ∀ k, p.link.AnswersAll h (max 1 k) ↔ p.link.Answers h ∧ p.link.AnswersAll h k := by
    intro k
    cases k with
    | zero => exact Iff.rfl
    | succ k =>
      rw [Nat.max_eq_right (Nat.succ_le_succ (Nat.zero_le k))]
      exact (and_iff_right_of_imp And.left).symm
  rw [Process.ReadsRight, hread, hall]
  split
  · next hbad =>
    rw [hzero hbad.1 hbad.2]
    refine iff_of_false (fun hright => absurd hright.1 (by show ¬ (0 : ℤ) = -1; decide)) ?_
    rintro (hn | hans)
    · exact hbad.1 hn
    · exact hbad.2 hans.1
  · next hgood =>
    have htake : (e.data.bytes.drop c).take (min n (e.data.len - c)) = (e.data.bytes.drop c).take
      n := by
      rw [List.take_eq_take_iff, List.length_drop, Slice.length_bytes]
      omega
    constructor
    · rintro ⟨hr, -⟩
      have hmT : m = min n (e.data.len - c) := Int.ofNat_inj.mp (congrArg Prod.fst hr)
      by_cases hn : n = 0
      · exact .inl hn
      · exact .inr ⟨by_contra fun hno => hgood ⟨hn, hno⟩, hiff.mp hmT⟩
    · intro hall
      have hmT : m = min n (e.data.len - c) := by
        obtain rfl | hans := hall
        · omega
        · exact hiff.mpr hans.2
      rw [← htake, ← hmT]
      exact ⟨rfl, hp'⟩

/-- **Reading a file.** A file that was opened is read and sought in any way. Then a read delivers
bytes of the file from the cursor on and moves the cursor behind them, and a seek moves it where it
should. A read is right just if it asks for nothing, or the server answers its first request and
each request for the bytes there are to have. -/
theorem file_reads (p : Process) (hs : p.link.server.Sound) (path : List UInt8)
    (hopen : 0 ≤ (openFile path p).1) : ∃ name h e, utf8 name = normalise path ∧
      FileServer.find p.link.server.archive name = some e ∧ ∀ cs : List Call, ∃ c,
        let fd := (openFile path p).1
        let q := (openFile path p).2.calls fd cs
        q.Has fd h e c ∧
        (∀ n, ∃ m ≤ min n (e.data.len - c), (read fd n q).1 =
          ((m : ℤ), (e.data.bytes.drop c).take m) ∧
          (read fd n q).2.Has fd h e (c + m)) ∧
        (∀ offset whence, match target e.data.len c offset whence with
          | none => seek fd offset whence q = (-1, q)
          | some c' => (seek fd offset whence q).1 = c' ∧
              (seek fd offset whence q).2.Has fd h e c') ∧
        ∀ n, q.ReadsRight fd h e c n ↔
          n = 0 ∨ q.link.AnswersAll h (max 1 (rounds (min n (e.data.len - c)))) := by
  obtain ⟨name, h, e, hname, hfind, hp⟩ := openFile_spec hs path hopen
  refine ⟨name, h, e, hname, hfind, fun cs => ?_⟩
  obtain ⟨c, hq⟩ := hp.calls cs
  refine ⟨c, hq, fun n => ?_, fun offset whence => ?_, hq.readsRight_iff⟩
  · obtain ⟨m, p', hread, hm, hp', -⟩ := read_spec hq n
    exact ⟨m, hm, by rw [hread], by rwa [hread]⟩
  · obtain ⟨ht, hseek⟩ | ⟨c', p', ht, hseek, hp'⟩ := seek_spec hq offset whence
    · rw [ht]
      exact hseek
    · rw [ht]
      simp only [hseek]
      exact ⟨trivial, hp'⟩

/-! ### A run -/

/-- An archive of one file, and a process that may use it. -/
def archive : Slice := ⟨Cpio.pushEntry [] ⟨"a", 0o100644, ⟨[1, 2, 3], by decide⟩⟩, by
    decide +kernel⟩

def process (turns : ℕ → Turn) : Process where
  fds := ⟨fun _ => .free, fun _ => false, fun _ => ⟨false, 1, 1, 0, 0, 0, 0⟩⟩
  page := some ⟨1, .replicate pageSize 0, by decide, List.length_replicate⟩
  link := ⟨.start archive, turns⟩

/-- Nothing goes wrong, or the server cannot be reached any more after the first `n` requests. -/
def goodTurn : Turn := ⟨[], true, true, true, true⟩
def lostAfter (n : ℕ) : ℕ → Turn := fun k => { goodTurn with arrives := k < n }

set_option maxRecDepth 20000 in
/-- Two bytes are read, and then one more, which is all there is. -/
theorem file_reads_twice : ∃ h e c,
    let q := (openFile [97] (process fun _ => goodTurn)).2.calls 3 [.read 2]
    q.Has 3 h e c ∧ q.ReadsRight 3 h e c 5 := by
  have hs := FileServer.Server.sound_start archive
  have hfd : (openFile [97] (process fun _ => goodTurn)).1 = 3 := by decide +kernel
  obtain ⟨name, h, e, -, -, hcs⟩ := file_reads (process fun _ => goodTurn) hs [97]
    (by rw [hfd]; decide)
  obtain ⟨c, hq, -, -, hiff⟩ := hcs [.read 2]
  rw [hfd] at hq hiff
  have hkind : ((openFile [97] (process fun _ => goodTurn)).2.calls 3 [.read 2]).fds.get 3 =
      some (.file 257 3 2) := by decide +kernel
  have hans : ((openFile [97] (process fun _ => goodTurn)).2.calls 3 [.read 2]).link.Answers
    257 := by
    decide +kernel
  obtain ⟨rfl, hlen, -⟩ := Fd.Kind.file.inj (Option.some.inj (hq.named.symm.trans hkind))
  refine ⟨_, e, c, hq, (hiff 5).mpr (.inr ?_)⟩
  have hone : max 1 (rounds (min 5 (e.data.len - c))) = 1 := by
    rw [rounds, pageSize]
    omega
  rw [hone]
  exact ⟨hans, trivial⟩

set_option maxRecDepth 20000 in
/-- The server cannot be reached, and the read says end of file. -/
theorem file_misreads : ¬ ∀ (p : Process) (_ : p.link.server.Sound) (path : List UInt8),
    0 ≤ (openFile path p).1 → ∃ h e, ∀ cs : List Call, ∃ c,
      ((openFile path p).2.calls (openFile path p).1 cs).Has (openFile path p).1 h e c ∧
      ∀ n, ((openFile path p).2.calls (openFile path p).1 cs).ReadsRight (openFile path p).1 h e c
        n := by
  intro hall
  have hs := FileServer.Server.sound_start archive
  obtain ⟨h, e, hcs⟩ := hall (process (lostAfter 1)) hs [97] (by decide +kernel)
  obtain ⟨c, -, hright⟩ := hcs []
  have hread := hright 1
  rw [Process.ReadsRight, if_pos] at hread
  · exact absurd hread.1 (by decide +kernel)
  · refine ⟨by decide, fun hans => absurd hans.arrives (by decide +kernel)⟩

end Files

end StarOS
