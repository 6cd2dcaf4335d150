import StarOS.Libc.FileRead

/-!
# Handles of a process at the server

An open makes a handle at the server, and a descriptor names it. A close tells the server, and so
does an open that finds no descriptor. What `dup2`, `dup3` and `close_range` release is not told to
anybody, so the handle of a file that only this descriptor named stays open for good. It takes one
of the eight entries all clients of the server share.

The server is taken to answer: messages arrive, and it still serves at the end of the run.

## Main definitions

* `Files.Client` with `step` and `run` — a process, and the handles made for it
* `Files.Process.Kept` — releasing a descriptor leaves no handle behind
* `Files.Client.Sound` — the handles that are open have a descriptor

## Main results

* `Files.Client.Sound.openFile`, `Files.Client.Sound.close`, `Files.Client.Sound.dup3`
* `Files.handles_named`
-/

namespace StarOS

namespace Files

open FileServer (Request Server)

/-- A message to the server arrives, and so does its reply. -/
structure Turn.Good (t : Turn) : Prop where
  arrives : t.arrives = true
  replies : t.replies = true
  hears : t.hears = true

/-- The handle the server makes for an open. -/
def made (path : List UInt8) (p : Process) : Option (BitVec 64) :=
  match putPath path p with
  | (none, _) => none
  | (some len, p) =>
    match (request FileServer.tagOpen (.ofNat 64 len) 0 0 true p).1 with
    | some reply => if reply.tag = FileServer.tagError then none else some (reply.words.get 0)
    | none => none

/-- A process, and all the handles that were ever made for it. -/
structure Client where
  process : Process
  made : List (BitVec 64)

/-- A call that opens or closes descriptors. -/
inductive Op
  | openFile (path : List UInt8)
  | dup (fd : ℤ)
  | dup3 (old new : ℤ)
  | dup2 (old new : ℤ)
  | close (fd : ℤ)
  | closeRange (first last : ℤ)

namespace Client

/-- One call. -/
def step (c : Client) : Op → Client
  | .openFile path =>
    ⟨(Files.openFile path c.process).2, c.made ++ (Files.made path c.process).toList⟩
  | .dup fd => ⟨(onFds (Fd.dup fd) c.process).2, c.made⟩
  | .dup3 old new => ⟨(onFds (Fd.dup3 old new) c.process).2, c.made⟩
  | .dup2 old new => ⟨(onFds (Fd.dup2 old new) c.process).2, c.made⟩
  | .close fd => ⟨(Files.close fd c.process).2, c.made⟩
  | .closeRange first last => ⟨(onFds (Fd.closeRange first last) c.process).2, c.made⟩

def run (c : Client) (ops : List Op) : Client := ops.foldl step c

end Client

/-- A handle is open at the server. -/
def Link.Open (l : Link) (h : BitVec 64) : Prop := (l.server.table.get h).isSome = true

/-- A descriptor names a handle. -/
def Named (s : Fd.Fds) (h : BitVec 64) : Prop := ∃ i, (s.kinds i).handle = some h

/-- If the descriptor is of a file that is open at the server, another one names it too. -/
def Process.Kept (p : Process) (fd : ℤ) : Prop :=
  ∀ i, fd = Fd.number i → ∀ h, (p.fds.kinds i).handle = some h → p.link.Open h →
    ∃ j, j ≠ i ∧ (p.fds.kinds j).handle = some h

/-- The same for the `n` descriptors from `first` on, one after another. -/
def Process.KeptFrom (first : ℤ) : ℕ → Process → Prop
  | 0, _ => True
  | n + 1, p => p.Kept first ∧ (onFds (Fd.release first) p).2.KeptFrom (first + 1) n

/-- What a call releases without telling the server is kept. -/
def Op.Kept (p : Process) : Op → Prop
  | .dup3 old new => p.fds.get old ≠ none → old ≠ new → p.Kept new
  | .dup2 old new => p.fds.get old ≠ none → old ≠ new → p.Kept new
  | .closeRange first last => p.KeptFrom first (last + 1 - first).toNat
  | _ => True

/-- It is in a whole run. -/
def Client.AllKept : List Op → Client → Prop
  | [], _ => True
  | op :: ops, c => op.Kept c.process ∧ AllKept ops (c.step op)

/-! ### The server -/

variable {l : Link} {h : BitVec 64} {p : Process}

theorem Link.serving_before (hs : l.before.serving = true) : l.server.serving = true := by
  rw [before] at hs
  generalize (l.turns 0).others = others at hs
  generalize l.server = s at hs ⊢
  induction others generalizing s with
  | nil => exact hs
  | cons r others ih => exact (Server.serving_turn (ih _ hs)).1

theorem Link.get_before (hs : l.server.Sound) (hi : l.server.table.Issued h) :
    l.before.Sound ∧ l.before.table.Issued h ∧
      ∀ e, l.before.table.get h = some e → l.server.table.get h = some e := by
  rw [before]
  generalize (l.turns 0).others = others
  generalize l.server = s at hs hi ⊢
  induction others generalizing s with
  | nil => exact ⟨hs, hi, fun _ he => he⟩
  | cons r others ih =>
    obtain ⟨hi', hback⟩ := hs.get_turn hi r.1 r.2
    obtain ⟨hsound, hissued, hback'⟩ := ih _ (hs.turn r.1 r.2) hi'
    exact ⟨hsound, hissued, fun e he => hback e (hback' e he)⟩

theorem Link.request_arrives (ha : (l.turns 0).arrives = true) (msg : Message)
    (page : List UInt8) : (l.request msg page).2.2 =
      ⟨(l.before.turn (l.arrived msg page) (l.turns 0).replies).2, l.later⟩ := by
  rw [Link.request, if_pos ha, arrived]
  split
  · next hturn => rw [hturn]
  · next hturn => rw [hturn]

/-- **A request that is answered**, to a server that goes on serving. -/
theorem Link.request_good (hgood : (l.turns 0).Good) {msg : Message} {page : List UInt8}
    (hs : (l.request msg page).2.2.server.serving = true) :
    l.before.serving = true ∧
      (l.request msg page).1 =
        some (FileServer.serve l.before.archive l.before.table (l.arrived msg page)).reply ∧
      (l.request msg page).2.2.server.table =
        (FileServer.serve l.before.archive l.before.table (l.arrived msg page)).table := by
  rw [Link.request_arrives hgood.arrives] at hs ⊢
  obtain ⟨hserving, hserve, htable⟩ := Server.serving_turn hs
  refine ⟨hserving, ?_, htable⟩
  rw [Link.request, if_pos hgood.arrives]
  rw [arrived] at hserve ⊢
  split
  · next hturn =>
    rw [hturn] at hserve
    rw [hgood.replies, hgood.hears, Option.some.inj hserve]
    rfl
  · next hturn =>
    rw [hturn] at hserve
    cases hserve

/-- What a client relies on: the handles made for it that are open have a descriptor, and the server
will not make them again. -/
structure Client.Sound (c : Client) : Prop where
  server : c.process.link.server.Sound
  issued : ∀ h ∈ c.made, c.process.link.server.table.Issued h
  named : ∀ h ∈ c.made, c.process.link.Open h → Named c.process.fds h
  good : ∀ n, (c.process.link.turns n).Good
  page : c.process.page = none → c.made = []

variable {c : Client} {fds : Fd.Fds}

/-- The handles of a client after a request: they were issued, and those still open were open
before. -/
structure Link.Follows (l l' : Link) : Prop where
  sound : l'.server.Sound
  issued : ∀ h, l.server.table.Issued h → l'.server.table.Issued h
  back : ∀ h, l.server.table.Issued h → l'.Open h → l.Open h
  good : ∀ n, (l'.turns n).Good

/-- **A request leaves what was made before alone**, or closes it. -/
theorem Link.follows_request (hs : l.server.Sound) (hgood : ∀ n, (l.turns n).Good) (msg : Message)
    (page : List UInt8) : l.Follows (l.request msg page).2.2 := by
  rw [Link.request_arrives (hgood 0).arrives]
  have hbefore : ∀ h, l.server.table.Issued h → _ := fun h hi => Link.get_before (l := l) hs hi
  refine ⟨(Link.sound_before hs).1.turn _ _, fun h hi => ?_, fun h hi hopen => ?_,
    fun n => hgood (n + 1)⟩
  · obtain ⟨hsound, hissued, -⟩ := hbefore h hi
    exact (hsound.get_turn hissued _ _).1
  · obtain ⟨hsound, hissued, hback⟩ := hbefore h hi
    obtain ⟨e, he⟩ := Option.isSome_iff_exists.mp hopen
    have he' := hback e ((hsound.get_turn hissued _ _).2 e he)
    exact Option.isSome_iff_exists.mpr ⟨e, he'⟩

/-- A server that serves after a request served before it. -/
theorem Link.serving_request {msg : Message} {page : List UInt8}
    (hs : (l.request msg page).2.2.server.serving = true) : l.server.serving = true := by
  refine Link.serving_before ?_
  by_cases ha : (l.turns 0).arrives = true
  · rw [Link.request_arrives ha] at hs
    exact (Server.serving_turn hs).1
  · rw [Link.request, if_neg ha] at hs
    exact hs

/-- The server closes a handle. -/
theorem Link.request_close (hgood : (l.turns 0).Good) {msg : Message} {page : List UInt8}
    (htag : msg.tag = FileServer.tagClose)
    (hs : (l.request msg page).2.2.server.serving = true) :
    ¬ (l.request msg page).2.2.Open (msg.words.get 0) := by
  obtain ⟨-, -, htable⟩ := Link.request_good hgood hs
  have hclose := (FileServer.serve_close l.before.archive (t := l.before.table)
    (r := l.arrived msg page) htag).1
  rw [Link.Open, htable, hclose, FileServer.Table.get_remove]
  show ¬ (if msg.words.get 0 = msg.words.get 0 then _ else _ : Option _).isSome = true
  rw [if_pos rfl]
  nofun

/-- The server refuses an open, or makes a handle. -/
theorem Link.request_opens (hs : l.server.Sound) (hgood : (l.turns 0).Good) {msg : Message}
    {page : List UInt8} (htag : msg.tag = FileServer.tagOpen)
    (hserving : (l.request msg page).2.2.server.serving = true) :
    ∃ reply, (l.request msg page).1 = some reply ∧
      (reply.tag ≠ FileServer.tagError →
        (l.request msg page).2.2.server.table.Issued (reply.words.get 0)) := by
  obtain ⟨hbefore, hreply, -⟩ := Link.request_good hgood hserving
  refine ⟨_, hreply, fun hok => ?_⟩
  obtain ⟨code, hcode⟩ | ⟨e, h, t', -, hins, hserve⟩ :=
    FileServer.serve_open l.before.archive (t := l.before.table) (r := l.arrived msg page) htag
  · rw [hcode] at hok
    exact absurd rfl hok
  · rw [Link.request_arrives hgood.arrives] at hserving ⊢
    obtain ⟨-, -, htable⟩ := Server.serving_turn hserving
    rw [hserve] at htable ⊢
    exact (knows_of_open (Link.sound_before hs).1 hbefore hins htable).issued

theorem serving_request {tag a b d : BitVec 64} {withBuffer : Bool}
    (hs : (request tag a b d withBuffer p).2.link.server.serving = true) :
    p.link.server.serving = true := by
  cases hpage : p.page with
  | none =>
    simp only [request, hpage] at hs
    exact hs
  | some page =>
    rw [request_page hpage] at hs
    exact Link.serving_request hs

/-! ### The calls -/

theorem closeHandle_run (h : BitVec 64) (p : Process) :
    (closeHandle h p).2 = (request FileServer.tagClose h 0 0 false p).2 := by
  rw [closeHandle, Fd.bind_apply]
  generalize request FileServer.tagClose h 0 0 false p = r
  obtain ⟨_ | reply, p'⟩ := r
  · rfl
  · rfl

/-- **What an open comes to**: nothing is sent, or the server refuses, or it makes a handle, which
gets a descriptor or is closed again. -/
theorem openFile_cases (path : List UInt8) (p : Process) :
    ((openFile path p).2 = p ∧ made path p = none) ∨
      ∃ msg bytes page page', p.page = some page ∧ msg.tag = FileServer.tagOpen ∧
        (((∀ reply, (p.link.request msg bytes).1 = some reply → reply.tag = FileServer.tagError) ∧
            made path p = none ∧
            (openFile path p).2 = ⟨p.fds, some page', (p.link.request msg bytes).2.2⟩) ∨
          ∃ reply, (p.link.request msg bytes).1 = some reply ∧ reply.tag ≠ FileServer.tagError ∧
            made path p = some (reply.words.get 0) ∧
            ((∃ i, p.fds.kinds i = .free ∧ (openFile path p).2 =
                ⟨p.fds.installed i (.file (reply.words.get 0) (reply.words.get 1) 0), some page',
                  (p.link.request msg bytes).2.2⟩) ∨
              (openFile path p).2 = (request FileServer.tagClose (reply.words.get 0) 0 0 false
                ⟨p.fds, some page', (p.link.request msg bytes).2.2⟩).2)) := by
  rw [openFile, made]
  obtain hput | ⟨page, hpage, hlen, hput⟩ := putPath_cases path p
  · rw [Fd.bind_of_eq hput, hput]
    exact .inl ⟨rfl, rfl⟩
  refine .inr ⟨⟨FileServer.tagOpen, #v[.ofNat 64 (normalise path).length, 0, 0, 0], page.cap⟩,
    (page.filled (FileServer.write page.bytes (normalise path))).bytes, page, ?_⟩
  rw [Fd.bind_of_eq hput, hput]
  have hreq := request_page
    (p := { p with page := some (page.filled (FileServer.write page.bytes (normalise path))) })
    rfl FileServer.tagOpen (.ofNat 64 (normalise path).length) 0 0 true
  rw [if_pos rfl, Page.cap_filled] at hreq
  generalize p.link.request _ _ = r at hreq ⊢
  refine ⟨(page.filled (FileServer.write page.bytes (normalise path))).filled r.2.1, hpage, rfl, ?_⟩
  simp only [Fd.bind_of_eq hreq, hreq]
  obtain ⟨_ | reply, bytes, link⟩ := r
  · refine .inl ⟨fun reply h => ?_, rfl, rfl⟩
    cases h
  by_cases htag : reply.tag = FileServer.tagError
  · simp only [if_pos htag]
    refine .inl ⟨?_, trivial, rfl⟩
    rintro _ ⟨⟩
    exact htag
  simp only [if_neg htag]
  refine .inr ⟨reply, rfl, htag, rfl, ?_⟩
  have hinstall := onFds_apply (Fd.installFile (reply.words.get 0) (reply.words.get 1))
    ⟨p.fds, some ((page.filled (FileServer.write page.bytes (normalise path))).filled bytes), link⟩
  obtain hfull | ⟨i, hfree, hinst⟩ :=
    Fd.installFile_cases (reply.words.get 0) (reply.words.get 1) p.fds
  · rw [hfull] at hinstall
    rw [Fd.bind_of_eq hinstall, if_pos (by show (-1 : ℤ) < 0; decide)]
    exact .inr rfl
  · rw [hinst] at hinstall
    rw [Fd.bind_of_eq hinstall, if_neg (Int.not_lt.mpr (Fd.number_nonneg i))]
    exact .inl ⟨i, hfree, rfl⟩

/-- Telling the server about a handle: only this one may have lost its descriptor. -/
theorem sound_told {handles : List (BitVec 64)} (hs : p.link.server.Sound)
    (hissued : ∀ h' ∈ handles, p.link.server.table.Issued h')
    (hnamed : ∀ h' ∈ handles, h' ≠ h → p.link.Open h' → Named p.fds h')
    (hgood : ∀ n, (p.link.turns n).Good) (hpage : p.page ≠ none)
    (hserving : (request FileServer.tagClose h 0 0 false p).2.link.server.serving = true) :
    Client.Sound ⟨(request FileServer.tagClose h 0 0 false p).2, handles⟩ := by
  obtain ⟨page, hpage⟩ := Option.ne_none_iff_exists'.mp hpage
  rw [request_page hpage] at hserving ⊢
  have hfollows := Link.follows_request hs hgood
    ⟨FileServer.tagClose, #v[h, 0, 0, 0], if false then page.cap else .null⟩ page.bytes
  refine ⟨hfollows.sound, fun h' hh' => hfollows.issued h' (hissued h' hh'), fun h' hh' hopen => ?_,
    hfollows.good, nofun⟩
  refine hnamed h' hh' ?_ (hfollows.back h' (hissued h' hh') hopen)
  rintro rfl
  exact Link.request_close (hgood 0) rfl hserving hopen

/-- The names that a change of the table keeps. -/
theorem Client.Sound.of_fds (hc : c.Sound)
    (hnamed : ∀ h, c.process.link.Open h → Named c.process.fds h → Named fds h) :
    Client.Sound ⟨{ c.process with fds }, c.made⟩ :=
  ⟨hc.server, hc.issued, fun h hh hopen => hnamed h hopen (hc.named h hh hopen), hc.good, hc.page⟩

theorem named_update {k : Fd.Kind} {i : Fin Fd.maxFds} {s s' : Fd.Fds} (hfree : s.kinds i = .free)
    (hkinds : s'.kinds = Function.update s.kinds i k) (hn : Named s h) : Named s' h := by
  obtain ⟨j, hj⟩ := hn
  refine ⟨j, ?_⟩
  rw [hkinds, Function.update_of_ne]
  · exact hj
  · rintro rfl
    rw [hfree] at hj
    cases hj

/-- **Opening.** -/
theorem Client.Sound.openFile (hc : c.Sound) (path : List UInt8)
    (hserving : (c.step (.openFile path)).process.link.server.serving = true) :
    (c.step (.openFile path)).Sound := by
  rw [step] at hserving ⊢
  obtain ⟨hrun, hmade⟩ | ⟨msg, bytes, page, page', hpage, htag, h⟩ := openFile_cases path c.process
  · rw [hrun, hmade, Option.toList_none, List.append_nil]
    exact hc
  have hfollows := Link.follows_request hc.server hc.good msg bytes
  obtain ⟨-, hmade, hrun⟩ | ⟨reply, hreply, hok, hmade, hrun⟩ := h
  · -- the server refused
    rw [hrun, hmade, Option.toList_none, List.append_nil]
    exact ⟨hfollows.sound, fun h hh => hfollows.issued h (hc.issued h hh),
      fun h hh hopen => hc.named h hh (hfollows.back h (hc.issued h hh) hopen), hfollows.good,
          nofun⟩
  rw [hmade]
  have hserving' : (c.process.link.request msg bytes).2.2.server.serving = true := by
    obtain ⟨i, -, hrun⟩ | hrun := hrun
    · rw [hrun] at hserving
      exact hserving
    · rw [hrun] at hserving
      exact serving_request hserving
  obtain ⟨reply', hreply', hissued⟩ :=
    Link.request_opens hc.server (hc.good 0) htag hserving'
  obtain rfl := Option.some.inj (hreply.symm.trans hreply')
  have hall : ∀ h ∈ c.made ++ (some (reply.words.get 0)).toList,
      (c.process.link.request msg bytes).2.2.server.table.Issued h := by
    intro h hh
    obtain hh | hh := List.mem_append.mp hh
    · exact hfollows.issued h (hc.issued h hh)
    · rw [List.mem_singleton.mp hh]
      exact hissued hok
  have hold : ∀ h ∈ c.made ++ (some (reply.words.get 0)).toList, h ≠ reply.words.get 0 →
      (c.process.link.request msg bytes).2.2.Open h → Named c.process.fds h := by
    intro h hh hne hopen
    obtain hh | hh := List.mem_append.mp hh
    · exact hc.named h hh (hfollows.back h (hc.issued h hh) hopen)
    · exact absurd (List.mem_singleton.mp hh) hne
  obtain ⟨i, hfree, hrun⟩ | hrun := hrun
  · -- a descriptor names the new handle
    rw [hrun]
    refine ⟨hfollows.sound, hall, fun h hh hopen => ?_, hfollows.good, nofun⟩
    by_cases hnew : h = reply.words.get 0
    · refine ⟨i, ?_⟩
      rw [hnew]
      show (Function.update c.process.fds.kinds i _ i).handle = _
      rw [Function.update_self]
      rfl
    · exact named_update hfree rfl (hold h hh hnew hopen)
  · -- there was no descriptor, and the handle is closed
    rw [hrun] at hserving ⊢
    exact sound_told hfollows.sound hall hold hfollows.good nofun hserving

/-- The other names outlive a release. -/
theorem named_released {s : Fd.Fds} {i : Fin Fd.maxFds} (hn : Named s h)
    (hother : (s.kinds i).handle = some h → ∃ j, j ≠ i ∧ (s.kinds j).handle = some h) :
    Named (s.released i) h := by
  obtain ⟨j, hj⟩ := hn
  by_cases hji : j = i
  · subst hji
    obtain ⟨k, hkj, hk⟩ := hother hj
    exact ⟨k, by rw [Fd.Fds.kinds_released, Function.update_of_ne hkj, hk]⟩
  · exact ⟨j, by rw [Fd.Fds.kinds_released, Function.update_of_ne hji, hj]⟩

theorem Process.Kept.named {fd : ℤ} (hk : p.Kept fd) (hopen : p.link.Open h)
    (hn : Named p.fds h) : Named (Fd.release fd p.fds).2 h := by
  obtain hnone | ⟨i, rfl, hfree, hrel⟩ := Fd.release_cases fd p.fds
  · rw [hnone]
    exact hn
  · rw [hrel]
    exact named_released hn fun hi => hk i rfl h hi hopen

/-- **Closing.** -/
theorem Client.Sound.close (hc : c.Sound) (fd : ℤ)
    (hserving : (c.step (.close fd)).process.link.server.serving = true) :
    (c.step (.close fd)).Sound := by
  rw [step, Files.close, Fd.bind_of_eq (onFds_apply ..)] at hserving ⊢
  obtain hnone | ⟨i, rfl, hfree, hrel⟩ := Fd.release_cases fd c.process.fds
  · rw [hnone]
    exact hc
  rw [hrel] at hserving ⊢
  cases hh : (c.process.fds.kinds i).handle with
  | none =>
    refine hc.of_fds fun h _ hn => named_released hn fun hi => ?_
    rw [hh] at hi
    cases hi
  | some h =>
    rw [hh] at hserving
    dsimp only at hserving ⊢
    rw [closeHandle_run] at hserving ⊢
    by_cases hpage : c.process.page = none
    · -- nothing was ever sent
      have hnone : c.made = [] := hc.page hpage
      rw [hnone]
      simp only [request, hpage] at hserving ⊢
      exact ⟨hc.server, fun h hm => absurd hm List.not_mem_nil,
        fun h hm => absurd hm List.not_mem_nil, hc.good, fun _ => rfl⟩
    refine sound_told hc.server hc.issued (fun h' hh' hne hopen => ?_) hc.good hpage hserving
    refine named_released (hc.named h' hh' hopen) fun hi => ?_
    rw [hh] at hi
    exact absurd (Option.some.inj hi).symm hne

/-- **Replacing.** -/
theorem Client.Sound.dup3 (hc : c.Sound) (old new : ℤ)
    (hkept : c.process.fds.get old ≠ none → old ≠ new → c.process.Kept new) :
    (c.step (.dup3 old new)).Sound := by
  rw [step, onFds_apply]
  by_cases hrefused : c.process.fds.get old = none ∨ old = new
  · rw [Fd.dup3_refused hrefused]
    exact hc
  rw [not_or] at hrefused
  have hk := hkept hrefused.1 hrefused.2
  refine hc.of_fds fun h hopen hn => ?_
  have hrel := hk.named hopen hn
  obtain ⟨hrun, -⟩ | ⟨i, j, rfl, hj, rfl, hij, hrun⟩ :=
    Fd.dup3_cases old new c.process.fds hrefused.1 hrefused.2
  · rw [hrun]
    exact hrel
  · rw [hrun]
    refine named_update (i := i) (k := c.process.fds.kinds j) ?_ rfl hrel
    rw [Fd.kinds_release, Function.update_self]

theorem Client.Sound.closeFrom (hc : c.Sound) (first : ℤ) (n : ℕ)
    (hkept : c.process.KeptFrom first n) :
    Client.Sound ⟨(onFds (Fd.closeFrom first n) c.process).2, c.made⟩ := by
  induction n generalizing c first with
  | zero => exact hc
  | succ n ih =>
    have hrel : Client.Sound ⟨(onFds (Fd.release first) c.process).2, c.made⟩ :=
      hc.of_fds fun h hopen hn => hkept.1.named hopen hn
    exact ih hrel (first + 1) hkept.2

/-! ### Runs -/

/-- A server that serves after a call served before it. -/
theorem Client.serving_step {op : Op} (hs : (c.step op).process.link.server.serving = true) :
    c.process.link.server.serving = true := by
  cases op with
  | openFile path =>
    rw [step] at hs
    obtain ⟨hrun, -⟩ | ⟨msg, bytes, page, page', hpage, htag, h⟩ := openFile_cases path c.process
    · rwa [hrun] at hs
    obtain ⟨-, -, hrun⟩ | ⟨reply, hreply, hok, hmade, ⟨i, -, hrun⟩ | hrun⟩ := h
    · rw [hrun] at hs
      exact Link.serving_request hs
    · rw [hrun] at hs
      exact Link.serving_request hs
    · rw [hrun] at hs
      exact Link.serving_request (serving_request hs)
  | close fd =>
    rw [step, Files.close, Fd.bind_of_eq (onFds_apply ..)] at hs
    cases hrel : (Fd.release fd c.process.fds).1 with
    | none =>
      rw [hrel] at hs
      exact hs
    | some h =>
      rw [hrel] at hs
      dsimp only at hs
      rw [closeHandle_run] at hs
      exact serving_request (p := { c.process with fds := (Fd.release fd c.process.fds).2 }) hs
  | _ => exact hs

theorem Client.serving_run {ops : List Op} (hs : (c.run ops).process.link.server.serving = true) :
    c.process.link.server.serving = true := by
  induction ops generalizing c with
  | nil => exact hs
  | cons op ops ih => exact serving_step (ih hs)

/-- **One call** keeps a descriptor for each handle that is open. -/
theorem Client.Sound.step (hc : c.Sound) (op : Op) (hkept : op.Kept c.process)
    (hserving : (c.step op).process.link.server.serving = true) : (c.step op).Sound := by
  cases op with
  | openFile path => exact hc.openFile path hserving
  | dup fd =>
    refine hc.of_fds fun h _ hn => ?_
    obtain heq | ⟨i, j, -, -, hfree, hkinds, -⟩ := Fd.dup_cases fd c.process.fds
    · show Named (Fd.dup fd c.process.fds).2 h
      rwa [heq]
    · exact named_update hfree hkinds hn
  | dup3 old new => exact hc.dup3 old new hkept
  | dup2 old new => exact hc.dup3 old new hkept
  | close fd => exact hc.close fd hserving
  | closeRange first last => exact hc.closeFrom first _ hkept

theorem Client.Sound.run (hc : c.Sound) (ops : List Op) (hkept : c.AllKept ops)
    (hserving : (c.run ops).process.link.server.serving = true) : (c.run ops).Sound := by
  induction ops generalizing c with
  | nil => exact hc
  | cons op ops ih => exact ih (hc.step op hkept.1 (serving_run hserving)) hkept.2 hserving

/-- Each handle made for the client that is open at the server is named by a descriptor, and so a
client without files holds none. -/
structure Client.NoLeak (c : Client) : Prop where
  named : ∀ h ∈ c.made, c.process.link.Open h → Named c.process.fds h
  closed : (∀ i, (c.process.fds.kinds i).handle = none) → ∀ h ∈ c.made, ¬ c.process.link.Open h

/-- **No handle leaks** as long as what `dup2`, `dup3` and `close_range` release is no file, or a
file that is closed at the server already, or one that another descriptor names. -/
theorem handles_named (p : Process) (hs : p.link.server.Sound) (hgood : ∀ n, (p.link.turns n).Good)
    (ops : List Op) (hkept : Client.AllKept ops ⟨p, []⟩)
    (hserving : (Client.run ⟨p, []⟩ ops).process.link.server.serving = true) :
    (Client.run ⟨p, []⟩ ops).NoLeak := by
  have hstart : Client.Sound ⟨p, []⟩ := ⟨hs, nofun, nofun, hgood, fun _ => rfl⟩
  have hsound := hstart.run ops hkept hserving
  refine ⟨hsound.named, fun hnone h hh hopen => ?_⟩
  obtain ⟨i, hi⟩ := hsound.named h hh hopen
  rw [hnone i] at hi
  cases hi

instance (l : Link) (h : BitVec 64) : Decidable (l.Open h) :=
  inferInstanceAs (Decidable (_ = true))

set_option maxRecDepth 20000 in
/-- A file is opened and duplicated, the copy released, and the file closed. -/
theorem handles_named_copy : (Client.run ⟨process fun _ => goodTurn, []⟩
    [.openFile [97], .dup 3, .closeRange 4 4, .close 3]).NoLeak := by
  refine handles_named _ (FileServer.Server.sound_start archive) (fun _ => ⟨rfl, rfl, rfl⟩) _
    ⟨trivial, trivial, ⟨?_, trivial⟩, trivial, trivial⟩ (by decide +kernel)
  intro i hi h hh _
  obtain rfl : i = ⟨1, by decide⟩ := Fd.number_inj.mp (hi.symm.trans (by decide))
  have hcopy : ((Client.run ⟨process fun _ => goodTurn, []⟩
      [.openFile [97], .dup 3]).process.fds.kinds ⟨1, by decide⟩).handle = some 257 := by
    decide +kernel
  have hfirst : ((Client.run ⟨process fun _ => goodTurn, []⟩
      [.openFile [97], .dup 3]).process.fds.kinds ⟨0, by decide⟩).handle = some 257 := by
    decide +kernel
  obtain rfl := Option.some.inj (hcopy.symm.trans hh)
  exact ⟨⟨0, by decide⟩, by decide, hfirst⟩

set_option maxRecDepth 20000 in
/-- A file is opened and released by `close_range`, and its handle stays open. -/
theorem handles_leak : ¬ ∀ (p : Process) (_ : p.link.server.Sound)
    (_ : ∀ n, (p.link.turns n).Good) (ops : List Op),
    (Client.run ⟨p, []⟩ ops).process.link.server.serving = true →
      (Client.run ⟨p, []⟩ ops).NoLeak := by
  intro hall
  have hleak := hall (process fun _ => goodTurn) (FileServer.Server.sound_start archive)
    (fun _ => ⟨rfl, rfl, rfl⟩) [.openFile [97], .closeRange 3 3] (by decide +kernel)
  exact hleak.closed (by decide +kernel) 257 (by decide +kernel) (by decide +kernel)

end Files

end StarOS
