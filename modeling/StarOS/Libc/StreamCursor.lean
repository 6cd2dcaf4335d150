import StarOS.Libc.Stream

/-!
# A stream is a cursor

What the program sees of a stream is a place in the file, with at most one pushed-back byte. The
buffer holds the bytes from there on, and the descriptor is behind them.

## Main definitions

* `Stdio.Cursor` — what the program sees
* `Stdio.Follows` — a stream is at a cursor
* `Stdio.IsFile` — what the descriptor underneath has to be
* `Stdio.Op` with `run` and `spec` — a call on a stream, and on a cursor

## Main results

* `Stdio.Follows.take` — taking bytes out of a stream
* `Stdio.Follows.op`, `Stdio.Follows.runs` — one call, and a run
* `Stdio.stream_refines` — a stream on a file the server answers for is a cursor over it
-/

namespace StarOS

namespace Stdio

open Files (pageSize target)

/-! ### What the program sees -/

/-- A place in the content of a file, with at most one pushed-back byte. -/
structure Cursor where
  content : List UInt8
  pos : ℕ
  pushed : Option UInt8

namespace Cursor

/-- Where the program is. -/
def position (c : Cursor) : ℕ := c.pos - c.pushed.toList.length

/-- The bytes to come. -/
def upcoming (c : Cursor) : List UInt8 := c.pushed.toList ++ c.content.drop c.pos

/-- Past the next `k` bytes. -/
def advance (c : Cursor) : ℕ → Cursor
  | 0 => c
  | k + 1 => { c with pos := c.pos + (k + 1 - c.pushed.toList.length), pushed := none }

/-- The next `n` bytes, or as many as there are. -/
def take (c : Cursor) (n : ℕ) : List UInt8 × Cursor :=
  (c.upcoming.take n, c.advance (c.upcoming.take n).length)

/-- The bytes of a line: all up to a newline, with it. -/
def line (bytes : List UInt8) : List UInt8 :=
  bytes.takeWhile (· ≠ 10) ++ (bytes.dropWhile (· ≠ 10)).take 1

/-- Move to where a seek comes to. -/
def seek (c : Cursor) (offset : BitVec 64) (whence : ℤ) : Option Cursor :=
  (target c.content.length c.position offset whence).map fun pos => { c with pos, pushed := none }

end Cursor

variable {σ : Type} {io : Calls σ} {content : List UInt8} {At : σ → ℕ → Prop} {ok : σ → Prop}

/-- A descriptor of a file with this content. What it reads is right as long as all is well. -/
structure IsFile (io : Calls σ) (content : List UInt8) (At : σ → ℕ → Prop) (ok : σ → Prop) :
    Prop where
  fits : content.length < 2 ^ 63
  lt : ∀ d c, At d c → c < 2 ^ 63
  read : ∀ d c, At d c → ok (io.read bufferSize d).2 →
    (io.read bufferSize d).1 =
        ((((content.drop c).take bufferSize).length : ℤ), (content.drop c).take bufferSize) ∧
      At (io.read bufferSize d).2 (c + ((content.drop c).take bufferSize).length)
  read_ok : ∀ d n, ok (io.read n d).2 → ok d
  seek_none : ∀ d c offset whence, At d c → target content.length c offset whence = none →
    io.seek offset whence d = (-1, d)
  seek_some : ∀ d c offset whence c', At d c → target content.length c offset whence = some c' →
    (io.seek offset whence d).1 = c' ∧ At (io.seek offset whence d).2 c'
  seek_ok : ∀ d offset whence, ok (io.seek offset whence d).2 → ok d

/-- A stream is at a cursor: the buffer holds the bytes from the cursor on, and the descriptor is
behind them. -/
structure Follows (At : σ → ℕ → Prop) (s : Stream × σ) (c : Cursor) : Prop where
  pushed : s.1.ungot = c.pushed
  le : s.1.start ≤ s.1.stop
  ahead : At s.2 (c.pos + (s.1.stop - s.1.start))
  buffer : (s.1.buf.drop s.1.start).take (s.1.stop - s.1.start) =
    (c.content.drop c.pos).take (s.1.stop - s.1.start)
  full : s.1.stop - s.1.start ≤ (c.content.drop c.pos).length
  pushed_le : c.pushed.toList.length ≤ c.pos

variable {s : Stream} {d : σ} {c : Cursor} {n : ℕ}

theorem refill_ok (hio : IsFile io content At ok) {s : Stream × σ} (h : ok (refill io s).2.2) :
    ok s.2 := by
  obtain ⟨s, d⟩ := s
  rw [refill] at h
  split at h
  · exact h
  · refine hio.read_ok d bufferSize ?_
    split at h
    split at h
    · next hread _ =>
      rw [hread]
      exact h
    split at h
    · next hread _ _ =>
      rw [hread]
      exact h
    · next hread _ _ =>
      rw [hread]
      exact h

/-- **Refilling** finds bytes in the buffer unless the cursor is at the end. -/
theorem Follows.refill (hio : IsFile io content At ok) (h : Follows At (s, d) c)
    (hcontent : c.content = content) (hok : ok (refill io (s, d)).2.2) :
    Follows At (Stdio.refill io (s, d)).2 c ∧
      (Stdio.refill io (s, d)).1 =
        (Stdio.refill io (s, d)).2.1.stop - (Stdio.refill io (s, d)).2.1.start ∧
      ((Stdio.refill io (s, d)).1 = 0 → c.content.drop c.pos = []) := by
  subst hcontent
  rw [Stdio.refill] at hok ⊢
  split at hok
  · next hlt =>
    rw [if_pos hlt]
    exact ⟨h, rfl, fun hzero => absurd hzero (Nat.sub_ne_zero_of_lt hlt)⟩
  · next hge =>
    have hempty : s.stop - s.start = 0 := Nat.sub_eq_zero_of_le (Nat.le_of_not_lt hge)
    have hat := h.ahead
    rw [hempty, Nat.add_zero] at hat
    rw [if_neg hge]
    have hread := hio.read d c.pos hat
    generalize io.read bufferSize d = r at hok hread ⊢
    obtain ⟨⟨got, bytes⟩, d'⟩ := r
    have hokd : ok d' := by
      dsimp only at hok
      split at hok
      · exact hok
      split at hok
      · exact hok
      · exact hok
    obtain ⟨hr, hat'⟩ := hread hokd
    obtain ⟨rfl, rfl⟩ := Prod.mk.inj hr
    generalize hdata : (c.content.drop c.pos).take bufferSize = data at hat' ⊢
    dsimp only
    rw [if_neg (by omega)]
    split
    · next hzero =>
      have hnil : data = [] := List.length_eq_zero_iff.mp (Int.ofNat_eq_zero.mp hzero)
      refine ⟨⟨h.pushed, Nat.le_refl _, ?_, rfl, Nat.zero_le _, h.pushed_le⟩, rfl, fun _ => ?_⟩
      · rw [hnil] at hat'
        exact hat'
      · rw [hnil, List.take_eq_nil_iff] at hdata
        exact hdata.resolve_left (by decide)
    · next hne =>
      have hlen : data.length ≤ (c.content.drop c.pos).length := by
        rw [← hdata]
        exact List.length_take_le' ..
      refine ⟨⟨h.pushed, Nat.zero_le _, hat', ?_, hlen, h.pushed_le⟩, rfl, fun hzero => ?_⟩
      · rw [List.drop_zero, Int.toNat_natCast, Nat.sub_zero, List.take_left, ← hdata,
          List.length_take]
        exact List.take_eq_take_min
      · exact absurd (Int.ofNat_eq_zero.mpr ((Int.toNat_natCast _).symm.trans hzero)) hne

theorem takeLoop_ok (hio : IsFile io content At ok) (n : ℕ) {s : Stream × σ}
    (h : ok (takeLoop io n s).2.2) : ok s.2 := by
  induction n using Nat.strongRecOn generalizing s with
  | ind n ih =>
    rw [takeLoop] at h
    split at h
    · exact h
    · next hn =>
      refine refill_ok hio ?_
      generalize hrefill : refill io s = r at h ⊢
      obtain ⟨available, s', d'⟩ := r
      dsimp only at h ⊢
      split at h
      · exact h
      · exact ih _ (by omega) h

/-- **Taking bytes** that were not pushed back. -/
theorem Follows.takeLoop (hio : IsFile io content At ok) (n : ℕ) {s : Stream × σ} {c : Cursor}
    (h : Follows At s c) (hcontent : c.content = content) (hpushed : c.pushed = none)
    (hok : ok (takeLoop io n s).2.2) :
    (Stdio.takeLoop io n s).1 = (c.content.drop c.pos).take n ∧
      Follows At (Stdio.takeLoop io n s).2
        { c with pos := c.pos + ((c.content.drop c.pos).take n).length } := by
  induction n using Nat.strongRecOn generalizing s c with
  | ind n ih =>
    rw [Stdio.takeLoop] at hok ⊢
    split at hok
    · next hn =>
      subst hn
      exact ⟨rfl, h⟩
    next hn =>
    rw [dif_neg hn]
    have hstep := h.refill hio hcontent
    have hback := takeLoop_ok (s := (Stdio.refill io s).2) hio
    generalize Stdio.refill io s = r at hok hstep hback ⊢
    obtain ⟨available, s', d'⟩ := r
    dsimp only at hok hstep ⊢
    split at hok
    · next hzero =>
      obtain ⟨h', -, hend⟩ := hstep hok
      rw [dif_pos hzero, hend hzero]
      refine ⟨by rw [List.take_nil], ?_⟩
      rw [List.take_nil, List.length_nil, Nat.add_zero]
      exact h'
    next hne =>
    rw [dif_neg hne]
    have hok' : ok d' := takeLoop_ok (s := ({ s' with start := s'.start + min available n }, d'))
      hio _ hok
    obtain ⟨h', rfl, -⟩ := hstep hok'
    -- what is handed over are the next bytes of the file
    generalize hk : min (s'.stop - s'.start) n = k at hok ⊢
    have hkle : k ≤ s'.stop - s'.start := hk ▸ Nat.min_le_left ..
    have hkn : k ≤ n := hk ▸ Nat.min_le_right ..
    have hkpos : k ≠ 0 := by
      rw [← hk]
      omega
    have hdata : (s'.buf.drop s'.start).take k = (c.content.drop c.pos).take k := by
      rw [← Nat.min_eq_left hkle, ← List.take_take, h'.buffer, List.take_take]
    have hlen : ((c.content.drop c.pos).take k).length = k :=
      List.length_take_of_le (Nat.le_trans hkle h'.full)
    have hmoved : Follows At ({ s' with start := s'.start + k }, d')
      { c with pos := c.pos + k } := by
      have hle := h'.le
      have hrest : s'.stop - (s'.start + k) = s'.stop - s'.start - k := by omega
      refine ⟨h'.pushed, by show s'.start + k ≤ s'.stop; omega, ?_, ?_, ?_, ?_⟩
      · show At d' (c.pos + k + (s'.stop - (s'.start + k)))
        have hsum : c.pos + k + (s'.stop - (s'.start + k)) = c.pos + (s'.stop - s'.start) := by
          omega
        rw [hsum]
        exact h'.ahead
      · show (s'.buf.drop (s'.start + k)).take (s'.stop - (s'.start + k)) =
          (c.content.drop (c.pos + k)).take (s'.stop - (s'.start + k))
        rw [hrest, ← List.drop_drop, ← List.drop_take, h'.buffer, List.drop_take, List.drop_drop]
      · show s'.stop - (s'.start + k) ≤ (c.content.drop (c.pos + k)).length
        have hfull : s'.stop - s'.start ≤ (c.content.drop c.pos).length := h'.full
        rw [hrest, ← List.drop_drop, List.length_drop]
        omega
      · exact Nat.le_trans h'.pushed_le (Nat.le_add_right ..)
    obtain ⟨hmore, hend⟩ := ih (n - k) (by omega) hmoved hcontent hpushed hok
    dsimp only at hmore hend
    have hsplit : (c.content.drop c.pos).take k ++ (c.content.drop (c.pos + k)).take (n - k) =
        (c.content.drop c.pos).take n := by
      rw [← List.drop_drop, ← List.take_add, Nat.add_sub_cancel' hkn]
    refine ⟨by rw [hmore, hdata, hsplit], ?_⟩
    have hpos : c.pos + k + ((c.content.drop (c.pos + k)).take (n - k)).length =
        c.pos + ((c.content.drop c.pos).take n).length := by
      rw [← hsplit, List.length_append, hlen, Nat.add_assoc]
    rw [← hpos]
    exact hend

/-! ### One call -/

namespace Cursor

theorem content_advance (c : Cursor) (k : ℕ) : (c.advance k).content = c.content := by
  cases k <;> rfl

theorem advance_add (c : Cursor) (j k : ℕ) : (c.advance j).advance k = c.advance (j + k) := by
  cases j with
  | zero => rw [Nat.zero_add]; rfl
  | succ j =>
    cases k with
    | zero => rfl
    | succ k =>
      have hle : c.pushed.toList.length ≤ 1 := by cases c.pushed <;> simp
      show ({ c with pos := _, pushed := none } : Cursor) = { c with pos := _, pushed := none }
      congr 1
      show c.pos + (j + 1 - c.pushed.toList.length) + (k + 1 - 0) =
        c.pos + (j + 1 + k + 1 - c.pushed.toList.length)
      omega

theorem upcoming_advance (c : Cursor) (k : ℕ) : (c.advance k).upcoming = c.upcoming.drop k := by
  cases k with
  | zero => rfl
  | succ k =>
    obtain ⟨content, pos, _ | b⟩ := c
    · simp [advance, upcoming]
    · simp [advance, upcoming]

end Cursor

theorem take_zero (s : Stream × σ) : take io 0 s = ([], s) := by
  have hloop : takeLoop io 0 s = ([], s) := by rw [takeLoop, dif_pos rfl]
  obtain ⟨s, d⟩ := s
  cases hs : s.ungot <;> simp only [take, hs, hloop]

theorem take_of_none {n : ℕ} (hs : s.ungot = none) : take io n (s, d) = takeLoop io n (s, d) := by
  simp only [take, hs]

theorem take_of_some {n : ℕ} {b : UInt8} (hs : s.ungot = some b) :
    take io (n + 1) (s, d) = (b :: (takeLoop io n ({ s with ungot := none }, d)).1,
      (takeLoop io n ({ s with ungot := none }, d)).2) := by
  simp only [take, hs]

theorem take_ok (hio : IsFile io content At ok) (n : ℕ) {s : Stream × σ}
    (h : ok (take io n s).2.2) :
    ok s.2 := by
  obtain ⟨s, d⟩ := s
  cases n with
  | zero =>
    rw [take_zero] at h
    exact h
  | succ n =>
    cases hs : s.ungot with
    | none =>
      rw [take_of_none hs] at h
      exact takeLoop_ok (s := (s, d)) hio _ h
    | some b =>
      rw [take_of_some hs] at h
      exact takeLoop_ok (s := ({ s with ungot := none }, d)) hio _ h

/-- **Taking bytes out of a stream.** -/
theorem Follows.take (hio : IsFile io content At ok) (n : ℕ) {s : Stream × σ} {c : Cursor}
    (h : Follows At s c) (hcontent : c.content = content) (hok : ok (take io n s).2.2) :
    (Stdio.take io n s).1 = (c.take n).1 ∧ Follows At (Stdio.take io n s).2 (c.take n).2 := by
  obtain ⟨s, d⟩ := s
  obtain ⟨cont, pos, pushed⟩ := c
  obtain rfl : s.ungot = pushed := h.pushed
  cases n with
  | zero =>
    rw [take_zero]
    exact ⟨rfl, h⟩
  | succ n =>
    cases hs : s.ungot with
    | none =>
      rw [hs] at h
      rw [take_of_none hs] at hok ⊢
      obtain ⟨hbytes, hend⟩ := h.takeLoop hio (n + 1) hcontent rfl hok
      refine ⟨hbytes, ?_⟩
      generalize hk : ((cont.drop pos).take (n + 1)).length = k at hend
      have hadv : (Cursor.mk cont pos none).advance k = ⟨cont, pos + k, none⟩ := by
        cases k with
        | zero => rfl
        | succ k => rfl
      have htake : ((Cursor.mk cont pos none).take (n + 1)).2 = ⟨cont, pos + k, none⟩ := by
        rw [← hadv, ← hk]
        rfl
      rw [htake]
      exact hend
    | some b =>
      rw [hs] at h
      rw [take_of_some hs] at hok ⊢
      have h' : Follows At ({ s with ungot := none }, d) ⟨cont, pos, none⟩ :=
        ⟨rfl, h.le, h.ahead, h.buffer, h.full, Nat.zero_le _⟩
      obtain ⟨hbytes, hend⟩ := h'.takeLoop hio n hcontent rfl hok
      rw [hbytes]
      exact ⟨rfl, hend⟩

theorem content_take (c : Cursor) (n : ℕ) : (c.take n).2.content = c.content := c.content_advance _

theorem fgetsLoop_ok (hio : IsFile io content At ok) (room : ℕ) {s : Stream × σ}
    (h : ok (fgetsLoop io room s).2.2) : ok s.2 := by
  induction room generalizing s with
  | zero => exact h
  | succ room ih =>
    refine take_ok hio 1 ?_
    rw [fgetsLoop, Fd.bind_apply] at h
    generalize take io 1 s = r at h ⊢
    obtain ⟨_ | ⟨b, bytes⟩, s'⟩ := r
    · exact h
    · dsimp only at h
      split at h
      · exact h
      · exact ih h

/-- **Reading a line.** -/
theorem Follows.fgetsLoop (hio : IsFile io content At ok) (room : ℕ) {s : Stream × σ} {c : Cursor}
    (h : Follows At s c) (hcontent : c.content = content) (hok : ok (fgetsLoop io room s).2.2) :
    (Stdio.fgetsLoop io room s).1 = Cursor.line (c.upcoming.take room) ∧
      Follows At (Stdio.fgetsLoop io room s).2
        (c.advance (Cursor.line (c.upcoming.take room)).length) := by
  induction room generalizing s c with
  | zero =>
    rw [List.take_zero]
    exact ⟨rfl, h⟩
  | succ room ih =>
    have htake := h.take hio 1 hcontent
    rw [Stdio.fgetsLoop, Fd.bind_apply] at hok ⊢
    generalize Stdio.take io 1 s = r at htake hok ⊢
    obtain ⟨bytes, s'⟩ := r
    have hok' : ok s'.2 := by
      dsimp only at hok
      split at hok
      · exact hok
      · split at hok
        · exact hok
        · exact fgetsLoop_ok hio room hok
    obtain ⟨hbytes, h'⟩ := htake hok'
    cases hup : c.upcoming with
    | nil =>
      simp only [Cursor.take, hup, List.take_nil, List.length_nil] at hbytes h'
      rw [hbytes]
      exact ⟨rfl, h'⟩
    | cons b rest =>
      simp only [Cursor.take, hup, List.take_succ_cons, List.take_zero, List.length_cons,
        List.length_nil, Nat.zero_add] at hbytes h'
      subst hbytes
      dsimp only at hok ⊢
      have hline : Cursor.line (b :: rest.take room) =
          if b = 10 then [b] else b :: Cursor.line (rest.take room) := by
        by_cases hb : b = 10
        · simp [Cursor.line, hb]
        · simp [Cursor.line, hb]
      rw [List.take_succ_cons, hline]
      by_cases hb : b = 10
      · simp only [if_pos hb]
        exact ⟨rfl, h'⟩
      · simp only [if_neg hb] at hok ⊢
        have hrest : (c.advance 1).upcoming = rest := by rw [c.upcoming_advance, hup]; rfl
        obtain ⟨hmore, hend⟩ := ih h' ((c.content_advance 1).trans hcontent) hok
        rw [hrest] at hmore hend
        rw [Fd.bind_apply, hmore, Fd.pure_apply]
        refine ⟨rfl, ?_⟩
        rw [List.length_cons, Nat.add_comm, ← c.advance_add]
        exact hend

/-! ### Seeks -/

theorem Follows.buffered_eq {s : Stream × σ} {c : Cursor} (h : Follows At s c) :
    c.pos + (s.1.stop - s.1.start) = c.position + s.1.buffered := by
  have hle := h.pushed_le
  rw [Cursor.position, Stream.buffered, h.pushed]
  cases hpushed : c.pushed with
  | none => simp
  | some b =>
    rw [hpushed] at hle
    have hpos : 1 ≤ c.pos := hle
    show c.pos + _ = c.pos - 1 + (_ + 1)
    omega

/-- The seek that makes up for the buffer comes to where the program wants to be, whatever wraps. -/
theorem target_adjusted (size : ℕ) {off buffered position : ℕ} (offset : BitVec 64) (whence : ℤ)
    (hoff : off < 2 ^ 63) (heq : off = position + buffered) :
    target size off (if whence = 1 then offset - .ofNat 64 buffered else offset) whence =
      target size position offset whence := by
  by_cases hw : whence = 1
  · subst hw
    have hlt : offset.toInt < 2 ^ 63 := offset.toInt_lt
    have hge : -2 ^ 63 ≤ offset.toInt := offset.le_toInt
    have hbuf : buffered < 2 ^ 63 := by omega
    have hsub : (offset - .ofNat 64 buffered).toInt = (offset.toInt - buffered).bmod (2 ^ 64) := by
      rw [BitVec.toInt_sub, Files.toInt_ofNat hbuf]
    rw [if_pos rfl, target, target]
    simp only [one_ne_zero, if_false, if_true, Option.bind_some, hsub]
    congr 1
    generalize offset.toInt = a at hlt hge
    by_cases hwrap : -2 ^ 63 ≤ a - buffered
    · have hmod : (a - buffered).bmod (2 ^ 64) = a - buffered := by
        exact Int.bmod_eq_of_le (by omega) (by omega)
      have hsum : (off : ℤ) + (a - buffered) = position + a := by omega
      rw [hmod, Files.checkedAdd, Files.checkedAdd, hsum]
    · -- the difference wraps, and the program asks for a place before the start
      have hmod : (a - buffered).bmod (2 ^ 64) = a - buffered + 2 ^ 64 := by
        have hle : (a - buffered + (2 ^ 64 : ℕ)).bmod (2 ^ 64) = a - buffered + (2 ^ 64 : ℕ) :=
          Int.bmod_eq_of_le (by omega) (by omega)
        rw [Int.add_bmod_right] at hle
        rw [hle]
        rfl
      have hover : ¬ (-2 ^ 63 ≤ (off : ℤ) + (a - buffered + 2 ^ 64) ∧
          (off : ℤ) + (a - buffered + 2 ^ 64) < 2 ^ 63) := by omega
      have hneg : ¬ 0 ≤ (position : ℤ) + a := by omega
      rw [hmod, Files.checkedAdd, Files.checkedAdd, if_neg hover]
      split
      · simp only [Option.filter_some, decide_eq_true_eq, if_neg hneg, Option.filter_none]
      · rfl
  · rw [if_neg hw, target, target]
    simp only [if_neg hw]

/-- **Moving the stream.** -/
theorem Follows.fseeko (hio : IsFile io content At ok) {s : Stream × σ} {c : Cursor}
    (h : Follows At s c) (hcontent : c.content = content) (offset : BitVec 64) (whence : ℤ) :
    match c.seek offset whence with
    | none => Stdio.fseeko io offset whence s = (-1, s)
    | some c' => (Stdio.fseeko io offset whence s).1 = c'.pos ∧
        Follows At (Stdio.fseeko io offset whence s).2 c' := by
  subst hcontent
  obtain ⟨s, d⟩ := s
  have hat := h.ahead
  have ht := target_adjusted c.content.length offset whence (hio.lt d _ hat) h.buffered_eq
  rw [Cursor.seek]
  cases hto : target c.content.length c.position offset whence with
  | none =>
    have hseek := hio.seek_none d _ _ whence hat (ht.trans hto)
    simp only [Option.map_none, Stdio.fseeko, hseek]
    rfl
  | some c' =>
    have hseek := hio.seek_some d _ _ whence c' hat (ht.trans hto)
    simp only [Option.map_some, Stdio.fseeko]
    generalize io.seek _ whence d = r at hseek ⊢
    obtain ⟨position, d'⟩ := r
    obtain ⟨rfl, hat'⟩ := hseek
    dsimp only
    rw [if_neg (by omega)]
    exact ⟨rfl, ⟨rfl, Nat.le_refl _, hat', rfl, Nat.zero_le _, Nat.zero_le _⟩⟩

/-- A seek from where the cursor is. -/
theorem target_cur (size off : ℕ) (offset : BitVec 64) : target size off offset 1 =
    ((Files.checkedAdd off offset.toInt).filter (0 ≤ ·)).map Int.toNat := by
  simp only [target, one_ne_zero, if_false, if_true, Option.bind_some]

theorem target_here (size : ℕ) {off : ℕ} (hoff : off < 2 ^ 63) :
    target size off 0 1 = some off := by
  have hzero : (0 : BitVec 64).toInt = 0 := BitVec.toInt_zero
  have hb : -2 ^ 63 ≤ (off : ℤ) ∧ (off : ℤ) < 2 ^ 63 := by omega
  rw [target_cur, hzero, Files.checkedAdd, Int.add_zero, if_pos hb]
  simp

/-- **Where the stream is.** -/
theorem Follows.ftello (hio : IsFile io content At ok) {s : Stream × σ} {c : Cursor}
    (h : Follows At s c) (hcontent : c.content = content) :
    (Stdio.ftello io s).1 = c.position ∧ Follows At (Stdio.ftello io s).2 c := by
  subst hcontent
  obtain ⟨s, d⟩ := s
  have hat := h.ahead
  have hlt := hio.lt d _ hat
  have heq := h.buffered_eq
  dsimp only at hat hlt heq
  have ht := target_here c.content.length hlt
  have hseek := hio.seek_some d _ _ _ _ hat ht
  simp only [Stdio.ftello]
  generalize io.seek 0 1 d = r at hseek ⊢
  obtain ⟨position, d'⟩ := r
  obtain ⟨rfl, hat'⟩ := hseek
  dsimp only
  rw [if_neg (by omega), heq]
  exact ⟨by omega, ⟨h.pushed, h.le, heq ▸ hat', h.buffer, h.full, h.pushed_le⟩⟩

/-! ### Runs -/

/-- A call on a stream. -/
inductive Op
  | fgetc
  | fread (size count : ℕ)
  | fgets (size : ℤ)
  | ungetc (c : ℤ)
  | fseek (offset : BitVec 64) (whence : ℤ)
  | fseeko (offset : BitVec 64) (whence : ℤ)
  | ftell
  | rewind

/-- What a call answers: a number, and bytes. -/
structure Result where
  value : ℤ
  bytes : Option (List UInt8)
  deriving DecidableEq

/-- A call on the stream. -/
def Op.run (io : Calls σ) : Op → StateM (Stream × σ) Result
  | .fgetc => do return ⟨← Stdio.fgetc io, none⟩
  | .fread size count => do
    let (items, bytes) ← Stdio.fread io size count
    return ⟨items, bytes⟩
  | .fgets size => do return ⟨0, ← Stdio.fgets io size⟩
  | .ungetc c => do return ⟨← Stdio.ungetc c, none⟩
  | .fseek offset whence => do return ⟨← Stdio.fseek io offset whence, none⟩
  | .fseeko offset whence => do return ⟨← Stdio.fseeko io offset whence, none⟩
  | .ftell => do return ⟨← Stdio.ftello io, none⟩
  | .rewind => do
    Stdio.rewind io
    return ⟨0, none⟩

/-- The same call on the cursor. -/
def Op.spec : Op → Cursor → Result × Cursor
  | .fgetc, c => (⟨match c.upcoming with | [] => eof | b :: _ => b.toNat, none⟩, (c.take 1).2)
  | .fread size count, c =>
    if size = 0 ∨ count = 0 ∨ size * count ≥ 2 ^ 64 then (⟨0, some []⟩, c)
    else (⟨((c.take (size * count)).1.length / size : ℕ), (c.take (size * count)).1⟩,
      (c.take (size * count)).2)
  | .fgets size, c =>
    let bytes := Cursor.line (c.upcoming.take (size.toNat - 1))
    (⟨0, if bytes = [] then none else some bytes⟩, c.advance bytes.length)
  | .ungetc b, c =>
    if b = eof ∨ c.pushed.isSome then (⟨eof, none⟩, c)
    else (⟨b % 256, none⟩, { c with pushed := some (.ofNat (b % 256).toNat) })
  | .fseek offset whence, c =>
    match c.seek offset whence with
    | none => (⟨-1, none⟩, c)
    | some c' => (⟨0, none⟩, c')
  | .fseeko offset whence, c =>
    match c.seek offset whence with
    | none => (⟨-1, none⟩, c)
    | some c' => (⟨c'.pos, none⟩, c')
  | .ftell, c => (⟨c.position, none⟩, c)
  | .rewind, c => (⟨0, none⟩, { c with pos := 0, pushed := none })

/-- Nothing is pushed back at the start of the file. -/
def Op.Allowed (c : Cursor) : Op → Prop
  | .ungetc _ => c.position ≠ 0
  | _ => True

/-- All the calls of a list, one after another. -/
def runs (io : Calls σ) : List Op → Stream × σ → List Result × Stream × σ
  | [], s => ([], s)
  | op :: ops, s =>
    let (r, s) := op.run io s
    let (rs, s) := runs io ops s
    (r :: rs, s)

def specs : List Op → Cursor → List Result
  | [], _ => []
  | op :: ops, c => (op.spec c).1 :: specs ops (op.spec c).2

def AllAllowed : List Op → Cursor → Prop
  | [], _ => True
  | op :: ops, c => op.Allowed c ∧ AllAllowed ops (op.spec c).2

/-! ### What each call comes to -/

theorem fgetc_apply (s : Stream × σ) : fgetc io s =
    (match (take io 1 s).1 with | [b] => (b.toNat : ℤ) | _ => eof, (take io 1 s).2) := by
  rw [fgetc, Fd.bind_apply]
  obtain ⟨_ | ⟨b, _ | ⟨b', bytes⟩⟩, s'⟩ := take io 1 s
  all_goals rfl

theorem fread_none {size count : ℕ} (h : size = 0 ∨ count = 0 ∨ size * count ≥ 2 ^ 64)
    (s : Stream × σ) : fread io size count s = ((0, []), s) := by
  by_cases hnone : size = 0 ∨ count = 0
  · rw [fread, if_pos hnone]
    rfl
  · rw [fread, if_neg hnone]
    rw [← or_assoc] at h
    simp only [if_pos (h.resolve_left hnone)]
    rfl

theorem fread_some {size count : ℕ} (h : ¬ (size = 0 ∨ count = 0 ∨ size * count ≥ 2 ^ 64))
    (s : Stream × σ) : fread io size count s =
      (((take io (size * count) s).1.length / size, (take io (size * count) s).1),
        (take io (size * count) s).2) := by
  rw [← or_assoc, not_or] at h
  rw [fread, if_neg h.1]
  simp only [if_neg h.2]
  rfl

theorem fgets_none {size : ℤ} (h : size ≤ 0) (s : Stream × σ) : fgets io size s = (none, s) := by
  rw [fgets, if_pos h]
  rfl

theorem fgets_some {size : ℤ} (h : ¬ size ≤ 0) (s : Stream × σ) : fgets io size s =
    (if (fgetsLoop io (size.toNat - 1) s).1 = [] then none
      else some (fgetsLoop io (size.toNat - 1) s).1, (fgetsLoop io (size.toNat - 1) s).2) := by
  rw [fgets, if_neg h]
  simp only [Fd.bind_apply]
  generalize fgetsLoop io _ s = r
  obtain ⟨bytes, s'⟩ := r
  by_cases hb : bytes = []
  · simp only [if_pos hb]
    rfl
  · simp only [if_neg hb]
    rfl

theorem fseek_apply (offset : BitVec 64) (whence : ℤ) (s : Stream × σ) :
    fseek io offset whence s =
      (if (fseeko io offset whence s).1 < 0 then -1 else 0, (fseeko io offset whence s).2) := by
  rw [fseek, Fd.bind_apply]
  by_cases hneg : (fseeko io offset whence s).1 < 0
  · simp only [if_pos hneg]
    rfl
  · simp only [if_neg hneg]
    rfl

/-! ### The answers were right -/

/-- A seek leaves the descriptor where the seek underneath does. -/
theorem fseeko_end (offset : BitVec 64) (whence : ℤ) (s : Stream) (d : σ) :
    (fseeko io offset whence (s, d)).2.2 =
      (io.seek (if whence = 1 then offset - .ofNat 64 s.buffered else offset) whence d).2 := by
  rw [fseeko]
  generalize io.seek _ whence d = r
  obtain ⟨position, d'⟩ := r
  show (ite (position < 0) _ _ : ℤ × Stream × σ).2.2 = d'
  split
  · rfl
  · rfl

theorem ftello_end (s : Stream) (d : σ) : (ftello io (s, d)).2.2 = (io.seek 0 1 d).2 := by
  rw [ftello]
  generalize io.seek 0 1 d = r
  obtain ⟨position, d'⟩ := r
  show (ite (position < 0) _ _ : ℤ × Stream × σ).2.2 = d'
  split
  · rfl
  · rfl

theorem fseeko_ok (hio : IsFile io content At ok) {offset : BitVec 64} {whence : ℤ}
    {s : Stream × σ} (h : ok (fseeko io offset whence s).2.2) : ok s.2 := by
  rw [fseeko_end] at h
  exact hio.seek_ok _ _ _ h

theorem op_ok (hio : IsFile io content At ok) {op : Op} {s : Stream × σ}
    (h : ok (op.run io s).2.2) :
    ok s.2 := by
  cases op with
  | fgetc =>
    rw [Op.run, Fd.bind_apply, fgetc_apply] at h
    exact take_ok hio 1 h
  | fread size count =>
    rw [Op.run, Fd.bind_apply] at h
    by_cases hnone : size = 0 ∨ count = 0 ∨ size * count ≥ 2 ^ 64
    · rw [fread_none hnone] at h
      exact h
    · rw [fread_some hnone] at h
      exact take_ok hio _ h
  | fgets size =>
    rw [Op.run, Fd.bind_apply] at h
    by_cases hsize : size ≤ 0
    · rw [fgets_none hsize] at h
      exact h
    · rw [fgets_some hsize] at h
      exact fgetsLoop_ok hio _ h
  | ungetc b =>
    rw [Op.run, Fd.bind_apply, ungetc] at h
    split at h
    · exact h
    · split at h
      · exact h
      · exact h
  | fseek offset whence =>
    rw [Op.run, Fd.bind_apply, fseek_apply] at h
    exact fseeko_ok hio h
  | fseeko offset whence => exact fseeko_ok hio h
  | ftell =>
    rw [Op.run, Fd.bind_apply, Fd.pure_apply, ftello_end] at h
    exact hio.seek_ok _ _ _ h
  | rewind => exact fseeko_ok hio h

theorem seek_start (c : Cursor) : c.seek 0 0 = some { c with pos := 0, pushed := none } := by
  simp [Cursor.seek, target, Files.checkedAdd]

theorem content_seek {c c' : Cursor} {offset : BitVec 64} {whence : ℤ}
    (h : c.seek offset whence = some c') : c'.content = c.content := by
  obtain ⟨pos, -, rfl⟩ := Option.map_eq_some_iff.mp h
  rfl

/-- **One call** answers what the cursor has, and the stream is where the cursor is. -/
theorem Follows.op (hio : IsFile io content At ok) (op : Op) {s : Stream × σ} {c : Cursor}
    (h : Follows At s c) (hcontent : c.content = content) (hallowed : op.Allowed c)
    (hok : ok (op.run io s).2.2) :
    (op.run io s).1 = (op.spec c).1 ∧ Follows At (op.run io s).2 (op.spec c).2 ∧
      (op.spec c).2.content = content := by
  cases op with
  | fgetc =>
    rw [Op.run, Fd.bind_apply, fgetc_apply] at hok ⊢
    obtain ⟨hbytes, hend⟩ := h.take hio 1 hcontent hok
    rw [hbytes]
    refine ⟨?_, hend, (content_take c 1).trans hcontent⟩
    show Result.mk _ _ = Result.mk _ _
    congr 1
    rw [Cursor.take]
    cases c.upcoming with
    | nil => rfl
    | cons b rest => rfl
  | fread size count =>
    rw [Op.run, Fd.bind_apply] at hok ⊢
    by_cases hnone : size = 0 ∨ count = 0 ∨ size * count ≥ 2 ^ 64
    · rw [fread_none hnone, Op.spec, if_pos hnone]
      exact ⟨rfl, h, hcontent⟩
    · rw [fread_some hnone] at hok ⊢
      obtain ⟨hbytes, hend⟩ := h.take hio (size * count) hcontent hok
      rw [hbytes, Op.spec, if_neg hnone]
      exact ⟨rfl, hend, (content_take c _).trans hcontent⟩
  | fgets size =>
    rw [Op.run, Fd.bind_apply] at hok ⊢
    by_cases hsize : size ≤ 0
    · have hroom : size.toNat - 1 = 0 := by omega
      rw [fgets_none hsize, Op.spec, hroom, List.take_zero]
      exact ⟨rfl, h, hcontent⟩
    · rw [fgets_some hsize] at hok ⊢
      obtain ⟨hbytes, hend⟩ := h.fgetsLoop hio (size.toNat - 1) hcontent hok
      rw [hbytes]
      exact ⟨rfl, hend, (c.content_advance _).trans hcontent⟩
  | ungetc b =>
    obtain ⟨s, d⟩ := s
    have hpushed := h.pushed
    dsimp only at hpushed
    rw [Op.run, Fd.bind_apply, ungetc, hpushed, Op.spec]
    by_cases hb : b = eof
    · rw [if_pos hb, if_pos (.inl hb)]
      exact ⟨rfl, h, hcontent⟩
    · by_cases hsome : c.pushed.isSome
      · rw [if_neg hb, if_pos hsome, if_pos (.inr hsome)]
        exact ⟨rfl, h, hcontent⟩
      · have hnone : c.pushed = none := Option.not_isSome_iff_eq_none.mp hsome
        have hpos : c.position ≠ 0 := hallowed
        rw [Cursor.position, hnone] at hpos
        rw [if_neg hb, if_neg hsome, if_neg (not_or.mpr ⟨hb, hsome⟩)]
        exact ⟨rfl, ⟨rfl, h.le, h.ahead, h.buffer, h.full, Nat.one_le_iff_ne_zero.mpr hpos⟩,
          hcontent⟩
  | fseek offset whence =>
    have hseek := h.fseeko hio hcontent offset whence
    rw [Op.run, Fd.bind_apply, fseek_apply, Op.spec]
    cases hc : c.seek offset whence with
    | none =>
      rw [hc] at hseek
      rw [hseek]
      exact ⟨rfl, h, hcontent⟩
    | some c' =>
      rw [hc] at hseek
      rw [hseek.1, if_neg (by omega)]
      exact ⟨rfl, hseek.2, (content_seek hc).trans hcontent⟩
  | fseeko offset whence =>
    have hseek := h.fseeko hio hcontent offset whence
    rw [Op.run, Fd.bind_apply, Op.spec]
    cases hc : c.seek offset whence with
    | none =>
      rw [hc] at hseek
      rw [hseek]
      exact ⟨rfl, h, hcontent⟩
    | some c' =>
      rw [hc] at hseek
      rw [hseek.1]
      exact ⟨rfl, hseek.2, (content_seek hc).trans hcontent⟩
  | ftell =>
    obtain ⟨hvalue, hend⟩ := h.ftello hio hcontent
    rw [Op.run, Fd.bind_apply, hvalue]
    exact ⟨rfl, hend, hcontent⟩
  | rewind =>
    have hseek := h.fseeko hio hcontent 0 0
    rw [seek_start] at hseek
    obtain ⟨-, hend⟩ := hseek
    exact ⟨rfl, ⟨hend.pushed, hend.le, hend.ahead, hend.buffer, hend.full, hend.pushed_le⟩,
      hcontent⟩

theorem runs_ok (hio : IsFile io content At ok) (ops : List Op) {s : Stream × σ}
    (h : ok (runs io ops s).2.2) : ok s.2 := by
  induction ops generalizing s with
  | nil => exact h
  | cons op ops ih => exact op_ok hio (ih h)

/-- **All the calls of a run** answer what the cursor has. -/
theorem Follows.runs (hio : IsFile io content At ok) (ops : List Op) {s : Stream × σ} {c : Cursor}
    (h : Follows At s c) (hcontent : c.content = content) (hallowed : AllAllowed ops c)
    (hok : ok (runs io ops s).2.2) : (Stdio.runs io ops s).1 = specs ops c := by
  induction ops generalizing s c with
  | nil => rfl
  | cons op ops ih =>
    obtain ⟨hfirst, hrest⟩ := hallowed
    obtain ⟨hresult, h', hcontent'⟩ := h.op hio op hcontent hfirst (runs_ok hio ops hok)
    rw [specs, ← hresult, ← ih h' hcontent' hrest hok]
    rfl

/-! ### The descriptor underneath -/

/-- A process with a stream on one of its descriptors, and where it stood before each read the
stream made. -/
structure Session where
  process : Files.Process
  reads : List Files.Process

/-- The descriptor of a session. -/
def calls (fd : ℤ) : Calls Session where
  read n := fun s =>
    let (r, p) := Files.read fd n s.process
    (r, ⟨p, s.reads ++ [s.process]⟩)
  seek offset whence := fun s =>
    let (r, p) := Files.seek fd offset whence s.process
    (r, ⟨p, s.reads⟩)

/-- A descriptor that names a file is one, as long as its reads are answered. -/
theorem isFile (fd : ℤ) (h : BitVec 64) (e : Cpio.Entry) :
    IsFile (calls fd) e.data.bytes (fun s c => s.process.Has fd h e c)
      (fun s => ∀ q ∈ s.reads, q.link.Answers h) where
  fits := by
    rw [Slice.length_bytes]
    exact e.data.len_lt
  lt _ _ hp := hp.cursor
  read s c hp hok := by
    obtain ⟨m, p', hread, -, hp', -, hiff⟩ := Files.read_spec hp bufferSize
    have hans : s.process.link.Answers h := hok _ (List.mem_append_right _ List.mem_cons_self)
    have hone : Files.rounds (min bufferSize (e.data.len - c)) ≤ 1 := by
      rw [Files.rounds, bufferSize, pageSize]
      omega
    have hall : s.process.link.AnswersAll h (Files.rounds (min bufferSize (e.data.len - c))) := by
      generalize Files.rounds _ = k at hone
      obtain rfl | rfl : k = 0 ∨ k = 1 := by omega
      · trivial
      · exact ⟨hans, trivial⟩
    have hm : m = ((e.data.bytes.drop c).take bufferSize).length := by
      rw [List.length_take, List.length_drop, Slice.length_bytes]
      exact hiff.mpr hall
    have htake : (e.data.bytes.drop c).take m = (e.data.bytes.drop c).take bufferSize := by
      rw [hm, List.length_take]
      exact List.take_eq_take_min.symm
    simp only [calls, hread, ← hm, htake, true_and]
    exact hp'
  read_ok s n hok q hq := hok q (List.mem_append_left _ hq)
  seek_none s c offset whence hp ht := by
    rw [Slice.length_bytes] at ht
    obtain ⟨-, hseek⟩ | ⟨c', p', ht', -⟩ := Files.seek_spec hp offset whence
    · simp only [calls, hseek]
    · rw [ht] at ht'
      cases ht'
  seek_some s c offset whence c' hp ht := by
    rw [Slice.length_bytes] at ht
    obtain ⟨ht', -⟩ | ⟨c'', p', ht', hseek, hp'⟩ := Files.seek_spec hp offset whence
    · rw [ht] at ht'
      cases ht'
    · obtain rfl : c' = c'' := Option.some.inj (ht.symm.trans ht')
      simp only [calls, hseek, true_and]
      exact hp'
  seek_ok _ _ _ hok := hok

/-- **A stream is a cursor over its file.** Whatever is called on a stream over a descriptor that
nothing else moves answers what the cursor has, as long as the server answers the reads. -/
theorem stream_refines (p : Files.Process) (fd : ℤ) (h : BitVec 64) (e : Cpio.Entry) (c : ℕ)
    (hp : p.Has fd h e c) (ops : List Op) (hallowed : AllAllowed ops ⟨e.data.bytes, c, none⟩)
    (hans : ∀ q ∈ (runs (calls fd) ops (.over, ⟨p, []⟩)).2.2.reads, q.link.Answers h) :
    (runs (calls fd) ops (.over, ⟨p, []⟩)).1 = specs ops ⟨e.data.bytes, c, none⟩ := by
  have hstart : Follows (fun s c => s.process.Has fd h e c) (Stream.over, Session.mk p [])
      ⟨e.data.bytes, c, none⟩ :=
    ⟨rfl, Nat.le_refl _, hp, rfl, Nat.zero_le _, Nat.zero_le _⟩
  exact hstart.runs (isFile fd h e) ops rfl hallowed hans

set_option maxRecDepth 20000 in
/-- The stream is moved, a byte is pushed back, and the rest of the file is read behind it. -/
theorem stream_refines_pushed : ∃ e : Cpio.Entry,
    let ops : List Op := [.fseek 2 0, .ungetc 65, .ftell, .fread 1 5]
    (runs (calls 3) ops (.over, ⟨(Files.openFile [97] (Files.process fun _ => Files.goodTurn)).2,
      []⟩)).1 = specs ops ⟨e.data.bytes, 0, none⟩ := by
  have hs := FileServer.Server.sound_start Files.archive
  have hfd : (Files.openFile [97] (Files.process fun _ => Files.goodTurn)).1 = 3 := by
    decide +kernel
  obtain ⟨name, h, e, -, -, hp⟩ := Files.openFile_spec
    (p := Files.process fun _ => Files.goodTurn) hs [97] (by rw [hfd]; decide)
  have hkind : (Files.openFile [97] (Files.process fun _ => Files.goodTurn)).2.fds.get 3 =
      some (.file 257 3 0) := by decide +kernel
  rw [hfd] at hp
  obtain ⟨rfl, -, -⟩ := Fd.Kind.file.inj (Option.some.inj (hp.named.symm.trans hkind))
  refine ⟨e, stream_refines _ 3 257 e 0 hp _ ⟨trivial, ?_, trivial, trivial, trivial⟩ ?_⟩
  · exact (by decide : (2 : ℕ) ≠ 0)
  · decide +kernel

end Stdio
end StarOS
