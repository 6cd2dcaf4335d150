import StarOS.Libc.FileRead

/-!
# Copying a file to a descriptor

`sendfile` reads a file a chunk at a time and writes each chunk to a sink, which may take all of it,
less than it, or none. What a caller resumes from is the count that is returned, together with its
own offset or the cursor of the file.

The sink takes what it wants of each write to come.

## Main definitions

* `Files.Sink`
* `Files.sendfile`
* `Files.Resumable` — what a caller needs to go on from where a call ended
* `Files.Sink.Takes` — each chunk is taken as a whole

## Main results

* `Files.sendLoop_spec`
* `Files.sendfile_exact`
-/

namespace StarOS

namespace Files

/-! ### The call -/

/-- The sink: how much it takes of each write to come, where `none` is a failure, and what it has
got. -/
structure Sink where
  takes : ℕ → Option ℕ
  got : List UInt8

/-- Write to the sink. -/
def Sink.write (bytes : List UInt8) (s : Sink) : ℤ × Sink :=
  match s.takes 0 with
  | none => (-1, { s with takes := fun k => s.takes (k + 1) })
  | some w => ((min w bytes.length : ℕ), ⟨fun k => s.takes (k + 1), s.got ++ bytes.take w⟩)

/-- The rounds of a copy of `n` bytes behind `done`: what the call returns at once, or how many
bytes are done. -/
def sendLoop (inFd : ℤ) (n done : ℕ) (p : Process) (s : Sink) : (ℤ ⊕ ℕ) × Process × Sink :=
  if _hn : n = 0 then (.inr done, p, s)
  else
    match read inFd (min n pageSize) p with
    | ((got, bytes), p) =>
      if _hgot : got < 0 then (.inl (-1), p, s)
      -- end of file: fewer bytes than asked for is not an error
      else if _hgot : got = 0 then (.inr done, p, s)
      else
        match s.write bytes with
        | (wrote, s) =>
          if wrote < 0 then (.inl (if done = 0 then -1 else done), p, s)
          -- the sink took less than the file gave
          else if _hwrote : wrote < got then (.inr (done + wrote.toNat), p, s)
          else sendLoop inFd (n - wrote.toNat) (done + wrote.toNat) p s
termination_by n
decreasing_by omega

/-- What a call returns, and what it leaves in the caller's offset. -/
structure Sent where
  returned : ℤ
  offset : Option (BitVec 64)

/-- Copy from a file to a descriptor. An explicit offset does not disturb the descriptor's own
position. -/
def sendfile (inFd : ℤ) (offset : Option (BitVec 64)) (count : ℕ) (p : Process) (s : Sink) :
    Sent × Process × Sink :=
  match offset with
  | none =>
    match sendLoop inFd count 0 p s with
    | (.inl returned, p, s) => (⟨returned, none⟩, p, s)
    | (.inr done, p, s) => (⟨done, none⟩, p, s)
  | some start =>
    let (here, p) := seek inFd 0 1 p
    if here < 0 then (⟨-1, some start⟩, p, s)
    else
      let (moved, p) := seek inFd start 0 p
      if moved < 0 then (⟨-1, some start⟩, p, s)
      else
        match sendLoop inFd count 0 p s with
        | (.inl returned, p, s) => (⟨returned, some start⟩, p, s)
        | (.inr done, p, s) =>
          let (ended, p) := seek inFd 0 1 p
          let (_, p) := seek inFd (.ofInt 64 here) 0 p
          (⟨done, some (.ofInt 64 ended)⟩, p, s)

/-! ### What a caller resumes from -/

variable {h : BitVec 64} {e : Cpio.Entry} {p p' : Process} {fd : ℤ} {c n : ℕ} {s s' : Sink}

/-- A call on a file at cursor `c` has delivered as many bytes as it returns, from its start on.
Where the caller has an offset of its own that is moved behind them and the cursor is as before,
and otherwise the cursor is moved. A call that fails has delivered none. -/
structure Resumable (fd : ℤ) (h : BitVec 64) (e : Cpio.Entry) (c : ℕ) (offset : Option (BitVec 64))
    (s : Sink) (sent : Sent) (p' : Process) (s' : Sink) : Prop where
  delivered : s'.got = s.got ++ (e.data.bytes.drop (offset.elim c BitVec.toNat)).take
    sent.returned.toNat
  exact_count : sent.returned.toNat ≤ e.data.len - offset.elim c BitVec.toNat
  moved : sent.offset = offset.map (· + .ofNat 64 sent.returned.toNat)
  cursor : p'.Has fd h e (c + offset.elim sent.returned.toNat fun _ => 0)

/-- Each chunk is taken as a whole. -/
def Sink.Takes (takes : ℕ → Option ℕ) : List ℕ → Prop
  | [] => True
  | g :: gs => (∃ w, takes 0 = some w ∧ g ≤ w) ∧ Sink.Takes (fun k => takes (k + 1)) gs

/-- The sizes of the chunks that a copy of `n` bytes reads, if each is taken as a whole. -/
def chunks (inFd : ℤ) (n : ℕ) (p : Process) : List ℕ :=
  if _hn : n = 0 then []
  else
    match read inFd (min n pageSize) p with
    | ((got, _), p) => if _hgot : got ≤ 0 then [] else got.toNat :: chunks inFd (n - got.toNat) p
termination_by n
decreasing_by omega

/-! ### The rounds -/

theorem chunks_of_zero (hread : ∃ bytes, read fd (min n pageSize) p = ((0, bytes), p')) :
    chunks fd n p = [] := by
  obtain ⟨bytes, hread⟩ := hread
  rw [chunks, hread]
  simp

theorem chunks_of_pos {m : ℕ} (hm : m ≠ 0) (hn : n ≠ 0)
    (hread : ∃ bytes, read fd (min n pageSize) p = (((m : ℤ), bytes), p')) :
    chunks fd n p = m :: chunks fd (n - m) p' := by
  obtain ⟨bytes, hread⟩ := hread
  rw [chunks, hread]
  simp [hn, hm]

theorem drop_take_append (bytes : List UInt8) (c a b : ℕ) :
    (bytes.drop c).take a ++ (bytes.drop (c + a)).take b = (bytes.drop c).take (a + b) := by
  rw [List.take_add, List.drop_drop]

/-- **The rounds of a copy.** It delivers `k` bytes from the cursor on and leaves the cursor `g`
bytes further, which is no distance just if each chunk was taken as a whole. Where nothing was
delivered that distance is the first chunk, and a failure says so. -/
theorem sendLoop_spec (hp : p.Has fd h e c) (n done : ℕ) (s : Sink) :
    ∃ out k g p' takes, sendLoop fd n done p s =
        (out, p', ⟨takes, s.got ++ (e.data.bytes.drop c).take k⟩) ∧
      k ≤ e.data.len - c ∧ p'.Has fd h e (c + k + g) ∧
      (out = .inr (done + k) ∨ 0 < g ∧ out = .inl (if done + k = 0 then -1 else (done + k : ℕ))) ∧
      (g = 0 ↔ Sink.Takes s.takes (chunks fd n p)) ∧
      (0 < g → k = 0 → (chunks fd n p).head? = some g) ∧
      (s.takes 0 = none ∧ chunks fd n p ≠ [] ↔ k = 0 ∧ ∃ returned, out = .inl returned) := by
  induction n using Nat.strongRecOn generalizing done p c s with
  | ind n ih =>
    by_cases hn : n = 0
    · have hnil : chunks fd n p = [] := by rw [chunks, dif_pos hn]
      refine ⟨.inr done, 0, 0, p, s.takes, ?_, Nat.zero_le _, hp, .inl rfl, ?_, ?_, ?_⟩
      · rw [sendLoop, dif_pos hn, List.take_zero, List.append_nil]
      · rw [hnil]
        exact iff_of_true rfl trivial
      · exact fun h => absurd h (Nat.lt_irrefl 0)
      · rw [hnil]
        exact iff_of_false (fun h => h.2 rfl) fun h => nomatch h.2
    · obtain ⟨m, p₁, hread, hm, hp₁, -⟩ := read_spec hp (min n pageSize)
      by_cases hm0 : m = 0
      · rw [hm0] at hread hp₁
        have hnil := chunks_of_zero ⟨_, hread⟩
        refine ⟨.inr done, 0, 0, p₁, s.takes, ?_, Nat.zero_le _, hp₁, .inl rfl, ?_, ?_, ?_⟩
        · rw [sendLoop, dif_neg hn, hread]
          simp
        · rw [hnil]
          exact iff_of_true rfl trivial
        · exact fun h => absurd h (Nat.lt_irrefl 0)
        · rw [hnil]
          exact iff_of_false (fun h => h.2 rfl) fun h => nomatch h.2
      · have hcons := chunks_of_pos hm0 hn ⟨_, hread⟩
        have hlen : ((e.data.bytes.drop c).take m).length = m := by
          rw [List.length_take, List.length_drop, Slice.length_bytes]
          omega
        have hloop : sendLoop fd n done p s =
            if (s.write ((e.data.bytes.drop c).take m)).1 < 0 then
              (.inl (if done = 0 then -1 else done), p₁,
                (s.write ((e.data.bytes.drop c).take m)).2)
            else if (s.write ((e.data.bytes.drop c).take m)).1 < m then
              (.inr (done + (s.write ((e.data.bytes.drop c).take m)).1.toNat), p₁,
                (s.write ((e.data.bytes.drop c).take m)).2)
            else
              sendLoop fd (n - (s.write ((e.data.bytes.drop c).take m)).1.toNat)
                (done + (s.write ((e.data.bytes.drop c).take m)).1.toNat) p₁
                (s.write ((e.data.bytes.drop c).take m)).2 := by
          rw [sendLoop, dif_neg hn, hread]
          simp [hm0]
        cases hw : s.takes 0 with
        | none =>
          have hwrite : s.write ((e.data.bytes.drop c).take m) =
              (-1, { s with takes := fun k => s.takes (k + 1) }) := by rw [Sink.write, hw]
          rw [hwrite, if_pos (show (-1 : ℤ) < 0 by decide)] at hloop
          refine ⟨_, 0, m, p₁, fun k => s.takes (k + 1), ?_, Nat.zero_le _, hp₁,
            .inr ⟨Nat.pos_of_ne_zero hm0, rfl⟩, ?_, ?_, ?_⟩
          · rw [hloop, List.take_zero, List.append_nil]
            rfl
          · rw [hcons]
            exact iff_of_false hm0 fun ⟨⟨w, hsome, _⟩, _⟩ => by rw [hw] at hsome; cases hsome
          · rw [hcons]
            exact fun _ _ => rfl
          · rw [hcons]
            exact iff_of_true ⟨rfl, List.cons_ne_nil _ _⟩ ⟨rfl, _, rfl⟩
        | some w =>
          have hwrite : s.write ((e.data.bytes.drop c).take m) = (((min w m : ℕ) : ℤ),
              ⟨fun k => s.takes (k + 1), s.got ++ (e.data.bytes.drop c).take (min w m)⟩) := by
            rw [Sink.write, hw]
            dsimp only
            rw [hlen, List.take_take]
          have hno : ¬ ((min w m : ℕ) : ℤ) < 0 := by omega
          rw [hwrite, if_neg hno] at hloop
          dsimp only at hloop
          rw [Int.toNat_natCast] at hloop
          by_cases hshort : w < m
          · rw [if_pos (by omega), Nat.min_eq_left hshort.le] at hloop
            refine ⟨_, w, m - w, p₁, _, hloop, by omega, ?_, .inl rfl, ?_, ?_, ?_⟩
            · rwa [Nat.add_assoc, Nat.add_sub_of_le hshort.le]
            · rw [hcons]
              refine iff_of_false (by omega) fun ⟨⟨w', hsome, hle⟩, _⟩ => ?_
              rw [hw] at hsome
              cases hsome
              omega
            · rintro - rfl
              rw [hcons]
              rfl
            · exact iff_of_false (fun h => nomatch h.1) fun h => nomatch h.2
          · have hle := Nat.not_lt.mp hshort
            rw [if_neg (by omega), Nat.min_eq_right hle] at hloop
            obtain ⟨out, k, g, p', takes, hrest, hk, hp', hout, hall, hhead, -⟩ := ih (n - m)
              (by omega) hp₁ (done + m) ⟨fun k => s.takes (k + 1),
                s.got ++ (e.data.bytes.drop c).take m⟩
            refine ⟨out, m + k, g, p', takes, ?_, by omega, ?_, ?_, ?_, ?_, ?_⟩
            · rw [hloop, hrest]
              dsimp only
              rw [List.append_assoc, drop_take_append]
            · rwa [← Nat.add_assoc]
            · rwa [← Nat.add_assoc]
            · rw [hall, hcons]
              exact (and_iff_right ⟨w, hw, hle⟩).symm
            · exact fun _ hzero => absurd (Nat.eq_zero_of_add_eq_zero_right hzero) hm0
            · exact iff_of_false (fun h => nomatch h.1)
                fun h => hm0 (Nat.eq_zero_of_add_eq_zero_right h.1)

/-! ### The call as a whole -/

/-- The cursor is moved to an explicit offset. -/
def Process.placed (fd : ℤ) (offset : Option (BitVec 64)) (p : Process) : Process :=
  match offset with
  | none => p
  | some start => (seek fd start 0 (seek fd 0 1 p).2).2

/-- **The calls that can be resumed.** -/
inductive Spared (fd : ℤ) (c : ℕ) (offset : Option (BitVec 64)) (count : ℕ) (p : Process)
    (s : Sink) : Prop
  /-- An explicit offset is negative, and the call refuses it. -/
  | refused (start : BitVec 64) (hstart : offset = some start) (hneg : start.toInt < 0)
  /-- Each chunk is taken as a whole. -/
  | whole (hall : Sink.Takes s.takes (chunks fd count (p.placed fd offset)))
  /-- The first write fails, and the chunk that was read for it ends where the cursor was. -/
  | back (start : BitVec 64) (hstart : offset = some start) (hfail : s.takes 0 = none) (g : ℕ)
    (hg : (chunks fd count (p.placed fd offset)).head? = some g) (hc : c = start.toNat + g)

/-- A sum of two signed numbers that is a place in a file. -/
theorem filter_checkedAdd {a b : ℤ} {k : ℕ} (hk : a + b = k) (hlt : k < 2 ^ 63) :
    (checkedAdd a b).filter (0 ≤ ·) = some (k : ℤ) := by
  have hnonneg : (0 : ℤ) ≤ k := Int.natCast_nonneg k
  rw [checkedAdd, if_pos ⟨by omega, by omega⟩, hk, Option.filter_some,
    if_pos (decide_eq_true hnonneg)]

theorem target_here {size : ℕ} (hc : c < 2 ^ 63) : target size c 0 1 = some c := by
  have hzero : (c : ℤ) + (0 : BitVec 64).toInt = c := by simp
  rw [target]
  rw [if_neg one_ne_zero, if_pos rfl, Option.bind_some, filter_checkedAdd hzero hc]
  rfl

theorem target_start {size : ℕ} (start : BitVec 64) (h : 0 ≤ start.toInt) :
    target size c start 0 = some start.toNat := by
  have hlt := BitVec.two_mul_toInt_lt (x := start)
  have hnat : start.toInt = start.toNat := by
    rw [BitVec.toInt_eq_toNat_cond] at h ⊢
    split at h <;> omega
  show ((checkedAdd 0 start.toInt).filter (0 ≤ ·)).map Int.toNat = _
  rw [filter_checkedAdd (k := start.toNat) (by omega) (by omega)]
  rfl

theorem target_refused {size : ℕ} (start : BitVec 64) (h : start.toInt < 0) :
    target size c start 0 = none := by
  show ((checkedAdd 0 start.toInt).filter (0 ≤ ·)).map Int.toNat = _
  have hlow := BitVec.le_two_mul_toInt (x := start)
  rw [checkedAdd, if_pos ⟨by omega, by omega⟩, Option.filter_some,
    if_neg (by rw [decide_eq_true_eq]; omega)]
  rfl

/-- A move of the cursor that is allowed. -/
theorem seek_of_target {offset : BitVec 64} {whence : ℤ} {t : ℕ} (hp : p.Has fd h e c)
    (ht : target e.data.len c offset whence = some t) :
    ∃ p', seek fd offset whence p = ((t : ℤ), p') ∧ p'.Has fd h e t := by
  obtain ⟨hnone, -⟩ | ⟨c', p', hc', hseek, hp'⟩ := seek_spec hp offset whence
  · rw [ht] at hnone
    cases hnone
  · obtain rfl := Option.some.inj (ht.symm.trans hc')
    exact ⟨p', hseek, hp'⟩

variable {offset : Option (BitVec 64)} {sent sent' : Sent}

/-- Nothing happens to the file. -/
theorem Resumable.refused (hp' : p'.Has fd h e c) (hgot : s'.got = s.got) :
    Resumable fd h e c offset s ⟨-1, offset⟩ p' s' where
  delivered := by simp [hgot]
  exact_count := Nat.zero_le _
  moved := by cases offset <;> simp
  cursor := by cases offset <;> exact hp'

/-- **A call that is resumed** by another. -/
theorem Resumable.trans {p'' : Process} {s'' : Sink}
    (h₁ : Resumable fd h e c offset s sent p' s')
    (h₂ : Resumable fd h e (c + offset.elim sent.returned.toNat fun _ => 0) sent.offset s' sent' p''
      s'') :
    Resumable fd h e c offset s ⟨(sent.returned.toNat + sent'.returned.toNat : ℕ), sent'.offset⟩ p''
      s'' := by
  obtain ⟨hdelivered, hexact, hmoved, hcursor⟩ := h₁
  obtain ⟨hdelivered', hexact', hmoved', hcursor'⟩ := h₂
  generalize hn : sent.returned.toNat = n at *
  generalize hn' : sent'.returned.toNat = n' at *
  have hlen := e.data.len_lt
  rw [hmoved] at hdelivered' hexact' hmoved' hcursor'
  cases offset with
  | none =>
    simp only [Option.map_none, Option.elim_none] at *
    refine ⟨?_, ?_, hmoved', ?_⟩
    · rw [hdelivered', hdelivered, List.append_assoc, drop_take_append]
      rfl
    · show n + n' ≤ e.data.len - c
      omega
    · rwa [Nat.add_assoc] at hcursor'
  | some start =>
    simp only [Option.map_some, Option.elim_some, Nat.add_zero] at *
    by_cases hzero : n = 0
    · rw [hzero, BitVec.add_zero] at hdelivered' hexact' hmoved'
      rw [hzero] at hdelivered
      refine ⟨?_, ?_, ?_, hcursor'⟩
      · rw [hdelivered', hdelivered, List.take_zero, List.append_nil, hzero, Nat.zero_add]
        rfl
      · show n + n' ≤ e.data.len - start.toNat
        omega
      · rw [hmoved', hzero, Nat.zero_add]
        rfl
    · have hadd := toNat_advance start hlen hexact hzero
      rw [hadd] at hdelivered' hexact'
      refine ⟨?_, ?_, ?_, hcursor'⟩
      · rw [hdelivered', hdelivered, List.append_assoc, drop_take_append]
        rfl
      · show n + n' ≤ e.data.len - start.toNat
        omega
      · rw [hmoved', BitVec.add_assoc, ← BitVec.ofNat_add]
        rfl

/-- **One call** can be resumed just if it is spared. -/
theorem sendfile_resumable_iff (hp : p.Has fd h e c) (offset : Option (BitVec 64)) (count : ℕ)
    (s : Sink) :
    Resumable fd h e c offset s (sendfile fd offset count p s).1 (sendfile fd offset count p s).2.1
      (sendfile fd offset count p s).2.2 ↔ Spared fd c offset count p s := by
  have hlen := e.data.len_lt
  cases offset with
  | none =>
    obtain ⟨out, k, g, p', takes, hloop, hk, hp', hout, hall, -, -⟩ := sendLoop_spec hp count 0 s
    have hsend : sendfile fd none count p s =
        (⟨if out = .inl (-1) then -1 else k, none⟩, p',
          ⟨takes, s.got ++ (e.data.bytes.drop c).take k⟩) := by
      rw [sendfile, hloop]
      obtain rfl | ⟨-, rfl⟩ := hout
      · simp
      · by_cases hzero : k = 0
        · simp [hzero]
        · simp [hzero]
    have hreturned : (if out = .inl (-1) then -1 else (k : ℤ)).toNat = k := by
      obtain rfl | ⟨-, rfl⟩ := hout
      · simp
      · by_cases hzero : k = 0
        · simp [hzero]
        · simp [hzero]
    rw [hsend]
    constructor
    · rintro ⟨-, -, -, hcursor⟩
      rw [Option.elim_none, hreturned] at hcursor
      have heq := hp'.toNat.symm.trans ((congrArg BitVec.toNat (Fd.Kind.file.inj
        (Option.some.inj (hp'.named.symm.trans hcursor.named))).2.2).trans hcursor.toNat)
      exact .whole (hall.mp (by omega))
    · rintro (⟨_, hstart, _⟩ | hwhole | ⟨_, hstart, _⟩)
      · cases hstart
      · obtain rfl := hall.mpr hwhole
        refine ⟨?_, ?_, rfl, ?_⟩
        · rw [hreturned]
          rfl
        · rw [hreturned]
          exact hk
        · rw [hreturned]
          exact hp'
      · cases hstart
  | some start =>
    obtain ⟨p₁, hhere, hp₁⟩ := seek_of_target hp (target_here hp.cursor)
    have hne : ¬ (c : ℤ) < 0 := by omega
    by_cases hneg : start.toInt < 0
    · obtain ⟨-, hseek⟩ | ⟨c', -, hc', -⟩ := seek_spec hp₁ start 0
      · have hsend : sendfile fd (some start) count p s = (⟨-1, some start⟩, p₁, s) := by
          rw [sendfile]
          simp only [hhere, if_neg hne, hseek]
          rfl
        rw [hsend]
        exact iff_of_true (.refused hp₁ rfl) (.refused start rfl hneg)
      · rw [target_refused start hneg] at hc'
        cases hc'
    · have hpos := Int.not_lt.mp hneg
      obtain ⟨p₂, hmoved, hp₂⟩ := seek_of_target hp₁ (target_start start hpos)
      have hplaced : p.placed fd (some start) = p₂ := by
        rw [Process.placed, hhere, hmoved]
      obtain ⟨out, k, g, p', takes, hloop, hk, hp', hout, hall, hhead, hfail⟩ :=
        sendLoop_spec hp₂ count 0 s
      have hstart : start.toNat < 2 ^ 63 := hp₂.cursor
      cases hresult : out with
      | inl returned =>
        -- the early return leaves cursor and offset behind
        have hsend : sendfile fd (some start) count p s = (⟨returned, some start⟩, p',
            ⟨takes, s.got ++ (e.data.bytes.drop start.toNat).take k⟩) := by
          rw [sendfile]
          simp only [hhere, if_neg hne, hmoved, if_neg (Int.not_lt.mpr (Int.natCast_nonneg _)),
            hloop, hresult]
        obtain ⟨hg, hreturned⟩ : 0 < g ∧ returned = if k = 0 then -1 else (k : ℤ) := by
          obtain hout | ⟨hg, hout⟩ := hout
          · rw [hresult] at hout
            cases hout
          · rw [hresult, Nat.zero_add] at hout
            exact ⟨hg, (Sum.inl.inj hout).trans (by split <;> rfl)⟩
        rw [hsend]
        constructor
        · rintro ⟨-, -, hoffset, hcursor⟩
          have hk0 : k = 0 := by
            by_contra hne
            rw [hreturned, if_neg hne, Int.toNat_natCast, Option.map_some] at hoffset
            have hadd := toNat_advance start hlen hk hne
            rw [← Option.some.inj hoffset] at hadd
            omega
          have heq := hp'.toNat.symm.trans ((congrArg BitVec.toNat (Fd.Kind.file.inj
            (Option.some.inj (hp'.named.symm.trans hcursor.named))).2.2).trans hcursor.toNat)
          have hfirst := hfail.mpr ⟨hk0, returned, hresult⟩
          refine .back start rfl hfirst.1 g ?_ ?_
          · rw [hplaced]
            exact hhead hg hk0
          · rw [hk0] at heq
            exact heq.symm
        · intro hspared
          have hback : s.takes 0 = none ∧ ∃ g, (chunks fd count p₂).head? = some g ∧
              c = start.toNat + g := by
            obtain ⟨start', hstart', hneg'⟩ | hwhole | ⟨start', hstart', hnone, g', hg', hc⟩ :=
              hspared
            · cases hstart'
              exact absurd hneg' hneg
            · rw [hplaced] at hwhole
              have hzero := hall.mpr hwhole
              omega
            · cases hstart'
              rw [hplaced] at hg'
              exact ⟨hnone, g', hg', hc⟩
          obtain ⟨hnone, g', hg', hc⟩ := hback
          obtain ⟨hk0, -⟩ := hfail.mp ⟨hnone, fun hnil => by rw [hnil] at hg'; cases hg'⟩
          have hgg : g' = g := Option.some.inj (hg'.symm.trans (hhead hg hk0))
          rw [hk0, Nat.add_zero, ← hgg, ← hc] at hp'
          rw [hreturned, if_pos hk0, hk0, List.take_zero, List.append_nil]
          exact .refused hp' rfl
      | inr done =>
        obtain ⟨p₃, hended, hp₃⟩ := seek_of_target hp' (target_here hp'.cursor)
        obtain ⟨p₄, hback, hp₄⟩ : ∃ p₄, seek fd (.ofNat 64 c) 0 p₃ = ((c : ℤ), p₄) ∧
            p₄.Has fd h e c := by
          have hc := hp.toNat
          have hpos' : 0 ≤ (BitVec.ofNat 64 c).toInt := by
            rw [toInt_ofNat hp.cursor]
            exact Int.natCast_nonneg c
          have htarget : target e.data.len (start.toNat + k + g) (.ofNat 64 c) 0 = some c :=
            (target_start _ hpos').trans (congrArg some hc)
          obtain ⟨p₄, hseek, hp₄⟩ := seek_of_target hp₃ htarget
          exact ⟨p₄, hseek, hp₄⟩
        obtain rfl : done = k := by
          obtain hout | ⟨-, hout⟩ := hout
          · rw [hresult, Nat.zero_add] at hout
            exact Sum.inr.inj hout
          · rw [hresult] at hout
            cases hout
        have hsend : sendfile fd (some start) count p s =
            (⟨done, some (.ofNat 64 (start.toNat + done + g))⟩, p₄,
              ⟨takes, s.got ++ (e.data.bytes.drop start.toNat).take done⟩) := by
          rw [sendfile]
          simp only [hhere, if_neg hne, hmoved, if_neg (Int.not_lt.mpr (Int.natCast_nonneg _)),
            hloop, hresult, hended, BitVec.ofInt_natCast, hback]
        have hoffset : (BitVec.ofNat 64 (start.toNat + done + g) = start + .ofNat 64 done) ↔
            g = 0 := by
          rw [← BitVec.toNat_inj, hp'.toNat]
          by_cases hd : done = 0
          · rw [hd, BitVec.add_zero]
            omega
          · rw [toNat_advance start hlen hk hd]
            omega
        rw [hsend]
        constructor
        · rintro ⟨-, -, hmoved, -⟩
          rw [Int.toNat_natCast] at hmoved
          refine .whole ?_
          rw [hplaced]
          exact hall.mp (hoffset.mp (Option.some.inj hmoved))
        · intro hspared
          have hg : g = 0 := by
            obtain ⟨start', hstart', hneg'⟩ | hwhole | ⟨start', hstart', hnone, g', hg', -⟩ :=
              hspared
            · cases hstart'
              exact absurd hneg' hneg
            · rw [hplaced] at hwhole
              exact hall.mpr hwhole
            · rw [hplaced] at hg'
              obtain ⟨-, returned, hinl⟩ := hfail.mp
                ⟨hnone, fun hnil => by rw [hnil] at hg'; cases hg'⟩
              rw [hresult] at hinl
              cases hinl
          refine ⟨?_, ?_, ?_, hp₄⟩
          · rw [Int.toNat_natCast]
            rfl
          · rw [Int.toNat_natCast]
            exact hk
          · rw [Int.toNat_natCast, hoffset.mpr hg]
            rfl

/-! ### Resuming -/

/-- Calls that go on from one another, and how many bytes they return together. -/
def sendAll (fd : ℤ) : List ℕ → Option (BitVec 64) → Process → Sink → Sent × Process × Sink
  | [], offset, p, s => (⟨0, offset⟩, p, s)
  | count :: counts, offset, p, s =>
    let (sent, p, s) := sendfile fd offset count p s
    let (sent', p, s) := sendAll fd counts sent.offset p s
    (⟨(sent.returned.toNat + sent'.returned.toNat : ℕ), sent'.offset⟩, p, s)

/-- Each of the calls is spared. -/
def SparedAll (fd : ℤ) (c : ℕ) : List ℕ → Option (BitVec 64) → Process → Sink → Prop
  | [], _, _, _ => True
  | count :: counts, offset, p, s => Spared fd c offset count p s ∧
      let (sent, p, s) := sendfile fd offset count p s
      SparedAll fd (c + offset.elim sent.returned.toNat fun _ => 0) counts sent.offset p s

theorem sendAll_resumable (hp : p.Has fd h e c) (counts : List ℕ) (offset : Option (BitVec 64))
    (s : Sink) (hall : SparedAll fd c counts offset p s) :
    Resumable fd h e c offset s (sendAll fd counts offset p s).1
      (sendAll fd counts offset p s).2.1 (sendAll fd counts offset p s).2.2 := by
  induction counts generalizing offset p c s with
  | nil =>
    refine ⟨?_, Nat.zero_le _, ?_, ?_⟩
    · exact (List.append_nil _).symm
    · cases offset with
      | none => rfl
      | some start => exact congrArg some (BitVec.add_zero start).symm
    · cases offset <;> exact hp
  | cons count counts ih =>
    have hone := (sendfile_resumable_iff hp offset count s).mpr hall.1
    exact hone.trans (ih hone.cursor _ _ hall.2)

/-- **Copying can be resumed** just if each chunk is taken as a whole, an explicit offset is
refused, or the first write fails and the chunk that was read for it ends where the cursor was.
Calls that are all of this kind go on from one another: together they deliver the bytes of the file
from the first call's start on, none of them twice. -/
theorem sendfile_exact (hp : p.Has fd h e c) (offset : Option (BitVec 64)) (s : Sink) :
    (∀ count, Resumable fd h e c offset s (sendfile fd offset count p s).1
      (sendfile fd offset count p s).2.1 (sendfile fd offset count p s).2.2 ↔
        Spared fd c offset count p s) ∧
    ∀ counts, SparedAll fd c counts offset p s →
      Resumable fd h e c offset s (sendAll fd counts offset p s).1
        (sendAll fd counts offset p s).2.1 (sendAll fd counts offset p s).2.2 :=
  ⟨fun count => sendfile_resumable_iff hp offset count s,
    fun counts => sendAll_resumable hp counts offset s⟩

set_option maxRecDepth 20000 in
/-- Three bytes of a file, which the sink takes one and two at a time. -/
theorem sendfile_exact_short : ∃ p h e, Process.Has p 3 h e 0 ∧
    let s : Sink := ⟨fun k => some (k + 1), []⟩
    (∀ count, Resumable 3 h e 0 none s (sendfile 3 none count p s).1
      (sendfile 3 none count p s).2.1 (sendfile 3 none count p s).2.2 ↔
        Spared 3 0 none count p s) ∧
    ∀ counts, SparedAll 3 0 counts none p s →
      Resumable 3 h e 0 none s (sendAll 3 counts none p s).1
        (sendAll 3 counts none p s).2.1 (sendAll 3 counts none p s).2.2 := by
  have hfd : (openFile [97] (process fun _ => goodTurn)).1 = 3 := by decide +kernel
  obtain ⟨name, h, e, -, -, hp⟩ := openFile_spec (p := process fun _ => goodTurn)
    (FileServer.Server.sound_start archive) [97] (by rw [hfd]; decide)
  rw [hfd] at hp
  exact ⟨_, h, e, hp, sendfile_exact hp none _⟩

set_option maxRecDepth 20000 in
/-- The sink takes one byte of three, and the cursor is behind all of them. -/
theorem sendfile_skips : ¬ ∀ (p : Process) (h : BitVec 64) (e : Cpio.Entry) (c count : ℕ)
    (s : Sink),
    p.Has 3 h e c → Resumable 3 h e c none s (sendfile 3 none count p s).1
      (sendfile 3 none count p s).2.1 (sendfile 3 none count p s).2.2 := by
  intro hall
  have hfd : (openFile [97] (process fun _ => goodTurn)).1 = 3 := by decide +kernel
  obtain ⟨name, h, e, -, -, hp⟩ := openFile_spec (p := process fun _ => goodTurn)
    (FileServer.Server.sound_start archive) [97] (by rw [hfd]; decide)
  rw [hfd] at hp
  have hcursor := (hall _ h e 0 3 ⟨fun _ => some 1, []⟩ hp).cursor.named
  have hnamed : (sendfile 3 none 3 (openFile [97] (process fun _ => goodTurn)).2
      ⟨fun _ => some 1, []⟩).2.1.fds.get 3 = some (.file 257 3 3) := by decide +kernel
  have hreturned : (sendfile 3 none 3 (openFile [97] (process fun _ => goodTurn)).2
      ⟨fun _ => some 1, []⟩).1.returned = 1 := by decide +kernel
  rw [hnamed, hreturned] at hcursor
  exact absurd (Fd.Kind.file.inj (Option.some.inj hcursor)).2.2 (by decide)

end Files

end StarOS
