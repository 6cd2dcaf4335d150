import StarOS.Libc.Pipe

/-!
# Writes that fit

`limits.h` says that a write of up to `PIPE_BUF` bytes is atomic. A write places what there is room
for and goes on when there is more, so it is atomic as long as it does not begin where some of its
bytes have room and the others do not.

## Main definitions

* `Pipe.Pc.HasRoom`, `Pipe.State.Room` — a write does not begin where only some of it fits
* `Pipe.Atomic` — what is asked of short writes

## Main results

* `Pipe.State.Whole.next` — short writes are placed whole, over a step
* `Pipe.pipe_atomic`
-/

namespace StarOS

namespace Pipe

/-- The longest write that is atomic. -/
def pipeBuf : ℕ := 4096

/-- What was placed of a write. -/
def Shared.chunksOf (s : Shared) (call : ℕ) : List (ℕ × List UInt8) :=
  s.chunks.filter fun c => c.1 = call

def Shared.placed (s : Shared) (call : ℕ) : List UInt8 := (s.chunksOf call).flatMap Prod.snd

/-- A short write that has placed nothing yet finds room for all of it or for nothing, or nobody
reads. -/
def Pc.HasRoom (r : Ring) : Pc → Prop
  | .write _ src written _ => written = 0 → src.length ≤ pipeBuf →
    r.object.ends < 2 ∨ pipeCapacity ≤ r.buffered ∨ r.buffered + src.length ≤ pipeCapacity
  | _ => True

variable {Thread : Type} [DecidableEq Thread]

/-- The condition on a step. -/
def State.Room (s : State Thread) (e : Thread × Act) : Prop :=
  e.2 = .go → (s.pc e.1).HasRoom s.shared.ring

/-- What is asked of writes of up to `PIPE_BUF` bytes. -/
structure Atomic (s : State Thread) : Prop where
  /-- What was placed of one is in one piece. -/
  together : ∀ call src, s.shared.calls[call]? = some src → src.length ≤ pipeBuf →
    ∃ before mid after, s.shared.chunks = before ++ mid ++ after ∧ (∀ c ∈ mid, c.1 = call) ∧
      ∀ c ∈ before ++ after, c.1 ≠ call
  /-- One that does not wait places all or, where there is no room or nobody reads, nothing. -/
  nonblock : ∀ t call src written all value, s.pc t = .write call src written true →
    s.shared.calls[call]? = some all → all.length ≤ pipeBuf → s.returns (t, .go) = some value →
      value = all.length ∧ s.shared.placed call = all ∨
        value = -1 ∧ s.shared.placed call = [] ∧ ((writeRing s.shared.ring src).1 = .full ∨
          (writeRing s.shared.ring src).1 = .broken)

/-! ### What one step does -/

/-- Where a write is that has all of its bytes left or none. -/
def Pc.InOne (s : Shared) : Pc → Prop
  | .write call src written _ | .writeWait call src written =>
    ∃ all, s.calls[call]? = some all ∧ (all.length ≤ pipeBuf →
      written = 0 ∧ src = all ∧ s.chunksOf call = [] ∨
        written = all.length ∧ src = [] ∧ s.chunksOf call = [(call, all)])
  | _ => True

/-- The write that a thread is in. -/
def Pc.call : Pc → Option ℕ
  | .write call .. | .writeWait call .. => some call
  | _ => none

/-- Short writes are placed whole. -/
structure State.Whole (s : State Thread) : Prop where
  tags : ∀ c ∈ s.shared.chunks, c.1 < s.shared.calls.length
  whole : ∀ call src, s.shared.calls[call]? = some src → src.length ≤ pipeBuf →
    s.shared.chunksOf call = [] ∨ s.shared.chunksOf call = [(call, src)]
  inOne : ∀ t, (s.pc t).InOne s.shared
  distinct : ∀ t u call, (s.pc t).call = some call → (s.pc u).call = some call → t = u

section

variable {s s' : Shared} {p q : Pc} {a : Act} {value : Option ℤ} {call : ℕ}

theorem Acts.calls_get {src : List UInt8} (h : Acts s p a s' q value)
    (hget : s.calls[call]? = some src) : s'.calls[call]? = some src := by
  cases h with
  | beginWrite =>
    obtain ⟨hlt, -⟩ := List.getElem?_eq_some_iff.mp hget
    rw [List.getElem?_append_left hlt, hget]
  | _ => exact hget

/-- A thread places nothing of a write that it is not in. -/
theorem Acts.chunksOf (h : Acts s p a s' q value) (hcall : p.call ≠ some call) :
    s'.chunksOf call = s.chunksOf call := by
  cases h with
  | @placed k written n src nonblock ring hsrc hring =>
    have hne : ¬ k = call := fun heq => hcall (congrArg some heq)
    rw [Shared.chunksOf, List.filter_append, List.filter_cons_of_neg (by simpa using hne),
      List.filter_nil, List.append_nil]
    rfl
  | _ => rfl

/-- What a step of another thread leaves as it was. -/
theorem Pc.InOne.frame {r : Pc} (h : Acts s p a s' q value) (hr : r.InOne s)
    (hne : ∀ call, r.call = some call → p.call ≠ some call) : r.InOne s' := by
  cases r with
  | write call src written nonblock =>
    obtain ⟨all, hget, hall⟩ := hr
    rw [← h.chunksOf (hne call rfl)] at hall
    exact ⟨all, h.calls_get hget, hall⟩
  | writeWait call src written =>
    obtain ⟨all, hget, hall⟩ := hr
    rw [← h.chunksOf (hne call rfl)] at hall
    exact ⟨all, h.calls_get hget, hall⟩
  | _ => trivial

/-- A section that places something of a short write places all of it. -/
theorem writeRing_whole {r ring : Ring} {src : List UInt8} {n : ℕ} {nonblock : Bool}
    (hroom : (Pc.write call src 0 nonblock).HasRoom r) (hlen : src.length ≤ pipeBuf)
    (h : writeRing r src = (.placed n, ring)) : n = src.length := by
  dsimp only [writeRing] at h
  split at h
  · cases h
  · next hends =>
    split at h
    · next hspace =>
      cases h
      rcases hroom rfl hlen with hbroken | hfull | hfits
      · exact absurd hbroken hends
      · omega
      · omega
    · cases h

end

/-- **A thread that takes a step** has all of its short write left or none. -/
theorem inOne_of_acts {s s' : Shared} {p q : Pc} {a : Act} {value : Option ℤ}
    (htags : ∀ c ∈ s.chunks, c.1 < s.calls.length) (hp : p.InOne s)
    (hroom : a = .go → p.HasRoom s.ring)
    (h : Acts s p a s' q value) : q.InOne s' := by
  cases h with
  | @beginWrite src nonblock hopen =>
    refine ⟨src, ?_, fun _ => .inl ⟨rfl, rfl, ?_⟩⟩
    · rw [List.getElem?_append_right (Nat.le_refl _), Nat.sub_self]
      rfl
    · refine List.filter_eq_nil_iff.mpr fun c hc => ?_
      have hlt := htags c hc
      rw [decide_eq_true_eq]
      exact Nat.ne_of_lt hlt
  | @placed call written n src nonblock ring hsrc hring =>
    obtain ⟨all, hget, hall⟩ := hp
    refine ⟨all, hget, fun hlen => .inr ?_⟩
    obtain ⟨rfl, rfl, hnone⟩ | ⟨-, hnil, -⟩ := hall hlen
    · obtain rfl := writeRing_whole (hroom rfl) hlen hring
      refine ⟨Nat.zero_add _, List.drop_length .., ?_⟩
      rw [Shared.chunksOf, List.filter_append, List.filter_cons_of_pos (by simp), List.filter_nil,
        List.take_length]
      rw [Shared.chunksOf] at hnone
      rw [hnone]
      rfl
    · exact absurd hnil hsrc
  | writeWaits => exact hp
  | writeWoke => exact hp
  | _ => trivial

section

variable {s s' : Shared} {p q : Pc} {a : Act} {value : Option ℤ} {call : ℕ}

/-- Nothing is placed of a write that no step has left the thread in. -/
theorem Acts.left (src : List UInt8) (h : Acts s p a s' q value) (hq : q.call ≠ some call) :
    s'.chunksOf call = s.chunksOf call ∧
      (s'.calls[call]? = some src → s.calls[call]? = some src) := by
  cases h with
  | beginWrite =>
    refine ⟨rfl, fun hget => ?_⟩
    have hne : call ≠ s.calls.length := fun heq => hq (congrArg some heq.symm)
    obtain ⟨hlt, -⟩ := List.getElem?_eq_some_iff.mp hget
    rw [List.length_append, List.length_singleton] at hlt
    rwa [List.getElem?_append_left (by omega)] at hget
  | @placed k written n bytes nonblock ring hsrc hring =>
    have hplaced : Acts s (.write k bytes written nonblock) .go _ _ none := .placed hsrc hring
    exact ⟨hplaced.chunksOf hq, id⟩
  | _ => exact ⟨rfl, id⟩

/-- A thread is in the write it was in, or in a new one. -/
theorem Acts.call_of (h : Acts s p a s' q value) (hq : q.call = some call) :
    p.call = some call ∨ call = s.calls.length := by
  cases h with
  | beginWrite => exact .inr (Option.some.inj hq).symm
  | placed => exact .inl hq
  | writeWaits => exact .inl hq
  | writeWoke => exact .inl hq
  | _ => cases hq

theorem Pc.InOne.call_lt (hp : p.InOne s) (hcall : p.call = some call) : call < s.calls.length := by
  cases p with
  | write k src written nonblock =>
    cases hcall
    obtain ⟨all, hget, -⟩ := hp
    exact (List.getElem?_eq_some_iff.mp hget).1
  | writeWait k src written =>
    cases hcall
    obtain ⟨all, hget, -⟩ := hp
    exact (List.getElem?_eq_some_iff.mp hget).1
  | _ => cases hcall

theorem Acts.tags (h : Acts s p a s' q value) (hp : p.InOne s)
    (htags : ∀ c ∈ s.chunks, c.1 < s.calls.length) : ∀ c ∈ s'.chunks, c.1 < s'.calls.length := by
  cases h with
  | beginWrite =>
    intro c hc
    rw [List.length_append]
    exact Nat.lt_add_right _ (htags c hc)
  | placed =>
    intro c hc
    obtain hc | hc := List.mem_append.mp hc
    · exact htags c hc
    · obtain rfl := List.mem_singleton.mp hc
      exact hp.call_lt rfl
  | _ => exact htags

/-- A thread that is in a short write has placed all of it or nothing. -/
theorem Pc.InOne.whole {src : List UInt8} (hp : p.InOne s) (hcall : p.call = some call)
    (hget : s.calls[call]? = some src) (hlen : src.length ≤ pipeBuf) :
    s.chunksOf call = [] ∨ s.chunksOf call = [(call, src)] := by
  have hall : ∃ all, s.calls[call]? = some all ∧ (all.length ≤ pipeBuf →
      s.chunksOf call = [] ∨ s.chunksOf call = [(call, all)]) := by
    cases p with
    | write k src written nonblock =>
      cases hcall
      obtain ⟨all, hget, hall⟩ := hp
      exact ⟨all, hget, fun hlen => (hall hlen).imp (·.2.2) (·.2.2)⟩
    | writeWait k src written =>
      cases hcall
      obtain ⟨all, hget, hall⟩ := hp
      exact ⟨all, hget, fun hlen => (hall hlen).imp (·.2.2) (·.2.2)⟩
    | _ => cases hcall
  obtain ⟨all, hget', hall⟩ := hall
  obtain rfl : src = all := Option.some.inj (hget.symm.trans hget')
  exact hall hlen

end

/-- **Short writes are placed whole**, over a step. -/
theorem State.Whole.next {s s' : State Thread} {e : Thread × Act} (hs : s.Whole) (hok : s.Room e)
    (h : s.next e = some s') : s'.Whole := by
  obtain ⟨q, value, hacts, hpc⟩ := next_cases h
  have hself := inOne_of_acts hs.tags (hs.inOne e.1) hok hacts
  refine ⟨hacts.tags (hs.inOne e.1) hs.tags, fun call src hget hlen => ?_, fun u => ?_,
    fun t u call ht hu => ?_⟩
  · by_cases hq : q.call = some call
    · exact hself.whole hq hget hlen
    · obtain ⟨hchunks, hcalls⟩ := hacts.left src hq
      rw [hchunks]
      exact hs.whole call src (hcalls hget) hlen
  · rw [hpc]
    obtain rfl | hne := eq_or_ne u e.1
    · rwa [Function.update_self]
    · rw [Function.update_of_ne hne]
      exact (hs.inOne u).frame hacts fun call hu he => hne (hs.distinct u e.1 call hu he)
  · -- two threads in one write were in it before the step
    have hwas : ∀ u, (s'.pc u).call = some call → u ≠ e.1 → (s.pc u).call = some call := by
      intro u hu hne
      rwa [hpc, Function.update_of_ne hne] at hu
    have hboth : ∀ u, (s'.pc e.1).call = some call → (s'.pc u).call = some call → u = e.1 := by
      intro u he hu
      by_contra hne
      have hu := hwas u hu hne
      rw [hpc, Function.update_self] at he
      obtain he | hnew := hacts.call_of he
      · exact hne (hs.distinct u e.1 call hu he)
      · exact absurd ((hs.inOne u).call_lt hu) (by omega)
    by_cases hte : t = e.1
    · rw [hte] at ht ⊢
      exact (hboth u ht hu).symm
    · by_cases hue : u = e.1
      · rw [hue] at hu ⊢
        exact hboth t hu ht
      · exact hs.distinct t u call (hwas t ht hte) (hwas u hu hue)

theorem State.Whole.init {s : State Thread} (h : (pipeSystem Thread).init s) : s.Whole := by
  obtain ⟨-, -, -, -, -, hcalls, hchunks, -, hout⟩ := h
  refine ⟨fun c hc => ?_, fun call src hget => ?_, fun t => ?_, fun t u call ht => ?_⟩
  · rw [hchunks] at hc
    exact absurd hc List.not_mem_nil
  · rw [hcalls] at hget
    cases hget
  · rw [hout]
    trivial
  · rw [hout] at ht
    cases ht

theorem State.Whole.of_reach {s : State Thread} (h : (pipeSystem Thread).Reach State.Room s) :
    s.Whole :=
  h.invariant (fun _ => .init) fun _ _ _ hs hok hnext => hs.next hok hnext

/-- One piece of a write at most is in one piece. -/
theorem together_of_chunksOf {s : Shared} {call : ℕ} {src : List UInt8}
    (h : s.chunksOf call = [] ∨ s.chunksOf call = [(call, src)]) :
    ∃ before mid after, s.chunks = before ++ mid ++ after ∧ (∀ c ∈ mid, c.1 = call) ∧
      ∀ c ∈ before ++ after, c.1 ≠ call := by
  obtain h | h := h
  · refine ⟨s.chunks, [], [], by simp, fun c hc => absurd hc List.not_mem_nil, fun c hc heq => ?_⟩
    rw [List.append_nil] at hc
    exact List.filter_eq_nil_iff.mp h c hc (decide_eq_true heq)
  · obtain ⟨before, after, hchunks, hbefore, -, hafter⟩ := List.filter_eq_cons_iff.mp h
    refine ⟨before, [(call, src)], after, by rw [hchunks]; simp, fun c hc => ?_, fun c hc heq => ?_⟩
    · rw [List.mem_singleton.mp hc]
    · obtain hc | hc := List.mem_append.mp hc
      · exact hbefore c hc (decide_eq_true heq)
      · exact List.filter_eq_nil_iff.mp hafter c hc (decide_eq_true heq)

/-- **Short writes are atomic** as long as none begins where only some of it fits. -/
theorem pipe_atomic {s : State Thread} (h : (pipeSystem Thread).Reach State.Room s) :
    Atomic s := by
  have hs := State.Whole.of_reach h
  refine ⟨fun call src hget hlen => together_of_chunksOf (hs.whole call src hget hlen), ?_⟩
  intro t call src written all value hpc hget hlen hreturns
  obtain ⟨⟨shared, q, v⟩, hact, hvalue⟩ := Option.bind_eq_some_iff.mp hreturns
  obtain rfl : v = some value := hvalue
  have hin := hs.inOne t
  rw [hpc] at hact hin
  obtain ⟨all', hget', hall⟩ := hin
  obtain rfl : all = all' := Option.some.inj (hget.symm.trans hget')
  generalize hval : some value = v at hact
  have hacts := Acts.of_act hact
  cases hacts with
  | wrote =>
    obtain rfl := Option.some.inj hval
    left
    obtain ⟨rfl, hnil, hnone⟩ | ⟨rfl, -, hwhole⟩ := hall hlen
    · rw [Shared.placed, hnone, ← hnil]
      exact ⟨rfl, rfl⟩
    · rw [Shared.placed, hwhole]
      exact ⟨rfl, List.flatMap_singleton ..⟩
  | stopped hsrc hstop =>
    right
    obtain ⟨rfl, -, hnone⟩ | ⟨-, hnil, -⟩ := hall hlen
    · refine ⟨Option.some.inj hval, ?_, ?_⟩
      · rw [Shared.placed, hnone]
        rfl
      · obtain hbroken | ⟨-, hfull⟩ := hstop
        · exact .inr hbroken
        · exact .inl hfull
    · exact absurd hnil hsrc
  | _ => cases hval

instance (r : Ring) : DecidablePred (Pc.HasRoom r)
  | .write .. => inferInstanceAs (Decidable (_ → _ → _))
  | .out | .read .. | .readWait .. | .writeWait .. => isTrue trivial

instance (s : State (Fin 2)) (e : Fin 2 × Act) : Decidable (s.Room e) :=
  inferInstanceAs (Decidable (_ → _))

theorem pipe_atomic_short : ∃ s : State (Fin 2), s.shared.chunks = [(0, [1, 2, 3])] ∧ Atomic s := by
  obtain ⟨s, hs, hp⟩ : ∃ s, (pipeSystem (Fin 2)).Reach State.Room s ∧
      decide (s.shared.chunks = [(0, [1, 2, 3])]) = true :=
    EventSystem.Reach.exists_of_runIf (b := fun s e => decide (s.Room e))
      (fun _ _ => of_decide_eq_true) [(1, .write [1, 2, 3] false), (1, .go)] init_start
      (by decide +kernel)
  exact ⟨s, of_decide_eq_true hp, pipe_atomic hs⟩

set_option maxRecDepth 20000 in
/-- A write of two bytes finds room for one. -/
theorem pipe_not_atomic : ∃ s : State (Fin 2), (pipeSystem (Fin 2)).Reachable s ∧ ¬ Atomic s := by
  obtain ⟨s, hs, hp⟩ : ∃ s, (pipeSystem (Fin 2)).Reachable s ∧
      decide (s.pc 1 = .write 1 [2] 1 true ∧ s.shared.calls[1]? = some [1, 2] ∧
        s.returns (1, .go) = some 1) = true :=
    EventSystem.Reachable.exists_of_run
      [(0, .write (List.replicate 4095 0) false), (0, .go), (1, .write [1, 2] true), (1, .go)]
      init_start (by decide +kernel)
  obtain ⟨hpc, hcall, hreturns⟩ := of_decide_eq_true hp
  refine ⟨s, hs, fun h => ?_⟩
  obtain ⟨hvalue, -⟩ | ⟨hvalue, -⟩ := h.nonblock 1 1 [2] 1 [1, 2] 1 hpc hcall (by decide) hreturns
  · exact absurd hvalue (by decide)
  · exact absurd hvalue (by decide)

end Pipe

end StarOS
