import Mathlib.Data.Finset.Max
import Mathlib.Data.Fintype.Card
import StarOS.Lib.Ticket
import StarOS.Lib.Trace

/-!
# The kernel's spin lock

Every structure that cores share is behind a ticket lock. Taking it masks interrupts on the core
first and draws a ticket then, and the guard, when it is dropped, serves the next ticket and brings
the mask back to what it was. Code masks interrupts by itself too, in the same nested way, and an
interrupt handler takes locks like any other code.

Here the cores take turns at the single accesses to the counters and to the mask, and an interrupt
comes whenever it is not masked.

## Main definitions

* `SpinLock.Cpu`, `SpinLock.State.next` — where a core is, and what it does next
* `SpinLock.spinSystem`
* `SpinLock.Queue` — who holds a lock and who waits for it
* `SpinLock.Ranked` — locks are taken in the order of a rank

## Main results

* `SpinLock.Masks.push`, `SpinLock.Masks.pop` — the mask under nested sections
* `SpinLock.Queue.next` — the queue of a lock, over a step
* `SpinLock.lock_fair` — one holds the lock at a time, in the order of the tickets
* `SpinLock.masked_inside`
* `SpinLock.no_deadlock`
-/

namespace StarOS

namespace SpinLock

/-- What `irq_save` has saved, for a guard or for the code itself. -/
structure Frame (Lock : Type) where
  lock : Option Lock
  daif : Bool

/-- Where a core is in the code of a lock. -/
inductive Phase (Lock : Type)
  | running
  /-- `lock`: interrupts are masked, about to draw a ticket. -/
  | entering (lock : Lock) (daif : Bool)
  /-- About to load the ticket that is served. -/
  | spinning (lock : Lock) (daif : Bool) (ticket : BitVec 32)
  /-- `drop`: the next ticket is served, about to restore the mask. -/
  | leaving (daif : Bool)

/-- A core: whether interrupts are masked, the sections it is in, innermost first, and whether it
is in an interrupt handler. -/
structure Cpu (Lock : Type) where
  masked : Bool
  nest : List (Frame Lock)
  phase : Phase Lock
  handler : Bool

structure State (Core Lock : Type) where
  cpu : Core → Cpu Lock
  lock : Lock → Tickets 32

inductive Event (Core Lock : Type)
  /-- `irq_save`, and `irq_restore` of it. -/
  | save (core : Core)
  | unsave (core : Core)
  /-- `lock`: masking, drawing a ticket, and a load of the ticket that is served. -/
  | lock (core : Core) (lock : Lock)
  | take (core : Core) (lock : Lock)
  | enter (core : Core) (lock : Lock)
  | spin (core : Core)
  /-- `drop`: serving the next ticket, and restoring the mask. -/
  | drop (core : Core) (lock : Lock)
  | restore (core : Core)
  /-- An interrupt, and the return from its handler. -/
  | irq (core : Core)
  | eret (core : Core)

variable {Core Lock : Type} [DecidableEq Core] [DecidableEq Lock]

/-- A core goes on to be `p`. -/
def State.put (s : State Core Lock) (c : Core) (p : Cpu Lock) : State Core Lock :=
  { s with cpu := Function.update s.cpu c p }

def State.putLock (s : State Core Lock) (k : Lock) (d : Tickets 32) : State Core Lock :=
  { s with lock := Function.update s.lock k d }

/-- One access. -/
def State.next (s : State Core Lock) : Event Core Lock → Option (State Core Lock)
  | .save c =>
    let p := s.cpu c
    match p.phase with
    | .running => some (s.put c { p with masked := true, nest := ⟨none, p.masked⟩ :: p.nest })
    | _ => none
  | .unsave c =>
    let p := s.cpu c
    match p.phase, p.nest with
    | .running, ⟨none, daif⟩ :: nest => some (s.put c { p with masked := daif, nest })
    | _, _ => none
  | .lock c k =>
    let p := s.cpu c
    match p.phase with
    | .running => some (s.put c { p with masked := true, phase := .entering k p.masked })
    | _ => none
  | .take c k =>
    let p := s.cpu c
    let d := s.lock k
    match p.phase with
    | .entering k' daif =>
      if k' = k then
        some ((s.put c { p with phase := .spinning k daif d.next }).putLock k
          { d with next := d.next + 1#32 })
      else none
    | _ => none
  | .enter c k =>
    let p := s.cpu c
    match p.phase with
    | .spinning k' daif ticket =>
      if k' = k ∧ (s.lock k).serving = ticket then
        some (s.put c { p with nest := ⟨some k, daif⟩ :: p.nest, phase := .running })
      else none
    | _ => none
  | .spin c =>
    match (s.cpu c).phase with
    | .spinning k _ ticket => if (s.lock k).serving = ticket then none else some s
    | _ => none
  | .drop c k =>
    let p := s.cpu c
    let d := s.lock k
    match p.phase, p.nest with
    | .running, ⟨some k', daif⟩ :: nest =>
      if k' = k then
        some ((s.put c { p with nest, phase := .leaving daif }).putLock k
          { d with serving := d.serving + 1#32 })
      else none
    | _, _ => none
  | .restore c =>
    let p := s.cpu c
    match p.phase with
    | .leaving daif => some (s.put c { p with masked := daif, phase := .running })
    | _ => none
  | .irq c =>
    let p := s.cpu c
    if p.masked = false then some (s.put c { p with masked := true, handler := true }) else none
  | .eret c =>
    let p := s.cpu c
    match p.phase, p.nest with
    | .running, [] =>
      if p.handler then some (s.put c { p with masked := false, handler := false }) else none
    | _, _ => none

/-- The locks are new, and no core is in a section. -/
def spinSystem (Core Lock : Type) [DecidableEq Core] [DecidableEq Lock] :
    EventSystem (State Core Lock) (Event Core Lock) where
  init s := (∀ c, (s.cpu c).nest = [] ∧ (s.cpu c).phase = .running ∧ (s.cpu c).handler = false) ∧
    ∀ k, s.lock k = ⟨0, 0⟩
  next := State.next

/-! ### Masks -/

/-- The masks that nested sections have saved, innermost first. All but the outermost were saved
with interrupts masked already, and in a handler that one was too. -/
structure Masks (masked handler : Bool) (saved : List Bool) : Prop where
  inside : saved ≠ [] ∨ handler = true → masked = true
  inner : ∀ d ∈ saved.dropLast, d = true
  handler : handler = true → ∀ d ∈ saved, d = true

section Masks

variable {masked handler daif : Bool} {saved : List Bool}

theorem Masks.push (h : Masks masked handler saved) : Masks true handler (masked :: saved) where
  inside _ := rfl
  inner d hd := by
    cases saved with
    | nil => simp at hd
    | cons d' saved =>
      rw [List.dropLast_cons_cons] at hd
      rcases List.mem_cons.mp hd with rfl | hd
      · exact h.inside (.inl (List.cons_ne_nil _ _))
      · exact h.inner d hd
  handler hh d hd := by
    rcases List.mem_cons.mp hd with rfl | hd
    · exact h.inside (.inr hh)
    · exact h.handler hh d hd

theorem Masks.pop (h : Masks masked handler (daif :: saved)) : Masks daif handler saved where
  inside hin := by
    rcases hin with hne | hh
    · refine h.inner daif ?_
      rw [List.dropLast_cons_of_ne_nil hne]
      exact List.mem_cons_self
    · exact h.handler hh daif List.mem_cons_self
  inner d hd := by
    refine h.inner d ?_
    cases saved with
    | nil => simp at hd
    | cons d' saved =>
      rw [List.dropLast_cons_cons]
      exact List.mem_cons_of_mem _ hd
  handler hh d hd := h.handler hh d (List.mem_cons_of_mem _ hd)

/-- An interrupt comes where no section is open. -/
theorem Masks.irq (h : Masks false handler saved) : saved = [] ∧ handler = false := by
  constructor
  · by_contra hne
    cases h.inside (.inl hne)
  · by_contra hh
    cases h.inside (.inr (by simpa using hh))

theorem masks_nil : Masks true true [] where
  inside _ := rfl
  inner _ hd := absurd hd List.not_mem_nil
  handler _ _ hd := absurd hd List.not_mem_nil

theorem masks_open (masked : Bool) : Masks masked false [] where
  inside hin := by simp at hin
  inner _ hd := absurd hd List.not_mem_nil
  handler _ _ hd := absurd hd List.not_mem_nil

end Masks

/-- The mask a core has saved for the lock it is entering or leaving. -/
def Phase.daif : Phase Lock → List Bool
  | .running => []
  | .entering _ daif | .spinning _ daif _ | .leaving daif => [daif]

namespace Cpu

def saved (p : Cpu Lock) : List Bool := p.phase.daif ++ p.nest.map Frame.daif

def Sound (p : Cpu Lock) : Prop := Masks p.masked p.handler p.saved

/-- How often a core holds a lock. -/
def holds (p : Cpu Lock) (k : Lock) : ℕ := (p.nest.filterMap Frame.lock).count k

/-- The ticket a core waits with. -/
def ticket (p : Cpu Lock) (k : Lock) : Option (BitVec 32) :=
  match p.phase with
  | .spinning k' _ ticket => if k' = k then some ticket else none
  | _ => none

end Cpu

/-- What a step does to the core that takes it, to its lock, and to the rest. -/
inductive Step (s : State Core Lock) : Event Core Lock → State Core Lock → Prop
  | save {c : Core} {p : Cpu Lock} : s.cpu c = p → p.phase = .running →
      Step s (.save c) (s.put c { p with masked := true, nest := ⟨none, p.masked⟩ :: p.nest })
  | unsave {c : Core} {p : Cpu Lock} {daif : Bool} {nest : List (Frame Lock)} : s.cpu c = p →
      p.phase = .running → p.nest = ⟨none, daif⟩ :: nest →
      Step s (.unsave c) (s.put c { p with masked := daif, nest })
  | lock {c : Core} {k : Lock} {p : Cpu Lock} : s.cpu c = p → p.phase = .running →
      Step s (.lock c k) (s.put c { p with masked := true, phase := .entering k p.masked })
  | take {c : Core} {k : Lock} {p : Cpu Lock} {daif : Bool} : s.cpu c = p →
      p.phase = .entering k daif →
      Step s (.take c k) ((s.put c { p with phase := .spinning k daif (s.lock k).next }).putLock k
        { s.lock k with next := (s.lock k).next + 1#32 })
  | enter {c : Core} {k : Lock} {p : Cpu Lock} {daif : Bool} : s.cpu c = p →
      p.phase = .spinning k daif (s.lock k).serving →
      Step s (.enter c k) (s.put c { p with nest := ⟨some k, daif⟩ :: p.nest, phase := .running })
  | spin {c : Core} : Step s (.spin c) s
  | drop {c : Core} {k : Lock} {p : Cpu Lock} {daif : Bool} {nest : List (Frame Lock)} :
      s.cpu c = p → p.phase = .running → p.nest = ⟨some k, daif⟩ :: nest →
      Step s (.drop c k) ((s.put c { p with nest, phase := .leaving daif }).putLock k
        { s.lock k with serving := (s.lock k).serving + 1#32 })
  | restore {c : Core} {p : Cpu Lock} {daif : Bool} : s.cpu c = p → p.phase = .leaving daif →
      Step s (.restore c) (s.put c { p with masked := daif, phase := .running })
  | irq {c : Core} {p : Cpu Lock} : s.cpu c = p → p.masked = false →
      Step s (.irq c) (s.put c { p with masked := true, handler := true })
  | eret {c : Core} {p : Cpu Lock} : s.cpu c = p → p.phase = .running → p.nest = [] →
      p.handler = true → Step s (.eret c) (s.put c { p with masked := false, handler := false })

variable {s s' : State Core Lock} {e : Event Core Lock} {c : Core} {k : Lock}

theorem step_of_next (h : s.next e = some s') : Step s e s' := by
  cases e with
  | save c =>
    simp only [State.next] at h
    split at h
    · next hphase => exact Option.some.inj h ▸ .save rfl hphase
    · cases h
  | unsave c =>
    simp only [State.next] at h
    split at h
    · next hphase hnest => exact Option.some.inj h ▸ .unsave rfl hphase hnest
    · cases h
  | lock c k =>
    simp only [State.next] at h
    split at h
    · next hphase => exact Option.some.inj h ▸ .lock rfl hphase
    · cases h
  | take c k =>
    simp only [State.next] at h
    split at h
    · next hphase =>
      split at h
      · next heq =>
        subst heq
        exact Option.some.inj h ▸ .take rfl hphase
      · cases h
    · cases h
  | enter c k =>
    simp only [State.next] at h
    split at h
    · next hphase =>
      split at h
      · next heq =>
        obtain ⟨rfl, rfl⟩ := heq
        exact Option.some.inj h ▸ .enter rfl hphase
      · cases h
    · cases h
  | spin c =>
    simp only [State.next] at h
    split at h
    · split at h
      · cases h
      · exact Option.some.inj h ▸ .spin
    · cases h
  | drop c k =>
    simp only [State.next] at h
    split at h
    · next hphase hnest =>
      split at h
      · next heq =>
        subst heq
        exact Option.some.inj h ▸ .drop rfl hphase hnest
      · cases h
    · cases h
  | restore c =>
    simp only [State.next] at h
    split at h
    · next hphase => exact Option.some.inj h ▸ .restore rfl hphase
    · cases h
  | irq c =>
    simp only [State.next] at h
    split at h
    · next hmasked => exact Option.some.inj h ▸ .irq rfl hmasked
    · cases h
  | eret c =>
    simp only [State.next] at h
    split at h
    · next hphase hnest =>
      split at h
      · next hhandler => exact Option.some.inj h ▸ .eret rfl hphase hnest hhandler
      · cases h
    · cases h

/-- **The masks, over a step.** -/
theorem sound_next (h : ∀ c, (s.cpu c).Sound) (hn : s.next e = some s') (c : Core) :
    (s'.cpu c).Sound := by
  have hput : ∀ {c' : Core} {p : Cpu Lock}, p.Sound → ((s.put c' p).cpu c).Sound := by
    intro c' p hp
    by_cases hc : c = c'
    · subst hc
      simpa [State.put] using hp
    · simpa [State.put, Function.update_of_ne hc] using h c
  cases step_of_next hn with
  | @save c p hp hphase =>
    subst hp
    have hc := h c
    rw [Cpu.Sound, Cpu.saved, hphase] at hc
    refine hput ?_
    simpa [Cpu.Sound, Cpu.saved, hphase, Phase.daif] using Masks.push hc
  | @unsave c p daif nest hp hphase hnest =>
    subst hp
    have hc := h c
    rw [Cpu.Sound, Cpu.saved, hphase, hnest] at hc
    refine hput ?_
    simpa [Cpu.Sound, Cpu.saved, hphase, Phase.daif] using Masks.pop hc
  | @lock c k p hp hphase =>
    subst hp
    have hc := h c
    rw [Cpu.Sound, Cpu.saved, hphase] at hc
    refine hput ?_
    simpa [Cpu.Sound, Cpu.saved, Phase.daif] using Masks.push hc
  | @take c k p daif hp hphase =>
    subst hp
    have hc := h c
    rw [Cpu.Sound, Cpu.saved, hphase] at hc
    exact hput hc
  | @enter c k p daif hp hphase =>
    subst hp
    have hc := h c
    rw [Cpu.Sound, Cpu.saved, hphase] at hc
    exact hput hc
  | spin => exact h c
  | @drop c k p daif nest hp hphase hnest =>
    subst hp
    have hc := h c
    rw [Cpu.Sound, Cpu.saved, hphase, hnest] at hc
    exact hput hc
  | @restore c p daif hp hphase =>
    subst hp
    have hc := h c
    rw [Cpu.Sound, Cpu.saved, hphase] at hc
    refine hput ?_
    simpa [Cpu.Sound, Cpu.saved, Phase.daif] using Masks.pop hc
  | @irq c p hp hmasked =>
    subst hp
    have hc := h c
    rw [Cpu.Sound, hmasked] at hc
    obtain ⟨hsaved, -⟩ := hc.irq
    refine hput ?_
    rw [Cpu.Sound, show Cpu.saved { s.cpu c with masked := true, handler := true } = [] from hsaved]
    exact masks_nil
  | @eret c p hp hphase hnest hhandler =>
    subst hp
    refine hput ?_
    have hsaved : Cpu.saved { s.cpu c with masked := false, handler := false } = [] := by
      simp [Cpu.saved, hphase, hnest, Phase.daif]
    rw [Cpu.Sound, hsaved]
    exact masks_open false

theorem sound_of_reach {ok : State Core Lock → Event Core Lock → Prop}
    (h : (spinSystem Core Lock).Reach ok s) (c : Core) : (s.cpu c).Sound := by
  refine EventSystem.Reach.invariant (I := fun s => ∀ c, (s.cpu c).Sound) (fun s hs c => ?_)
    (fun s e s' hI _ hn => sound_next hI hn) h c
  obtain ⟨hnest, hphase, hhandler⟩ := hs.1 c
  have hsaved : (s.cpu c).saved = [] := by simp [Cpu.saved, hphase, hnest, Phase.daif]
  rw [Cpu.Sound, hsaved, hhandler]
  exact masks_open _

/-! ### The queue of a lock -/

/-- Who holds a lock, and who waits for it, with their tickets, in the order of these. -/
structure Queue (s : State Core Lock) (k : Lock) (holder : Option Core)
    (waiting : List (Core × BitVec 32)) : Prop where
  line : (s.lock k).Line ((holder.map fun _ => (s.lock k).serving).toList ++ waiting.map Prod.snd)
  holds : ∀ c, (s.cpu c).holds k = if holder = some c then 1 else 0
  mem : ∀ c t, (c, t) ∈ waiting ↔ (s.cpu c).ticket k = some t
  nodup : (waiting.map Prod.fst).Nodup

/-- The core that draws a ticket for a lock in a step, that comes to hold it, and that gives it
up. -/
def Event.takes (k : Lock) : Event Core Lock → Option Core
  | .take c k' => if k' = k then some c else none
  | _ => none

def Event.enters (k : Lock) : Event Core Lock → Option Core
  | .enter c k' => if k' = k then some c else none
  | _ => none

def Event.drops (k : Lock) : Event Core Lock → Option Core
  | .drop c k' => if k' = k then some c else none
  | _ => none

variable {holder : Option Core} {waiting : List (Core × BitVec 32)}

/-- A step that leaves alone who holds the lock and who waits for it. -/
theorem Queue.of_same (h : Queue s k holder waiting) (hlock : s'.lock k = s.lock k)
    (hholds : ∀ c, (s'.cpu c).holds k = (s.cpu c).holds k)
    (hticket : ∀ c, (s'.cpu c).ticket k = (s.cpu c).ticket k) : Queue s' k holder waiting where
  line := by
    rw [hlock]
    exact h.line
  holds c := (hholds c).trans (h.holds c)
  mem c t := by
    rw [hticket]
    exact h.mem c t
  nodup := h.nodup

theorem Queue.of_put (h : Queue s k holder waiting) {p : Cpu Lock}
    (hholds : p.holds k = (s.cpu c).holds k) (hticket : p.ticket k = (s.cpu c).ticket k) :
    Queue (s.put c p) k holder waiting := by
  refine h.of_same rfl (fun c' => ?_) fun c' => ?_
  · by_cases hc : c' = c
    · subst hc
      simpa [State.put] using hholds
    · simp [State.put, Function.update_of_ne hc]
  · by_cases hc : c' = c
    · subst hc
      simpa [State.put] using hticket
    · simp [State.put, Function.update_of_ne hc]

/-- The same for a core that works on another lock. -/
theorem Queue.of_putLock (h : Queue s k holder waiting) {k' : Lock} (hk : k' ≠ k) (d : Tickets 32) :
    Queue (s.putLock k' d) k holder waiting :=
  h.of_same (Function.update_of_ne hk.symm _ _) (fun _ => rfl) fun _ => rfl

theorem Queue.ticket_of_mem (h : Queue s k holder waiting) {c : Core} {t : BitVec 32}
    (hmem : (c, t) ∈ waiting) : (s.cpu c).ticket k = some t := (h.mem c t).mp hmem

/-- Who draws a ticket waits last. -/
theorem Queue.take [Fintype Core] (hcores : Fintype.card Core + 1 < 2 ^ 32)
    (h : Queue s k holder waiting) {p : Cpu Lock} {daif : Bool} (hp : s.cpu c = p)
    (hphase : p.phase = .entering k daif) :
    Queue ((s.put c { p with phase := .spinning k daif (s.lock k).next }).putLock k
      { s.lock k with next := (s.lock k).next + 1#32 }) k holder
        (waiting ++ [(c, (s.lock k).next)]) := by
  subst hp
  have hnone : (s.cpu c).ticket k = none := by rw [Cpu.ticket, hphase]
  have hnot : ∀ t, (c, t) ∉ waiting := fun t ht => by
    rw [h.ticket_of_mem ht] at hnone
    cases hnone
  have hnodup : (c :: waiting.map Prod.fst).Nodup := by
    refine List.nodup_cons.mpr ⟨fun hmem => ?_, h.nodup⟩
    obtain ⟨⟨c', t⟩, ht, rfl⟩ := List.mem_map.mp hmem
    exact hnot t ht
  have hle := hnodup.length_le_card
  rw [List.length_cons, List.length_map] at hle
  refine ⟨?_, fun c' => ?_, fun c' t => ?_, ?_⟩
  · simp only [State.putLock, Function.update_self]
    rw [List.map_append, ← List.append_assoc]
    refine h.line.take ?_
    rw [List.length_append, List.length_map]
    have hholder : (holder.map fun _ => (s.lock k).serving).toList.length ≤ 1 := by
      cases holder <;> simp
    omega
  · rw [← h.holds c']
    by_cases hc : c' = c
    · subst hc
      simp [State.putLock, State.put, Cpu.holds]
    · simp [State.putLock, State.put, Function.update_of_ne hc]
  · rw [List.mem_append, List.mem_singleton, Prod.mk.injEq]
    by_cases hc : c' = c
    · subst hc
      simp [State.putLock, State.put, Cpu.ticket, hnot, eq_comm]
    · simp [State.putLock, State.put, hc, h.mem]
  · rw [List.map_append, List.nodup_append]
    refine ⟨h.nodup, List.nodup_singleton _, fun c₁ hc₁ c₂ hc₂ => ?_⟩
    obtain ⟨⟨c', t⟩, hmem, rfl⟩ := List.mem_map.mp hc₁
    obtain rfl := List.mem_singleton.mp hc₂
    rintro rfl
    exact hnot t hmem

/-- Who sees its ticket served is the first, and nobody holds the lock. -/
theorem Queue.first (h : Queue s k holder waiting) (hticket : (s.cpu c).ticket k =
    some (s.lock k).serving) :
    holder = none ∧ ∃ rest, waiting = (c, (s.lock k).serving) :: rest := by
  obtain ⟨i, hi, hget⟩ := List.getElem_of_mem ((h.mem c _).mpr hticket)
  have hzero : (holder.map fun _ => (s.lock k).serving).toList.length + i = 0 := by
    refine (h.line.first (by simp [hi])).mp ?_
    rw [List.getElem_append_right (Nat.le_add_right _ _)]
    simp [hget]
  have hholder : holder = none := by
    cases holder with
    | none => rfl
    | some c' => simp at hzero
  obtain rfl : i = 0 := by omega
  cases waiting with
  | nil => simp at hi
  | cons x rest =>
    rw [List.getElem_cons_zero] at hget
    exact ⟨hholder, rest, by rw [hget]⟩

theorem Queue.enter {rest : List (Core × BitVec 32)}
    (h : Queue s k none ((c, (s.lock k).serving) :: rest)) {p : Cpu Lock} {daif : Bool}
    (hp : s.cpu c = p) :
    Queue (s.put c { p with nest := ⟨some k, daif⟩ :: p.nest, phase := .running }) k (some c)
      rest := by
  subst hp
  have hnodup := h.nodup
  rw [List.map_cons, List.nodup_cons] at hnodup
  have hnot : ∀ t, (c, t) ∉ rest := fun t ht => hnodup.1 (List.mem_map.mpr ⟨(c, t), ht, rfl⟩)
  refine ⟨h.line, fun c' => ?_, fun c' t => ?_, hnodup.2⟩
  · have hold := h.holds c'
    by_cases hc : c' = c
    · subst hc
      rw [if_neg (by simp)] at hold
      rw [Cpu.holds] at hold
      simp [State.put, Cpu.holds, hold]
    · rw [if_neg (by simp)] at hold
      simp [State.put, Function.update_of_ne hc, hold, Ne.symm hc]
  · by_cases hc : c' = c
    · subst hc
      simp [State.put, Cpu.ticket, hnot]
    · have hmem := h.mem c' t
      rw [List.mem_cons, Prod.mk.injEq] at hmem
      simp only [State.put, Function.update_of_ne hc]
      rw [← hmem]
      simp [hc]

/-- Who gives a lock up held it, and the first that waits has its ticket served. -/
theorem Queue.drop (h : Queue s k holder waiting) {p : Cpu Lock} {daif : Bool}
    {nest : List (Frame Lock)} (hp : s.cpu c = p) (hphase : p.phase = .running)
    (hnest : p.nest = ⟨some k, daif⟩ :: nest) :
    holder = some c ∧ Queue ((s.put c { p with nest, phase := .leaving daif }).putLock k
      { s.lock k with serving := (s.lock k).serving + 1#32 }) k none waiting := by
  subst hp
  have hheld := h.holds c
  have hcount : (s.cpu c).holds k = (nest.filterMap Frame.lock).count k + 1 := by
    simp [Cpu.holds, hnest]
  have hholder : holder = some c := by
    by_contra hne
    rw [if_neg hne] at hheld
    omega
  rw [if_pos hholder] at hheld
  refine ⟨hholder, ?_, fun c' => ?_, fun c' t => ?_, h.nodup⟩
  · have hline := h.line
    rw [hholder] at hline
    simp only [State.putLock, Function.update_self, Option.map_none, Option.toList_none,
      List.nil_append]
    exact hline.serve
  · rw [if_neg (by simp)]
    by_cases hc : c' = c
    · subst hc
      have hzero : (nest.filterMap Frame.lock).count k = 0 := by omega
      simpa [State.putLock, State.put, Cpu.holds] using hzero
    · have hold := h.holds c'
      rw [hholder, if_neg (by simpa using Ne.symm hc)] at hold
      simpa [State.putLock, State.put, Function.update_of_ne hc] using hold
  · rw [h.mem]
    by_cases hc : c' = c
    · subst hc
      simp [State.putLock, State.put, Cpu.ticket, hphase]
    · simp [State.putLock, State.put, Function.update_of_ne hc]

/-- **The queue of a lock, over a step**: who draws a ticket stands last, and who comes to hold the
lock was first. -/
theorem Queue.next [Fintype Core] (hcores : Fintype.card Core + 1 < 2 ^ 32)
    (h : Queue s k holder waiting) (hn : s.next e = some s') :
    ∃ holder' waiting', Queue s' k holder' waiting' ∧
      waiting.map Prod.fst ++ (e.takes k).toList =
        (e.enters k).toList ++ waiting'.map Prod.fst ∧
      holder.toList.length + (e.enters k).toList.length =
        holder'.toList.length + (e.drops k).toList.length := by
  have hsame : ∀ {s'}, Queue s' k holder waiting → e.takes k = none → e.enters k = none →
      e.drops k = none → ∃ holder' waiting', Queue s' k holder' waiting' ∧
        waiting.map Prod.fst ++ (e.takes k).toList =
          (e.enters k).toList ++ waiting'.map Prod.fst ∧
        holder.toList.length + (e.enters k).toList.length =
          holder'.toList.length + (e.drops k).toList.length := by
    intro s' hq htakes henters hdrops
    refine ⟨holder, waiting, hq, ?_, ?_⟩
    · simp [htakes, henters]
    · simp [henters, hdrops]
  cases step_of_next hn with
  | @save c p hp hphase =>
    refine hsame (h.of_put ?_ ?_) rfl rfl rfl
    · subst hp
      simp [Cpu.holds]
    · subst hp
      rfl
  | @unsave c p daif nest hp hphase hnest =>
    refine hsame (h.of_put ?_ ?_) rfl rfl rfl
    · subst hp
      simp [Cpu.holds, hnest]
    · subst hp
      rfl
  | @lock c k' p hp hphase =>
    refine hsame (h.of_put ?_ ?_) rfl rfl rfl
    · subst hp
      rfl
    · subst hp
      simp [Cpu.ticket, hphase]
  | @take c k' p daif hp hphase =>
    by_cases hk : k' = k
    · subst hk
      refine ⟨holder, _, h.take hcores hp hphase, ?_, ?_⟩
      · simp [Event.takes, Event.enters]
      · simp [Event.enters, Event.drops]
    · refine hsame (Queue.of_putLock (h.of_put ?_ ?_) hk _) (if_neg hk) rfl rfl
      · subst hp
        rfl
      · subst hp
        simp [Cpu.ticket, hphase, hk]
  | @enter c k' p daif hp hphase =>
    by_cases hk : k' = k
    · subst hk
      have hticket : (s.cpu c).ticket k' = some (s.lock k').serving := by
        rw [hp, Cpu.ticket, hphase]
        exact if_pos rfl
      obtain ⟨rfl, rest, rfl⟩ := h.first hticket
      refine ⟨some c, rest, h.enter hp, ?_, ?_⟩
      · simp [Event.takes, Event.enters]
      · simp [Event.enters, Event.drops]
    · refine hsame (h.of_put ?_ ?_) rfl (if_neg hk) rfl
      · subst hp
        simp [Cpu.holds, hk]
      · subst hp
        simp [Cpu.ticket, hphase, hk]
  | spin => exact hsame h rfl rfl rfl
  | @drop c k' p daif nest hp hphase hnest =>
    by_cases hk : k' = k
    · subst hk
      obtain ⟨rfl, hq⟩ := h.drop hp hphase hnest
      refine ⟨none, waiting, hq, ?_, ?_⟩
      · simp [Event.takes, Event.enters]
      · simp [Event.enters, Event.drops]
    · refine hsame (Queue.of_putLock (h.of_put ?_ ?_) hk _) rfl rfl (if_neg hk)
      · subst hp
        simp [Cpu.holds, hnest, hk]
      · subst hp
        simp [Cpu.ticket, hphase]
  | @restore c p daif hp hphase =>
    refine hsame (h.of_put ?_ ?_) rfl rfl rfl
    · subst hp
      rfl
    · subst hp
      simp [Cpu.ticket, hphase]
  | @irq c p hp hmasked =>
    subst hp
    exact hsame (h.of_put rfl rfl) rfl rfl rfl
  | @eret c p hp hphase hnest hhandler =>
    subst hp
    exact hsame (h.of_put rfl rfl) rfl rfl rfl

theorem queue_init (hinit : (spinSystem Core Lock).init s) (k : Lock) : Queue s k none [] where
  line := Tickets.line_nil (by rw [hinit.2 k])
  holds c := by
    rw [if_neg (by simp), Cpu.holds, (hinit.1 c).1]
    rfl
  mem c t := by
    rw [Cpu.ticket, (hinit.1 c).2.1]
    simp
  nodup := List.nodup_nil

/-! ### Whole runs -/

/-- The cores that drew a ticket for a lock, that came to hold it, and that gave it up, in a
trace. -/
def takes (k : Lock) (tr : List (State Core Lock × Event Core Lock)) : List Core :=
  tr.filterMap fun x => x.2.takes k

def enters (k : Lock) (tr : List (State Core Lock × Event Core Lock)) : List Core :=
  tr.filterMap fun x => x.2.enters k

def drops (k : Lock) (tr : List (State Core Lock × Event Core Lock)) : List Core :=
  tr.filterMap fun x => x.2.drops k

variable {ok : State Core Lock → Event Core Lock → Prop}
  {tr : List (State Core Lock × Event Core Lock)}

theorem queue_of_trace [Fintype Core] (hcores : Fintype.card Core + 1 < 2 ^ 32)
    (h : (spinSystem Core Lock).Trace ok tr s) (k : Lock) :
    ∃ holder waiting, Queue s k holder waiting ∧
      takes k tr = enters k tr ++ waiting.map Prod.fst ∧
      (enters k tr).length = (drops k tr).length + holder.toList.length := by
  refine EventSystem.Trace.invariant (I := fun tr s => ∃ holder waiting, Queue s k holder waiting ∧
      takes k tr = enters k tr ++ waiting.map Prod.fst ∧
      (enters k tr).length = (drops k tr).length + holder.toList.length) (fun s hs => ?_)
    (fun tr s e s' hI _ hn => ?_) h
  · exact ⟨none, [], queue_init hs k, rfl, rfl⟩
  · obtain ⟨holder, waiting, hq, horder, hcount⟩ := hI
    obtain ⟨holder', waiting', hq', horder', hcount'⟩ := hq.next hcores hn
    have hsnoc : ∀ f : Event Core Lock → Option Core,
        ([(s, e)] : List (State Core Lock × Event Core Lock)).filterMap (fun x => f x.2) =
          (f e).toList := by
      intro f
      cases hf : f e <;> simp [hf]
    refine ⟨holder', waiting', hq', ?_, ?_⟩
    · rw [takes, enters, List.filterMap_append, List.filterMap_append, hsnoc, hsnoc,
        List.append_assoc, ← horder', ← List.append_assoc]
      exact congrArg (· ++ _) horder
    · rw [enters, drops, List.filterMap_append, List.filterMap_append, hsnoc, hsnoc,
        List.length_append, List.length_append]
      rw [enters, drops] at hcount
      omega

/-- A core that loads the ticket that is served finds its own there if it is the first that waits,
and nobody holds the lock. -/
theorem Queue.enter_isSome_iff (h : Queue s k holder waiting) :
    (s.next (.enter c k)).isSome ↔ holder = none ∧ (waiting.map Prod.fst).head? = some c := by
  constructor
  · intro hsome
    obtain ⟨s', hn⟩ := Option.isSome_iff_exists.mp hsome
    cases step_of_next hn with
    | enter hp hphase =>
      obtain ⟨hnone, rest, rfl⟩ := h.first (by rw [hp, Cpu.ticket, hphase]; exact if_pos rfl)
      exact ⟨hnone, rfl⟩
  · rintro ⟨rfl, hhead⟩
    cases waiting with
    | nil => cases hhead
    | cons x rest =>
      obtain ⟨c', t⟩ := x
      obtain rfl := Option.some.inj hhead
      have hticket := h.ticket_of_mem List.mem_cons_self
      have hserved : t = (s.lock k).serving := by
        have hfirst := (h.line.first (show 0 < _ from by simp)).mpr rfl
        simpa using hfirst
      rw [Cpu.ticket] at hticket
      split at hticket
      · next k' daif ticket hphase =>
        split at hticket
        · next hk =>
          obtain rfl := Option.some.inj hticket
          simp [State.next, hphase, hk, hserved]
        · cases hticket
      · cases hticket

/-- **One core holds a lock at a time**, in the order of the tickets. Nobody comes to hold it twice
for one ticket or is passed by, and where nobody holds it the first that waits can go on. -/
theorem lock_fair [Fintype Core] (hcores : Fintype.card Core + 1 < 2 ^ 32)
    (h : (spinSystem Core Lock).Trace (fun _ _ => True) tr s) (k : Lock) :
    ∃ (holder : Option Core) (waiting : List Core),
      (∀ c, (s.cpu c).holds k = if holder = some c then 1 else 0) ∧
      (∀ c, c ∈ waiting ↔ ((s.cpu c).ticket k).isSome) ∧ waiting.Nodup ∧
      takes k tr = enters k tr ++ waiting ∧
      (enters k tr).length = (drops k tr).length + holder.toList.length ∧
      ∀ c, (s.next (.enter c k)).isSome ↔ holder = none ∧ waiting.head? = some c := by
  obtain ⟨holder, waiting, hq, horder, hcount⟩ := queue_of_trace hcores h k
  refine ⟨holder, waiting.map Prod.fst, hq.holds, fun c => ?_, hq.nodup, horder, hcount,
    fun c => hq.enter_isSome_iff⟩
  rw [List.mem_map, Option.isSome_iff_exists]
  constructor
  · rintro ⟨⟨c', t⟩, hmem, rfl⟩
    exact ⟨t, hq.ticket_of_mem hmem⟩
  · rintro ⟨t, ht⟩
    exact ⟨(c, t), (hq.mem c t).mpr ht, rfl⟩

/-- **Interrupts are masked** on a core from the first access to a lock to the last. -/
theorem masked_inside (h : (spinSystem Core Lock).Reach ok s) (c : Core)
    (hin : (s.cpu c).nest ≠ [] ∨ (s.cpu c).phase ≠ .running) :
    (s.cpu c).masked = true ∧ s.next (.irq c) = none := by
  have hmasked : (s.cpu c).masked = true := by
    refine (sound_of_reach h c).inside (.inl fun hnil => ?_)
    rw [Cpu.saved, List.append_eq_nil_iff] at hnil
    rcases hin with hnest | hphase
    · exact hnest (List.map_eq_nil_iff.mp hnil.2)
    · refine hphase ?_
      cases hp : (s.cpu c).phase with
      | running => rfl
      | entering | spinning | leaving =>
        rw [hp] at hnil
        cases hnil.1
  exact ⟨hmasked, by simp [State.next, hmasked]⟩

/-! ### Locks in order -/

variable {rank : Lock → ℕ}

/-- Code takes a lock only while all that its core holds are of a lower rank. -/
def Ranked (rank : Lock → ℕ) (s : State Core Lock) : Event Core Lock → Prop
  | .lock c k => ∀ k', (s.cpu c).holds k' ≠ 0 → rank k' < rank k
  | _ => True

/-- The lock a core is on its way to. -/
def Phase.goal : Phase Lock → Option Lock
  | .entering k _ | .spinning k _ _ => some k
  | _ => none

/-- A core is on its way only to locks above those it holds. -/
def Climbs (rank : Lock → ℕ) (p : Cpu Lock) : Prop :=
  ∀ k k', p.phase.goal = some k → p.holds k' ≠ 0 → rank k' < rank k

theorem climbs_next (h : ∀ c, Climbs rank (s.cpu c)) (hok : Ranked rank s e)
    (hn : s.next e = some s') (c : Core) : Climbs rank (s'.cpu c) := by
  have hput : ∀ {c' : Core} {p : Cpu Lock}, Climbs rank p → Climbs rank ((s.put c' p).cpu c) := by
    intro c' p hp
    by_cases hc : c = c'
    · subst hc
      simpa [State.put] using hp
    · simpa [State.put, Function.update_of_ne hc] using h c
  have hidle : ∀ {p : Cpu Lock}, p.phase.goal = none → Climbs rank p := by
    intro p hp k k' hk
    rw [hp] at hk
    cases hk
  cases step_of_next hn with
  | @lock c k p hp hphase =>
    subst hp
    refine hput fun k₁ k₂ hgoal hheld => ?_
    obtain rfl := Option.some.inj hgoal
    exact hok k₂ hheld
  | @take c k p daif hp hphase =>
    subst hp
    refine hput fun k₁ k₂ hgoal hheld => h c k₁ k₂ ?_ hheld
    rw [hphase]
    exact hgoal
  | spin => exact h c
  | @irq c p hp hmasked =>
    subst hp
    exact hput (h c)
  | @save c p hp hphase => exact hput (hidle (by simp [hphase, Phase.goal]))
  | @unsave c p daif nest hp hphase hnest => exact hput (hidle (by simp [hphase, Phase.goal]))
  | enter | drop | restore => exact hput (hidle rfl)
  | @eret c p hp hphase hnest hhandler => exact hput (hidle (by simp [hphase, Phase.goal]))

theorem climbs_of_reach (h : (spinSystem Core Lock).Reach (Ranked rank) s) (c : Core) :
    Climbs rank (s.cpu c) := by
  refine EventSystem.Reach.invariant (I := fun s => ∀ c, Climbs rank (s.cpu c)) (fun s hs c => ?_)
    (fun s e s' hI hok hn => climbs_next hI hok hn) h c
  intro k k' hgoal
  rw [(hs.1 c).2.1] at hgoal
  cases hgoal

/-- The rank of the lock a core spins for. -/
def Cpu.level (rank : Lock → ℕ) (p : Cpu Lock) : ℕ := (p.phase.goal.map rank).getD 0

theorem Cpu.goal_of_ticket {p : Cpu Lock} (h : (p.ticket k).isSome) : p.phase.goal = some k := by
  rw [Cpu.ticket] at h
  split at h
  · next k' daif t hphase =>
    split at h
    · next hk => rw [hphase, Phase.goal, hk]
    · cases h
  · cases h

/-- **No deadlock.** Where locks are taken in the order of a rank, and a core waits for a lock, some
core can go on: one that spins and comes to hold its lock, or one that holds a lock, does not spin
and cannot be interrupted. -/
theorem no_deadlock [Fintype Core] (hcores : Fintype.card Core + 1 < 2 ^ 32)
    (h : (spinSystem Core Lock).Reach (Ranked rank) s) (hspin : ((s.cpu c).ticket k).isSome) :
    ∃ c' k', (s.next (.enter c' k')).isSome ∨ (s.cpu c').holds k' ≠ 0 ∧
      (∀ k'', (s.cpu c').ticket k'' = none) ∧ s.next (.irq c') = none := by
  classical
  -- a core that spins for a lock of the highest rank
  obtain ⟨c₀, hc₀, hmax⟩ := Finset.exists_max_image
    (Finset.univ.filter fun c => ∃ k, ((s.cpu c).ticket k).isSome) (fun c => (s.cpu c).level rank)
      ⟨c, by simpa using ⟨k, hspin⟩⟩
  obtain ⟨-, k₀, hspin₀⟩ := Finset.mem_filter.mp hc₀
  obtain ⟨tr, htr⟩ := h.trace
  obtain ⟨holder, waiting, hq, -⟩ := queue_of_trace hcores htr k₀
  obtain ⟨t, ht⟩ := Option.isSome_iff_exists.mp hspin₀
  have hmem := (hq.mem c₀ t).mpr ht
  cases holder with
  | none =>
    cases waiting with
    | nil => cases hmem
    | cons x rest => exact ⟨x.1, k₀, .inl (hq.enter_isSome_iff.mpr ⟨rfl, rfl⟩)⟩
  | some c₁ =>
    have hheld : (s.cpu c₁).holds k₀ ≠ 0 := by
      rw [hq.holds c₁, if_pos rfl]
      exact one_ne_zero
    have hnest : (s.cpu c₁).nest ≠ [] := fun hnil => hheld (by rw [Cpu.holds, hnil]; rfl)
    refine ⟨c₁, k₀, .inr ⟨hheld, fun k₁ => ?_, (masked_inside h c₁ (.inl hnest)).2⟩⟩
    by_contra hne
    have hspin₁ := Option.isSome_iff_ne_none.mpr hne
    have hgoal₁ := Cpu.goal_of_ticket hspin₁
    have hlt := climbs_of_reach h c₁ k₁ k₀ hgoal₁ hheld
    have hle := hmax c₁ (by simpa using ⟨k₁, hspin₁⟩)
    rw [Cpu.level, Cpu.level, hgoal₁, Cpu.goal_of_ticket hspin₀] at hle
    exact absurd hlt (Nat.not_lt.mpr hle)

/-- Two cores and one lock that is new. -/
def newLock : State Bool Unit := ⟨fun _ => ⟨false, [], .running, false⟩, fun _ => ⟨0, 0⟩⟩

/-- The first core takes the lock, and the second spins. -/
def contend : List (Event Bool Unit) :=
  [.lock false (), .take false (), .enter false (), .lock true (), .take true (), .spin true]

/-- The second core stands behind the first. -/
theorem lock_fair_contended : ∃ (tr : List (State Bool Unit × Event Bool Unit))
    (s : State Bool Unit) (waiting : List Bool), (s.cpu false).holds () = 1 ∧ true ∈ waiting ∧
      takes () tr = enters () tr ++ waiting := by
  obtain ⟨s, htr, hp⟩ := EventSystem.Trace.exists_of_runIf (M := spinSystem Bool Unit)
    (fun _ _ => True) (b := fun _ _ => true) (fun _ _ _ => trivial) contend (s := newLock)
    (p := fun s => (s.cpu false).holds () = 1 && ((s.cpu true).ticket ()).isSome)
    ⟨fun _ => ⟨rfl, rfl, rfl⟩, fun _ => rfl⟩ (by decide)
  rw [Bool.and_eq_true, decide_eq_true_eq] at hp
  obtain ⟨holder, waiting, -, hwaiting, -, horder, -⟩ := lock_fair (by decide) htr ()
  exact ⟨_, s, waiting, hp.1, (hwaiting true).mpr hp.2, horder⟩

/-- A lock is taken by a core that holds none. -/
def takesOne (s : State Bool Unit) : Event Bool Unit → Bool
  | .lock c _ => (s.cpu c).holds () == 0
  | _ => true

theorem ranked_of_takesOne (s : State Bool Unit) (e : Event Bool Unit)
    (h : takesOne s e = true) : Ranked (fun _ => 0) s e := by
  cases e with
  | lock c k => exact fun k' hne => absurd (beq_iff_eq.mp h) hne
  | _ => trivial

/-- While the second core spins the first can go on. -/
theorem no_deadlock_contended : ∃ s : State Bool Unit, ((s.cpu true).ticket ()).isSome ∧
    ∃ c' k', (s.next (.enter c' k')).isSome ∨ (s.cpu c').holds k' ≠ 0 ∧
      (∀ k'', (s.cpu c').ticket k'' = none) ∧ s.next (.irq c') = none := by
  obtain ⟨s, hs, hp⟩ := EventSystem.Reach.exists_of_runIf (M := spinSystem Bool Unit)
    ranked_of_takesOne contend (s := newLock) (p := fun s => ((s.cpu true).ticket ()).isSome)
    ⟨fun _ => ⟨rfl, rfl, rfl⟩, fun _ => rfl⟩ (by decide)
  exact ⟨s, hp, no_deadlock (by decide) hs hp⟩

end SpinLock

end StarOS
