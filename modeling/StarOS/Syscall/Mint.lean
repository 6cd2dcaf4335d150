import StarOS.Kernel.Irq
import StarOS.Shm.TableRun
import StarOS.Syscall.Resolve
import StarOS.Wait.Notify

/-!
# Making a capability

Six calls make an object and hand the caller a capability for it: a device or an interrupt line
under a device authority, a shared or a DMA buffer of new frames, and a notification, for the
caller or for an interrupt line. Each takes from two to four tables in turn, and each table may
refuse. What a call had taken by then should be given back.

Here a call is one function of what it reads. The machine of system calls has it in steps, with
other tasks in between, and no memory.

## Main definitions

* `MintState`, `MintCall`, with `MintState.call`
* `MintState.Traceless` — nothing was left behind
* `minting` — any sequence of calls by any tasks

## Main results

* `MintState.mint_spec` — an object and its capability, or neither
* `MintState.leaves_no_trace_iff` — which calls that fail leave something behind
* `MintSystem.sound_of_reachable` — what that rests on holds in every state
-/

namespace StarOS

/-- What a call that makes a capability reads and changes. -/
structure MintState where
  /-- The caller's capability table. -/
  table : CapTable
  objects : List Obj.Slot
  notify : Notifications
  bindings : List Irq.Binding
  shm : Shm

/-- What the heap and the interrupt controller answer during a call. -/
structure MintRoom where
  /-- Room for one more notification. -/
  notify : Bool
  /-- Room for one more object. -/
  object : Bool
  /-- Room for one more capability. -/
  cap : Bool
  /-- Room for one more binding. -/
  binding : Bool
  /-- Whether the controller accepts the line. -/
  enabled : Bool
  /-- Room for the list of a shared buffer's frames. -/
  run : Bool
  /-- Room for one more shared buffer. -/
  runs : Bool

/-- A call that makes a capability, with its arguments. -/
inductive MintCall
  | notifyCreate
  | irqRegister (line : Handle)
  | createShared (pages : ℕ)
  | createDma (pages : ℕ)
  | grantDevice (authority : Handle) (phys : BitVec 64)
  | grantIrq (authority : Handle) (intid : BitVec 32)
  deriving DecidableEq, Repr

namespace MintState

/-- Make an object and install a capability for it. When the object table or the caller's table
cannot take one more, the object is revoked and `undo` gives back what it was made of. -/
def mint (s : MintState) (a : MintRoom) (object : Object) (toCap : ObjectRef → Cap)
    (undo : Shm → Shm) : Except KError Handle × MintState :=
  match Obj.create true a.object s.objects object with
  | none => (.error .outOfResources, { s with shm := undo s.shm })
  | some (obj, objects) =>
    match s.table.install a.cap (toCap obj) with
    | some (handle, table) => (.ok handle, { s with objects, table })
    | none =>
      (.error .outOfResources,
        { s with objects := (Obj.revoke objects obj).2, shm := undo s.shm })

/-- Mint an object that is made of nothing. -/
def grant (s : MintState) (a : MintRoom) (object : Object) (toCap : ObjectRef → Cap) :
    Except KError Handle × MintState :=
  s.mint a object toCap fun shm => shm

/-- Mint a shared buffer of `pages` frames. -/
def createShared (s : MintState) (a : MintRoom) (pages : ℕ) : Except KError Handle × MintState :=
  if pages = 0 ∨ maxSharedPages < pages then (.error .invalidArgument, s)
  else
    match s.shm.create pages a.run a.runs with
    | (none, shm) => (.error .outOfResources, { s with shm })
    | (some id, shm) =>
      { s with shm }.mint a (.sharedMemory id (BitVec.ofNat 32 pages)) .shared (·.free id)

/-- Mint a DMA buffer of `pages` contiguous frames. -/
def createDma (s : MintState) (a : MintRoom) (pages : ℕ) : Except KError Handle × MintState :=
  if pages = 0 ∨ maxDmaPages < pages then (.error .invalidArgument, s)
  else
    match s.shm.pool.allocPages pages with
    | (none, pool) => (.error .outOfResources, { s with shm := { s.shm with pool } })
    | (some phys, pool) =>
      { s with shm := { s.shm with pool } }.mint a
        (.dmaBuffer (BitVec.ofNat 64 phys) (BitVec.ofNat 32 pages)) .dma
        fun shm => { shm with pool := shm.pool.freePages phys }

/-- Mint a notification. -/
def notifyCreate (s : MintState) (a : MintRoom) : Except KError Handle × MintState :=
  if s.notify.canCreate a.notify then
    let (id, notify) := s.notify.create
    -- the notification table has no operation that gives a slot back
    { s with notify }.mint a (.notification id) .notification fun shm => shm
  else (.error .outOfResources, s)

/-- Mint a notification for the line `handle` names. Nothing is given back. -/
def irqRegister (s : MintState) (a : MintRoom) (line : Handle) :
    Except KError Handle × MintState :=
  match resolveInterrupt s.table s.objects line with
  | .error e => (.error e, s)
  | .ok intid =>
    if s.notify.canCreate a.notify then
      let (id, notify) := s.notify.create
      match Obj.create true a.object s.objects (.notification id) with
      | none => (.error .outOfResources, { s with notify })
      | some (obj, objects) =>
        match s.table.install a.cap (.notification obj) with
        | none => (.error .outOfResources, { s with notify, objects })
        | some (handle, table) =>
          match Irq.register s.bindings a.binding a.enabled intid id with
          | (false, bindings) =>
            (.error .invalidArgument, { s with notify, objects, table, bindings })
          | (true, bindings) => (.ok handle, { s with notify, objects, table, bindings })
    else (.error .outOfResources, s)

/-- A call, and what it answers. -/
def call (s : MintState) (a : MintRoom) : MintCall → Except KError Handle × MintState
  | .notifyCreate => s.notifyCreate a
  | .irqRegister line => s.irqRegister a line
  | .createShared pages => s.createShared a pages
  | .createDma pages => s.createDma a pages
  | .grantDevice authority phys =>
    match checkAuthority s.table s.objects authority with
    | .error e => (.error e, s)
    | .ok () => s.grant a (.device phys) .device
  | .grantIrq authority intid =>
    match checkAuthority s.table s.objects authority with
    | .error e => (.error e, s)
    | .ok () => s.grant a (.interrupt intid) .irq

/-- Nothing was left behind: the capability table, the live objects, the used notifications, the
bindings and the free frames are as they were. A slot of the object table that is empty again has
moved on a generation. -/
structure Traceless (s s' : MintState) : Prop where
  table : s'.table = s.table
  objects : ∀ r, Obj.get s'.objects r = Obj.get s.objects r
  notify : ∀ id, (s'.notify.slot id).used = (s.notify.slot id).used
  bindings : s'.bindings = s.bindings
  pool : ∀ x, s'.shm.pool.isFree x = s.shm.pool.isFree x

/-- What holds of the tables in every state: an index into them fits, no notification is used past
the end, and the frames of the buffers are handed out, as are the blocks of `live`. -/
structure Sound (live : List Block) (s : MintState) : Prop where
  objects : s.objects.length ≤ 2 ^ 32
  notify : ∀ id, s.notify.len ≤ id → (s.notify.slot id).used = false
  backed : s.shm.Backed live

variable {s s' : MintState} {a : MintRoom} {live : List Block}

theorem Traceless.refl (s : MintState) : s.Traceless s :=
  ⟨rfl, fun _ => rfl, fun _ => rfl, rfl, fun _ => rfl⟩

/-- The object table and the caller's table can both take one more. -/
def canMint (s : MintState) (a : MintRoom) : Bool :=
  Obj.canCreate s.objects a.object && s.table.canInstall a.cap

/-- **An object and its capability, or neither.** -/
theorem mint_spec (s : MintState) (a : MintRoom) (object : Object) (toCap : ObjectRef → Cap)
    (undo : Shm → Shm) (hlen : s.objects.length ≤ 2 ^ 32) :
    (s.canMint a = true ∧ ∃ handle objects table,
      s.mint a object toCap undo = (.ok handle, { s with objects, table }) ∧
      objects.length ≤ 2 ^ 32) ∨
    (s.canMint a = false ∧ ∃ objects,
      s.mint a object toCap undo =
        (.error .outOfResources, { s with objects, shm := undo s.shm }) ∧
      objects.length ≤ 2 ^ 32 ∧ ∀ r, Obj.get objects r = Obj.get s.objects r) := by
  have hobject := Obj.create_isSome s.objects a.object object
  rw [canMint, mint, ← hobject]
  cases hc : Obj.create true a.object s.objects object with
  | none => exact .inr ⟨rfl, s.objects, rfl, hlen, fun _ => rfl⟩
  | some created =>
    obtain ⟨obj, objects⟩ := created
    obtain ⟨hlen', hlen'', hget⟩ := Obj.revoke_create hlen hc
    have hcap := CapTable.install_isSome a.cap s.table (toCap obj)
    rw [← hcap]
    dsimp only
    cases s.table.install a.cap (toCap obj) with
    | none => exact .inr ⟨rfl, _, rfl, hlen'', hget⟩
    | some installed => exact .inl ⟨rfl, _, _, _, rfl, hlen'⟩

/-! ### The calls one by one -/

/-- Minting an object whose frames `undo` gives back. -/
theorem Sound.mint {shm : Shm} {live' : List Block} (h : s.Sound live) (a : MintRoom)
    (object : Object) (toCap : ObjectRef → Cap) (undo : Shm → Shm) (hshm : shm.Backed live')
    (hundo : (undo shm).Backed live)
    (hfree : ∀ x, (undo shm).pool.isFree x = s.shm.pool.isFree x) :
    (∃ handle s', ({ s with shm }.mint a object toCap undo) = (.ok handle, s') ∧
      s'.Sound live') ∨
    ∃ s', ({ s with shm }.mint a object toCap undo) = (.error .outOfResources, s') ∧
      s'.Sound live ∧ s.Traceless s' := by
  rcases mint_spec { s with shm } a object toCap undo h.objects with
    ⟨-, handle, objects, table, heq, hlen⟩ | ⟨-, objects, heq, hlen, hget⟩
  · exact .inl ⟨handle, _, heq, hlen, h.notify, hshm⟩
  · exact .inr ⟨_, heq, ⟨hlen, h.notify, hundo⟩, rfl, hget, fun _ => rfl, rfl, hfree⟩

theorem Sound.grant (h : s.Sound live) (a : MintRoom) (object : Object)
    (toCap : ObjectRef → Cap) :
    (∃ handle s', s.grant a object toCap = (.ok handle, s') ∧ s'.Sound live) ∨
    ∃ s', s.grant a object toCap = (.error .outOfResources, s') ∧ s'.Sound live ∧
      s.Traceless s' :=
  h.mint a object toCap _ h.backed h.backed fun _ => rfl

theorem Sound.createShared (h : s.Sound live) (a : MintRoom) (pages : ℕ) :
    (∃ handle s', s.createShared a pages = (.ok handle, s') ∧ s'.Sound live) ∨
    ∃ e s', s.createShared a pages = (.error e, s') ∧ s'.Sound live ∧ s.Traceless s' := by
  rw [MintState.createShared]
  split
  · exact .inr ⟨_, s, rfl, h, .refl s⟩
  · rcases Shm.create_cases h.backed pages a.run a.runs with
      ⟨id, run, shm, heq, hbacked, hcreated⟩ | ⟨shm, heq, hbacked, -, hfree⟩
    · rw [heq]
      obtain ⟨hundo, -, -, hback⟩ := Shm.free_spec hbacked id
      have hrun : (shm.withFrames id).getD [] = run := by
        rw [hcreated.withFrames, if_pos rfl]
        cases run <;> rfl
      have hsame : ∀ x, (shm.free id).pool.isFree x = s.shm.pool.isFree x := by
        intro x
        rw [Bool.eq_iff_iff, hback, hrun, hcreated.isFree]
        constructor
        · rintro (⟨hx, -⟩ | ⟨f, hf, rfl⟩)
          · exact hx
          · exact hcreated.was_free f hf
        · intro hx
          by_cases hin : ∃ frame ∈ run, frame / pageSize = x
          · exact .inr hin
          · exact .inl ⟨hx, hin⟩
      rcases h.mint a (.sharedMemory id (BitVec.ofNat 32 pages)) .shared (·.free id) hbacked hundo
        hsame with hok | ⟨s', heq', hs', htrace⟩
      · exact .inl hok
      · exact .inr ⟨_, s', heq', hs', htrace⟩
    · rw [heq]
      exact .inr ⟨_, _, rfl, ⟨h.objects, h.notify, hbacked⟩, rfl, fun _ => rfl, fun _ => rfl, rfl,
        hfree⟩

/-- The block a call takes for a DMA buffer. -/
def taken (s : MintState) (a : MintRoom) : MintCall → List Block
  | .createDma pages =>
    match (s.createDma a pages).1, (s.shm.pool.allocPages pages).1 with
    | .ok _, some phys => [⟨phys / pageSize, nextPowerOfTwo (max pages 1)⟩]
    | _, _ => []
  | _ => []

theorem Sound.createDma (h : s.Sound live) (a : MintRoom) (pages : ℕ) :
    (∃ handle s', s.createDma a pages = (.ok handle, s') ∧
      s'.Sound (s.taken a (.createDma pages) ++ live)) ∨
    ∃ e s', s.createDma a pages = (.error e, s') ∧ s'.Sound live ∧ s.Traceless s' := by
  have hok : ∀ {phys : ℕ} {pool : FramePool} {handle : Handle} {s' : MintState},
      s.shm.pool.allocPages pages = (some phys, pool) →
      s.createDma a pages = (.ok handle, s') →
      s.taken a (.createDma pages) = [⟨phys / pageSize, nextPowerOfTwo (max pages 1)⟩] := by
    intro phys pool handle s' halloc heq
    rw [taken, halloc, heq]
  by_cases hpages : pages = 0 ∨ maxDmaPages < pages
  · refine .inr ⟨.invalidArgument, s, ?_, h, .refl s⟩
    rw [MintState.createDma, if_pos hpages]
  · have hcount : pages ≤ 2 ^ 63 := by
      have hmax : maxDmaPages ≤ 2 ^ 63 := by decide
      omega
    rcases h.backed.stock.allocPages_cases hcount with halloc |
      ⟨phys, pool, halloc, hpage, hstock, hwas, hfree⟩
    · refine .inr ⟨.outOfResources, s, ?_, h, .refl s⟩
      rw [MintState.createDma, if_neg hpages, halloc]
    · have hcall : s.createDma a pages =
          { s with shm := { s.shm with pool } }.mint a
            (.dmaBuffer (BitVec.ofNat 64 phys) (BitVec.ofNat 32 pages)) .dma
            fun shm => { shm with pool := shm.pool.freePages phys } := by
        rw [MintState.createDma, if_neg hpages, halloc]
      have haddr : phys / pageSize * pageSize = phys :=
        Nat.div_mul_cancel (Nat.dvd_of_mod_eq_zero hpage)
      obtain ⟨hback, hfree'⟩ := hstock.freePages List.mem_cons_self
      dsimp only at hback hfree'
      rw [haddr] at hback hfree'
      rw [List.erase_cons_head] at hback
      have hsame : ∀ x, (pool.freePages phys).isFree x = s.shm.pool.isFree x := by
        intro x
        rw [Bool.eq_iff_iff, hfree', hfree]
        constructor
        · rintro (⟨hx, -⟩ | hx)
          · exact hx
          · exact hwas x hx
        · intro hx
          by_cases hin : x ∈ (⟨phys / pageSize, nextPowerOfTwo (max pages 1)⟩ : Block)
          · exact .inr hin
          · exact .inl ⟨hx, hin⟩
      have hbacked : ({ s.shm with pool } : Shm).Backed
          (⟨phys / pageSize, nextPowerOfTwo (max pages 1)⟩ :: live) :=
        ⟨hstock.perm List.perm_middle.symm, h.backed.aligned⟩
      rcases h.mint a (.dmaBuffer (BitVec.ofNat 64 phys) (BitVec.ofNat 32 pages)) .dma
        (fun shm => { shm with pool := shm.pool.freePages phys }) hbacked
        ⟨hback, h.backed.aligned⟩ hsame with ⟨handle, s', heq, hs'⟩ | ⟨s', heq, hs', htrace⟩
      · refine .inl ⟨handle, s', hcall.trans heq, ?_⟩
        rw [hok halloc (hcall.trans heq)]
        exact hs'
      · exact .inr ⟨_, s', hcall.trans heq, hs', htrace⟩

/-- And the line can be bound. -/
def canRegister (s : MintState) (a : MintRoom) (intid : BitVec 32) : Bool :=
  s.canMint a && Irq.canRegister s.bindings a.binding a.enabled intid

/-- The call does not fail once it has made a notification. -/
def Completes (s : MintState) (a : MintRoom) : MintCall → Prop
  | .notifyCreate => s.notify.canCreate a.notify = true → s.canMint a = true
  | .irqRegister line => ∀ intid, resolveInterrupt s.table s.objects line = .ok intid →
    s.notify.canCreate a.notify = true → s.canRegister a intid = true
  | .createShared _ | .createDma _ | .grantDevice .. | .grantIrq .. => True

/-- A notification that was made is a trace. -/
theorem Sound.not_traceless {id : ℕ} {notify : Notifications} (h : s.Sound live)
    (hcreate : s.notify.create = (id, notify)) (hs' : s'.notify = notify) : ¬ s.Traceless s' := by
  obtain ⟨hunused, hslot, -⟩ := Notifications.create_eq h.notify hcreate
  intro htrace
  have hid := htrace.notify id
  rw [hs', hslot, Function.update_self, hunused] at hid
  cases hid

theorem Sound.notifyCreate (h : s.Sound live) (a : MintRoom) :
    (∃ handle s', s.notifyCreate a = (.ok handle, s') ∧ s'.Sound live ∧
      s.Completes a .notifyCreate) ∨
    ∃ e s', s.notifyCreate a = (.error e, s') ∧ s'.Sound live ∧
      (s.Traceless s' ↔ s.Completes a .notifyCreate) := by
  rw [MintState.notifyCreate]
  split
  · next hcan =>
    rcases hcreate : s.notify.create with ⟨id, notify⟩
    obtain ⟨-, -, hlen⟩ := Notifications.create_eq h.notify hcreate
    dsimp only
    rcases mint_spec { s with notify } a (.notification id) .notification (fun shm => shm)
      h.objects with ⟨hmint, handle, objects, table, heq, hobjects⟩ |
        ⟨hcannot, objects, heq, hobjects, -⟩
    · exact .inl ⟨handle, _, heq, ⟨hobjects, hlen, h.backed⟩, fun _ => hmint⟩
    · refine .inr ⟨_, _, heq, ⟨hobjects, hlen, h.backed⟩, fun htrace => ?_, fun hcan' => ?_⟩
      · exact absurd htrace (h.not_traceless hcreate rfl)
      · exact absurd (hcan' hcan) (by rw [show s.canMint a = false from hcannot]; decide)
  · next hcan =>
    exact .inr ⟨_, s, rfl, h, fun _ hcan' => absurd hcan' hcan, fun _ => .refl s⟩

theorem Sound.irqRegister (h : s.Sound live) (a : MintRoom) (line : Handle) :
    (∃ handle s', s.irqRegister a line = (.ok handle, s') ∧ s'.Sound live ∧
      s.Completes a (.irqRegister line)) ∨
    ∃ e s', s.irqRegister a line = (.error e, s') ∧ s'.Sound live ∧
      (s.Traceless s' ↔ s.Completes a (.irqRegister line)) := by
  rw [MintState.irqRegister, Completes]
  cases hline : resolveInterrupt s.table s.objects line with
  | error e =>
    refine .inr ⟨e, s, rfl, h, fun _ intid hok => ?_, fun _ => .refl s⟩
    cases hok
  | ok intid =>
    dsimp only
    split
    · next hcan =>
      rcases hcreate : s.notify.create with ⟨id, notify⟩
      obtain ⟨-, -, hlen⟩ := Notifications.create_eq h.notify hcreate
      -- whatever fails from here on, the notification stays
      have hleaves : ∀ {s' : MintState}, s'.notify = notify → s.canRegister a intid = false →
          (s.Traceless s' ↔ ∀ intid', Except.ok (ε := KError) intid = .ok intid' →
            s.notify.canCreate a.notify = true → s.canRegister a intid' = true) := by
        intro s' hs' hcannot
        refine ⟨fun htrace => absurd htrace (h.not_traceless hcreate hs'), fun hall => ?_⟩
        rw [hall intid rfl hcan] at hcannot
        cases hcannot
      have hobject := Obj.create_isSome s.objects a.object (.notification id)
      dsimp only
      cases hc : Obj.create true a.object s.objects (.notification id) with
      | none =>
        refine .inr ⟨_, _, rfl, ⟨h.objects, hlen, h.backed⟩, hleaves rfl ?_⟩
        rw [canRegister, canMint, ← hobject, hc]
        rfl
      | some created =>
        obtain ⟨obj, objects⟩ := created
        obtain ⟨hobjects, -, -⟩ := Obj.revoke_create h.objects hc
        have hcap := CapTable.install_isSome a.cap s.table (.notification obj)
        dsimp only
        cases hi : s.table.install a.cap (.notification obj) with
        | none =>
          refine .inr ⟨_, _, rfl, ⟨hobjects, hlen, h.backed⟩, hleaves rfl ?_⟩
          rw [canRegister, canMint, ← hcap, hi, Option.isSome_none, Bool.and_false,
            Bool.false_and]
        | some installed =>
          obtain ⟨handle, table⟩ := installed
          have hbound := Irq.register_fst s.bindings a.binding a.enabled intid id
          dsimp only
          rcases hr : Irq.register s.bindings a.binding a.enabled intid id with ⟨bound, bindings⟩
          rw [hr] at hbound
          cases bound with
          | true =>
            refine .inl ⟨handle, _, rfl, ⟨hobjects, hlen, h.backed⟩, fun intid' hline' _ => ?_⟩
            obtain rfl := Except.ok.inj hline'
            rw [canRegister, canMint, ← hobject, ← hcap, hc, hi, ← hbound]
            rfl
          | false =>
            refine .inr ⟨_, _, rfl, ⟨hobjects, hlen, h.backed⟩, hleaves rfl ?_⟩
            rw [canRegister, ← hbound, Bool.and_false]
    · next hcan => exact .inr ⟨_, s, rfl, h, fun _ _ _ hcan' => absurd hcan' hcan, fun _ => .refl s⟩

/-- **One call**: it answers a handle, or an error, and what it leaves behind is a notification. -/
theorem Sound.call (h : s.Sound live) (a : MintRoom) (c : MintCall) :
    (∃ handle s', s.call a c = (.ok handle, s') ∧ s'.Sound (s.taken a c ++ live) ∧
      s.Completes a c) ∨
    ∃ e s', s.call a c = (.error e, s') ∧ s'.Sound live ∧ (s.Traceless s' ↔ s.Completes a c) := by
  have hgrant : ∀ {object : Object} {toCap : ObjectRef → Cap} {authority : Handle},
      (∃ handle s', (match checkAuthority s.table s.objects authority with
        | .error e => (.error e, s)
        | .ok () => s.grant a object toCap) = (Except.ok handle, s') ∧ s'.Sound live ∧ True) ∨
      ∃ e s', (match checkAuthority s.table s.objects authority with
        | .error e => (.error e, s)
        | .ok () => s.grant a object toCap) = (Except.error e, s') ∧ s'.Sound live ∧
          (s.Traceless s' ↔ True) := by
    intro object toCap authority
    cases checkAuthority s.table s.objects authority with
    | error e => exact .inr ⟨e, s, rfl, h, iff_true_intro (.refl s)⟩
    | ok =>
      rcases h.grant a object toCap with ⟨handle, s', heq, hs'⟩ | ⟨s', heq, hs', htrace⟩
      · exact .inl ⟨handle, s', heq, hs', trivial⟩
      · exact .inr ⟨_, s', heq, hs', iff_true_intro htrace⟩
  cases c with
  | notifyCreate => exact h.notifyCreate a
  | irqRegister line => exact h.irqRegister a line
  | createShared pages =>
    rcases h.createShared a pages with ⟨handle, s', heq, hs'⟩ | ⟨e, s', heq, hs', htrace⟩
    · exact .inl ⟨handle, s', heq, hs', trivial⟩
    · exact .inr ⟨e, s', heq, hs', iff_true_intro htrace⟩
  | createDma pages =>
    rcases h.createDma a pages with ⟨handle, s', heq, hs'⟩ | ⟨e, s', heq, hs', htrace⟩
    · exact .inl ⟨handle, s', heq, hs', trivial⟩
    · exact .inr ⟨e, s', heq, hs', iff_true_intro htrace⟩
  | grantDevice authority phys => exact hgrant
  | grantIrq authority intid => exact hgrant

/-- What a call that answers an error leaves. -/
theorem call_eq_error {c : MintCall} {e : KError} (h : (s.call a c).1 = .error e) :
    s.call a c = (.error e, (s.call a c).2) :=
  Prod.ext h rfl

/-- **Which calls that fail leave something behind**: those that had made a notification. -/
theorem leaves_no_trace_iff (h : s.Sound live) (a : MintRoom) (c : MintCall) :
    (∀ e s', s.call a c = (.error e, s') → s.Traceless s') ↔ s.Completes a c := by
  rcases h.call a c with ⟨handle, s', heq, -, hcompletes⟩ | ⟨e, s', heq, -, htrace⟩
  · refine ⟨fun _ => hcompletes, fun _ e' s'' heq' => ?_⟩
    cases heq.symm.trans heq'
  · rw [← htrace]
    refine ⟨fun hall => hall e s' heq, fun htrace e' s'' heq' => ?_⟩
    obtain ⟨-, rfl⟩ := Prod.mk.inj (heq.symm.trans heq')
    exact htrace

end MintState

/-! ### Any sequence of calls -/

/-- The tables, and the blocks of the pool that are no shared buffer's: those of DMA buffers, and
those the rest of the kernel holds. -/
structure MintSystem where
  state : MintState
  live : List Block

inductive MintEvent
  | call (a : MintRoom) (c : MintCall)
  /-- The next call is by a task with this table. -/
  | switch (table : CapTable)
  /-- The boot path creates an object. -/
  | object (object : Object) (live room : Bool)
  | revoke (r : ObjectRef)
  /-- The sweep frees a shared buffer. -/
  | free (id : ℕ)
  /-- The rest of the kernel takes a block. -/
  | take (count : ℕ)
  /-- A block is given back: by the rest of the kernel, or by the sweep. -/
  | give (c : Block)

namespace MintSystem

/-- The effect of an event. -/
def next (s : MintSystem) : MintEvent → Option MintSystem
  | .call a c => some ⟨(s.state.call a c).2, s.state.taken a c ++ s.live⟩
  | .switch table => some { s with state := { s.state with table } }
  | .object object live room =>
    some <| match Obj.create live room s.state.objects object with
      | some (_, objects) => { s with state := { s.state with objects } }
      | none => s
  | .revoke r =>
    some { s with state := { s.state with objects := (Obj.revoke s.state.objects r).2 } }
  | .free id => some { s with state := { s.state with shm := s.state.shm.free id } }
  | .take count =>
    if count ≤ 2 ^ 63 then
      some <| match s.state.shm.pool.allocPages count with
        | (some frame, pool) =>
          ⟨{ s.state with shm := { s.state.shm with pool } },
            ⟨frame / pageSize, nextPowerOfTwo (max count 1)⟩ :: s.live⟩
        | (none, _) => s
    else none
  | .give c =>
    if c ∈ s.live then
      some ⟨{ s.state with
        shm := { s.state.shm with pool := s.state.shm.pool.freePages (c.addr * pageSize) } },
        s.live.erase c⟩
    else none

/-- Nothing has happened. -/
def boot (pool : FramePool) : MintSystem := ⟨⟨emptyCaps, [], .empty, [], ⟨[], pool⟩⟩, []⟩

end MintSystem

/-- The calls that make a capability, over a pool. Signals and waits change neither the length of
the notification table nor which of its slots are used, and are not here. -/
def minting (pool : FramePool) : EventSystem MintSystem MintEvent where
  init s := s = .boot pool
  next := MintSystem.next

namespace MintSystem

variable {s s' : MintSystem} {pool : FramePool} {runs : List Added}

open MintState

/-- The block of a call that fails is given back. -/
theorem taken_of_error {s : MintState} {a : MintRoom} {c : MintCall} {e : KError}
    (h : (s.call a c).1 = .error e) : s.taken a c = [] := by
  cases c with
  | createDma pages =>
    rw [taken, show (s.createDma a pages).1 = .error e from h]
  | notifyCreate | irqRegister | createShared | grantDevice | grantIrq => rfl

theorem sound_next {e : MintEvent} (h : s.state.Sound s.live) (hn : s.next e = some s') :
    s'.state.Sound s'.live := by
  cases e with
  | call a c =>
    obtain rfl := Option.some.inj hn
    rcases h.call a c with ⟨handle, s', heq, hs', -⟩ | ⟨e, s', heq, hs', -⟩
    · rw [heq]
      exact hs'
    · rw [taken_of_error (congrArg Prod.fst heq), heq]
      exact hs'
  | switch table =>
    obtain rfl := Option.some.inj hn
    exact ⟨h.objects, h.notify, h.backed⟩
  | object object live room =>
    obtain rfl := Option.some.inj hn
    split
    · next hc => exact ⟨(Obj.revoke_create h.objects hc).1, h.notify, h.backed⟩
    · exact h
  | revoke r =>
    obtain rfl := Option.some.inj hn
    refine ⟨?_, h.notify, h.backed⟩
    rcases Obj.revoke_cases s.state.objects r with ⟨o, -, heq⟩ | ⟨-, heq⟩
    · rw [heq]
      exact (List.length_set ..).le.trans h.objects
    · rw [heq]
      exact h.objects
  | free id =>
    obtain rfl := Option.some.inj hn
    exact ⟨h.objects, h.notify, (Shm.free_spec h.backed id).1⟩
  | take count =>
    obtain ⟨hcount, hn⟩ := Option.ite_none_right_eq_some.mp hn
    obtain rfl := Option.some.inj hn
    rcases h.backed.stock.allocPages_cases hcount with heq | ⟨frame, pool, heq, -, hstock, -⟩
    · rw [heq]
      exact h
    · rw [heq]
      exact ⟨h.objects, h.notify, hstock.perm List.perm_middle.symm, h.backed.aligned⟩
  | give c =>
    obtain ⟨hc, hn⟩ := Option.ite_none_right_eq_some.mp hn
    obtain rfl := Option.some.inj hn
    have hperm := (List.perm_cons_erase hc).append_left (Shm.units s.state.shm.runs.flatten)
    have hstock := (h.backed.stock.perm (hperm.trans List.perm_middle)).freePages
      List.mem_cons_self
    rw [List.erase_cons_head] at hstock
    exact ⟨h.objects, h.notify, hstock.1, h.backed.aligned⟩

/-- **What `leaves_no_trace_iff` rests on** holds in every state that any calls lead to. -/
theorem sound_of_reachable (hbuilt : Built runs pool) (hapart : runs.Pairwise Added.Apart)
    (hs : (minting pool).Reachable s) : s.state.Sound s.live := by
  refine EventSystem.Reach.invariant (I := fun s => s.state.Sound s.live) (fun s hs => ?_)
    (fun s e s' hi _ hn => sound_next hi hn) hs
  obtain rfl := hs
  exact ⟨Nat.zero_le _, fun _ _ => rfl, Stock.init hbuilt hapart,
    fun f hf => absurd hf List.not_mem_nil⟩

/-- Room for everything, and a controller that accepts every line. -/
def allRoom : MintRoom := ⟨true, true, true, true, true, true, true⟩

/-- A request for more frames than there are takes four of them, and gives them back. -/
theorem leaves_no_trace_iff_shared : ∃ s, (minting fourFrames).Reachable s ∧
    ∃ s', s.state.call allRoom (.createShared 8) = (.error .outOfResources, s') ∧
      s.state.Traceless s' := by
  obtain ⟨r, -, -, hbuilt⟩ := built_fourFrames
  have hrun : ∃ s, (minting fourFrames).Reachable s ∧
      decide ((s.state.call allRoom (.createShared 8)).1 = .error .outOfResources) = true :=
    EventSystem.Reachable.exists_of_run [] rfl (by decide +kernel)
  obtain ⟨s, hs, htest⟩ := hrun
  have hsound := sound_of_reachable hbuilt (List.pairwise_singleton _ _) hs
  have hfail := call_eq_error (of_decide_eq_true htest)
  have hclean := (leaves_no_trace_iff hsound allRoom (.createShared 8)).mpr trivial
  exact ⟨s, hs, _, hfail, hclean _ _ hfail⟩

/-- The second of two registrations of one line fails, and leaves a notification. -/
theorem leaves_trace : ∃ s, (minting fourFrames).Reachable s ∧
    ∃ s', s.state.call allRoom (.irqRegister 1) = (.error .invalidArgument, s') ∧
      ¬ s.state.Traceless s' := by
  have hrun : ∃ s, (minting fourFrames).Reachable s ∧
      decide ((s.state.call allRoom (.irqRegister 1)).1 = .error .invalidArgument ∧
        ((s.state.call allRoom (.irqRegister 1)).2.notify.slot 1).used ≠
          (s.state.notify.slot 1).used) = true :=
    EventSystem.Reachable.exists_of_run
      [.object (.interrupt 33) true true, .switch [none, some (.irq ⟨0, 0⟩)],
        .call allRoom (.irqRegister 1)] rfl (by decide +kernel)
  obtain ⟨s, hs, htest⟩ := hrun
  obtain ⟨hfail, hused⟩ := of_decide_eq_true htest
  exact ⟨s, hs, _, call_eq_error hfail, fun htrace => hused (htrace.notify 1)⟩

end MintSystem

end StarOS
