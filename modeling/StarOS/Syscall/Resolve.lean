import StarOS.Kernel.Cap

/-!
# From handles to objects

Every system call on a handle begins alike: the handle is looked up in the caller's table, the
capability found has to be of the right kind and carry the right, and the object it refers to has
to be live. The calls differ in the kind they ask for and in what they want to know of the object.

A table's slot is never emptied, so the capability a call has read is still the caller's when its
object is looked up, and the two lookups are one step here.

## Main definitions

* `resolve` — the common part
* `checkAuthority`, `resolveInterrupt`, `resolveNotification`, `resolveSendableEndpoint`,
  `resolveReceivableEndpoint` — the checks

## Main results

* `resolve_eq_ok` — what a call that gets past its check has established
-/

namespace StarOS

variable {α : Type*}

/-- Resolve a handle to what `live` wants to know of its object, provided that `kind` accepts the
capability. -/
def resolve (kind : Cap → Option ObjectRef) (live : Object → Option α) (table : CapTable)
    (slots : List Obj.Slot) (handle : Handle) : Except KError α :=
  match table.resolveCap handle with
  | some cap =>
    match kind cap with
    | some obj =>
      match (Obj.get slots obj).bind live with
      | some a => .ok a
      | none => .error .badHandle
    | none => .error .permissionDenied
  | none => .error .badHandle

/-- A live device authority. -/
def checkAuthority : CapTable → List Obj.Slot → Handle → Except KError Unit :=
  resolve
    (fun
      | .deviceAuthority obj => some obj
      | _ => none)
    fun
      | .deviceAuthority => some ()
      | _ => none

/-- The interrupt line a capability names. -/
def resolveInterrupt : CapTable → List Obj.Slot → Handle → Except KError (BitVec 32) :=
  resolve
    (fun
      | .irq obj => some obj
      | _ => none)
    fun
      | .interrupt intid => some intid
      | _ => none

/-- The notification a capability names. -/
def resolveNotification : CapTable → List Obj.Slot → Handle → Except KError ℕ :=
  resolve
    (fun
      | .notification obj => some obj
      | _ => none)
    fun
      | .notification id => some id
      | _ => none

/-- The endpoint a capability with receive rights names. -/
def resolveReceivableEndpoint : CapTable → List Obj.Slot → Handle → Except KError ℕ :=
  resolve
    (fun
      | .endpoint obj _ true => some obj
      | _ => none)
    fun
      | .endpoint id => some id
      | _ => none

/-- The endpoint a capability with send rights names. -/
def resolveSendableEndpoint : CapTable → List Obj.Slot → Handle → Except KError ℕ :=
  resolve
    (fun
      | .endpoint obj true _ => some obj
      | _ => none)
    fun
      | .endpoint id => some id
      | _ => none

/-- A call that gets past its check holds a capability the check accepts, to a live object. -/
theorem resolve_eq_ok {kind : Cap → Option ObjectRef} {live : Object → Option α}
    {table : CapTable} {slots : List Obj.Slot} {handle : Handle} {a : α}
    (h : resolve kind live table slots handle = .ok a) :
    ∃ cap obj object, table.resolveCap handle = some cap ∧ kind cap = some obj ∧
      Obj.get slots obj = some object ∧ live object = some a := by
  unfold resolve at h
  split at h
  · next cap hcap =>
    split at h
    · next obj hobj =>
      split at h
      · next b hb =>
        obtain ⟨object, hget, hlive⟩ := Option.bind_eq_some_iff.mp hb
        obtain rfl := Except.ok.inj h
        exact ⟨cap, obj, object, hcap, hobj, hget, hlive⟩
      · cases h
    · cases h
  · cases h

/-- Whoever passes `check_authority` holds a capability to a live device authority. -/
theorem checkAuthority_eq_ok {table : CapTable} {slots : List Obj.Slot} {handle : Handle}
    (h : checkAuthority table slots handle = .ok ()) :
    ∃ obj, table.resolveCap handle = some (.deviceAuthority obj) ∧
      Obj.get slots obj = some .deviceAuthority := by
  obtain ⟨cap, obj, object, hcap, hkind, hget, hlive⟩ := resolve_eq_ok h
  cases cap with
  | deviceAuthority obj' =>
    obtain rfl := Option.some.inj hkind
    cases object with
    | deviceAuthority => exact ⟨obj', hcap, hget⟩
    | _ => cases hlive
  | _ => cases hkind

end StarOS
