import StarOS.Libc.FdThreads

/-!
# What becomes of what is installed

A step of a thread changes the table in one way at most: it fills an entry, frees one, lets go of
what it has freed, or moves a cursor. As long as each write of an entry finds there what its
operation saw, an installation goes from its entry to the hands of the thread that frees it and from
there to those that were released, and takes each of these steps once.

## Main results

* `FdThreads.changes_of_act` — what a step does to the table
* `FdThreads.Changes.exact` — no step loses or doubles an installation
* `FdThreads.table_sound`, `FdThreads.table_not_sound`
-/

namespace StarOS

namespace FdThreads

open Fd (Fds Kind Slot index number maxFds)

/-! ### What one step does -/

/-- An entry is free just if there is no installation in it, and the installations are old. -/
structure Shared.Good (s : Shared) : Prop where
  free_iff : ∀ i, s.ids i = none ↔ s.fds.kinds i = .free
  below : ∀ i n, s.ids i = some n → n < s.installed

/-- What is kept for after a release. -/
def Then.Fits : Then → Prop
  | .replace _ kind => kind ≠ .free
  | _ => True

/-- What a thread knows where it is. -/
def Pc.Fits (s : Shared) : Pc → Prop
  | .free fd seen _ k => (∃ i n, fd = number i ∧ seen = some n) ∧ k.Fits
  | .drop seen _ k => (∃ n, seen = some n) ∧ k.Fits
  | .get _ k => k.Fits
  | .set _ kind => kind ≠ .free
  | .installCopy _ kind => kind ≠ .free
  | .reading _ seen _ _ _ => ∃ n, seen = some n ∧ n < s.installed
  | .setOffset _ seen _ => ∃ n, seen = some n ∧ n < s.installed
  | .writeOffset fd seen kind => ∃ i n, fd = number i ∧ seen = some n ∧ n < s.installed ∧
      kind ≠ .free ∧ (s.ids i = some n → object kind = object (s.fds.kinds i))
  | _ => True

/-- **What a step does to the table.** -/
inductive Changes (s : Shared) (p : Pc) (s' : Shared) (q : Pc) : Prop
  | same : s'.fds.kinds = s.fds.kinds → s'.ids = s.ids → s'.installed = s.installed →
      s'.released = s.released → p.hand = none → q.hand = none → Changes s p s' q
  | entered (i : Fin maxFds) (kind : Kind) : s.ids i = none → kind ≠ .free →
      s'.fds.kinds = Function.update s.fds.kinds i kind →
      s'.ids = Function.update s.ids i (some s.installed) → s'.installed = s.installed + 1 →
      s'.released = s.released → p.hand = none → q.hand = none → Changes s p s' q
  | freed (i : Fin maxFds) (n : ℕ) : s.ids i = some n →
      s'.fds.kinds = Function.update s.fds.kinds i .free →
      s'.ids = Function.update s.ids i none → s'.installed = s.installed →
      s'.released = s.released → p.hand = none → q.hand = some n → Changes s p s' q
  | letGo (n : ℕ) : s'.fds.kinds = s.fds.kinds → s'.ids = s.ids → s'.installed = s.installed →
      s'.released = n :: s.released → p.hand = some n → q.hand = none → Changes s p s' q
  | wrote (i : Fin maxFds) (kind : Kind) : s.ids i ≠ none → kind ≠ .free →
      object kind = object (s.fds.kinds i) → p.expects = some (number i, s.ids i) →
      s'.fds.kinds = Function.update s.fds.kinds i kind → s'.ids = s.ids →
      s'.installed = s.installed → s'.released = s.released → p.hand = none → q.hand = none →
      Changes s p s' q

variable {s s' : Shared} {p q : Pc} {kind : Kind} {fd : ℤ} {i : Fin maxFds} {n : ℕ}

theorem Shared.idAt_number (s : Shared) (i : Fin maxFds) : s.idAt (number i) = s.ids i := by
  rw [idAt, Fd.index_number]
  rfl

/-- What a thread sees when it looks at a descriptor. -/
theorem Shared.Good.seen (hg : s.Good) (hget : s.fds.get fd = some kind) :
    ∃ i n, fd = number i ∧ s.fds.kinds i = kind ∧ kind ≠ .free ∧ s.idAt fd = some n ∧
      s.ids i = some n ∧ n < s.installed := by
  obtain ⟨i, rfl, hk, hne⟩ := Fds.get_eq_some.mp hget
  cases hid : s.ids i with
  | none => exact absurd (hk ▸ (hg.free_iff i).mp hid) hne
  | some n => exact ⟨i, n, rfl, hk, hne, by rw [s.idAt_number, hid], hid, hg.below i n hid⟩

theorem Shared.install_cases (kind : Kind) (s : Shared) : s.install kind = (-1, s) ∨
    ∃ i, s.fds.kinds i = .free ∧ s.install kind = (number i, { s with
      fds := s.fds.installed i kind
      ids := Function.update s.ids i (some s.installed)
      installed := s.installed + 1 }) := by
  rw [install]
  obtain ⟨hfull, -⟩ | ⟨i, hfree, hinst⟩ := Fd.install_cases kind s.fds
  · rw [hfull]
    exact .inl rfl
  · rw [hinst]
    refine .inr ⟨i, hfree, ?_⟩
    simp only [enter, Fd.index_number]

/-- Installing, wherever the thread goes on. -/
theorem Shared.Good.install (hg : s.Good) (hkind : kind ≠ .free) (hp : p.hand = none)
    (hq : q.hand = none) : Changes s p (s.install kind).2 q := by
  obtain hfull | ⟨i, hfree, hinst⟩ := s.install_cases kind
  · rw [hfull]
    exact .same rfl rfl rfl rfl hp hq
  · rw [hinst]
    exact .entered i kind ((hg.free_iff i).mpr hfree) hkind rfl rfl rfl rfl hp hq

theorem Then.Fits.next {k : Then} (hk : k.Fits) (handle : Option (BitVec 64)) :
    (k.next handle).Fits s ∧ (k.next handle).hand = none := by
  cases k with
  | close => cases handle <;> exact ⟨trivial, rfl⟩
  | replace new kind => exact ⟨hk, rfl⟩
  | failRead writeEnd slot =>
    rw [Then.next]
    split
    · exact ⟨trivial, rfl⟩
    · exact ⟨trivial, rfl⟩
  | failWrite slot => exact ⟨trivial, rfl⟩

/-- The table stays as it is. -/
theorem changes_stay {x : Shared × Pc} (h : some (s', q) = some x)
    (hsame : s'.fds.kinds = s.fds.kinds ∧ s'.ids = s.ids ∧ s'.installed = s.installed ∧
      s'.released = s.released) (hp : p.hand = none) (hq : q.hand = none) (hfits : q.Fits s') :
    Changes s p x.1 x.2 ∧ x.2.Fits x.1 := by
  obtain rfl := Option.some.inj h
  exact ⟨.same hsame.1 hsame.2.1 hsame.2.2.1 hsame.2.2.2 hp hq, hfits⟩

theorem changes_quiet {x : Shared × Pc} (h : some (s, q) = some x) (hp : p.hand = none)
    (hq : q.hand = none) (hfits : q.Fits s) : Changes s p x.1 x.2 ∧ x.2.Fits x.1 :=
  changes_stay h ⟨rfl, rfl, rfl, rfl⟩ hp hq hfits

/-- Waiting for the lock of the file layer. -/
theorem changes_lock {x : Shared × Pc}
    (h : (if s.locked then none else some ({ s with locked := true }, q)) = some x)
    (hp : p.hand = none) (hq : q.hand = none) (hfits : ∀ s', q.Fits s') :
    Changes s p x.1 x.2 ∧ x.2.Fits x.1 := by
  split at h
  · cases h
  · exact changes_stay h ⟨rfl, rfl, rfl, rfl⟩ hp hq (hfits _)

theorem changes_install {x : Shared × Pc} {k : Kind} (hg : s.Good) (hkind : k ≠ .free)
    (h : some ((s.install k).2, q) = some x) (hp : p.hand = none) (hq : q.hand = none)
    (hfits : ∀ s', q.Fits s') : Changes s p x.1 x.2 ∧ x.2.Fits x.1 := by
  obtain rfl := Option.some.inj h
  exact ⟨hg.install hkind hp hq, hfits _⟩

/-- A slot of the pool is taken. -/
theorem changes_take {x : Shared × Pc} {f : Slot → Pc} (hp : p.hand = none)
    (hf : ∀ slot, (f slot).hand = none ∧ ∀ s', (f slot).Fits s')
    (h : (match Fd.takeWaitable s.fds with
      | (some slot, fds) => some ({ s with fds }, f slot)
      | (none, _) => some (s, .out)) = some x) : Changes s p x.1 x.2 ∧ x.2.Fits x.1 := by
  obtain hnone | ⟨w, -, hsome⟩ := Fd.takeWaitable_cases s.fds
  · rw [hnone] at h
    exact changes_quiet h hp rfl trivial
  · rw [hsome] at h
    exact changes_stay h ⟨rfl, rfl, rfl, rfl⟩ hp (hf w).1 ((hf w).2 _)

/-- **What a step does**: one change of the table at most, and the thread knows what it needs. -/
theorem changes_of_act {x : Shared × Pc} {a : Act} (hg : s.Good) (hp : p.Fits s) (hm : p.Meets s)
    (h : act s p a = some x) : Changes s p x.1 x.2 ∧ x.2.Fits x.1 := by
  cases p with
  | out =>
    cases a
    all_goals first | exact changes_quiet h rfl rfl trivial | cases h
  | lockOpen =>
    cases a with
    | go => exact changes_lock h rfl rfl fun _ => trivial
    | _ => cases h
  | lockRead fd n =>
    cases a with
    | go => exact changes_lock h rfl rfl fun _ => trivial
    | _ => cases h
  | lockSeek fd offset whence =>
    cases a with
    | go => exact changes_lock h rfl rfl fun _ => trivial
    | _ => cases h
  | lockTell handle =>
    cases a with
    | go => exact changes_lock h rfl rfl fun _ => trivial
    | _ => cases h
  | askOpen =>
    cases a with
    | answer words =>
      cases words with
      | none => exact changes_quiet h rfl rfl trivial
      | some words => exact changes_quiet h rfl rfl trivial
    | _ => cases h
  | installFile handle size =>
    cases a with
    | go =>
      refine changes_install hg (k := .file handle size 0) (fun h => by cases h) h rfl ?_ fun s' => ?_
      · split <;> rfl
      · split <;> trivial
    | _ => cases h
  | tell handle =>
    cases a with
    | answer words => exact changes_quiet h rfl rfl trivial
    | _ => cases h
  | unlock =>
    cases a with
    | go => exact changes_stay h ⟨rfl, rfl, rfl, rfl⟩ rfl rfl trivial
    | _ => cases h
  | readGet fd n =>
    cases a with
    | go =>
      rw [act] at h
      split at h
      · next handle size offset hget =>
        obtain ⟨i, m, rfl, -, -, hid, -, hlt⟩ := hg.seen hget
        exact changes_quiet h rfl rfl ⟨m, hid, hlt⟩
      · exact changes_quiet h rfl rfl trivial
    | _ => cases h
  | reading fd seen handle offset n =>
    cases n with
    | zero =>
      cases a with
      | go => exact changes_quiet h rfl rfl hp
      | _ => cases h
    | succ n =>
      cases a with
      | answer words =>
        cases words with
        | none => exact changes_quiet h rfl rfl hp
        | some words =>
          rw [act] at h
          split at h
          · exact changes_quiet h rfl rfl hp
          · exact changes_quiet h rfl rfl hp
      | _ => cases h
  | seekGet fd offset whence =>
    cases a with
    | go =>
      rw [act] at h
      split at h
      · next handle size current hget =>
        obtain ⟨i, m, rfl, -, -, hid, -, hlt⟩ := hg.seen hget
        split at h
        · exact changes_quiet h rfl rfl ⟨m, hid, hlt⟩
        · exact changes_quiet h rfl rfl trivial
      · exact changes_quiet h rfl rfl trivial
    | _ => cases h
  | setOffset fd seen offset =>
    cases a with
    | go =>
      rw [act] at h
      split at h
      · next handle size current hget =>
        obtain ⟨i, m, rfl, hk, -⟩ := hg.seen hget
        obtain ⟨n, rfl, hlt⟩ := hp
        exact changes_quiet h rfl rfl ⟨i, n, rfl, rfl, hlt, (fun h => by cases h), fun _ => by rw [hk]; rfl⟩
      · exact changes_quiet h rfl rfl trivial
    | _ => cases h
  | writeOffset fd seen kind =>
    cases a with
    | go =>
      obtain ⟨i, n, rfl, rfl, hlt, hne, hobj⟩ := hp
      have hid : s.ids i = some n := by
        rw [← s.idAt_number]
        exact hm _ rfl
      obtain rfl := Option.some.inj h
      refine ⟨.wrote i kind (by rw [hid]; intro h; cases h) hne (hobj hid)
        (by rw [hid]; rfl) ?_ rfl rfl rfl rfl
        rfl, trivial⟩
      show (Fd.set (number i) kind s.fds).2.kinds = _
      rw [Fd.set_number]
      rfl
    | _ => cases h
  | takeEvent initial flags =>
    cases a with
    | go =>
      exact changes_take (f := (.storeCount · initial flags)) rfl (fun _ => ⟨rfl, fun _ => trivial⟩)
        h
    | _ => cases h
  | storeCount slot initial flags =>
    cases a with
    | go => exact changes_stay h ⟨rfl, rfl, rfl, rfl⟩ rfl rfl trivial
    | _ => cases h
  | installEvent slot flags =>
    cases a with
    | go =>
      refine changes_install hg (k := .event slot _) (fun h => by cases h) h rfl ?_ fun s' => ?_
      · split <;> rfl
      · split <;> trivial
    | _ => cases h
  | giveBack slot =>
    cases a with
    | go => exact changes_stay h ⟨rfl, rfl, rfl, rfl⟩ rfl rfl trivial
    | _ => cases h
  | takePipe flags =>
    cases a with
    | go =>
      exact changes_take (f := (.storeEnds · flags)) rfl (fun _ => ⟨rfl, fun _ => trivial⟩) h
    | _ => cases h
  | storeEnds slot flags =>
    cases a with
    | go => exact changes_stay h ⟨rfl, rfl, rfl, rfl⟩ rfl rfl trivial
    | _ => cases h
  | installRead slot flags =>
    cases a with
    | go => exact changes_install hg (k := .pipe slot false) (fun h => by cases h) h rfl rfl fun _ => trivial
    | _ => cases h
  | installWrite slot readEnd flags =>
    cases a with
    | go =>
      rw [act] at h
      dsimp only at h
      split at h
      · have hk : (Then.failRead (s.install (.pipe slot true)).1 slot).Fits := trivial
        have hnext := fun s => hk.next (s := s) none
        refine changes_install hg (k := .pipe slot true) (fun h => by cases h) h rfl ?_ fun s' => ?_
        · split
          · rfl
          · exact (hnext s).2
        · split
          · trivial
          · exact (hnext s').1
      · exact changes_install hg (k := .pipe slot true) (fun h => by cases h) h rfl rfl fun _ => trivial
    | _ => cases h
  | flags fds =>
    cases a with
    | go =>
      cases fds with
      | nil => exact changes_quiet h rfl rfl trivial
      | cons fd fds =>
        exact changes_stay h ⟨(Fd.setNonblock_kinds fd true s.fds).1, rfl, rfl, rfl⟩ rfl rfl trivial
    | _ => cases fds <;> cases h
  | get fd k =>
    cases a with
    | go =>
      rw [act] at h
      split at h
      · next kind hget =>
        obtain ⟨i, m, rfl, -, -, hid, -, hlt⟩ := hg.seen hget
        exact changes_quiet h rfl rfl ⟨⟨i, m, rfl, hid⟩, hp⟩
      · obtain ⟨hfits, hhand⟩ := Then.Fits.next (s := s) hp none
        exact changes_quiet h rfl hhand hfits
    | _ => cases h
  | free fd seen kind k =>
    cases a with
    | go =>
      obtain ⟨⟨i, n, rfl, rfl⟩, hk⟩ := hp
      have hid : s.ids i = some n := by
        rw [← s.idAt_number]
        exact hm _ rfl
      obtain rfl := Option.some.inj h
      refine ⟨.freed i n hid ?_ ?_ rfl rfl rfl rfl, ⟨n, rfl⟩, hk⟩
      · show (Fd.set (number i) .free s.fds).2.kinds = _
        rw [Fd.set_number]
        rfl
      · show (s.free (number i)).ids = _
        rw [Shared.free, Fd.index_number]
    | _ => cases h
  | drop seen kind k =>
    cases a with
    | go =>
      obtain ⟨⟨n, rfl⟩, hk⟩ := hp
      obtain ⟨hfits, hhand⟩ := hk.next (s := s.letGo (some n) kind) kind.handle
      obtain rfl := Option.some.inj h
      refine ⟨.letGo n ?_ rfl rfl rfl rfl hhand, hfits⟩
      show (Fd.drop kind s.fds).2.kinds = _
      rw [Fd.drop_run]
      cases kind.slot <;> rfl
    | _ => cases h
  | dup fd =>
    cases a with
    | go =>
      rw [act] at h
      split at h
      · next kind hget =>
        obtain ⟨i, m, rfl, -, hne, -⟩ := hg.seen hget
        exact changes_quiet h rfl rfl hne
      · exact changes_quiet h rfl rfl trivial
    | _ => cases h
  | installCopy fd kind =>
    cases a with
    | go =>
      refine changes_install hg hp h rfl ?_ fun s' => ?_
      · split <;> rfl
      · split <;> trivial
    | _ => cases h
  | copyFlag fd copy =>
    cases a with
    | go => exact changes_quiet h rfl rfl trivial
    | _ => cases h
  | dup3 old new =>
    cases a with
    | go =>
      rw [act] at h
      split at h
      · next kind hget =>
        obtain ⟨i, m, rfl, -, hne, -⟩ := hg.seen hget
        refine changes_quiet h rfl ?_ ?_
        · split <;> rfl
        · split
          · trivial
          · exact hne
      · exact changes_quiet h rfl rfl trivial
    | _ => cases h
  | set new kind =>
    cases a with
    | go =>
      have hid : s.idAt new = none := hm _ rfl
      obtain rfl := Option.some.inj h
      refine ⟨?_, trivial⟩
      cases hi : index new with
      | none =>
        have hset : s.replace new kind = s := by
          rw [Shared.replace, Shared.enter, Fd.set, hi]
        show Changes s _ (s.replace new kind) _
        rw [hset]
        exact .same rfl rfl rfl rfl rfl rfl
      | some i =>
        obtain rfl := Fd.index_eq_some.mp hi
        rw [s.idAt_number] at hid
        have hset : s.replace (number i) kind = { s with
            fds := s.fds.put i kind
            ids := Function.update s.ids i (some s.installed)
            installed := s.installed + 1 } := by
          rw [Shared.replace, Shared.enter, Fd.index_number, Fd.set_number]
        show Changes s _ (s.replace (number i) kind) _
        rw [hset]
        exact .entered i kind hid hp rfl rfl rfl rfl rfl rfl
    | _ => cases h

/-! ### What is kept -/

theorem Changes.installed (hc : Changes s p s' q) : s.installed ≤ s'.installed := by
  cases hc with
  | entered i kind hid hne hkinds hids hinst => omega
  | _ => omega

theorem Shared.Good.of_changes (hg : s.Good) (hc : Changes s p s' q) : s'.Good := by
  have hlt := hc.installed
  have hother : ∀ (i : Fin maxFds) (kind : Kind) (id : Option ℕ), (id = none ↔ kind = .free) →
      (∀ n, id = some n → n < s'.installed) →
      s'.fds.kinds = Function.update s.fds.kinds i kind → s'.ids = Function.update s.ids i id →
      s'.Good := by
    intro i kind id hiff hbelow hkinds hids
    refine ⟨fun j => ?_, fun j n hj => ?_⟩
    · rw [hkinds, hids]
      by_cases hji : j = i
      · rw [hji, Function.update_self, Function.update_self]
        exact hiff
      · rw [Function.update_of_ne hji, Function.update_of_ne hji]
        exact hg.free_iff j
    · rw [hids] at hj
      by_cases hji : j = i
      · rw [hji, Function.update_self] at hj
        exact hbelow n hj
      · rw [Function.update_of_ne hji] at hj
        exact Nat.lt_of_lt_of_le (hg.below j n hj) hlt
  cases hc with
  | same hkinds hids hinst =>
    exact ⟨by rw [hids, hkinds]; exact hg.free_iff, by rw [hids, hinst]; exact hg.below⟩
  | entered i kind hid hne hkinds hids hinst =>
    refine hother i kind (some s.installed) (iff_of_false nofun hne) ?_ hkinds hids
    rintro _ ⟨⟩
    rw [hinst]
    exact Nat.lt_succ_self _
  | freed i n hid hkinds hids hinst =>
    exact hother i .free none (iff_of_true rfl rfl) nofun hkinds hids
  | letGo n hkinds hids hinst =>
    exact ⟨by rw [hids, hkinds]; exact hg.free_iff, by rw [hids, hinst]; exact hg.below⟩
  | wrote i kind hid hne hobj hexp hkinds hids hinst =>
    refine hother i kind (s.ids i) (iff_of_false hid hne) (fun n hn => ?_) hkinds ?_
    · rw [hinst]
      exact hg.below i n hn
    · rw [hids, Function.update_eq_self]

/-- An entry that keeps its installation keeps what it is of. -/
theorem Changes.object (hc : Changes s p s' q) (hid : s'.ids i = s.ids i) :
    object (s'.fds.kinds i) = object (s.fds.kinds i) := by
  cases hc with
  | same hkinds => rw [hkinds]
  | entered j kind hfree hne hkinds hids =>
    rw [hkinds, Function.update_of_ne]
    rintro rfl
    rw [hids, Function.update_self, hfree] at hid
    cases hid
  | freed j n hj hkinds hids =>
    rw [hkinds, Function.update_of_ne]
    rintro rfl
    rw [hids, Function.update_self, hj] at hid
    cases hid
  | letGo n hkinds => rw [hkinds]
  | wrote j kind hj hne hobj hexp hkinds =>
    rw [hkinds]
    by_cases hij : i = j
    · rw [hij, Function.update_self, hobj]
    · rw [Function.update_of_ne hij]

/-- An old installation does not come back to an entry. -/
theorem Changes.ids (hc : Changes s p s' q) (hn : n < s.installed) (hid : s'.ids i = some n) :
    s.ids i = some n := by
  cases hc with
  | same hkinds hids => rw [← hids, hid]
  | entered j kind hfree hne hkinds hids =>
    rw [hids] at hid
    by_cases hij : i = j
    · rw [hij, Function.update_self] at hid
      exact absurd (Option.some.inj hid) (Nat.ne_of_gt hn)
    · rwa [Function.update_of_ne hij] at hid
  | freed j m hj hkinds hids =>
    rw [hids] at hid
    by_cases hij : i = j
    · rw [hij, Function.update_self] at hid
      cases hid
    · rwa [Function.update_of_ne hij] at hid
  | letGo m hkinds hids => rw [← hids, hid]
  | wrote j kind hj hne hobj hexp hkinds hids => rw [← hids, hid]

/-- What the other threads know stays true. -/
theorem Pc.Fits.of_changes {r : Pc} (hf : r.Fits s) (hc : Changes s p s' q) :
    r.Fits s' := by
  have hle := hc.installed
  cases r with
  | reading fd seen handle offset m =>
    obtain ⟨n, rfl, hn⟩ := hf
    exact ⟨n, rfl, Nat.lt_of_lt_of_le hn hle⟩
  | setOffset fd seen offset =>
    obtain ⟨n, rfl, hn⟩ := hf
    exact ⟨n, rfl, Nat.lt_of_lt_of_le hn hle⟩
  | writeOffset fd seen kind =>
    obtain ⟨i, n, rfl, rfl, hn, hne, hobj⟩ := hf
    refine ⟨i, n, rfl, rfl, Nat.lt_of_lt_of_le hn hle, hne, fun hid => ?_⟩
    have hback := hc.ids hn hid
    rw [hc.object (hid.trans hback.symm)]
    exact hobj hback
  | _ => exact hf

variable {Thread : Type} [DecidableEq Thread] {t : State Thread} {u : Thread}

/-- **Each step moves at most one installation** to its next place. -/
theorem Changes.exact {p : Pc} (hc : Changes t.shared (t.pc u) s' p)
    (he : t.ledger.Exact {n | n < t.shared.installed}) :
    (State.mk s' (Function.update t.pc u p)).ledger.Exact {n | n < s'.installed} := by
  have hhand : ∀ v, v ≠ u →
      (State.mk s' (Function.update t.pc u p)).ledger (.hand v) = t.ledger (.hand v) := by
    intro v hv
    show (Function.update t.pc u p v).hand.elim 0 _ = _
    rw [Function.update_of_ne hv]
    rfl
  have hself : (State.mk s' (Function.update t.pc u p)).ledger (.hand u) =
      p.hand.elim 0 fun n => {n} := by
    show (Function.update t.pc u p u).hand.elim 0 _ = _
    rw [Function.update_self]
  have hquiet : s'.ids = t.shared.ids → s'.installed = t.shared.installed →
      s'.released = t.shared.released → p.hand = (t.pc u).hand →
      (State.mk s' (Function.update t.pc u p)).ledger.Exact {n | n < s'.installed} := by
    intro hids hinst hrel hp
    rw [hinst]
    refine he.congr fun place => ?_
    cases place with
    | entry i =>
      show (s'.ids i).elim 0 _ = (t.shared.ids i).elim 0 _
      rw [hids]
    | hand v =>
      by_cases hv : v = u
      · rw [hv, hself, hp]
        rfl
      · exact hhand v hv
    | released =>
      show (s'.released : Multiset ℕ) = (t.shared.released : Multiset ℕ)
      rw [hrel]
  cases hc with
  | same hkinds hids hinst hrel hp hq => exact hquiet hids hinst hrel (hq.trans hp.symm)
  | entered i kind hid hne hkinds hids hinst hrel hp hq =>
    -- a new installation comes to its entry
    have hset : {n | n < s'.installed} = insert t.shared.installed
      {n | n < t.shared.installed} := by
      ext n
      simp only [Set.mem_ofPred_eq, Set.mem_insert_iff, hinst]
      omega
    rw [hset]
    refine he.mint (p := .entry i) (fun h => Nat.lt_irrefl _ h) ?_ fun place hplace => ?_
    · show (s'.ids i).elim 0 _ = _ ::ₘ (t.shared.ids i).elim 0 _
      rw [hids, Function.update_self, hid]
      rfl
    · cases place with
      | entry j =>
        show (s'.ids j).elim 0 _ = (t.shared.ids j).elim 0 _
        rw [hids, Function.update_of_ne]
        rintro rfl
        exact hplace rfl
      | hand v =>
        by_cases hv : v = u
        · rw [hv, hself, hq]
          show _ = (t.pc u).hand.elim 0 _
          rw [hp]
        · exact hhand v hv
      | released =>
        show (s'.released : Multiset ℕ) = (t.shared.released : Multiset ℕ)
        rw [hrel]
  | freed i n hid hkinds hids hinst hrel hp hq =>
    -- it goes from its entry to the thread
    rw [hinst]
    refine he.move (p := .entry i) (q := .hand u) (x := n) nofun ?_ ?_ fun place hne hne' => ?_
    · show (t.shared.ids i).elim 0 _ = _ ::ₘ (s'.ids i).elim 0 _
      rw [hids, Function.update_self, hid]
      rfl
    · rw [hself, hq]
      show _ = n ::ₘ (t.pc u).hand.elim 0 _
      rw [hp]
      rfl
    · cases place with
      | entry j =>
        show (s'.ids j).elim 0 _ = (t.shared.ids j).elim 0 _
        rw [hids, Function.update_of_ne]
        rintro rfl
        exact hne rfl
      | hand v => exact hhand v fun hv => hne' (by rw [hv])
      | released =>
        show (s'.released : Multiset ℕ) = (t.shared.released : Multiset ℕ)
        rw [hrel]
  | letGo n hkinds hids hinst hrel hp hq =>
    -- and from there to those that were released
    rw [hinst]
    refine he.move (p := .hand u) (q := .released) (x := n) nofun ?_ ?_ fun place hne hne' => ?_
    · rw [hself, hq]
      show (t.pc u).hand.elim 0 _ = n ::ₘ 0
      rw [hp]
      rfl
    · show (s'.released : Multiset ℕ) = n ::ₘ (t.shared.released : Multiset ℕ)
      rw [hrel]
      rfl
    · cases place with
      | entry j =>
        show (s'.ids j).elim 0 _ = (t.shared.ids j).elim 0 _
        rw [hids]
      | hand v => exact hhand v fun hv => hne (by rw [hv])
      | released => exact absurd rfl hne'
  | wrote i kind hid hne hobj hexp hkinds hids hinst hrel hp hq =>
    exact hquiet hids hinst hrel (hq.trans hp.symm)

/-! ### Runs -/

/-- What holds in a run whose writes find what they expect. -/
structure State.Sound (t : State Thread) : Prop where
  good : t.shared.Good
  fits : ∀ u, (t.pc u).Fits t.shared
  exact : t.ledger.Exact {n | n < t.shared.installed}

variable {t' : State Thread} {a : Act}

theorem State.Sound.next (h : t.Sound) (hm : (t.pc u).Meets t.shared)
    (hn : t.next (u, a) = some t') :
    Changes t.shared (t.pc u) t'.shared (t'.pc u) ∧ t'.Sound := by
  obtain ⟨⟨s', p⟩, hact, rfl⟩ := Option.map_eq_some_iff.mp hn
  obtain ⟨hc, hp⟩ := changes_of_act h.good (h.fits u) hm hact
  refine ⟨?_, h.good.of_changes hc, fun v => ?_, hc.exact h.exact⟩
  · show Changes _ _ _ (Function.update t.pc u p u)
    rw [Function.update_self]
    exact hc
  · show (Function.update t.pc u p v).Fits s'
    by_cases hv : v = u
    · rw [hv, Function.update_self]
      exact hp
    · rw [Function.update_of_ne hv]
      exact (h.fits v).of_changes hc

theorem sound_of_reach (h : (fdSystem Thread).Reach (fun s e => (s.pc e.1).Meets s.shared) t) :
    t.Sound := by
  refine h.invariant ?_ ?_
  · rintro s ⟨hempty, -, hids, hinst, hrel, hout⟩
    have hnone : s.ledger.Exact ∅ := by
      refine Ledger.exact_empty fun place => ?_
      cases place with
      | entry i =>
        show (s.shared.ids i).elim 0 _ = 0
        rw [hids]
        rfl
      | hand v =>
        show (s.pc v).hand.elim 0 _ = 0
        rw [hout]
        rfl
      | released =>
        show (s.shared.released : Multiset ℕ) = 0
        rw [hrel]
        rfl
    refine ⟨⟨fun i => iff_of_true (hids i) (hempty.1 i), fun i n hi => ?_⟩, fun v => ?_, ?_⟩
    · rw [hids] at hi
      cases hi
    · rw [hout]
      trivial
    · rw [hinst]
      simpa using hnone
  · rintro s ⟨v, b⟩ s' hs hm hn
    exact (hs.next hm hn).2

/-- **The table under threads.** In every run in which each write of an entry finds the installation
its operation saw there: every installation is in one place, once — in its entry, in the hands of
the thread that has freed the entry, or among those released; an entry names the same object as long
as it has the same installation; and a cursor that is moved is one of the installation the read or
the seek began with. -/
theorem table_sound (Thread : Type) [DecidableEq Thread] (t : State Thread)
    (h : (fdSystem Thread).Reach (fun s e => (s.pc e.1).Meets s.shared) t) :
    t.ledger.Exact {n | n < t.shared.installed} ∧
      ∀ u a t', (t.pc u).Meets t.shared → t.next (u, a) = some t' →
        (∀ i, t'.shared.ids i = t.shared.ids i →
          object (t'.shared.fds.kinds i) = object (t.shared.fds.kinds i)) ∧
        ∀ fd seen kind, t.pc u = .writeOffset fd seen kind →
          ∀ i, t.shared.ids i ≠ seen → t'.shared.fds.kinds i = t.shared.fds.kinds i := by
  have hs := sound_of_reach h
  refine ⟨hs.exact, fun u a t' hm hn => ?_⟩
  obtain ⟨hc, -⟩ := hs.next hm hn
  refine ⟨fun i hid => hc.object hid, fun fd seen kind hpc i hi => ?_⟩
  rw [hpc] at hm
  have hexp : t.shared.idAt fd = seen := hm _ rfl
  obtain ⟨⟨s', p⟩, hact, rfl⟩ := Option.map_eq_some_iff.mp hn
  rw [hpc] at hact
  cases a with
  | go =>
    obtain ⟨rfl, rfl⟩ := Prod.mk.inj (Option.some.inj hact)
    show (Fd.set fd kind t.shared.fds).2.kinds i = _
    rw [Fd.set]
    cases hindex : index fd with
    | none => rfl
    | some j =>
      refine Function.update_of_ne ?_ ..
      rintro rfl
      rw [Shared.idAt, hindex] at hexp
      exact hi hexp
  | _ => cases hact

/-! ### Two runs -/

/-- Nothing is open, and two threads are about to do something. -/
def start : State (Fin 2) where
  shared :=
    ⟨⟨fun _ => .free, fun _ => false, fun _ => ⟨false, 1, 1, 0, 0, 0, 0⟩⟩, false, fun _ => none, 0,
        []⟩
  pc _ := .out

theorem init_start : (fdSystem (Fin 2)).init start :=
  ⟨⟨fun _ => rfl, fun _ => rfl⟩, rfl, fun _ => rfl, rfl, rfl, fun _ => rfl⟩

theorem table_sound_close : ∃ t : State (Fin 2), t.shared.released = [0] ∧
    t.ledger.Exact {n | n < t.shared.installed} := by
  obtain ⟨t, ht, hrel⟩ : ∃ t : State (Fin 2),
      (fdSystem (Fin 2)).Reach (fun s e => (s.pc e.1).Meets s.shared) t ∧
        decide (t.shared.released = [0]) = true :=
    EventSystem.Reach.exists_of_runIf (b := fun s e => decide ((s.pc e.1).Meets s.shared))
      (fun _ _ => of_decide_eq_true)
      -- one thread makes an eventfd, and the other closes it
      [(0, .eventfd 0 0), (0, .go), (0, .go), (0, .go), (1, .close 3), (1, .go), (1, .go), (1, .go)]
      init_start (by decide +kernel)
  exact ⟨t, of_decide_eq_true hrel, (table_sound _ t ht).1⟩

theorem table_not_sound : ¬ ∀ t : State (Fin 2), (fdSystem (Fin 2)).Reachable t →
    t.ledger.Exact {n | n < t.shared.installed} := by
  intro hall
  -- both close it, and each looks at the entry before the other frees it
  obtain ⟨t, ht, hrel⟩ := EventSystem.Reachable.exists_of_run
    [(0, .eventfd 0 0), (0, .go), (0, .go), (0, .go), (0, .go), (0, .close 3), (1, .close 3),
      (0, .go), (1, .go), (0, .go), (1, .go), (0, .go), (1, .go)]
    (p := fun t => t.shared.released = [0, 0]) init_start (by decide +kernel)
  have hnodup := (hall t ht).nodup .released
  rw [State.ledger, of_decide_eq_true hrel] at hnodup
  exact absurd (Multiset.coe_nodup.mp hnodup) (by decide)

end FdThreads
end StarOS
