import StarOS.Arch.Tables

/-!
# The check of a user's pointer

`userRangeOk` follows the tables for every page of a range. It takes from an address the bits the
tables are indexed by, which stop at bit 47, so an address with any bit above set is answered for as
the one without: the copy that follows faults, since the hardware translates neither. And a range that
ends on the last page of the address space has no end the loop can come to.

## Main definitions

* `PointerSound` — what the check is for

## Main results

* `pointerSound_iff` — when it does that
-/

namespace StarOS

open Mmu Radix

/-- A page EL0 may read, and write if asked. -/
def PageOk (space : AddressSpace) (m : Mem) (write : Bool) (page : ℕ) : Prop :=
  ∃ desc ∈ space.lookup m (page * page4K), userReadable desc ∧ (write → userWritable desc)

/-- The pages the check goes over if it finds nothing wrong: those of the range, and after the last
page of the address space the first. -/
def Walks (va len page : ℕ) : Prop :=
  va / page4K ≤ page ∧ page * page4K < va + len ∨ 2 ^ 64 - page4K < va + len ∧ page < 2 ^ 52

/-- **What the check is for.** It comes to an answer, and a range it accepts is one of addresses that
are translated, each on a page with the rights asked for. -/
def PointerSound (space : AddressSpace) (m : Mem) (va len : ℕ) (write : Bool) : Prop :=
  (∃ fuel, (space.userRangeOk m fuel va len write).isSome) ∧
    ∀ fuel, space.userRangeOk m fuel va len write = some true → ∀ x, va ≤ x → x < va + len →
      x < 2 ^ 48 ∧ ∃ desc ∈ space.lookup m x, userReadable desc ∧ (write → userWritable desc)

variable {space : AddressSpace} {m : Mem} {write : Bool} {limit fuel k d : ℕ}

/-- An address is answered for as its page is. -/
theorem lookup_page (space : AddressSpace) (m : Mem) (va : ℕ) :
    space.lookup m (va / page4K * page4K) = space.lookup m va := by
  have hindex : ∀ level ≤ leafLevel, tableIndex (va / page4K * page4K) level = tableIndex va level := by
    intro level hlevel
    refine Fin.ext ?_
    show (va / page4K * page4K) >>> (39 - 9 * level) &&& 0x1ff = va >>> (39 - 9 * level) &&& 0x1ff
    obtain rfl | rfl | rfl | rfl : level = 0 ∨ level = 1 ∨ level = 2 ∨ level = 3 := by
      rw [leafLevel] at hlevel
      omega
    all_goals
      rw [Nat.shiftRight_eq_div_pow, Nat.shiftRight_eq_div_pow, page4K]
      congr 1
      omega
  have hpath : path (va / page4K * page4K) = path va := by
    refine List.map_congr_left fun level hlevel => hindex level ?_
    exact (List.mem_range.mp hlevel).le
  rw [lookup_eq_leafAt, lookup_eq_leafAt, hpath, hindex leafLevel (Nat.le_refl _)]

/-! ### The loop -/

/-- **One round.** -/
theorem rangeLoop_succ (hlimit : k * page4K < limit) (fuel : ℕ) :
    (PageOk space m write k → space.rangeLoop m limit write (fuel + 1) (k * page4K) =
      space.rangeLoop m limit write fuel ((k + 1) % 2 ^ 52 * page4K)) ∧
    (¬ PageOk space m write k →
      space.rangeLoop m limit write (fuel + 1) (k * page4K) = some false) := by
  have hnext : (k * page4K + page4K) % 2 ^ 64 = (k + 1) % 2 ^ 52 * page4K := by
    rw [page4K]
    omega
  rw [AddressSpace.rangeLoop, if_pos hlimit, hnext]
  cases hl : space.lookup m (k * page4K) with
  | none =>
    refine ⟨fun ⟨desc, hdesc, _⟩ => ?_, fun _ => rfl⟩
    rw [hl] at hdesc
    cases hdesc
  | some desc =>
    have hok : PageOk space m write k ↔ userReadable desc ∧ (write → userWritable desc) := by
      rw [PageOk, hl]
      simp
    rw [hok]
    dsimp only
    cases userReadable desc <;> cases userWritable desc <;> cases write <;> simp

/-- More rounds answer the same. -/
theorem rangeLoop_mono {page : ℕ} {b : Bool} (h : space.rangeLoop m limit write fuel page = some b)
    (n : ℕ) : space.rangeLoop m limit write (fuel + n) page = some b := by
  induction fuel generalizing page with
  | zero => cases h
  | succ fuel ih =>
    rw [Nat.add_right_comm]
    rw [AddressSpace.rangeLoop] at h ⊢
    split
    · next hlt =>
      rw [if_pos hlt] at h
      cases hl : space.lookup m page with
      | none => rw [hl] at h; exact h
      | some desc =>
        rw [hl] at h
        dsimp only at h ⊢
        split
        · next hbad => rwa [if_pos hbad] at h
        · next hgood =>
          rw [if_neg hgood] at h
          exact ih h
    · next hge => rwa [if_neg hge] at h

/-- There is one answer. -/
theorem rangeLoop_unique {page fuel' : ℕ} {b c : Bool}
    (hb : space.rangeLoop m limit write fuel page = some b)
    (hc : space.rangeLoop m limit write fuel' page = some c) : b = c := by
  have hb' := rangeLoop_mono hb fuel'
  have hc' := rangeLoop_mono hc fuel
  rw [Nat.add_comm] at hc'
  exact Option.some.inj (hb'.symm.trans hc')

/-- **A page that is wrong ends the loop**, if the loop comes to it. -/
theorem rangeLoop_false (hk : k < 2 ^ 52) (hlimit : ∀ e ≤ d, (k + e) % 2 ^ 52 * page4K < limit)
    (hbad : ¬ PageOk space m write ((k + d) % 2 ^ 52)) :
    ∃ fuel, space.rangeLoop m limit write fuel (k * page4K) = some false := by
  induction d generalizing k with
  | zero =>
    have h₀ := hlimit 0 (Nat.le_refl 0)
    rw [Nat.add_zero, Nat.mod_eq_of_lt hk] at h₀ hbad
    exact ⟨1, (rangeLoop_succ h₀ 0).2 hbad⟩
  | succ d ih =>
    have h₀ := hlimit 0 (Nat.zero_le _)
    rw [Nat.add_zero, Nat.mod_eq_of_lt hk] at h₀
    have hshift : ∀ e, ((k + 1) % 2 ^ 52 + e) % 2 ^ 52 = (k + (e + 1)) % 2 ^ 52 := by
      intro e
      omega
    by_cases hok : PageOk space m write k
    · obtain ⟨fuel, hfuel⟩ := ih (k := (k + 1) % 2 ^ 52) (Nat.mod_lt _ (by decide))
        (fun e he => by rw [hshift]; exact hlimit (e + 1) (Nat.succ_le_succ he))
        (by rw [hshift]; exact hbad)
      exact ⟨fuel + 1, ((rangeLoop_succ h₀ fuel).1 hok).trans hfuel⟩
    · exact ⟨1, (rangeLoop_succ h₀ 0).2 hok⟩

/-- **Pages that are right are gone over to the end**, if there is one. -/
theorem rangeLoop_true (hend : limit ≤ 2 ^ 64 - page4K) (n : ℕ) (hn : limit ≤ (k + n) * page4K)
    (hok : ∀ j, k ≤ j → j * page4K < limit → PageOk space m write j) :
    space.rangeLoop m limit write (n + 1) (k * page4K) = some true := by
  induction n generalizing k with
  | zero =>
    rw [Nat.add_zero] at hn
    rw [AddressSpace.rangeLoop, if_neg (Nat.not_lt.mpr hn)]
  | succ n ih =>
    by_cases hlimit : k * page4K < limit
    · have hk : k + 1 < 2 ^ 52 := by
        rw [page4K] at hend hlimit
        omega
      rw [(rangeLoop_succ hlimit (n + 1)).1 (hok k (Nat.le_refl k) hlimit), Nat.mod_eq_of_lt hk]
      have hshift : k + 1 + n = k + (n + 1) := by omega
      exact ih (hshift ▸ hn) fun j hj => hok j (Nat.le_of_succ_le hj)
    · rw [AddressSpace.rangeLoop, if_neg hlimit]

/-- Every page is before the end of a range that ends on the last. -/
theorem lt_of_end (hend : 2 ^ 64 - page4K < limit) (hk : k < 2 ^ 52) : k * page4K < limit := by
  rw [page4K] at *
  omega

/-- **A range that ends on the last page has no end.** -/
theorem rangeLoop_none (hend : 2 ^ 64 - page4K < limit) (hk : k < 2 ^ 52)
    (hok : ∀ j < 2 ^ 52, PageOk space m write j) (fuel : ℕ) :
    space.rangeLoop m limit write fuel (k * page4K) = none := by
  induction fuel generalizing k with
  | zero => rfl
  | succ fuel ih =>
    rw [(rangeLoop_succ (lt_of_end hend hk) fuel).1 (hok k hk)]
    exact ih (Nat.mod_lt _ (by decide))

/-! ### The check -/

section

variable {va len : ℕ}

theorem page_lt (hva : va < 2 ^ 64) : va / page4K < 2 ^ 52 := by
  rw [page4K]
  omega

/-- The check of a range that is not empty and does not wrap is the loop over its pages. -/
theorem userRangeOk_eq (hva : va < 2 ^ 64) (hlen : len ≠ 0) (hlimit : va + len < 2 ^ 64) (fuel : ℕ) :
    space.userRangeOk m fuel va len write =
      space.rangeLoop m (va + len) write fuel (va / page4K * page4K) := by
  have hpage : page4K = 2 ^ 12 := by decide
  rw [AddressSpace.userRangeOk, if_neg (Nat.not_le.mpr hlimit), if_neg hlen, hpage,
    Bits.and_not_low hva (by decide)]

/-- A page gone over that is wrong has the range refused. -/
theorem userRangeOk_false (hva : va < 2 ^ 64) (hlen : len ≠ 0) (hlimit : va + len < 2 ^ 64) {j : ℕ}
    (hj : Walks va len j) (hbad : ¬ PageOk space m write j) :
    ∃ fuel, space.userRangeOk m fuel va len write = some false := by
  simp only [userRangeOk_eq hva hlen hlimit]
  have hk := page_lt hva
  rcases hj with ⟨hle, hlt⟩ | ⟨hend, hlt⟩
  · have hj52 : j < 2 ^ 52 := by
      rw [page4K] at hlt
      omega
    refine rangeLoop_false (d := j - va / page4K) hk (fun e he => ?_) ?_
    · rw [Nat.mod_eq_of_lt (by omega)]
      have hmul := Nat.mul_le_mul_right page4K (by omega : va / page4K + e ≤ j)
      omega
    · rw [Nat.add_sub_cancel' hle, Nat.mod_eq_of_lt hj52]
      exact hbad
  · refine rangeLoop_false (d := (j + 2 ^ 52 - va / page4K) % 2 ^ 52) hk (fun e he => ?_) ?_
    · exact lt_of_end hend (Nat.mod_lt _ (by decide))
    · have heq : (va / page4K + (j + 2 ^ 52 - va / page4K) % 2 ^ 52) % 2 ^ 52 = j := by omega
      rw [heq]
      exact hbad

/-- A range that ends before the last page, all of whose pages are right, is accepted. -/
theorem userRangeOk_true (hva : va < 2 ^ 64) (hlen : len ≠ 0) (hend : va + len ≤ 2 ^ 64 - page4K)
    (hok : ∀ j, Walks va len j → PageOk space m write j) :
    space.userRangeOk m (va + len + 1) va len write = some true := by
  have hlimit : va + len < 2 ^ 64 := by
    rw [page4K] at hend
    omega
  rw [userRangeOk_eq hva hlen hlimit]
  refine rangeLoop_true hend _ ?_ fun j hj hlt => hok j (.inl ⟨hj, hlt⟩)
  rw [page4K]
  omega

/-- **When the check of a pointer is sound**: for an empty range, one that wraps, one below `2 ^ 48`, or
one on which it finds a page that is wrong. Of any other it accepts an address nothing translates, or
it never comes to an answer. -/
theorem pointerSound_iff (space : AddressSpace) (m : Mem) (write : Bool) (hva : va < 2 ^ 64) :
    PointerSound space m va len write ↔
      len = 0 ∨ 2 ^ 64 ≤ va + len ∨ va + len ≤ 2 ^ 48 ∨
        ∃ page, Walks va len page ∧ ¬ PageOk space m write page := by
  constructor
  · rintro ⟨⟨fuel, hsome⟩, hsound⟩
    by_contra hne
    simp only [not_or, not_exists, not_and, not_not, Nat.not_le] at hne
    obtain ⟨hlen, hlimit, hhigh, hok⟩ := hne
    by_cases hend : va + len ≤ 2 ^ 64 - page4K
    · -- accepted, and its last byte is not translated
      have htrue := userRangeOk_true hva hlen hend hok
      have := (hsound _ htrue (va + len - 1) (by omega) (by omega)).1
      omega
    · have hend := Nat.not_le.mp hend
      rw [userRangeOk_eq hva hlen hlimit,
        rangeLoop_none hend (page_lt hva) fun j hj => hok j (.inr ⟨hend, hj⟩)] at hsome
      cases hsome
  · by_cases hlen : len = 0
    · refine fun _ => ⟨⟨0, ?_⟩, fun fuel _ x hx hlt => by omega⟩
      rw [AddressSpace.userRangeOk, if_neg (by omega), if_pos hlen]
      rfl
    · by_cases hlimit : 2 ^ 64 ≤ va + len
      · have hfalse : ∀ fuel, space.userRangeOk m fuel va len write = some false := fun fuel => by
          rw [AddressSpace.userRangeOk, if_pos hlimit]
        refine fun _ => ⟨⟨0, by rw [hfalse]; rfl⟩, fun fuel htrue => ?_⟩
        rw [hfalse] at htrue
        cases htrue
      · have hlimit := Nat.not_le.mp hlimit
        by_cases hbad : ∃ page, Walks va len page ∧ ¬ PageOk space m write page
        · obtain ⟨page, hwalks, hbad⟩ := hbad
          obtain ⟨fuel, hfalse⟩ := userRangeOk_false hva hlen hlimit hwalks hbad
          refine fun _ => ⟨⟨fuel, by rw [hfalse]; rfl⟩, fun fuel' htrue => ?_⟩
          rw [userRangeOk_eq hva hlen hlimit] at hfalse htrue
          cases rangeLoop_unique hfalse htrue
        · rintro (h | h | hlow | h)
          · exact absurd h hlen
          · omega
          · -- every page gone over is right
            simp only [not_exists, not_and, not_not] at hbad
            have hend : va + len ≤ 2 ^ 64 - page4K := hlow.trans (by decide)
            have htrue := userRangeOk_true hva hlen hend hbad
            refine ⟨⟨_, by rw [htrue]; rfl⟩, fun _ _ x hx hlt => ⟨by omega, ?_⟩⟩
            obtain ⟨desc, hdesc, hrights⟩ := hbad (x / page4K)
              (.inl ⟨Nat.div_le_div_right hx, (Nat.div_mul_le_self x page4K).trans_lt hlt⟩)
            rw [lookup_page] at hdesc
            exact ⟨desc, hdesc, hrights⟩
          · exact absurd h hbad

end

/-- A space with one page, at the start of the image. -/
def onePage : Mem := ((AddressSpace.mapPage ⟨0x1000, 0, 0, 0⟩ userBase (userDataPage 0x5000)
  (⟨fun _ => 0, ⟨[0x2000, 0x3000, 0x4000], []⟩⟩ : Phys Pool)).2).mem

/-- A message on that page is accepted, and the check is sound of it. -/
theorem pointerSound_iff_page : AddressSpace.userRangeOk ⟨0x1000, 0, 0, 0⟩ onePage 2 (userBase + 0xfc0) 64
    true = some true ∧ PointerSound ⟨0x1000, 0, 0, 0⟩ onePage (userBase + 0xfc0) 64 true :=
  ⟨by decide, (pointerSound_iff _ _ _ (by decide)).mpr (.inr (.inr (.inl (by decide))))⟩

/-- **An address that is the page's but for bit 48 is accepted**, and nothing translates it. -/
theorem pointer_not_sound : ¬ ∀ (space : AddressSpace) (m : Mem) (va len : ℕ) (write : Bool),
    va < 2 ^ 64 → len < 2 ^ 64 → PointerSound space m va len write := by
  intro hall
  have hsound := (hall ⟨0x1000, 0, 0, 0⟩ onePage (2 ^ 48 + userBase) 64 true (by decide) (by decide)).2
  exact absurd (hsound 2 (by decide) (2 ^ 48 + userBase) (Nat.le_refl _) (by decide)).1 (by decide)

end StarOS
