import Mathlib.Data.List.Find
import Mathlib.Tactic.Common
import StarOS.Abi
import StarOS.Lib.Preference
import StarOS.Lib.Rotation

/-!
# Which task a core picks

The two policies of the scheduler, each a function of predicates the scheduler supplies. Affinity
says where a task may run, and prefers a core that ran it before; a class says what a task is owed
when several want one core. A core scans the slots round-robin, once for each class, most urgent
first, except that one decision in eight serves a lower class first.

## Main definitions

* `Affinity.choose`, `Affinity.chooseFirst` — one scan
* `Class.choose`, `Class.chooseFirst` — one for each class

## Main results

* `Class.choose_eq_some`, `Class.chooseFirst_eq_some` — what is chosen may be picked, and is not
  the slot the core is leaving
* `Class.choose_eq_none`, `Class.chooseFirst_eq_none` — something is chosen if anything may be
* `Affinity.choose_nearest`, `Affinity.chooseFirst_nearest` — of those a core ran before, if there
  are any, the next in turn
* `Class.findSome?_bands_head`, `Class.findSome?_bands_eq_some` — which class is served
* `Class.choice_law` — the slot preferred is chosen
-/

namespace StarOS

/-- An affinity mask: bit `n` set means "may run on core `n`". -/
abbrev Mask := BitVec 64

namespace Affinity

/-- The mask that permits every core. -/
def all : Mask := BitVec.allOnes 64

/-- Whether `mask` permits core `cpu`. -/
def allows (mask : Mask) (cpu : CpuId) : Bool := decide (cpu < 64) && mask &&& (1 <<< cpu) != 0

/-- Whether core `cpu` is the natural home of a task whose last core was `lastCpu`: a task that
has never run is at home everywhere. -/
def homedHere (lastCpu : Option CpuId) (cpu : CpuId) : Bool :=
  lastCpu == some cpu || lastCpu == none

/-- Whether `mask` names at least one core in `online`. -/
def satisfiable (mask online : Mask) : Bool := mask &&& online != 0

/-- Choose the next slot out of `n`, scanning from just after `origin`, preferring one this core
ran before. The scan never reaches `origin` itself. -/
def choose (n origin : ℕ) (pickable sticky : ℕ → Bool) : Option ℕ :=
  if n = 0 then none
  else
    let order := (List.range' 1 (n - 1)).map fun off => (origin + off) % n
    (order.find? fun i => pickable i && sticky i).or (order.find? pickable)

/-- Choose a slot for a core that is running nothing. -/
def chooseFirst (n : ℕ) (pickable sticky : ℕ → Bool) : Option ℕ :=
  ((List.range n).find? fun i => pickable i && sticky i).or ((List.range n).find? pickable)

theorem or_find?_eq_some {l : List ℕ} {pickable sticky : ℕ → Bool} {i : ℕ}
    (h : (l.find? fun i => pickable i && sticky i).or (l.find? pickable) = some i) :
    i ∈ l ∧ pickable i = true := by
  obtain h | ⟨-, h⟩ := Option.or_eq_some_iff.mp h
  · have := List.find?_some h
    rw [Bool.and_eq_true] at this
    exact ⟨List.mem_of_find?_eq_some h, this.1⟩
  · exact ⟨List.mem_of_find?_eq_some h, List.find?_some h⟩

theorem choose_eq_some {n origin i : ℕ} {pickable sticky : ℕ → Bool}
    (h : choose n origin pickable sticky = some i) : i < n ∧ i ≠ origin ∧ pickable i = true := by
  unfold choose at h
  split at h
  · cases h
  · next hn =>
    obtain ⟨hmem, hp⟩ := or_find?_eq_some h
    obtain ⟨off, hoff, rfl⟩ := List.mem_map.mp hmem
    rw [List.mem_range'_1] at hoff
    refine ⟨Nat.mod_lt _ (Nat.pos_of_ne_zero hn), fun heq => ?_, hp⟩
    -- the offset is less than a full turn
    have hlt : origin < n := heq ▸ Nat.mod_lt _ (Nat.pos_of_ne_zero hn)
    rcases Nat.lt_or_ge (origin + off) n with hsum | hsum
    · rw [Nat.mod_eq_of_lt hsum] at heq
      omega
    · rw [Nat.mod_eq_sub_mod hsum, Nat.mod_eq_of_lt (by omega)] at heq
      omega

theorem chooseFirst_eq_some {n i : ℕ} {pickable sticky : ℕ → Bool}
    (h : chooseFirst n pickable sticky = some i) : i < n ∧ pickable i = true := by
  obtain ⟨hmem, hp⟩ := or_find?_eq_some h
  exact ⟨List.mem_range.mp hmem, hp⟩

variable {n origin i j : ℕ} {pickable pickable' sticky sticky' : ℕ → Bool}

theorem choose_eq (ho : origin < n) : choose n origin pickable sticky =
    ((Rotation.order n origin).find? fun i => pickable i && sticky i).or
      ((Rotation.order n origin).find? pickable) :=
  if_neg (Nat.ne_zero_of_lt ho)

theorem choose_eq_none (ho : origin < n) :
    choose n origin pickable sticky = none ↔ ∀ i < n, i ≠ origin → pickable i = false := by
  rw [choose_eq ho, Option.or_eq_none_iff, Rotation.find?_order_eq_none ho,
    Rotation.find?_order_eq_none ho]
  refine and_iff_right_of_imp fun h i hi hne => ?_
  rw [h i hi hne, Bool.false_and]

/-- Only the slots the scan reaches matter to it. -/
theorem choose_congr (ho : origin < n) (hp : ∀ i < n, i ≠ origin → pickable i = pickable' i)
    (hs : ∀ i < n, i ≠ origin → sticky i = sticky' i) :
    choose n origin pickable sticky = choose n origin pickable' sticky' := by
  rw [choose_eq ho, choose_eq ho, Rotation.find?_order_congr ho hp,
    Rotation.find?_order_congr ho fun i hi hne => by rw [hp i hi hne, hs i hi hne]]

/-- Nothing is chosen past a slot that is at home, or past any where nothing is. -/
theorem choose_nearest (ho : origin < n) (h : choose n origin pickable sticky = some i)
    (hj : j < n) (hne : j ≠ origin) (hp : pickable j = true)
    (hhome : sticky j = true ∨ ∀ k < n, k ≠ origin → pickable k = true → sticky k = false) :
    Rotation.turn n origin i ≤ Rotation.turn n origin j := by
  rw [choose_eq ho, Option.or_eq_some_iff] at h
  obtain h | ⟨hnone, h⟩ := h
  · obtain ⟨hi, hio, hboth, hnear⟩ := (Rotation.find?_order_eq_some ho).mp h
    rw [Bool.and_eq_true] at hboth
    obtain hst | hcold := hhome
    · exact hnear j hj hne (by rw [hp, hst, Bool.and_self])
    · exact absurd hboth.2 (by simp [hcold i hi hio hboth.1])
  · exact ((Rotation.find?_order_eq_some ho).mp h).2.2.2 j hj hne hp

/-- A slot at home is chosen before any that is not. -/
theorem choose_home (ho : origin < n) (h : choose n origin pickable sticky = some i)
    (hj : j < n) (hne : j ≠ origin) (hp : pickable j = true) (hst : sticky j = true) :
    sticky i = true := by
  rw [choose_eq ho, Option.or_eq_some_iff] at h
  obtain h | ⟨hnone, -⟩ := h
  · have hboth := List.find?_some h
    rw [Bool.and_eq_true] at hboth
    exact hboth.2
  · have := (Rotation.find?_order_eq_none ho).mp hnone j hj hne
    rw [hp, hst] at this
    cases this

theorem chooseFirst_eq_none :
    chooseFirst n pickable sticky = none ↔ ∀ i < n, pickable i = false := by
  rw [chooseFirst, Option.or_eq_none_iff]
  simp only [List.find?_range_eq_none, Bool.and_eq_false_imp, Bool.not_eq_eq_eq_not, Bool.not_true]
  refine and_iff_right_of_imp fun h i hi hp => ?_
  rw [h i hi] at hp
  cases hp

theorem chooseFirst_nearest (h : chooseFirst n pickable sticky = some i) (_hj : j < n)
    (hp : pickable j = true)
    (hhome : sticky j = true ∨ ∀ k < n, pickable k = true → sticky k = false) : i ≤ j := by
  by_contra hlt
  rw [chooseFirst, Option.or_eq_some_iff] at h
  obtain h | ⟨-, h⟩ := h
  · obtain ⟨hboth, hmem, hbefore⟩ := List.find?_range_eq_some.mp h
    rw [Bool.and_eq_true] at hboth
    obtain hst | hcold := hhome
    · simpa [hp, hst] using hbefore j (Nat.not_le.mp hlt)
    · exact absurd hboth.2 (by simp [hcold i (List.mem_range.mp hmem) hboth.1])
  · simpa [hp] using (List.find?_range_eq_some.mp h).2.2 j (Nat.not_le.mp hlt)

/-- A scan answers the next in turn of those at home, or of all. -/
theorem least_choose (ho : origin < n) (pickable sticky : ℕ → Bool) :
    Least (fun i => (i < n ∧ i ≠ origin) ∧ pickable i = true)
      (fun i => toLex (if sticky i then 0 else 1, Rotation.turn n origin i) : ℕ → ℕ ×ₗ ℕ)
      (choose n origin pickable sticky) := by
  have hscan : ∀ p : ℕ → Bool, Least (fun i => (i < n ∧ i ≠ origin) ∧ p i = true)
      (Rotation.turn n origin) ((Rotation.order n origin).find? p) := fun p =>
    (Least.find? (Rotation.pairwise_order ho)).congr fun i =>
      and_congr_left' (Rotation.mem_order ho)
  rw [choose_eq ho]
  refine ((hscan _).congr fun i => ?_).or (hscan pickable)
  rw [Bool.and_eq_true, ← and_assoc]

theorem least_chooseFirst (n : ℕ) (pickable sticky : ℕ → Bool) :
    Least (fun i => i < n ∧ pickable i = true)
      (fun i => toLex (if sticky i then 0 else 1, i) : ℕ → ℕ ×ₗ ℕ)
      (chooseFirst n pickable sticky) := by
  have hscan : ∀ p : ℕ → Bool, Least (fun i => i < n ∧ p i = true) id ((List.range n).find? p) :=
    fun p => (Least.find? List.pairwise_lt_range).congr fun i => and_congr_left' List.mem_range
  refine ((hscan _).congr fun i => ?_).or (hscan pickable)
  rw [Bool.and_eq_true, ← and_assoc]

end Affinity

/-- What the scheduler owes a task relative to the others on its core. -/
inductive Class
  | latency
  | normal
  | bulk
  deriving DecidableEq, Repr

namespace Class

/-- A class from its ABI value. -/
def fromRaw : ℕ → Option Class
  | 1 => some .latency
  | 2 => some .normal
  | 3 => some .bulk
  | _ => none

/-- The ABI value of a class: lower is picked first. -/
def asRaw : Class → ℕ
  | .latency => 1
  | .normal => 2
  | .bulk => 3

/-- The raw value that asks for the current class without setting one. -/
def query : ℕ := 0

/-- One decision in every this many ignores the order of the classes. -/
def fairnessEvery : ℕ := 8

/-- Whether the decision numbered `picks` is one that does. -/
def isFair (picks : ℕ) : Bool := picks % fairnessEvery == fairnessEvery - 1

/-- The classes, in the order the decision numbered `picks` scans them. -/
def bands (picks : ℕ) : List Class :=
  if !isFair picks then [.latency, .normal, .bulk]
  else if picks / fairnessEvery % 2 = 0 then [.bulk, .normal, .latency]
  else [.normal, .bulk, .latency]

/-- Choose the next slot for a core about to leave `origin`. -/
def choose (n origin picks : ℕ) (pickable sticky : ℕ → Bool) (classOf : ℕ → Class) : Option ℕ :=
  (bands picks).findSome? fun band =>
    Affinity.choose n origin (fun i => pickable i && classOf i == band) sticky

/-- Choose a slot for a core that is running nothing. -/
def chooseFirst (n picks : ℕ) (pickable sticky : ℕ → Bool) (classOf : ℕ → Class) : Option ℕ :=
  (bands picks).findSome? fun band =>
    Affinity.chooseFirst n (fun i => pickable i && classOf i == band) sticky

/-- Whether a core preempting `running` hands over to `candidate`. -/
def shouldSwitch (running candidate : Class) (fair : Bool) : Bool :=
  fair || decide (candidate.asRaw ≤ running.asRaw)

/-- Whether a slot of a class above `chosen` may be picked. -/
def outranked (n : ℕ) (chosen : Class) (pickable : ℕ → Bool) (classOf : ℕ → Class) : Bool :=
  (List.range n).any fun i => decide ((classOf i).asRaw < chosen.asRaw) && pickable i

variable {n origin picks i : ℕ} {pickable sticky : ℕ → Bool} {classOf : ℕ → Class}

theorem choose_eq_some (h : choose n origin picks pickable sticky classOf = some i) :
    i < n ∧ i ≠ origin ∧ pickable i = true := by
  obtain ⟨band, -, h⟩ := List.exists_of_findSome?_eq_some h
  obtain ⟨hlt, hne, hp⟩ := Affinity.choose_eq_some h
  rw [Bool.and_eq_true] at hp
  exact ⟨hlt, hne, hp.1⟩

theorem chooseFirst_eq_some (h : chooseFirst n picks pickable sticky classOf = some i) :
    i < n ∧ pickable i = true := by
  obtain ⟨band, -, h⟩ := List.exists_of_findSome?_eq_some h
  obtain ⟨hlt, hp⟩ := Affinity.chooseFirst_eq_some h
  rw [Bool.and_eq_true] at hp
  exact ⟨hlt, hp.1⟩

/-! ### The order of the classes -/

variable {α : Type*} {scan : Class → Option α} {a : α} {b : Class}

theorem mem_bands : b ∈ bands picks := by
  rw [bands]
  cases b <;> split_ifs <;> decide

theorem findSome?_bands_eq_none : (bands picks).findSome? scan = none ↔ ∀ b, scan b = none := by
  rw [List.findSome?_eq_none_iff]
  exact forall_congr' fun b => ⟨fun h => h mem_bands, fun h _ => h⟩

/-- The class a decision scans first is served by it. -/
theorem findSome?_bands_head (hb : (bands picks).head? = some b) (h : scan b = some a) :
    (bands picks).findSome? scan = some a := by
  obtain ⟨rest, hrest⟩ := List.head?_eq_some_iff.mp hb
  rw [hrest, List.findSome?_cons, h]

/-- **A more urgent class is only stepped over by a decision that puts a lower one first.** -/
theorem findSome?_bands_eq_some (h : (bands picks).findSome? scan = some a) :
    ∃ b, scan b = some a ∧ ∀ b' : Class, b'.asRaw < b.asRaw → scan b' ≠ none →
      isFair picks = true ∧ (bands picks).head? ≠ some .latency := by
  obtain ⟨before, b, after, hsplit, hb, hnone⟩ := List.findSome?_eq_some_iff.mp h
  refine ⟨b, hb, fun b' hlt hb' => ?_⟩
  have hnot : b' ∉ before := fun hmem => hb' (hnone b' hmem)
  have hsame : bands picks = before ++ b :: after := hsplit
  by_cases hfair : isFair picks = true
  · refine ⟨hfair, ?_⟩
    rw [bands, hfair, if_neg (by decide)]
    split_ifs <;> simp
  · -- in order of urgency, what is more urgent comes before
    exfalso
    rw [bands, if_pos (by simpa using hfair)] at hsame
    have hsorted : [Class.latency, .normal, .bulk].Pairwise fun x y => x.asRaw < y.asRaw := by
      decide
    have hmem : b' ∈ [Class.latency, .normal, .bulk] := by cases b' <;> decide
    rw [hsame] at hsorted hmem
    obtain hmem | hmem := List.mem_append.mp hmem
    · exact hnot hmem
    · obtain rfl | hafter := List.mem_cons.mp hmem
      · exact Nat.lt_irrefl _ hlt
      · have := List.rel_of_pairwise_cons (List.pairwise_append.mp hsorted).2.1 hafter
        omega

/-- The number, of sixteen, of the decision that serves a class whatever the others want. -/
def due : Class → ℕ
  | .latency => 0
  | .normal => 15
  | .bulk => 7

theorem due_lt (b : Class) : due b < 16 := by
  cases b <;> decide

/-- Half a cycle of decisions goes by from one that reverses the classes to the next. -/
theorem isFair_iff : isFair picks = true ↔ picks % 8 = 7 := by
  rw [isFair, beq_iff_eq, fairnessEvery]

theorem bands_due (h : picks % 16 = due b) : (bands picks).head? = some b := by
  cases b with
  | latency =>
    have hfair : isFair picks = false := by
      rw [Bool.eq_false_iff, ne_eq, isFair_iff]
      have : picks % 16 = 0 := h
      omega
    rw [bands, hfair]
    rfl
  | normal =>
    have h15 : picks % 16 = 15 := h
    have hfair : isFair picks = true := isFair_iff.mpr (by omega)
    rw [bands, hfair, if_neg (by decide), if_neg (by rw [fairnessEvery]; omega)]
    rfl
  | bulk =>
    have h7 : picks % 16 = 7 := h
    have hfair : isFair picks = true := isFair_iff.mpr (by omega)
    rw [bands, hfair, if_neg (by decide), if_pos (by rw [fairnessEvery]; omega)]
    rfl

/-- It is not declined either. -/
theorem shouldSwitch_due (h : picks % 16 = due b) (running : Class) :
    shouldSwitch running b (isFair picks) = true := by
  rw [shouldSwitch, Bool.or_eq_true, decide_eq_true_iff, isFair_iff]
  cases b with
  | latency => exact .inr (by cases running <;> decide)
  | normal =>
    have : picks % 16 = 15 := h
    omega
  | bulk =>
    have : picks % 16 = 7 := h
    omega

/-! ### What is chosen -/

theorem choose_eq_none (ho : origin < n) : choose n origin picks pickable sticky classOf = none ↔
    ∀ i < n, i ≠ origin → pickable i = false := by
  rw [choose, findSome?_bands_eq_none]
  simp only [Affinity.choose_eq_none ho, Bool.and_eq_false_imp, beq_eq_false_iff_ne]
  constructor
  · intro h i hi hne
    by_contra hp
    exact h (classOf i) i hi hne (Bool.not_eq_false _ ▸ hp) rfl
  · intro h b i hi hne hp
    rw [h i hi hne] at hp
    cases hp

theorem chooseFirst_eq_none : chooseFirst n picks pickable sticky classOf = none ↔
    ∀ i < n, pickable i = false := by
  rw [chooseFirst, findSome?_bands_eq_none]
  simp only [Affinity.chooseFirst_eq_none, Bool.and_eq_false_imp, beq_eq_false_iff_ne]
  constructor
  · intro h i hi
    by_contra hp
    exact h (classOf i) i hi (Bool.not_eq_false _ ▸ hp) rfl
  · intro h b i hi hp
    rw [h i hi] at hp
    cases hp

/-- What is chosen is chosen among its class, and steps over a more urgent one for a reason. -/
theorem choose_band (ho : origin < n)
    (h : choose n origin picks pickable sticky classOf = some i) :
    Affinity.choose n origin (fun j => pickable j && classOf j == classOf i) sticky = some i ∧
      ∀ j < n, j ≠ origin → pickable j = true → (classOf j).asRaw < (classOf i).asRaw →
        isFair picks = true ∧ (bands picks).head? ≠ some .latency := by
  obtain ⟨b, hb, hover⟩ := findSome?_bands_eq_some h
  obtain ⟨-, -, hp⟩ := Affinity.choose_eq_some hb
  rw [Bool.and_eq_true, beq_iff_eq] at hp
  obtain rfl : classOf i = b := hp.2
  refine ⟨hb, fun j hj hne hpj hlt => hover _ hlt fun hnone => ?_⟩
  have := (Affinity.choose_eq_none ho).mp hnone j hj hne
  simp [hpj] at this

theorem chooseFirst_band (h : chooseFirst n picks pickable sticky classOf = some i) :
    Affinity.chooseFirst n (fun j => pickable j && classOf j == classOf i) sticky = some i ∧
      ∀ j < n, pickable j = true → (classOf j).asRaw < (classOf i).asRaw →
        isFair picks = true ∧ (bands picks).head? ≠ some .latency := by
  obtain ⟨b, hb, hover⟩ := findSome?_bands_eq_some h
  obtain ⟨-, hp⟩ := Affinity.chooseFirst_eq_some hb
  rw [Bool.and_eq_true, beq_iff_eq] at hp
  obtain rfl : classOf i = b := hp.2
  refine ⟨hb, fun j hj hpj hlt => hover _ hlt fun hnone => ?_⟩
  have := Affinity.chooseFirst_eq_none.mp hnone j hj
  simp [hpj] at this

/-- The class scanned first is served if it may be. -/
theorem choose_head {b : Class} {j : ℕ} (ho : origin < n) (hb : (bands picks).head? = some b)
    (hj : j < n) (hne : j ≠ origin) (hp : pickable j = true) (hc : classOf j = b) :
    ∃ i, choose n origin picks pickable sticky classOf = some i ∧ classOf i = b := by
  cases hscan : Affinity.choose n origin (fun i => pickable i && classOf i == b) sticky with
  | none =>
    have := (Affinity.choose_eq_none ho).mp hscan j hj hne
    simp [hp, hc] at this
  | some i =>
    obtain ⟨-, -, hpi⟩ := Affinity.choose_eq_some hscan
    rw [Bool.and_eq_true, beq_iff_eq] at hpi
    exact ⟨i, findSome?_bands_head hb hscan, hpi.2⟩

theorem chooseFirst_head {b : Class} {j : ℕ} (hb : (bands picks).head? = some b) (hj : j < n)
    (hp : pickable j = true) (hc : classOf j = b) :
    ∃ i, chooseFirst n picks pickable sticky classOf = some i ∧ classOf i = b := by
  cases hscan : Affinity.chooseFirst n (fun i => pickable i && classOf i == b) sticky with
  | none =>
    have := Affinity.chooseFirst_eq_none.mp hscan j hj
    simp [hp, hc] at this
  | some i =>
    obtain ⟨-, hpi⟩ := Affinity.chooseFirst_eq_some hscan
    rw [Bool.and_eq_true, beq_iff_eq] at hpi
    exact ⟨i, findSome?_bands_head hb hscan, hpi.2⟩

theorem choose_congr {pickable' sticky' : ℕ → Bool} {classOf' : ℕ → Class} (ho : origin < n)
    (hp : ∀ i < n, i ≠ origin → pickable i = pickable' i)
    (hs : ∀ i < n, i ≠ origin → sticky i = sticky' i)
    (hc : ∀ i < n, i ≠ origin → classOf i = classOf' i) :
    choose n origin picks pickable sticky classOf =
      choose n origin picks pickable' sticky' classOf' := by
  rw [choose, choose]
  congr 1
  funext b
  exact Affinity.choose_congr ho (fun i hi hne => by rw [hp i hi hne, hc i hi hne]) hs

/-! ### The law of the choice -/

/-- What makes a core prefer a slot: the place of its class in the order of the decision, whether it
ran there before, and how far it is from the slot the core is leaving. -/
def rank (n origin picks : ℕ) (sticky : ℕ → Bool) (classOf : ℕ → Class) (i : ℕ) : ℕ ×ₗ ℕ ×ₗ ℕ :=
  toLex ((bands picks).idxOf (classOf i),
    toLex (if sticky i then 0 else 1, (i + n - origin) % n))

theorem rank_inj (ho : origin < n) (hi : i < n) (hj : j < n)
    (h : rank n origin picks sticky classOf i = rank n origin picks sticky classOf j) : i = j := by
  have hdistance : (i + n - origin) % n = (j + n - origin) % n :=
    congrArg (fun k => (ofLex (ofLex k).2).2) h
  have hcases : ∀ k < n, (k + n - origin) % n = if origin ≤ k then k - origin else k + n -
    origin := by
    intro k hk
    split
    · rw [show k + n - origin = k - origin + n by omega, Nat.add_mod_right]
      exact Nat.mod_eq_of_lt (by omega)
    · exact Nat.mod_eq_of_lt (by omega)
  rw [hcases i hi, hcases j hj] at hdistance
  split_ifs at hdistance <;> omega

theorem least_choose (ho : origin < n) :
    Least (fun i => (i < n ∧ i ≠ origin) ∧ pickable i = true) (rank n origin picks sticky classOf)
      (choose n origin picks pickable sticky classOf) := by
  refine Least.findSome? (fun b _ => ?_) fun _ _ => mem_bands
  refine ((Affinity.least_choose ho _ sticky).congr fun i => ?_).congr_key fun i hi => ?_
  · rw [Bool.and_eq_true, beq_iff_eq, ← and_assoc]
  · rw [Rotation.turn_eq_mod ho hi.1.1.1 hi.1.1.2]

theorem least_chooseFirst :
    Least (fun i => i < n ∧ pickable i = true) (rank n 0 picks sticky classOf)
      (chooseFirst n picks pickable sticky classOf) := by
  refine Least.findSome? (fun b _ => ?_) fun _ _ => mem_bands
  refine ((Affinity.least_chooseFirst n _ sticky).congr fun i => ?_).congr_key fun i hi => ?_
  · rw [Bool.and_eq_true, beq_iff_eq, ← and_assoc]
  · rw [Nat.sub_zero, Nat.add_mod_right, Nat.mod_eq_of_lt hi.1.1]

/-- **The law of the choice.** A core takes the slot it prefers of those that may be picked, the one
it is leaving apart; a core that runs nothing takes the one it prefers of all, counted from the
first. -/
theorem choice_law (pickable sticky : ℕ → Bool) (classOf : ℕ → Class) (picks : ℕ)
    (ho : n ≠ 0 → origin < n) :
    (choose n origin picks pickable sticky classOf = none ↔
      ∀ i < n, i ≠ origin → pickable i = false) ∧
    (∀ i, choose n origin picks pickable sticky classOf = some i ↔
      (i < n ∧ i ≠ origin ∧ pickable i = true) ∧ ∀ j < n, j ≠ origin → pickable j = true →
        rank n origin picks sticky classOf i ≤ rank n origin picks sticky classOf j) ∧
    (chooseFirst n picks pickable sticky classOf = none ↔ ∀ i < n, pickable i = false) ∧
    ∀ i, chooseFirst n picks pickable sticky classOf = some i ↔
      (i < n ∧ pickable i = true) ∧ ∀ j < n, pickable j = true →
        rank n 0 picks sticky classOf i ≤ rank n 0 picks sticky classOf j := by
  obtain rfl | hn := eq_or_ne n 0
  · have hnone : choose 0 origin picks pickable sticky classOf = none :=
      findSome?_bands_eq_none.mpr fun _ => rfl
    have hfirst : chooseFirst 0 picks pickable sticky classOf = none :=
      findSome?_bands_eq_none.mpr fun _ => rfl
    rw [hnone, hfirst]
    exact ⟨⟨fun _ => nofun, fun _ => rfl⟩, fun i =>
      ⟨nofun, fun h => absurd h.1.1 (Nat.not_lt_zero i)⟩,
      ⟨fun _ => nofun, fun _ => rfl⟩, fun i => ⟨nofun, fun h => absurd h.1.1 (Nat.not_lt_zero i)⟩⟩
  · have ho := ho hn
    refine ⟨choose_eq_none ho, fun i => ?_, chooseFirst_eq_none, fun i => ?_⟩
    · refine ((least_choose ho).eq_some_iff fun i j hi hj => rank_inj ho hi.1.1 hj.1.1).trans ?_
      simp only [and_assoc, and_imp]
    · refine (least_chooseFirst.eq_some_iff fun i j hi hj =>
        rank_inj (Nat.pos_of_ne_zero hn) hi.1 hj.1).trans ?_
      simp only [and_imp]

/-- Of three slots one is left, one is at home, and one is more urgent. -/
theorem choice_law_urgent :
    choose 3 0 0 (fun _ => true) (fun i => i == 1)
      (fun i => if i = 2 then .latency else .bulk) = some 2 := by
  refine ((choice_law _ _ _ 0 fun _ => by decide).2.1 2).mpr ⟨by decide, fun j hj hne _ => ?_⟩
  obtain rfl | rfl : j = 1 ∨ j = 2 := by omega
  · decide
  · exact le_refl _

end Class

end StarOS
