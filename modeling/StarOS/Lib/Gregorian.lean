import Mathlib.Algebra.BigOperators.Group.List.Basic
import Mathlib.Data.Int.Order.Basic
import Mathlib.Tactic.IntervalCases

/-!
# The Gregorian calendar

The calendar without a beginning: every year has a number, and so does every day. Day 0 is the first
of January of the year 1.

## Main definitions

* `Gregorian.Date` — a year, a month and a day of the month that exists
* `Gregorian.Date.number`, `Gregorian.Date.next`

## Main results

* `Gregorian.Date.number_next` — days are numbered one after the other
* `Gregorian.Date.number_injective`, `Gregorian.exists_number` — every number is one day's
-/

namespace Gregorian

/-- Every fourth year is a leap year, of those that end a century every fourth. -/
def IsLeap (year : ℤ) : Prop := year % 4 = 0 ∧ (year % 100 = 0 → year % 400 = 0)

instance (year : ℤ) : Decidable (IsLeap year) := inferInstanceAs (Decidable (_ ∧ _))

def monthLength (year month : ℤ) : ℤ :=
  if month = 2 then if IsLeap year then 29 else 28
  else if month = 4 ∨ month = 6 ∨ month = 9 ∨ month = 11 then 30
  else 31

/-- A day of the calendar. -/
@[ext]
structure Date where
  year : ℤ
  month : ℤ
  day : ℤ
  month_mem : 1 ≤ month ∧ month ≤ 12
  day_mem : 1 ≤ day ∧ day ≤ monthLength year month

/-- The days before a year. -/
def yearStart (year : ℤ) : ℤ :=
  365 * (year - 1) + (year - 1) / 4 - (year - 1) / 100 + (year - 1) / 400

/-- The days of a year before a month. -/
def monthStart (year month : ℤ) : ℤ :=
  ((List.range (month - 1).toNat).map fun k : ℕ => monthLength year (k + 1)).sum

/-- The days of the year before a day. -/
def Date.dayOfYear (d : Date) : ℤ := monthStart d.year d.month + d.day - 1

/-- The days before a day. -/
def Date.number (d : Date) : ℤ := yearStart d.year + d.dayOfYear

variable {year month : ℤ}

/-! ### Years and months -/

theorem monthLength_mem (year month : ℤ) :
    28 ≤ monthLength year month ∧ monthLength year month ≤ 31 := by
  rw [monthLength]
  split_ifs <;> decide

theorem yearStart_succ (year : ℤ) :
    yearStart (year + 1) = yearStart year + if IsLeap year then 366 else 365 := by
  rw [yearStart, yearStart]
  split
  · next h =>
    rw [IsLeap] at h
    omega
  · next h =>
    rw [IsLeap] at h
    omega

/-- The calendar repeats after 400 years. -/
theorem yearStart_add (year k : ℤ) : yearStart (year + 400 * k) = yearStart year + 146097 * k := by
  rw [yearStart, yearStart]
  omega

theorem monthLength_add (year month k : ℤ) :
    monthLength (year + 400 * k) month = monthLength year month := by
  have hleap : IsLeap (year + 400 * k) ↔ IsLeap year := by
    rw [IsLeap, IsLeap]
    omega
  simp only [monthLength, hleap]

theorem monthStart_one (year : ℤ) : monthStart year 1 = 0 := rfl

theorem monthStart_succ (h : 1 ≤ month) :
    monthStart year (month + 1) = monthStart year month + monthLength year month := by
  have hnext : (month + 1 - 1).toNat = (month - 1).toNat + 1 := by omega
  have hlast : (((month - 1).toNat : ℕ) : ℤ) + 1 = month := by omega
  rw [monthStart, hnext, List.range_succ, List.map_append, List.sum_append, List.map_singleton,
    List.sum_singleton, hlast]
  rfl

theorem monthStart_eq (h : 1 ≤ month ∧ month ≤ 12) : monthStart year month =
    if month ≤ 2 then 31 * (month - 1)
    else (153 * (month - 3) + 2) / 5 + if IsLeap year then 60 else 59 := by
  obtain ⟨h1, h12⟩ := h
  have h2 : monthLength year 2 = if IsLeap year then 29 else 28 := if_pos rfl
  interval_cases month
  all_goals
    simp only [monthStart, monthLength]
    by_cases hleap : IsLeap year <;> simp [hleap, List.range_succ]

theorem monthStart_mem (h : 1 ≤ month ∧ month ≤ 12) :
    0 ≤ monthStart year month ∧ monthStart year month ≤ 335 := by
  rw [monthStart_eq h]
  split
  · omega
  · split <;> omega

/-! ### Days -/

namespace Date

theorem dayOfYear_nonneg (d : Date) : 0 ≤ d.dayOfYear := by
  have hstart := @monthStart_mem d.year _ d.month_mem
  have hd := d.day_mem
  rw [dayOfYear]
  omega

theorem dayOfYear_lt (d : Date) : d.dayOfYear < if IsLeap d.year then 366 else 365 := by
  have hm := d.month_mem
  have hd := d.day_mem
  have hlen := (monthLength_mem d.year d.month).2
  rw [dayOfYear, monthStart_eq hm]
  by_cases h2 : d.month ≤ 2
  · rw [if_pos h2]
    split <;> omega
  · rw [if_neg h2]
    have hshort : d.month = 4 ∨ d.month = 6 ∨ d.month = 9 ∨ d.month = 11 → d.day ≤ 30 := by
      intro hthirty
      rw [monthLength, if_neg (by omega), if_pos hthirty] at hd
      exact hd.2
    split <;> omega

theorem dayOfYear_mem (d : Date) : 0 ≤ d.dayOfYear ∧ d.dayOfYear ≤ 365 := by
  refine ⟨d.dayOfYear_nonneg, ?_⟩
  have hlt := d.dayOfYear_lt
  split at hlt <;> omega

/-- A later year is behind all days of a year. -/
theorem number_lt_of_year {d e : Date} (h : d.year < e.year) : d.number < e.number := by
  have hlt := d.dayOfYear_lt
  have hnonneg := e.dayOfYear_nonneg
  have hstart : yearStart (d.year + 1) ≤ yearStart e.year := by
    rw [yearStart, yearStart]
    omega
  rw [yearStart_succ] at hstart
  rw [number, number]
  omega

/-- A later month is behind all days of a month. -/
theorem number_lt_of_month {d e : Date} (hyear : d.year = e.year) (h : d.month < e.month) :
    d.number < e.number := by
  have hd := d.day_mem
  have he := e.day_mem
  have hm := d.month_mem
  have hm' := e.month_mem
  have hstart : monthStart d.year (d.month + 1) ≤ monthStart d.year e.month := by
    rw [monthStart_eq (by omega), monthStart_eq hm']
    split_ifs <;> omega
  rw [monthStart_succ hm.1] at hstart
  rw [number, number, dayOfYear, dayOfYear, ← hyear]
  omega

/-- **Different days** have different numbers. -/
theorem number_injective : Function.Injective number := by
  intro d e h
  have hyear : d.year = e.year := by
    obtain hlt | heq | hgt := lt_trichotomy d.year e.year
    · exact absurd h (number_lt_of_year hlt).ne
    · exact heq
    · exact absurd h.symm (number_lt_of_year hgt).ne
  have hmonth : d.month = e.month := by
    obtain hlt | heq | hgt := lt_trichotomy d.month e.month
    · exact absurd h (number_lt_of_month hyear hlt).ne
    · exact heq
    · exact absurd h.symm (number_lt_of_month hyear.symm hgt).ne
  refine Date.ext hyear hmonth ?_
  rw [number, number, dayOfYear, dayOfYear, hyear, hmonth] at h
  omega

/-- The day after. -/
def next (d : Date) : Date :=
  if hday : d.day < monthLength d.year d.month then
    { d with
      day := d.day + 1
      day_mem := ⟨by have := d.day_mem; omega, hday⟩ }
  else if hmonth : d.month < 12 then
    { d with
      month := d.month + 1
      day := 1
      month_mem := ⟨by have := d.month_mem; omega, hmonth⟩
      day_mem := ⟨le_refl 1, by have := (monthLength_mem d.year (d.month + 1)).1; omega⟩ }
  else
    { year := d.year + 1
      month := 1
      day := 1
      month_mem := by decide
      day_mem := ⟨le_refl 1, by have := (monthLength_mem (d.year + 1) 1).1; omega⟩ }

/-- **Days are numbered** one after the other. -/
theorem number_next (d : Date) : d.next.number = d.number + 1 := by
  have hd := d.day_mem
  have hm := d.month_mem
  rw [next]
  split
  · rw [number, number, dayOfYear, dayOfYear]
    dsimp only
    omega
  · next hday =>
    have hlast : d.day = monthLength d.year d.month := by omega
    split
    · rw [number, number, dayOfYear, dayOfYear]
      dsimp only
      rw [monthStart_succ hm.1]
      omega
    · next hmonth =>
      -- the last of December
      have hdec : d.month = 12 := by omega
      rw [number, number, dayOfYear, dayOfYear]
      dsimp only
      rw [yearStart_succ, monthStart_one, hlast, monthStart_eq hm, hdec]
      have hlen : monthLength d.year 12 = 31 := by
        simp [monthLength]
      rw [hlen]
      split <;> norm_num <;> omega

/-- The same day after `400 * k` years. -/
def addEras (d : Date) (k : ℤ) : Date :=
  { d with
    year := d.year + 400 * k
    day_mem := by
      rw [monthLength_add]
      exact d.day_mem }

theorem number_addEras (d : Date) (k : ℤ) : (d.addEras k).number = d.number + 146097 * k := by
  have hstart : monthStart (d.year + 400 * k) d.month = monthStart d.year d.month := by
    simp only [monthStart, monthLength_add]
  rw [number, number, dayOfYear, dayOfYear, addEras]
  dsimp only
  rw [hstart, yearStart_add]
  omega

end Date

/-- **Every number is a day's.** -/
theorem exists_number (n : ℤ) : ∃ d : Date, d.number = n := by
  have hnat : ∀ n : ℕ, ∃ d : Date, d.number = n := by
    intro n
    induction n with
    | zero => exact ⟨⟨1, 1, 1, by decide, by decide⟩, rfl⟩
    | succ n ih =>
      obtain ⟨d, hd⟩ := ih
      exact ⟨d.next, by rw [d.number_next, hd]; rfl⟩
  obtain ⟨d, hd⟩ := hnat (n + 146097 * n.natAbs).toNat
  refine ⟨d.addEras (-n.natAbs), ?_⟩
  rw [d.number_addEras, hd]
  omega

end Gregorian
