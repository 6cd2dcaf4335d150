import StarOS.Lib.Gregorian

/-!
# The calendar of `gmtime` and `mktime`

Seconds since 1970 are taken apart into a day and a time of day, and a day into a year, a month and
a day of the month. The other way round, fields outside their ranges are carried.

An integer that does not fit 64 bits ends the run without a result.

## Main definitions

* `Time.daysFromCivil`, `Time.civilFromDays`
* `Time.tmFromEpoch`, `Time.epochFromTm`

## Main results

* `Time.daysFromCivil_eq` — the days of the code are those of the calendar
* `Time.civilFromDays_number`
* `Time.calendar_exact`
-/

namespace StarOS

namespace Time

open Gregorian

/-- Arithmetic on 64-bit integers. -/
def i64 (n : ℤ) : Option ℤ := if -2 ^ 63 ≤ n ∧ n < 2 ^ 63 then some n else none

/-- Days from the Unix epoch to a civil date. The year starts in March, so that the leap day is the
last day of the year. -/
def daysFromCivil (year month day : ℤ) : Option ℤ := do
  let y ← (if month ≤ 2 then i64 (year - 1) else some year)
  let era := (← (if 0 ≤ y then some y else i64 (y - 399))).tdiv 400
  let yoe ← i64 (y - (← i64 (era * 400)))
  let mp := (← i64 (month + 9)).tmod 12
  let doy ← i64 ((← i64 ((← i64 ((← i64 (153 * mp)) + 2)).tdiv 5 + day)) - 1)
  let doe ← i64 ((← i64 ((← i64 ((← i64 (yoe * 365)) + yoe.tdiv 4)) - yoe.tdiv 100)) + doy)
  i64 ((← i64 ((← i64 (era * 146097)) + doe)) - 719468)

/-- The inverse: a day count since the epoch back to year, month and day. -/
def civilFromDays (days : ℤ) : Option (ℤ × ℤ × ℤ) := do
  let z ← i64 (days + 719468)
  let era := (← (if 0 ≤ z then some z else i64 (z - 146096))).tdiv 146097
  let doe ← i64 (z - (← i64 (era * 146097)))
  let yoe := (← i64 ((← i64 ((← i64 (doe - doe.tdiv 1460)) + doe.tdiv 36524)) -
    doe.tdiv 146096)).tdiv 365
  let y ← i64 (yoe + (← i64 (era * 400)))
  let doy ← i64 (doe - (← i64 ((← i64 ((← i64 (365 * yoe)) + yoe.tdiv 4)) - yoe.tdiv 100)))
  let mp := (← i64 ((← i64 (5 * doy)) + 2)).tdiv 153
  let d ← i64 ((← i64 (doy - (← i64 ((← i64 (153 * mp)) + 2)).tdiv 5)) + 1)
  let m ← i64 (if mp < 10 then mp + 3 else mp - 9)
  let y ← i64 (if m ≤ 2 then y + 1 else y)
  some (y, m, d)

/-- The day that time is counted from. -/
def epochDay : ℤ := 719162

/-! ### Steps of the arithmetic -/

theorem i64_of {n : ℤ} (h : -2 ^ 63 ≤ n ∧ n < 2 ^ 63) : i64 n = some n := if_pos h

theorem tdiv_of_nonneg {a b : ℤ} (h : 0 ≤ a) : a.tdiv b = a / b := Int.tdiv_eq_ediv_of_nonneg h

theorem bind_of {α β : Type} {x : Option α} {f : α → Option β} {a : α} (h : x = some a) :
    x >>= f = f a := by
  rw [h]
  rfl

/-- The era of a year or of a day: the quotient is rounded down. -/
theorem era_eq {a n : ℤ} (hn : 0 < n) : (if 0 ≤ a then a else a - (n - 1)).tdiv n = a / n := by
  by_cases ha : 0 ≤ a
  · rw [if_pos ha, tdiv_of_nonneg ha]
  · have hdiv := Int.mul_ediv_add_emod a n
    have hlt := Int.emod_lt_of_pos a hn
    have hnonneg := Int.emod_nonneg a hn.ne'
    have hsplit : n - 1 - a = (n - 1 - a % n) + n * -(a / n) := by
      have hprod : n * -(a / n) = -(n * (a / n)) := Int.mul_neg _ _
      omega
    have hneg : a - (n - 1) = -(n - 1 - a) := by omega
    rw [if_neg ha, hneg, Int.neg_tdiv, tdiv_of_nonneg (by omega), hsplit,
      Int.add_mul_ediv_left _ _ hn.ne', Int.ediv_eq_zero_of_lt (by omega) (by omega)]
    omega

theorem era_some {a n : ℤ} (h : -2 ^ 63 ≤ a - n ∧ a < 2 ^ 63) (hn : 0 ≤ n) :
    (if 0 ≤ a then some a else i64 (a - n)) = some (if 0 ≤ a then a else a - n) := by
  split
  · rfl
  · exact i64_of (by omega)

/-- The year that starts in March before a month. -/
def marchYear (year month : ℤ) : ℤ := if month ≤ 2 then year - 1 else year

/-- The days of the calendar, counted by eras. -/
theorem days_eq (year : ℤ) {month : ℤ} (hm : 1 ≤ month ∧ month ≤ 12) (day : ℤ) :
    yearStart year + monthStart year month + day - 1 - epochDay =
      marchYear year month / 400 * 146097 + (marchYear year month % 400 * 365 +
        marchYear year month % 400 / 4 - marchYear year month % 400 / 100 +
          ((153 * ((month + 9) % 12) + 2) / 5 + day - 1)) - 719468 := by
  rw [monthStart_eq hm, yearStart, epochDay, marchYear]
  by_cases h2 : month ≤ 2
  · rw [if_pos h2, if_pos h2]
    omega
  · rw [if_neg h2, if_neg h2]
    by_cases hleap : IsLeap year
    · rw [if_pos hleap]
      rw [IsLeap] at hleap
      omega
    · rw [if_neg hleap]
      rw [IsLeap] at hleap
      omega

/-- **The days of the code** are those of the calendar, where nothing overflows. -/
theorem daysFromCivil_eq {year month day : ℤ} (hm : 1 ≤ month ∧ month ≤ 12)
    (hd : -2 ^ 32 ≤ day ∧ day ≤ 2 ^ 32)
    (hera : -2 ^ 63 ≤ marchYear year month / 400 * 146097 ∧
      marchYear year month / 400 * 146097 < 2 ^ 63)
    (hdays : -2 ^ 63 ≤ yearStart year + monthStart year month + day - 1 - epochDay ∧
      yearStart year + monthStart year month + day - 1 - epochDay + 719468 < 2 ^ 63) :
    daysFromCivil year month day =
      some (yearStart year + monthStart year month + day - 1 - epochDay) := by
  have hvalue := days_eq year hm day
  rw [hvalue] at hdays ⊢
  have hy : (if month ≤ 2 then i64 (year - 1) else some year) = some (marchYear year month) := by
    rw [marchYear] at hera ⊢
    split
    · next h2 =>
      rw [if_pos h2] at hera
      exact i64_of (by omega)
    · rfl
  rw [daysFromCivil]
  refine (bind_of hy).trans ?_
  clear hy hvalue
  generalize marchYear year month = y at hera hdays ⊢
  have hdiv : (if 0 ≤ y then some y else i64 (y - 399)) = some (if 0 ≤ y then y else y - 399) :=
    era_some (by omega) (by decide)
  refine (bind_of hdiv).trans ?_
  rw [show (399 : ℤ) = 400 - 1 from rfl, era_eq (by decide)]
  have hyoe : y - y / 400 * 400 = y % 400 := by omega
  refine (bind_of (i64_of (by omega))).trans ?_
  rw [hyoe]
  have hyoemem : 0 ≤ y % 400 ∧ y % 400 < 400 := by omega
  clear hdiv
  refine (bind_of (i64_of (by omega))).trans ?_
  generalize y / 400 = era, y % 400 = yoe at hera hdays hyoemem ⊢
  refine (bind_of (i64_of (by omega))).trans ?_
  rw [Int.tmod_eq_emod_of_nonneg (by omega)]
  have hmp : 0 ≤ (month + 9) % 12 ∧ (month + 9) % 12 < 12 := by omega
  generalize (month + 9) % 12 = mp at hdays hmp ⊢
  refine (bind_of (i64_of (by omega))).trans ?_
  refine (bind_of (i64_of (by omega))).trans ?_
  rw [tdiv_of_nonneg (by omega)]
  have hstart : 0 ≤ (153 * mp + 2) / 5 ∧ (153 * mp + 2) / 5 ≤ 337 := by omega
  have hfourth : 0 ≤ yoe / 4 ∧ yoe / 4 < 100 := by omega
  have hcentury : 0 ≤ yoe / 100 ∧ yoe / 100 < 4 := by omega
  rw [tdiv_of_nonneg hyoemem.1, tdiv_of_nonneg hyoemem.1]
  generalize (153 * mp + 2) / 5 = start, yoe / 4 = fourth, yoe / 100 = century
    at hdays hstart hfourth hcentury ⊢
  refine (bind_of (i64_of (by omega))).trans ?_
  refine (bind_of (i64_of (by omega))).trans ?_
  refine (bind_of (i64_of (by omega))).trans ?_
  refine (bind_of (i64_of (by omega))).trans ?_
  refine (bind_of (i64_of (by omega))).trans ?_
  refine (bind_of (i64_of (by omega))).trans ?_
  refine (bind_of (i64_of (by omega))).trans ?_
  refine (bind_of (i64_of (by omega))).trans ?_
  exact i64_of (by omega)

/-- The year of an era that a day of it is in. -/
def yearOfEra (doe : ℤ) : ℤ := (doe - doe / 1460 + doe / 36524 - doe / 146096) / 365

theorem yearOfEra_eq {yoe doy : ℤ} (hyoe : 0 ≤ yoe ∧ yoe < 400) (hdoy : 0 ≤ doy ∧ doy ≤ 365)
    (hleap : doy = 365 → (yoe + 1) % 4 = 0 ∧ ((yoe + 1) % 100 = 0 → (yoe + 1) % 400 = 0)) :
    yearOfEra (yoe * 365 + yoe / 4 - yoe / 100 + doy) = yoe := by
  -- a century, four years of it, and a year of those
  obtain ⟨c, k, r, rfl, hc, hk, hr⟩ : ∃ c k r : ℤ, yoe = 100 * c + 4 * k + r ∧ (0 ≤ c ∧ c < 4) ∧
      (0 ≤ k ∧ k < 25) ∧ 0 ≤ r ∧ r < 4 :=
    ⟨yoe / 100, yoe % 100 / 4, yoe % 4, by omega, by omega, by omega, by omega⟩
  have hdoe : (100 * c + 4 * k + r) * 365 + (100 * c + 4 * k + r) / 4 -
      (100 * c + 4 * k + r) / 100 + doy = 36524 * c + 1461 * k + 365 * r + doy := by omega
  have hlast : doy = 365 → r = 3 ∧ (k = 24 → c = 3) := by omega
  rw [hdoe, yearOfEra]
  clear hdoe hleap hyoe
  have hcentury : (36524 * c + 1461 * k + 365 * r + doy) / 36524 -
      (36524 * c + 1461 * k + 365 * r + doy) / 146096 = c := by
    by_cases hend : k = 24 ∧ doy = 365
    · have hc3 : c = 3 := (hlast hend.2).2 hend.1
      have hr3 : r = 3 := (hlast hend.2).1
      rw [hend.1, hend.2, hc3, hr3]
      rfl
    · have hrem : 0 ≤ 1461 * k + 365 * r + doy ∧ 1461 * k + 365 * r + doy < 36524 := by omega
      rw [add_assoc, add_assoc, ← add_assoc (1461 * k)]
      generalize 1461 * k + 365 * r + doy = rem at hrem ⊢
      have hquot : (36524 * c + rem) / 36524 = c := by omega
      have hzero : (36524 * c + rem) / 146096 = 0 := by omega
      rw [hquot, hzero, sub_zero]
  have hfour : ∃ t, (36524 * c + 1461 * k + 365 * r + doy) / 1460 = 25 * c + k + t ∧
      (t = 0 ∧ doy < 365 ∨ t = 1 ∧ 1 ≤ doy) := by
    by_cases hturn : 1460 ≤ 24 * c + k + 365 * r + doy
    · exact ⟨1, by omega, .inr ⟨rfl, by omega⟩⟩
    · exact ⟨0, by omega, .inl ⟨rfl, by omega⟩⟩
  obtain ⟨t, ht, hbound⟩ := hfour
  rw [add_sub_assoc, hcentury, ht]
  omega

theorem yearOfEra_steps {doe : ℤ} (h : 0 ≤ doe ∧ doe < 146097) :
    i64 (doe - doe / 1460) = some (doe - doe / 1460) ∧
    i64 (doe - doe / 1460 + doe / 36524) = some (doe - doe / 1460 + doe / 36524) ∧
    i64 (doe - doe / 1460 + doe / 36524 - doe / 146096) =
      some (doe - doe / 1460 + doe / 36524 - doe / 146096) ∧
    0 ≤ doe - doe / 1460 + doe / 36524 - doe / 146096 :=
  ⟨i64_of (by omega), i64_of (by omega), i64_of (by omega), by omega⟩

theorem civilFromDays_eq {era yoe doy : ℤ} (hyoe : 0 ≤ yoe ∧ yoe < 400)
    (hdoy : 0 ≤ doy ∧ doy ≤ 365)
    (hleap : doy = 365 → (yoe + 1) % 4 = 0 ∧ ((yoe + 1) % 100 = 0 → (yoe + 1) % 400 = 0))
    (hlow : -2 ^ 63 ≤ era * 146097 + (yoe * 365 + yoe / 4 - yoe / 100 + doy) - 719468)
    (hhigh : era * 146097 + (yoe * 365 + yoe / 4 - yoe / 100 + doy) < 2 ^ 63) :
    civilFromDays (era * 146097 + (yoe * 365 + yoe / 4 - yoe / 100 + doy) - 719468) =
      let mp := (5 * doy + 2) / 153
      let m := if mp < 10 then mp + 3 else mp - 9
      some (if m ≤ 2 then yoe + era * 400 + 1 else yoe + era * 400, m,
        doy - (153 * mp + 2) / 5 + 1) := by
  have hfound := yearOfEra_eq hyoe hdoy hleap
  clear hleap
  obtain ⟨doe, hdoe⟩ : ∃ doe, doe = yoe * 365 + yoe / 4 - yoe / 100 + doy := ⟨_, rfl⟩
  have hdoemem : 0 ≤ doe ∧ doe < 146097 := by omega
  have hfourth : 0 ≤ yoe / 4 ∧ yoe / 4 < 100 := by omega
  have hcentury : 0 ≤ yoe / 100 ∧ yoe / 100 < 4 := by omega
  rw [← hdoe] at hlow hhigh hfound ⊢
  have hz : era * 146097 + doe - 719468 + 719468 = era * 146097 + doe := by omega
  have hera : (if 0 ≤ era * 146097 + doe then era * 146097 + doe
      else era * 146097 + doe - 146096).tdiv 146097 = era := by
    rw [show (146096 : ℤ) = 146097 - 1 from rfl, era_eq (by decide)]
    omega
  have hback : era * 146097 + doe - era * 146097 = doe := by omega
  rw [civilFromDays, hz]
  refine (bind_of (i64_of (by omega))).trans ?_
  refine (bind_of (era_some (by omega) (by decide))).trans ?_
  rw [hera]
  refine (bind_of (i64_of (by omega))).trans ?_
  rw [hback]
  refine (bind_of (i64_of (by omega))).trans ?_
  rw [tdiv_of_nonneg hdoemem.1, tdiv_of_nonneg hdoemem.1, tdiv_of_nonneg hdoemem.1]
  obtain ⟨hminus, hplus, hparts, hnonneg⟩ := yearOfEra_steps hdoemem
  refine (bind_of hminus).trans ?_
  refine (bind_of hplus).trans ?_
  refine (bind_of hparts).trans ?_
  rw [tdiv_of_nonneg hnonneg, ← yearOfEra, hfound]
  clear hfound hminus hplus hparts hnonneg hera
  refine (bind_of (i64_of (by omega))).trans ?_
  refine (bind_of (i64_of (by omega))).trans ?_
  refine (bind_of (i64_of (by omega))).trans ?_
  rw [tdiv_of_nonneg hyoe.1, tdiv_of_nonneg hyoe.1]
  generalize yoe / 4 = fourth, yoe / 100 = century at hdoe hfourth hcentury ⊢
  have hrest : doe - (365 * yoe + fourth - century) = doy := by omega
  refine (bind_of (i64_of (by omega))).trans ?_
  refine (bind_of (i64_of (by omega))).trans ?_
  rw [hrest]
  clear hrest hdoe hfourth hcentury hz hback
  refine (bind_of (i64_of (by omega))).trans ?_
  refine (bind_of (i64_of (by omega))).trans ?_
  refine (bind_of (i64_of (by omega))).trans ?_
  rw [tdiv_of_nonneg (by omega)]
  have hmp : 0 ≤ (5 * doy + 2) / 153 ∧ (5 * doy + 2) / 153 ≤ 11 := by omega
  generalize (5 * doy + 2) / 153 = mp at hmp ⊢
  refine (bind_of (i64_of (by omega))).trans ?_
  refine (bind_of (i64_of (by omega))).trans ?_
  rw [tdiv_of_nonneg (by omega)]
  refine (bind_of (i64_of (by omega))).trans ?_
  refine (bind_of (i64_of (by omega))).trans ?_
  refine (bind_of (i64_of (by omega))).trans ?_
  exact bind_of (i64_of (by omega))

/-- The day of a year that starts in March, and the month it is in. -/
theorem mp_eq (d : Date) :
    let y := marchYear d.year d.month
    let doy := (153 * ((d.month + 9) % 12) + 2) / 5 + d.day - 1
    (0 ≤ doy ∧ doy ≤ 365) ∧
      (doy = 365 → (y % 400 + 1) % 4 = 0 ∧
        ((y % 400 + 1) % 100 = 0 → (y % 400 + 1) % 400 = 0)) ∧
      (5 * doy + 2) / 153 = (d.month + 9) % 12 := by
  have hlen : d.day ≤ if d.month = 2 then if IsLeap d.year then 29 else 28
      else if d.month = 4 ∨ d.month = 6 ∨ d.month = 9 ∨ d.month = 11 then 30 else 31 :=
    d.day_mem.2
  have hd := d.day_mem.1
  obtain ⟨hm, hm'⟩ := d.month_mem
  rw [marchYear]
  generalize d.month = month at hlen hm hm' ⊢
  by_cases h2 : month = 2
  · rw [if_pos h2] at hlen
    rw [if_pos h2.le, h2]
    by_cases hleap : IsLeap d.year
    · rw [if_pos hleap] at hlen
      rw [IsLeap] at hleap
      refine ⟨by omega, by omega, by omega⟩
    · rw [if_neg hleap] at hlen
      refine ⟨by omega, by omega, by omega⟩
  · rw [if_neg h2] at hlen
    refine ⟨?_, fun hlast => ?_, ?_⟩
    · split at hlen <;> omega
    · split at hlen <;> omega
    · interval_cases month <;> omega

/-- **A day's date is found.** -/
theorem civilFromDays_number (d : Date)
    (h : -2 ^ 63 ≤ d.number - epochDay ∧ d.number - epochDay + 719468 < 2 ^ 63) :
    civilFromDays (d.number - epochDay) = some (d.year, d.month, d.day) := by
  have hm := d.month_mem
  have hd := d.day_mem
  have hvalue := days_eq d.year hm d.day
  have hfound := mp_eq d
  obtain ⟨y, hy⟩ : ∃ y, y = marchYear d.year d.month := ⟨_, rfl⟩
  have hera : y % 400 + y / 400 * 400 = y := by omega
  have hnumber : d.number - epochDay = _ := Eq.trans (by rw [Date.number, Date.dayOfYear]; omega)
    hvalue
  rw [hnumber] at h ⊢
  rw [← hy] at h hfound ⊢
  rw [civilFromDays_eq ⟨Int.emod_nonneg y (by decide), Int.emod_lt_of_pos y (by decide)⟩
    hfound.1 hfound.2.1 h.1 (by omega), hera, hfound.2.2]
  dsimp only
  have hmonth : (if (d.month + 9) % 12 < 10 then (d.month + 9) % 12 + 3
      else (d.month + 9) % 12 - 9) = d.month := by
    split <;> omega
  have hyear : (if d.month ≤ 2 then y + 1 else y) = d.year := by
    rw [hy, marchYear]
    split <;> omega
  have hday : (153 * ((d.month + 9) % 12) + 2) / 5 + d.day - 1 -
      (153 * ((d.month + 9) % 12) + 2) / 5 + 1 = d.day := by omega
  rw [hmonth, hyear, hday]

/-- The day number of a date, as the code finds it. -/
theorem daysFromCivil_number (d : Date)
    (h : -2 ^ 63 ≤ d.number - epochDay ∧ d.number - epochDay + 719468 < 2 ^ 63) :
    daysFromCivil d.year d.month d.day = some (d.number - epochDay) := by
  have hm := d.month_mem
  have hd := d.day_mem
  have hlen := (monthLength_mem d.year d.month).2
  have hvalue := days_eq d.year hm d.day
  have hnumber : d.number - epochDay =
      yearStart d.year + monthStart d.year d.month + d.day - 1 - epochDay := by
    rw [Date.number, Date.dayOfYear]
    omega
  rw [hnumber] at h ⊢
  exact daysFromCivil_eq hm (by omega) (by omega) h

/-! ### Times -/

/-- A broken-down calendar time. -/
structure Tm where
  tm_sec : BitVec 32
  tm_min : BitVec 32
  tm_hour : BitVec 32
  tm_mday : BitVec 32
  tm_mon : BitVec 32
  tm_year : BitVec 32
  tm_wday : BitVec 32
  tm_yday : BitVec 32
  tm_isdst : BitVec 32
  tm_gmtoff : BitVec 64
  tm_zone : BitVec 64
  deriving DecidableEq

/-- Split a count of seconds since the epoch into a UTC time. -/
def tmFromEpoch (seconds : BitVec 64) : Option Tm := do
  let days := seconds.toInt / 86400
  let rem := seconds.toInt % 86400
  let (year, month, day) ← civilFromDays days
  let wday := (← i64 (days + 4)) % 7
  let yday ← i64 (days - (← daysFromCivil year 1 1))
  some {
    tm_sec := .ofInt 32 (rem % 60)
    tm_min := .ofInt 32 (rem / 60 % 60)
    tm_hour := .ofInt 32 (rem / 3600)
    tm_mday := .ofInt 32 day
    tm_mon := .ofInt 32 (← i64 (month - 1))
    tm_year := .ofInt 32 (← i64 (year - 1900))
    tm_wday := .ofInt 32 wday
    tm_yday := .ofInt 32 yday
    tm_isdst := 0
    tm_gmtoff := 0
    tm_zone := 0 }

/-- The inverse, and the whole of `mktime`: fields outside their ranges are carried. -/
def epochFromTm (tm : Tm) : Option ℤ := do
  let year ← i64 (tm.tm_year.toInt + 1900)
  let month := tm.tm_mon.toInt
  let year ← i64 (year + month / 12)
  let month ← i64 (month % 12 + 1)
  let days ← daysFromCivil year month tm.tm_mday.toInt
  i64 ((← i64 ((← i64 ((← i64 (days * 86400)) + (← i64 (tm.tm_hour.toInt * 3600)))) +
    (← i64 (tm.tm_min.toInt * 60)))) + tm.tm_sec.toInt)

/-- The time a count of seconds since the epoch falls on has a year that can be told. -/
def YearFits (seconds : ℤ) : Prop :=
  ∃ d : Date, d.number - epochDay = seconds / 86400 ∧ -2 ^ 31 ≤ d.year - 1900 ∧
    d.year - 1900 < 2 ^ 31

/-- The fields are in the ranges that C gives them. -/
structure Tm.InRange (tm : Tm) : Prop where
  sec : 0 ≤ tm.tm_sec.toInt ∧ tm.tm_sec.toInt ≤ 59
  min : 0 ≤ tm.tm_min.toInt ∧ tm.tm_min.toInt ≤ 59
  hour : 0 ≤ tm.tm_hour.toInt ∧ tm.tm_hour.toInt ≤ 23
  mday : 1 ≤ tm.tm_mday.toInt ∧ tm.tm_mday.toInt ≤ 31
  mon : 0 ≤ tm.tm_mon.toInt ∧ tm.tm_mon.toInt ≤ 11
  wday : 0 ≤ tm.tm_wday.toInt ∧ tm.tm_wday.toInt ≤ 6
  yday : 0 ≤ tm.tm_yday.toInt ∧ tm.tm_yday.toInt ≤ 365
  isdst : tm.tm_isdst.toInt = 0

/-- The fields tell a day and a time of the day. -/
structure Tm.Tells (tm : Tm) (d : Date) (rem : ℤ) : Prop where
  year : tm.tm_year.toInt = d.year - 1900
  mon : tm.tm_mon.toInt = d.month - 1
  mday : tm.tm_mday.toInt = d.day
  wday : tm.tm_wday.toInt = (d.number - epochDay + 4) % 7
  yday : tm.tm_yday.toInt = d.dayOfYear
  hour : tm.tm_hour.toInt = rem / 3600
  min : tm.tm_min.toInt = rem / 60 % 60
  sec : tm.tm_sec.toInt = rem % 60
  isdst : tm.tm_isdst.toInt = 0

theorem toInt_ofInt32 {n : ℤ} (h : -2 ^ 31 ≤ n ∧ n < 2 ^ 31) : (BitVec.ofInt 32 n).toInt = n := by
  rw [BitVec.toInt_ofInt, Int.bmod_eq_of_le (by omega) (by omega)]

theorem toInt_ofInt64 {n : ℤ} (h : -2 ^ 63 ≤ n ∧ n < 2 ^ 63) : (BitVec.ofInt 64 n).toInt = n := by
  rw [BitVec.toInt_ofInt, Int.bmod_eq_of_le (by omega) (by omega)]

theorem toInt32_mem (x : BitVec 32) : -2 ^ 31 ≤ x.toInt ∧ x.toInt < 2 ^ 31 := by
  have hlow := BitVec.le_toInt x
  have hhigh := BitVec.toInt_lt (x := x)
  omega

theorem toInt64_mem (x : BitVec 64) : -2 ^ 63 ≤ x.toInt ∧ x.toInt < 2 ^ 63 := by
  have hlow := BitVec.le_toInt x
  have hhigh := BitVec.toInt_lt (x := x)
  omega

/-- The time that tells a day and a time of the day. -/
def brokenDown (d : Date) (rem : ℤ) : Tm where
  tm_sec := .ofInt 32 (rem % 60)
  tm_min := .ofInt 32 (rem / 60 % 60)
  tm_hour := .ofInt 32 (rem / 3600)
  tm_mday := .ofInt 32 d.day
  tm_mon := .ofInt 32 (d.month - 1)
  tm_year := .ofInt 32 (d.year - 1900)
  tm_wday := .ofInt 32 ((d.number - epochDay + 4) % 7)
  tm_yday := .ofInt 32 d.dayOfYear
  tm_isdst := 0
  tm_gmtoff := 0
  tm_zone := 0

theorem brokenDown_tells {d : Date} {rem : ℤ} (hrem : 0 ≤ rem ∧ rem < 86400)
    (hfits : -2 ^ 31 ≤ d.year - 1900 ∧ d.year - 1900 < 2 ^ 31) :
    (brokenDown d rem).Tells d rem := by
  have hyday := d.dayOfYear_mem
  have hmonth := d.month_mem
  have hday := d.day_mem
  have hlen := (monthLength_mem d.year d.month).2
  exact
    { year := toInt_ofInt32 hfits
      mon := toInt_ofInt32 (by omega)
      mday := toInt_ofInt32 (by omega)
      wday := toInt_ofInt32 (by omega)
      yday := toInt_ofInt32 (by omega)
      hour := toInt_ofInt32 (by omega)
      min := toInt_ofInt32 (by omega)
      sec := toInt_ofInt32 (by omega)
      isdst := rfl }

/-- **What becomes of a count of seconds**: nothing overflows. -/
theorem tmFromEpoch_eq {t : BitVec 64} {d : Date} (h : d.number - epochDay = t.toInt / 86400) :
    tmFromEpoch t = some (brokenDown d (t.toInt % 86400)) := by
  have ht := toInt64_mem t
  have hyday := d.dayOfYear_mem
  have hmonth := d.month_mem
  have hday := d.day_mem
  have hlen := (monthLength_mem d.year d.month).2
  -- the first of January
  obtain ⟨first, hfirst⟩ : ∃ first : Date, first.year = d.year ∧ first.month = 1 ∧
      first.day = 1 ∧ first.number = d.number - d.dayOfYear := by
    refine ⟨⟨d.year, 1, 1, by decide, le_refl 1, ?_⟩, rfl, rfl, rfl, ?_⟩
    · have hjan := (monthLength_mem d.year 1).1
      omega
    · rw [Date.number, Date.number, Date.dayOfYear, monthStart_one]
      dsimp only
      omega
  have hyear : -2 ^ 62 ≤ d.year ∧ d.year ≤ 2 ^ 62 := by
    have hnumber : d.number = yearStart d.year + d.dayOfYear := rfl
    rw [yearStart] at hnumber
    rw [epochDay] at h
    omega
  have hbegin := daysFromCivil_number first (by rw [hfirst.2.2.2]; omega)
  rw [hfirst.1, hfirst.2.1, hfirst.2.2.1] at hbegin
  have hback : d.number - epochDay - (first.number - epochDay) = d.dayOfYear := by
    rw [hfirst.2.2.2]
    omega
  rw [tmFromEpoch]
  dsimp only
  rw [← h]
  refine (bind_of (civilFromDays_number d (by omega))).trans ?_
  refine (bind_of (i64_of (by omega))).trans ?_
  refine (bind_of hbegin).trans ?_
  rw [hback]
  dsimp only
  refine (bind_of (i64_of (by omega))).trans ?_
  refine (bind_of (i64_of (by omega))).trans ?_
  exact bind_of (i64_of (by omega))

/-- What becomes of a time, whatever its fields are. -/
theorem epochFromTm_eq (tm : Tm) :
    let year := tm.tm_year.toInt + 1900 + tm.tm_mon.toInt / 12
    let month := tm.tm_mon.toInt % 12 + 1
    let seconds := (yearStart year + monthStart year month + tm.tm_mday.toInt - 1 - epochDay) *
      86400 + tm.tm_hour.toInt * 3600 + tm.tm_min.toInt * 60 + tm.tm_sec.toInt
    epochFromTm tm = some seconds ∧ -2 ^ 63 ≤ seconds ∧ seconds < 2 ^ 63 := by
  have hsec := toInt32_mem tm.tm_sec
  have hmin := toInt32_mem tm.tm_min
  have hhour := toInt32_mem tm.tm_hour
  have hmday := toInt32_mem tm.tm_mday
  have hmon := toInt32_mem tm.tm_mon
  have hyear := toInt32_mem tm.tm_year
  dsimp only
  rw [StarOS.Time.epochFromTm]
  generalize tm.tm_sec.toInt = sec at hsec ⊢
  generalize tm.tm_min.toInt = min at hmin ⊢
  generalize tm.tm_hour.toInt = hour at hhour ⊢
  generalize tm.tm_mday.toInt = mday at hmday ⊢
  have hmonth : 1 ≤ tm.tm_mon.toInt % 12 + 1 ∧ tm.tm_mon.toInt % 12 + 1 ≤ 12 := by omega
  have hyears : -2 ^ 32 ≤ tm.tm_year.toInt + 1900 + tm.tm_mon.toInt / 12 ∧
      tm.tm_year.toInt + 1900 + tm.tm_mon.toInt / 12 ≤ 2 ^ 32 := by omega
  have hfirst := i64_of (n := tm.tm_year.toInt + 1900) (by omega)
  have hsecond := i64_of (n := tm.tm_year.toInt + 1900 + tm.tm_mon.toInt / 12) (by omega)
  have hthird := i64_of (n := tm.tm_mon.toInt % 12 + 1) (by omega)
  have hstart := @monthStart_mem (tm.tm_year.toInt + 1900 + tm.tm_mon.toInt / 12) _ hmonth
  have hbegin : ∀ year, -2 ^ 32 ≤ year ∧ year ≤ 2 ^ 32 →
      -2 ^ 41 ≤ yearStart year ∧ yearStart year ≤ 2 ^ 41 := by
    intro year h
    rw [yearStart]
    omega
  have hbegin := hbegin _ hyears
  have hmarch : ∀ year month, -2 ^ 32 ≤ year ∧ year ≤ 2 ^ 32 →
      -2 ^ 33 ≤ marchYear year month ∧ marchYear year month ≤ 2 ^ 33 := by
    intro year month h
    rw [marchYear]
    split <;> omega
  have hmarch := hmarch _ (tm.tm_mon.toInt % 12 + 1) hyears
  have hdays := @daysFromCivil_eq (tm.tm_year.toInt + 1900 + tm.tm_mon.toInt / 12) _ mday hmonth
    (by omega) (by omega)
    (by rw [epochDay]; omega)
  have hbounds : -2 ^ 42 ≤ yearStart (tm.tm_year.toInt + 1900 + tm.tm_mon.toInt / 12) +
      monthStart (tm.tm_year.toInt + 1900 + tm.tm_mon.toInt / 12) (tm.tm_mon.toInt % 12 + 1) +
        mday - 1 - epochDay ∧
      yearStart (tm.tm_year.toInt + 1900 + tm.tm_mon.toInt / 12) +
      monthStart (tm.tm_year.toInt + 1900 + tm.tm_mon.toInt / 12) (tm.tm_mon.toInt % 12 + 1) +
        mday - 1 - epochDay ≤ 2 ^ 42 := by
    rw [epochDay]
    omega
  generalize yearStart _ + monthStart _ _ + mday - 1 - epochDay = days at hdays hbounds ⊢
  refine ⟨?_, by omega, by omega⟩
  refine (bind_of hfirst).trans ?_
  refine (bind_of hsecond).trans ?_
  refine (bind_of hthird).trans ?_
  refine (bind_of hdays).trans ?_
  refine (bind_of (i64_of (by omega))).trans ?_
  refine (bind_of (i64_of (by omega))).trans ?_
  refine (bind_of (i64_of (by omega))).trans ?_
  refine (bind_of (i64_of (by omega))).trans ?_
  refine (bind_of (i64_of (by omega))).trans ?_
  exact i64_of (by omega)

theorem Tm.Tells.inRange {tm : Tm} {d : Date} {rem : ℤ} (h : tm.Tells d rem)
    (hrem : 0 ≤ rem ∧ rem < 86400) : tm.InRange := by
  have hmonth := d.month_mem
  have hday := d.day_mem
  have hlen := (monthLength_mem d.year d.month).2
  constructor
  · rw [h.sec]
    omega
  · rw [h.min]
    omega
  · rw [h.hour]
    omega
  · rw [h.mday]
    omega
  · rw [h.mon]
    omega
  · rw [h.wday]
    omega
  · rw [h.yday]
    exact d.dayOfYear_mem
  · exact h.isdst

theorem Tm.Tells.epochFromTm {tm : Tm} {d : Date} {rem : ℤ} (h : tm.Tells d rem) :
    epochFromTm tm = some ((d.number - epochDay) * 86400 + rem) := by
  have hmonth := d.month_mem
  have heq := (epochFromTm_eq tm).1
  have hyear : d.year - 1900 + 1900 + (d.month - 1) / 12 = d.year := by omega
  have hmon : (d.month - 1) % 12 + 1 = d.month := by omega
  rw [h.year, h.mon, h.mday, h.hour, h.min, h.sec, hyear, hmon] at heq
  rw [heq, Date.number, Date.dayOfYear]
  congr 1
  omega

/-- Carry what is outside its range. -/
def normalise (tm : Tm) : Option Tm := do
  let seconds ← epochFromTm tm
  tmFromEpoch (.ofInt 64 seconds)

/-- A count of seconds is found again. -/
theorem epochFromTm_tmFromEpoch {t : BitVec 64} {d : Date}
    (h : d.number - epochDay = t.toInt / 86400)
    (hfits : -2 ^ 31 ≤ d.year - 1900 ∧ d.year - 1900 < 2 ^ 31) :
    epochFromTm (brokenDown d (t.toInt % 86400)) = some t.toInt := by
  rw [(brokenDown_tells (by omega) hfits).epochFromTm, h]
  congr 1
  omega

/-- **The calendar is exact.** Day counts and dates are inverse as long as the day count that starts
in March fits; a count of seconds whose year can be told is told in C's ranges and found again; and
whatever the fields of a time are, carrying them once is enough. -/
theorem calendar_exact :
    (∀ days : ℤ, -2 ^ 63 ≤ days → days + 719468 < 2 ^ 63 →
      ∃ d : Date, civilFromDays days = some (d.year, d.month, d.day) ∧
        daysFromCivil d.year d.month d.day = some days) ∧
    (∀ d : Date, -2 ^ 63 ≤ d.number - epochDay → d.number - epochDay + 719468 < 2 ^ 63 →
      ∃ days, daysFromCivil d.year d.month d.day = some days ∧
        civilFromDays days = some (d.year, d.month, d.day)) ∧
    (∀ t : BitVec 64, ∃ tm, tmFromEpoch t = some tm ∧ (YearFits t.toInt →
      tm.InRange ∧ epochFromTm tm = some t.toInt ∧ ∃ d : Date,
        d.number - epochDay = t.toInt / 86400 ∧ tm.Tells d (t.toInt % 86400))) ∧
    ∀ tm : Tm, ∃ seconds, epochFromTm tm = some seconds ∧
      ∃ n, normalise tm = some n ∧ (YearFits seconds → normalise n = some n) := by
  refine ⟨fun days hlow hhigh => ?_, fun d hlow hhigh => ?_, fun t => ?_, fun tm => ?_⟩
  · obtain ⟨d, hd⟩ := exists_number (days + epochDay)
    obtain rfl : days = d.number - epochDay := by omega
    exact ⟨d, civilFromDays_number d ⟨hlow, hhigh⟩, daysFromCivil_number d ⟨hlow, hhigh⟩⟩
  · exact ⟨_, daysFromCivil_number d ⟨hlow, hhigh⟩, civilFromDays_number d ⟨hlow, hhigh⟩⟩
  · obtain ⟨d, hd⟩ := exists_number (t.toInt / 86400 + epochDay)
    have hd : d.number - epochDay = t.toInt / 86400 := by omega
    refine ⟨_, tmFromEpoch_eq hd, fun hfits => ?_⟩
    obtain ⟨e, he, hfits⟩ := hfits
    obtain rfl := Date.number_injective (sub_left_injective (he.trans hd.symm))
    have htells := @brokenDown_tells _ (t.toInt % 86400) (by omega) hfits
    exact ⟨htells.inRange (by omega), epochFromTm_tmFromEpoch hd hfits, e, hd, htells⟩
  · obtain ⟨hseconds, hlow, hhigh⟩ := epochFromTm_eq tm
    obtain ⟨seconds, hdef⟩ : ∃ seconds, epochFromTm tm = some seconds := ⟨_, hseconds⟩
    obtain ⟨d, hd⟩ := exists_number ((BitVec.ofInt 64 seconds).toInt / 86400 + epochDay)
    have hd : d.number - epochDay = (BitVec.ofInt 64 seconds).toInt / 86400 := by omega
    have hback : (BitVec.ofInt 64 seconds).toInt = seconds := by
      rw [Option.some.inj (hdef.symm.trans hseconds)]
      exact toInt_ofInt64 ⟨hlow, hhigh⟩
    refine ⟨seconds, hdef, _, (bind_of hdef).trans (tmFromEpoch_eq hd), fun hfits => ?_⟩
    obtain ⟨e, he, hfits⟩ := hfits
    rw [← hback] at he
    obtain rfl := Date.number_injective (sub_left_injective (he.trans hd.symm))
    refine (bind_of (epochFromTm_tmFromEpoch hd hfits)).trans ?_
    rw [BitVec.ofInt_toInt]
    exact tmFromEpoch_eq hd

theorem calendar_exact_leap : ∃ tm, tmFromEpoch 951782400 = some tm ∧ tm.InRange ∧
    epochFromTm tm = some 951782400 := by
  obtain ⟨tm, htm, h⟩ := calendar_exact.2.2.1 951782400
  have hfits : YearFits (BitVec.toInt (951782400 : BitVec 64)) :=
    ⟨⟨2000, 2, 29, by decide, by decide⟩, by decide +kernel, by decide, by decide⟩
  obtain ⟨hrange, hback, -⟩ := h hfits
  exact ⟨tm, htm, hrange, hback⟩

/-- A date that no count of seconds reaches: its year has none in front of it. -/
theorem daysFromCivil_overflows : ¬ ∀ d : Date, -2 ^ 63 ≤ d.year → d.year < 2 ^ 63 →
    ∃ days, daysFromCivil d.year d.month d.day = some days ∧
      civilFromDays days = some (d.year, d.month, d.day) := by
  intro h
  obtain ⟨days, hdays, -⟩ := h ⟨-2 ^ 63, 1, 1, by decide, by decide⟩ (le_refl _) (by decide)
  have hnone : daysFromCivil (-2 ^ 63) 1 1 = none := by decide +kernel
  rw [hnone] at hdays
  cases hdays

end Time

end StarOS
