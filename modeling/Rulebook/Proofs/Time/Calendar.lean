/-
  Rulebook.Proofs.Time.Calendar — dates and their numbers.

  An era of four hundred years is four centuries, a century is twenty-five spans of four
  years, and each of them has its odd day last. So a day is told by the century, span, year
  and day that it is in, and the three quotients of the reckoning take away just the odd
  days before it (`yearOfEra_of_day`). A year that is counted from March has its odd day
  last too, and its months have 153 days every five of them (`month_of_dayOfYear`).
  - `Date.ofDayNumber_dayNumber`: a date of the calendar comes back from its number.
  - `Date.exists_of_dayNumber`: every number is that of a date of the calendar.
-/

import Mathlib.Tactic.IntervalCases
import Rulebook.Time.Calendar

namespace Rulebook.Time

variable {era year : Int} {c q r d y month day : Nat}

/-! ## Years -/

def daysBefore (y : Nat) : Nat := 365 * y + y / 4 - y / 100

/-- Whether a year of an era has a day: the odd day is there in each fourth year, but not in the last of a century,
    and there in the last of the era. -/
def HasDay (y d : Nat) : Prop := d < 365 ∨ d = 365 ∧ y % 4 = 3 ∧ (y % 100 ≠ 99 ∨ y = 399)

/-- The year of a day, by the century, the span of four years and the year that it is in. -/
theorem yearOfEra_of_day (hc : c < 4) (hq : q < 25) (hr : r < 4)
    (hd : d < 365 ∨ d = 365 ∧ r = 3 ∧ (q < 24 ∨ c = 3)) :
    let day := 36524 * c + 1461 * q + 365 * r + d
    (day - day / 1460 + day / 36524 - day / 146096) / 365 = 100 * c + 4 * q + r := by
  intro day
  have hcentury : day / 36524 = c + day / 146096 := by
    by_cases hlast : c = 3 ∧ q = 24 ∧ r = 3 ∧ d = 365
    · obtain ⟨rfl, rfl, rfl, rfl⟩ := hlast
      decide
    · rw [Nat.div_eq_of_lt_le (k := c) (by omega) (by omega), Nat.div_eq_of_lt (by omega), Nat.add_zero]
  have hspans : day / 1460 = 25 * c + q + (24 * c + q + 365 * r + d) / 1460 := by omega
  have hodd : (24 * c + q + 365 * r + d) / 1460 ≤ d ∧ d - (24 * c + q + 365 * r + d) / 1460 < 365 := by omega
  have hwhole : day - day / 1460 + day / 36524 - day / 146096 =
      365 * (100 * c + 4 * q + r) + (d - (24 * c + q + 365 * r + d) / 1460) := by
    rw [hcentury, hspans]
    omega
  rw [hwhole, Nat.mul_add_div (by decide), Nat.div_eq_of_lt hodd.2, Nat.add_zero]

theorem daysBefore_eq (hq : q < 25) (hr : r < 4) :
    daysBefore (100 * c + 4 * q + r) = 36524 * c + 1461 * q + 365 * r := by
  have hfour : (100 * c + 4 * q + r) / 4 = 25 * c + q := by omega
  have hcentury : (100 * c + 4 * q + r) / 100 = c := by omega
  rw [daysBefore, hfour, hcentury]
  omega

theorem yearOfEra_daysBefore (hy : y < 400) (hd : HasDay y d) :
    let day := daysBefore y + d
    (day - day / 1460 + day / 36524 - day / 146096) / 365 = y := by
  have hyear : 100 * (y / 100) + 4 * (y % 100 / 4) + y % 4 = y := by omega
  have hd' : d < 365 ∨ d = 365 ∧ y % 4 = 3 ∧ (y % 100 / 4 < 24 ∨ y / 100 = 3) := by
    unfold HasDay at hd
    omega
  have hsplit := daysBefore_eq (c := y / 100) (q := y % 100 / 4) (r := y % 4) (by omega) (by omega)
  rw [hyear] at hsplit
  rw [hsplit]
  exact (yearOfEra_of_day (by omega) (by omega) (by omega) hd').trans hyear

theorem daysBefore_add_lt (hy : y < 400) (hd : HasDay y d) : daysBefore y + d < 146097 := by
  unfold HasDay at hd
  rw [daysBefore]
  omega

/-- Each day of an era is one of a year, and of one that has it. -/
theorem exists_yearOfEra {n : Nat} (h : n < 146097) : ∃ y d, y < 400 ∧ HasDay y d ∧ daysBefore y + d = n := by
  by_cases hlast : n = 146096
  · subst hlast
    exact ⟨399, 365, by decide, Or.inr ⟨rfl, rfl, Or.inr rfl⟩, by decide⟩
  · obtain ⟨c, q, d, hc, hq, hd, rfl⟩ : ∃ c q d, c < 4 ∧ q < 25 ∧ (d < 1460 ∨ d = 1460 ∧ q ≠ 24) ∧
        36524 * c + 1461 * q + d = n :=
      ⟨n / 36524, n % 36524 / 1461, n % 36524 % 1461, by omega, by omega, by omega, by omega⟩
    by_cases hodd : d = 1460
    · refine ⟨100 * c + 4 * q + 3, 365, by omega, Or.inr ⟨rfl, by omega, by omega⟩, ?_⟩
      rw [daysBefore_eq hq (by decide), hodd]
    · refine ⟨100 * c + 4 * q + d / 365, d % 365, by omega, Or.inl (Nat.mod_lt _ (by decide)), ?_⟩
      rw [daysBefore_eq hq (by omega)]
      omega

/-! ## Months -/

/-- The days of a year, counted from March, before a date. -/
def dayOfYear (month day : Nat) : Nat := (153 * ((month + 9) % 12) + 2) / 5 + day - 1

theorem dayOfYear_eq (hday : 1 ≤ day) : dayOfYear month day = (153 * ((month + 9) % 12) + 2) / 5 + (day - 1) :=
  Nat.add_sub_assoc hday _

theorem le_daysInMonth_iff : day ≤ daysInMonth year month ↔
    day ≤ 31 ∧ (month = 4 ∨ month = 6 ∨ month = 9 ∨ month = 11 → day ≤ 30) ∧
      (month = 2 → day ≤ 29 ∧ (day = 29 → isLeapYear year = true)) := by
  unfold daysInMonth
  split_ifs with hfeb hleap hthirty
  · simp only [hleap, implies_true, and_true]
    omega
  · simp only [hleap, Bool.false_eq_true, imp_false]
    omega
  · omega
  · omega

theorem month_of_dayOfYear (hm : 1 ≤ month ∧ month ≤ 12) (hday : 1 ≤ day) (hlast : day ≤ daysInMonth year month) :
    (5 * dayOfYear month day + 2) / 153 = (month + 9) % 12 := by
  obtain ⟨hmost, hthirty, hfeb⟩ := le_daysInMonth_iff.mp hlast
  replace hfeb := fun h => (hfeb h).1
  clear hlast
  obtain ⟨hfirst, htwelve⟩ := hm
  rw [dayOfYear_eq hday]
  interval_cases month <;> omega

/-! ## Dates of an era -/

def Date.inEra (era : Int) (y month day : Nat) : Date :=
  ⟨400 * era + y + (if month ≤ 2 then 1 else 0), month, day⟩

theorem Date.exists_inEra (date : Date) : ∃ era y, y < 400 ∧ date = Date.inEra era y date.month date.day := by
  obtain ⟨year, month, day⟩ := date
  refine ⟨(year - if month ≤ 2 then 1 else 0) / 400, ((year - if month ≤ 2 then 1 else 0) % 400).toNat, by omega, ?_⟩
  simp only [inEra, Date.mk.injEq, and_self, and_true]
  omega

theorem Date.isValid_iff : (Date.mk year month day).isValid = true ↔
    (1 ≤ month ∧ month ≤ 12) ∧ 1 ≤ day ∧ day ≤ daysInMonth year month := by
  simp only [isValid, Bool.and_eq_true, decide_eq_true_eq, and_assoc]

/-- The year after a year of an era is a leap year if that year ends with a leap day. -/
theorem isLeapYear_succ_iff (hy : y < 400) :
    isLeapYear (400 * era + y + 1) = true ↔ y % 4 = 3 ∧ (y % 100 ≠ 99 ∨ y = 399) := by
  simp only [isLeapYear, Bool.and_eq_true, Bool.or_eq_true, beq_iff_eq, bne_iff_ne]
  omega

/-- The days of its months are days that a year has. -/
theorem hasDay_of_isValid (hy : y < 400) (h : (Date.inEra era y month day).isValid = true) :
    HasDay y (dayOfYear month day) := by
  obtain ⟨hm, hday, hlast⟩ := Date.isValid_iff.mp h
  obtain ⟨hmost, -, hfeb⟩ := le_daysInMonth_iff.mp hlast
  rw [dayOfYear_eq hday]
  by_cases hleap : month = 2 ∧ day = 29
  · obtain ⟨rfl, rfl⟩ := hleap
    exact Or.inr ⟨rfl, (isLeapYear_succ_iff hy).mp ((hfeb rfl).2 rfl)⟩
  · have hbound : month = 2 → day ≤ 29 := fun h => (hfeb h).1
    refine Or.inl ?_
    omega

/-- Each day that a year has is one of its months. -/
theorem exists_isValid (era : Int) (hy : y < 400) (hd : HasDay y d) :
    ∃ month day, (Date.inEra era y month day).isValid = true ∧ dayOfYear month day = d := by
  unfold Date.inEra
  simp only [Date.isValid_iff]
  by_cases hleap : d = 365
  · subst hleap
    have hlast : y % 4 = 3 ∧ (y % 100 ≠ 99 ∨ y = 399) := by
      unfold HasDay at hd
      omega
    refine ⟨2, 29, ⟨by decide, by decide, le_daysInMonth_iff.mpr ⟨by decide, by decide, fun _ => ⟨by decide, ?_⟩⟩⟩, rfl⟩
    exact fun _ => (isLeapYear_succ_iff hy).mpr hlast
  · have hlt : d < 365 := by
      unfold HasDay at hd
      omega
    obtain ⟨m, hm⟩ : ∃ m, m = (5 * d + 2) / 153 := ⟨_, rfl⟩
    have htwelve : m < 12 := by omega
    have hmarch : ((m + 2) % 12 + 1 + 9) % 12 = m := by omega
    have hback : (153 * m + 2) / 5 ≤ d := by omega
    refine ⟨(m + 2) % 12 + 1, d - (153 * m + 2) / 5 + 1, ⟨by omega, by omega, le_daysInMonth_iff.mpr ?_⟩, ?_⟩
    · clear hmarch hback hd hy
      interval_cases m <;> omega
    · rw [dayOfYear, hmarch]
      omega

theorem Date.dayNumber_inEra (hy : y < 400) (hday : 1 ≤ day) :
    (Date.inEra era y month day).dayNumber = 146097 * era + (daysBefore y + dayOfYear month day : Nat) - 719468 := by
  simp only [inEra, dayNumber, daysBefore, dayOfYear_eq hday]
  omega

theorem Date.ofDayNumber_inEra (hy : y < 400) (h : (Date.inEra era y month day).isValid = true) :
    Date.ofDayNumber (146097 * era + (daysBefore y + dayOfYear month day : Nat) - 719468) =
      Date.inEra era y month day := by
  have hd := hasDay_of_isValid hy h
  have hlt := daysBefore_add_lt hy hd
  obtain ⟨hm, hday, hlast⟩ := isValid_iff.mp h
  have hera : (146097 * era + (daysBefore y + dayOfYear month day : Nat)) / 146097 = era := by omega
  have hdayOfEra : ((146097 * era + (daysBefore y + dayOfYear month day : Nat)) % 146097).toNat =
      daysBefore y + dayOfYear month day := by omega
  have hrest : daysBefore y + dayOfYear month day - (365 * y + y / 4 - y / 100) = dayOfYear month day :=
    Nat.add_sub_cancel_left _ _
  have hback : (if (month + 9) % 12 < 10 then (month + 9) % 12 + 3 else (month + 9) % 12 - 9) = month := by
    split_ifs <;> omega
  have hfirst : dayOfYear month day - (153 * ((month + 9) % 12) + 2) / 5 + 1 = day := by
    rw [dayOfYear_eq hday, Nat.add_sub_cancel_left, Nat.sub_add_cancel hday]
  have hyear : (if month ≤ 2 then y + era * 400 + 1 else y + era * 400) =
      400 * era + y + if month ≤ 2 then 1 else 0 := by
    split_ifs <;> omega
  simp only [ofDayNumber, Int.sub_add_cancel, hera, hdayOfEra, yearOfEra_daysBefore hy hd, hrest,
    month_of_dayOfYear hm hday hlast, hback, hfirst, hyear, inEra]

/-! ## All dates -/

/-- A date of the calendar comes back from its number. -/
theorem Date.ofDayNumber_dayNumber {date : Date} (h : date.isValid = true) :
    Date.ofDayNumber date.dayNumber = date := by
  obtain ⟨era, y, hy, hdate⟩ := date.exists_inEra
  rw [hdate] at h ⊢
  rw [Date.dayNumber_inEra hy (isValid_iff.mp h).2.1, Date.ofDayNumber_inEra hy h]

/-- Every number is that of a date of the calendar. -/
theorem Date.exists_of_dayNumber (n : Int) : ∃ date : Date, date.isValid = true ∧ date.dayNumber = n := by
  obtain ⟨y, d, hy, hd, hsum⟩ := exists_yearOfEra (n := ((n + 719468) % 146097).toNat) (by omega)
  obtain ⟨month, day, hvalid, rfl⟩ := exists_isValid ((n + 719468) / 146097) hy hd
  refine ⟨_, hvalid, ?_⟩
  rw [Date.dayNumber_inEra hy (isValid_iff.mp hvalid).2.1, hsum]
  omega

theorem Date.isValid_ofDayNumber (n : Int) : (Date.ofDayNumber n).isValid = true := by
  obtain ⟨date, hvalid, rfl⟩ := Date.exists_of_dayNumber n
  rwa [Date.ofDayNumber_dayNumber hvalid]

theorem Date.dayNumber_ofDayNumber (n : Int) : (Date.ofDayNumber n).dayNumber = n := by
  obtain ⟨date, hvalid, rfl⟩ := Date.exists_of_dayNumber n
  rw [Date.ofDayNumber_dayNumber hvalid]

end Rulebook.Time
