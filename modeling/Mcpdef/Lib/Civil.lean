import Mathlib

/-!
# The Gregorian calendar

Dates, and their days counted from the first of January 1970, before it below zero.  Days are counted through years that
start on the first of March, so that a leap day ends one, and through eras of four hundred years.  Each date has a day of
its own (`ofNumber_number`), each day a date (`number_ofNumber`), and the next day the next (`ofNumber_succ`).
-/

namespace Civil

structure Date where
  year : Int
  month : Int
  day : Int
deriving DecidableEq

def IsLeap (year : Int) : Prop := year % 4 = 0 ∧ (year % 100 ≠ 0 ∨ year % 400 = 0)

instance (year : Int) : Decidable (IsLeap year) := inferInstanceAs (Decidable (_ ∧ _))

def monthLength (year month : Int) : Int :=
  if month = 2 then if IsLeap year then 29 else 28
  else if month = 4 ∨ month = 6 ∨ month = 9 ∨ month = 11 then 30
  else 31

/-- A date that the calendar has. -/
structure Date.Valid (d : Date) : Prop where
  month_mem : 1 ≤ d.month ∧ d.month ≤ 12
  day_mem : 1 ≤ d.day ∧ d.day ≤ monthLength d.year d.month

/-- The date after one. -/
def Date.next (d : Date) : Date :=
  if d.day < monthLength d.year d.month then ⟨d.year, d.month, d.day + 1⟩
  else if d.month < 12 then ⟨d.year, d.month + 1, 1⟩
  else ⟨d.year + 1, 1, 1⟩

/-- The day of a date. -/
def Date.number (d : Date) : Int :=
  let year := if d.month ≤ 2 then d.year - 1 else d.year
  let dayOfYear := (153 * ((d.month + 9) % 12) + 2) / 5 + d.day - 1
  year / 400 * 146097 + (year % 400 * 365 + year % 400 / 4 - year % 400 / 100 + dayOfYear) - 719468

def yearOfEra (doe : Int) : Int := (doe - doe / 1460 + doe / 36524 - doe / 146096) / 365

/-- The date of a day. -/
def ofNumber (n : Int) : Date :=
  let era := (n + 719468) / 146097
  let doe := (n + 719468) % 146097
  let yoe := yearOfEra doe
  let doy := doe - (365 * yoe + yoe / 4 - yoe / 100)
  let shifted := (5 * doy + 2) / 153
  let day := doy - (153 * shifted + 2) / 5 + 1
  let month := if shifted < 10 then shifted + 3 else shifted - 9
  ⟨yoe + era * 400 + if month ≤ 2 then 1 else 0, month, day⟩

/-! ### Eras -/

def dayOfEra (yoe doy : Int) : Int := yoe * 365 + yoe / 4 - yoe / 100 + doy

/-- A year of an era, and a day of that year. -/
structure InEra (yoe doy : Int) : Prop where
  year_mem : 0 ≤ yoe ∧ yoe < 400
  day_mem : 0 ≤ doy ∧ doy ≤ 365
  leap : doy = 365 → yoe % 4 = 3 ∧ (yoe % 100 ≠ 99 ∨ yoe = 399)

/-- The year of a day, counted in centuries, in fours of years and in years. -/
theorem yearOfEra_centuries {e q r doy : Int} (he : 0 ≤ e ∧ e ≤ 3) (hq : 0 ≤ q ∧ q ≤ 24) (hr : 0 ≤ r ∧ r ≤ 3)
    (hdoy : 0 ≤ doy ∧ doy ≤ 365) (hleap : doy = 365 → r = 3 ∧ (q ≠ 24 ∨ e = 3)) :
    yearOfEra (36524 * e + 1461 * q + 365 * r + doy) = 100 * e + 4 * q + r := by
  have hquad : (36524 * e + 1461 * q + 365 * r + doy) / 1460 = 25 * e + q + (24 * e + q + 365 * r + doy) / 1460 := by
    omega
  have hcarry : (24 * e + q + 365 * r + doy) / 1460 = 0 ∧ doy ≤ 364 ∨
      (24 * e + q + 365 * r + doy) / 1460 = 1 ∧ 1 ≤ doy := by omega
  have hcentury :
      (36524 * e + 1461 * q + 365 * r + doy) / 36524 - (36524 * e + 1461 * q + 365 * r + doy) / 146096 = e := by
    -- The last day of an era is the only one past its centuries.
    have hrest : 1461 * q + 365 * r + doy < 36524 ∨ 1461 * q + 365 * r + doy = 36524 ∧ e = 3 := by omega
    rcases hrest with hrest | ⟨hrest, rfl⟩
    · have hlow : (36524 * e + 1461 * q + 365 * r + doy) / 36524 = e := by omega
      have hnone : (36524 * e + 1461 * q + 365 * r + doy) / 146096 = 0 := by omega
      omega
    · omega
  rw [yearOfEra, hquad]
  omega

theorem yearOfEra_dayOfEra {yoe doy : Int} (h : InEra yoe doy) : yearOfEra (dayOfEra yoe doy) = yoe := by
  obtain ⟨hyoe, hdoy, hleap⟩ := h
  have hyear : yearOfEra (36524 * (yoe / 100) + 1461 * (yoe % 100 / 4) + 365 * (yoe % 4) + doy) =
      100 * (yoe / 100) + 4 * (yoe % 100 / 4) + yoe % 4 :=
    yearOfEra_centuries (by omega) (by omega) (by omega) hdoy (by omega)
  have hday : dayOfEra yoe doy = 36524 * (yoe / 100) + 1461 * (yoe % 100 / 4) + 365 * (yoe % 4) + doy := by
    rw [dayOfEra]
    omega
  rw [hday, hyear]
  omega

theorem exists_inEra {doe : Int} (h : 0 ≤ doe ∧ doe < 146097) : ∃ yoe doy, InEra yoe doy ∧ doe = dayOfEra yoe doy := by
  obtain ⟨e, he⟩ : ∃ e, e = min (doe / 36524) 3 := ⟨_, rfl⟩
  obtain ⟨q, hq⟩ : ∃ q, q = min ((doe - 36524 * e) / 1461) 24 := ⟨_, rfl⟩
  obtain ⟨r, hr⟩ : ∃ r, r = min ((doe - 36524 * e - 1461 * q) / 365) 3 := ⟨_, rfl⟩
  have hcentury : 0 ≤ e ∧ e ≤ 3 ∧ 0 ≤ doe - 36524 * e ∧ doe - 36524 * e ≤ 36524 ∧
      (doe - 36524 * e = 36524 → e = 3) := by omega
  have hquad : 0 ≤ q ∧ q ≤ 24 ∧ 0 ≤ doe - 36524 * e - 1461 * q ∧ doe - 36524 * e - 1461 * q ≤ 1460 ∧
      (doe - 36524 * e - 1461 * q = 1460 → q ≤ 23 ∨ e = 3) := by omega
  have hyear : 0 ≤ r ∧ r ≤ 3 ∧ 0 ≤ doe - 36524 * e - 1461 * q - 365 * r ∧
      doe - 36524 * e - 1461 * q - 365 * r ≤ 365 ∧ (doe - 36524 * e - 1461 * q - 365 * r = 365 → r = 3) := by omega
  refine ⟨100 * e + 4 * q + r, doe - 36524 * e - 1461 * q - 365 * r, ⟨by omega, by omega, by omega⟩, ?_⟩
  have hquads : (100 * e + 4 * q + r) / 4 = 25 * e + q := by omega
  have hcenturies : (100 * e + 4 * q + r) / 100 = e := by omega
  rw [dayOfEra, hquads, hcenturies]
  omega

theorem dayOfEra_mem {yoe doy : Int} (h : InEra yoe doy) : 0 ≤ dayOfEra yoe doy ∧ dayOfEra yoe doy < 146097 := by
  obtain ⟨hyoe, hdoy, hleap⟩ := h
  rw [dayOfEra]
  omega

/-! ### Months -/

/-- The day of a year that a month starts with, counted from March. -/
def monthStart (shifted : Int) : Int := (153 * shifted + 2) / 5

/-- A month, counted from March, and a day of it, where the last month has a day more in a leap year. -/
structure InYear (shifted day : Int) : Prop where
  month_mem : 0 ≤ shifted ∧ shifted ≤ 11
  day_mem : 1 ≤ day ∧ day ≤ monthStart (shifted + 1) - monthStart shifted
  last : shifted = 11 → day ≤ 29

theorem shifted_of_inYear {shifted day : Int} (h : InYear shifted day) :
    (5 * (monthStart shifted + day - 1) + 2) / 153 = shifted := by
  obtain ⟨⟨h0, h11⟩, hday, -⟩ := h
  simp only [monthStart] at *
  omega

theorem exists_inYear {doy : Int} (h : 0 ≤ doy ∧ doy ≤ 365) :
    ∃ shifted day, InYear shifted day ∧ doy = monthStart shifted + day - 1 := by
  refine ⟨(5 * doy + 2) / 153, doy - monthStart ((5 * doy + 2) / 153) + 1, ⟨by omega, ?_, ?_⟩, by omega⟩
  · simp only [monthStart]
    omega
  · intro hlast
    rw [hlast, monthStart]
    omega

/-- What a month of the calendar is, counted from March. -/
theorem monthLength_cases {year month : Int} (h : 1 ≤ month ∧ month ≤ 12) :
    month = 2 ∧ (IsLeap year ∧ monthLength year month = 29 ∨ ¬ IsLeap year ∧ monthLength year month = 28) ∨
      month ≠ 2 ∧ monthLength year month = monthStart ((month + 9) % 12 + 1) - monthStart ((month + 9) % 12) := by
  obtain ⟨h1, h12⟩ := h
  by_cases hmonth : month = 2
  · subst hmonth
    by_cases hleap : IsLeap year
    · exact .inl ⟨rfl, .inl ⟨hleap, by rw [monthLength, if_pos rfl, if_pos hleap]⟩⟩
    · exact .inl ⟨rfl, .inr ⟨hleap, by rw [monthLength, if_pos rfl, if_neg hleap]⟩⟩
  · refine .inr ⟨hmonth, ?_⟩
    interval_cases month
    case «2» => exact absurd rfl hmonth
    all_goals rfl

/-- The year that a date's is in, counted from March. -/
def Date.marchYear (d : Date) : Int := if d.month ≤ 2 then d.year - 1 else d.year

def Date.dayOfYear (d : Date) : Int := monthStart ((d.month + 9) % 12) + d.day - 1

theorem Date.number_eq (d : Date) :
    d.number = d.marchYear / 400 * 146097 + dayOfEra (d.marchYear % 400) d.dayOfYear - 719468 := rfl

theorem inYear_of_valid {d : Date} (h : d.Valid) : InYear ((d.month + 9) % 12) d.day := by
  obtain ⟨hmonth, h1, hday⟩ := h
  rcases @monthLength_cases d.year _ hmonth with ⟨htwo, hlength⟩ | ⟨htwo, hlength⟩
  · have hlength : monthLength d.year d.month ≤ 29 := by omega
    refine ⟨by omega, ?_, fun _ => hday.trans hlength⟩
    rw [htwo]
    simp only [monthStart]
    omega
  · exact ⟨by omega, ⟨h1, hlength ▸ hday⟩, fun hlast => by omega⟩

theorem inEra_of_valid {d : Date} (h : d.Valid) : InEra (d.marchYear % 400) d.dayOfYear := by
  have hyear := inYear_of_valid h
  obtain ⟨hmonth, hday, hlast⟩ := hyear
  obtain ⟨hmonth', -, hday'⟩ := h
  have hdoy : 0 ≤ d.dayOfYear ∧ d.dayOfYear ≤ 365 ∧ (d.dayOfYear = 365 → d.month = 2 ∧ d.day = 29) := by
    rw [Date.dayOfYear]
    simp only [monthStart] at *
    omega
  refine ⟨by omega, ⟨hdoy.1, hdoy.2.1⟩, fun hend => ?_⟩
  obtain ⟨htwo, hday29⟩ := hdoy.2.2 hend
  rcases @monthLength_cases d.year _ hmonth' with ⟨-, ⟨hleap, -⟩ | ⟨-, hlength⟩⟩ | ⟨hne, -⟩
  · rw [IsLeap] at hleap
    rw [Date.marchYear, if_pos (by omega)]
    omega
  · omega
  · exact absurd htwo hne

/-! ### Dates and their days -/

/-- The date with a day of a year of an era. -/
theorem ofNumber_eq {era yoe doy shifted day : Int} (hera : InEra yoe doy) (hyear : InYear shifted day)
    (hdoy : doy = monthStart shifted + day - 1) :
    ofNumber (era * 146097 + dayOfEra yoe doy - 719468) =
      ⟨yoe + era * 400 + (if shifted < 10 then 0 else 1), if shifted < 10 then shifted + 3 else shifted - 9, day⟩ := by
  have hmem := dayOfEra_mem hera
  have hdiv : (era * 146097 + dayOfEra yoe doy - 719468 + 719468) / 146097 = era := by omega
  have hmod : (era * 146097 + dayOfEra yoe doy - 719468 + 719468) % 146097 = dayOfEra yoe doy := by omega
  have hday : dayOfEra yoe doy - (365 * yoe + yoe / 4 - yoe / 100) = doy := by
    rw [dayOfEra]
    omega
  have hshifted : (5 * doy + 2) / 153 = shifted := hdoy ▸ shifted_of_inYear hyear
  have hmonth := hyear.month_mem
  rw [ofNumber, hdiv, hmod, yearOfEra_dayOfEra hera, hday, hshifted]
  have hback : doy - (153 * shifted + 2) / 5 + 1 = day := by
    rw [hdoy, monthStart]
    omega
  rw [hback]
  split_ifs <;> first | rfl | omega

theorem ofNumber_number {d : Date} (h : d.Valid) : ofNumber d.number = d := by
  rw [Date.number_eq, ofNumber_eq (inEra_of_valid h) (inYear_of_valid h) rfl]
  obtain ⟨year, month, day⟩ := d
  have hmonth : 1 ≤ month ∧ month ≤ 12 := h.month_mem
  simp only [Date.marchYear, Date.mk.injEq, and_true]
  split_ifs <;> omega

theorem number_ofNumber (n : Int) : (ofNumber n).number = n ∧ (ofNumber n).Valid := by
  obtain ⟨yoe, doy, hera, hdoe⟩ := @exists_inEra ((n + 719468) % 146097) (by omega)
  obtain ⟨shifted, day, hyear, hdoy⟩ := exists_inYear hera.day_mem
  have hn : n = (n + 719468) / 146097 * 146097 + dayOfEra yoe doy - 719468 := by omega
  generalize (n + 719468) / 146097 = era at hn
  have hmonth := hyear.month_mem
  have hyoe := hera.year_mem
  rw [hn, ofNumber_eq hera hyear hdoy]
  -- The date's month, and its year counted from March, are those that it was made from.
  have hback : ((if shifted < 10 then shifted + 3 else shifted - 9) + 9) % 12 = shifted := by
    split_ifs <;> omega
  have hmarch : Date.marchYear ⟨yoe + era * 400 + (if shifted < 10 then 0 else 1),
      if shifted < 10 then shifted + 3 else shifted - 9, day⟩ = yoe + era * 400 := by
    simp only [Date.marchYear]
    split_ifs <;> omega
  have hdiv : (yoe + era * 400) / 400 = era := by omega
  have hmod : (yoe + era * 400) % 400 = yoe := by omega
  constructor
  · rw [Date.number_eq, hmarch, hdiv, hmod, Date.dayOfYear, hback, ← hdoy]
  · have hmonths : 1 ≤ (if shifted < 10 then shifted + 3 else shifted - 9) ∧
        (if shifted < 10 then shifted + 3 else shifted - 9) ≤ 12 := by
      split_ifs <;> omega
    refine ⟨hmonths, hyear.day_mem.1, ?_⟩
    simp only
    rcases @monthLength_cases (yoe + era * 400 + (if shifted < 10 then 0 else 1)) _ hmonths with
      ⟨htwo, ⟨-, hlength⟩ | ⟨hleap, hlength⟩⟩ | ⟨-, hlength⟩
    · rw [hlength]
      exact hyear.last (by split_ifs at htwo <;> omega)
    · rw [hlength]
      have hlast : shifted = 11 := by split_ifs at htwo <;> omega
      subst hlast
      have h29 := hyear.last rfl
      have hleapDay := hera.leap
      rw [if_neg (by decide), IsLeap] at hleap
      rw [hdoy, monthStart] at hleapDay
      omega
    · rw [hlength, hback]
      exact hyear.day_mem.2

/-! ### The next day -/

theorem Date.Valid.next {d : Date} (h : d.Valid) : d.next.Valid := by
  obtain ⟨⟨h1, h12⟩, hday1, hday⟩ := h
  have hfirst : ∀ year month : Int, 1 ≤ month ∧ month ≤ 12 → (Date.mk year month 1).Valid := by
    intro year month hmonth
    refine ⟨hmonth, le_refl _, ?_⟩
    simp only [monthLength]
    split_ifs <;> omega
  rw [Date.next]
  split_ifs with hlast hyear
  · exact ⟨⟨h1, h12⟩, by simp only; omega, by simp only; omega⟩
  · exact hfirst _ _ ⟨by omega, by omega⟩
  · exact hfirst _ _ (by decide)

/-- The days before a year that starts on the first of March. -/
theorem days_eq (year : Int) :
    year / 400 * 146097 + dayOfEra (year % 400) 0 = 365 * year + year / 4 - year / 100 + year / 400 := by
  rw [dayOfEra]
  omega

theorem Date.number_eq_days (d : Date) : d.number =
    365 * d.marchYear + d.marchYear / 4 - d.marchYear / 100 + d.marchYear / 400 + d.dayOfYear - 719468 := by
  have hdays := days_eq d.marchYear
  rw [Date.number_eq]
  simp only [dayOfEra] at *
  omega

theorem number_next {d : Date} (h : d.Valid) : d.next.number = d.number + 1 := by
  obtain ⟨year, month, day⟩ := d
  obtain ⟨⟨h1, h12⟩, hday1, hday⟩ := h
  simp only at h1 h12 hday1 hday
  have hcases := @monthLength_cases year _ ⟨h1, h12⟩
  rw [Date.next]
  simp only
  split_ifs with hlast hyear
  · rw [Date.number_eq_days, Date.number_eq_days]
    simp only [Date.marchYear, Date.dayOfYear]
    omega
  · have hend : day = monthLength year month := by omega
    rw [Date.number_eq_days, Date.number_eq_days]
    simp only [Date.marchYear, Date.dayOfYear]
    rcases hcases with ⟨rfl, hlength⟩ | ⟨htwo, hlength⟩
    · -- The first of March starts a year, and the day before it ends one, with a leap day or without.
      have hstart : monthStart ((2 + 1 + 9) % 12) = 0 ∧ monthStart ((2 + 9) % 12) = 337 := ⟨rfl, rfl⟩
      rw [hstart.1, hstart.2, if_neg (by decide), if_pos (by decide), hend]
      simp only [IsLeap] at hlength
      omega
    · have hshifted : (month + 1 + 9) % 12 = (month + 9) % 12 + 1 := by omega
      rw [hshifted, hend, hlength]
      split_ifs <;> omega
  · have hend : day = monthLength year month := by omega
    obtain rfl : month = 12 := by omega
    have hstart : monthStart ((1 + 9) % 12) = 306 ∧ monthStart ((12 + 9) % 12) = 275 := ⟨rfl, rfl⟩
    have hlength : monthLength year 12 = 31 := rfl
    rw [Date.number_eq_days, Date.number_eq_days]
    simp only [Date.marchYear, Date.dayOfYear]
    rw [hstart.1, hstart.2, if_pos (by decide), if_neg (by decide), hend, hlength]
    omega

theorem ofNumber_succ (n : Int) : ofNumber (n + 1) = (ofNumber n).next := by
  obtain ⟨hnumber, hvalid⟩ := number_ofNumber n
  have hnext := ofNumber_number hvalid.next
  rwa [number_next hvalid, hnumber] at hnext

end Civil
