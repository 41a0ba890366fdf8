import Mcpdef.Audit.Export
import Mcpdef.Lib.Civil
import Mcpdef.Lib.Fallible

/-!
# The time of a record, printed

The date and the time of day that an export prints are those of the record's milliseconds, and no step of computing them
overflows (`rfc3339Utc_exact`).
-/

namespace Mcpdef.Audit

open Civil Fallible

/-! ### Checked integers -/

/-- A result that a signed integer of 64 bits does not hold. -/
structure Overflow
deriving DecidableEq

def checked (x : Int) : Except Overflow Int := if -2 ^ 63 ≤ x ∧ x < 2 ^ 63 then .ok x else .error {}

theorem checked_of_mem {x : Int} (h : -2 ^ 63 ≤ x ∧ x < 2 ^ 63) : checked x = .ok x := if_pos h

/-- The fields of a date and a time of day. -/
structure CivilTime where
  date : Date
  hour : Int
  minute : Int
  second : Int
  millis : Nat
deriving DecidableEq

/-- The date of a day, each step checked. -/
def civilDate (days : Int) : Except Overflow Date := do
  let z ← checked (days + 719468)
  let era ← checked (z / 146097)
  let doe ← checked (z % 146097)
  let part ← checked (doe - doe.tdiv 1460)
  let part ← checked (part + doe.tdiv 36524)
  let part ← checked (part - doe.tdiv 146096)
  let yoe ← checked (part.tdiv 365)
  let eras ← checked (era * 400)
  let year ← checked (yoe + eras)
  let before ← checked (365 * yoe)
  let before ← checked (before + yoe.tdiv 4)
  let before ← checked (before - yoe.tdiv 100)
  let doy ← checked (doe - before)
  let fifths ← checked (5 * doy)
  let fifths ← checked (fifths + 2)
  let mp ← checked (fifths.tdiv 153)
  let start ← checked (153 * mp)
  let start ← checked (start + 2)
  let day ← checked (doy - start.tdiv 5)
  let day ← checked (day + 1)
  let month ← checked (if mp < 10 then mp + 3 else mp - 9)
  let year ← checked (if month ≤ 2 then year + 1 else year)
  return ⟨year, month, day⟩

/-- A count of milliseconds as a date and a time of day, each step checked. -/
def civilTime (tsUnixMs : UInt64) : Except Overflow CivilTime := do
  let secs := ((tsUnixMs.toNat / 1000 : Nat) : Int).bmod (2 ^ 64)
  let days ← checked (secs / 86400)
  let rem ← checked (secs % 86400)
  let date ← civilDate days
  return ⟨date, rem.tdiv 3600, (rem.tmod 3600).tdiv 60, rem.tmod 60, tsUnixMs.toNat % 1000⟩

/-- A date and a time of day as they are printed. -/
def CivilTime.text (t : CivilTime) : List Char :=
  padded 4 t.date.year.toNat ++ '-' :: padded 2 t.date.month.toNat ++ '-' :: padded 2 t.date.day.toNat ++
    'T' :: padded 2 t.hour.toNat ++ ':' :: padded 2 t.minute.toNat ++ ':' :: padded 2 t.second.toNat ++
    '.' :: padded 3 t.millis ++ ['Z']

/-- The milliseconds of a date and a time of day. -/
def CivilTime.unixMs (t : CivilTime) : Int :=
  (t.date.number * 86400 + t.hour * 3600 + t.minute * 60 + t.second) * 1000 + t.millis

/-- A date that the calendar has, from 1970 on, and a time of day. -/
structure CivilTime.Valid (t : CivilTime) : Prop where
  date : t.date.Valid
  year_le : 1970 ≤ t.date.year
  hour_mem : 0 ≤ t.hour ∧ t.hour < 24
  minute_mem : 0 ≤ t.minute ∧ t.minute < 60
  second_mem : 0 ≤ t.second ∧ t.second < 60
  millis_lt : t.millis < 1000

theorem checked_eq {x y : Int} (h : x = y) (hy : -2 ^ 63 ≤ y ∧ y < 2 ^ 63) : checked x = .ok y := by
  rw [h, checked_of_mem hy]

/-- No step overflows. -/
theorem civilDate_eq {days : Int} (h : 0 ≤ days ∧ days < 1000000000000) : civilDate days = .ok (ofNumber days) := by
  obtain ⟨yoe, doy, hera, hdoe⟩ := @exists_inEra ((days + 719468) % 146097) (by omega)
  obtain ⟨shifted, day, hyear, hdoy⟩ := exists_inYear hera.day_mem
  obtain ⟨era, hera'⟩ : ∃ era : Int, era = (days + 719468) / 146097 := ⟨_, rfl⟩
  have hday : days = era * 146097 + dayOfEra yoe doy - 719468 := by omega
  have hyoe := hera.year_mem
  have hdoy' := hera.day_mem
  have hmonth := hyear.month_mem
  have hdayOfEra := dayOfEra_mem hera
  have hyearOfEra := yearOfEra_dayOfEra hera
  have htdiv : ∀ {a b : Int}, 0 ≤ a → a.tdiv b = a / b := fun h => Int.tdiv_eq_ediv_of_nonneg h
  have hdate := @ofNumber_eq era _ _ _ _ hera hyear hdoy
  rw [← hday] at hdate
  rw [hdate, civilDate]
  refine bind_eq_ok.mpr ⟨days + 719468, checked_eq rfl (by omega), ?_⟩
  refine bind_eq_ok.mpr ⟨era, checked_eq hera'.symm (by omega), ?_⟩
  refine bind_eq_ok.mpr ⟨dayOfEra yoe doy, checked_eq hdoe (by omega), ?_⟩
  rw [htdiv hdayOfEra.1, htdiv hdayOfEra.1, htdiv hdayOfEra.1]
  refine bind_eq_ok.mpr ⟨_, checked_eq rfl (by omega), ?_⟩
  refine bind_eq_ok.mpr ⟨_, checked_eq rfl (by omega), ?_⟩
  refine bind_eq_ok.mpr ⟨_, checked_eq rfl (by omega), ?_⟩
  refine bind_eq_ok.mpr ⟨yoe, checked_eq ((htdiv (by omega)).trans hyearOfEra) (by omega), ?_⟩
  rw [htdiv hyoe.1, htdiv hyoe.1]
  refine bind_eq_ok.mpr ⟨_, checked_eq rfl (by omega), ?_⟩
  refine bind_eq_ok.mpr ⟨_, checked_eq rfl (by omega), ?_⟩
  refine bind_eq_ok.mpr ⟨_, checked_eq rfl (by omega), ?_⟩
  refine bind_eq_ok.mpr ⟨_, checked_eq rfl (by omega), ?_⟩
  refine bind_eq_ok.mpr ⟨_, checked_eq rfl (by omega), ?_⟩
  have hrest : dayOfEra yoe doy - (365 * yoe + yoe / 4 - yoe / 100) = doy := by
    rw [dayOfEra]
    omega
  refine bind_eq_ok.mpr ⟨doy, checked_eq hrest (by omega), ?_⟩
  refine bind_eq_ok.mpr ⟨_, checked_eq rfl (by omega), ?_⟩
  refine bind_eq_ok.mpr ⟨_, checked_eq rfl (by omega), ?_⟩
  have hshifted : (5 * doy + 2).tdiv 153 = shifted := by
    rw [htdiv (by omega), hdoy]
    exact shifted_of_inYear hyear
  refine bind_eq_ok.mpr ⟨shifted, checked_eq hshifted (by omega), ?_⟩
  refine bind_eq_ok.mpr ⟨_, checked_eq rfl (by omega), ?_⟩
  refine bind_eq_ok.mpr ⟨_, checked_eq rfl (by omega), ?_⟩
  have hback : doy - (153 * shifted + 2).tdiv 5 = day - 1 := by
    rw [htdiv (by omega), hdoy, monthStart]
    omega
  have hday' : 1 ≤ day ∧ day ≤ 366 := by
    have := hyear.day_mem
    simp only [monthStart] at hdoy
    omega
  refine bind_eq_ok.mpr ⟨day - 1, checked_eq hback (by omega), ?_⟩
  refine bind_eq_ok.mpr ⟨day, checked_eq (by omega) (by omega), ?_⟩
  refine bind_eq_ok.mpr ⟨_, checked_eq rfl (by split_ifs <;> omega), ?_⟩
  refine bind_eq_ok.mpr ⟨yoe + era * 400 + (if shifted < 10 then 0 else 1),
    checked_eq (by split_ifs <;> omega) (by split_ifs <;> omega), ?_⟩
  rfl

/-- The date and the time of day of a count of milliseconds. -/
theorem civilTime_eq (tsUnixMs : UInt64) : civilTime tsUnixMs = .ok
    { date := ofNumber ((tsUnixMs.toNat / 1000 / 86400 : Nat) : Int)
      hour := ((tsUnixMs.toNat / 1000 % 86400 / 3600 : Nat) : Int)
      minute := ((tsUnixMs.toNat / 1000 % 86400 % 3600 / 60 : Nat) : Int)
      second := ((tsUnixMs.toNat / 1000 % 86400 % 60 : Nat) : Int)
      millis := tsUnixMs.toNat % 1000 } := by
  have hts : tsUnixMs.toNat / 1000 < 18446744073709552 := by
    have := tsUnixMs.toNat_lt
    omega
  rw [civilTime]
  generalize tsUnixMs.toNat / 1000 = secs at hts
  have hcast : (secs : Int).bmod (2 ^ 64) = (secs : Int) := Int.bmod_eq_of_le (by omega) (by omega)
  have hdays : ((secs : Int) / 86400) = ((secs / 86400 : Nat) : Int) := by omega
  have hrem : ((secs : Int) % 86400) = ((secs % 86400 : Nat) : Int) := by omega
  simp only [hcast]
  refine bind_eq_ok.mpr ⟨_, checked_eq hdays (by omega), ?_⟩
  refine bind_eq_ok.mpr ⟨_, checked_eq hrem (by omega), ?_⟩
  refine bind_eq_ok.mpr ⟨_, civilDate_eq (by omega), ?_⟩
  rfl

/-! ### The text -/

/-- The date of a day from 1970 on, computed without signs. -/
theorem toNat_ofNumber (days : Nat) :
    let doe := (days + 719468) % 146097
    let yoe := (doe - doe / 1460 + doe / 36524 - doe / 146096) / 365
    let doy := doe - (365 * yoe + yoe / 4 - yoe / 100)
    let mp := (5 * doy + 2) / 153
    let month := if mp < 10 then mp + 3 else mp - 9
    let year := yoe + (days + 719468) / 146097 * 400
    (ofNumber days).year.toNat = (if month ≤ 2 then year + 1 else year) ∧ (ofNumber days).month.toNat = month ∧
      (ofNumber days).day.toNat = doy - (153 * mp + 2) / 5 + 1 := by
  obtain ⟨yoe, doy, hera, hdoe⟩ := @exists_inEra (((days : Int) + 719468) % 146097) (by omega)
  obtain ⟨shifted, day, hyear, hdoy⟩ := exists_inYear hera.day_mem
  obtain ⟨era, hera'⟩ : ∃ era : Int, era = ((days : Int) + 719468) / 146097 := ⟨_, rfl⟩
  have hyearOfEra := yearOfEra_dayOfEra hera
  have hshifted := shifted_of_inYear hyear
  have hdays : (days : Int) = era * 146097 + dayOfEra yoe doy - 719468 := by omega
  have hdate := @ofNumber_eq era _ _ _ _ hera hyear hdoy
  rw [← hdays] at hdate
  lift yoe to Nat using hera.year_mem.1
  lift doy to Nat using hera.day_mem.1
  lift shifted to Nat using hyear.month_mem.1
  have hdoeNat : (days + 719468) % 146097 = (dayOfEra yoe doy).toNat := by omega
  have heraNat : (days + 719468) / 146097 = era.toNat := by omega
  have hmem := dayOfEra_mem hera
  rw [hdate, hdoeNat, heraNat]
  lift dayOfEra yoe doy to Nat using hmem.1 with doe hdoe'
  rw [Int.toNat_natCast]
  have hyoe : (doe - doe / 1460 + doe / 36524 - doe / 146096) / 365 = yoe := by
    rw [yearOfEra] at hyearOfEra
    omega
  have hdoyNat : doe - (365 * yoe + yoe / 4 - yoe / 100) = doy := by
    rw [dayOfEra] at hdoe'
    omega
  have hmp : (5 * doy + 2) / 153 = shifted := by
    rw [← hdoy] at hshifted
    omega
  have hmonths := hyear.month_mem
  have hday := hyear.day_mem
  rw [hyoe, hdoyNat, hmp]
  simp only [monthStart] at hdoy
  refine ⟨?_, ?_, by omega⟩
  · split_ifs <;> omega
  · split_ifs <;> omega

/-- Days from the epoch on are of years from 1970 on. -/
theorem year_of_number {d : Date} (h : d.Valid) (hnumber : 0 ≤ d.number) : 1970 ≤ d.year := by
  have hdays := d.number_eq_days
  have hdoy := (inEra_of_valid h).day_mem
  have hday := (inYear_of_valid h).day_mem
  have hmonth := h.month_mem
  by_contra hearly
  by_cases hmarch : d.month ≤ 2
  · rw [Date.marchYear, if_pos hmarch] at hdays
    omega
  · have hend : d.dayOfYear ≤ 305 := by
      have hshifted : (d.month + 9) % 12 = d.month - 3 := by omega
      rw [Date.dayOfYear]
      rw [hshifted] at hday ⊢
      simp only [monthStart] at *
      omega
    rw [Date.marchYear, if_neg hmarch] at hdays
    omega

/-- What is printed is the text of the date and the time of day. -/
theorem rfc3339Utc_eq {tsUnixMs : UInt64} {t : CivilTime} (h : civilTime tsUnixMs = .ok t) : rfc3339Utc tsUnixMs = t.text := by
  rw [civilTime_eq] at h
  cases h
  obtain ⟨hyear, hmonth, hday⟩ := toNat_ofNumber (tsUnixMs.toNat / 1000 / 86400)
  rw [CivilTime.text, hyear, hmonth, hday]
  rfl

theorem valid_of_civilTime {tsUnixMs : UInt64} {t : CivilTime} (h : civilTime tsUnixMs = .ok t) :
    t.Valid ∧ t.unixMs = tsUnixMs.toNat := by
  rw [civilTime_eq] at h
  cases h
  obtain ⟨hnumber, hvalid⟩ := number_ofNumber ((tsUnixMs.toNat / 1000 / 86400 : Nat) : Int)
  refine ⟨⟨hvalid, ?_, by simp only; omega, by simp only; omega, by simp only; omega, by simp only; omega⟩, ?_⟩
  · exact year_of_number hvalid (hnumber.symm ▸ Int.natCast_nonneg _)
  · rw [CivilTime.unixMs, hnumber]
    simp only
    omega

/-- For every count of milliseconds no step overflows, what is printed is a date and a time of day that the calendar has,
and these are of as many milliseconds. -/
theorem rfc3339Utc_exact (tsUnixMs : UInt64) : ∃ t : CivilTime, civilTime tsUnixMs = .ok t ∧ t.Valid ∧
    rfc3339Utc tsUnixMs = t.text ∧ t.unixMs = tsUnixMs.toNat := by
  have h := civilTime_eq tsUnixMs
  obtain ⟨hvalid, hms⟩ := valid_of_civilTime h
  exact ⟨_, h, hvalid, rfc3339Utc_eq h, hms⟩

end Mcpdef.Audit
