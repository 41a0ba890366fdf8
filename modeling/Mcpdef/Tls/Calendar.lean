import Mcpdef.Audit.Export
import Mcpdef.Lib.Civil
import Mcpdef.Tls.Times

/-!
# The calendar of certificates

The two conversions of dates are each other's inverse (`civilFromDays_daysFromCivil`, `daysFromCivil_civilFromDays`), and
a time that a certificate holds is read if it is a valid one (`utcTime_eq_some`, `generalizedTime_eq_some`) and printed as
it was spelled (`rfc3339_epochSeconds`).
-/

namespace Mcpdef.Tls

open Audit ByteText Civil

/-! ### As it is printed -/

/-- The date of a day. -/
def civilFromDays (days : Int) : Int × Int × Int :=
  let days := days + 719468
  let era := days / 146097
  let dayOfEra := days % 146097
  let yearOfEra := (dayOfEra - dayOfEra / 1460 + dayOfEra / 36524 - dayOfEra / 146096) / 365
  let dayOfYear := dayOfEra - (365 * yearOfEra + yearOfEra / 4 - yearOfEra / 100)
  let shifted := (5 * dayOfYear + 2) / 153
  let day := dayOfYear - (153 * shifted + 2) / 5 + 1
  let month := if shifted < 10 then shifted + 3 else shifted - 9
  let year := yearOfEra + era * 400 + if month ≤ 2 then 1 else 0
  (year, month, day)

/-- An integer with zeros before its digits, up to a width that its sign is part of. -/
def paddedInt (width : Nat) (n : Int) : List Char :=
  if n < 0 then '-' :: Audit.padded (width - 1) n.natAbs else Audit.padded width n.natAbs

/-- A time in seconds as a date and time of day. -/
def rfc3339 (secs : Int) : List Char :=
  let days := secs / 86400
  let secs := secs % 86400
  let (year, month, day) := civilFromDays days
  paddedInt 4 year ++ '-' :: paddedInt 2 month ++ '-' :: paddedInt 2 day ++ 'T' :: paddedInt 2 (secs / 3600) ++
    ':' :: paddedInt 2 (secs / 60 % 60) ++ ':' :: paddedInt 2 (secs % 60) ++ ['Z']

/-! ### Dates -/

/-- A date that a certificate can hold or that is printed, of any year. -/
def ValidDate (year month day : Int) : Prop := (1 ≤ month ∧ month ≤ 12) ∧ 1 ≤ day ∧ day ≤ daysInMonth year month

/-- The date after one. -/
def nextDate (year month day : Int) : Int × Int × Int :=
  if day < daysInMonth year month then (year, month, day + 1)
  else if month < 12 then (year, month + 1, 1)
  else (year + 1, 1, 1)

theorem daysInMonth_eq_monthLength (year month : Int) : daysInMonth year month = monthLength year month := rfl

theorem validDate_iff {year month day : Int} : ValidDate year month day ↔ (Date.mk year month day).Valid :=
  ⟨fun h => ⟨h.1, h.2⟩, fun h => ⟨h.month_mem, h.day_mem⟩⟩

theorem daysFromCivil_eq_number (year month day : Int) : daysFromCivil year month day = (Date.mk year month day).number := rfl

theorem civilFromDays_eq_ofNumber (days : Int) :
    civilFromDays days = ((ofNumber days).year, (ofNumber days).month, (ofNumber days).day) := rfl

theorem nextDate_eq_next (year month day : Int) : nextDate year month day =
    ((Date.mk year month day).next.year, (Date.mk year month day).next.month, (Date.mk year month day).next.day) := by
  rw [nextDate, Date.next, daysInMonth_eq_monthLength]
  split_ifs <;> rfl

theorem civilFromDays_daysFromCivil {year month day : Int} (h : ValidDate year month day) :
    civilFromDays (daysFromCivil year month day) = (year, month, day) := by
  rw [civilFromDays_eq_ofNumber, daysFromCivil_eq_number, ofNumber_number (validDate_iff.mp h)]

theorem daysFromCivil_civilFromDays {days year month day : Int} (h : civilFromDays days = (year, month, day)) :
    daysFromCivil year month day = days ∧ ValidDate year month day := by
  rw [civilFromDays_eq_ofNumber] at h
  cases h
  exact ⟨(number_ofNumber days).1, validDate_iff.mpr (number_ofNumber days).2⟩

theorem civilFromDays_succ {days year month day : Int} (h : civilFromDays days = (year, month, day)) :
    civilFromDays (days + 1) = nextDate year month day := by
  rw [civilFromDays_eq_ofNumber] at h
  cases h
  rw [civilFromDays_eq_ofNumber, ofNumber_succ, nextDate_eq_next]

theorem daysFromCivil_nextDate {year month day year' month' day' : Int} (h : ValidDate year month day)
    (hnext : nextDate year month day = (year', month', day')) :
    daysFromCivil year' month' day' = daysFromCivil year month day + 1 := by
  rw [nextDate_eq_next] at hnext
  cases hnext
  rw [daysFromCivil_eq_number, daysFromCivil_eq_number]
  exact number_next (validDate_iff.mp h)

/-! ### What is read -/

theorem exists_digitByte {b : UInt8} (h : 48 ≤ b ∧ b ≤ 57) : ∃ d < 10, b = digitByte d := by
  have hlow : 48 ≤ b.toNat := UInt8.le_iff_toNat_le.mp h.1
  have hhigh : b.toNat ≤ 57 := UInt8.le_iff_toNat_le.mp h.2
  refine ⟨b.toNat - 48, by omega, ?_⟩
  rw [digitByte, Nat.add_sub_cancel' hlow, UInt8.ofNat_toNat]

theorem isDigit_of_number {bs : Bytes} {v : Int} (h : number bs = some v) : ∀ b ∈ bs, 48 ≤ b ∧ b ≤ 57 := by
  rw [number] at h
  generalize (0 : Int) = n at h
  induction bs generalizing n with
  | nil => exact List.forall_mem_nil _
  | cons b bs ih =>
    rw [List.foldlM_cons] at h
    obtain ⟨n', hstep, hrest⟩ := Option.bind_eq_some_iff.mp h
    split_ifs at hstep with hdigit
    exact List.forall_mem_cons.mpr ⟨hdigit, ih n' hrest⟩

/-- The number that two bytes spell. -/
theorem exists_twoDigits {a b : UInt8} {v : Int} (h : number [a, b] = some v) :
    ∃ n : Nat, n < 100 ∧ v = n ∧ [a, b] = twoDigits n := by
  obtain ⟨d, hd, rfl⟩ := exists_digitByte (isDigit_of_number h a (by simp))
  obtain ⟨e, he, rfl⟩ := exists_digitByte (isDigit_of_number h b (by simp))
  have htens : (d * 10 + e) / 10 = d := by omega
  have hones : (d * 10 + e) % 10 = e := by omega
  have htext : [digitByte d, digitByte e] = twoDigits (d * 10 + e) := by rw [twoDigits, htens, hones]
  rw [htext, number_twoDigits (by omega)] at h
  exact ⟨d * 10 + e, by omega, (Option.some.inj h).symm, htext⟩

/-- The number that four bytes spell. -/
theorem exists_fourDigits {a b c d : UInt8} {v : Int} (h : number [a, b, c, d] = some v) :
    ∃ n : Nat, n < 10000 ∧ v = n ∧ [a, b, c, d] = fourDigits n := by
  have hdigit := isDigit_of_number h
  obtain ⟨i, hi, rfl⟩ := exists_digitByte (hdigit a (by simp))
  obtain ⟨j, hj, rfl⟩ := exists_digitByte (hdigit b (by simp))
  obtain ⟨k, hk, rfl⟩ := exists_digitByte (hdigit c (by simp))
  obtain ⟨l, hl, rfl⟩ := exists_digitByte (hdigit d (by simp))
  obtain ⟨n, hn⟩ : ∃ n, n = i * 1000 + j * 100 + k * 10 + l := ⟨_, rfl⟩
  have h3 : n / 100 / 10 = i := by omega
  have h2 : n / 100 % 10 = j := by omega
  have h1 : n % 100 / 10 = k := by omega
  have h0 : n % 100 % 10 = l := by omega
  have htext : [digitByte i, digitByte j, digitByte k, digitByte l] = fourDigits n := by
    rw [fourDigits, twoDigits, twoDigits, h3, h2, h1, h0]
    rfl
  rw [htext, number_fourDigits (by omega)] at h
  exact ⟨n, by omega, (Option.some.inj h).symm, htext⟩

private theorem exists_eleven {text : Bytes} (h : text.length = 11) : ∃ t0 t1 t2 t3 t4 t5 t6 t7 t8 t9 t10,
    text = [t0, t1, t2, t3, t4, t5, t6, t7, t8, t9, t10] := by
  rcases text with _ | ⟨t0, _ | ⟨t1, _ | ⟨t2, _ | ⟨t3, _ | ⟨t4, _ | ⟨t5, _ | ⟨t6, _ | ⟨t7, _ | ⟨t8, _ | ⟨t9, _ | ⟨t10,
    _ | ⟨t11, rest⟩⟩⟩⟩⟩⟩⟩⟩⟩⟩⟩⟩
  case cons.cons.cons.cons.cons.cons.cons.cons.cons.cons.cons.nil => exact ⟨_, _, _, _, _, _, _, _, _, _, _, rfl⟩
  all_goals simp at h

/-- A date and a time of day that are read are those of a moment. -/
theorem exists_moment_of_time {year : Nat} (hyear : year < 10000) {text : Bytes} {s : Int}
    (h : time year text = .ok (some s)) : ∃ m : Moment, m.year = year ∧ text = m.timeText ∧ s = m.epochSeconds := by
  have hlength : text.length = 11 := by
    by_contra hne
    rw [time, if_pos hne] at h
    cases h
  obtain ⟨t0, t1, t2, t3, t4, t5, t6, t7, t8, t9, t10, rfl⟩ := exists_eleven hlength
  have hread := h
  rw [time] at h
  have hz : index [t0, t1, t2, t3, t4, t5, t6, t7, t8, t9, t10] 10 = .ok t10 := rfl
  have hmonth : field [t0, t1, t2, t3, t4, t5, t6, t7, t8, t9, t10] 0 = .ok (number [t0, t1]) := rfl
  have hday : field [t0, t1, t2, t3, t4, t5, t6, t7, t8, t9, t10] 2 = .ok (number [t2, t3]) := rfl
  have hhour : field [t0, t1, t2, t3, t4, t5, t6, t7, t8, t9, t10] 4 = .ok (number [t4, t5]) := rfl
  have hminute : field [t0, t1, t2, t3, t4, t5, t6, t7, t8, t9, t10] 6 = .ok (number [t6, t7]) := rfl
  have hsecond : field [t0, t1, t2, t3, t4, t5, t6, t7, t8, t9, t10] 8 = .ok (number [t8, t9]) := rfl
  rw [if_neg (by simp), hz, hmonth, hday, hhour, hminute, hsecond] at h
  simp only [bind, Except.bind, pure, Except.pure] at h
  split_ifs at h with hend
  · cases h
  obtain rfl : t10 = 90 := not_not.mp hend
  split at h
  case h_2 => cases h
  next month hm =>
  split at h
  case h_2 => cases h
  next day hd =>
  split at h
  case h_2 => cases h
  next hour hh =>
  split at h
  case h_2 => cases h
  next minute hmi =>
  split at h
  case h_2 => cases h
  next second hs =>
  split_ifs at h with hvalid
  · obtain ⟨month, hmonth, rfl, hmonthText⟩ := exists_twoDigits hm
    obtain ⟨day, hday, rfl, hdayText⟩ := exists_twoDigits hd
    obtain ⟨hour, hhour, rfl, hhourText⟩ := exists_twoDigits hh
    obtain ⟨minute, hminute, rfl, hminuteText⟩ := exists_twoDigits hmi
    obtain ⟨second, hsecond, rfl, hsecondText⟩ := exists_twoDigits hs
    have hmonths : 1 ≤ month ∧ month ≤ 12 := by omega
    rw [daysInMonth_eq hmonths] at hvalid
    let m : Moment := ⟨year, month, day, hour, minute, second, hyear, hmonths, by omega, by omega, by omega, by omega⟩
    have htext : [t0, t1, t2, t3, t4, t5, t6, t7, t8, t9, 90] = m.timeText := by
      have happ : [t0, t1, t2, t3, t4, t5, t6, t7, t8, t9, 90] =
          [t0, t1] ++ [t2, t3] ++ [t4, t5] ++ [t6, t7] ++ [t8, t9] ++ [90] := rfl
      rw [happ, hmonthText, hdayText, hhourText, hminuteText, hsecondText]
      rfl
    have hm : m.year = year := rfl
    clear_value m
    have hcounted := m.time_timeText
    rw [← htext, hm, hread] at hcounted
    exact ⟨m, hm, htext, Option.some.inj (Except.ok.inj hcounted)⟩
  · cases h

theorem exists_cons_of_length {n : Nat} {text : Bytes} (h : n + 1 ≤ text.length) :
    ∃ b rest, text = b :: rest ∧ n ≤ rest.length := by
  obtain ⟨b, rest, rfl⟩ := List.exists_cons_of_length_pos (by omega : 0 < text.length)
  exact ⟨b, rest, rfl, by simpa using h⟩

theorem utcTime_eq_some {text : Bytes} {s : Int} : utcTime text = .ok (some s) ↔
    ∃ m : Moment, (1950 ≤ m.year ∧ m.year < 2050) ∧ text = m.utcText ∧ s = m.epochSeconds := by
  constructor
  · intro h
    rw [utcTime] at h
    split_ifs at h with hshort
    · cases h
    obtain ⟨a, text, rfl, hlength⟩ := exists_cons_of_length (n := 1) (Nat.not_lt.mp hshort)
    obtain ⟨b, rest, rfl, -⟩ := exists_cons_of_length hlength
    have hnumber : number ((a :: b :: rest).take 2) = number [a, b] := rfl
    have hslice : slice (a :: b :: rest) 2 (a :: b :: rest).length = .ok rest := by
      rw [slice_of_le (by simp) le_rfl, List.take_length]
      rfl
    rw [hnumber, hslice] at h
    split at h
    case h_2 => cases h
    next yy hyy =>
    obtain ⟨n, hn, rfl, htext⟩ := exists_twoDigits hyy
    have hyear : (if (n : Int) < 50 then 2000 + (n : Int) else 1900 + (n : Int)) =
        ((if n < 50 then 2000 + n else 1900 + n : Nat) : Int) := by
      split_ifs <;> omega
    simp only [bind, Except.bind] at h
    rw [hyear] at h
    obtain ⟨m, hm, hrest, hs⟩ := exists_moment_of_time (by split_ifs <;> omega) h
    have hmod : m.year % 100 = n := by
      rw [hm]
      split_ifs <;> omega
    refine ⟨m, by rw [hm]; split_ifs <;> omega, ?_, hs⟩
    rw [Moment.utcText, hmod, ← htext, ← hrest]
    rfl
  · rintro ⟨m, hyear, htext, hs⟩
    rw [htext, hs]
    exact utcTime_utcText hyear

theorem generalizedTime_eq_some {text : Bytes} {s : Int} : generalizedTime text = .ok (some s) ↔
    ∃ m : Moment, text = m.generalizedText ∧ s = m.epochSeconds := by
  constructor
  · intro h
    rw [generalizedTime] at h
    split_ifs at h with hshort
    · cases h
    obtain ⟨a, text, rfl, h3⟩ := exists_cons_of_length (n := 3) (Nat.not_lt.mp hshort)
    obtain ⟨b, text, rfl, h2⟩ := exists_cons_of_length h3
    obtain ⟨c, text, rfl, h1⟩ := exists_cons_of_length h2
    obtain ⟨d, rest, rfl, -⟩ := exists_cons_of_length h1
    have hnumber : number ((a :: b :: c :: d :: rest).take 4) = number [a, b, c, d] := rfl
    have hslice : slice (a :: b :: c :: d :: rest) 4 (a :: b :: c :: d :: rest).length = .ok rest := by
      rw [slice_of_le (by simp) le_rfl, List.take_length]
      rfl
    rw [hnumber, hslice] at h
    split at h
    case h_2 => cases h
    next year hyear =>
    obtain ⟨n, hn, rfl, htext⟩ := exists_fourDigits hyear
    simp only [bind, Except.bind] at h
    obtain ⟨m, rfl, hrest, hs⟩ := exists_moment_of_time hn h
    refine ⟨m, ?_, hs⟩
    rw [Moment.generalizedText, ← htext, ← hrest]
    rfl
  · rintro ⟨m, htext, hs⟩
    rw [htext, hs]
    exact generalizedTime_generalizedText m

/-! ### What is printed -/

/-- Digits, as characters. -/
def spelled (digits : Bytes) : List Char := digits.map fun b => Char.ofNat b.toNat

/-- A moment as it is printed: its digits, with marks between them. -/
def Moment.printed (m : Moment) : List Char :=
  spelled (fourDigits m.year) ++ '-' :: spelled (twoDigits m.month) ++ '-' :: spelled (twoDigits m.day) ++
    'T' :: spelled (twoDigits m.hour) ++ ':' :: spelled (twoDigits m.minute) ++ ':' :: spelled (twoDigits m.second) ++ ['Z']

theorem digitChar_eq_spelled : ∀ d < 10, [Nat.digitChar d] = spelled [digitByte d] := by decide

theorem padded_of_lt {n : Nat} (h : n < 10) : Audit.padded 1 n = [Nat.digitChar n] := by
  rw [Audit.padded, Nat.toDigits_of_lt_base h]
  rfl

/-- The last digit and those before it. -/
theorem padded_succ {width n : Nat} (h : 1 ≤ width) :
    Audit.padded (width + 1) n = Audit.padded width (n / 10) ++ [Nat.digitChar (n % 10)] := by
  by_cases hn : n < 10
  · have hdiv : n / 10 = 0 := by omega
    have hmod : n % 10 = n := by omega
    obtain ⟨width, rfl⟩ := Nat.exists_eq_add_of_le' h
    rw [hdiv, hmod, Audit.padded, Audit.padded, Nat.toDigits_of_lt_base hn, Nat.toDigits_zero]
    simp [List.leftpad, ← List.replicate_succ']
  · rw [Audit.padded, Audit.padded, Nat.toDigits_of_base_le (by decide) (by omega)]
    simp [List.leftpad]

theorem padded_two {n : Nat} (h : n < 100) : Audit.padded 2 n = spelled (twoDigits n) := by
  rw [padded_succ (le_refl 1), padded_of_lt (by omega), digitChar_eq_spelled _ (by omega), digitChar_eq_spelled _ (by omega)]
  rfl

theorem padded_four {n : Nat} (h : n < 10000) : Audit.padded 4 n = spelled (fourDigits n) := by
  have hhigh : n / 10 / 10 = n / 100 := by omega
  have htens : n / 10 % 10 = n % 100 / 10 := by omega
  have hones : n % 10 = n % 100 % 10 := by omega
  rw [padded_succ (by omega), padded_succ (by omega), hhigh, htens, hones, padded_two (by omega),
    digitChar_eq_spelled _ (by omega), digitChar_eq_spelled _ (by omega)]
  simp [spelled, fourDigits, twoDigits]

theorem paddedInt_natCast (width n : Nat) : paddedInt width n = Audit.padded width n := by
  rw [paddedInt, if_neg (by omega), Int.natAbs_natCast]

theorem Moment.validDate (m : Moment) : ValidDate m.year m.month m.day := by
  have hmonth := m.month_mem
  have hday := m.day_mem
  refine ⟨by omega, by omega, ?_⟩
  rw [daysInMonth_eq hmonth]
  omega

/-- A time is printed as the moment that it is the seconds of. -/
theorem rfc3339_epochSeconds (m : Moment) : rfc3339 m.epochSeconds = m.printed := by
  have hhour := m.hour_lt
  have hminute := m.minute_lt
  have hsecond := m.second_lt
  have hseconds : m.epochSeconds =
      daysFromCivil m.year m.month m.day * 86400 + ((m.hour * 3600 + m.minute * 60 + m.second : Nat) : Int) := by
    rw [daysFromCivil_eq m.month_mem m.day_mem.1, Moment.epochSeconds]
    push_cast
    ring
  have hcivil := civilFromDays_daysFromCivil m.validDate
  rw [hseconds, rfc3339]
  generalize daysFromCivil m.year m.month m.day = days at hcivil
  have hdays : (days * 86400 + ((m.hour * 3600 + m.minute * 60 + m.second : Nat) : Int)) / 86400 = days := by omega
  have hrest : (days * 86400 + ((m.hour * 3600 + m.minute * 60 + m.second : Nat) : Int)) % 86400 =
      ((m.hour * 3600 + m.minute * 60 + m.second : Nat) : Int) := by omega
  have hhours : ((m.hour * 3600 + m.minute * 60 + m.second : Nat) : Int) / 3600 = (m.hour : Int) := by omega
  have hminutes : ((m.hour * 3600 + m.minute * 60 + m.second : Nat) : Int) / 60 % 60 = (m.minute : Int) := by omega
  have hseconds : ((m.hour * 3600 + m.minute * 60 + m.second : Nat) : Int) % 60 = (m.second : Int) := by omega
  simp only
  rw [hdays, hcivil, hrest, hhours, hminutes, hseconds]
  simp only [paddedInt_natCast]
  rw [padded_four m.year_lt, padded_two m.month_lt, padded_two m.day_lt, padded_two (by omega), padded_two (by omega),
    padded_two (by omega), Moment.printed]

/-- The two conversions of dates are each other's inverse and keep to the order of days, and a time is read if it is a
valid one, and is then printed as it was spelled. -/
theorem calendar_exact :
    (∀ year month day, ValidDate year month day →
      civilFromDays (daysFromCivil year month day) = (year, month, day) ∧
      ∀ year' month' day', nextDate year month day = (year', month', day') →
        daysFromCivil year' month' day' = daysFromCivil year month day + 1) ∧
    (∀ days year month day, civilFromDays days = (year, month, day) →
      (daysFromCivil year month day = days ∧ ValidDate year month day) ∧
      civilFromDays (days + 1) = nextDate year month day) ∧
    (∀ text s, utcTime text = .ok (some s) ↔
      ∃ m : Moment, (1950 ≤ m.year ∧ m.year < 2050) ∧ text = m.utcText ∧ s = m.epochSeconds) ∧
    (∀ text s, generalizedTime text = .ok (some s) ↔ ∃ m : Moment, text = m.generalizedText ∧ s = m.epochSeconds) ∧
    ∀ m : Moment, rfc3339 m.epochSeconds = m.printed := by
  refine ⟨fun year month day h => ⟨civilFromDays_daysFromCivil h, fun _ _ _ hnext => daysFromCivil_nextDate h hnext⟩,
    fun days year month day h => ⟨daysFromCivil_civilFromDays h, civilFromDays_succ h⟩, fun _ _ => utcTime_eq_some,
    fun _ _ => generalizedTime_eq_some, rfc3339_epochSeconds⟩

end Mcpdef.Tls
