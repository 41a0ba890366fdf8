import Mcpdef.Lib.ByteText

/-!
# Times

The two times that a certificate can hold, read from their digits: the seconds since the Unix epoch that counting the
days gives (`utcTime_utcText`, `generalizedTime_generalizedText`).  An index that is out of range is an outcome of its
own, which no text comes to.
-/

namespace Mcpdef.Tls

open ByteText

/-! ### Indexes -/

/-- What an index out of range comes to. -/
structure OutOfRange
deriving DecidableEq

/-- The byte at an index. -/
def index (bs : Bytes) (i : Nat) : Except OutOfRange UInt8 :=
  match bs[i]? with
  | some b => .ok b
  | none => .error {}

/-- The bytes from one index to another. -/
def slice (bs : Bytes) (start stop : Nat) : Except OutOfRange Bytes :=
  if start ≤ stop ∧ stop ≤ bs.length then .ok ((bs.take stop).drop start) else .error {}

/-- No index is out of range. -/
def InRange {α : Type} (x : Except OutOfRange α) : Prop := ∃ a, x = .ok a

theorem InRange.ok {α : Type} (a : α) : InRange (.ok a) := ⟨a, rfl⟩

theorem InRange.bind {α β : Type} {x : Except OutOfRange α} {f : α → Except OutOfRange β} (hx : InRange x)
    (hf : ∀ a, InRange (f a)) : InRange (x >>= f) := by
  obtain ⟨a, rfl⟩ := hx
  exact hf a

theorem index_of_lt {bs : Bytes} {i : Nat} (h : i < bs.length) : index bs i = .ok bs[i] := by
  rw [index, List.getElem?_eq_getElem h]

theorem slice_of_le {bs : Bytes} {start stop : Nat} (h : start ≤ stop) (h' : stop ≤ bs.length) :
    slice bs start stop = .ok ((bs.take stop).drop start) := if_pos ⟨h, h'⟩

/-! ### As they are read -/

/-- The number that digits spell, if they are all digits. -/
def number (digits : Bytes) : Option Int :=
  digits.foldlM (fun n digit => if 48 ≤ digit ∧ digit ≤ 57 then some (n * 10 + (digit - 48).toNat) else none) 0

def daysInMonth (year month : Int) : Int :=
  if month = 2 then
    if year % 4 = 0 ∧ (year % 100 ≠ 0 ∨ year % 400 = 0) then 29 else 28
  else if month = 4 ∨ month = 6 ∨ month = 9 ∨ month = 11 then 30
  else 31

/-- Days from the epoch's to this one, in the proleptic Gregorian calendar. -/
def daysFromCivil (year month day : Int) : Int :=
  let year := if month ≤ 2 then year - 1 else year
  let era := year / 400
  let yearOfEra := year % 400
  let dayOfYear := (153 * ((month + 9) % 12) + 2) / 5 + day - 1
  let dayOfEra := yearOfEra * 365 + yearOfEra / 4 - yearOfEra / 100 + dayOfYear
  era * 146097 + dayOfEra - 719468

/-- The number that two digits of a text spell. -/
def field (text : Bytes) (at' : Nat) : Except OutOfRange (Option Int) := (slice text at' (at' + 2)).map number

/-- The month, the day, the hour, the minute, the second and a `Z`, in a year. -/
def time (year : Int) (text : Bytes) : Except OutOfRange (Option Int) := do
  if text.length ≠ 11 then return none
  if (← index text 10) ≠ 90 then return none
  let some month ← field text 0 | return none
  let some day ← field text 2 | return none
  let some hour ← field text 4 | return none
  let some minute ← field text 6 | return none
  let some second ← field text 8 | return none
  if (1 ≤ month ∧ month ≤ 12) ∧ (1 ≤ day ∧ day ≤ daysInMonth year month) ∧ hour < 24 ∧ minute < 60 ∧ second < 60 then
    return some (daysFromCivil year month day * 86400 + hour * 3600 + minute * 60 + second)
  else return none

/-- A time whose year is two digits, of the years from 1950 to 2049. -/
def utcTime (text : Bytes) : Except OutOfRange (Option Int) := do
  if text.length < 2 then return none
  let some yy := number (text.take 2) | return none
  time (if yy < 50 then 2000 + yy else 1900 + yy) (← slice text 2 text.length)

/-- A time whose year is four digits. -/
def generalizedTime (text : Bytes) : Except OutOfRange (Option Int) := do
  if text.length < 4 then return none
  let some year := number (text.take 4) | return none
  time year (← slice text 4 text.length)

theorem field_of_le {text : Bytes} {at' : Nat} (h : at' + 2 ≤ text.length) :
    field text at' = .ok (number ((text.take (at' + 2)).drop at')) := by
  rw [field, slice_of_le (Nat.le_add_right _ _) h]
  rfl

/-- No text makes the reading of a time index out of range. -/
theorem time_inRange (year : Int) (text : Bytes) : InRange (time year text) := by
  rw [time]
  split_ifs with hlength
  · exact .ok none
  · have hlength : text.length = 11 := by omega
    rw [index_of_lt (by omega), field_of_le (by omega), field_of_le (by omega), field_of_le (by omega),
      field_of_le (by omega), field_of_le (by omega)]
    simp only [bind, Except.bind, pure, Except.pure]
    repeat' split
    all_goals exact .ok _

theorem utcTime_inRange (text : Bytes) : InRange (utcTime text) := by
  rw [utcTime]
  split_ifs with hlength
  · exact .ok none
  · rw [slice_of_le (by omega) le_rfl]
    split
    · exact time_inRange _ _
    · exact .ok none

theorem generalizedTime_inRange (text : Bytes) : InRange (generalizedTime text) := by
  rw [generalizedTime]
  split_ifs with hlength
  · exact .ok none
  · rw [slice_of_le (by omega) le_rfl]
    split
    · exact time_inRange _ _
    · exact .ok none

/-! ### As they are counted -/

/-- The days of February: one more in a leap year. -/
def februaryDays (year : Nat) : Nat := if year % 4 = 0 ∧ (year % 100 ≠ 0 ∨ year % 400 = 0) then 29 else 28

/-- How many days each month has. -/
def monthDays (year : Nat) : List Nat := [31, februaryDays year, 31, 30, 31, 30, 31, 31, 30, 31, 30, 31]

/-- A date and a time of day, as a certificate can hold one. -/
structure Moment where
  (year month day hour minute second : Nat)
  year_lt : year < 10000
  month_mem : 1 ≤ month ∧ month ≤ 12
  day_mem : 1 ≤ day ∧ day ≤ (monthDays year).getD (month - 1) 0
  hour_lt : hour < 24
  minute_lt : minute < 60
  second_lt : second < 60

/-- The days before a date, counted from the first of January of the year zero. -/
def daysBefore (year month day : Nat) : Nat :=
  ((List.range year).map fun y => (monthDays y).sum).sum + ((monthDays year).take (month - 1)).sum + (day - 1)

/-- Seconds since the Unix epoch. -/
def Moment.epochSeconds (m : Moment) : Int :=
  ((daysBefore m.year m.month m.day : Int) - daysBefore 1970 1 1) * 86400 + m.hour * 3600 + m.minute * 60 + m.second

theorem februaryDays_cases (year : Nat) :
    (year % 4 = 0 ∧ (year % 100 ≠ 0 ∨ year % 400 = 0)) ∧ februaryDays year = 29 ∨
      ¬ (year % 4 = 0 ∧ (year % 100 ≠ 0 ∨ year % 400 = 0)) ∧ februaryDays year = 28 := by
  rw [februaryDays]
  split_ifs with h
  · exact .inl ⟨h, rfl⟩
  · exact .inr ⟨h, rfl⟩

theorem daysBefore_year (year : Nat) : ((List.range year).map fun y => (monthDays y).sum).sum =
    365 * year + (year + 3) / 4 - (year + 99) / 100 + (year + 399) / 400 := by
  induction year with
  | zero => rfl
  | succ year ih =>
    rw [List.range_succ, List.map_append, List.sum_append, ih]
    simp only [List.map_cons, List.map_nil, List.sum_cons, List.sum_nil, monthDays]
    have := februaryDays_cases year
    omega

theorem daysInMonth_february (year : Nat) : daysInMonth year 2 = februaryDays year := by
  have := februaryDays_cases year
  rw [daysInMonth, if_pos rfl]
  split_ifs <;> omega

theorem daysInMonth_eq {year month : Nat} (h : 1 ≤ month ∧ month ≤ 12) :
    daysInMonth year month = (monthDays year).getD (month - 1) 0 := by
  obtain ⟨h1, h12⟩ := h
  interval_cases month
  case «2» => exact daysInMonth_february year
  all_goals rfl

theorem daysFromCivil_eq {year month day : Nat} (hmonth : 1 ≤ month ∧ month ≤ 12) (hday : 1 ≤ day) :
    daysFromCivil year month day = (daysBefore year month day : Int) - daysBefore 1970 1 1 := by
  have hepoch : daysBefore 1970 1 1 = 719528 := by rw [daysBefore, daysBefore_year]; rfl
  rw [hepoch, daysBefore, daysBefore_year]
  have hfebruary := februaryDays_cases year
  obtain ⟨h1, h12⟩ := hmonth
  simp only [daysFromCivil, monthDays]
  interval_cases month <;> simp <;> omega

/-! ### As they are written -/

def digitByte (d : Nat) : UInt8 := UInt8.ofNat (48 + d)

def twoDigits (n : Nat) : Bytes := [digitByte (n / 10), digitByte (n % 10)]

def fourDigits (n : Nat) : Bytes := twoDigits (n / 100) ++ twoDigits (n % 100)

/-- The month, the day, the time of day and a `Z`. -/
def Moment.timeText (m : Moment) : Bytes :=
  twoDigits m.month ++ twoDigits m.day ++ twoDigits m.hour ++ twoDigits m.minute ++ twoDigits m.second ++ [90]

def Moment.utcText (m : Moment) : Bytes := twoDigits (m.year % 100) ++ m.timeText

def Moment.generalizedText (m : Moment) : Bytes := fourDigits m.year ++ m.timeText

theorem isDigit_digitByte : ∀ d < 10, (48 ≤ digitByte d ∧ digitByte d ≤ 57) ∧ (digitByte d - 48).toNat = d := by
  decide

theorem number_twoDigits {n : Nat} (h : n < 100) : number (twoDigits n) = some n := by
  obtain ⟨htens, htens'⟩ := isDigit_digitByte (n / 10) (by omega)
  obtain ⟨hones, hones'⟩ := isDigit_digitByte (n % 10) (by omega)
  rw [number, twoDigits]
  simp only [List.foldlM_cons, List.foldlM_nil, if_pos htens, if_pos hones, htens', hones', Option.bind_eq_bind,
    Option.bind_some, pure, Option.some.injEq]
  omega

theorem number_fourDigits {n : Nat} (h : n < 10000) : number (fourDigits n) = some n := by
  obtain ⟨h3, h3'⟩ := isDigit_digitByte (n / 100 / 10) (by omega)
  obtain ⟨h2, h2'⟩ := isDigit_digitByte (n / 100 % 10) (by omega)
  obtain ⟨h1, h1'⟩ := isDigit_digitByte (n % 100 / 10) (by omega)
  obtain ⟨h0, h0'⟩ := isDigit_digitByte (n % 100 % 10) (by omega)
  rw [number, fourDigits, twoDigits, twoDigits]
  simp only [List.cons_append, List.nil_append, List.foldlM_cons, List.foldlM_nil, if_pos h3, if_pos h2, if_pos h1,
    if_pos h0, h3', h2', h1', h0', Option.bind_eq_bind, Option.bind_some, pure, Option.some.injEq]
  omega

theorem Moment.month_lt (m : Moment) : m.month < 100 := by
  have := m.month_mem
  omega

theorem Moment.day_lt (m : Moment) : m.day < 100 := by
  have hday := m.day_mem.2
  have hmonth := m.month_mem
  have hdays : ∀ days ∈ monthDays m.year, days ≤ 31 := by
    have := februaryDays_cases m.year
    simp only [monthDays, List.forall_mem_cons, List.not_mem_nil, false_implies, implies_true, and_true]
    omega
  have hlength : m.month - 1 < (monthDays m.year).length := by
    rw [monthDays]
    simp only [List.length_cons, List.length_nil]
    omega
  rw [List.getD_eq_getElem?_getD, List.getElem?_eq_getElem hlength, Option.getD_some] at hday
  have := hdays _ (List.getElem_mem hlength)
  omega

/-- The time of day and the date are read as they are counted. -/
theorem Moment.time_timeText (m : Moment) : time m.year m.timeText = .ok (some m.epochSeconds) := by
  have hmonth : field m.timeText 0 = .ok (some m.month) := congrArg Except.ok (number_twoDigits m.month_lt)
  have hday : field m.timeText 2 = .ok (some m.day) := congrArg Except.ok (number_twoDigits m.day_lt)
  have hhour : field m.timeText 4 = .ok (some m.hour) := congrArg Except.ok (number_twoDigits (by have := m.hour_lt; omega))
  have hminute : field m.timeText 6 = .ok (some m.minute) :=
    congrArg Except.ok (number_twoDigits (by have := m.minute_lt; omega))
  have hsecond : field m.timeText 8 = .ok (some m.second) :=
    congrArg Except.ok (number_twoDigits (by have := m.second_lt; omega))
  have hlength : m.timeText.length = 11 := rfl
  have hz : index m.timeText 10 = .ok 90 := rfl
  have hvalid : (1 ≤ (m.month : Int) ∧ (m.month : Int) ≤ 12) ∧
      (1 ≤ (m.day : Int) ∧ (m.day : Int) ≤ daysInMonth m.year m.month) ∧ (m.hour : Int) < 24 ∧ (m.minute : Int) < 60 ∧
        (m.second : Int) < 60 := by
    rw [daysInMonth_eq m.month_mem]
    have := m.month_mem
    have := m.day_mem
    have := m.hour_lt
    have := m.minute_lt
    have := m.second_lt
    omega
  rw [time, hlength, hz, hmonth, hday, hhour, hminute, hsecond]
  simp only [bind, Except.bind, pure, Except.pure]
  rw [if_neg (by decide), if_neg (by decide), if_pos hvalid, daysFromCivil_eq m.month_mem m.day_mem.1]
  rfl

theorem utcTime_utcText {m : Moment} (h : 1950 ≤ m.year ∧ m.year < 2050) : utcTime m.utcText = .ok (some m.epochSeconds) := by
  have hnumber : number (m.utcText.take 2) = some ((m.year % 100 : Nat) : Int) := number_twoDigits (Nat.mod_lt _ (by decide))
  have hrest : slice m.utcText 2 m.utcText.length = .ok m.timeText := rfl
  have hyear : (if ((m.year % 100 : Nat) : Int) < 50 then 2000 + ((m.year % 100 : Nat) : Int)
      else 1900 + ((m.year % 100 : Nat) : Int)) = m.year := by
    split_ifs <;> omega
  have hlength : ¬ m.utcText.length < 2 := by
    have : m.utcText.length = 13 := rfl
    omega
  rw [utcTime, hnumber, hrest, if_neg hlength]
  simp only [bind, Except.bind]
  rw [hyear]
  exact m.time_timeText

theorem generalizedTime_generalizedText (m : Moment) :
    generalizedTime m.generalizedText = .ok (some m.epochSeconds) := by
  have hnumber : number (m.generalizedText.take 4) = some (m.year : Int) := number_fourDigits m.year_lt
  have hrest : slice m.generalizedText 4 m.generalizedText.length = .ok m.timeText := rfl
  have hlength : ¬ m.generalizedText.length < 4 := by
    have : m.generalizedText.length = 15 := rfl
    omega
  rw [generalizedTime, hnumber, hrest, if_neg hlength]
  simp only [bind, Except.bind]
  exact m.time_timeText

end Mcpdef.Tls
