namespace StepLisp

structure Moment where
  year : Int
  month : Nat
  day : Nat
  hour : Nat
  minute : Nat
  second : Nat
  deriving DecidableEq, Repr

namespace Calendar

def firstYear : Int := -262143
def lastYear : Int := 262142

def isLeap (year : Int) : Bool :=
  year % 4 = 0 && (year % 100 ≠ 0 || year % 400 = 0)

def daysBeforeYear (year : Int) : Int :=
  let past := year - 1
  365 * past + past / 4 - past / 100 + past / 400

def months (year : Int) : List Nat :=
  [31, if isLeap year then 29 else 28, 31, 30, 31, 30, 31, 31, 30, 31, 30, 31]

def daysBeforeMonth (year : Int) (month : Nat) : Nat :=
  ((months year).take (month - 1)).foldl (· + ·) 0

def daysInMonth (year : Int) (month : Nat) : Nat :=
  if month = 0 then 0 else (months year).getD (month - 1) 0

def dayNumber (year : Int) (month day : Nat) : Int :=
  daysBeforeYear year + daysBeforeMonth year month + (day - 1 : Int)

-- The first day of 1970.
def epochDay : Int := 719162

-- The year that a day falls into, and how many of its days are past. Four centuries have a fixed
-- length; the last century of four and the last year of four are a day longer than the others.
def yearOf (n : Int) : Int × Nat :=
  let era := n / 146097
  let day := (n % 146097).toNat
  let century := min (day / 36524) 3
  let day := day - 36524 * century
  let group := day / 1461
  let day := day % 1461
  let rest := min (day / 365) 3
  (400 * era + 100 * century + 4 * group + rest + 1, day - 365 * rest)

-- The month that a day of the year falls into, and its day of that month, both from one.
def monthOf : List Nat → Nat → Nat → Nat × Nat
  | [], month, day => (month, day + 1)
  | length :: rest, month, day =>
    if day < length then (month, day + 1) else monthOf rest (month + 1) (day - length)

def isValid (year : Int) (month day hour minute second : Nat) : Bool :=
  firstYear ≤ year && year ≤ lastYear && 1 ≤ day && day ≤ daysInMonth year month &&
    hour < 24 && minute < 60 && second < 60

def timestamp (m : Moment) : Int :=
  86400 * (dayNumber m.year m.month m.day - epochDay) + 3600 * m.hour + 60 * m.minute + m.second

def moment? (t : Int) : Option Moment :=
  let (year, yearDay) := yearOf (t / 86400 + epochDay)
  if year < firstYear ∨ lastYear < year then none
  else
    let (month, day) := monthOf (months year) 1 yearDay
    let second := (t % 86400).toNat
    some {
      year, month, day
      hour := second / 3600
      minute := second / 60 % 60
      second := second % 60
    }

-- The day of the week, Monday being zero.
def weekday (m : Moment) : Nat :=
  (dayNumber m.year m.month m.day % 7).toNat

def yearDay (m : Moment) : Nat :=
  daysBeforeMonth m.year m.month + m.day

end Calendar
end StepLisp
