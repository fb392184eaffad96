namespace TableAlteration.Calendar

def isLeapYear (year : Int) : Bool := year % 4 = 0 && (year % 100 ≠ 0 || year % 400 = 0)

def daysIn (year : Int) (month : Nat) : Nat :=
  if month = 2 then if isLeapYear year then 29 else 28
  else if month ∈ [4, 6, 9, 11] then 30 else 31

/-- The years that a date can hold. -/
def yearInRange (year : Int) : Bool := -262143 ≤ year && year ≤ 262142

def isDate (year : Int) (month day : Nat) : Bool :=
  yearInRange year && 1 ≤ month && month ≤ 12 && 1 ≤ day && day ≤ daysIn year month

structure Date where
  year : Int
  month : Nat
  day : Nat
  valid : isDate year month day
  deriving DecidableEq, Repr

def date? (year : Int) (month day : Nat) : Option Date :=
  if h : isDate year month day then some ⟨year, month, day, h⟩ else none

/-- A leap second is the second billion of nanoseconds of a second 59. -/
def isTime (hour minute second nanosecond : Nat) : Bool :=
  hour < 24 && minute < 60 && second < 60 && nanosecond < 2000000000 &&
    (nanosecond < 1000000000 || second = 59)

structure Time where
  hour : Nat
  minute : Nat
  second : Nat
  nanosecond : Nat
  valid : isTime hour minute second nanosecond
  deriving DecidableEq, Repr

def time? (hour minute second nanosecond : Nat) : Option Time :=
  if h : isTime hour minute second nanosecond then some ⟨hour, minute, second, nanosecond, h⟩
  else none

structure DateTime where
  date : Date
  time : Time
  deriving DecidableEq, Repr

end TableAlteration.Calendar
