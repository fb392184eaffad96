import TableAlteration.Calendar.Date
import TableAlteration.Text.Digits

namespace TableAlteration.Calendar

open Text (padded)

/-- Four digits; a year that needs more, or lies before the year 0, has a sign. -/
def writeYear (year : Int) : String :=
  if 0 ≤ year ∧ year ≤ 9999 then padded 4 year.toNat
  else (if year < 0 then "-" else "+") ++ padded 4 year.natAbs

def Date.write (d : Date) : String :=
  writeYear d.year ++ "-" ++ padded 2 d.month ++ "-" ++ padded 2 d.day

namespace Time

def writtenSecond (t : Time) : Nat := t.second + t.nanosecond / 1000000000

def fraction (t : Time) : Nat := t.nanosecond % 1000000000

def writeSeconds (t : Time) : String :=
  padded 2 t.hour ++ ":" ++ padded 2 t.minute ++ ":" ++ padded 2 t.writtenSecond

/-- Three, six or nine digits, as many as the fraction needs. -/
def writeFraction (t : Time) : String :=
  if t.fraction = 0 then ""
  else if t.fraction % 1000000 = 0 then "." ++ padded 3 (t.fraction / 1000000)
  else if t.fraction % 1000 = 0 then "." ++ padded 6 (t.fraction / 1000)
  else "." ++ padded 9 t.fraction

def write (t : Time) : String := t.writeSeconds ++ t.writeFraction

/-- With six digits of the fraction, the others cut off. -/
def writeMicroseconds (t : Time) : String := t.writeSeconds ++ "." ++ padded 6 (t.fraction / 1000)

end Time

namespace DateTime

def write (t : DateTime) : String := t.date.write ++ " " ++ t.time.write

def writeSeconds (t : DateTime) : String := t.date.write ++ " " ++ t.time.writeSeconds

def writeMicroseconds (t : DateTime) : String := t.date.write ++ " " ++ t.time.writeMicroseconds

end DateTime

end TableAlteration.Calendar
