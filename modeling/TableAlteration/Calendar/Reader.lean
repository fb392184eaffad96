import TableAlteration.Calendar.Date
import TableAlteration.Text.Blank
import TableAlteration.Text.Digits

namespace TableAlteration.Calendar

open Text (trimLeft)

namespace Reader

/-- What is read, and the text behind it. -/
abbrev Read (α : Type) := List Char → Option (α × List Char)

def isDigit (c : Char) : Bool := '0' ≤ c && c ≤ '9'

/-- At least one digit, and at most `width` if there is a limit. -/
def digits (width : Option Nat) : Read (List Char) := fun s =>
  let run := s.takeWhile isDigit
  let taken := match width with
    | some n => run.take n
    | none => run
  if taken.isEmpty then none else some (taken, s.drop taken.length)

/-- Blanks may stand in front, and leading zeros may be missing. -/
def number (width : Option Nat) : Read Nat := fun s => do
  let (ds, rest) ← digits width (trimLeft s)
  let n ← Text.natural? ds
  return (n, rest)

/-- Four digits at most, unless there is a sign. -/
def year : Read Int := fun s =>
  match trimLeft s with
  | '-' :: rest => do
    let (ds, rest) ← digits none rest
    let n ← Text.natural? ds
    return (-Int.ofNat n, rest)
  | '+' :: rest => do
    let (ds, rest) ← digits none rest
    let n ← Text.natural? ds
    return (Int.ofNat n, rest)
  | s => do
    let (n, rest) ← number (some 4) s
    return (Int.ofNat n, rest)

/-- The separator, after blanks. -/
def mark (c : Char) : List Char → Option (List Char) := fun s =>
  match trimLeft s with
  | d :: rest => if d = c then some rest else none
  | [] => none

def date : Read Date := fun s => do
  let (y, s) ← year s
  let s ← mark '-' s
  let (m, s) ← number (some 2) s
  let s ← mark '-' s
  let (d, s) ← number (some 2) s
  let date ← Calendar.date? y m d
  return (date, s)

/-- A point and digits, in nanoseconds; nothing is no fraction. -/
def fraction : Read Nat
  | '.' :: s => do
    let (ds, _) ← digits (some 9) s
    let n ← Text.natural? ds
    return (n * Nat.pow 10 (9 - ds.length), s.dropWhile isDigit)
  | s => some (0, s)

/-- A leap second is written as second 60. -/
def assemble (hour minute second nanosecond : Nat) : Option Time :=
  if second = 60 then time? hour minute 59 (1000000000 + nanosecond)
  else time? hour minute second nanosecond

def seconds (hour minute : Nat) : Read Time := fun s => do
  let s ← mark ':' s
  let (second, s) ← number (some 2) s
  let (nanosecond, s) ← fraction s
  let time ← assemble hour minute second nanosecond
  return (time, s)

def hourAndMinute : Read (Nat × Nat) := fun s => do
  let (hour, s) ← number (some 2) s
  let s ← mark ':' s
  let (minute, s) ← number (some 2) s
  return ((hour, minute), s)

/-- Only blanks may follow. -/
def complete {α : Type} (r : Option (α × List Char)) : Option α :=
  match r with
  | some (a, rest) => if (trimLeft rest).isEmpty then some a else none
  | none => none

end Reader

open Reader

def Date.read? (s : String) : Option Date := complete (Reader.date s.toList)

/-- The seconds may be left out. -/
def Time.read? (s : String) : Option Time := do
  let ((hour, minute), rest) ← hourAndMinute s.toList
  if (trimLeft rest).isEmpty then time? hour minute 0 0
  else complete (seconds hour minute rest)

def DateTime.read? (s : String) : Option DateTime := complete do
  let (d, s) ← Reader.date s.toList
  let s ← mark 'T' s
  let ((hour, minute), s) ← hourAndMinute s
  let (t, s) ← seconds hour minute s
  return (⟨d, t⟩, s)

end TableAlteration.Calendar
