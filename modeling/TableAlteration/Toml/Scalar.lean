import TableAlteration.Calendar.Date
import TableAlteration.Text.Digits
import TableAlteration.Toml.Basic

namespace TableAlteration.Toml

def isDecimal (c : Char) : Bool := '0' ≤ c && c ≤ '9'

def digitValue? (base : Nat) (c : Char) : Option Nat :=
  let value :=
    if isDecimal c then some (c.toNat - 48)
    else if 'a' ≤ c ∧ c ≤ 'f' then some (c.toNat - 87)
    else if 'A' ≤ c ∧ c ≤ 'F' then some (c.toNat - 55)
    else none
  value.filter (· < base)

/-- Digits in a row, with single underscores between them. -/
def digitRun? (base : Nat) : List Char → Option (List Nat)
  | [] => none
  | [c] => (digitValue? base c).map ([·])
  | c :: '_' :: rest => do return (← digitValue? base c) :: (← digitRun? base rest)
  | c :: d :: rest => do return (← digitValue? base c) :: (← digitRun? base (d :: rest))

def value (base : Nat) (ds : List Nat) : Nat := ds.foldl (fun n d => n * base + d) 0

def unsigned : List Char → Bool × List Char
  | '-' :: rest => (true, rest)
  | '+' :: rest => (false, rest)
  | s => (false, s)

/-- No zeros in front. -/
def whole? (s : List Char) : Option (List Nat) := do
  let ds ← digitRun? 10 s
  if ds.head? = some 0 ∧ 1 < ds.length then none else some ds

/-- Integers of more than 128 bits are refused. -/
def bounded? (i : Int) : Option Toml :=
  if -Nat.pow 2 127 ≤ i ∧ i < Nat.pow 2 128 then some (integer i) else none

def integer? : List Char → Option Toml
  | '0' :: 'x' :: s => do bounded? (value 16 (← digitRun? 16 s))
  | '0' :: 'o' :: s => do bounded? (value 8 (← digitRun? 8 s))
  | '0' :: 'b' :: s => do bounded? (value 2 (← digitRun? 2 s))
  | s => do
    let (negative, s) := unsigned s
    let n := value 10 (← whole? s)
    bounded? (if negative then -(n : Int) else n)

/-- Whether `n · 10 ^ e` is too large to be rounded to a finite number of 64 bits. -/
def overflows (n : Nat) (e : Int) : Bool :=
  let limit := Nat.pow 2 1024 - Nat.pow 2 970
  let places := (Nat.toDigits 10 n).length + e
  if n = 0 ∨ places < 309 then false
  else if 309 < places then true
  else limit * Nat.pow 10 (-e).toNat ≤ n * Nat.pow 10 e.toNat

def float? (s : List Char) : Option Toml := do
  let s := (unsigned s).2
  if s = "inf".toList ∨ s = "nan".toList then some float
  else
    let isMark : Char → Bool := fun c => c = 'e' || c = 'E'
    let mantissa := s.takeWhile fun c => !isMark c
    let front := mantissa.takeWhile (· ≠ '.')
    let whole ← whole? front
    let places ← match mantissa.drop front.length with
      | '.' :: rest => digitRun? 10 rest
      | _ => some []
    let exponent ← match s.drop mantissa.length with
      | [] => if places.isEmpty then none else some 0
      | _ :: rest =>
        let (negative, rest) := unsigned rest
        let n := value 10 (← digitRun? 10 rest)
        some (if negative then -(n : Int) else n)
    if overflows (value 10 (whole ++ places)) (exponent - places.length) then none else some float

def twoDigits : List Char → Option (Nat × List Char)
  | a :: b :: rest => do return (value 10 [← digitValue? 10 a, ← digitValue? 10 b], rest)
  | _ => none

/-- A date, and the text behind it. -/
def date? (s : List Char) : Option (List Char) := do
  let (c, s) ← twoDigits s
  let (y, s) ← twoDigits s
  let '-' :: s := s | none
  let (m, s) ← twoDigits s
  let '-' :: s := s | none
  let (d, s) ← twoDigits s
  let _ ← Calendar.date? (c * 100 + y) m d
  return s

/-- A time of day, with or without seconds and a fraction of them, and the text behind it. -/
def time? (s : List Char) : Option (List Char) := do
  let (h, s) ← twoDigits s
  let ':' :: s := s | none
  let (m, s) ← twoDigits s
  if 23 < h ∨ 59 < m then none
  else
    match s with
    | ':' :: s => do
      let (sec, s) ← twoDigits s
      if 60 < sec then none
      else match s with
        | '.' :: s => if (s.takeWhile isDecimal).isEmpty then none else some (s.dropWhile isDecimal)
        | s => some s
    | s => some s

/-- The distance from universal time. -/
def offset? : List Char → Bool
  | [] => true
  | ['Z'] | ['z'] => true
  | c :: s =>
    if c = '+' ∨ c = '-' then
      match twoDigits s with
      | some (h, ':' :: s) =>
        match twoDigits s with
        | some (m, []) => h ≤ 23 && m ≤ 59
        | _ => false
      | _ => false
    else false

def moment? (s : List Char) : Option Toml :=
  match date? s with
  | some [] => some moment
  | some (c :: rest) =>
    if c = 'T' ∨ c = 't' ∨ c = ' ' then
      match time? rest with
      | some rest => if offset? rest then some moment else none
      | none => none
    else none
  | none => if time? s = some [] then some moment else none

def scalar? (s : List Char) : Option Toml :=
  if s = "true".toList then some (boolean true)
  else if s = "false".toList then some (boolean false)
  else integer? s <|> float? s <|> moment? s

end TableAlteration.Toml
