import TableAlteration.Dict
import TableAlteration.Json.Basic

namespace TableAlteration.Json.Reader

/-- What is read, and the text behind it. -/
abbrev Read (α : Type) := List Char → Option (α × List Char)

def skip (s : List Char) : List Char :=
  s.dropWhile fun c => c = ' ' || c = '\t' || c = '\n' || c = '\r'

def hexValue? (c : Char) : Option Nat :=
  if '0' ≤ c ∧ c ≤ '9' then some (c.toNat - 48)
  else if 'a' ≤ c ∧ c ≤ 'f' then some (c.toNat - 87)
  else if 'A' ≤ c ∧ c ≤ 'F' then some (c.toNat - 55)
  else none

def hex4 : Read Nat
  | a :: b :: c :: d :: rest => do
    let value := ((← hexValue? a) * 16 + (← hexValue? b)) * 256 +
      ((← hexValue? c) * 16 + (← hexValue? d))
    some (value, rest)
  | _ => none

/-- A code unit, or two that make up one character. -/
def unit : Read Char := fun s => do
  let (high, rest) ← hex4 s
  if 0xD800 ≤ high ∧ high < 0xDC00 then
    match rest with
    | '\\' :: 'u' :: rest => do
      let (low, rest) ← hex4 rest
      if 0xDC00 ≤ low ∧ low < 0xE000 then
        some (Char.ofNat (0x10000 + (high - 0xD800) * 0x400 + (low - 0xDC00)), rest)
      else none
    | _ => none
  else if 0xDC00 ≤ high ∧ high < 0xE000 then none
  else some (Char.ofNat high, rest)

def simpleEscape? : Char → Option Char
  | '"' => some '"'
  | '\\' => some '\\'
  | '/' => some '/'
  | 'b' => some '\x08'
  | 'f' => some '\x0c'
  | 'n' => some '\n'
  | 'r' => some '\r'
  | 't' => some '\t'
  | _ => none

/-- The rest of a string behind its opening quote; each step takes a character at least. -/
def stringTail : Nat → List Char → Read String
  | 0, _, _ => none
  | _ + 1, done, '"' :: rest => some (String.ofList done.reverse, rest)
  | fuel + 1, done, '\\' :: 'u' :: rest => do
    let (c, rest) ← unit rest
    stringTail fuel (c :: done) rest
  | fuel + 1, done, '\\' :: c :: rest => do stringTail fuel ((← simpleEscape? c) :: done) rest
  | fuel + 1, done, c :: rest => if c.toNat < 32 then none else stringTail fuel (c :: done) rest
  | _, _, [] => none

def string : Read String
  | '"' :: rest => stringTail (rest.length + 1) [] rest
  | _ => none

/-- The leading digits. -/
def digits (s : List Char) : List Nat × List Char :=
  let isDigit : Char → Bool := fun c => '0' ≤ c && c ≤ '9'
  ((s.takeWhile isDigit).map (fun c => c.toNat - 48), s.dropWhile isDigit)

def natural (ds : List Nat) : Nat := ds.foldl (fun n d => n * 10 + d) 0

def largestWord : Nat := Nat.pow 2 64 - 1

/-- Digits are taken up while they fit into 64 bits; the number of those left out comes second. -/
def fitting (start : Nat) : List Nat → Nat × Nat
  | [] => (start, 0)
  | d :: rest =>
    if start * 10 + d ≤ largestWord then fitting (start * 10 + d) rest
    else (start, rest.length + 1)

def powerOfTen (n : Nat) : Float := Float.ofScientific 1 false n

def shrink : Nat → Float → Nat → Float
  | 0, _, _ => 0
  | fuel + 1, x, n =>
    if n ≤ 308 then x / powerOfTen n
    else if x == 0 then x
    else shrink fuel (x / powerOfTen 308) (n - 308)

/-- The product with `10 ^ e`, rounded once, or again after each 308 decimal places. -/
def scaled (x : Float) (e : Int) : Option Float :=
  if e < 0 then some (shrink 4 x (-e).toNat)
  else if x == 0 then some x
  else if 308 < e then none
  else
    let y := x * powerOfTen e.toNat
    if y.isInf then none else some y

def exponent : Read Int
  | c :: rest =>
    if c = 'e' ∨ c = 'E' then
      let (sign, rest) : Int × List Char := match rest with
        | '-' :: r => (-1, r)
        | '+' :: r => (1, r)
        | r => (1, r)
      let (ds, rest) := digits rest
      if ds.isEmpty then none else some (sign * natural ds, rest)
    else some (0, c :: rest)
  | [] => some (0, [])

def number : Read Json := fun s => do
  let (negative, s) := match s with
    | '-' :: r => (true, r)
    | r => (false, r)
  let (whole, s) := digits s
  if whole.isEmpty || (whole.head? = some 0 && 1 < whole.length) then none
  let (places, s) ← match s with
    | '.' :: r => let (ds, r) := digits r; if ds.isEmpty then none else some (some ds, r)
    | r => some (none, r)
  let plain := places.isNone && !(s.head? = some 'e' || s.head? = some 'E')
  let (e, rest) ← exponent s
  let value := natural whole
  if plain && !negative && value ≤ largestWord then some (int value, rest)
  else if plain && negative && 0 < value && value ≤ Nat.pow 2 63 then some (int (-value), rest)
  else
    let (significand, dropped) := fitting 0 whole
    let (significand, left) := fitting significand (places.getD [])
    let used := (places.getD []).length - left
    let x ← scaled (Float.ofNat significand) (e + dropped - used)
    some (float (Binary64.ofFloat (if negative then -x else x)), rest)

mutual

def value : Nat → Read Json
  | 0, _ => none
  | fuel + 1, s =>
    match skip s with
    | '\x7b' :: rest =>
      match skip rest with
      | '\x7d' :: rest => some (obj [], rest)
      | rest => (members fuel rest).map fun (ms, r) => (obj (Dict.ofList ms).entries, r)
    | '[' :: rest =>
      match skip rest with
      | ']' :: rest => some (arr [], rest)
      | rest => (items fuel rest).map fun (js, r) => (arr js, r)
    | '"' :: rest => (string ('"' :: rest)).map fun (t, r) => (str t, r)
    | 'n' :: 'u' :: 'l' :: 'l' :: rest => some (null, rest)
    | 't' :: 'r' :: 'u' :: 'e' :: rest => some (bool true, rest)
    | 'f' :: 'a' :: 'l' :: 's' :: 'e' :: rest => some (bool false, rest)
    | rest => number rest

def items : Nat → Read (List Json)
  | 0, _ => none
  | fuel + 1, s => do
    let (j, rest) ← value fuel s
    match skip rest with
    | ',' :: rest => (items fuel rest).map fun (js, r) => (j :: js, r)
    | ']' :: rest => some ([j], rest)
    | _ => none

def members : Nat → Read (List (String × Json))
  | 0, _ => none
  | fuel + 1, s => do
    let (k, rest) ← string (skip s)
    match skip rest with
    | ':' :: rest =>
      let (j, rest) ← value fuel rest
      match skip rest with
      | ',' :: rest => (members fuel rest).map fun (ms, r) => ((k, j) :: ms, r)
      | '\x7d' :: rest => some ([(k, j)], rest)
      | _ => none
    | _ => none

end

end Reader

/-- The tree of a whole text. -/
def read? (text : String) : Option Json :=
  let s := text.toList
  match Reader.value (s.length + 1) s with
  | some (j, rest) => if (Reader.skip rest).isEmpty then some j else none
  | none => none

end TableAlteration.Json
