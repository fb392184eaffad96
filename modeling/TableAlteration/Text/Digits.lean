namespace TableAlteration.Text

def digit? (c : Char) : Option Nat :=
  if '0' ≤ c ∧ c ≤ '9' then some (c.toNat - '0'.toNat) else none

/-- The value of an unbroken, non-empty run of decimal digits. -/
def natural? : List Char → Option Nat
  | [] => none
  | cs => cs.foldl (fun n c => do pure ((← n) * 10 + (← digit? c))) (some 0)

/-- One optional sign, then digits only. -/
def integer? : List Char → Option Int
  | '+' :: cs => (natural? cs).map Int.ofNat
  | '-' :: cs => (natural? cs).map fun n => -Int.ofNat n
  | cs => (natural? cs).map Int.ofNat

/-- Digits on the left are filled up with zeros to `width`; longer numbers stay whole. -/
def padded (width n : Nat) : String :=
  let digits := toString n
  String.ofList (List.replicate (width - digits.length) '0') ++ digits

def hexDigit (n : Nat) : Char := Nat.digitChar (n % 16)

/-- Two lower-case digits for each byte. -/
def hexBytes (bytes : List UInt8) : List Char :=
  bytes.flatMap fun b => [hexDigit (b.toNat / 16), hexDigit b.toNat]

/-- Two upper-case digits for each byte. -/
def upperHexBytes (bytes : List UInt8) : List Char := (hexBytes bytes).map Char.toUpper

/-- Without leading zeros. -/
def hexNat (n : Nat) : String := String.ofList (Nat.toDigits 16 n)

def octal3 (n : Nat) : List Char :=
  [Nat.digitChar (n / 64 % 8), Nat.digitChar (n / 8 % 8), Nat.digitChar (n % 8)]

end TableAlteration.Text
