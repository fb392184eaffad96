import TableAlteration.Decimal.Shortest

namespace TableAlteration.Decimal

structure Format where
  /-- Whole numbers end in `.0`. -/
  keepsPoint : Bool
  /-- The exponents of the leading digit that are written out; with `none` all are. -/
  positional : Option (Int × Int)

/-- Every number is written out, and whole ones like integers. -/
def Format.plain : Format := ⟨false, none⟩

/-- Numbers below `0.0001` and from `1e16` on have an exponent. -/
def Format.literal : Format := ⟨true, some (-4, 15)⟩

def zeros (n : Nat) : List Char := List.replicate n '0'

/-- Digits with the point after the first `point` of them. -/
def spread (keepsPoint : Bool) (digits : List Char) (point : Int) : List Char :=
  if point ≤ 0 then '0' :: '.' :: zeros (-point).toNat ++ digits
  else if digits.length ≤ point.toNat then
    digits ++ zeros (point.toNat - digits.length) ++ if keepsPoint then ['.', '0'] else []
  else digits.take point.toNat ++ '.' :: digits.drop point.toNat

/-- One digit, the others after a point, and the exponent. -/
def scientific (digits : List Char) (exponent : Int) : List Char :=
  let mantissa := match digits with
    | d :: e :: rest => d :: '.' :: e :: rest
    | ds => ds
  mantissa ++ 'e' :: (toString exponent).toList

def Format.magnitude (f : Format) (x : Binary64) : List Char :=
  let d := shortest x
  let digits := Nat.toDigits 10 d.digits
  let point := d.exponent + digits.length
  match f.positional with
  | some (low, high) =>
    if d.digits ≠ 0 ∧ (point - 1 < low ∨ high < point - 1) then scientific digits (point - 1)
    else spread f.keepsPoint digits point
  | none => spread f.keepsPoint digits point

/-- Zero keeps its sign, and not-a-number has none. -/
def Format.write (f : Format) (x : Binary64) : String :=
  if x.isNaN then "NaN"
  else
    let magnitude := if x.isFinite then f.magnitude x else "inf".toList
    String.ofList (if x.isNegative then '-' :: magnitude else magnitude)

end TableAlteration.Decimal
