import TableAlteration.Decimal.Binary64

namespace TableAlteration

/-- The number `digits · 10 ^ exponent`. -/
structure Decimal where
  digits : Nat
  exponent : Int
  deriving DecidableEq, Repr

namespace Decimal

/-- The numbers that read back as a float, as fractions over one denominator: `value` is the float
itself, and `low` and `high` bound the interval, which holds its ends if `closed`. -/
structure Interval where
  low : Nat
  value : Nat
  high : Nat
  denominator : Nat
  closed : Bool

/-- The ends lie halfway to the neighbouring floats; a tie reads back as the even mantissa. -/
def Interval.of (x : Binary64) : Interval :=
  let m := x.mantissa
  let below := if x.isNarrowBelow then 1 else 2
  let up := Nat.pow 2 (x.scale - 2).toNat
  let down := Nat.pow 2 (2 - x.scale).toNat
  ⟨(4 * m - below) * up, 4 * m * up, (4 * m + 2) * up, down, m % 2 = 0⟩

/-- Whether `n / d` lies in the interval. -/
def Interval.contains (i : Interval) (n d : Nat) : Bool :=
  let point := n * i.denominator
  if i.closed then i.low * d ≤ point && point ≤ i.high * d
  else i.low * d < point && point < i.high * d

/-- The exponent of the leading digit of `n / d`, for positive `n` and `d`. -/
def leading (n d : Nat) : Int :=
  if d ≤ n then (Nat.toDigits 10 (n / d)).length - 1
  else
    let k := (Nat.toDigits 10 (d / n)).length
    if d ≤ n * Nat.pow 10 (k - 1) then 1 - (k : Int) else -(k : Int)

/-- The interval's points on the grid of the multiples of `10 ^ e` next to its value; the nearer
one, if there are two. -/
def Interval.onGrid (i : Interval) (e : Int) : Option Decimal :=
  let unit := Nat.pow 10 e.toNat
  let parts := Nat.pow 10 (-e).toNat
  let floor := i.value * parts / (i.denominator * unit)
  let below := i.contains (floor * unit) parts
  let above := i.contains ((floor + 1) * unit) parts
  let nearerAbove := (2 * floor + 1) * unit * i.denominator ≤ 2 * i.value * parts
  if above && (!below || nearerAbove) then some ⟨floor + 1, e⟩
  else if below then some ⟨floor, e⟩
  else none

/-- Zeros at the end are taken into the exponent; a number has at most `fuel` of them. -/
def stripped : Nat → Decimal → Decimal
  | 0, d => d
  | fuel + 1, d =>
    if d.digits ≠ 0 ∧ d.digits % 10 = 0 then stripped fuel ⟨d.digits / 10, d.exponent + 1⟩ else d

/-- The shortest decimal that reads back as the float, and of those the nearest. Grids of one digit,
two digits and so on are tried in turn; 17 digits tell all floats apart. -/
def shortest (x : Binary64) : Decimal :=
  if x.mantissa = 0 then ⟨0, 0⟩
  else
    let i := Interval.of x
    let e := leading i.value i.denominator
    let found := (List.range 17).findSome? fun (n : Nat) => i.onGrid (e - n)
    stripped 17 (found.getD ⟨0, 0⟩)

end Decimal

end TableAlteration
