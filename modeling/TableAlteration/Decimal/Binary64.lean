namespace TableAlteration

/-- A floating-point number as its 64 bits: a sign, an exponent of 11 bits and a fraction of 52. -/
structure Binary64 where
  bits : UInt64
  deriving DecidableEq, Repr

namespace Binary64

def zero : Binary64 := ⟨0⟩

def ofFloat (x : Float) : Binary64 := ⟨x.toBits⟩

def isNegative (x : Binary64) : Bool := Nat.pow 2 63 ≤ x.bits.toNat

def exponentField (x : Binary64) : Nat := x.bits.toNat / Nat.pow 2 52 % Nat.pow 2 11

def fraction (x : Binary64) : Nat := x.bits.toNat % Nat.pow 2 52

def isFinite (x : Binary64) : Bool := x.exponentField != 2047

def isNaN (x : Binary64) : Bool := !x.isFinite && x.fraction != 0

/-- Numbers with the exponent field zero lack the leading one of the others. -/
def mantissa (x : Binary64) : Nat :=
  if x.exponentField = 0 then x.fraction else Nat.pow 2 52 + x.fraction

/-- A finite number is `mantissa · 2 ^ scale`, up to its sign. -/
def scale (x : Binary64) : Int :=
  if x.exponentField = 0 then -1074 else x.exponentField - 1075

/-- At a power of two the next number below is only half as far as the next one above. -/
def isNarrowBelow (x : Binary64) : Bool := x.fraction = 0 && 1 < x.exponentField

end Binary64

end TableAlteration
