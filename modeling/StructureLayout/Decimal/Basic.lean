/-!
# Decimals

A decimal is a natural coefficient times a power of ten.  Its positional text has every
digit written out and never an exponent.
-/

namespace StructureLayout

structure Decimal where
  coefficient : Nat
  exponent : Int
deriving DecidableEq, Repr

namespace Decimal

def value (d : Decimal) : Rat := (d.coefficient : Rat) * 10 ^ d.exponent

/-- The digits, with zeros in front until more than `places` of them stand there. -/
def paddedDigits (n places : Nat) : List Char :=
  let digits := Nat.toDigits 10 n
  List.replicate (places + 1 - digits.length) '0' ++ digits

/-- A point stands `places` digits before the end. -/
def withPoint (digits : List Char) (places : Nat) : List Char :=
  digits.take (digits.length - places) ++ '.' :: digits.drop (digits.length - places)

def positional (d : Decimal) : List Char :=
  if 0 ≤ d.exponent then
    Nat.toDigits 10 d.coefficient ++ List.replicate d.exponent.toNat '0'
  else
    let places := (-d.exponent).toNat
    withPoint (paddedDigits d.coefficient places) places

end Decimal

end StructureLayout
