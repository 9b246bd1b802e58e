import StructureLayout.Binary.Rounding
import StructureLayout.Decimal.Basic

/-!
# Shortest decimals

The text of a floating-point number is the decimal on the coarsest power-of-ten grid that
is rounded back to the number.  Only the two neighbours of the number on a grid are tried;
when both are rounded back the nearer one is taken, and of two equally near the upper.
-/

namespace StructureLayout

namespace Format

variable (f : Format)

def readsBack (rank : Nat) (d : Decimal) : Bool := f.nearestRank d.value == rank

def shortestOnGrid (rank : Nat) (exponent : Int) : Option Decimal :=
  let q := f.magnitude rank
  let steps := (q / 10 ^ exponent).floor.toNat
  let below : Decimal := ⟨steps, exponent⟩
  let above : Decimal := ⟨steps + 1, exponent⟩
  if f.readsBack rank below &&
      (!f.readsBack rank above || decide (q - below.value < above.value - q)) then some below
  else if f.readsBack rank above then some above
  else none

/-- A power of ten at or above `q`, for positive `q`. -/
def coarsestExponent (q : Rat) : Int :=
  if 1 ≤ q then ((Nat.toDigits 10 q.floor.toNat).length : Int)
  else 1 - ((Nat.toDigits 10 q⁻¹.floor.toNat).length : Int)

/-- Every magnitude lies on the grid of this power of ten. -/
def exactDecimal (rank : Nat) : Decimal :=
  ⟨(f.magnitude rank / 10 ^ f.minExponent).floor.toNat, f.minExponent⟩

def shortest (rank : Nat) : Decimal :=
  if rank = 0 then ⟨0, 0⟩ else
    let top := coarsestExponent (f.magnitude rank)
    ((List.range (f.fractionBits + 3)).findSome? fun (i : Nat) =>
      f.shortestOnGrid rank (top - i)).getD (f.exactDecimal rank)

end Format

namespace Binary

variable {f : Format}

def text : Binary f → String
  | nan => "NaN"
  | number negative rank =>
    let magnitude :=
      if rank = Fin.last f.infinityRank then "inf"
      else String.ofList (f.shortest rank).positional
    if negative then "-" ++ magnitude else magnitude

end Binary

end StructureLayout
