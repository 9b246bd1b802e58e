import StructureLayout.Binary.Format

/-!
# Floating-point numbers

A number of a format is not-a-number, or a sign with the rank of a magnitude.  Zero has
both signs.  Equality of the type tells the two zeros apart and holds for not-a-number;
`equals` and `atMost` compare as numbers do.
-/

namespace StructureLayout

inductive Binary (f : Format)
  | nan
  | number (negative : Bool) (rank : Fin (f.infinityRank + 1))
deriving DecidableEq, Repr

abbrev Binary64 := Binary .binary64

abbrev Binary32 := Binary .binary32

namespace Binary

variable {f : Format}

def signed (negative : Bool) (q : Rat) : Rat := if negative then -q else q

/-- The number denoted, where infinity stands one step beyond the largest finite number. -/
def value : Binary f → Rat
  | nan => 0
  | number negative rank => signed negative (f.magnitude rank)

def zero (negative : Bool) : Binary f := number negative 0

def infinity (negative : Bool) : Binary f := number negative (Fin.last f.infinityRank)

def isNaN : Binary f → Bool
  | nan => true
  | number _ _ => false

def isInfinite : Binary f → Bool
  | nan => false
  | number _ rank => rank == Fin.last f.infinityRank

def isFinite : Binary f → Bool
  | nan => false
  | number _ rank => rank != Fin.last f.infinityRank

def isZero : Binary f → Bool
  | nan => false
  | number _ rank => rank == 0

def isNegative : Binary f → Bool
  | nan => false
  | number negative _ => negative

/-- Not-a-number equals nothing, and the two zeros are equal. -/
def equals : Binary f → Binary f → Bool
  | number s r, number t u => value (number s r) == value (number t u)
  | _, _ => false

/-- Not-a-number is comparable with nothing. -/
def atMost : Binary f → Binary f → Bool
  | number s r, number t u => decide (value (number s r) ≤ value (number t u))
  | _, _ => false

end Binary

end StructureLayout
