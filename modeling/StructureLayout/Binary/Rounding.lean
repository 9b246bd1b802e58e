import StructureLayout.Binary.Basic

/-!
# Rounding to a format

A nonnegative rational is rounded to the nearest magnitude, a tie to the magnitude of even
rank.  `floorRank` is the rank of the largest magnitude at or below the rational.
-/

namespace StructureLayout

/-- The exponent of the greatest power of two at most `q`, for positive `q`. -/
def floorLog2 (q : Rat) : Int :=
  let e : Int := (q.num.toNat.log2 : Int) - (q.den.log2 : Int)
  if (2 : Rat) ^ e ≤ q then e else e - 1

namespace Format

/-- The exponent of the spacing of the magnitudes around `q`. -/
def spacing (f : Format) (q : Rat) : Int :=
  max f.minExponent (floorLog2 q - f.fractionBits)

def floorRank (f : Format) (q : Rat) : Nat :=
  if q ≤ 0 then 0 else
    let e := f.spacing q
    (e - f.minExponent).toNat * f.binade + (q / 2 ^ e).floor.toNat

def nearestRank (f : Format) (q : Rat) : Nat :=
  let r := f.floorRank q
  let below := q - f.magnitude r
  let above := f.magnitude (r + 1) - q
  if below < above ∨ (below = above ∧ r % 2 = 0) then r else r + 1

end Format

namespace Binary

variable {f g : Format}

/-- The number with the given sign nearest to `q`; past the finite range it is infinite. -/
def round (negative : Bool) (q : Rat) : Binary f :=
  number negative ⟨min (f.nearestRank q) f.infinityRank, by omega⟩

/-- Zero is rounded to the positive zero. -/
def ofRat (q : Rat) : Binary f := round (decide (q < 0)) q.abs

def ofInt (n : Int) : Binary f := ofRat n

/-- The nearest number of another format. -/
def convert : Binary f → Binary g
  | nan => nan
  | number negative rank =>
    if rank = Fin.last f.infinityRank then infinity negative
    else round negative (f.magnitude rank)

end Binary

end StructureLayout
