import StructureLayout.Binary.Rounding

/-!
# Floating-point arithmetic

Each operation computes on the exact rationals and rounds once.  Invalid operations give
not-a-number, and an exact sum of zero is the positive zero unless both terms are negative.
-/

namespace StructureLayout

/-- The nearest integer, halves away from zero. -/
def roundHalfAway (q : Rat) : Int :=
  if q < 0 then -(1 / 2 - q).floor else (1 / 2 + q).floor

def clampInt (lo hi n : Int) : Int := max lo (min hi n)

namespace Binary

variable {f : Format}

def neg : Binary f → Binary f
  | nan => nan
  | number negative rank => number (!negative) rank

def add (x y : Binary f) : Binary f :=
  if x.isNaN || y.isNaN then nan
  else if x.isInfinite then
    if y.isInfinite && x.isNegative != y.isNegative then nan else x
  else if y.isInfinite then y
  else
    let sum := x.value + y.value
    if sum = 0 then zero (x.isNegative && y.isNegative) else ofRat sum

def sub (x y : Binary f) : Binary f := add x (neg y)

def mul (x y : Binary f) : Binary f :=
  if x.isNaN || y.isNaN then nan
  else
    let negative := x.isNegative != y.isNegative
    if x.isInfinite || y.isInfinite then
      if x.isZero || y.isZero then nan else infinity negative
    else round negative (x.value * y.value).abs

def div (x y : Binary f) : Binary f :=
  if x.isNaN || y.isNaN then nan
  else
    let negative := x.isNegative != y.isNegative
    if x.isInfinite then
      if y.isInfinite then nan else infinity negative
    else if y.isInfinite then zero negative
    else if y.isZero then
      if x.isZero then nan else infinity negative
    else round negative (x.value / y.value).abs

instance : Neg (Binary f) := ⟨neg⟩

instance : Add (Binary f) := ⟨add⟩

instance : Sub (Binary f) := ⟨sub⟩

instance : Mul (Binary f) := ⟨mul⟩

instance : Div (Binary f) := ⟨div⟩

/-- The nearest integer between the limits, halves away from zero; zero for not-a-number. -/
def toIntClamped (lo hi : Int) : Binary f → Int
  | nan => 0
  | number negative rank =>
    if rank = Fin.last f.infinityRank then
      if negative then lo else hi
    else clampInt lo hi (roundHalfAway (value (number negative rank)))

end Binary

end StructureLayout
