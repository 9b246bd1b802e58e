import StructureLayout.Binary.Rounding
import StructureLayout.Decimal.Basic

/-!
# Reading numerals

An integer is an optional sign and at least one digit.  A number is an optional sign and
then a word for infinity or not-a-number in any case, or digits with an optional point and
an optional exponent, where at least one digit stands before the exponent.  Its value is
rounded once, to the nearest number of the format.
-/

namespace StructureLayout

namespace Numeral

def natural? (cs : List Char) : Option Nat :=
  if cs ≠ [] ∧ cs.all Char.isDigit then some (Nat.ofDigitChars 10 cs 0) else none

def splitSign : List Char → Bool × List Char
  | '-' :: cs => (true, cs)
  | '+' :: cs => (false, cs)
  | cs => (false, cs)

def integer? (cs : List Char) : Option Int :=
  let (negative, body) := splitSign cs
  (natural? body).map fun n => if negative then -(n : Int) else n

def exponent? : List Char → Option Int
  | [] => some 0
  | c :: cs => if c = 'e' ∨ c = 'E' then integer? cs else none

/-- The digits before and after the point, and what follows them. -/
def splitMantissa (cs : List Char) : List Char × List Char × List Char :=
  let whole := cs.takeWhile Char.isDigit
  match cs.dropWhile Char.isDigit with
  | '.' :: rest => (whole, rest.takeWhile Char.isDigit, rest.dropWhile Char.isDigit)
  | rest => (whole, [], rest)

def decimal? (cs : List Char) : Option Decimal :=
  let (whole, fraction, rest) := splitMantissa cs
  if whole = [] ∧ fraction = [] then none
  else (exponent? rest).map fun e =>
    ⟨Nat.ofDigitChars 10 (whole ++ fraction) 0, e - (fraction.length : Int)⟩

end Numeral

namespace Binary

variable {f : Format}

/-- The number nearest to a decimal.  A decimal whose order of magnitude is far outside the
format is infinite or zero without its power of ten being formed. -/
def ofDecimal (negative : Bool) (d : Decimal) : Binary f :=
  let order : Int := ((Nat.toDigits 10 d.coefficient).length : Int) + d.exponent
  if d.coefficient = 0 ∨ order < f.minExponent then zero negative
  else if f.overflowExponent < order then infinity negative
  else round negative d.value

def read? (cs : List Char) : Option (Binary f) :=
  let (negative, body) := Numeral.splitSign cs
  let word := String.ofList (body.map Char.toLower)
  if word = "nan" then some nan
  else if word = "inf" ∨ word = "infinity" then some (infinity negative)
  else (Numeral.decimal? body).map (ofDecimal negative)

end Binary

end StructureLayout
