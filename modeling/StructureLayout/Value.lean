import StructureLayout.Primitive
import StructureLayout.Decimal.Shortest

/-!
# Stored values

A value is what the bytes of one element hold: an integer within the range of its type, or
a single-precision number.
-/

namespace StructureLayout

inductive Value
  | integer (type : IntegerType) (n : Int) (inRange : type.least ≤ n ∧ n ≤ type.greatest)
  | float (x : Binary32)
deriving DecidableEq

namespace Value

def type : Value → Primitive
  | integer t _ _ => .integer t
  | float _ => .float

/-- An integer beyond the limits of an integer type is stored as the nearer limit; as a
float it is rounded. -/
def ofInt : Primitive → Int → Value
  | .integer t, n => integer t (t.clamp n) (t.clamp_mem n)
  | .float, n => float (.ofInt n)

def zero (p : Primitive) : Value := ofInt p 0

def toInt? : Value → Option Int
  | integer _ n _ => some n
  | float _ => none

def toBinary64 : Value → Binary64
  | integer _ n _ => .ofInt n
  | float x => x.convert

def toBinary32? : Value → Option Binary32
  | integer _ _ _ => none
  | float x => some x

def text : Value → String
  | integer _ n _ => toString n
  | float x => x.text

/-- Floats are compared as numbers. -/
def equals : Value → Value → Bool
  | integer t m _, integer u n _ => t == u && m == n
  | float x, float y => x.equals y
  | _, _ => false

theorem type_ofInt (p : Primitive) (n : Int) : (ofInt p n).type = p := by
  cases p <;> rfl

end Value

end StructureLayout
