import StructureLayout.Binary.Arithmetic

/-!
# Primitive types

The elements of a configuration structure are integers of one, two or four bytes, signed or
not, and single-precision numbers.
-/

namespace StructureLayout

/-- How many bytes an integer or a word of bits takes. -/
inductive Width
  | one
  | two
  | four
deriving DecidableEq, Repr

namespace Width

def bytes : Width → Nat
  | one => 1
  | two => 2
  | four => 4

def bits (w : Width) : Nat := 8 * w.bytes

theorem bytes_pos (w : Width) : 0 < w.bytes := by cases w <;> decide

theorem bits_pos (w : Width) : 0 < w.bits := by cases w <;> decide

end Width

structure IntegerType where
  isSigned : Bool
  width : Width
deriving DecidableEq, Repr

namespace IntegerType

def least (t : IntegerType) : Int :=
  if t.isSigned then -((1 <<< (t.width.bits - 1) : Nat) : Int) else 0

def greatest (t : IntegerType) : Int :=
  if t.isSigned then ((1 <<< (t.width.bits - 1) : Nat) : Int) - 1
  else ((1 <<< t.width.bits : Nat) : Int) - 1

theorem least_nonpos (t : IntegerType) : t.least ≤ 0 := by
  rcases t with ⟨s, w⟩
  cases s <;> cases w <;> decide

theorem greatest_nonneg (t : IntegerType) : 0 ≤ t.greatest := by
  rcases t with ⟨s, w⟩
  cases s <;> cases w <;> decide

def clamp (t : IntegerType) (n : Int) : Int := clampInt t.least t.greatest n

theorem clamp_mem (t : IntegerType) (n : Int) :
    t.least ≤ t.clamp n ∧ t.clamp n ≤ t.greatest := by
  have hl := t.least_nonpos
  have hg := t.greatest_nonneg
  unfold clamp clampInt
  omega

end IntegerType

inductive Primitive
  | integer (type : IntegerType)
  | float
deriving DecidableEq, Repr

namespace Primitive

def all : List Primitive :=
  [true, false].flatMap (fun signed =>
    [Width.one, .two, .four].map fun width => integer ⟨signed, width⟩) ++ [float]

def size : Primitive → Nat
  | integer t => t.width.bytes
  | float => 4

/-- A primitive is aligned at the multiples of its size. -/
def alignment (p : Primitive) : Nat := p.size

def isInteger : Primitive → Bool
  | integer _ => true
  | float => false

def isSigned : Primitive → Bool
  | integer t => t.isSigned
  | float => true

/-- The type's name in a header. -/
def name : Primitive → String
  | integer t => (if t.isSigned then "" else "u") ++ "int" ++ toString t.width.bits ++ "_t"
  | float => "float"

def ofName? (name : String) : Option Primitive := all.find? fun p => p.name == name

/-- The least and the greatest number that is stored; infinities aside for a float. -/
def range : Primitive → Binary64 × Binary64
  | integer t => (.ofInt t.least, .ofInt t.greatest)
  | float =>
    let extreme (negative : Bool) : Binary64 :=
      .round negative (Format.binary32.magnitude (Format.binary32.infinityRank - 1))
    (extreme true, extreme false)

/-- The type's name in a field table, where four-byte signed integers are the plain ones. -/
def tag : Primitive → String
  | integer ⟨true, .four⟩ => "INT"
  | integer t => (if t.isSigned then "" else "U") ++ "INT" ++ toString t.width.bits
  | float => "FLOAT"

theorem size_pos (p : Primitive) : 0 < p.size := by
  cases p with
  | integer t => exact t.width.bytes_pos
  | float => decide

end Primitive

end StructureLayout
