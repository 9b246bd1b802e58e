import StructureLayout.Autoscale.Spec

/-!
# Fields and flags

A field has a name and a content, which is a primitive or a structure, and is an array when
it has dimensions.  A flag is one bit of a word that neighbouring flags share.  The type of
structures is a parameter here; `Layout` is the one it stands for.
-/

namespace StructureLayout

/-- What is told about a field; it never moves a field. -/
structure Annotation where
  comment : Option String := none
  units : Option String := none
  least : Binary64 := .zero false
  greatest : Binary64 := .zero false
  digits : Nat := 0
  scriptVisible : Bool := false
deriving DecidableEq

/-- Which instance of which repeated field a field is. -/
structure Origin where
  template : String
  index : Nat
deriving DecidableEq, Repr

inductive Content (σ : Type)
  | primitive (p : Primitive)
  | nested (s : σ)

structure Field (σ : Type) where
  name : String
  content : Content σ
  dimensions : List Nat := []
  /-- The named constant that the dimension was declared with. -/
  dimensionName : Option String := none
  /-- The autoscale specification as it was written. -/
  autoscale : Option String := none
  /-- The offset the field is declared to land on. -/
  offset : Option Nat := none
  annotation : Annotation := {}
  origin : Option Origin := none

structure Flag where
  name : String
  trueName : Option String := none
  falseName : Option String := none
  /-- The bit the flag is declared to land on. -/
  bit : Option Nat := none
  /-- The offset its word is declared to land on. -/
  offset : Option Nat := none
  annotation : Annotation := {}
deriving DecidableEq

namespace Content

def primitive? {σ : Type} : Content σ → Option Primitive
  | primitive p => some p
  | nested _ => none

def nested? {σ : Type} : Content σ → Option σ
  | primitive _ => none
  | nested s => some s

end Content

namespace Field

variable {σ : Type} (f : Field σ)

/-- The number of elements, and one for a scalar. -/
def elements : Nat := max 1 (f.dimensions.foldl (· * ·) 1)

/-- A scale and a bias are kept as the specification that they are written as. -/
def withScale (scale bias : Binary64) : Field σ :=
  { f with autoscale := some (Spec.write scale bias) }

end Field

end StructureLayout
