import StructureLayout.Value

/-!
# Autoscale

A scaled field stores counts.  The engineering value of a count is the count divided by the
scale plus the bias, and a value is stored as the nearest count that its type holds.
-/

namespace StructureLayout

/-- The engineering value of a number of counts. -/
def engineeringOf {α : Type} [Add α] [Div α] (scale bias counts : α) : α :=
  counts / scale + bias

/-- The number of counts of an engineering value, before it is rounded. -/
def countsOf {α : Type} [Sub α] [Mul α] (scale bias v : α) : α := (v - bias) * scale

/-- Why a scale and a bias are refused. -/
inductive Autoscale.Fault
  | malformed (spec : String)
  | zeroScale
  | nonFiniteScale (scale : Binary64)
  | nonFiniteBias (bias : Binary64)
  | nonIntegerStorage (type : String)
deriving DecidableEq

def Autoscale.Fault.message : Autoscale.Fault → String
  | malformed spec => "malformed autoscale spec `" ++ spec ++ "`"
  | zeroScale => "scale is zero"
  | nonFiniteScale scale => "scale " ++ scale.text ++ " is not finite"
  | nonFiniteBias bias => "bias " ++ bias.text ++ " is not finite"
  | nonIntegerStorage type => "storage type `" ++ type ++ "` is not an integer type"

structure Autoscale where
  scale : Binary64
  bias : Binary64
  storage : IntegerType
  scale_finite : scale.isFinite
  scale_nonzero : scale.isZero = false
  bias_finite : bias.isFinite
deriving DecidableEq

namespace Autoscale

/-- The faults of the scale come before those of the bias and of the storage type. -/
def validate (scale bias : Binary64) (storage : Primitive) :
    Except Fault Autoscale :=
  if scale_finite : scale.isFinite then
    if scale_nonzero : scale.isZero = false then
      if bias_finite : bias.isFinite then
        match storage with
        | .integer t => .ok ⟨scale, bias, t, scale_finite, scale_nonzero, bias_finite⟩
        | .float => .error (.nonIntegerStorage Primitive.float.name)
      else .error (.nonFiniteBias bias)
    else .error .zeroScale
  else .error (.nonFiniteScale scale)

variable (a : Autoscale)

/-- The engineering value of one count. -/
def resolution : Binary64 := .ofInt 1 / a.scale

/-- The count stored for an engineering value, and zero for not-a-number. -/
def encodeCount (v : Binary64) : Int :=
  (countsOf a.scale a.bias v).toIntClamped a.storage.least a.storage.greatest

def encode (v : Binary64) : Value := .ofInt (.integer a.storage) (a.encodeCount v)

def decodeCount (n : Int) : Binary64 := engineeringOf a.scale a.bias (.ofInt n)

/-- A float holds no counts and is taken for zero. -/
def decode (v : Value) : Binary64 := a.decodeCount (v.toInt?.getD 0)

/-- The engineering values of the two limits of the storage, the smaller one first. -/
def valueRange : Binary64 × Binary64 :=
  let first := a.decodeCount a.storage.least
  let last := a.decodeCount a.storage.greatest
  if first.atMost last then (first, last) else (last, first)

/-- Equality by value. -/
def equals (a b : Autoscale) : Bool :=
  a.scale.equals b.scale && a.bias.equals b.bias && a.storage == b.storage

end Autoscale

/-- A value in engineering units, with what is stored in parentheses. -/
def Value.scaledText (v : Value) (scaling : Option Autoscale) (units : Option String) : String :=
  match scaling with
  | none => v.text
  | some a =>
    let stored := " (" ++ v.text ++ ")"
    match units with
    | none | some "" => (a.decode v).text ++ stored
    | some u => (a.decode v).text ++ " " ++ u ++ stored

end StructureLayout
