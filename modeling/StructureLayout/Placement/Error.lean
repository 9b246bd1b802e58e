import StructureLayout.Autoscale.Basic

/-!
# Placement errors

A structure is refused for the first rule of placement that its declarations break, or, if
they break none, for all the autoscale specifications that are not valid.
-/

namespace StructureLayout

inductive PlacementError
  | overlap (field : String) (offset : Nat) (other : String) (otherOffset otherFinish : Nat)
  | paddingOverlap (field : String) (offset : Nat)
  | unexpectedGap (field : String) (declared offset : Nat)
  | bitCollision (field : String) (offset bit nextFree : Nat)
  | bitOutOfRange (field : String) (offset bit width : Nat)
  | nonPositiveCount (field : String) (offset : Nat)
  | zeroDimension (field : String) (offset index : Nat)
  | zeroSizedElement (field : String) (offset : Nat)
  | sizeOverflow (field : String) (offset : Nat)
  | duplicateName (field : String) (offset firstOffset : Nat)
  | alignmentBeforeDirective (offset : Nat)
  | alignmentAtEnd (offset : Nat)
deriving DecidableEq, Repr

namespace PlacementError

/-- How a message names a field and its offset. -/
def located (kind field : String) (offset : Nat) : String :=
  kind ++ " `" ++ field ++ "` at offset " ++ toString offset

def message : PlacementError → String
  | overlap field offset other otherOffset otherFinish =>
    located "field" field offset ++ " overlaps `" ++ other ++ "` (" ++ toString otherOffset ++
      ".." ++ toString otherFinish ++ ")"
  | paddingOverlap field offset =>
    located "field" field offset ++ " overlaps padding inserted by a directive"
  | unexpectedGap field declared offset =>
    "field `" ++ field ++ "` declared at offset " ++ toString declared ++
      " but the layout is at offset " ++ toString offset ++ "; gaps need a directive"
  | bitCollision field offset bit nextFree =>
    located "bit" field offset ++ ": bit " ++ toString bit ++
      " collides with an earlier bit (next free bit is " ++ toString nextFree ++ ")"
  | bitOutOfRange field offset bit width =>
    located "bit" field offset ++ ": bit " ++ toString bit ++ " does not fit a " ++
      toString width ++ "-bit word"
  | nonPositiveCount field offset =>
    located "iterate" field offset ++ ": count must be positive"
  | zeroDimension field offset index =>
    located "field" field offset ++ ": array dimension " ++ toString index ++ " is zero"
  | zeroSizedElement field offset => located "field" field offset ++ ": element size is zero"
  | sizeOverflow field offset =>
    located "field" field offset ++ ": size does not fit the address space"
  | duplicateName field offset firstOffset =>
    located "field" field offset ++ ": name already used by the field at offset " ++
      toString firstOffset
  | alignmentBeforeDirective offset =>
    "directive at offset " ++ toString offset ++ ": alignment followed by another directive"
  | alignmentAtEnd offset =>
    "directive at offset " ++ toString offset ++ ": alignment at the end of the structure"

end PlacementError

/-- An autoscale specification that a field may not have. -/
structure FieldFault where
  field : String
  offset : Nat
  fault : Autoscale.Fault
deriving DecidableEq

def FieldFault.message (e : FieldFault) : String :=
  PlacementError.located "field" e.field e.offset ++ ": " ++ e.fault.message

inductive LayoutError
  | placement (structureName : String) (error : PlacementError)
  | autoscale (structureName : String) (faults : List FieldFault)
deriving DecidableEq

namespace LayoutError

def structureName : LayoutError → String
  | placement name _ => name
  | autoscale name _ => name

def message (e : LayoutError) : String :=
  "structure `" ++ e.structureName ++ "`: " ++
    match e with
    | placement _ error => error.message
    | autoscale _ faults => toString faults.length ++ " autoscale error(s)"

end LayoutError

end StructureLayout
