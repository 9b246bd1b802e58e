import StructureLayout.Image.Bytes

/-!
# Images

An image holds the bytes of a structure.  Through a layout its elements are read and written
as stored values or in engineering units, and its flags as truth values.  An access that is
refused leaves the image as it is.
-/

namespace StructureLayout

abbrev Image := List UInt8

inductive AccessError
  | unknownField (field : String)
  | indexOutOfRange (field : String) (index count : Nat)
  | shortImage (needed available : Nat)
  | notPrimitive (field : String)
  | notFlag (field : String)
  | typeMismatch (field : String) (expected found : Primitive)
deriving DecidableEq, Repr

def AccessError.message : AccessError → String
  | unknownField field => "Unknown field: " ++ field
  | indexOutOfRange field index count =>
    "Index " ++ toString index ++ " out of range for `" ++ field ++ "` (" ++ toString count ++
      " element(s))"
  | shortImage needed available =>
    "Image too short: need " ++ toString needed ++ " byte(s), have " ++ toString available
  | notPrimitive field => "Field `" ++ field ++ "` is not a primitive scalar or array"
  | notFlag field => "Field `" ++ field ++ "` is not a bit field"
  | typeMismatch field expected found =>
    "Value type " ++ found.name ++ " does not match `" ++ field ++ "` (" ++ expected.name ++ ")"

namespace Image

def slice (image : Image) (offset count : Nat) : Except AccessError (List UInt8) :=
  if offset + count ≤ image.length then .ok ((image.drop offset).take count)
  else .error (.shortImage (offset + count) image.length)

/-- The image with other bytes from an offset on. -/
def splice (image : Image) (offset : Nat) (bytes : List UInt8) : Except AccessError Image :=
  if offset + bytes.length ≤ image.length then
    .ok (image.take offset ++ bytes ++ image.drop (offset + bytes.length))
  else .error (.shortImage (offset + bytes.length) image.length)

end Image

/-- Where one element of a primitive field stands. -/
structure Element where
  type : Primitive
  offset : Nat
  scaling : Option Autoscale

/-- Where a flag stands. -/
structure FlagPlace where
  word : Width
  offset : Nat
  bit : Nat

/-- The bits with one of them given. -/
def setBit (bits index : Nat) (on : Bool) : Nat :=
  if bits.testBit index = on then bits else bits ^^^ (1 <<< index)

namespace Layout

variable (l : Layout)

def blankImage : Image := List.replicate l.totalSize 0

def entry (name : String) : Except AccessError (Entry Layout) :=
  match l.get? name with
  | some e => .ok e
  | none => .error (.unknownField name)

def element (name : String) (index : Nat) : Except AccessError Element := do
  let e ← l.entry name
  match e.primitive? with
  | none => .error (.notPrimitive name)
  | some type =>
    if index < e.elements then .ok ⟨type, e.offset + index * type.size, e.scaling?⟩
    else .error (.indexOutOfRange name index e.elements)

def flagPlace (name : String) : Except AccessError FlagPlace := do
  match ← l.entry name with
  | .field _ _ _ _ => .error (.notFlag name)
  | .flag _ offset word bit => .ok ⟨word, offset, bit⟩

def read (image : Image) (name : String) (index : Nat) : Except AccessError Value := do
  let e ← l.element name index
  let bytes ← image.slice e.offset e.type.size
  return .ofBits e.type (l.options.byteOrder.decode bytes)

/-- The value has to be of the type of the element. -/
def write (image : Image) (name : String) (index : Nat) (v : Value) :
    Except AccessError Image := do
  let e ← l.element name index
  if v.type = e.type then
    image.splice e.offset (l.options.byteOrder.encode e.type.size v.toBits)
  else .error (.typeMismatch name e.type v.type)

def readScaled (image : Image) (name : String) (index : Nat) : Except AccessError Binary64 := do
  let e ← l.element name index
  let stored ← l.read image name index
  return match e.scaling with
    | some a => a.decode stored
    | none => stored.toBinary64

/-- What is stored for an engineering value; without an autoscale the value itself, as
nearly as the type holds it. -/
def storedFor (e : Element) (v : Binary64) : Value :=
  match e.scaling, e.type with
  | some a, _ => a.encode v
  | none, .integer t => .ofInt (.integer t) (v.toIntClamped t.least t.greatest)
  | none, .float => .float v.convert

def writeScaled (image : Image) (name : String) (index : Nat) (v : Binary64) :
    Except AccessError Image := do
  let e ← l.element name index
  l.write image name index (storedFor e v)

def readFlag (image : Image) (name : String) : Except AccessError Bool := do
  let p ← l.flagPlace name
  let bytes ← image.slice p.offset p.word.bytes
  return (l.options.byteOrder.decode bytes).testBit p.bit

/-- The other bits of the word are kept. -/
def writeFlag (image : Image) (name : String) (on : Bool) : Except AccessError Image := do
  let p ← l.flagPlace name
  let bytes ← image.slice p.offset p.word.bytes
  let bits := setBit (l.options.byteOrder.decode bytes) p.bit on
  image.splice p.offset (l.options.byteOrder.encode p.word.bytes bits)

/-- An element in engineering units, with what is stored in parentheses. -/
def display (image : Image) (name : String) (index : Nat) : Except AccessError String := do
  let stored ← l.read image name index
  let e ← l.entry name
  return stored.scaledText e.scaling? e.annotation.units

end Layout

end StructureLayout
