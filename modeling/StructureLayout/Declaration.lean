import StructureLayout.Layout
import StructureLayout.Text.Placeholder

/-!
# Declarations

A structure is declared as a sequence of fields, flags, directives and repeated fields.  The
declaration `void` stands for none, as past the end of the sequence.  Each question about a
declaration has an answer; where it does not apply the answer is neutral.
-/

namespace StructureLayout

/-- A field that is laid out a number of times. -/
structure Repetition where
  template : Field Layout
  count : Nat

inductive Declaration
  | field (f : Field Layout)
  | flag (b : Flag)
  /-- Bytes that hold nothing. -/
  | pad (n : Nat)
  /-- Padding up to the alignment of what follows. -/
  | alignNext
  | repetition (r : Repetition)
  | void

namespace Repetition

variable (space : AddressSpace) (r : Repetition)

/-- The distance from one instance to the next. -/
def stride : Nat := r.template.footprint space

def size? : Option Nat := do space.mul? (← r.template.footprint? space) r.count

def instanceAt (index : Nat) : Field Layout :=
  { r.template with
    name := Text.withIndex r.template.name index ""
    offset := r.template.offset.map fun o =>
      space.saturate (o + space.saturate (index * r.stride space))
    origin := some ⟨r.template.name, index⟩ }

def instances : List (Field Layout) := (List.range r.count).map (r.instanceAt space)

end Repetition

/-- The comment with the index of the instance in it, for an instance of a repeated field. -/
def Field.indexedComment {σ : Type} (f : Field σ) : Option String :=
  f.annotation.comment.map fun comment =>
    match f.origin with
    | some origin => Text.withIndex comment origin.index " "
    | none => comment

/-- The units, the step and the value of count zero, the limits, and the digits shown. -/
def Field.tuningLine {σ : Type} (f : Field σ) : String :=
  let (step, bias) : Binary64 × Binary64 :=
    match f.autoscale.bind Spec.read? with
    | some (scale, bias) => (.ofInt 1 / scale, bias)
    | none => (.ofInt 1, .zero false)
  let a := f.annotation
  "\"" ++ a.units.getD "" ++ "\", " ++ step.text ++ ", " ++ bias.text ++ ", " ++
    a.least.text ++ ", " ++ a.greatest.text ++ ", " ++ toString a.digits

namespace Declaration

def isVoid : Declaration → Bool
  | void => true
  | _ => false

def isFlag : Declaration → Bool
  | flag _ => true
  | _ => false

def isDirective : Declaration → Bool
  | pad _ | alignNext => true
  | _ => false

def isRepetition : Declaration → Bool
  | repetition _ => true
  | _ => false

/-- The field declared, or the template of a repeated one. -/
def field? : Declaration → Option (Field Layout)
  | field f => some f
  | repetition r => some r.template
  | _ => none

def flag? : Declaration → Option Flag
  | flag b => some b
  | _ => none

def annotation? : Declaration → Option Annotation
  | field f => some f.annotation
  | repetition r => some r.template.annotation
  | flag b => some b.annotation
  | _ => none

variable (d : Declaration)

def name? : Option String :=
  match d with
  | field f => some f.name
  | repetition r => some r.template.name
  | flag b => some b.name
  | _ => none

def content? : Option (Content Layout) := d.field?.map (·.content)

def nested? : Option Layout := d.content?.bind Content.nested?

def primitive? : Option Primitive := d.content?.bind Content.primitive?

def typeName? : Option String :=
  if d.isFlag then some "bit" else d.content?.map Content.name

def dimensions : List Nat := (d.field?.map (·.dimensions)).getD []

def isArray : Bool := !d.dimensions.isEmpty

def dimensionName? : Option String := d.field?.bind (·.dimensionName)

def trueName? : Option String := d.flag?.bind (·.trueName)

def falseName? : Option String := d.flag?.bind (·.falseName)

/-- The offset the declaration is to land on. -/
def declaredOffset? : Option Nat :=
  match d with
  | flag b => b.offset
  | _ => d.field?.bind (·.offset)

/-- The size of one element; flags answer for a word of four bytes. -/
def elementSize : Nat :=
  match d with
  | flag _ => Width.four.bytes
  | _ => (d.content?.map Content.size).getD 0

/-- The alignment expected, and zero where there is none. -/
def alignment : Nat := (d.content?.map Content.alignment).getD 0

/-- The bytes that the declaration takes before the declaration `next`.  Of a run of flags
the last one takes the word. -/
def size (space : AddressSpace) (word : Width) (next : Declaration) : Nat :=
  match d with
  | field f => f.footprint space
  | repetition r => space.orLimit (r.size? space)
  | flag _ => if next.isFlag then 0 else word.bytes
  | pad n => n
  | alignNext => 0
  | void => 0

/-- The origin of an instance of a repeated field. -/
def origin? : Option Origin :=
  match d with
  | field f => f.origin
  | _ => none

/-- The name of the template of a repeated field or of its instance. -/
def templateName? : Option String :=
  match d with
  | repetition r => some r.template.name
  | _ => d.origin?.map (·.template)

def index : Nat := (d.origin?.map (·.index)).getD 0

def isInstance : Bool := d.origin?.isSome

def autoscale? : Option String := d.field?.bind (·.autoscale)

/-- The scale and bias specified, if the specification can be read. -/
def scaleAndBias? : Option (Binary64 × Binary64) := d.autoscale?.bind Spec.read?

def scale : Binary64 := (d.scaleAndBias?.map (·.1)).getD (.zero false)

def annotation : Annotation := d.annotation?.getD {}

def indexedComment? : Option String :=
  match d with
  | field f => f.indexedComment
  | _ => d.annotation.comment

def tuningLine? : Option String := d.field?.map (·.tuningLine)

end Declaration

/-- The declaration of a placed field or flag. -/
def Entry.declaration : Entry Layout → Declaration
  | field f _ _ _ => .field f
  | flag b _ _ _ => .flag b

end StructureLayout
