import StructureLayout.Declaration
import StructureLayout.Placement.Error

/-!
# Placement

Declarations are placed in order, at a cursor that only moves on.  Flags that follow one
another share a word, which stays open until its last bit is taken or something else
follows; only then does the cursor pass it.  A declared offset or bit is checked against the
place that the order gives and never moves a field.  Autoscale faults are collected, so that
a broken rule of placement is reported before any of them.
-/

namespace StructureLayout

/-- A word of flags with bits to give. -/
structure OpenWord where
  offset : Nat
  nextBit : Nat
deriving DecidableEq, Repr

/-- What has been placed so far; entries and faults stand newest first. -/
structure Placement where
  cursor : Nat := 0
  open? : Option OpenWord := none
  entries : List (Entry Layout) := []
  faults : List FieldFault := []

namespace Placement

/-- The placed entry that covers a byte. -/
def covering? (s : Placement) (byte : Nat) : Option (Entry Layout) :=
  s.entries.find? fun e => decide (e.offset ≤ byte) && decide (byte < e.finish)

def checkDeclared (s : Placement) (field : String) (declared : Option Nat) (place : Nat) :
    Except PlacementError Unit :=
  match declared with
  | none => .ok ()
  | some d =>
    if d = place then .ok ()
    else if place < d then .error (.unexpectedGap field d place)
    else
      match s.covering? d with
      | some other => .error (.overlap field d other.name other.offset other.finish)
      | none => .error (.paddingOverlap field d)

/-- A name is given once. -/
def push (s : Placement) (e : Entry Layout) : Except PlacementError Placement :=
  match s.entries.find? fun first => first.name == e.name with
  | some first => .error (.duplicateName e.name e.offset first.offset)
  | none => .ok { s with entries := e :: s.entries }

variable (space : AddressSpace) (options : Options)

/-- The offset past `size` bytes, if the address space has it. -/
def advance (field : String) (offset size : Nat) : Except PlacementError Nat :=
  match space.add? offset size with
  | some finish => .ok finish
  | none => .error (.sizeOverflow field offset)

def checkElements (f : Field Layout) (offset : Nat) : Except PlacementError Unit :=
  match f.dimensions.findIdx? (· == 0) with
  | some index => .error (.zeroDimension f.name offset index)
  | none => if f.content.size = 0 then .error (.zeroSizedElement f.name offset) else .ok ()

def fieldSize (f : Field Layout) (offset : Nat) : Except PlacementError Nat :=
  match f.footprint? space with
  | some size => .ok size
  | none => .error (.sizeOverflow f.name offset)

/-- Only a primitive field has an autoscale. -/
def scalingOf (f : Field Layout) : Except Autoscale.Fault (Option Autoscale) :=
  match f.autoscale, f.content with
  | none, _ => .ok none
  | some spec, .primitive p => (Autoscale.ofSpec spec p).map some
  | some _, .nested l => .error (.nonIntegerStorage l.name)

def placeField (s : Placement) (f : Field Layout) : Except PlacementError Placement := do
  let offset := s.cursor
  checkElements f offset
  s.checkDeclared f.name f.offset offset
  let size ← fieldSize space f offset
  let finish ← advance space f.name offset size
  let (scaling, faults) :=
    match scalingOf f with
    | .ok scaling => (scaling, s.faults)
    | .error fault => (none, ⟨f.name, offset, fault⟩ :: s.faults)
  push { s with cursor := finish, faults := faults } (.field f offset size scaling)

/-- The bit that a flag takes in a word whose bits below `nextBit` are given. -/
def chooseBit (b : Flag) (word : OpenWord) : Except PlacementError Nat :=
  match b.bit with
  | none => .ok word.nextBit
  | some bit =>
    if options.bitWord.bits ≤ bit then
      .error (.bitOutOfRange b.name word.offset bit options.bitWord.bits)
    else if bit < word.nextBit then
      .error (.bitCollision b.name word.offset bit word.nextBit)
    else .ok bit

def placeFlag (s : Placement) (b : Flag) (next : Declaration) :
    Except PlacementError Placement := do
  let word := s.open?.getD ⟨s.cursor, 0⟩
  s.checkDeclared b.name b.offset word.offset
  let bit ← chooseBit options b word
  let s ← s.push (.flag b word.offset options.bitWord bit)
  if bit + 1 = options.bitWord.bits || !next.isFlag then
    let finish ← advance space b.name word.offset options.bitWord.bytes
    return { s with cursor := finish, open? := none }
  else
    return { s with open? := some ⟨word.offset, bit + 1⟩ }

/-- The alignment that a directive takes from what follows it. -/
def alignmentOf (cursor : Nat) : Declaration → Except PlacementError Nat
  | .field f => .ok (max 1 f.content.alignment)
  | .repetition r => .ok (max 1 r.template.content.alignment)
  | .flag _ => .ok options.bitWord.bytes
  | .pad _ | .alignNext => .error (.alignmentBeforeDirective cursor)
  | .void => .error (.alignmentAtEnd cursor)

/-- How many bytes reach the next multiple of the alignment. -/
def paddingTo (alignment cursor : Nat) : Nat := (alignment - cursor % alignment) % alignment

def placePadding (s : Placement) (n : Nat) : Except PlacementError Placement := do
  return { s with cursor := ← advance space "padding" s.cursor n }

/-- The instances are placed one after another, once all of them are known to fit. -/
def placeRepetition (s : Placement) (r : Repetition) : Except PlacementError Placement :=
  let name := r.template.name
  if r.count = 0 then .error (.nonPositiveCount name s.cursor)
  else
    match (r.size? space).bind (space.add? s.cursor) with
    | none => .error (.sizeOverflow name s.cursor)
    | some _ => (r.instances space).foldlM (placeField space) s

/-- One declaration is placed in view of the one that follows it. -/
def place (s : Placement) (d next : Declaration) : Except PlacementError Placement :=
  match d with
  | .field f => s.placeField space f
  | .flag b => s.placeFlag space options b next
  | .pad n => s.placePadding space n
  | .alignNext => do
    s.placePadding space (paddingTo (← alignmentOf options s.cursor next) s.cursor)
  | .repetition r => s.placeRepetition space r
  | .void => .ok s

def placeAll (s : Placement) : List Declaration → Except PlacementError Placement
  | [] => .ok s
  | d :: ds => do (← s.place space options d (ds.headD .void)).placeAll ds

end Placement

namespace Layout

/-- The layout of a sequence of declarations in an address space. -/
def compileIn (space : AddressSpace) (options : Options) (name : String)
    (ds : List Declaration) : Except LayoutError Layout :=
  match Placement.placeAll space options {} ds with
  | .error e => .error (.placement name e)
  | .ok s =>
    if s.faults = [] then .ok ⟨name, s.entries.reverse, s.cursor, options⟩
    else .error (.autoscale name s.faults.reverse)

def compile (options : Options) (name : String) (ds : List Declaration) :
    Except LayoutError Layout :=
  compileIn .wide options name ds

end Layout

end StructureLayout
