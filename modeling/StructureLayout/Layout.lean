import StructureLayout.Field
import StructureLayout.AddressSpace

/-!
# Layouts

A layout lists the placed fields and flags of a structure in order.  A field may hold a
structure that was laid out before, so layouts are nested; `fold` computes on a layout from
what it computes on the layouts nested in its fields.
-/

namespace StructureLayout

inductive ByteOrder
  | big
  | little
deriving DecidableEq, Repr

structure Options where
  /-- The word that neighbouring flags share. -/
  bitWord : Width := .four
  byteOrder : ByteOrder := .little
deriving DecidableEq, Repr

inductive Entry (σ : Type)
  | field (f : Field σ) (offset size : Nat) (scaling : Option Autoscale)
  | flag (b : Flag) (offset : Nat) (word : Width) (bit : Nat)

structure Layout where
  name : String
  entries : List (Entry Layout)
  /-- The size with the padding that directives inserted. -/
  totalSize : Nat
  options : Options

namespace Entry

variable {σ : Type}

def name : Entry σ → String
  | field f _ _ _ => f.name
  | flag b _ _ _ => b.name

def offset : Entry σ → Nat
  | field _ offset _ _ => offset
  | flag _ offset _ _ => offset

/-- The bytes occupied, which are those of the whole word for a flag. -/
def size : Entry σ → Nat
  | field _ _ size _ => size
  | flag _ _ word _ => word.bytes

def finish (e : Entry σ) : Nat := e.offset + e.size

def bit? : Entry σ → Option Nat
  | field _ _ _ _ => none
  | flag _ _ _ bit => some bit

def scaling? : Entry σ → Option Autoscale
  | field _ _ _ scaling => scaling
  | flag _ _ _ _ => none

def content? : Entry σ → Option (Content σ)
  | field f _ _ _ => some f.content
  | flag _ _ _ _ => none

def primitive? (e : Entry σ) : Option Primitive := e.content?.bind Content.primitive?

def nested? (e : Entry σ) : Option σ := e.content?.bind Content.nested?

def dimensions : Entry σ → List Nat
  | field f _ _ _ => f.dimensions
  | flag _ _ _ _ => []

def elements : Entry σ → Nat
  | field f _ _ _ => f.elements
  | flag _ _ _ _ => 1

def annotation : Entry σ → Annotation
  | field f _ _ _ => f.annotation
  | flag b _ _ _ => b.annotation

end Entry

namespace Layout

def get? (l : Layout) (name : String) : Option (Entry Layout) :=
  l.entries.find? fun e => e.name == name

variable {α : Type} (step : Layout → List (Entry (Layout × α)) → α)

mutual

/-- The result of `step` on a layout and its entries, in which each nested layout has its
own result beside it. -/
def fold : Layout → α
  | ⟨name, entries, totalSize, options⟩ =>
    step ⟨name, entries, totalSize, options⟩ (foldEntries entries)

def foldEntries : List (Entry Layout) → List (Entry (Layout × α))
  | [] => []
  | e :: es => foldEntry e :: foldEntries es

def foldEntry : Entry Layout → Entry (Layout × α)
  | .field f offset size scaling => .field (foldField f) offset size scaling
  | .flag b offset word bit => .flag b offset word bit

def foldField : Field Layout → Field (Layout × α)
  | ⟨name, content, dimensions, dimensionName, autoscale, offset, annotation, origin⟩ =>
    ⟨name, foldContent content, dimensions, dimensionName, autoscale, offset, annotation,
      origin⟩

def foldContent : Content Layout → Content (Layout × α)
  | .primitive p => .primitive p
  | .nested s => .nested (s, fold s)

end

theorem foldEntries_eq_map (entries : List (Entry Layout)) :
    foldEntries step entries = entries.map (foldEntry step) := by
  induction entries with
  | nil => rfl
  | cons e es ih => rw [foldEntries, ih, List.map_cons]

theorem fold_eq (l : Layout) :
    fold step l = step l (l.entries.map (foldEntry step)) := by
  rcases l with ⟨name, entries, totalSize, options⟩
  rw [fold, foldEntries_eq_map]

theorem sizeOf_nested_lt {l s : Layout} {e : Entry Layout} (he : e ∈ l.entries)
    (hs : e.nested? = some s) : sizeOf s < sizeOf l := by
  have hlt := List.sizeOf_lt_of_mem he
  rcases l with ⟨name, entries, totalSize, options⟩
  rcases e with ⟨⟨fieldName, content, dimensions, _, _, _, _, _⟩, _, _, _⟩ | _
  · rcases content with _ | t
    · simp [Entry.nested?, Entry.content?, Content.nested?] at hs
    · simp only [Entry.nested?, Entry.content?, Content.nested?, Option.bind_some,
        Option.some.injEq] at hs
      subst hs
      simp only [Entry.field.sizeOf_spec, Field.mk.sizeOf_spec, Content.nested.sizeOf_spec] at hlt
      simp only [mk.sizeOf_spec]
      omega
  · simp [Entry.nested?, Entry.content?] at hs

/-- What holds of a layout as soon as it holds of the layouts nested in its fields holds of
every layout. -/
theorem nested_induction {P : Layout → Prop}
    (h : ∀ l : Layout, (∀ e ∈ l.entries, ∀ s, e.nested? = some s → P s) → P l)
    (l : Layout) : P l :=
  h l fun _ he s hs =>
    have := sizeOf_nested_lt he hs
    nested_induction h s
termination_by sizeOf l

/-- A structure is aligned as its widest member, but at four bytes at most. -/
def alignment : Layout → Nat :=
  fold fun _ entries =>
    let member : Entry (Layout × Nat) → Nat
      | .field f _ _ _ =>
        match f.content with
        | .primitive p => p.alignment
        | .nested (_, alignment) => alignment
      | .flag _ _ _ _ => 0
    max 1 (min 4 ((entries.map member).foldl max 0))

end Layout

namespace Content

def name : Content Layout → String
  | primitive p => p.name
  | nested s => s.name

/-- The size of one element. -/
def size : Content Layout → Nat
  | primitive p => p.size
  | nested s => s.totalSize

def alignment : Content Layout → Nat
  | primitive p => p.alignment
  | nested s => s.alignment

end Content

namespace Field

variable (space : AddressSpace) (f : Field Layout)

/-- The product of the dimensions, formed from the first on within the address space. -/
def elements? : Option Nat := (f.dimensions.foldlM space.mul? 1).map (max 1)

def footprint? : Option Nat := do space.mul? (← f.elements? space) f.content.size

/-- The bytes that the field occupies, or the limit of the address space. -/
def footprint : Nat := space.orLimit (f.footprint? space)

end Field

end StructureLayout
