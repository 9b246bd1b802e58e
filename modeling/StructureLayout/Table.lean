import StructureLayout.Layout
import StructureLayout.Text.Uppercase

/-!
# Field tables

A table lists every primitive field and every flag of a layout with its offset.  A field
that holds a structure gives the rows of that structure, for each of its elements, moved to
the place of the element and named after the field.
-/

namespace StructureLayout

inductive RowKind
  | primitive (p : Primitive)
  | bit (index : Nat)
deriving DecidableEq, Repr

namespace RowKind

def tag : RowKind → String
  | primitive p => p.tag
  | bit _ => "BIT"

def bit? : RowKind → Option Nat
  | primitive _ => none
  | bit index => some index

end RowKind

structure Row where
  name : String
  offset : Nat
  kind : RowKind
deriving DecidableEq, Repr

structure Table where
  name : String
  rows : List Row
deriving DecidableEq, Repr

namespace Layout

/-- What stands before the names of the members of one element; the element is numbered
if there is more than one. -/
def memberStem (field : String) (elements index : Nat) : String :=
  field ++ (if 1 < elements then toString index else "") ++ "_"

/-- The rows of one entry, given those of the structure that it holds. -/
def entryRows (stem : String) (base : Nat) :
    Entry (Layout × (String → Nat → List Row)) → List Row
  | .flag b offset _ bit => [⟨stem ++ b.name, base + offset, .bit bit⟩]
  | .field f offset _ _ =>
    match f.content with
    | .primitive p => [⟨stem ++ f.name, base + offset, .primitive p⟩]
    | .nested (s, rows) =>
      (List.range f.elements).flatMap fun i =>
        rows (memberStem (stem ++ f.name) f.elements i) (base + offset + i * s.totalSize)

/-- The rows of a layout that stands at an offset, under names with a common stem. -/
def rowsFrom : Layout → String → Nat → List Row :=
  fold fun _ entries stem base => entries.flatMap (entryRows stem base)

theorem rowsFrom_eq (l : Layout) (stem : String) (base : Nat) :
    l.rowsFrom stem base =
      (l.entries.map (foldEntry fun _ entries stem base =>
        entries.flatMap (entryRows stem base))).flatMap (entryRows stem base) := by
  rw [rowsFrom, fold_eq]

def table (l : Layout) : Table := ⟨l.name, l.rowsFrom "" 0⟩

end Layout

namespace Table

def get? (t : Table) (name : String) : Option Row := t.rows.find? fun r => r.name == name

def names (t : Table) : List String := t.rows.map (·.name)

end Table

namespace Row

/-- One line: the name in upper case, the offset, the tag, and the index of a bit. -/
def text (r : Row) : String :=
  Text.upper r.name ++ " " ++ toString r.offset ++ " " ++ r.kind.tag ++
    (match r.kind.bit? with
    | some index => " " ++ toString index
    | none => "") ++ "\n"

end Row

def Table.text (t : Table) : String :=
  "// " ++ t.name ++ "\n" ++ String.join (t.rows.map Row.text)

/-- The type of an entry as it is declared, dimensions last. -/
def Entry.typeText : Entry Layout → String
  | .flag _ _ _ _ => "bit"
  | .field f _ _ _ =>
    f.content.name ++ String.join (f.dimensions.map fun d => "[" ++ toString d ++ "]")

end StructureLayout
