import StructureLayout.Layout

/-!
# Equality of layouts

Two layouts are equal by value when they agree on every entry with all that was declared of
it, on the size and on the options.  Numbers are compared as numbers, so that a layout that
holds not-a-number differs from itself.
-/

namespace StructureLayout

def Annotation.equals (a b : Annotation) : Bool :=
  a.comment == b.comment && a.units == b.units && a.least.equals b.least &&
    a.greatest.equals b.greatest && a.digits == b.digits && a.scriptVisible == b.scriptVisible

def Flag.equals (a b : Flag) : Bool :=
  a.name == b.name && a.trueName == b.trueName && a.falseName == b.falseName &&
    a.bit == b.bit && a.offset == b.offset && a.annotation.equals b.annotation

/-- Whether two lists have the same length and agree in each place. -/
def agree {α β : Type} (p : α → β → Bool) : List α → List β → Bool
  | [], [] => true
  | a :: as, b :: bs => p a b && agree p as bs
  | _, _ => false

def agreeOption {α β : Type} (p : α → β → Bool) : Option α → Option β → Bool
  | none, none => true
  | some a, some b => p a b
  | _, _ => false

namespace Layout

def contentEquals : Content (Layout × (Layout → Bool)) → Content Layout → Bool
  | .primitive p, .primitive q => p == q
  | .nested (_, equals), .nested s => equals s
  | _, _ => false

def entryEquals : Entry (Layout × (Layout → Bool)) → Entry Layout → Bool
  | .field f offset size scaling, .field g offset' size' scaling' =>
    f.name == g.name && contentEquals f.content g.content && f.dimensions == g.dimensions &&
      f.dimensionName == g.dimensionName && f.autoscale == g.autoscale &&
      f.offset == g.offset && f.annotation.equals g.annotation && f.origin == g.origin &&
      offset == offset' && size == size' && agreeOption Autoscale.equals scaling scaling'
  | .flag b offset word bit, .flag c offset' word' bit' =>
    b.equals c && offset == offset' && word == word' && bit == bit'
  | _, _ => false

def equals : Layout → Layout → Bool :=
  fold fun l entries other =>
    l.name == other.name && agree entryEquals entries other.entries &&
      l.totalSize == other.totalSize && l.options == other.options

end Layout

end StructureLayout
