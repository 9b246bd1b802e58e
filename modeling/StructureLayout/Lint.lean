import StructureLayout.Table

/-!
# Lint

Findings do not make a layout invalid but usually point at a mistake in its declarations:
fields off their alignment, words of flags with bits to spare, and structures that would
misalign their members in an array.
-/

namespace StructureLayout

namespace Lint

inductive Severity
  | error
  | warning
deriving DecidableEq, Repr

inductive Rule
  | misaligned
  | partialBitWord
  | sizeNotWordMultiple
deriving DecidableEq, Repr

def Rule.id : Rule → String
  | misaligned => "misaligned"
  | partialBitWord => "partial-bit-word"
  | sizeNotWordMultiple => "size-not-word-multiple"

structure Finding where
  /-- The field that the finding is about, unless it is about the structure. -/
  field : Option String
  offset : Nat
  rule : Rule
  severity : Severity
  message : String
deriving DecidableEq, Repr

def sharesWord (d e : Entry Layout) : Bool :=
  d.bit?.isSome && e.bit?.isSome && d.offset == e.offset

/-- The bits up to the highest one of a run of flags. -/
def usedBits (run : List (Entry Layout)) : Nat :=
  run.foldl (fun used e => max used (e.bit?.getD 0 + 1)) 0

def wordFindings (wordBits : Nat) (first : Entry Layout) (run : List (Entry Layout)) :
    List Finding :=
  let used := usedBits run
  if used < wordBits then
    [{ field := some first.name
       offset := first.offset
       rule := .partialBitWord
       severity := .warning
       message := "bit word at " ++ toString first.offset ++ " uses " ++ toString used ++
        " of " ++ toString wordBits ++ " bits" }]
  else []

/-- A misaligned float cannot be loaded; for other types it only costs time. -/
def alignmentFindings (f : Field Layout) (e : Entry Layout) : List Finding :=
  let alignment := max 1 f.content.alignment
  if e.offset % alignment = 0 then []
  else
    [{ field := some e.name
       offset := e.offset
       rule := .misaligned
       severity := if f.content.primitive? = some .float then .error else .warning
       message := "`" ++ e.name ++ "` (" ++ e.typeText ++ ") at offset " ++
        toString e.offset ++ " is not " ++ toString alignment ++ "-byte aligned" }]

/-- The findings on one field or on the flags of one word. -/
def runFindings (wordBits : Nat) : List (Entry Layout) → List Finding
  | [] => []
  | e :: rest =>
    match e with
    | .field f _ _ _ => alignmentFindings f e
    | .flag _ _ _ _ => wordFindings wordBits e (e :: rest)

def sizeFindings (l : Layout) : List Finding :=
  let word := l.options.bitWord.bytes
  if l.totalSize % word = 0 then []
  else
    [{ field := none
       offset := l.totalSize
       rule := .sizeNotWordMultiple
       severity := .warning
       message := "structure `" ++ l.name ++ "` size " ++ toString l.totalSize ++
        " is not a multiple of " ++ toString word }]

end Lint

/-- The findings in the order of the entries, and last the one on the structure. -/
def Layout.lint (l : Layout) : List Lint.Finding :=
  (l.entries.splitBy Lint.sharesWord).flatMap (Lint.runFindings l.options.bitWord.bits) ++
    Lint.sizeFindings l

end StructureLayout
