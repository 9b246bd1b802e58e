import StructureLayout.Autoscale.Basic
import StructureLayout.Binary.Encoding
import StructureLayout.Decimal.Numeral
import StructureLayout.Text.Blank

/-!
# Autoscale specifications

A specification is a scale and, after a comma, an optional bias.  A scale is a number, a
power `2^n`, or one quotient of these.  Braces may stand around the whole and around the
terms, and blanks around each part.
-/

namespace StructureLayout.Spec

/-- The text within one pair of braces, if the pair encloses it. -/
def unwrap (cs : List Char) : List Char :=
  match cs with
  | '{' :: rest => if rest.getLast? = some '}' then rest.dropLast else cs
  | _ => cs

/-- Blanks, the braces that open and close, and the blanks within them are dropped. -/
def bare (cs : List Char) : List Char :=
  Text.trim (Text.dropTail (· == '}') ((Text.trim cs).dropWhile (· == '{')))

/-- The text before and after the first occurrence of a character. -/
def splitFirst (c : Char) (cs : List Char) : List Char × Option (List Char) :=
  match cs.dropWhile (· != c) with
  | [] => (cs, none)
  | _ :: rest => (cs.takeWhile (· != c), some rest)

/-- Two to an integer of at most 62 in size, which may stand in parentheses. -/
def power? (cs : List Char) : Option Binary64 :=
  match Numeral.integer? (Text.trimWith (fun c => c == '(' || c == ')') cs) with
  | some n => if n.natAbs ≤ 62 then some (.ofRat (2 ^ n)) else none
  | none => none

def term? : List Char → Option Binary64
  | '2' :: '^' :: cs => power? cs
  | cs => Binary.read? cs

def scale? (cs : List Char) : Option Binary64 :=
  match splitFirst '/' (bare cs) with
  | (whole, none) => term? whole
  | (numerator, some denominator) =>
    if '/' ∈ denominator then none
    else do
      let n ← term? (bare numerator)
      let d ← term? (bare denominator)
      return n / d

/-- The scale and the bias, which is zero unless it is given. -/
def read? (text : String) : Option (Binary64 × Binary64) :=
  let cs := Text.trim (unwrap (Text.trim text.toList))
  if cs = [] then none
  else
    match splitFirst ',' cs with
    | (scale, none) => (scale? scale).map (·, .zero false)
    | (scale, some bias) => do
      let s ← scale? scale
      let b ← Binary.read? (Text.trim bias)
      return (s, b)

/-- The specification of two numbers. -/
def write (scale bias : Binary64) : String := scale.text ++ ", " ++ bias.text

end StructureLayout.Spec

namespace StructureLayout

def Autoscale.ofSpec (spec : String) (storage : Primitive) : Except Fault Autoscale :=
  match Spec.read? spec with
  | some (scale, bias) => validate scale bias storage
  | none => .error (.malformed spec)

end StructureLayout
