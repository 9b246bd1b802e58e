/-!
# Blank characters

The characters that count as white space, and texts without them at their ends.
-/

namespace StructureLayout.Text

def isBlank (c : Char) : Bool :=
  let n := c.toNat
  (9 ≤ n && n ≤ 13) || n == 0x20 || n == 0x85 || n == 0xA0 || n == 0x1680 ||
    (0x2000 ≤ n && n ≤ 0x200A) || n == 0x2028 || n == 0x2029 || n == 0x202F ||
    n == 0x205F || n == 0x3000

/-- The text without the characters of a class at its end. -/
def dropTail (p : Char → Bool) (cs : List Char) : List Char :=
  (cs.reverse.dropWhile p).reverse

def trimWith (p : Char → Bool) (cs : List Char) : List Char := dropTail p (cs.dropWhile p)

def trim (cs : List Char) : List Char := trimWith isBlank cs

end StructureLayout.Text
