import StructureLayout.Binary.Basic

/-!
# Bit patterns

The bits of a number are its rank with the sign in front.  Every pattern above infinity
denotes not-a-number, and not-a-number is written with the highest fraction bit alone.
-/

namespace StructureLayout.Binary

variable {f : Format}

def signBit (f : Format) : Nat := 1 <<< (f.exponentBits + f.fractionBits)

def toBits : Binary f → Nat
  | nan => f.infinityRank + f.binade / 2
  | number negative rank => (if negative then signBit f else 0) + rank

def ofBits (bits : Nat) : Binary f :=
  if h : bits % signBit f ≤ f.infinityRank then
    number ((bits / signBit f) % 2 = 1) ⟨bits % signBit f, by omega⟩
  else nan

end StructureLayout.Binary
