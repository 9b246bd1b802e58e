/-!
# Binary floating-point formats

A format has a number of exponent bits and a number of fraction bits.  Its nonnegative
magnitudes, listed in increasing order from zero, are numbered by their rank; the rank is
also the bit pattern of the magnitude.  The rank after the largest finite magnitude stands
for infinity, and `magnitude` continues the spacing of the last binade there, so that the
order of ranks is the order of magnitudes with infinity included.
-/

namespace StructureLayout

structure Format where
  exponentBits : Nat
  fractionBits : Nat
deriving DecidableEq, Repr

namespace Format

def binary64 : Format := ⟨11, 52⟩

def binary32 : Format := ⟨8, 23⟩

/-- How many magnitudes each binade holds. -/
def binade (f : Format) : Nat := 1 <<< f.fractionBits

/-- The power of two that separates the smallest magnitudes. -/
def minExponent (f : Format) : Int :=
  2 - ((1 <<< (f.exponentBits - 1) : Nat) : Int) - f.fractionBits

def infinityRank (f : Format) : Nat := ((1 <<< f.exponentBits) - 1) * f.binade

def magnitude (f : Format) (rank : Nat) : Rat :=
  if rank < f.binade then
    (rank : Rat) * 2 ^ f.minExponent
  else
    ((f.binade + rank % f.binade : Nat) : Rat) *
      2 ^ (f.minExponent + (rank / f.binade : Nat) - 1)

/-- Every number at least two to this power lies beyond the finite magnitudes. -/
def overflowExponent (f : Format) : Int := ((1 <<< (f.exponentBits - 1) : Nat) : Int)

theorem binade_pos (f : Format) : 0 < f.binade := by
  rw [binade, Nat.shiftLeft_eq, Nat.one_mul]
  exact Nat.two_pow_pos _

end Format

end StructureLayout
