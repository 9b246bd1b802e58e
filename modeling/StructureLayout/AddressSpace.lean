/-!
# Address spaces

Offsets and sizes are natural numbers.  In a bounded address space a sum or a product that
exceeds the limit has no value, or the limit where it is asked to saturate; an unbounded
space has every natural number.
-/

namespace StructureLayout

structure AddressSpace where
  limit : Option Nat
deriving DecidableEq, Repr

namespace AddressSpace

/-- Addresses of 64 bits. -/
def wide : AddressSpace := ⟨some 0xFFFFFFFFFFFFFFFF⟩

def unbounded : AddressSpace := ⟨none⟩

variable (space : AddressSpace)

def fits (n : Nat) : Bool :=
  match space.limit with
  | some limit => decide (n ≤ limit)
  | none => true

def check? (n : Nat) : Option Nat := if space.fits n then some n else none

def add? (m n : Nat) : Option Nat := space.check? (m + n)

theorem check?_eq_some_iff {n k : Nat} :
    space.check? n = some k ↔ k = n ∧ space.fits n = true := by
  unfold check?
  split
  · rename_i h
    constructor
    · intro hk
      exact ⟨(Option.some.inj hk).symm, h⟩
    · rintro ⟨rfl, _⟩
      rfl
  · rename_i h
    constructor
    · intro hk
      cases hk
    · rintro ⟨_, hn⟩
      exact absurd hn h

def mul? (m n : Nat) : Option Nat := space.check? (m * n)

def saturate (n : Nat) : Nat :=
  match space.limit with
  | some limit => min n limit
  | none => n

/-- The limit in place of a value that the space does not have. -/
def orLimit (n : Option Nat) : Nat := n.getD (space.limit.getD 0)

end AddressSpace

end StructureLayout
