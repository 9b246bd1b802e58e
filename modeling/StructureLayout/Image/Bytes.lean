import StructureLayout.Value
import StructureLayout.Binary.Encoding
import StructureLayout.Layout

/-!
# Values as bytes

The bits of a value, read as a natural number, are written as bytes in the byte order of the
layout.
-/

namespace StructureLayout

namespace ByteOrder

/-- The given number of bytes, the lowest first; what is above them is dropped. -/
def lowFirst : Nat → Nat → List UInt8
  | 0, _ => []
  | count + 1, n => UInt8.ofNat (n % 256) :: lowFirst count (n / 256)

def ofLowFirst : List UInt8 → Nat
  | [] => 0
  | b :: bs => b.toNat + 256 * ofLowFirst bs

def encode (order : ByteOrder) (count n : Nat) : List UInt8 :=
  match order with
  | little => lowFirst count n
  | big => (lowFirst count n).reverse

def decode (order : ByteOrder) (bytes : List UInt8) : Nat :=
  match order with
  | little => ofLowFirst bytes
  | big => ofLowFirst bytes.reverse

theorem length_lowFirst (count n : Nat) : (lowFirst count n).length = count := by
  induction count generalizing n with
  | zero => rfl
  | succ count ih => rw [lowFirst, List.length_cons, ih]

theorem length_encode (order : ByteOrder) (count n : Nat) :
    (order.encode count n).length = count := by
  cases order
  · rw [encode, List.length_reverse, length_lowFirst]
  · exact length_lowFirst count n

end ByteOrder

namespace IntegerType

/-- Negative numbers stand in the upper half of the patterns. -/
def toBits (t : IntegerType) (n : Int) : Nat := (n % ((1 <<< t.width.bits : Nat) : Int)).toNat

def ofBits (t : IntegerType) (bits : Nat) : Int :=
  let modulus := 1 <<< t.width.bits
  if t.isSigned then (bits : Int).bmod modulus else ((bits % modulus : Nat) : Int)

end IntegerType

namespace Value

def toBits : Value → Nat
  | integer t n _ => t.toBits n
  | float x => x.toBits

def ofBits : Primitive → Nat → Value
  | .integer t, bits => ofInt (.integer t) (t.ofBits bits)
  | .float, bits => float (.ofBits bits)

end Value

end StructureLayout
