import StructureLayout.Image.Basic
import Mathlib.Data.Nat.Bitwise
import Mathlib.Tactic.Ring

/-!
# Values, bits and bytes

A number is read back from its bytes as far as the bytes hold it, and a value from its bits.
Giving one bit of a word leaves the others.
-/

namespace StructureLayout

namespace ByteOrder

theorem ofLowFirst_lt (bytes : List UInt8) : ofLowFirst bytes < 256 ^ bytes.length := by
  induction bytes with
  | nil => simp [ofLowFirst]
  | cons b bs ih =>
      have hb : b.toNat < 256 := b.toNat_lt
      rw [ofLowFirst, List.length_cons, Nat.pow_succ]
      omega

theorem ofLowFirst_lowFirst (count n : Nat) :
    ofLowFirst (lowFirst count n) = n % 256 ^ count := by
  induction count generalizing n with
  | zero => simp [lowFirst, ofLowFirst, Nat.mod_one]
  | succ count ih =>
      have hlow : (UInt8.ofNat (n % 256)).toNat = n % 256 := by simp
      rw [lowFirst, ofLowFirst, ih, hlow, Nat.pow_succ', Nat.mod_mul]

theorem decode_lt (order : ByteOrder) (bytes : List UInt8) :
    order.decode bytes < 256 ^ bytes.length := by
  cases order with
  | little => exact ofLowFirst_lt bytes
  | big =>
      rw [decode, ← List.length_reverse]
      exact ofLowFirst_lt bytes.reverse

theorem decode_encode (order : ByteOrder) (count n : Nat) :
    order.decode (order.encode count n) = n % 256 ^ count := by
  cases order with
  | little => exact ofLowFirst_lowFirst count n
  | big =>
      rw [decode, encode, List.reverse_reverse]
      exact ofLowFirst_lowFirst count n

end ByteOrder

theorem Width.two_pow_bits (w : Width) : 2 ^ w.bits = 256 ^ w.bytes := by
  cases w <;> rfl

/-! ## Integers -/

namespace IntegerType

variable (t : IntegerType)

theorem clamp_of_mem {t : IntegerType} {n : Int} (h : t.least ≤ n ∧ n ≤ t.greatest) :
    t.clamp n = n := by
  unfold clamp clampInt
  omega

theorem toBits_lt (n : Int) : t.toBits n < 256 ^ t.width.bytes := by
  have hpos : 0 < 256 ^ t.width.bytes := Nat.pow_pos (by decide)
  have hmod := Int.emod_lt_of_pos n (Int.natCast_pos.mpr hpos)
  rw [toBits, Nat.shiftLeft_eq, Nat.one_mul, Width.two_pow_bits]
  omega

theorem natCast_toBits (n : Int) : (t.toBits n : Int) = n % (2 ^ t.width.bits : Nat) := by
  have hpos : (0 : Int) < (2 ^ t.width.bits : Nat) := Int.natCast_pos.mpr (Nat.two_pow_pos _)
  rw [toBits, Nat.shiftLeft_eq, Nat.one_mul, Int.toNat_of_nonneg (Int.emod_nonneg n hpos.ne')]

/-- The range of a type has one number for every pattern of bits. -/
theorem ofBits_toBits {t : IntegerType} {n : Int} (h : t.least ≤ n ∧ n ≤ t.greatest) :
    t.ofBits (t.toBits n) = n := by
  have hbits := t.width.bits_pos
  have hhalf : 2 ^ t.width.bits = 2 * 2 ^ (t.width.bits - 1) := by
    rw [← Nat.pow_succ', Nat.succ_eq_add_one, Nat.sub_add_cancel hbits]
  simp only [least, greatest, Nat.shiftLeft_eq, Nat.one_mul] at h
  rw [ofBits, Nat.shiftLeft_eq, Nat.one_mul]
  cases hsigned : t.isSigned with
  | true =>
      rw [hsigned] at h
      simp only [if_true] at h ⊢
      rw [natCast_toBits, Int.emod_bmod]
      apply Int.bmod_eq_of_le_mul_two
      · omega
      · omega
  | false =>
      rw [hsigned] at h
      simp only [Bool.false_eq_true, if_false] at h ⊢
      rw [Int.natCast_mod, natCast_toBits, Int.emod_emod]
      exact Int.emod_eq_of_lt h.1 (by omega)

end IntegerType

/-! ## Single-precision numbers -/

namespace Binary

variable {f : Format}

theorem infinityRank_add_binade (f : Format) : f.infinityRank + f.binade = signBit f := by
  have hpos : 0 < 2 ^ f.exponentBits := Nat.two_pow_pos _
  simp only [Format.infinityRank, Format.binade, signBit, Nat.shiftLeft_eq, Nat.one_mul]
  rw [← Nat.succ_mul, Nat.succ_eq_add_one, Nat.sub_add_cancel hpos, Nat.pow_add]

theorem toBits_lt (x : Binary f) : x.toBits < 2 * signBit f := by
  have hsign := infinityRank_add_binade f
  have hbinade := f.binade_pos
  cases x with
  | nan =>
      rw [toBits]
      omega
  | number negative rank =>
      have hrank := rank.isLt
      rw [toBits]
      split <;> omega

theorem ofBits_toBits (hf : 0 < f.fractionBits) (x : Binary f) : ofBits x.toBits = x := by
  have hsign := infinityRank_add_binade f
  have hbinade := f.binade_pos
  cases x with
  | nan =>
      have htwo : 2 ≤ f.binade := by
        rw [Format.binade, Nat.shiftLeft_eq, Nat.one_mul]
        exact Nat.le_self_pow hf.ne' 2
      have hlt : f.infinityRank + f.binade / 2 < signBit f := by omega
      rw [toBits, ofBits, dif_neg]
      rw [Nat.mod_eq_of_lt hlt]
      omega
  | number negative rank =>
      have hrank : rank.val < signBit f := by omega
      have hmod : (toBits (number negative rank)) % signBit f = rank := by
        cases negative <;> simp [toBits, Nat.mod_eq_of_lt hrank]
      have hdiv : (toBits (number negative rank)) / signBit f = if negative then 1 else 0 := by
        cases negative with
        | false => simp [toBits, Nat.div_eq_of_lt hrank]
        | true =>
            have hpos : 0 < signBit f := by omega
            simp [toBits, Nat.add_div_left _ hpos, Nat.div_eq_of_lt hrank]
      have hle : toBits (number negative rank) % signBit f ≤ f.infinityRank := by omega
      rw [ofBits, dif_pos hle]
      simp only [hmod, hdiv]
      cases negative <;> rfl

end Binary

/-! ## Values -/

namespace Value

theorem toBits_lt (v : Value) : v.toBits < 256 ^ v.type.size := by
  cases v with
  | integer t n h => exact t.toBits_lt n
  | float x => exact Binary.toBits_lt x

theorem ofBits_toBits (v : Value) : ofBits v.type v.toBits = v := by
  cases v with
  | integer t n h =>
      have hn := IntegerType.ofBits_toBits h
      simp only [type, toBits, ofBits, ofInt, hn, IntegerType.clamp_of_mem h]
  | float x => exact congrArg float (Binary.ofBits_toBits (by decide) x)

end Value

/-! ## Bits of a word -/

theorem testBit_setBit (bits i j : Nat) (on : Bool) :
    (setBit bits i on).testBit j = if j = i then on else bits.testBit j := by
  unfold setBit
  split
  · rename_i hon
    split
    · rename_i hji
      rw [hji, hon]
    · rfl
  · rename_i hon
    rw [Nat.testBit_xor, Nat.shiftLeft_eq, Nat.one_mul, Nat.testBit_two_pow]
    by_cases hji : j = i
    · subst hji
      cases on <;> simp_all
    · simp [hji, Ne.symm hji]

theorem setBit_lt {bits i w : Nat} (hbits : bits < 2 ^ w) (hi : i < w) (on : Bool) :
    setBit bits i on < 2 ^ w := by
  unfold setBit
  split
  · exact hbits
  · rw [Nat.shiftLeft_eq, Nat.one_mul]
    exact Nat.xor_lt_two_pow hbits (Nat.pow_lt_pow_right (by decide) hi)

theorem setBit_comm {i j : Nat} (h : i ≠ j) (bits : Nat) (a b : Bool) :
    setBit (setBit bits i a) j b = setBit (setBit bits j b) i a := by
  apply Nat.eq_of_testBit_eq
  intro k
  simp only [testBit_setBit]
  by_cases hki : k = i
  · subst hki
    simp [h]
  · simp [hki]

end StructureLayout
