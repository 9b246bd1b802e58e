import StructureLayout.Binary.Arithmetic
import StructureLayout.Proofs.Binary.Magnitude

/-!
# Nearest numbers

Every operation on finite numbers has the value of the number nearest to the exact result, and
the nearest number is monotone in the rational.  With infinity one step beyond the finite
numbers this carries over to all numbers but not-a-number: adding a finite number keeps the
order, and so do a product with a positive finite number and a quotient by one, which a negative
number reverses.
-/

namespace StructureLayout

theorem ratAbs_eq_abs (q : Rat) : q.abs = |q| := by
  rw [Rat.abs]
  split
  · rw [abs_of_nonneg (by assumption)]
  · rw [abs_of_nonpos (by linarith)]

namespace Binary

theorem signed_zero (negative : Bool) : signed negative 0 = 0 := by cases negative <;> simp [signed]

theorem abs_signed (negative : Bool) (q : Rat) : |signed negative q| = |q| := by
  cases negative <;> simp [signed]

theorem signed_not (negative : Bool) (q : Rat) : signed (!negative) q = -signed negative q := by
  cases negative <;> simp [signed]

theorem signed_mul_signed (b c : Bool) (p q : Rat) :
    signed b p * signed c q = signed (b != c) (p * q) := by
  cases b <;> cases c <;> simp [signed]

theorem signed_div_signed (b c : Bool) (p q : Rat) :
    signed b p / signed c q = signed (b != c) (p / q) := by
  cases b <;> cases c <;> simp [signed, neg_div, div_neg]

end Binary

namespace Format

open Binary (signed)

variable (f : Format)

/-- The value of infinity. -/
def top : Rat := f.magnitude f.infinityRank

theorem top_pos (h : 0 < f.exponentBits) : 0 < f.top := by
  have hrank : 0 < f.infinityRank := by
    have hpow : 2 ≤ 1 <<< f.exponentBits := by
      rw [Nat.shiftLeft_eq, Nat.one_mul]
      exact Nat.le_self_pow h.ne' 2
    exact Nat.mul_pos (by omega) f.binade_pos
  rw [top, ← f.magnitude_zero]
  exact f.magnitude_strictMono hrank

/-- The magnitude that a nonnegative rational is rounded to. -/
def nearestMagnitude (q : Rat) : Rat := f.magnitude (min (f.nearestRank q) f.infinityRank)

/-- The value that a rational is rounded to. -/
def nearest (q : Rat) : Rat := signed (decide (q < 0)) (f.nearestMagnitude |q|)

theorem nearestMagnitude_nonneg (q : Rat) : 0 ≤ f.nearestMagnitude q := f.magnitude_nonneg _

theorem nearestMagnitude_mono {p q : Rat} (hp : 0 ≤ p) (h : p ≤ q) :
    f.nearestMagnitude p ≤ f.nearestMagnitude q :=
  f.magnitude_strictMono.monotone (min_le_min_right _ (f.nearestRank_mono hp h))

theorem nearestMagnitude_magnitude {rank : Nat} (h : rank ≤ f.infinityRank) :
    f.nearestMagnitude (f.magnitude rank) = f.magnitude rank := by
  rw [nearestMagnitude, nearestRank_magnitude, min_eq_left h]

@[simp] theorem nearestMagnitude_zero : f.nearestMagnitude 0 = 0 := by
  have h := f.nearestMagnitude_magnitude (Nat.zero_le _)
  rwa [magnitude_zero] at h

theorem nearest_signed (negative : Bool) {q : Rat} (hq : 0 ≤ q) :
    f.nearest (signed negative q) = signed negative (f.nearestMagnitude q) := by
  rw [nearest, Binary.abs_signed, abs_of_nonneg hq]
  rcases hq.eq_or_lt with rfl | hpos
  · rw [nearestMagnitude_zero, Binary.signed_zero, Binary.signed_zero]
  · cases negative with
    | false =>
        have hsign : decide (signed false q < 0) = false := decide_eq_false hq.not_gt
        rw [hsign]
    | true =>
        have hsign : decide (signed true q < 0) = true := decide_eq_true (neg_neg_of_pos hpos)
        rw [hsign]

theorem nearest_of_nonneg {q : Rat} (hq : 0 ≤ q) : f.nearest q = f.nearestMagnitude q :=
  f.nearest_signed false hq

@[simp] theorem nearest_zero : f.nearest 0 = 0 := by
  rw [f.nearest_of_nonneg le_rfl, nearestMagnitude_zero]

theorem exists_signed (q : Rat) : ∃ negative m, 0 ≤ m ∧ q = signed negative m := by
  rcases le_total 0 q with h | h
  · exact ⟨false, q, h, rfl⟩
  · exact ⟨true, -q, neg_nonneg.mpr h, (neg_neg q).symm⟩

theorem nearest_neg (q : Rat) : f.nearest (-q) = -f.nearest q := by
  obtain ⟨negative, m, hm, rfl⟩ := exists_signed q
  rw [← Binary.signed_not, f.nearest_signed _ hm, f.nearest_signed _ hm, Binary.signed_not]

theorem nearest_mono : Monotone f.nearest := by
  intro p q h
  rcases le_total 0 p with hp | hp
  · rw [f.nearest_of_nonneg hp, f.nearest_of_nonneg (hp.trans h)]
    exact f.nearestMagnitude_mono hp h
  · have hnonpos : f.nearest p ≤ 0 := by
      rw [← neg_neg p, nearest_neg, f.nearest_of_nonneg (neg_nonneg.mpr hp)]
      exact neg_nonpos.mpr (f.nearestMagnitude_nonneg _)
    rcases le_total 0 q with hq | hq
    · rw [f.nearest_of_nonneg hq]
      exact hnonpos.trans (f.nearestMagnitude_nonneg _)
    · rw [← neg_neg p, ← neg_neg q, nearest_neg, f.nearest_neg (-q),
        f.nearest_of_nonneg (neg_nonneg.mpr hp), f.nearest_of_nonneg (neg_nonneg.mpr hq)]
      exact neg_le_neg (f.nearestMagnitude_mono (neg_nonneg.mpr hq) (neg_le_neg h))

/-- Within the finite range the nearest number is at most half the spacing away. -/
theorem abs_nearest_sub_le {q : Rat} (hq : |q| ≤ f.top) (hne : q ≠ 0) :
    2 * |f.nearest q - q| ≤ 2 ^ f.spacing |q| := by
  have hrank : f.nearestRank |q| ≤ f.infinityRank := by
    have h := f.nearestRank_mono (abs_nonneg q) hq
    rwa [top, nearestRank_magnitude] at h
  have hnear : |f.nearest q - q| = abs (f.nearestMagnitude |q| - |q|) := by
    obtain ⟨negative, m, hm, rfl⟩ := exists_signed q
    rw [f.nearest_signed _ hm, Binary.abs_signed, abs_of_nonneg hm]
    cases negative with
    | false => rfl
    | true =>
        simp only [signed, if_true]
        rw [← neg_sub', abs_neg]
  rw [hnear, nearestMagnitude, min_eq_left hrank, ← f.gap_floorRank (abs_pos.mpr hne)]
  exact f.abs_magnitude_nearestRank_sub_le (abs_nonneg q)

end Format

namespace Binary

variable {f : Format} {x y : Binary f}

/-! ## Values -/

theorem isNaN_of_isFinite (h : x.isFinite = true) : x.isNaN = false := by
  cases x with
  | nan => cases h
  | number _ _ => rfl

theorem isInfinite_of_isFinite (h : x.isFinite = true) : x.isInfinite = false := by
  cases x with
  | nan => cases h
  | number _ _ => simpa [isFinite, isInfinite] using h

theorem isNaN_of_isInfinite (h : x.isInfinite = true) : x.isNaN = false := by
  cases x with
  | nan => cases h
  | number _ _ => rfl

theorem eq_infinity_of_isInfinite (h : x.isInfinite = true) : x = infinity x.isNegative := by
  cases x with
  | nan => cases h
  | number negative rank =>
      rw [isInfinite, beq_iff_eq] at h
      rw [h]
      rfl

theorem isInfinite_infinity (negative : Bool) :
    (infinity negative : Binary f).isInfinite = true := by
  rw [infinity, isInfinite, beq_self_eq_true]

/-- A format with a finite number has infinity beyond zero. -/
theorem isZero_of_isInfinite (hy : y.isFinite = true) (hx : x.isInfinite = true) :
    x.isZero = false := by
  rw [eq_infinity_of_isInfinite hx]
  cases y with
  | nan => cases hy
  | number negative rank =>
      rw [isFinite, bne_iff_ne, Ne, Fin.ext_iff, Fin.val_last] at hy
      have hrank := rank.isLt
      rw [infinity, isZero, beq_eq_false_iff_ne, Ne, Fin.ext_iff, Fin.val_last, Fin.val_zero]
      omega

theorem finite_or_infinite (h : x.isNaN = false) : x.isFinite = true ∨ x.isInfinite = true := by
  cases x with
  | nan => cases h
  | number negative rank =>
      by_cases hrank : rank = Fin.last f.infinityRank <;> simp [isFinite, isInfinite, hrank]

theorem value_eq_signed (x : Binary f) : ∃ m, 0 ≤ m ∧ x.value = signed x.isNegative m := by
  cases x with
  | nan => exact ⟨0, le_rfl, rfl⟩
  | number negative rank => exact ⟨f.magnitude rank, f.magnitude_nonneg rank, rfl⟩

theorem exists_rank_value (x : Binary f) : ∃ negative rank, rank ≤ f.infinityRank ∧
    x.value = signed negative (f.magnitude rank) := by
  cases x with
  | nan => exact ⟨false, 0, Nat.zero_le _, f.magnitude_zero.symm⟩
  | number negative rank => exact ⟨negative, rank, Nat.le_of_lt_succ rank.isLt, rfl⟩

theorem abs_value_le_top (x : Binary f) : |x.value| ≤ f.top := by
  cases x with
  | nan =>
      rw [value, abs_zero]
      exact f.magnitude_nonneg _
  | number negative rank =>
      rw [value, abs_signed, abs_of_nonneg (f.magnitude_nonneg _)]
      exact f.magnitude_strictMono.monotone (Nat.le_of_lt_succ rank.isLt)

theorem value_infinity (negative : Bool) : (infinity negative : Binary f).value =
    signed negative f.top := rfl

theorem abs_value_lt_top_iff (h : x.isNaN = false) : |x.value| < f.top ↔ x.isFinite = true := by
  cases x with
  | nan => cases h
  | number negative rank =>
      rw [value, abs_signed, abs_of_nonneg (f.magnitude_nonneg _), Format.top,
        f.magnitude_strictMono.lt_iff_lt, isFinite, bne_iff_ne, Ne, Fin.ext_iff, Fin.val_last]
      have := rank.isLt
      omega

theorem value_eq_zero_iff (h : x.isNaN = false) : x.value = 0 ↔ x.isZero = true := by
  cases x with
  | nan => cases h
  | number negative rank =>
      have hmagnitude : f.magnitude rank = 0 ↔ (rank : Nat) = 0 := by
        rw [← f.magnitude_zero]
        exact f.magnitude_strictMono.injective.eq_iff
      have hsigned : signed negative (f.magnitude rank) = 0 ↔ f.magnitude rank = 0 := by
        cases negative <;> simp [signed]
      rw [value, hsigned, hmagnitude, isZero, beq_iff_eq, Fin.ext_iff]
      rfl

/-- A number is the nearest one to its own value. -/
theorem nearest_value (x : Binary f) : f.nearest x.value = x.value := by
  cases x with
  | nan => exact f.nearest_zero
  | number negative rank =>
      rw [value, f.nearest_signed _ (f.magnitude_nonneg _),
        f.nearestMagnitude_magnitude (Nat.le_of_lt_succ rank.isLt)]

theorem value_round (negative : Bool) (q : Rat) :
    (round negative q : Binary f).value = signed negative (f.nearestMagnitude q) := rfl

theorem value_ofRat (q : Rat) : (ofRat q : Binary f).value = f.nearest q := by
  rw [ofRat, value_round, ratAbs_eq_abs, Format.nearest]

@[simp] theorem isNaN_neg (x : Binary f) : (-x).isNaN = x.isNaN := by cases x <;> rfl

@[simp] theorem isFinite_neg (x : Binary f) : (-x).isFinite = x.isFinite := by cases x <;> rfl

@[simp] theorem value_neg (x : Binary f) : (-x).value = -x.value := by
  cases x with
  | nan => exact neg_zero.symm
  | number negative rank => exact signed_not negative _

/-! ## Operations on finite numbers -/

theorem value_add (hx : x.isFinite = true) (hy : y.isFinite = true) :
    (x + y).value = f.nearest (x.value + y.value) := by
  change (add x y).value = _
  rw [add]
  simp only [isNaN_of_isFinite hx, isNaN_of_isFinite hy, isInfinite_of_isFinite hx,
    isInfinite_of_isFinite hy, Bool.or_self, Bool.false_eq_true, if_false]
  split
  · rename_i hsum
    rw [hsum, f.nearest_zero]
    exact (congrArg (signed _) f.magnitude_zero).trans (signed_zero _)
  · exact value_ofRat _

theorem value_sub (hx : x.isFinite = true) (hy : y.isFinite = true) :
    (x - y).value = f.nearest (x.value - y.value) := by
  have h := value_add hx (y := -y) (by rwa [isFinite_neg])
  rwa [value_neg, ← sub_eq_add_neg] at h

theorem value_mul (hx : x.isFinite = true) (hy : y.isFinite = true) :
    (x * y).value = f.nearest (x.value * y.value) := by
  change (mul x y).value = _
  rw [mul]
  simp only [isNaN_of_isFinite hx, isNaN_of_isFinite hy, isInfinite_of_isFinite hx,
    isInfinite_of_isFinite hy, Bool.or_self, Bool.false_eq_true, if_false]
  obtain ⟨p, hp, hxp⟩ := x.value_eq_signed
  obtain ⟨q, hq, hyq⟩ := y.value_eq_signed
  rw [hxp, hyq, signed_mul_signed, value_round, ratAbs_eq_abs, abs_signed,
    abs_of_nonneg (mul_nonneg hp hq), f.nearest_signed _ (mul_nonneg hp hq)]

theorem value_div (hx : x.isFinite = true) (hy : y.isFinite = true) (hzero : y.isZero = false) :
    (x / y).value = f.nearest (x.value / y.value) := by
  change (div x y).value = _
  rw [div]
  simp only [isNaN_of_isFinite hx, isNaN_of_isFinite hy, isInfinite_of_isFinite hx,
    isInfinite_of_isFinite hy, hzero, Bool.or_self, Bool.false_eq_true, if_false]
  obtain ⟨p, hp, hxp⟩ := x.value_eq_signed
  obtain ⟨q, hq, hyq⟩ := y.value_eq_signed
  rw [hxp, hyq, signed_div_signed, value_round, ratAbs_eq_abs, abs_signed,
    abs_of_nonneg (div_nonneg hp hq), f.nearest_signed _ (div_nonneg hp hq)]

/-! ## Not-a-number and infinity -/

section Finite

variable (hy : y.isFinite = true)
include hy

theorem isNaN_add : (x + y).isNaN = x.isNaN := by
  change (add x y).isNaN = _
  rw [add]
  simp only [isNaN_of_isFinite hy, isInfinite_of_isFinite hy, Bool.or_false, Bool.false_and,
    Bool.false_eq_true, if_false]
  cases hnan : x.isNaN with
  | true => rfl
  | false =>
      rw [if_neg Bool.false_ne_true]
      split
      · exact hnan
      · split <;> rfl

theorem add_of_isInfinite (hx : x.isInfinite = true) : x + y = x := by
  change add x y = _
  rw [add]
  simp only [isNaN_of_isFinite hy, isNaN_of_isInfinite hx, isInfinite_of_isFinite hy, hx,
    Bool.or_self, Bool.false_and, Bool.false_eq_true, if_false, if_true]

theorem isNaN_sub : (x - y).isNaN = x.isNaN :=
  isNaN_add (y := -y) (by rwa [isFinite_neg])

theorem div_of_isInfinite (hx : x.isInfinite = true) :
    x / y = infinity (x.isNegative != y.isNegative) := by
  change div x y = _
  rw [div]
  simp only [isNaN_of_isFinite hy, isNaN_of_isInfinite hx, isInfinite_of_isFinite hy, hx,
    Bool.or_self, Bool.false_eq_true, if_false, if_true]

variable (hzero : y.isZero = false)
include hzero

theorem mul_of_isInfinite (hx : x.isInfinite = true) :
    x * y = infinity (x.isNegative != y.isNegative) := by
  change mul x y = _
  rw [mul]
  simp only [isNaN_of_isFinite hy, isNaN_of_isInfinite hx, isZero_of_isInfinite hy hx, hx, hzero,
    Bool.or_self, Bool.true_or, Bool.false_eq_true, if_false, if_true]

theorem isNaN_mul : (x * y).isNaN = x.isNaN := by
  cases hnan : x.isNaN with
  | true =>
      cases x with
      | nan => rfl
      | number _ _ => cases hnan
  | false =>
      rcases finite_or_infinite hnan with hx | hx
      · change (mul x y).isNaN = _
        rw [mul]
        simp only [hnan, isNaN_of_isFinite hy, isInfinite_of_isFinite hx,
          isInfinite_of_isFinite hy, Bool.or_self, Bool.false_eq_true, if_false]
        rfl
      · rw [mul_of_isInfinite hy hzero hx]
        rfl

theorem isNaN_div : (x / y).isNaN = x.isNaN := by
  change (div x y).isNaN = _
  rw [div]
  simp only [isNaN_of_isFinite hy, isInfinite_of_isFinite hy, hzero, Bool.or_false,
    Bool.false_eq_true, if_false]
  cases hnan : x.isNaN with
  | true => rfl
  | false =>
      rw [if_neg Bool.false_ne_true]
      split <;> rfl

end Finite

end Binary

end StructureLayout
