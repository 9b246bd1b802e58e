import StructureLayout.Autoscale.Basic
import StructureLayout.Proofs.Binary.Accuracy
import Mathlib.Tactic.FieldSimp

/-!
# Quantisation

The formulas of an autoscale can be read in any arithmetic.  With rounded numbers they are what
is computed; with exact rationals a value within the range moves by at most half a count when it
is stored, and a value outside is stored as the limit whose value is the nearer end of the range.
-/

namespace StructureLayout

/-- How an arithmetic turns integers into numbers, rounds these to integers between two limits, and
compares them. -/
structure Arithmetic (α : Type) where
  ofInt : Int → α
  toIntClamped : Int → Int → α → Int
  atMost : α → α → Bool

namespace Arithmetic

def rounded : Arithmetic Binary64 where
  ofInt := .ofInt
  toIntClamped := Binary.toIntClamped
  atMost := Binary.atMost

def exact : Arithmetic Rat where
  ofInt := Int.cast
  toIntClamped lo hi q := clampInt lo hi (roundHalfAway q)
  atMost p q := decide (p ≤ q)

variable {α : Type} [Add α] [Sub α] [Mul α] [Div α] (arithmetic : Arithmetic α) (scale bias : α)

def encodeCount (t : IntegerType) (v : α) : Int :=
  arithmetic.toIntClamped t.least t.greatest (countsOf scale bias v)

def decodeCount (n : Int) : α := engineeringOf scale bias (arithmetic.ofInt n)

def valueRange (t : IntegerType) : α × α :=
  let first := arithmetic.decodeCount scale bias t.least
  let last := arithmetic.decodeCount scale bias t.greatest
  if arithmetic.atMost first last then (first, last) else (last, first)

end Arithmetic

open Arithmetic

namespace Autoscale

variable (a : Autoscale)

/-- What is computed are the formulas with rounded numbers. -/
theorem formulas_rounded :
    a.encodeCount = rounded.encodeCount a.scale a.bias a.storage ∧
      a.decodeCount = rounded.decodeCount a.scale a.bias ∧
      a.valueRange = rounded.valueRange a.scale a.bias a.storage :=
  ⟨rfl, rfl, rfl⟩

/-- Where the counts of a value are computed without an error, the exact count is stored. -/
theorem encodeCount_eq_exact {v : Binary64}
    (hfinite : (countsOf a.scale a.bias v).isFinite = true)
    (hcounts : (countsOf a.scale a.bias v).value = countsOf a.scale.value a.bias.value v.value) :
    a.encodeCount v = exact.encodeCount a.scale.value a.bias.value a.storage v.value := by
  rw [encodeCount, Binary.toIntClamped_of_isFinite hfinite, hcounts]
  rfl

end Autoscale

theorem IntegerType.least_lt_greatest (t : IntegerType) : t.least < t.greatest := by
  rcases t with ⟨s, w⟩
  cases s <;> cases w <;> decide

/-! ## Exact counts -/

section Exact

variable {scale bias : Rat} {t : IntegerType} {v : Rat} {n : Int}

theorem engineeringOf_sub (hscale : scale ≠ 0) (counts : Rat) :
    engineeringOf scale bias counts - v = (counts - countsOf scale bias v) / scale := by
  rw [engineeringOf, countsOf]
  field_simp
  ring

/-- A value is as many counts away from that of a count as its own counts are. -/
theorem abs_decodeCount_sub (hscale : scale ≠ 0) :
    |exact.decodeCount scale bias n - v| = |(n : Rat) - countsOf scale bias v| / |scale| := by
  rw [← abs_div]
  exact congrArg abs (engineeringOf_sub hscale _)

/-- A negative scale has the limits the other way round. -/
theorem valueRange_eq (bias : Rat) (t : IntegerType) (hscale : scale ≠ 0) :
    0 < scale ∧ exact.valueRange scale bias t =
        (exact.decodeCount scale bias t.least, exact.decodeCount scale bias t.greatest) ∨
      scale < 0 ∧ exact.valueRange scale bias t =
        (exact.decodeCount scale bias t.greatest, exact.decodeCount scale bias t.least) := by
  have hlimits : (t.least : Rat) < t.greatest := by exact_mod_cast t.least_lt_greatest
  have horder : exact.atMost (exact.decodeCount scale bias t.least)
      (exact.decodeCount scale bias t.greatest) = true ↔
        (t.least : Rat) / scale ≤ t.greatest / scale :=
    decide_eq_true_iff.trans (add_le_add_iff_right bias)
  rcases lt_or_gt_of_ne hscale with hneg | hpos
  · right
    have hnot := (div_lt_div_right_of_neg hneg).mpr hlimits
    exact ⟨hneg, if_neg fun h => hnot.not_ge (horder.mp h)⟩
  · left
    exact ⟨hpos, if_pos (horder.mpr (div_le_div_of_nonneg_right hlimits.le hpos.le))⟩

theorem decodeCount_le_iff (hscale : 0 < scale) :
    exact.decodeCount scale bias n ≤ v ↔ (n : Rat) ≤ countsOf scale bias v := by
  change (n : Rat) / scale + bias ≤ v ↔ (n : Rat) ≤ (v - bias) * scale
  rw [← le_sub_iff_add_le, div_le_iff₀ hscale]

theorem le_decodeCount_iff (hscale : 0 < scale) :
    v ≤ exact.decodeCount scale bias n ↔ countsOf scale bias v ≤ n := by
  change v ≤ (n : Rat) / scale + bias ↔ (v - bias) * scale ≤ n
  rw [← sub_le_iff_le_add, le_div_iff₀ hscale]

theorem decodeCount_le_iff_of_neg (hscale : scale < 0) :
    exact.decodeCount scale bias n ≤ v ↔ countsOf scale bias v ≤ n := by
  change (n : Rat) / scale + bias ≤ v ↔ (v - bias) * scale ≤ n
  rw [← le_sub_iff_add_le, div_le_iff_of_neg hscale]

theorem le_decodeCount_iff_of_neg (hscale : scale < 0) :
    v ≤ exact.decodeCount scale bias n ↔ (n : Rat) ≤ countsOf scale bias v := by
  change v ≤ (n : Rat) / scale + bias ↔ (n : Rat) ≤ (v - bias) * scale
  rw [← sub_le_iff_le_add, le_div_iff_of_neg hscale]

/-- A value is in the range if its counts are between the limits, whatever the sign of the scale. -/
theorem mem_valueRange_iff (hscale : scale ≠ 0) :
    (exact.valueRange scale bias t).1 ≤ v ∧ v ≤ (exact.valueRange scale bias t).2 ↔
      (t.least : Rat) ≤ countsOf scale bias v ∧ countsOf scale bias v ≤ t.greatest := by
  rcases valueRange_eq bias t hscale with ⟨hpos, hrange⟩ | ⟨hneg, hrange⟩
  · rw [hrange, decodeCount_le_iff hpos, le_decodeCount_iff hpos]
  · rw [hrange, decodeCount_le_iff_of_neg hneg, le_decodeCount_iff_of_neg hneg, and_comm]

/-- One of the two ends of a range, and the other end is farther from the value. -/
def IsNearerEnd (range : Rat × Rat) (v e : Rat) : Prop :=
  e = range.1 ∧ |e - v| < |range.2 - v| ∨ e = range.2 ∧ |e - v| < |range.1 - v|

/-- The value of the limit with fewer counts in between is the nearer end. -/
theorem isNearerEnd_valueRange (hscale : scale ≠ 0) {m : Int}
    (hlimits : m = t.least ∧ n = t.greatest ∨ m = t.greatest ∧ n = t.least)
    (h : |(m : Rat) - countsOf scale bias v| < |(n : Rat) - countsOf scale bias v|) :
    IsNearerEnd (exact.valueRange scale bias t) v (exact.decodeCount scale bias m) := by
  have hnearer : |exact.decodeCount scale bias m - v| < |exact.decodeCount scale bias n - v| := by
    rw [abs_decodeCount_sub hscale, abs_decodeCount_sub hscale]
    exact div_lt_div_of_pos_right h (abs_pos.mpr hscale)
  rcases valueRange_eq bias t hscale with ⟨-, hrange⟩ | ⟨-, hrange⟩ <;>
    rcases hlimits with ⟨rfl, rfl⟩ | ⟨rfl, rfl⟩ <;> rw [hrange]
  · exact Or.inl ⟨rfl, hnearer⟩
  · exact Or.inr ⟨rfl, hnearer⟩
  · exact Or.inr ⟨rfl, hnearer⟩
  · exact Or.inl ⟨rfl, hnearer⟩

theorem encodeCount_of_mem (hlow : (t.least : Rat) ≤ countsOf scale bias v)
    (hhigh : countsOf scale bias v ≤ t.greatest) :
    exact.encodeCount scale bias t v = roundHalfAway (countsOf scale bias v) := by
  have hleast := roundHalfAway_mono hlow
  have hgreatest := roundHalfAway_mono hhigh
  rw [roundHalfAway_intCast] at hleast hgreatest
  exact clampInt_of_mem hleast hgreatest

theorem encodeCount_of_lt (h : countsOf scale bias v < t.least) :
    exact.encodeCount scale bias t v = t.least := by
  have hround := roundHalfAway_mono h.le
  have hlimits := t.least_lt_greatest
  rw [roundHalfAway_intCast] at hround
  change clampInt _ _ _ = _
  rw [clampInt]
  omega

theorem encodeCount_of_gt (h : t.greatest < countsOf scale bias v) :
    exact.encodeCount scale bias t v = t.greatest := by
  have hround := roundHalfAway_mono h.le
  have hlimits := t.least_lt_greatest
  rw [roundHalfAway_intCast] at hround
  change clampInt _ _ _ = _
  rw [clampInt]
  omega

end Exact

/-- What is computed are these formulas with rounded numbers.  With exact ones a value in the range
is at most half a count away from the value of what is stored for it; for a value outside, the limit
with the nearer value is stored. -/
theorem quantised :
    (∀ a : Autoscale, a.encodeCount = rounded.encodeCount a.scale a.bias a.storage ∧
      a.decodeCount = rounded.decodeCount a.scale a.bias ∧
      a.valueRange = rounded.valueRange a.scale a.bias a.storage) ∧
    ∀ scale bias : Rat, scale ≠ 0 → ∀ (t : IntegerType) (v : Rat),
      ((exact.valueRange scale bias t).1 ≤ v → v ≤ (exact.valueRange scale bias t).2 →
        |exact.decodeCount scale bias (exact.encodeCount scale bias t v) - v| ≤
          1 / (2 * |scale|)) ∧
      (v < (exact.valueRange scale bias t).1 ∨ (exact.valueRange scale bias t).2 < v →
        (exact.encodeCount scale bias t v = t.least ∨
            exact.encodeCount scale bias t v = t.greatest) ∧
          IsNearerEnd (exact.valueRange scale bias t) v
            (exact.decodeCount scale bias (exact.encodeCount scale bias t v))) := by
  refine ⟨Autoscale.formulas_rounded, fun scale bias hscale t v => ⟨?_, ?_⟩⟩
  · intro hlow hhigh
    obtain ⟨hleast, hgreatest⟩ := (mem_valueRange_iff hscale).mp ⟨hlow, hhigh⟩
    rw [encodeCount_of_mem hleast hgreatest, abs_decodeCount_sub hscale, ← div_div]
    exact div_le_div_of_nonneg_right (abs_roundHalfAway_sub_le _) (abs_nonneg scale)
  · intro houtside
    have hlimits : (t.least : Rat) < t.greatest := by exact_mod_cast t.least_lt_greatest
    have hcounts : countsOf scale bias v < t.least ∨ t.greatest < countsOf scale bias v := by
      by_contra hnot
      push Not at hnot
      have hmem := (mem_valueRange_iff hscale).mpr hnot
      rcases houtside with h | h
      · exact h.not_ge hmem.1
      · exact h.not_ge hmem.2
    rcases hcounts with h | h
    · rw [encodeCount_of_lt h]
      refine ⟨Or.inl rfl, isNearerEnd_valueRange hscale (Or.inl ⟨rfl, rfl⟩) ?_⟩
      rw [abs_of_pos (sub_pos.mpr h), abs_of_pos (sub_pos.mpr (h.trans hlimits))]
      linarith
    · rw [encodeCount_of_gt h]
      refine ⟨Or.inr rfl, isNearerEnd_valueRange hscale (Or.inr ⟨rfl, rfl⟩) ?_⟩
      rw [abs_of_neg (sub_neg.mpr h), abs_of_neg (sub_neg.mpr (hlimits.trans h))]
      linarith

/-- With ten counts below three for each unit, a value halfway between two counts moves by half a
count, and a value above the range is stored as the least count. -/
theorem quantised_descending :
    (-10 : Rat) ≠ 0 ∧
      |exact.decodeCount (-10) 3 (exact.encodeCount (-10) 3 ⟨true, .one⟩ (61 / 20)) - 61 / 20| ≤
        1 / 20 ∧
      (exact.valueRange (-10) 3 ⟨true, .one⟩).2 < 100 ∧
      IsNearerEnd (exact.valueRange (-10) 3 ⟨true, .one⟩) 100
        (exact.decodeCount (-10) 3 (exact.encodeCount (-10) 3 ⟨true, .one⟩ 100)) := by
  have hscale : (-10 : Rat) ≠ 0 := by decide
  have habove : (exact.valueRange (-10) 3 ⟨true, .one⟩).2 < 100 := by decide +kernel
  refine ⟨hscale, ?_, habove, ((quantised.2 _ _ hscale _ _).2 (Or.inr habove)).2⟩
  have hbound := (quantised.2 (-10) 3 hscale ⟨true, .one⟩ (61 / 20)).1 (by decide +kernel)
    (by decide +kernel)
  norm_num at hbound ⊢
  exact hbound

end StructureLayout
