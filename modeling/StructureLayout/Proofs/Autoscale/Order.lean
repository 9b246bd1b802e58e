import StructureLayout.Autoscale.Basic
import StructureLayout.Proofs.Binary.Order

/-!
# The order of counts and engineering values

With a positive scale larger values are stored as larger counts and larger counts stand for
larger values; a negative scale reverses both.  The values of the two limits of the storage are
therefore the least and the greatest that a stored count stands for.
-/

namespace StructureLayout.Autoscale

open Binary

theorem top_binary64_pos : 0 < Format.binary64.top := Format.top_pos _ (by decide)

variable (a : Autoscale) {v w : Binary64} {m n : Int}

theorem scale_value_ne_zero : a.scale.value ≠ 0 := by
  rw [Ne, value_eq_zero_iff (isNaN_of_isFinite a.scale_finite), a.scale_nonzero]
  exact Bool.false_ne_true

theorem isNaN_countsOf (v : Binary64) : (countsOf a.scale a.bias v).isNaN = v.isNaN :=
  (isNaN_mul a.scale_finite a.scale_nonzero).trans (isNaN_sub a.bias_finite)

theorem isNaN_decodeCount (n : Int) : (a.decodeCount n).isNaN = false :=
  (isNaN_add a.bias_finite).trans
    ((isNaN_div a.scale_finite a.scale_nonzero).trans (isNaN_ofInt n))

theorem encodeCount_mono (hscale : 0 < a.scale.value) (h : v.atMost w = true) :
    a.encodeCount v ≤ a.encodeCount w :=
  toIntClamped_mono top_binary64_pos a.storage.least_nonpos a.storage.greatest_nonneg
    (mul_atMost_mul a.scale_finite (sub_atMost_sub a.bias_finite h) hscale)

theorem encodeCount_anti (hscale : a.scale.value < 0) (h : v.atMost w = true) :
    a.encodeCount w ≤ a.encodeCount v :=
  toIntClamped_mono top_binary64_pos a.storage.least_nonpos a.storage.greatest_nonneg
    (mul_atMost_mul_of_neg a.scale_finite (sub_atMost_sub a.bias_finite h) hscale)

theorem decodeCount_mono (hscale : 0 < a.scale.value) (h : m ≤ n) :
    (a.decodeCount m).atMost (a.decodeCount n) = true :=
  add_atMost_add a.bias_finite (div_atMost_div a.scale_finite (ofInt_mono h) hscale)

theorem decodeCount_anti (hscale : a.scale.value < 0) (h : m ≤ n) :
    (a.decodeCount n).atMost (a.decodeCount m) = true :=
  add_atMost_add a.bias_finite (div_atMost_div_of_neg a.scale_finite (ofInt_mono h) hscale)

/-- Larger values are stored as larger counts, and larger counts stand for larger values. -/
structure Increasing : Prop where
  encodeCount : ∀ v w : Binary64, v.atMost w = true → a.encodeCount v ≤ a.encodeCount w
  decodeCount : ∀ m n : Int, m ≤ n → (a.decodeCount m).atMost (a.decodeCount n) = true

/-- Larger values are stored as smaller counts, and larger counts stand for smaller values. -/
structure Decreasing : Prop where
  encodeCount : ∀ v w : Binary64, v.atMost w = true → a.encodeCount w ≤ a.encodeCount v
  decodeCount : ∀ m n : Int, m ≤ n → (a.decodeCount n).atMost (a.decodeCount m) = true

theorem increasing (hscale : 0 < a.scale.value) : a.Increasing :=
  ⟨fun _ _ => a.encodeCount_mono hscale, fun _ _ => a.decodeCount_mono hscale⟩

theorem decreasing (hscale : a.scale.value < 0) : a.Decreasing :=
  ⟨fun _ _ => a.encodeCount_anti hscale, fun _ _ => a.decodeCount_anti hscale⟩

/-- The range holds the value of every count that can be stored, and its ends are the values of
the two limits of the storage. -/
structure Spans (range : Binary64 × Binary64) : Prop where
  ordered : range.1.atMost range.2 = true
  within : ∀ n, a.storage.least ≤ n → n ≤ a.storage.greatest →
    range.1.atMost (a.decodeCount n) = true ∧ (a.decodeCount n).atMost range.2 = true
  attained : range = (a.decodeCount a.storage.least, a.decodeCount a.storage.greatest) ∨
    range = (a.decodeCount a.storage.greatest, a.decodeCount a.storage.least)

theorem spans_valueRange : a.Spans a.valueRange := by
  have hlimits := a.storage.least_nonpos.trans a.storage.greatest_nonneg
  rcases lt_or_gt_of_ne a.scale_value_ne_zero with hneg | hpos
  · have hdecode := (a.decreasing hneg).decodeCount
    rw [valueRange]
    split
    · -- the limits have one value, which is then the value of every count
      rename_i hle
      refine ⟨hle, fun n hlo hhi => ⟨?_, ?_⟩, Or.inl rfl⟩
      · exact atMost_trans hle (hdecode _ _ hhi)
      · exact atMost_trans (hdecode _ _ hlo) hle
    · exact ⟨hdecode _ _ hlimits, fun n hlo hhi => ⟨hdecode _ _ hhi, hdecode _ _ hlo⟩, Or.inr rfl⟩
  · have hdecode := (a.increasing hpos).decodeCount
    rw [valueRange]
    rw [if_pos (hdecode _ _ hlimits)]
    exact ⟨hdecode _ _ hlimits, fun n hlo hhi => ⟨hdecode _ _ hlo, hdecode _ _ hhi⟩, Or.inl rfl⟩

/-- The sign of the scale decides whether the order is kept or reversed, in both directions, and
the range of values is the one that the stored counts span. -/
theorem ordered_by_scale :
    (0 < a.scale.value → a.Increasing) ∧ (a.scale.value < 0 → a.Decreasing) ∧
      a.Spans a.valueRange ∧ a.valueRange.1.isNaN = false ∧ a.valueRange.2.isNaN = false ∧
      ∀ n, (a.decodeCount n).isNaN = false := by
  have hspans := a.spans_valueRange
  have hends := atMost_iff.mp hspans.ordered
  exact ⟨a.increasing, a.decreasing, hspans, hends.1, hends.2.1, a.isNaN_decodeCount⟩

/-- Ten counts below zero for each unit. -/
def descending : Autoscale where
  scale := .ofInt (-10)
  bias := .zero false
  storage := ⟨true, .one⟩
  scale_finite := by decide +kernel
  scale_nonzero := by decide +kernel
  bias_finite := by decide +kernel

/-- Ten counts for each unit above forty below zero. -/
def ascending : Autoscale where
  scale := .ofInt 10
  bias := .ofInt (-40)
  storage := ⟨false, .two⟩
  scale_finite := by decide +kernel
  scale_nonzero := by decide +kernel
  bias_finite := by decide +kernel

theorem ordered_by_scale_signs :
    descending.scale.value < 0 ∧ descending.Decreasing ∧
      0 < ascending.scale.value ∧ ascending.Increasing :=
  have hneg : descending.scale.value < 0 := by decide +kernel
  have hpos : 0 < ascending.scale.value := by decide +kernel
  ⟨hneg, descending.ordered_by_scale.2.1 hneg, hpos, ascending.ordered_by_scale.1 hpos⟩

end StructureLayout.Autoscale
