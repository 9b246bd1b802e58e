import StructureLayout.Proofs.Autoscale.Order
import StructureLayout.Proofs.Binary.Accuracy
import StructureLayout.Proofs.Image.WriteBack
import StructureLayout.Proofs.Placement.Contents

/-!
# Counts through engineering values

A count that is decoded and encoded again passes four roundings, and each of them is small against
half a count if the bias, measured in counts, leaves room among the integers that are numbers.  The
count is then found again.  A bias far beyond these integers swallows the count.
-/

namespace StructureLayout

/-! ## Four roundings -/

section Errors

variable {s o p₁ p₂ p₃ r u : Rat} (hu : 0 < u) (hs : 1 ≤ |s|)
  (hsmall : (|o| + 32 * |s|) * u ≤ 1 / 2) (h₁ : |p₁ - s| ≤ |s| * u + 4 * u)
  (h₂ : |p₂ - (p₁ + o)| ≤ |p₁ + o| * u + 4 * u) (h₃ : |p₃ - (p₂ - o)| ≤ |p₂ - o| * u + 4 * u)
include hu hs hsmall h₁ h₂ h₃

/-- The counts stay within a small multiple when an offset is added and taken away again. -/
theorem errors_of_offset :
    |p₂ - o - p₁| ≤ (|o| + 6 * |s|) * u ∧ |p₃ - (p₂ - o)| ≤ 7 * |s| * u ∧ |p₃| ≤ 4 * |s| := by
  have hunit : u ≤ |s| * u := le_mul_of_one_le_left hu.le hs
  have hoffset : 0 ≤ |o| * u := mul_nonneg (abs_nonneg o) hu.le
  have hp₁ : |p₁| ≤ 2 * |s| := by
    have := abs_sub_abs_le_abs_sub p₁ s
    linarith
  have hsum : |p₁ + o| * u ≤ (2 * |s| + |o|) * u :=
    mul_le_mul_of_nonneg_right ((abs_add_le p₁ o).trans (add_le_add_left hp₁ _)) hu.le
  have hback : |p₂ - o - p₁| ≤ (|o| + 6 * |s|) * u := by
    rw [sub_sub, add_comm o p₁]
    linarith
  have hp₂ : |p₂ - o| ≤ 3 * |s| := by
    have := abs_sub_abs_le_abs_sub (p₂ - o) p₁
    linarith
  have hthird : |p₂ - o| * u ≤ 3 * |s| * u := mul_le_mul_of_nonneg_right hp₂ hu.le
  have hp₃ : |p₃ - (p₂ - o)| ≤ 7 * |s| * u := by linarith
  refine ⟨hback, hp₃, ?_⟩
  have := abs_sub_abs_le_abs_sub p₃ (p₂ - o)
  linarith

/-- The four errors add up to less than half a count. -/
theorem abs_sub_lt_half (h₄ : |r - p₃| ≤ |p₃| * u + u) : |r - s| < 1 / 2 := by
  obtain ⟨hback, hthird, hp₃⟩ := errors_of_offset hu hs hsmall h₁ h₂ h₃
  have hunit : u ≤ |s| * u := le_mul_of_one_le_left hu.le hs
  have hlast : |p₃| * u ≤ 4 * |s| * u := mul_le_mul_of_nonneg_right hp₃ hu.le
  have hsplit : r - s = (r - p₃) + (p₃ - (p₂ - o)) + (p₂ - o - p₁) + (p₁ - s) := by ring
  calc |r - s| ≤ |r - p₃| + |p₃ - (p₂ - o)| + |p₂ - o - p₁| + |p₁ - s| := by
        rw [hsplit]
        refine (abs_add_le _ _).trans (add_le_add_left ?_ _)
        exact (abs_add_le _ _).trans (add_le_add_left (abs_add_le _ _) _)
    _ < 1 / 2 := by linarith

end Errors

namespace Autoscale

open Binary

variable (a : Autoscale) {n : Int}

/-- The bias, in counts, leaves room for the count, and the value is far from overflow.  Zero is
kept by every scale and bias. -/
def Keeps (n : Int) : Prop :=
  n = 0 ∨
    |a.bias.value * a.scale.value| + 32 * |(n : Rat)| ≤ 2 ^ 52 ∧
      |(n : Rat) / a.scale.value| + |a.bias.value| ≤ 2 ^ (1023 : Int)

instance (n : Int) : Decidable (a.Keeps n) := inferInstanceAs (Decidable (_ ∨ _))

theorem isFinite_of_value_zero {x : Binary64} (hx : x.isNaN = false) (h : x.value = 0) :
    x.isFinite = true := by
  rw [← abs_value_lt_top_iff hx, h, abs_zero]
  exact top_binary64_pos

/-- A value that equals the bias is stored as no counts. -/
theorem encodeCount_of_value_eq {v : Binary64} (hv : v.isNaN = false)
    (h : v.value = a.bias.value) : a.encodeCount v = 0 := by
  have hfinite : v.isFinite = true := by
    rw [← abs_value_lt_top_iff hv, h, abs_value_lt_top_iff (isNaN_of_isFinite a.bias_finite)]
    exact a.bias_finite
  have hdifference : (v - a.bias).value = 0 := by
    rw [value_sub hfinite a.bias_finite, h, sub_self, Format.nearest_zero]
  have hdifferenceFinite := isFinite_of_value_zero ((isNaN_sub a.bias_finite).trans hv) hdifference
  have hcounts : (countsOf a.scale a.bias v).value = 0 := by
    rw [countsOf, value_mul hdifferenceFinite a.scale_finite, hdifference, zero_mul,
      Format.nearest_zero]
  have hcountsFinite := isFinite_of_value_zero ((a.isNaN_countsOf v).trans hv) hcounts
  have hround : roundHalfAway 0 = 0 := roundHalfAway_intCast 0
  rw [encodeCount, toIntClamped_of_isFinite hcountsFinite, hcounts, hround]
  exact clampInt_of_mem a.storage.least_nonpos a.storage.greatest_nonneg

theorem near_div_scale (hn : a.storage.least ≤ n ∧ n ≤ a.storage.greatest)
    (h : 4 * |(n : Rat) / a.scale.value| ≤ 3 * Format.binary64.top) :
    Near (ofInt n / a.scale) ((n : Rat) / a.scale.value) := by
  rw [← IntegerType.value_ofInt hn] at h ⊢
  exact near_div (IntegerType.isFinite_ofInt hn) a.scale_finite a.scale_nonzero h

/-- A quotient by the scale is not so small that it rounds to more than twice its size. -/
theorem abs_value_div_scale_le (hn : a.storage.least ≤ n ∧ n ≤ a.storage.greatest) (hzero : n ≠ 0)
    (h : 4 * |(n : Rat) / a.scale.value| ≤ 3 * Format.binary64.top) :
    |(ofInt n / a.scale : Binary64).value| ≤ 2 * |(n : Rat) / a.scale.value| := by
  have hnear := a.near_div_scale hn h
  have hscale := abs_pos.mpr a.scale_value_ne_zero
  have hone : (1 : Rat) ≤ |(n : Rat)| := by exact_mod_cast Int.one_le_abs hzero
  have hquotient : 1 ≤ |(n : Rat) / a.scale.value| * Format.binary64.top := by
    rw [abs_div, div_mul_eq_mul_div, one_le_div hscale]
    calc |a.scale.value| ≤ 1 * Format.binary64.top := by
          rw [one_mul]
          exact a.scale.abs_value_le_top
      _ ≤ |(n : Rat)| * Format.binary64.top :=
          mul_le_mul_of_nonneg_right hone top_binary64_pos.le
  have hleast : 4 * Format.binary64.halfLeast ≤ |(n : Rat) / a.scale.value| := by
    refine le_of_mul_le_mul_right ?_ top_binary64_pos
    rw [mul_assoc, halfLeast_binary64_mul_top]
    linarith [halfUnit_binary64_le]
  have hnonneg := abs_nonneg ((n : Rat) / a.scale.value)
  have hunit := mul_le_mul_of_nonneg_left halfUnit_binary64_le hnonneg
  linarith [hnear.error, abs_sub_abs_le_abs_sub (ofInt n / a.scale : Binary64).value
    ((n : Rat) / a.scale.value)]

/-- A count whose value disappears beside the bias is read as the bias. -/
theorem value_decodeCount_of_swallowed (hn : a.storage.least ≤ n ∧ n ≤ a.storage.greatest)
    (h : n = 0 ∨ 2 ^ 55 * |(n : Rat)| < |a.bias.value * a.scale.value|) :
    (a.decodeCount n).value = a.bias.value := by
  have htop := top_binary64_pos
  have hbias := a.bias.abs_value_le_top
  have hvalue (hfinite : (ofInt n / a.scale : Binary64).isFinite = true) :
      (a.decodeCount n).value =
        Format.binary64.nearest (a.bias.value + (ofInt n / a.scale : Binary64).value) := by
    rw [add_comm]
    exact value_add hfinite a.bias_finite
  by_cases hzero : n = 0
  · have hnear := a.near_div_scale hn (by simp [hzero, htop.le])
    have hquotient : (ofInt n / a.scale : Binary64).value = 0 := by
      rw [value_div (IntegerType.isFinite_ofInt hn) a.scale_finite a.scale_nonzero,
        IntegerType.value_ofInt hn, hzero, Int.cast_zero, zero_div, Format.nearest_zero]
    rw [hvalue hnear.finite, hquotient, add_zero, nearest_value]
  · have hsmall := h.resolve_left hzero
    have hquotient : 2 ^ 55 * |(n : Rat) / a.scale.value| < |a.bias.value| := by
      rwa [abs_div, ← mul_div_assoc, div_lt_iff₀ (abs_pos.mpr a.scale_value_ne_zero), ← abs_mul]
    have hnear := a.near_div_scale hn (by linarith)
    have htwice := a.abs_value_div_scale_le hn hzero (by linarith)
    rw [hvalue hnear.finite]
    refine nearest_value_add _ ?_
    have hbinade : (4 * Format.binary64.binade : Rat) = 2 ^ 54 := by
      rw [Format.binade_eq]
      norm_num [Format.binary64]
    rw [hbinade]
    linarith

theorem encodeCount_decodeCount_of_swallowed
    (hn : a.storage.least ≤ n ∧ n ≤ a.storage.greatest)
    (h : n = 0 ∨ 2 ^ 55 * |(n : Rat)| < |a.bias.value * a.scale.value|) :
    a.encodeCount (a.decodeCount n) = 0 :=
  a.encodeCount_of_value_eq (a.isNaN_decodeCount n) (a.value_decodeCount_of_swallowed hn h)

/-- Up to the product with the scale no step comes near to overflow. -/
theorem near_steps (hn : a.storage.least ≤ n ∧ n ≤ a.storage.greatest)
    (hroom : |(n : Rat) / a.scale.value| + |a.bias.value| ≤ 2 ^ (1023 : Int)) :
    Near (ofInt n / a.scale) ((n : Rat) / a.scale.value) ∧
      Near (a.decodeCount n) ((ofInt n / a.scale : Binary64).value + a.bias.value) ∧
      Near (a.decodeCount n - a.bias) ((a.decodeCount n).value - a.bias.value) := by
  have htop := two_pow_lt_top_binary64
  have hrange : 2 * (|(n : Rat) / a.scale.value| + |a.bias.value|) ≤ Format.binary64.top := by
    have hhalf : Format.binary64.top = 2 * 2 ^ (1023 : Int) := by
      rw [top_binary64, ← two_zpow_succ]
      congr 1
    rw [hhalf]
    exact mul_le_mul_of_nonneg_left hroom (by norm_num)
  have hbias := abs_nonneg a.bias.value
  have hquotient := abs_nonneg ((n : Rat) / a.scale.value)
  have h₁ := a.near_div_scale hn (by linarith)
  have hsum := abs_add_le (ofInt n / a.scale : Binary64).value a.bias.value
  have h₂ : Near (a.decodeCount n) ((ofInt n / a.scale : Binary64).value + a.bias.value) :=
    near_add h₁.finite a.bias_finite (by linarith [h₁.abs_value_le])
  have hback : |(a.decodeCount n).value - a.bias.value| ≤
      |(ofInt n / a.scale : Binary64).value| +
        |(a.decodeCount n).value - ((ofInt n / a.scale : Binary64).value + a.bias.value)| := by
    have hsplit : (a.decodeCount n).value - a.bias.value =
        (ofInt n / a.scale : Binary64).value +
          ((a.decodeCount n).value - ((ofInt n / a.scale : Binary64).value + a.bias.value)) := by
      ring
    rw [hsplit]
    exact abs_add_le _ _
  exact ⟨h₁, h₂,
    near_sub h₂.finite a.bias_finite (by linarith [h₁.abs_value_le, h₂.error_le])⟩

theorem encodeCount_decodeCount (hn : a.storage.least ≤ n ∧ n ≤ a.storage.greatest)
    (h : a.Keeps n) : a.encodeCount (a.decodeCount n) = n := by
  by_cases hzero : n = 0
  · rw [a.encodeCount_decodeCount_of_swallowed hn (Or.inl hzero), hzero]
  obtain ⟨hcounts, hroom⟩ := h.resolve_left hzero
  obtain ⟨h₁, h₂, h₃⟩ := a.near_steps hn hroom
  have hone : (1 : Rat) ≤ |(n : Rat)| := by exact_mod_cast Int.one_le_abs hzero
  have hunit := Format.binary64.halfUnit_pos
  have hsmall : (|a.bias.value * a.scale.value| + 32 * |(n : Rat)|) *
      Format.binary64.halfUnit ≤ 1 / 2 := by
    rw [← two_pow_mul_halfUnit_binary64]
    exact mul_le_mul_of_nonneg_right hcounts hunit.le
  -- in counts each step adds one small error
  have e₁ := h₁.mul a.scale
  have e₂ := h₂.mul a.scale
  have e₃ := h₃.mul a.scale
  rw [div_mul_cancel₀ _ a.scale_value_ne_zero] at e₁
  rw [add_mul] at e₂
  rw [sub_mul] at e₃
  obtain ⟨-, -, hproduct⟩ := errors_of_offset hunit hone hsmall e₁ e₂ e₃
  have h₄ : Near (countsOf a.scale a.bias (a.decodeCount n))
      ((a.decodeCount n - a.bias).value * a.scale.value) := by
    refine near_mul h₃.finite a.scale_finite a.scale_nonzero ?_
    linarith [abs_nonneg (a.bias.value * a.scale.value), two_pow_lt_top_binary64]
  have hcount := abs_sub_lt_half hunit hone hsmall e₁ e₂ e₃
    (h₄.error.trans (by linarith [halfLeast_binary64_le]))
  rw [encodeCount, toIntClamped_of_isFinite h₄.finite, roundHalfAway_of_near hcount]
  exact clampInt_of_mem hn.1 hn.2

/-- One count for each unit, beside a bias where the numbers are two apart. -/
def distant : Autoscale where
  scale := .ofInt 1
  bias := .ofInt (2 ^ 53)
  storage := ⟨false, .one⟩
  scale_finite := by decide +kernel
  scale_nonzero := by decide +kernel
  bias_finite := by decide +kernel

end Autoscale

/-! ## Images -/

namespace Layout

variable {space : AddressSpace} {options : Options} {title : String} {ds : List Declaration}
  {l : Layout} {image : Image} {name : String} {index : Nat} {a : Autoscale}

/-- The value read from a scaled field is that of a count, and writing it stores what is encoded
for that value. -/
theorem exists_count_of_readScaled (h : compileIn space options title ds = .ok l)
    (ha : (l.get? name).bind Entry.scaling? = some a) {v : Binary64}
    (hread : l.readScaled image name index = .ok v) :
    ∃ n, (a.storage.least ≤ n ∧ n ≤ a.storage.greatest) ∧
      l.read image name index = .ok (.ofInt (.integer a.storage) n) ∧ v = a.decodeCount n ∧
      ∀ w, l.writeScaled image name index w =
        l.write image name index (.ofInt (.integer a.storage) (a.encodeCount w)) := by
  obtain ⟨p, hp, hread⟩ := bind_eq_ok_iff.mp hread
  obtain ⟨stored, hstored, hvalue⟩ := bind_eq_ok_iff.mp hread
  obtain ⟨f, offset, size, scaling, t, hget, hcontent, -, rfl⟩ := element_eq_ok_iff.mp hp
  obtain rfl : scaling = some a := by
    rw [hget] at ha
    exact ha
  obtain rfl : t = .integer a.storage := by
    have htype := storage_of_compileIn h (entry_of_get? hget).1
    rw [hcontent] at htype
    exact Content.primitive.inj htype
  obtain ⟨p', hp', -, rfl⟩ := read_eq_ok_iff.mp hstored
  obtain rfl : _ = p' := Except.ok.inj (hp.symm.trans hp')
  refine ⟨_, IntegerType.ofBits_mem _ _, hstored, ?_, fun w => ?_⟩
  · cases hvalue
    exact congrArg a.decodeCount (IntegerType.clamp_of_mem (IntegerType.ofBits_mem _ _))
  · rw [writeScaled, hp, ok_bind]
    rfl

/-- A count is found again if the bias leaves room for it, and lost beside a bias far beyond the
integers that are numbers; a field whose count is found again keeps its bytes. -/
theorem counts_survive (a : Autoscale) :
    (∀ n, a.storage.least ≤ n → n ≤ a.storage.greatest → a.Keeps n →
        a.encodeCount (a.decodeCount n) = n) ∧
      (∀ n, a.storage.least ≤ n → n ≤ a.storage.greatest →
        2 ^ 55 * |(n : Rat)| < |a.bias.value * a.scale.value| →
        a.encodeCount (a.decodeCount n) = 0) ∧
      ∀ space options title ds l, compileIn space options title ds = .ok l →
        ∀ image name index v, (l.get? name).bind Entry.scaling? = some a →
          l.readScaled image name index = .ok v →
          ∃ n, a.storage.least ≤ n ∧ n ≤ a.storage.greatest ∧
            l.read image name index = .ok (.ofInt (.integer a.storage) n) ∧
            v = a.decodeCount n ∧
            (a.Keeps n → l.writeScaled image name index v = .ok image) := by
  refine ⟨fun n hlo hhi => a.encodeCount_decodeCount ⟨hlo, hhi⟩, fun n hlo hhi h => ?_, ?_⟩
  · exact a.encodeCount_decodeCount_of_swallowed ⟨hlo, hhi⟩ (Or.inr h)
  · intro space options title ds l h image name index v ha hread
    obtain ⟨n, hn, hstored, rfl, hwrite⟩ := exists_count_of_readScaled h ha hread
    refine ⟨n, hn.1, hn.2, hstored, rfl, fun hkeeps => ?_⟩
    rw [hwrite, a.encodeCount_decodeCount hn hkeeps]
    exact write_of_read hstored nofun

/-- Two scaled speeds of two bytes. -/
def speeds : List Declaration :=
  [.field { name := "speed", content := .primitive (.integer ⟨false, .two⟩), dimensions := [2]
            autoscale := some "10, -40" }]

theorem counts_survive_speeds :
    Autoscale.ascending.Keeps 12345 ∧
      Autoscale.ascending.encodeCount (Autoscale.ascending.decodeCount 12345) = 12345 ∧
      ∃ l v, compile {} "speeds" speeds = .ok l ∧
        l.readScaled [1, 0, 0x39, 0x30] "speed" 1 = .ok v ∧
        l.writeScaled [1, 0, 0x39, 0x30] "speed" 1 v = .ok [1, 0, 0x39, 0x30] := by
  have hkeeps : Autoscale.ascending.Keeps 12345 := by decide +kernel
  have hsurvive := counts_survive Autoscale.ascending
  obtain ⟨l, hl⟩ : ∃ l, compile {} "speeds" speeds = .ok l :=
    exists_eq_ok_of_isOk (by decide +kernel)
  have hfacts : (compile {} "speeds" speeds).map (fun l =>
      ((l.get? "speed").bind Entry.scaling?, l.read [1, 0, 0x39, 0x30] "speed" 1,
        l.readScaled [1, 0, 0x39, 0x30] "speed" 1)) =
      .ok (some Autoscale.ascending, .ok (.ofInt (.integer ⟨false, .two⟩) 12345),
        .ok (Autoscale.ascending.decodeCount 12345)) := by
    decide +kernel
  rw [hl] at hfacts
  obtain ⟨ha, hstored, hvalue⟩ : _ ∧ _ ∧ _ := by simpa [Except.map] using hfacts
  obtain ⟨n, hlo, hhi, hread, -, hwrite⟩ := hsurvive.2.2 _ _ _ _ _ hl _ _ _ _ ha hvalue
  have hn : Autoscale.ascending.storage.clamp n = 12345 :=
    Option.some.inj (congrArg Value.toInt? (Except.ok.inj (hread.symm.trans hstored)))
  rw [IntegerType.clamp_of_mem ⟨hlo, hhi⟩] at hn
  refine ⟨hkeeps, hsurvive.1 _ (by decide) (by decide) hkeeps, l, _, hl, hvalue, ?_⟩
  exact hwrite (hn ▸ hkeeps)

/-- A field with a bias where the numbers are two apart. -/
def distantField : List Declaration :=
  [.field { name := "x", content := .primitive (.integer ⟨false, .one⟩)
            autoscale := some "1, 9007199254740992" }]

/-- Not every count survives: the first one beside a distant bias is read as the bias, and writing
that clears the field. -/
theorem not_counts_survive :
    (¬ ∀ (a : Autoscale) (n : Int), a.storage.least ≤ n → n ≤ a.storage.greatest →
      a.encodeCount (a.decodeCount n) = n) ∧
      ∃ l v, compile {} "s" distantField = .ok l ∧ l.readScaled [1] "x" 0 = .ok v ∧
        l.writeScaled [1] "x" 0 v = .ok [0] := by
  constructor
  · intro h
    have hlost : Autoscale.distant.encodeCount (Autoscale.distant.decodeCount 1) = 0 := by
      decide +kernel
    have hkept := h Autoscale.distant 1 (by decide) (by decide)
    rw [hlost] at hkept
    exact absurd hkept (by decide)
  · obtain ⟨l, hl⟩ : ∃ l, compile {} "s" distantField = .ok l :=
      exists_eq_ok_of_isOk (by decide +kernel)
    have hfacts : (compile {} "s" distantField).map (fun l =>
        (l.readScaled [1] "x" 0, l.writeScaled [1] "x" 0 Autoscale.distant.bias)) =
        .ok (.ok Autoscale.distant.bias, .ok [0]) := by
      decide +kernel
    rw [hl] at hfacts
    obtain ⟨hread, hwrite⟩ : _ ∧ _ := by simpa [Except.map] using hfacts
    exact ⟨l, _, hl, hread, hwrite⟩

end Layout

end StructureLayout
