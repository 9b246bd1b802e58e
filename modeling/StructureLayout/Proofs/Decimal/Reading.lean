import StructureLayout.Decimal.Numeral
import StructureLayout.Proofs.Binary.Accuracy
import StructureLayout.Proofs.Text.Character
import Mathlib.Data.List.TakeWhile

/-!
# Reading decimals

Reading rounds a decimal once: where the power of ten is not formed, rounding gives zero or
infinity as well.  The positional text of a decimal is read as a decimal of the same value.  What
is read as a number has letters, digits, signs and points only.
-/

namespace StructureLayout

/-! ## Orders of magnitude -/

theorem ten_zpow_pos (e : Int) : (0 : Rat) < 10 ^ e := zpow_pos (by norm_num) e

theorem ten_zpow_le_of_le {e e' : Int} (h : e ≤ e') : (10 : Rat) ^ e ≤ 10 ^ e' :=
  zpow_le_zpow_right₀ (by norm_num) h

/-- Below one a power of ten is below the power of two with its exponent. -/
theorem ten_zpow_le_two_zpow {e : Int} (h : e ≤ 0) : (10 : Rat) ^ e ≤ 2 ^ e := by
  obtain ⟨n, rfl⟩ := Int.exists_eq_neg_ofNat h
  rw [zpow_neg, zpow_neg, zpow_natCast, zpow_natCast]
  exact inv_anti₀ (by positivity) (pow_le_pow_left₀ (by norm_num) (by norm_num) n)

theorem two_zpow_le_ten_zpow {e : Int} (h : 0 ≤ e) : (2 : Rat) ^ e ≤ 10 ^ e := by
  obtain ⟨n, rfl⟩ := Int.eq_ofNat_of_zero_le h
  rw [zpow_natCast, zpow_natCast]
  exact pow_le_pow_left₀ (by norm_num) (by norm_num) n

namespace Decimal

variable (d : Decimal)

/-- One more than the exponent of the leading digit. -/
def order : Int := ((Nat.toDigits 10 d.coefficient).length : Int) + d.exponent

theorem value_nonneg : 0 ≤ d.value :=
  mul_nonneg (by positivity) (ten_zpow_pos _).le

theorem coefficient_lt : d.coefficient < 10 ^ (Nat.toDigits 10 d.coefficient).length :=
  (Nat.length_toDigits_le_iff (by decide) Nat.length_toDigits_pos).mp le_rfl

theorem le_coefficient (h : d.coefficient ≠ 0) :
    10 ^ ((Nat.toDigits 10 d.coefficient).length - 1) ≤ d.coefficient := by
  rcases Nat.eq_zero_or_pos ((Nat.toDigits 10 d.coefficient).length - 1) with hone | hmore
  · rw [hone]
    omega
  · refine not_lt.mp fun hlt => ?_
    have := (Nat.length_toDigits_le_iff (by decide) hmore).mpr hlt
    omega

theorem value_lt : d.value < 10 ^ d.order := by
  rw [value, order, zpow_add₀ (by norm_num), zpow_natCast]
  exact mul_lt_mul_of_pos_right (by exact_mod_cast d.coefficient_lt) (ten_zpow_pos _)

theorem le_value (h : d.coefficient ≠ 0) : 10 ^ (d.order - 1) ≤ d.value := by
  have hlength := Nat.length_toDigits_pos (b := 10) (n := d.coefficient)
  have horder : d.order - 1 =
      ((Nat.toDigits 10 d.coefficient).length - 1 : Nat) + d.exponent := by
    rw [order]
    omega
  rw [value, horder, zpow_add₀ (by norm_num), zpow_natCast]
  exact mul_le_mul_of_nonneg_right (by exact_mod_cast d.le_coefficient h) (ten_zpow_pos _).le

end Decimal

/-! ## Rounding decimals -/

namespace Format

variable (f : Format)

theorem magnitude_one : f.magnitude 1 = 2 ^ f.minExponent := by
  have hone := f.magnitude_succ 0
  rwa [f.magnitude_zero, zero_add, zero_add, gap, level, Nat.zero_div, Nat.zero_sub, Nat.cast_zero,
    add_zero] at hone

/-- Less than half the smallest spacing is rounded to zero. -/
theorem nearestRank_of_lt_halfLeast {q : Rat} (hq : 0 ≤ q) (h : q < f.halfLeast) :
    f.nearestRank q = 0 := by
  have htwice : (2 : Rat) ^ f.minExponent = 2 * f.halfLeast := by
    rw [halfLeast, ← two_zpow_succ, sub_add_cancel]
  have hfloor : f.floorRank q = 0 := by
    refine Nat.eq_zero_of_not_pos fun hpos => ?_
    have hle := (f.le_floorRank_iff hq).mp hpos
    rw [f.magnitude_one] at hle
    linarith
  rw [nearestRank]
  rw [hfloor, zero_add, f.magnitude_zero, f.magnitude_one, if_pos]
  left
  linarith

theorem infinityRank_le_nearestRank {q : Rat} (hq : 0 ≤ q) (h : f.top ≤ q) :
    f.infinityRank ≤ f.nearestRank q :=
  ((f.le_floorRank_iff hq).mpr h).trans (f.nearestRank_bounds q).1

end Format

namespace Binary

variable {f : Format}

/-- The orders of magnitude that are not formed are those of zero and infinity. -/
theorem ofDecimal_eq_round (hmin : f.minExponent ≤ 0) (hexponent : 0 < f.exponentBits)
    (negative : Bool) (d : Decimal) :
    (ofDecimal negative d : Binary f) = round negative d.value := by
  have horder : ((Nat.toDigits 10 d.coefficient).length : Int) + d.exponent = d.order := rfl
  have hnonneg := d.value_nonneg
  rw [ofDecimal, horder, round]
  by_cases hsmall : d.coefficient = 0 ∨ d.order < f.minExponent
  · have hlt : d.value < f.halfLeast := by
      rcases hsmall with hzero | hlow
      · rw [Decimal.value, hzero, Nat.cast_zero, zero_mul]
        exact f.halfLeast_pos
      · calc d.value < 10 ^ d.order := d.value_lt
          _ ≤ 10 ^ (f.minExponent - 1) := ten_zpow_le_of_le (by omega)
          _ ≤ f.halfLeast := ten_zpow_le_two_zpow (by omega)
    have hrank : min (f.nearestRank d.value) f.infinityRank = 0 := by
      rw [f.nearestRank_of_lt_halfLeast hnonneg hlt, Nat.zero_min]
    rw [if_pos hsmall]
    exact congrArg (number negative) (Fin.ext hrank.symm)
  · rw [if_neg hsmall]
    obtain ⟨hzero, -⟩ := not_or.mp hsmall
    split
    · rename_i hlarge
      have htop : f.top ≤ d.value := by
        rw [f.top_eq hexponent]
        have hoverflow : 0 ≤ f.overflowExponent := Int.natCast_nonneg _
        calc (2 : Rat) ^ f.overflowExponent ≤ 10 ^ f.overflowExponent :=
              two_zpow_le_ten_zpow hoverflow
          _ ≤ 10 ^ (d.order - 1) := ten_zpow_le_of_le (by omega)
          _ ≤ d.value := d.le_value hzero
      have hrank : min (f.nearestRank d.value) f.infinityRank = f.infinityRank :=
        min_eq_right (f.infinityRank_le_nearestRank hnonneg htop)
      exact congrArg (number negative) (Fin.ext hrank.symm)
    · rfl

end Binary

/-! ## Positional texts -/

namespace Numeral

variable {whole fraction : List Char}

theorem takeWhile_isDigit (h : ∀ c ∈ whole, c.isDigit = true) :
    whole.takeWhile Char.isDigit = whole ∧ whole.dropWhile Char.isDigit = [] :=
  ⟨List.takeWhile_eq_self_iff.mpr h, List.dropWhile_eq_nil_iff.mpr h⟩

theorem decimal?_of_digits (hne : whole ≠ []) (h : ∀ c ∈ whole, c.isDigit = true) :
    decimal? whole = some ⟨Nat.ofDigitChars 10 whole 0, 0⟩ := by
  have hsplit : splitMantissa whole = (whole, [], []) := by
    rw [splitMantissa, (takeWhile_isDigit h).1, (takeWhile_isDigit h).2]
  rw [decimal?, hsplit]
  simp [hne, exponent?]

theorem decimal?_of_point (hne : whole ≠ []) (hwhole : ∀ c ∈ whole, c.isDigit = true)
    (hfraction : ∀ c ∈ fraction, c.isDigit = true) :
    decimal? (whole ++ '.' :: fraction) =
      some ⟨Nat.ofDigitChars 10 (whole ++ fraction) 0, -(fraction.length : Int)⟩ := by
  have hpoint : ¬ Char.isDigit '.' = true := by decide
  have hsplit : splitMantissa (whole ++ '.' :: fraction) = (whole, fraction, []) := by
    rw [splitMantissa, List.takeWhile_append_of_pos hwhole, List.dropWhile_append_of_pos hwhole,
      List.takeWhile_cons_of_neg hpoint, List.dropWhile_cons_of_neg hpoint, List.append_nil]
    change (whole, fraction.takeWhile Char.isDigit, fraction.dropWhile Char.isDigit) = _
    rw [(takeWhile_isDigit hfraction).1, (takeWhile_isDigit hfraction).2]
  rw [decimal?, hsplit]
  simp [hne, exponent?]

end Numeral

namespace Decimal

theorem isDigit_of_mem_toDigits {n : Nat} {c : Char} (h : c ∈ Nat.toDigits 10 n) :
    c.isDigit = true :=
  Nat.isDigit_of_mem_toDigits (by decide) (by decide) h

theorem isDigit_of_mem_paddedDigits {n places : Nat} {c : Char} (h : c ∈ paddedDigits n places) :
    c.isDigit = true := by
  rcases List.mem_append.mp h with hzero | hdigit
  · rw [List.eq_of_mem_replicate hzero]
    decide
  · exact isDigit_of_mem_toDigits hdigit

theorem ofDigitChars_paddedDigits (n places : Nat) :
    Nat.ofDigitChars 10 (paddedDigits n places) 0 = n := by
  rw [paddedDigits, Nat.ofDigitChars_append, Nat.ofDigitChars_replicate_zero, Nat.mul_zero,
    Nat.ofDigitChars_ten_toDigits]

theorem lt_length_paddedDigits (n places : Nat) : places < (paddedDigits n places).length := by
  rw [paddedDigits, List.length_append, List.length_replicate]
  omega

/-- The text of a decimal with its value: digits alone, or digits on both sides of a point. -/
theorem positional_cases (d : Decimal) :
    ∃ whole fraction : List Char, whole ≠ [] ∧ (∀ c ∈ whole, c.isDigit = true) ∧
      (∀ c ∈ fraction, c.isDigit = true) ∧
      (d.positional = whole ∧ fraction = [] ∨ d.positional = whole ++ '.' :: fraction) ∧
      (⟨Nat.ofDigitChars 10 (whole ++ fraction) 0, -(fraction.length : Int)⟩ : Decimal).value =
        d.value := by
  rw [positional]
  by_cases hexponent : 0 ≤ d.exponent
  · rw [if_pos hexponent]
    obtain ⟨n, hn⟩ := Int.eq_ofNat_of_zero_le hexponent
    refine ⟨_, [], List.append_ne_nil_of_left_ne_nil Nat.toDigits_ne_nil _, ?_, nofun,
      Or.inl ⟨rfl, rfl⟩, ?_⟩
    · intro c hc
      rcases List.mem_append.mp hc with hdigit | hzero
      · exact isDigit_of_mem_toDigits hdigit
      · rw [List.eq_of_mem_replicate hzero]
        decide
    · rw [List.append_nil, Nat.ofDigitChars_append, Nat.ofDigitChars_ten_toDigits,
        Nat.ofDigitChars_replicate_zero, value, value, hn, Int.toNat_natCast]
      simp only [List.length_nil, Nat.cast_zero, neg_zero, zpow_zero, mul_one, zpow_natCast]
      push_cast
      ring
  · rw [if_neg hexponent]
    obtain ⟨n, hn⟩ := Int.exists_eq_neg_ofNat (not_le.mp hexponent).le
    have hplaces : (-d.exponent).toNat = n := by omega
    have hlength := lt_length_paddedDigits d.coefficient n
    rw [hplaces, withPoint]
    refine ⟨_, _, ?_, fun c hc => isDigit_of_mem_paddedDigits (List.mem_of_mem_take hc),
      fun c hc => isDigit_of_mem_paddedDigits (List.mem_of_mem_drop hc), Or.inr rfl, ?_⟩
    · rw [Ne, List.take_eq_nil_iff]
      rintro (h | h)
      · omega
      · rw [h] at hlength
        exact Nat.not_lt_zero _ hlength
    · rw [List.take_append_drop, ofDigitChars_paddedDigits, List.length_drop, value, value, hn,
        Nat.sub_sub_self hlength.le]

theorem decimal?_positional (d : Decimal) :
    ∃ e, Numeral.decimal? d.positional = some e ∧ e.value = d.value := by
  obtain ⟨whole, fraction, hne, hwhole, hfraction, htext, hvalue⟩ := d.positional_cases
  rcases htext with ⟨htext, rfl⟩ | htext
  · rw [List.append_nil] at hvalue
    exact ⟨_, (congrArg Numeral.decimal? htext).trans (Numeral.decimal?_of_digits hne hwhole),
      hvalue⟩
  · exact ⟨_, (congrArg Numeral.decimal? htext).trans
      (Numeral.decimal?_of_point hne hwhole hfraction), hvalue⟩

end Decimal

/-! ## Characters of numbers -/

namespace Numeral

/-- The characters that a number may be written with. -/
def isMark (c : Char) : Bool := c.isAlphanum || c == '+' || c == '-' || c == '.'

variable {cs : List Char}

theorem isMark_of_isDigit {c : Char} (h : c.isDigit = true) : isMark c = true := by
  simp [isMark, Char.isAlphanum, h]

theorem isMark_of_isAlpha {c : Char} (h : c.isAlpha = true) : isMark c = true := by
  simp [isMark, Char.isAlphanum, h]

theorem isMark_of_splitSign (h : ∀ c ∈ (splitSign cs).2, isMark c = true) :
    ∀ c ∈ cs, isMark c = true := by
  intro c hc
  unfold splitSign at h
  split at h
  · rcases List.mem_cons.mp hc with rfl | hc
    · rfl
    · exact h c hc
  · rcases List.mem_cons.mp hc with rfl | hc
    · rfl
    · exact h c hc
  · exact h c hc

theorem isDigit_of_natural? {n : Nat} (h : natural? cs = some n) : ∀ c ∈ cs, c.isDigit = true := by
  rw [natural?] at h
  split at h
  · rename_i hdigits
    exact List.all_eq_true.mp hdigits.2
  · cases h

theorem isMark_of_integer? {n : Int} (h : integer? cs = some n) : ∀ c ∈ cs, isMark c = true := by
  obtain ⟨_, hsigned, -⟩ := Option.map_eq_some_iff.mp h
  obtain ⟨_, hbody, -⟩ := Option.bind_eq_some_iff.mp hsigned
  exact isMark_of_splitSign fun c hc => isMark_of_isDigit (isDigit_of_natural? hbody c hc)

theorem isMark_of_exponent? {e : Int} (h : exponent? cs = some e) : ∀ c ∈ cs, isMark c = true := by
  cases cs with
  | nil => exact nofun
  | cons d ds =>
      rw [exponent?] at h
      split at h
      · rename_i hletter
        intro c hc
        rcases List.mem_cons.mp hc with rfl | hc
        · rcases hletter with rfl | rfl <;> rfl
        · exact isMark_of_integer? h c hc
      · cases h

theorem isMark_of_decimal? {d : Decimal} (h : decimal? cs = some d) :
    ∀ c ∈ cs, isMark c = true := by
  have hrest : ∀ c ∈ (splitMantissa cs).2.2, isMark c = true := by
    rw [decimal?] at h
    dsimp only at h
    split at h
    · cases h
    · obtain ⟨e, he, -⟩ := Option.map_eq_some_iff.mp h
      exact isMark_of_exponent? he
  have hdigits (ds : List Char) : ∀ c ∈ ds.takeWhile Char.isDigit, isMark c = true :=
    fun c hc => isMark_of_isDigit (List.mem_takeWhile_imp hc)
  intro c hc
  rw [← List.takeWhile_append_dropWhile (p := Char.isDigit) (l := cs)] at hc
  rcases List.mem_append.mp hc with hc | hc
  · exact hdigits cs c hc
  · rw [splitMantissa] at hrest
    split at hrest
    · rename_i rest hpoint
      rw [hpoint] at hc
      rcases List.mem_cons.mp hc with rfl | hc
      · rfl
      · rw [← List.takeWhile_append_dropWhile (p := Char.isDigit) (l := rest)] at hc
        exact (List.mem_append.mp hc).elim (hdigits rest c) (hrest c)
    · exact hrest c hc

end Numeral

/-- A number is written with letters, digits, signs and points only. -/
theorem Binary.isMark_of_read? {f : Format} {x : Binary f} {cs : List Char}
    (h : read? cs = some x) : ∀ c ∈ cs, Numeral.isMark c = true := by
  have hword (word : String) (hletters : word.toList.all Char.isAlpha = true)
      (heq : String.ofList ((Numeral.splitSign cs).2.map Char.toLower) = word) :
      ∀ c ∈ (Numeral.splitSign cs).2, Numeral.isMark c = true := by
    intro c hc
    refine Numeral.isMark_of_isAlpha (Text.isAlpha_of_toLower (List.all_eq_true.mp hletters _ ?_))
    rw [← heq, String.toList_ofList]
    exact List.mem_map_of_mem hc
  refine Numeral.isMark_of_splitSign ?_
  rw [read?] at h
  dsimp only at h
  split at h
  · rename_i hnan
    exact hword "nan" rfl hnan
  · split at h
    · rename_i hinf
      rcases hinf with hinf | hinf
      · exact hword "inf" rfl hinf
      · exact hword "infinity" rfl hinf
    · obtain ⟨d, hd, -⟩ := Option.map_eq_some_iff.mp h
      exact Numeral.isMark_of_decimal? hd

end StructureLayout
