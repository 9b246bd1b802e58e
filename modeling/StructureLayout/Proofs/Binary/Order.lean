import StructureLayout.Proofs.Binary.Nearest

/-!
# Order

Adding a finite number keeps the order of numbers, and so do a product with a positive number
and a quotient by one, whatever is rounded and whether or not the result overflows; a negative
number reverses the order.  The nearest integer between two limits keeps it as well.
-/

namespace StructureLayout

/-! ## Integers -/

theorem roundHalfAway_mono {p q : Rat} (h : p ≤ q) : roundHalfAway p ≤ roundHalfAway q := by
  unfold roundHalfAway
  split
  · have hp : 0 ≤ (1 / 2 - p).floor := Rat.le_floor_iff.mpr (by push_cast; linarith)
    split
    · exact neg_le_neg (Rat.floor_monotone (by linarith))
    · have hq : 0 ≤ (1 / 2 + q).floor := Rat.le_floor_iff.mpr (by push_cast; linarith)
      omega
  · split
    · linarith
    · exact Rat.floor_monotone (by linarith)

theorem clampInt_mono {lo hi m n : Int} (h : m ≤ n) : clampInt lo hi m ≤ clampInt lo hi n := by
  unfold clampInt
  omega

theorem clampInt_mem {lo hi : Int} (h : lo ≤ hi) (n : Int) :
    lo ≤ clampInt lo hi n ∧ clampInt lo hi n ≤ hi := by
  unfold clampInt
  omega

theorem clampInt_of_mem {lo hi n : Int} (hlo : lo ≤ n) (hhi : n ≤ hi) :
    clampInt lo hi n = n := by
  unfold clampInt
  omega

namespace Binary

variable {f : Format} {x y b : Binary f}

theorem atMost_iff :
    x.atMost y = true ↔ x.isNaN = false ∧ y.isNaN = false ∧ x.value ≤ y.value := by
  cases x with
  | nan => simp [atMost, isNaN]
  | number s r =>
      cases y with
      | nan => simp [atMost, isNaN]
      | number t u => simp [atMost, isNaN]

theorem atMost_trans {z : Binary f} (hxy : x.atMost y = true) (hyz : y.atMost z = true) :
    x.atMost z = true := by
  rw [atMost_iff] at hxy hyz ⊢
  exact ⟨hxy.1, hyz.2.1, hxy.2.2.trans hyz.2.2⟩

theorem atMost_neg_iff : (-x).atMost (-y) = true ↔ y.atMost x = true := by
  rw [atMost_iff, atMost_iff, isNaN_neg, isNaN_neg, value_neg, value_neg, neg_le_neg_iff]
  tauto

theorem infinity_atMost (hy : y.isNaN = false) : (infinity true).atMost y = true :=
  atMost_iff.mpr ⟨rfl, hy, (abs_le.mp y.abs_value_le_top).1⟩

theorem atMost_infinity (hx : x.isNaN = false) : x.atMost (infinity false) = true :=
  atMost_iff.mpr ⟨hx, rfl, (abs_le.mp x.abs_value_le_top).2⟩

theorem top_pos_of_isFinite (hb : b.isFinite = true) : 0 < f.top :=
  (abs_nonneg b.value).trans_lt ((abs_value_lt_top_iff (isNaN_of_isFinite hb)).mpr hb)

theorem eq_infinity_of_top_le (htop : 0 < f.top) (hx : x.isNaN = false) (h : f.top ≤ x.value) :
    x = infinity false := by
  rcases finite_or_infinite hx with hfinite | hinfinite
  · have hlt := abs_lt.mp ((abs_value_lt_top_iff hx).mpr hfinite)
    linarith [hlt.2]
  · rw [eq_infinity_of_isInfinite hinfinite] at h ⊢
    cases hnegative : x.isNegative with
    | false => rfl
    | true =>
        rw [value_infinity, hnegative, signed, if_pos rfl] at h
        linarith

/-- Beside the infinity at either end, only finite numbers are ordered. -/
theorem finite_of_atMost (htop : 0 < f.top) (h : x.atMost y = true) :
    x = infinity true ∨ y = infinity false ∨ x.isFinite = true ∧ y.isFinite = true := by
  obtain ⟨hx, hy, hle⟩ := atMost_iff.mp h
  rcases finite_or_infinite hx with hxf | hxi
  · rcases finite_or_infinite hy with hyf | hyi
    · exact Or.inr (Or.inr ⟨hxf, hyf⟩)
    · have hlt := abs_lt.mp ((abs_value_lt_top_iff hx).mpr hxf)
      have hinfinity := eq_infinity_of_isInfinite hyi
      rw [hinfinity, value_infinity] at hle
      cases hnegative : y.isNegative with
      | false =>
          rw [hnegative] at hinfinity
          exact Or.inr (Or.inl hinfinity)
      | true =>
          -- no finite number is below the negative infinity
          rw [hnegative, signed, if_pos rfl] at hle
          linarith [hlt.1]
  · have hinfinity := eq_infinity_of_isInfinite hxi
    cases hnegative : x.isNegative with
    | true =>
        rw [hnegative] at hinfinity
        exact Or.inl hinfinity
    | false =>
        rw [hinfinity, hnegative] at hle
        exact Or.inr (Or.inl (eq_infinity_of_top_le htop hy hle))

/-- An operation keeps the order if it leaves the infinities as they are and rounds an increasing
function of the value elsewhere. -/
theorem atMost_of_rounds (htop : 0 < f.top) (op : Binary f → Binary f) {g : Rat → Rat}
    (hg : Monotone g) (hnan : ∀ x, (op x).isNaN = x.isNaN)
    (hinfinite : ∀ x, x.isInfinite = true → op x = x)
    (hfinite : ∀ x, x.isFinite = true → (op x).value = f.nearest (g x.value))
    (h : x.atMost y = true) : (op x).atMost (op y) = true := by
  obtain ⟨hx, hy, hle⟩ := atMost_iff.mp h
  rcases finite_of_atMost htop h with rfl | rfl | ⟨hxf, hyf⟩
  · rw [hinfinite _ (isInfinite_infinity true)]
    exact infinity_atMost ((hnan y).trans hy)
  · rw [hinfinite _ (isInfinite_infinity false)]
    exact atMost_infinity ((hnan x).trans hx)
  · refine atMost_iff.mpr ⟨(hnan x).trans hx, (hnan y).trans hy, ?_⟩
    rw [hfinite x hxf, hfinite y hyf]
    exact f.nearest_mono (hg hle)

theorem isNegative_of_pos (h : 0 < x.value) : x.isNegative = false := by
  obtain ⟨m, hm, hx⟩ := x.value_eq_signed
  cases hnegative : x.isNegative with
  | false => rfl
  | true =>
      rw [hx, hnegative, signed, if_pos rfl] at h
      linarith

theorem isNegative_of_neg (h : x.value < 0) : x.isNegative = true := by
  obtain ⟨m, hm, hx⟩ := x.value_eq_signed
  cases hnegative : x.isNegative with
  | true => rfl
  | false =>
      rw [hx, hnegative, signed, if_neg Bool.false_ne_true] at h
      linarith

theorem isZero_of_value_ne_zero (h : x.value ≠ 0) : x.isZero = false := by
  cases x with
  | nan => rfl
  | number negative rank =>
      rw [Ne, value_eq_zero_iff rfl] at h
      exact Bool.eq_false_iff.mpr h

section Scaling

variable (htop : 0 < f.top) (op : Binary f → Binary f) {g : Rat → Rat}
  (hnan : ∀ x, (op x).isNaN = x.isNaN)
  (hinfinite : ∀ x, x.isInfinite = true → op x = infinity (x.isNegative != b.isNegative))
  (hfinite : ∀ x, x.isFinite = true → (op x).value = f.nearest (g x.value))
include htop hnan hinfinite hfinite

theorem atMost_of_scales (hb : 0 < b.value) (hg : Monotone g) (h : x.atMost y = true) :
    (op x).atMost (op y) = true := by
  refine atMost_of_rounds htop op hg hnan (fun x hx => ?_) hfinite h
  rw [hinfinite x hx, isNegative_of_pos hb, Bool.bne_false, ← eq_infinity_of_isInfinite hx]

theorem atMost_of_scales_neg (hb : b.value < 0) (hg : Antitone g) (h : x.atMost y = true) :
    (op y).atMost (op x) = true := by
  rw [← atMost_neg_iff]
  refine atMost_of_rounds htop (fun x => -op x) (fun p q hle => neg_le_neg (hg hle)) (fun x => ?_)
    (fun x hx => ?_) (fun x hx => ?_) h
  · rw [isNaN_neg, hnan]
  · rw [hinfinite x hx, isNegative_of_neg hb]
    conv_rhs => rw [eq_infinity_of_isInfinite hx]
    cases x.isNegative <;> rfl
  · rw [value_neg, hfinite x hx, f.nearest_neg]

end Scaling

/-! ## Operations -/

section Operations

variable (hb : b.isFinite = true) (h : x.atMost y = true)
include hb h

theorem add_atMost_add : (x + b).atMost (y + b) = true := by
  refine atMost_of_rounds (top_pos_of_isFinite hb) (· + b) (add_left_mono (a := b.value))
    (fun _ => isNaN_add hb) (fun _ hx => add_of_isInfinite hb hx) (fun x hx => ?_) h
  rw [value_add hx hb, add_comm]

theorem sub_atMost_sub : (x - b).atMost (y - b) = true := by
  have hneg : (-b).isFinite = true := by rwa [isFinite_neg]
  exact add_atMost_add hneg h

theorem mul_atMost_mul (hpos : 0 < b.value) : (x * b).atMost (y * b) = true := by
  have hzero := isZero_of_value_ne_zero hpos.ne'
  have hmono : Monotone fun q : Rat => q * b.value :=
    fun p q hle => mul_le_mul_of_nonneg_right hle hpos.le
  exact atMost_of_scales (top_pos_of_isFinite hb) (· * b) (g := (· * b.value))
    (fun _ => isNaN_mul hb hzero) (fun _ => mul_of_isInfinite hb hzero)
    (fun _ hx => value_mul hx hb) hpos hmono h

theorem mul_atMost_mul_of_neg (hneg : b.value < 0) : (y * b).atMost (x * b) = true := by
  have hzero := isZero_of_value_ne_zero hneg.ne
  have hanti : Antitone fun q : Rat => q * b.value :=
    fun p q hle => mul_le_mul_of_nonpos_right hle hneg.le
  exact atMost_of_scales_neg (top_pos_of_isFinite hb) (· * b) (g := (· * b.value))
    (fun _ => isNaN_mul hb hzero) (fun _ => mul_of_isInfinite hb hzero)
    (fun _ hx => value_mul hx hb) hneg hanti h

theorem div_atMost_div (hpos : 0 < b.value) : (x / b).atMost (y / b) = true := by
  have hzero := isZero_of_value_ne_zero hpos.ne'
  have hmono : Monotone fun q : Rat => q / b.value :=
    fun p q hle => div_le_div_of_nonneg_right hle hpos.le
  exact atMost_of_scales (top_pos_of_isFinite hb) (· / b) (g := (· / b.value))
    (fun _ => isNaN_div hb hzero) (fun _ => div_of_isInfinite hb)
    (fun _ hx => value_div hx hb hzero) hpos hmono h

theorem div_atMost_div_of_neg (hneg : b.value < 0) : (y / b).atMost (x / b) = true := by
  have hzero := isZero_of_value_ne_zero hneg.ne
  have hanti : Antitone fun q : Rat => q / b.value :=
    fun p q hle => div_le_div_of_nonpos_of_le hneg.le hle
  exact atMost_of_scales_neg (top_pos_of_isFinite hb) (· / b) (g := (· / b.value))
    (fun _ => isNaN_div hb hzero) (fun _ => div_of_isInfinite hb)
    (fun _ hx => value_div hx hb hzero) hneg hanti h

end Operations

theorem isNaN_ofInt (n : Int) : (ofInt n : Binary f).isNaN = false := rfl

theorem ofInt_mono {m n : Int} (h : m ≤ n) : (ofInt m : Binary f).atMost (ofInt n) = true := by
  refine atMost_iff.mpr ⟨rfl, rfl, ?_⟩
  rw [ofInt, value_ofRat, ofInt, value_ofRat]
  exact f.nearest_mono (by exact_mod_cast h)

/-! ## Integers between limits -/

variable {lo hi : Int}

theorem toIntClamped_of_isFinite (hx : x.isFinite = true) :
    x.toIntClamped lo hi = clampInt lo hi (roundHalfAway x.value) := by
  cases x with
  | nan => cases hx
  | number negative rank =>
      rw [isFinite, bne_iff_ne] at hx
      rw [toIntClamped, if_neg hx]

theorem toIntClamped_infinity (negative : Bool) :
    (infinity negative : Binary f).toIntClamped lo hi = if negative then lo else hi := by
  rw [infinity, toIntClamped, if_pos rfl]

theorem toIntClamped_mem (hlo : lo ≤ 0) (hhi : 0 ≤ hi) (x : Binary f) :
    lo ≤ x.toIntClamped lo hi ∧ x.toIntClamped lo hi ≤ hi := by
  cases hnan : x.isNaN with
  | true =>
      cases x with
      | nan => exact ⟨hlo, hhi⟩
      | number _ _ => cases hnan
  | false =>
      rcases finite_or_infinite hnan with hx | hx
      · rw [toIntClamped_of_isFinite hx]
        exact clampInt_mem (hlo.trans hhi) _
      · rw [eq_infinity_of_isInfinite hx, toIntClamped_infinity]
        split <;> omega

theorem toIntClamped_mono (htop : 0 < f.top) (hlo : lo ≤ 0) (hhi : 0 ≤ hi)
    (h : x.atMost y = true) : x.toIntClamped lo hi ≤ y.toIntClamped lo hi := by
  rcases finite_of_atMost htop h with rfl | rfl | ⟨hx, hy⟩
  · rw [toIntClamped_infinity]
    exact (toIntClamped_mem hlo hhi y).1
  · rw [toIntClamped_infinity]
    exact (toIntClamped_mem hlo hhi x).2
  · rw [toIntClamped_of_isFinite hx, toIntClamped_of_isFinite hy]
    exact clampInt_mono (roundHalfAway_mono (atMost_iff.mp h).2.2)

end Binary

end StructureLayout
