import StructureLayout.Primitive
import StructureLayout.Proofs.Binary.Order
import Mathlib.Data.Rat.Floor

/-!
# Accuracy

A rational is left as it is where its significand fits the format, and the integers up to twice a
binade are among these.  Elsewhere the error is at most half a unit in the last place of the
rational or half the smallest spacing, no other number is nearer, and a term too small to reach
halfway to the next number is lost.
-/

namespace StructureLayout

/-! ## Nearest integers -/

theorem roundHalfAway_of_near {q : Rat} {n : Int} (h : |q - n| < 1 / 2) :
    roundHalfAway q = n := by
  obtain ⟨hlow, hhigh⟩ := abs_lt.mp h
  rw [roundHalfAway]
  split
  · rw [neg_eq_iff_eq_neg]
    change ⌊1 / 2 - q⌋ = -n
    rw [Int.floor_eq_iff]
    push_cast
    constructor <;> linarith
  · change ⌊1 / 2 + q⌋ = n
    rw [Int.floor_eq_iff]
    constructor <;> linarith

@[simp] theorem roundHalfAway_intCast (n : Int) : roundHalfAway n = n :=
  roundHalfAway_of_near (by rw [sub_self, abs_zero]; norm_num)

theorem abs_roundHalfAway_sub_le (q : Rat) : |(roundHalfAway q : Rat) - q| ≤ 1 / 2 := by
  rw [roundHalfAway]
  split
  · have hbelow := Rat.floor_le (1 / 2 - q)
    have habove := Rat.lt_floor_add_one (1 / 2 - q)
    push_cast at habove ⊢
    rw [abs_le]
    constructor <;> linarith
  · have hbelow := Rat.floor_le (1 / 2 + q)
    have habove := Rat.lt_floor_add_one (1 / 2 + q)
    push_cast at habove
    rw [abs_le]
    constructor <;> linarith

theorem abs_roundHalfAway_le {q : Rat} {n : Int} (h : |q| ≤ n) : |roundHalfAway q| ≤ n := by
  obtain ⟨hlow, hhigh⟩ := abs_le.mp h
  have hleast : roundHalfAway (-n : Int) ≤ roundHalfAway q :=
    roundHalfAway_mono (by push_cast; exact hlow)
  have hgreatest : roundHalfAway q ≤ roundHalfAway n := roundHalfAway_mono hhigh
  rw [roundHalfAway_intCast] at hleast hgreatest
  exact abs_le.mpr ⟨hleast, hgreatest⟩

namespace Format

open Binary (signed)

variable (f : Format)

theorem top_eq (h : 0 < f.exponentBits) : f.top = 2 ^ f.overflowExponent := by
  have hpow : 1 <<< f.exponentBits = 2 * 1 <<< (f.exponentBits - 1) := by
    simp only [Nat.shiftLeft_eq, Nat.one_mul]
    rw [← Nat.pow_succ', Nat.succ_eq_add_one, Nat.sub_add_cancel h]
  have hhalf : 0 < 1 <<< (f.exponentBits - 1) := by
    rw [Nat.shiftLeft_eq, Nat.one_mul]
    exact Nat.two_pow_pos _
  obtain ⟨k, hk⟩ := Nat.exists_eq_add_of_lt hhalf
  have hrank : f.infinityRank = (2 * k) * f.binade + f.binade := by
    rw [infinityRank, hpow, hk]
    have : 2 * (0 + k + 1) - 1 = 2 * k + 1 := by omega
    rw [this]
    ring
  have hlevel : 2 * k = 0 ∨ f.binade ≤ f.binade := Or.inr le_rfl
  rw [top, hrank, f.magnitude_of_level (by omega) hlevel, overflowExponent, minExponent, hk,
    f.binade_eq, Nat.cast_pow, Nat.cast_ofNat, ← zpow_natCast, ← zpow_add₀ (by norm_num)]
  congr 1
  push_cast
  ring

/-! ## Exact results -/

/-- Up to twice a binade every number of steps is a magnitude, whatever the level of the steps. -/
theorem exists_rank {n : Nat} (hn : n ≤ 2 * f.binade) (level : Nat) :
    ∃ rank, f.magnitude rank = n * 2 ^ (f.minExponent + level) := by
  induction level generalizing n with
  | zero => exact ⟨_, f.magnitude_of_level hn (Or.inl rfl)⟩
  | succ level ih =>
      rcases Nat.lt_or_ge n f.binade with hlt | hge
      · -- twice as many steps on the level below
        obtain ⟨rank, hrank⟩ := ih (n := 2 * n) (by omega)
        refine ⟨rank, hrank.trans ?_⟩
        push_cast
        rw [← add_assoc, two_zpow_succ]
        ring
      · exact ⟨_, f.magnitude_of_level hn (Or.inr hge)⟩

theorem nearest_eq_self (negative : Bool) {n : Nat} {e : Int} (hn : n ≤ 2 * f.binade)
    (he : f.minExponent ≤ e) (htop : (n : Rat) * 2 ^ e ≤ f.top) :
    f.nearest (signed negative (n * 2 ^ e)) = signed negative (n * 2 ^ e) := by
  obtain ⟨level, hlevel⟩ := Int.eq_ofNat_of_zero_le (sub_nonneg.mpr he)
  obtain rfl : e = f.minExponent + level := by omega
  obtain ⟨rank, hrank⟩ := f.exists_rank hn level
  have hle : rank ≤ f.infinityRank := by
    rw [← hrank, top] at htop
    exact f.magnitude_strictMono.le_iff_le.mp htop
  rw [← hrank, f.nearest_signed _ (f.magnitude_nonneg rank), f.nearestMagnitude_magnitude hle]

section Integers

variable (hmin : f.minExponent ≤ 0) (htop : 2 * (f.binade : Rat) ≤ f.top)
include hmin htop

theorem nearest_intCast {n : Int} (hn : |n| ≤ 2 * f.binade) : f.nearest n = n := by
  have hnat : n.natAbs ≤ 2 * f.binade := by
    rw [Int.abs_eq_natAbs] at hn
    omega
  have hle : (n.natAbs : Rat) * 2 ^ (0 : Int) ≤ f.top := by
    rw [zpow_zero, mul_one]
    exact le_trans (by exact_mod_cast hnat) htop
  have hsigned : (n : Rat) = signed (decide (n < 0)) (n.natAbs * 2 ^ (0 : Int)) := by
    rw [zpow_zero, mul_one, signed]
    rcases lt_or_ge n 0 with hneg | hpos
    · rw [decide_eq_true hneg, if_pos rfl, Nat.cast_natAbs, abs_of_neg hneg]
      push_cast
      ring
    · rw [decide_eq_false hpos.not_gt, if_neg Bool.false_ne_true, Nat.cast_natAbs,
        abs_of_nonneg hpos]
  rw [hsigned]
  exact f.nearest_eq_self _ hnat hmin hle

/-- The nearest integer of a number is a number of the format: above a binade the number itself, and
below it an integer of at most a binade. -/
theorem nearest_roundHalfAway (x : Binary f) :
    f.nearest (roundHalfAway x.value) = roundHalfAway x.value := by
  obtain ⟨negative, rank, -, hx⟩ := x.exists_rank_value
  obtain ⟨n, hn, hmagnitude, -⟩ := f.exists_significand rank
  rw [gap] at hmagnitude
  rcases le_or_gt 0 (f.minExponent + f.level rank) with he | he
  · obtain ⟨k, hk⟩ := Int.eq_ofNat_of_zero_le he
    have hvalue : x.value = ((if negative then -(n * 2 ^ k : Int) else n * 2 ^ k : Int) : Rat) := by
      rw [hx, hmagnitude, hk, signed]
      split <;> push_cast <;> norm_cast
    rw [hvalue, roundHalfAway_intCast, ← hvalue, x.nearest_value]
  · have hhalf : (2 : Rat) ^ (f.minExponent + f.level rank) ≤ 2 ^ (-1 : Int) :=
      two_zpow_le_of_le (by omega)
    have hcast : (n : Rat) ≤ 2 * f.binade := by exact_mod_cast hn.le
    have hsmall : |x.value| ≤ (f.binade : Int) := by
      rw [hx, Binary.abs_signed, abs_of_nonneg (f.magnitude_nonneg _), hmagnitude]
      calc (n : Rat) * 2 ^ (f.minExponent + f.level rank)
          ≤ 2 * f.binade * 2 ^ (-1 : Int) :=
            mul_le_mul hcast hhalf (two_zpow_pos _).le (by positivity)
        _ = (f.binade : Int) := by
            rw [zpow_neg_one]
            push_cast
            ring
    have hround := abs_roundHalfAway_le hsmall
    exact f.nearest_intCast hmin htop (by omega)

end Integers

/-! ## Errors -/

/-- Half a unit in the last place of one. -/
def halfUnit : Rat := 2 ^ (-(f.fractionBits : Int) - 1)

/-- Half the smallest spacing. -/
def halfLeast : Rat := 2 ^ (f.minExponent - 1)

theorem halfUnit_pos : 0 < f.halfUnit := two_zpow_pos _

theorem halfLeast_pos : 0 < f.halfLeast := two_zpow_pos _

/-- The error of the nearest number is at most half a unit in the last place, or half the smallest
spacing. -/
theorem abs_nearest_sub_le_halfUnit {q : Rat} (hq : |q| ≤ f.top) :
    |f.nearest q - q| ≤ |q| * f.halfUnit + f.halfLeast := by
  have hleast := f.halfLeast_pos
  have hunit : 0 ≤ |q| * f.halfUnit := mul_nonneg (abs_nonneg q) f.halfUnit_pos.le
  rcases eq_or_ne q 0 with rfl | hne
  · rw [f.nearest_zero, sub_zero, abs_zero, zero_mul, zero_add]
    exact hleast.le
  · have hspacing : (2 : Rat) ^ f.spacing |q| ≤ 2 * (|q| * f.halfUnit + f.halfLeast) := by
      rcases max_choice f.minExponent (floorLog2 |q| - f.fractionBits) with h | h
      · have htwice : (2 : Rat) ^ f.minExponent = 2 * f.halfLeast := by
          rw [halfLeast, ← two_zpow_succ, sub_add_cancel]
        rw [spacing, h, htwice]
        linarith
      · have htwice : (2 : Rat) ^ (floorLog2 |q| - f.fractionBits) =
            2 * (2 ^ floorLog2 |q| * f.halfUnit) := by
          rw [halfUnit, ← zpow_add₀ (by norm_num), ← two_zpow_succ]
          congr 1
          ring
        have hlog := mul_le_mul_of_nonneg_right (two_zpow_floorLog2_le (abs_pos.mpr hne))
          f.halfUnit_pos.le
        rw [spacing, h, htwice]
        linarith
    linarith [f.abs_nearest_sub_le hq hne]

theorem abs_magnitude_nearestRank_sub_le_abs {q : Rat} (hq : 0 ≤ q) (rank : Nat) :
    |f.magnitude (f.nearestRank q) - q| ≤ |f.magnitude rank - q| := by
  have hbelow := f.magnitude_floorRank_le hq
  have habove := f.lt_magnitude_floorRank_succ hq
  rw [nearestRank]
  rcases Nat.lt_or_ge (f.floorRank q) rank with hlt | hge
  · -- the magnitude is not below the one above the rational
    have hfar : f.magnitude (f.floorRank q + 1) ≤ f.magnitude rank :=
      f.magnitude_strictMono.monotone hlt
    rw [abs_of_nonneg (by linarith : 0 ≤ f.magnitude rank - q)]
    split
    · rename_i h
      rw [abs_of_nonpos (by linarith)]
      rcases h with h | ⟨h, -⟩ <;> linarith
    · rw [abs_of_nonneg (by linarith)]
      linarith
  · -- it is not above the one below the rational
    have hfar := f.magnitude_strictMono.monotone hge
    rw [abs_of_nonpos (by linarith : f.magnitude rank - q ≤ 0)]
    split
    · rw [abs_of_nonpos (by linarith)]
      linarith
    · rename_i h
      have hup := not_lt.mp fun hlt => h (Or.inl hlt)
      rw [abs_of_nonneg (by linarith)]
      linarith

/-- No magnitude is nearer than the nearest one. -/
theorem abs_nearestMagnitude_sub_le {q : Rat} (hq : 0 ≤ q) {rank : Nat}
    (hrank : rank ≤ f.infinityRank) :
    |f.nearestMagnitude q - q| ≤ |f.magnitude rank - q| := by
  rcases le_or_gt (f.nearestRank q) f.infinityRank with hle | hgt
  · rw [nearestMagnitude, min_eq_left hle]
    exact f.abs_magnitude_nearestRank_sub_le_abs hq rank
  · -- past the last magnitude, that one is the nearest
    have hbounds := f.nearestRank_bounds q
    have htop : f.top ≤ q := (f.le_floorRank_iff hq).mp (by omega)
    have hle : f.magnitude rank ≤ f.top := f.magnitude_strictMono.monotone hrank
    rw [nearestMagnitude, min_eq_right hgt.le, ← top, abs_of_nonpos (by linarith),
      abs_of_nonpos (by linarith)]
    linarith

theorem magnitude_le_gap (rank : Nat) : f.magnitude (rank + 1) ≤ 2 * f.binade * f.gap rank := by
  obtain ⟨n, hn, -, hnext⟩ := f.exists_significand rank
  have hcast : (n + 1 : Rat) ≤ 2 * f.binade := by exact_mod_cast hn
  rw [hnext]
  exact mul_le_mul_of_nonneg_right hcast (f.gap_pos rank).le

/-- Different magnitudes are at least a unit in the last place apart. -/
theorem magnitude_le_abs_sub {m n : Nat} (h : m ≠ n) :
    f.magnitude n ≤ 2 * f.binade * |f.magnitude m - f.magnitude n| := by
  have hbinade : (0 : Rat) ≤ 2 * f.binade := by positivity
  rcases Nat.lt_or_gt_of_ne h with hlt | hgt
  · obtain ⟨k, rfl⟩ := Nat.exists_eq_add_of_lt hlt
    have hgap := f.magnitude_succ (m + k)
    have hmono := f.magnitude_strictMono.monotone (Nat.le_add_right m k)
    refine (f.magnitude_le_gap (m + k)).trans (mul_le_mul_of_nonneg_left ?_ hbinade)
    rw [abs_of_nonpos (by linarith [f.gap_pos (m + k)])]
    linarith
  · have hgap := f.magnitude_succ n
    have hmono := f.magnitude_strictMono.monotone (Nat.succ_le_of_lt hgt)
    rw [Nat.succ_eq_add_one] at hmono
    have hle := f.magnitude_le_gap n
    have hpos := f.gap_pos n
    refine (by linarith : f.magnitude n ≤ f.magnitude (n + 1)).trans
      (hle.trans (mul_le_mul_of_nonneg_left ?_ hbinade))
    rw [abs_of_nonneg (by linarith)]
    linarith

end Format

namespace Binary

variable {f : Format}

theorem abs_signed_sub_signed (b c : Bool) {p q : Rat} :
    |signed b p - signed c q| = if b = c then |p - q| else |p + q| := by
  have hsub : |-p + q| = |p - q| := by rw [neg_add_eq_sub, abs_sub_comm]
  have hadd : |-p - q| = |p + q| := by rw [← abs_neg, neg_sub, sub_neg_eq_add, add_comm]
  cases b <;> cases c <;> simp [signed, hsub, hadd]

/-- No number is nearer than the nearest one. -/
theorem abs_nearest_sub_le_abs (x : Binary f) (q : Rat) :
    |f.nearest q - q| ≤ |x.value - q| := by
  obtain ⟨negative, m, hm, rfl⟩ := Format.exists_signed q
  obtain ⟨negative', rank, hrank, hx⟩ := x.exists_rank_value
  rw [f.nearest_signed _ hm, hx, abs_signed_sub_signed, abs_signed_sub_signed, if_pos rfl]
  split
  · exact f.abs_nearestMagnitude_sub_le hm hrank
  · -- zero is nearer than a number of the other sign
    refine (f.abs_nearestMagnitude_sub_le hm (Nat.zero_le _)).trans ?_
    have hnonneg := f.magnitude_nonneg rank
    rw [f.magnitude_zero, zero_sub, abs_neg, abs_of_nonneg hm, abs_of_nonneg (by linarith)]
    linarith

/-- Numbers of different values are at least a unit in the last place apart. -/
theorem abs_value_le_abs_sub {x y : Binary f} (h : x.value ≠ y.value) :
    |y.value| ≤ 2 * f.binade * |x.value - y.value| := by
  obtain ⟨b, m, -, hx⟩ := x.exists_rank_value
  obtain ⟨c, n, -, hy⟩ := y.exists_rank_value
  have hm := f.magnitude_nonneg m
  have hn := f.magnitude_nonneg n
  rw [hx, hy, abs_signed, abs_signed_sub_signed, abs_of_nonneg hn]
  split
  · rename_i hsign
    refine f.magnitude_le_abs_sub ?_
    rintro rfl
    exact h (by rw [hx, hy, hsign])
  · have hbinade : (1 : Rat) ≤ 2 * f.binade := by
      have : 1 ≤ 2 * f.binade := by
        have := f.binade_pos
        omega
      exact_mod_cast this
    rw [abs_of_nonneg (by linarith)]
    calc f.magnitude n ≤ 1 * (f.magnitude m + f.magnitude n) := by linarith
      _ ≤ 2 * f.binade * (f.magnitude m + f.magnitude n) :=
          mul_le_mul_of_nonneg_right hbinade (by linarith)

/-- A term that is too small to reach halfway to the next number is lost. -/
theorem nearest_value_add (x : Binary f) {q : Rat} (h : 4 * f.binade * |q| < |x.value|) :
    f.nearest (x.value + q) = x.value := by
  by_contra hne
  have hvalue : (ofRat (x.value + q) : Binary f).value = f.nearest (x.value + q) := value_ofRat _
  have hapart := abs_value_le_abs_sub (x := ofRat (x.value + q)) (y := x) (by rwa [hvalue])
  have hnear := abs_nearest_sub_le_abs x (x.value + q)
  have htriangle := abs_sub_le (f.nearest (x.value + q)) (x.value + q) x.value
  rw [hvalue] at hapart
  rw [abs_sub_comm x.value, add_sub_cancel_left] at hnear
  rw [add_sub_cancel_left] at htriangle
  have hbinade : (0 : Rat) ≤ 2 * f.binade := by positivity
  have := mul_le_mul_of_nonneg_left (htriangle.trans (add_le_add_left hnear |q|)) hbinade
  linarith

/-- The nearest integer as a number, halves away from zero, the sign of a zero kept. -/
theorem signed_abs_roundHalfAway (x : Binary f) :
    signed x.isNegative |(roundHalfAway x.value : Rat)| = roundHalfAway x.value := by
  have hzero := roundHalfAway_intCast 0
  obtain ⟨m, hm, hx⟩ := x.value_eq_signed
  cases hnegative : x.isNegative with
  | false =>
      have hnonneg : 0 ≤ roundHalfAway x.value := by
        rw [← hzero]
        refine roundHalfAway_mono ?_
        rw [hx, hnegative]
        exact_mod_cast hm
      exact abs_of_nonneg (by exact_mod_cast hnonneg)
  | true =>
      have hnonpos : roundHalfAway x.value ≤ 0 := by
        rw [← hzero]
        refine roundHalfAway_mono ?_
        rw [hx, hnegative]
        exact_mod_cast neg_nonpos.mpr hm
      rw [signed, if_pos rfl, abs_of_nonpos (by exact_mod_cast hnonpos), neg_neg]

end Binary

/-! ## Numbers of 64 bits -/

theorem top_binary64 : Format.binary64.top = 2 ^ (1024 : Int) := Format.top_eq _ (by decide)

theorem two_zpow_lt_top_binary64 {e : Int} (he : e < 1024) :
    (2 : Rat) ^ e < Format.binary64.top := by
  rw [top_binary64]
  exact zpow_lt_zpow_right₀ (by norm_num) he

theorem two_pow_lt_top_binary64 : 2 ^ 52 < Format.binary64.top := by
  have h : (2 : Rat) ^ (52 : Int) < Format.binary64.top := two_zpow_lt_top_binary64 (by decide)
  exact_mod_cast h

theorem halfUnit_binary64_le : Format.binary64.halfUnit ≤ 1 / 16 := by
  have h : Format.binary64.halfUnit ≤ 2 ^ (-4 : Int) := two_zpow_le_of_le (by decide)
  norm_num at h
  exact h

theorem two_pow_mul_halfUnit_binary64 : 2 ^ 52 * Format.binary64.halfUnit = 1 / 2 := by
  have hunit : Format.binary64.halfUnit = 2 ^ (-53 : Int) := rfl
  rw [hunit]
  norm_num

theorem halfLeast_binary64_le : Format.binary64.halfLeast ≤ Format.binary64.halfUnit :=
  two_zpow_le_of_le (by decide)

theorem halfLeast_binary64_lt_one : Format.binary64.halfLeast < 1 := by
  linarith [halfLeast_binary64_le, halfUnit_binary64_le]

theorem halfLeast_binary64_mul_top :
    Format.binary64.halfLeast * Format.binary64.top = 4 * Format.binary64.halfUnit := by
  have hfour : (4 : Rat) = 2 ^ (2 : Int) := by norm_num
  rw [top_binary64, hfour, Format.halfLeast, Format.halfUnit, ← zpow_add₀ (by norm_num),
    ← zpow_add₀ (by norm_num)]
  rfl

theorem two_mul_binade_le_top_binary64 :
    2 * (Format.binary64.binade : Rat) ≤ Format.binary64.top := by
  calc 2 * (Format.binary64.binade : Rat) = 2 ^ (53 : Int) := by
        rw [Format.binade_eq]
        norm_num [Format.binary64]
    _ ≤ Format.binary64.top := (two_zpow_lt_top_binary64 (by decide)).le

namespace Binary

/-- A finite number within half a unit in the last place of a rational, or within half the smallest
spacing. -/
structure Near (x : Binary64) (q : Rat) : Prop where
  finite : x.isFinite = true
  error : |x.value - q| ≤ |q| * Format.binary64.halfUnit + Format.binary64.halfLeast

section Near

variable {x y : Binary64} {q : Rat}

/-- Away from overflow the nearest number is finite. -/
theorem near_of_value (hx : x.isNaN = false) (hvalue : x.value = Format.binary64.nearest q)
    (hq : 4 * |q| ≤ 3 * Format.binary64.top) : Near x q := by
  have hnonneg := abs_nonneg q
  have herror := Format.binary64.abs_nearest_sub_le_halfUnit (q := q) (by linarith)
  rw [← hvalue] at herror
  refine ⟨(abs_value_lt_top_iff hx).mp ?_, herror⟩
  have htop := two_pow_lt_top_binary64
  have hleast := halfLeast_binary64_lt_one
  have hunit := mul_le_mul_of_nonneg_left halfUnit_binary64_le hnonneg
  have hsum := abs_sub_abs_le_abs_sub x.value q
  linarith

namespace Near

theorem error_le (h : Near x q) : |x.value - q| ≤ |q| / 16 + 1 := by
  have hunit := mul_le_mul_of_nonneg_left halfUnit_binary64_le (abs_nonneg q)
  linarith [h.error, halfLeast_binary64_lt_one]

theorem abs_value_le (h : Near x q) : |x.value| ≤ 17 / 16 * |q| + 1 := by
  linarith [h.error_le, abs_sub_abs_le_abs_sub x.value q]

/-- In multiples of another number the smallest spacing is at most four units. -/
theorem mul (h : Near x q) (y : Binary64) :
    |x.value * y.value - q * y.value| ≤
      |q * y.value| * Format.binary64.halfUnit + 4 * Format.binary64.halfUnit := by
  have hlast := mul_le_mul_of_nonneg_left y.abs_value_le_top Format.binary64.halfLeast_pos.le
  rw [halfLeast_binary64_mul_top] at hlast
  have herror := mul_le_mul_of_nonneg_right h.error (abs_nonneg y.value)
  rw [← sub_mul, abs_mul, abs_mul]
  linarith

end Near

theorem near_add (hx : x.isFinite = true) (hy : y.isFinite = true)
    (h : 4 * |x.value + y.value| ≤ 3 * Format.binary64.top) : Near (x + y) (x.value + y.value) :=
  near_of_value ((isNaN_add hy).trans (isNaN_of_isFinite hx)) (value_add hx hy) h

theorem near_sub (hx : x.isFinite = true) (hy : y.isFinite = true)
    (h : 4 * |x.value - y.value| ≤ 3 * Format.binary64.top) : Near (x - y) (x.value - y.value) :=
  near_of_value ((isNaN_sub hy).trans (isNaN_of_isFinite hx)) (value_sub hx hy) h

theorem near_mul (hx : x.isFinite = true) (hy : y.isFinite = true) (hzero : y.isZero = false)
    (h : 4 * |x.value * y.value| ≤ 3 * Format.binary64.top) : Near (x * y) (x.value * y.value) :=
  near_of_value ((isNaN_mul hy hzero).trans (isNaN_of_isFinite hx)) (value_mul hx hy) h

theorem near_div (hx : x.isFinite = true) (hy : y.isFinite = true) (hzero : y.isZero = false)
    (h : 4 * |x.value / y.value| ≤ 3 * Format.binary64.top) : Near (x / y) (x.value / y.value) :=
  near_of_value ((isNaN_div hy hzero).trans (isNaN_of_isFinite hx)) (value_div hx hy hzero) h

end Near

end Binary

/-! ## Stored integers -/

namespace IntegerType

variable {t : IntegerType} {n : Int}

theorem abs_le_of_mem (h : t.least ≤ n ∧ n ≤ t.greatest) : |n| ≤ 2 ^ 32 := by
  have hlimits : -2 ^ 32 ≤ t.least ∧ t.greatest ≤ 2 ^ 32 := by
    rcases t with ⟨s, w⟩
    cases s <;> cases w <;> decide
  exact abs_le.mpr ⟨hlimits.1.trans h.1, h.2.trans hlimits.2⟩

theorem abs_lt_top_of_mem (h : t.least ≤ n ∧ n ≤ t.greatest) :
    |(n : Rat)| < Format.binary64.top := by
  calc |(n : Rat)| ≤ 2 ^ (32 : Int) := by exact_mod_cast abs_le_of_mem h
    _ < Format.binary64.top := two_zpow_lt_top_binary64 (by decide)

/-- Every integer that can be stored is a number. -/
theorem value_ofInt (h : t.least ≤ n ∧ n ≤ t.greatest) : (Binary.ofInt n : Binary64).value = n := by
  rw [Binary.ofInt, Binary.value_ofRat]
  refine Format.nearest_intCast _ (by decide) two_mul_binade_le_top_binary64 ?_
  exact (abs_le_of_mem h).trans (by decide)

theorem isFinite_ofInt (h : t.least ≤ n ∧ n ≤ t.greatest) :
    (Binary.ofInt n : Binary64).isFinite = true := by
  rw [← Binary.abs_value_lt_top_iff (Binary.isNaN_ofInt n), value_ofInt h]
  exact abs_lt_top_of_mem h

end IntegerType

end StructureLayout
