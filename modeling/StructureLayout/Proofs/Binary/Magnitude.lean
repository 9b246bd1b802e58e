import StructureLayout.Binary.Rounding
import Mathlib.Algebra.Order.Field.Power
import Mathlib.Algebra.Order.Ring.Rat
import Mathlib.Order.Monotone.Basic
import Mathlib.Tactic.FieldSimp
import Mathlib.Tactic.Linarith
import Mathlib.Tactic.Positivity
import Mathlib.Tactic.Ring

/-!
# Magnitudes

The ranks of a format list its magnitudes in increasing order, a power of two apart.  The rank
found for a rational is that of the largest magnitude at or below it, and the nearest magnitude
is at most half the spacing away.
-/

namespace StructureLayout

/-! ## Powers of two -/

theorem two_zpow_le_of_le {e e' : Int} (h : e ≤ e') : (2 : Rat) ^ e ≤ 2 ^ e' :=
  zpow_le_zpow_right₀ (by norm_num) h

theorem two_zpow_pos (e : Int) : (0 : Rat) < 2 ^ e := zpow_pos (by norm_num) e

theorem two_zpow_succ (e : Int) : (2 : Rat) ^ (e + 1) = 2 * 2 ^ e := by
  rw [zpow_add_one₀ (by norm_num), mul_comm]

theorem two_zpow_sub (e e' : Int) : (2 : Rat) ^ (e - e') = 2 ^ e / 2 ^ e' :=
  zpow_sub₀ (by norm_num) e e'

theorem two_zpow_log2_nat {n : Nat} (hn : 0 < n) :
    (2 : Rat) ^ (n.log2 : Int) ≤ n ∧ (n : Rat) < 2 ^ ((n.log2 : Int) + 1) := by
  constructor
  · rw [zpow_natCast]
    exact_mod_cast Nat.log2_self_le hn.ne'
  · have h := Nat.lt_log2_self (n := n)
    exact_mod_cast h

theorem num_toNat_div_den {q : Rat} (hq : 0 < q) : (q.num.toNat : Rat) / q.den = q := by
  have hnum := Rat.num_pos.mpr hq
  have hcast : ((q.num.toNat : Nat) : Rat) = (q.num : Rat) := by
    exact_mod_cast Int.toNat_of_nonneg (by omega)
  rw [hcast, Rat.num_div_den]

/-- A quotient lies between the powers of two next to the quotient of the leading powers. -/
theorem two_zpow_log2_bounds {q : Rat} (hq : 0 < q) :
    (2 : Rat) ^ ((q.num.toNat.log2 : Int) - q.den.log2 - 1) ≤ q ∧
      q < 2 ^ ((q.num.toNat.log2 : Int) - q.den.log2 + 1) := by
  have hnum : 0 < q.num.toNat := by
    have := Rat.num_pos.mpr hq
    omega
  obtain ⟨hnumLow, hnumHigh⟩ := two_zpow_log2_nat hnum
  obtain ⟨hdenLow, hdenHigh⟩ := two_zpow_log2_nat q.den_pos
  have hden : (0 : Rat) < q.den := by exact_mod_cast q.den_pos
  have hvalue := num_toNat_div_den hq
  constructor
  · calc (2 : Rat) ^ ((q.num.toNat.log2 : Int) - q.den.log2 - 1)
        = 2 ^ (q.num.toNat.log2 : Int) / 2 ^ ((q.den.log2 : Int) + 1) := by
          rw [← two_zpow_sub]
          congr 1
          ring
      _ ≤ (q.num.toNat : Rat) / q.den :=
          div_le_div₀ (by positivity) hnumLow hden hdenHigh.le
      _ = q := hvalue
  · calc q = (q.num.toNat : Rat) / q.den := hvalue.symm
      _ < 2 ^ ((q.num.toNat.log2 : Int) + 1) / 2 ^ (q.den.log2 : Int) :=
          div_lt_div₀ hnumHigh hdenLow (by positivity) (two_zpow_pos _)
      _ = 2 ^ ((q.num.toNat.log2 : Int) - q.den.log2 + 1) := by
          rw [← two_zpow_sub]
          congr 1
          ring

theorem two_zpow_floorLog2_le {q : Rat} (hq : 0 < q) : (2 : Rat) ^ floorLog2 q ≤ q := by
  unfold floorLog2
  dsimp only
  split
  · assumption
  · exact (two_zpow_log2_bounds hq).1

theorem lt_two_zpow_floorLog2 {q : Rat} (hq : 0 < q) : q < (2 : Rat) ^ (floorLog2 q + 1) := by
  unfold floorLog2
  dsimp only
  split
  · exact (two_zpow_log2_bounds hq).2
  · rename_i h
    rw [sub_add_cancel]
    exact not_le.mp h

namespace Format

variable (f : Format)

/-! ## The list of magnitudes -/

/-- How many powers of two above the smallest spacing the spacing after a rank is. -/
def level (rank : Nat) : Nat := rank / f.binade - 1

/-- The distance from a magnitude to the next one. -/
def gap (rank : Nat) : Rat := 2 ^ (f.minExponent + f.level rank)

theorem gap_pos (rank : Nat) : 0 < f.gap rank := two_zpow_pos _

theorem binade_eq : f.binade = 2 ^ f.fractionBits := by
  rw [binade, Nat.shiftLeft_eq, Nat.one_mul]

/-- A rank is a significand of at most twice a binade on a level; below one binade only the
lowest level is left. -/
theorem magnitude_of_level {level n : Nat} (hn : n ≤ 2 * f.binade)
    (hlevel : level = 0 ∨ f.binade ≤ n) :
    f.magnitude (level * f.binade + n) = n * 2 ^ (f.minExponent + level) := by
  have hpos := f.binade_pos
  rw [magnitude]
  rcases Nat.lt_or_ge n f.binade with hlt | hge
  · obtain rfl : level = 0 := by omega
    rw [Nat.zero_mul, Nat.zero_add, if_pos hlt]
    simp
  · rw [if_neg (by nlinarith)]
    rcases Nat.lt_or_ge n (2 * f.binade) with hlt | hge'
    · -- the rank is in the binade of its level
      obtain ⟨k, rfl⟩ := Nat.exists_eq_add_of_le hge
      have hk : k < f.binade := by omega
      have hrank : level * f.binade + (f.binade + k) = k + (level + 1) * f.binade := by ring
      rw [hrank, Nat.add_mul_mod_self_right, Nat.add_mul_div_right _ _ hpos,
        Nat.mod_eq_of_lt hk, Nat.div_eq_of_lt hk]
      congr 2
      push_cast
      ring
    · -- it is the first one of the next binade
      obtain rfl : n = 2 * f.binade := by omega
      have hrank : level * f.binade + 2 * f.binade = 0 + (level + 2) * f.binade := by ring
      rw [hrank, Nat.add_mul_mod_self_right, Nat.add_mul_div_right _ _ hpos, Nat.zero_mod,
        Nat.zero_div]
      have hexponent : f.minExponent + ((0 + (level + 2) : Nat) : Int) - 1 =
          f.minExponent + level + 1 := by
        push_cast
        ring
      rw [hexponent, two_zpow_succ]
      push_cast
      ring

theorem level_of_lt {level n : Nat} (hn : n < 2 * f.binade) (hlevel : level = 0 ∨ f.binade ≤ n) :
    f.level (level * f.binade + n) = level := by
  have hpos := f.binade_pos
  rw [Format.level]
  rcases Nat.lt_or_ge n f.binade with hlt | hge
  · obtain rfl : level = 0 := by omega
    rw [Nat.zero_mul, Nat.zero_add, Nat.div_eq_of_lt hlt]
  · obtain ⟨k, rfl⟩ := Nat.exists_eq_add_of_le hge
    have hk : k < f.binade := by omega
    have hrank : level * f.binade + (f.binade + k) = k + (level + 1) * f.binade := by ring
    rw [hrank, Nat.add_mul_div_right _ _ hpos, Nat.div_eq_of_lt hk]
    omega

theorem exists_level (rank : Nat) :
    ∃ n, rank = f.level rank * f.binade + n ∧ n < 2 * f.binade ∧
      (f.level rank = 0 ∨ f.binade ≤ n) := by
  have hpos := f.binade_pos
  have hdiv := Nat.div_add_mod' rank f.binade
  have hmod := Nat.mod_lt rank hpos
  rw [level]
  rcases Nat.eq_zero_or_pos (rank / f.binade) with hzero | hone
  · refine ⟨rank, ?_, ?_, Or.inl ?_⟩
    · simp [hzero]
    · rw [hzero] at hdiv
      omega
    · simp [hzero]
  · obtain ⟨k, hk⟩ := Nat.exists_eq_add_of_le' hone
    refine ⟨f.binade + rank % f.binade, ?_, by omega, Or.inr (Nat.le_add_right _ _)⟩
    rw [hk, Nat.add_sub_cancel]
    rw [hk] at hdiv
    nlinarith

/-- A magnitude is a significand of steps as wide as the gap behind it. -/
theorem exists_significand (rank : Nat) :
    ∃ n, n < 2 * f.binade ∧ f.magnitude rank = n * f.gap rank ∧
      f.magnitude (rank + 1) = (n + 1) * f.gap rank := by
  obtain ⟨n, hrank, hn, hlevel⟩ := f.exists_level rank
  have hnext : rank + 1 = f.level rank * f.binade + (n + 1) := by omega
  refine ⟨n, hn, ?_, ?_⟩
  · conv_lhs => rw [hrank]
    exact f.magnitude_of_level hn.le hlevel
  · rw [hnext, f.magnitude_of_level (by omega) (by omega), gap]
    push_cast
    rfl

theorem magnitude_succ (rank : Nat) :
    f.magnitude (rank + 1) = f.magnitude rank + f.gap rank := by
  obtain ⟨n, -, hrank, hnext⟩ := f.exists_significand rank
  rw [hnext, hrank]
  ring

theorem magnitude_strictMono : StrictMono f.magnitude :=
  strictMono_nat_of_lt_succ fun rank => by
    rw [magnitude_succ]
    exact lt_add_of_pos_right _ (f.gap_pos rank)

@[simp] theorem magnitude_zero : f.magnitude 0 = 0 := by
  rw [magnitude, if_pos f.binade_pos]
  simp

theorem magnitude_nonneg (rank : Nat) : 0 ≤ f.magnitude rank := by
  rw [← f.magnitude_zero]
  exact f.magnitude_strictMono.monotone (Nat.zero_le rank)

/-! ## The magnitude below a rational -/

/-- Twice a binade of steps reaches beyond the rational. -/
theorem lt_two_mul_binade {q : Rat} (hq : 0 < q) : q < 2 * f.binade * 2 ^ f.spacing q := by
  have hlog : floorLog2 q - f.fractionBits ≤ f.spacing q := le_max_right _ _
  calc q < 2 ^ (floorLog2 q + 1) := lt_two_zpow_floorLog2 hq
    _ ≤ 2 ^ (f.spacing q + f.fractionBits + 1) := two_zpow_le_of_le (by omega)
    _ = 2 * f.binade * 2 ^ f.spacing q := by
        rw [two_zpow_succ, zpow_add₀ (by norm_num), zpow_natCast, f.binade_eq]
        push_cast
        ring

/-- Above the smallest spacing a binade of steps stays below the rational. -/
theorem binade_mul_le {q : Rat} (hq : 0 < q) (h : f.minExponent < f.spacing q) :
    (f.binade : Rat) * 2 ^ f.spacing q ≤ q := by
  have hnormal : f.spacing q = floorLog2 q - f.fractionBits := by
    rcases max_choice f.minExponent (floorLog2 q - f.fractionBits) with hmin | hlog
    · rw [spacing, hmin] at h
      exact absurd h (lt_irrefl _)
    · exact hlog
  refine le_trans (le_of_eq ?_) (two_zpow_floorLog2_le hq)
  rw [f.binade_eq, Nat.cast_pow, Nat.cast_ofNat, ← zpow_natCast, ← zpow_add₀ (by norm_num)]
  congr 1
  omega

/-- The whole steps in a positive rational. -/
theorem exists_floor_div {q : Rat} (hq : 0 < q) (e : Int) :
    ∃ n : Nat, (q / 2 ^ e).floor = n ∧ (n : Rat) * 2 ^ e ≤ q ∧ q < (n + 1) * 2 ^ e := by
  have hpow := two_zpow_pos e
  have hfloor : 0 ≤ (q / 2 ^ e).floor :=
    Rat.le_floor_iff.mpr (by exact_mod_cast (div_pos hq hpow).le)
  obtain ⟨n, hn⟩ := Int.eq_ofNat_of_zero_le hfloor
  have hbelow := Rat.floor_le (q / 2 ^ e)
  have habove := Rat.lt_floor_add_one (q / 2 ^ e)
  rw [hn] at hbelow habove
  refine ⟨n, hn, ?_, ?_⟩
  · rw [← le_div_iff₀ hpow]
    exact_mod_cast hbelow
  · rw [← div_lt_iff₀ hpow]
    exact_mod_cast habove

/-- The spacing around a rational splits it as a rank is split. -/
theorem floorRank_eq {q : Rat} (hq : 0 < q) :
    ∃ level n : Nat, f.spacing q = f.minExponent + level ∧
      f.floorRank q = level * f.binade + n ∧ n < 2 * f.binade ∧ (level = 0 ∨ f.binade ≤ n) ∧
      (n : Rat) * 2 ^ f.spacing q ≤ q ∧ q < (n + 1) * 2 ^ f.spacing q := by
  have hlow : f.minExponent ≤ f.spacing q := le_max_left _ _
  have hpow := two_zpow_pos (f.spacing q)
  obtain ⟨level, hlevel⟩ := Int.eq_ofNat_of_zero_le (sub_nonneg.mpr hlow)
  obtain ⟨n, hn, hbelow, habove⟩ := exists_floor_div hq (f.spacing q)
  refine ⟨level, n, by omega, ?_, ?_, ?_, hbelow, habove⟩
  · rw [floorRank, if_neg (not_le.mpr hq)]
    dsimp only
    rw [hlevel, hn]
    rfl
  · have hlt := lt_of_mul_lt_mul_right (hbelow.trans_lt (f.lt_two_mul_binade hq)) hpow.le
    exact_mod_cast hlt
  · rcases Nat.eq_zero_or_pos level with hzero | hpos
    · exact Or.inl hzero
    · have hle := (f.binade_mul_le hq (by omega)).trans_lt habove
      have hlt : (f.binade : Rat) < n + 1 := lt_of_mul_lt_mul_right hle hpow.le
      have hlt' : f.binade < n + 1 := by exact_mod_cast hlt
      omega

theorem gap_floorRank {q : Rat} (hq : 0 < q) : f.gap (f.floorRank q) = 2 ^ f.spacing q := by
  obtain ⟨level, n, hspacing, hrank, hn, hlevel, -⟩ := f.floorRank_eq hq
  rw [gap, hrank, f.level_of_lt hn hlevel, hspacing]

theorem magnitude_floorRank_le {q : Rat} (hq : 0 ≤ q) : f.magnitude (f.floorRank q) ≤ q := by
  rcases hq.eq_or_lt with rfl | hpos
  · simp [floorRank]
  · obtain ⟨level, n, hspacing, hrank, hn, hlevel, hbelow, -⟩ := f.floorRank_eq hpos
    rw [hrank, f.magnitude_of_level hn.le hlevel, ← hspacing]
    exact hbelow

theorem lt_magnitude_floorRank_succ {q : Rat} (hq : 0 ≤ q) :
    q < f.magnitude (f.floorRank q + 1) := by
  rcases hq.eq_or_lt with rfl | hpos
  · rw [floorRank, if_pos le_rfl, magnitude_succ, magnitude_zero, zero_add]
    exact f.gap_pos 0
  · obtain ⟨level, n, hspacing, hrank, hn, hlevel, -, habove⟩ := f.floorRank_eq hpos
    rw [hrank, Nat.add_assoc, f.magnitude_of_level (by omega) (by omega), ← hspacing]
    push_cast
    exact habove

theorem le_floorRank_iff {q : Rat} (hq : 0 ≤ q) {rank : Nat} :
    rank ≤ f.floorRank q ↔ f.magnitude rank ≤ q := by
  constructor
  · intro h
    exact (f.magnitude_strictMono.monotone h).trans (f.magnitude_floorRank_le hq)
  · intro h
    have hlt := h.trans_lt (f.lt_magnitude_floorRank_succ hq)
    exact Nat.le_of_lt_succ (f.magnitude_strictMono.lt_iff_lt.mp hlt)

theorem floorRank_mono {p q : Rat} (hp : 0 ≤ p) (h : p ≤ q) : f.floorRank p ≤ f.floorRank q :=
  (f.le_floorRank_iff (hp.trans h)).mpr ((f.magnitude_floorRank_le hp).trans h)

@[simp] theorem floorRank_magnitude (rank : Nat) : f.floorRank (f.magnitude rank) = rank := by
  have hnonneg := f.magnitude_nonneg rank
  refine le_antisymm ?_ ((f.le_floorRank_iff hnonneg).mpr le_rfl)
  exact f.magnitude_strictMono.le_iff_le.mp (f.magnitude_floorRank_le hnonneg)

/-! ## The nearest magnitude -/

@[simp] theorem nearestRank_magnitude (rank : Nat) :
    f.nearestRank (f.magnitude rank) = rank := by
  rw [nearestRank]
  rw [floorRank_magnitude, sub_self, if_pos]
  left
  rw [magnitude_succ, add_sub_cancel_left]
  exact f.gap_pos rank

theorem nearestRank_bounds (q : Rat) :
    f.floorRank q ≤ f.nearestRank q ∧ f.nearestRank q ≤ f.floorRank q + 1 := by
  rw [nearestRank]
  split <;> omega

theorem nearestRank_mono {p q : Rat} (hp : 0 ≤ p) (h : p ≤ q) :
    f.nearestRank p ≤ f.nearestRank q := by
  rcases (f.floorRank_mono hp h).eq_or_lt with heq | hlt
  · -- between the same magnitudes the lower one is only left once
    rw [nearestRank, nearestRank]
    rw [heq]
    split
    · split <;> omega
    · rename_i hup
      rw [if_neg]
      rintro (hlow | ⟨htie, heven⟩)
      · exact hup (Or.inl (by linarith))
      · rcases h.eq_or_lt with rfl | hpq
        · exact hup (Or.inr ⟨htie, heven⟩)
        · exact hup (Or.inl (by linarith))
  · have hup := (f.nearestRank_bounds p).2
    have hlow := (f.nearestRank_bounds q).1
    omega

/-- The nearest magnitude is at most half the spacing away. -/
theorem abs_magnitude_nearestRank_sub_le {q : Rat} (hq : 0 ≤ q) :
    2 * |f.magnitude (f.nearestRank q) - q| ≤ f.gap (f.floorRank q) := by
  have hbelow := f.magnitude_floorRank_le hq
  have habove := f.lt_magnitude_floorRank_succ hq
  have hgap := f.magnitude_succ (f.floorRank q)
  rw [nearestRank]
  split
  · rename_i h
    rw [abs_of_nonpos (by linarith)]
    rcases h with h | ⟨h, -⟩ <;> linarith
  · rename_i h
    rw [abs_of_nonneg (by linarith)]
    have hfar : f.magnitude (f.floorRank q + 1) - q ≤ q - f.magnitude (f.floorRank q) :=
      not_lt.mp fun hlt => h (Or.inl hlt)
    linarith

end Format

end StructureLayout
