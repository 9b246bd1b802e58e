import StructureLayout.Proofs.Binary.Accuracy

/-!
# Conversions

A format that has the significands and the range of another one has all of its numbers.  A number
that is converted to such a format and back is the same number, with its sign and with infinity
and not-a-number, and so is a stored integer that is converted to a number and back.
-/

namespace StructureLayout

namespace Format

/-- The significands, the smallest spacing and the range are no wider. -/
structure Within (g f : Format) : Prop where
  fractionBits : g.fractionBits ≤ f.fractionBits
  minExponent : f.minExponent ≤ g.minExponent
  top : g.top ≤ f.top

theorem binary32_within : binary32.Within binary64 where
  fractionBits := by decide
  minExponent := by decide
  top := by
    rw [top_eq _ (by decide), top_eq _ (by decide)]
    exact two_zpow_le_of_le (by decide)

variable {f g : Format}

theorem Within.binade_le (h : g.Within f) : g.binade ≤ f.binade := by
  rw [binade_eq, binade_eq]
  exact Nat.pow_le_pow_right (by decide) h.fractionBits

theorem Within.exists_magnitude (h : g.Within f) (rank : Nat) :
    ∃ m, f.magnitude m = g.magnitude rank := by
  obtain ⟨n, hn, hrank, -⟩ := g.exists_significand rank
  have hlow := h.minExponent
  obtain ⟨level, hlevel⟩ := Int.eq_ofNat_of_zero_le
    (show 0 ≤ g.minExponent + g.level rank - f.minExponent by omega)
  obtain ⟨m, hm⟩ := f.exists_rank (hn.le.trans (Nat.mul_le_mul_left 2 h.binade_le)) level
  refine ⟨m, hm.trans ?_⟩
  rw [hrank, gap]
  congr 2
  omega

/-- The finite magnitudes are finite ones of the other format. -/
theorem Within.exists_finite_magnitude (h : g.Within f) {rank : Nat}
    (hrank : rank < g.infinityRank) :
    ∃ m, m < f.infinityRank ∧ f.magnitude m = g.magnitude rank := by
  obtain ⟨m, hm⟩ := h.exists_magnitude rank
  refine ⟨m, f.magnitude_strictMono.lt_iff_lt.mp ?_, hm⟩
  rw [hm]
  exact (g.magnitude_strictMono hrank).trans_le h.top

end Format

namespace Binary

variable {f g : Format}

/-- A magnitude of the format is rounded to itself. -/
theorem round_magnitude (negative : Bool) (rank : Fin (f.infinityRank + 1)) :
    (round negative (f.magnitude rank) : Binary f) = number negative rank := by
  have hrank : min (f.nearestRank (f.magnitude rank)) f.infinityRank = rank := by
    rw [f.nearestRank_magnitude]
    exact min_eq_left (Nat.le_of_lt_succ rank.isLt)
  exact congrArg (number negative) (Fin.ext hrank)

theorem convert_convert (h : g.Within f) (x : Binary g) :
    ((x.convert : Binary f).convert : Binary g) = x := by
  cases x with
  | nan => rfl
  | number negative rank =>
      by_cases hrank : rank = Fin.last g.infinityRank
      · subst hrank
        rw [convert, if_pos rfl, infinity, convert, if_pos rfl]
        rfl
      · have hlt : (rank : Nat) < g.infinityRank := by
          have hlast := Fin.val_ne_of_ne hrank
          rw [Fin.val_last] at hlast
          omega
        obtain ⟨m, hm, hmagnitude⟩ := h.exists_finite_magnitude hlt
        have hwide : (round negative (g.magnitude rank) : Binary f) =
            number negative ⟨m, Nat.lt_succ_of_lt hm⟩ := by
          rw [← hmagnitude]
          exact round_magnitude negative ⟨m, Nat.lt_succ_of_lt hm⟩
        have hfinite : (⟨m, Nat.lt_succ_of_lt hm⟩ : Fin (f.infinityRank + 1)) ≠
            Fin.last f.infinityRank := fun heq => hm.ne (congrArg Fin.val heq)
        rw [convert, if_neg hrank, hwide, convert, if_neg hfinite]
        exact (congrArg (round negative) hmagnitude).trans (round_magnitude negative rank)

theorem isNaN_convert (x : Binary g) : (x.convert : Binary f).isNaN = x.isNaN := by
  cases x with
  | nan => rfl
  | number negative rank =>
      rw [convert]
      split <;> rfl

end Binary

namespace IntegerType

variable {t : IntegerType} {n : Int}

theorem toIntClamped_ofInt (h : t.least ≤ n ∧ n ≤ t.greatest) :
    (Binary.ofInt n : Binary64).toIntClamped t.least t.greatest = n := by
  rw [Binary.toIntClamped_of_isFinite (isFinite_ofInt h), value_ofInt h, roundHalfAway_intCast]
  exact clampInt_of_mem h.1 h.2

end IntegerType

end StructureLayout
