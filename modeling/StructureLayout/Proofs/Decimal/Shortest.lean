import StructureLayout.Decimal.Shortest
import StructureLayout.Proofs.Decimal.Reading
import StructureLayout.Proofs.Text.Character

/-!
# Shortest decimals

Whatever grid is found first, the decimal taken from it is rounded back to the magnitude, and
where none is found the exact decimal is.  The text of a number is therefore read as that number,
with the sign of zero, infinity and not-a-number.
-/

namespace StructureLayout

namespace Format

variable (f : Format)

theorem nearestRank_of_shortestOnGrid {rank : Nat} {exponent : Int} {d : Decimal}
    (h : f.shortestOnGrid rank exponent = some d) : f.nearestRank d.value = rank := by
  unfold shortestOnGrid at h
  dsimp only at h
  split at h
  · rename_i hbelow
    obtain rfl := Option.some.inj h
    exact beq_iff_eq.mp (Bool.and_eq_true_iff.mp hbelow).1
  · split at h
    · rename_i habove
      obtain rfl := Option.some.inj h
      exact beq_iff_eq.mp habove
    · cases h

/-- A magnitude is a whole number of the steps that ten to the least exponent makes. -/
theorem value_exactDecimal (hmin : f.minExponent ≤ 0) (rank : Nat) :
    (f.exactDecimal rank).value = f.magnitude rank := by
  obtain ⟨n, -, hmagnitude, -⟩ := f.exists_significand rank
  obtain ⟨m, hm⟩ := Int.exists_eq_neg_ofNat hmin
  have hsteps : f.magnitude rank / 10 ^ f.minExponent =
      ((n * 2 ^ f.level rank * 5 ^ m : Nat) : Rat) := by
    have hten : (10 : Rat) ^ m = 2 ^ m * 5 ^ m := by
      rw [← mul_pow]
      norm_num
    rw [hmagnitude, gap, hm, zpow_add₀ (by norm_num), zpow_neg, zpow_neg, zpow_natCast,
      zpow_natCast, zpow_natCast, div_inv_eq_mul, hten]
    push_cast
    field_simp
  have hfloor (k : Nat) : ((k : Rat)).floor = k := by exact_mod_cast Rat.floor_intCast (k : Int)
  rw [exactDecimal, hsteps, hfloor, Int.toNat_natCast, Decimal.value, ← hsteps]
  exact div_mul_cancel₀ _ (ten_zpow_pos _).ne'

/-- The shortest decimal is rounded back to the magnitude that it is written for. -/
theorem nearestRank_shortest (hmin : f.minExponent ≤ 0) (rank : Nat) :
    f.nearestRank (f.shortest rank).value = rank := by
  rw [shortest]
  split
  · rename_i hzero
    have hvalue : (⟨0, 0⟩ : Decimal).value = f.magnitude rank := by
      rw [hzero, f.magnitude_zero, Decimal.value, Nat.cast_zero, zero_mul]
    rw [hvalue, f.nearestRank_magnitude]
  · dsimp only
    cases hfound : (List.range (f.fractionBits + 3)).findSome? fun (i : Nat) =>
        f.shortestOnGrid rank (coarsestExponent (f.magnitude rank) - i) with
    | none =>
        rw [Option.getD_none, f.value_exactDecimal hmin, f.nearestRank_magnitude]
    | some d =>
        obtain ⟨i, -, hgrid⟩ := List.exists_of_findSome?_eq_some hfound
        exact f.nearestRank_of_shortestOnGrid hgrid

end Format

namespace Binary

variable {f : Format}

/-! ## Texts of numbers -/

theorem splitSign_of_digit {c : Char} {cs : List Char} (hc : c.isDigit = true) :
    Numeral.splitSign (c :: cs) = (false, c :: cs) := by
  unfold Numeral.splitSign
  split
  · rename_i heq
    obtain rfl := (List.cons.inj heq).1
    exact absurd hc (by decide)
  · rename_i heq
    obtain rfl := (List.cons.inj heq).1
    exact absurd hc (by decide)
  · rfl

/-- What starts with a digit is none of the words. -/
theorem ofList_map_toLower_ne {c : Char} (cs : List Char) (hc : c.isDigit = true) {d : Char}
    (hd : d.isAlpha = true) (ds : List Char) :
    String.ofList ((c :: cs).map Char.toLower) ≠ String.ofList (d :: ds) := by
  intro heq
  have hhead : c.toLower = d := (List.cons.inj (String.ofList_injective heq)).1
  rw [← hhead, Text.toLower_of_isDigit hc, Text.isAlpha_of_isDigit hc] at hd
  cases hd

theorem read?_of_digit {cs rest : List Char} {c : Char} {negative : Bool}
    (hsplit : Numeral.splitSign cs = (negative, c :: rest)) (hc : c.isDigit = true) :
    (read? cs : Option (Binary f)) =
      (Numeral.decimal? (c :: rest)).map (ofDecimal negative) := by
  have hword (word : String) (hletter : ∃ d ds, d.isAlpha = true ∧ word = String.ofList (d :: ds)) :
      String.ofList ((c :: rest).map Char.toLower) ≠ word := by
    obtain ⟨d, ds, hd, rfl⟩ := hletter
    exact ofList_map_toLower_ne rest hc hd ds
  have hnan := hword "nan" ⟨'n', ['a', 'n'], rfl, rfl⟩
  have hinf := hword "inf" ⟨'i', ['n', 'f'], rfl, rfl⟩
  have hinfinity := hword "infinity" ⟨'i', ['n', 'f', 'i', 'n', 'i', 't', 'y'], rfl, rfl⟩
  rw [read?, hsplit]
  dsimp only
  rw [if_neg hnan, if_neg (not_or.mpr ⟨hinf, hinfinity⟩)]

/-- A sign in front of the text of a decimal is the sign of the number read. -/
theorem read?_positional (hmin : f.minExponent ≤ 0) (hexponent : 0 < f.exponentBits)
    (negative : Bool) (d : Decimal) :
    read? ((if negative then ['-'] else []) ++ d.positional) =
      some (round negative d.value : Binary f) := by
  obtain ⟨e, hdecimal, hvalue⟩ := d.decimal?_positional
  obtain ⟨c, rest, htext, hc⟩ : ∃ c rest, d.positional = c :: rest ∧ c.isDigit = true := by
    obtain ⟨whole, fraction, hne, hwhole, -, htext, -⟩ := d.positional_cases
    obtain ⟨c, rest, rfl⟩ := List.exists_cons_of_ne_nil hne
    rcases htext with ⟨htext, -⟩ | htext
    · exact ⟨c, rest, htext, hwhole c List.mem_cons_self⟩
    · exact ⟨c, _, htext, hwhole c List.mem_cons_self⟩
  have hsplit : Numeral.splitSign ((if negative then ['-'] else []) ++ d.positional) =
      (negative, c :: rest) := by
    rw [htext]
    cases negative with
    | true => rfl
    | false => exact splitSign_of_digit hc
  rw [read?_of_digit hsplit hc, ← htext, hdecimal, Option.map_some,
    ofDecimal_eq_round hmin hexponent, hvalue]

/-- The text of a number is read as that number. -/
theorem read?_text (hmin : f.minExponent ≤ 0) (hexponent : 0 < f.exponentBits) (x : Binary f) :
    read? x.text.toList = some x := by
  cases x with
  | nan =>
      rw [text]
      rfl
  | number negative rank =>
      by_cases hrank : rank = Fin.last f.infinityRank
      · subst hrank
        rw [text]
        simp only [if_true]
        cases negative <;> rfl
      · have htext : (number negative rank : Binary f).text.toList =
            (if negative then ['-'] else []) ++ (f.shortest rank).positional := by
          rw [text]
          simp only [if_neg hrank]
          cases negative
          · exact String.toList_ofList
          · exact (String.toList_append).trans (congrArg _ String.toList_ofList)
        have hnearest : min (f.nearestRank (f.shortest rank).value) f.infinityRank = rank := by
          rw [f.nearestRank_shortest hmin]
          exact min_eq_left (Nat.le_of_lt_succ rank.isLt)
        rw [htext, read?_positional hmin hexponent, round]
        exact congrArg (fun r => some (number negative r)) (Fin.ext hnearest)

end Binary

end StructureLayout
