import Mathlib.Data.List.TakeWhile
import Mathlib.Logic.Function.Basic

/-!
# Numerals

A numeral is made of digits, one for each number, and it ends where something else than a digit
follows.
-/

namespace StructureLayout.Text

theorem toDigits_injective {m n : Nat} (h : Nat.toDigits 10 m = Nat.toDigits 10 n) : m = n := by
  rw [← Nat.ofDigitChars_ten_toDigits (n := m), h, Nat.ofDigitChars_ten_toDigits]

theorem toList_toString (n : Nat) : (toString n).toList = Nat.toDigits 10 n := by
  rw [Nat.toString_eq_ofList_toDigits, String.toList_ofList]

theorem toString_injective : Function.Injective (toString : Nat → String) := by
  intro m n h
  refine toDigits_injective ?_
  rw [← toList_toString, h, toList_toString]

theorem toDigits_takeWhile {n : Nat} {c : Char} (hc : c.isDigit = false) (rest : List Char) :
    (Nat.toDigits 10 n ++ c :: rest).takeWhile Char.isDigit = Nat.toDigits 10 n := by
  rw [List.takeWhile_append_of_pos
    fun d hd => Nat.isDigit_of_mem_toDigits (by decide) (by decide) hd,
    List.takeWhile_cons_of_neg (by simp [hc]), List.append_nil]

/-- A numeral ends where the digits end. -/
theorem numeral_of_append {m n : Nat} {a b : String}
    (h : toString m ++ "_" ++ a = toString n ++ "_" ++ b) : m = n := by
  have hchars (k : Nat) (c : String) :
      (toString k ++ "_" ++ c).toList = Nat.toDigits 10 k ++ '_' :: c.toList := by
    rw [String.toList_append, String.toList_append, toList_toString, List.append_assoc]
    rfl
  have hdigits : Char.isDigit '_' = false := by decide
  have hlist := congrArg String.toList h
  rw [hchars, hchars] at hlist
  have hprefix := congrArg (List.takeWhile Char.isDigit) hlist
  rw [toDigits_takeWhile hdigits, toDigits_takeWhile hdigits] at hprefix
  exact toDigits_injective hprefix

end StructureLayout.Text
