import StructureLayout.Text.Blank
import Mathlib.Data.List.TakeWhile

/-!
# Trimming

Trimming takes characters of a class away at both ends and nothing else.  A character outside the
class is a pivot: what stands in front of it and what stands behind it are trimmed apart.
-/

namespace StructureLayout.Text

variable {p : Char → Bool} {c : Char} {front back cs : List Char}

/-! ## One end -/

theorem exists_dropWhile (p : Char → Bool) (cs : List Char) :
    ∃ front, (∀ c ∈ front, p c = true) ∧ cs = front ++ cs.dropWhile p :=
  ⟨cs.takeWhile p, fun _ hc => List.mem_takeWhile_imp hc, List.takeWhile_append_dropWhile.symm⟩

theorem dropWhile_of_forall (h : ∀ c ∈ cs, p c = true) : cs.dropWhile p = [] :=
  List.dropWhile_eq_nil_iff.mpr h

theorem dropWhile_pivot (hc : p c = false) (front back : List Char) :
    (front ++ c :: back).dropWhile p = front.dropWhile p ++ c :: back := by
  have hpivot : (c :: back).dropWhile p = c :: back :=
    List.dropWhile_cons_of_neg (Bool.eq_false_iff.mp hc)
  rw [List.dropWhile_append]
  split
  · rename_i hempty
    rw [hpivot, List.isEmpty_iff.mp hempty, List.nil_append]
  · rfl

theorem exists_dropTail (p : Char → Bool) (cs : List Char) :
    ∃ back, (∀ c ∈ back, p c = true) ∧ cs = dropTail p cs ++ back := by
  obtain ⟨front, hfront, hcs⟩ := exists_dropWhile p cs.reverse
  refine ⟨front.reverse, fun c hc => hfront c (List.mem_reverse.mp hc), ?_⟩
  rw [dropTail, ← List.reverse_append, ← hcs, List.reverse_reverse]

theorem dropTail_append (h : ∀ c ∈ back, p c = true) (cs : List Char) :
    dropTail p (cs ++ back) = dropTail p cs := by
  rw [dropTail, List.reverse_append,
    List.dropWhile_append_of_pos fun c hc => h c (List.mem_reverse.mp hc), dropTail]

theorem dropTail_pivot (hc : p c = false) (front back : List Char) :
    dropTail p (front ++ c :: back) = front ++ c :: dropTail p back := by
  have hsplit : (front ++ c :: back).reverse = back.reverse ++ c :: front.reverse := by simp
  rw [dropTail, hsplit, dropWhile_pivot hc, dropTail]
  simp

/-- The second text is the first without some characters of the class in front. -/
def Drops (p : Char → Bool) (cs ds : List Char) : Prop :=
  ∃ dropped, (∀ c ∈ dropped, p c = true) ∧ cs = dropped ++ ds

theorem Drops.trans {cs ds es : List Char} (h : Drops p cs ds) (h' : Drops p ds es) :
    Drops p cs es := by
  obtain ⟨front, hfront, rfl⟩ := h
  obtain ⟨back, hback, rfl⟩ := h'
  exact ⟨front ++ back, List.forall_mem_append.mpr ⟨hfront, hback⟩, (List.append_assoc ..).symm⟩

theorem drops_dropWhile {q : Char → Bool} (h : ∀ c, q c = true → p c = true) (cs : List Char) :
    Drops p cs (cs.dropWhile q) := by
  obtain ⟨front, hfront, hcs⟩ := exists_dropWhile q cs
  exact ⟨front, fun c hc => h c (hfront c hc), hcs⟩

/-! ## Both ends -/

theorem exists_trimWith (p : Char → Bool) (cs : List Char) :
    ∃ front back, (∀ c ∈ front, p c = true) ∧ (∀ c ∈ back, p c = true) ∧
      cs = front ++ trimWith p cs ++ back := by
  obtain ⟨front, hfront, hcs⟩ := exists_dropWhile p cs
  obtain ⟨back, hback, hrest⟩ := exists_dropTail p (cs.dropWhile p)
  refine ⟨front, back, hfront, hback, ?_⟩
  rw [trimWith, List.append_assoc, ← hrest]
  exact hcs

theorem trimWith_pivot (hc : p c = false) (front back : List Char) :
    trimWith p (front ++ c :: back) = front.dropWhile p ++ c :: dropTail p back := by
  rw [trimWith, dropWhile_pivot hc, dropTail_pivot hc]

/-- What is trimmed away may stand around the text. -/
theorem trimWith_append (hfront : ∀ c ∈ front, p c = true) (hback : ∀ c ∈ back, p c = true)
    (cs : List Char) : trimWith p (front ++ cs ++ back) = trimWith p cs := by
  rw [trimWith, List.append_assoc, List.dropWhile_append_of_pos hfront, List.dropWhile_append,
    trimWith]
  split
  · rename_i hempty
    rw [dropWhile_of_forall hback, List.isEmpty_iff.mp hempty]
  · exact dropTail_append hback _

theorem trimWith_eq_self (h : ∀ c ∈ cs, p c = false) : trimWith p cs = cs := by
  have hdrop (ds : List Char) (hds : ∀ c ∈ ds, p c = false) : ds.dropWhile p = ds := by
    cases ds with
    | nil => rfl
    | cons d ds =>
        exact List.dropWhile_cons_of_neg (Bool.eq_false_iff.mp (hds d List.mem_cons_self))
  rw [trimWith, hdrop cs h, dropTail, hdrop _ fun c hc => h c (List.mem_reverse.mp hc),
    List.reverse_reverse]

end StructureLayout.Text
