import StructureLayout.Text.Placeholder
import StructureLayout.Proofs.Text.Numeral

/-!
# Texts with an index

An index stands in a text in place of the first placeholder, or at the end if there is none, and
nothing else of the text changes.  Two indices in one text give two texts.
-/

namespace StructureLayout.Text

/-- A text with the texts before and after its first placeholder. -/
structure FirstPlaceholder (text front back : String) : Prop where
  split : text = front ++ "{i}" ++ back
  first : ∀ before after, text = before ++ "{i}" ++ after → front.length ≤ before.length

/-- The text with an index in it. -/
inductive Indexed (text separator : String) (index : Nat) : String → Prop
  | replaced {front back : String} (h : FirstPlaceholder text front back) :
      Indexed text separator index (front ++ toString index ++ back)
  | appended (h : ∀ front back, text ≠ front ++ "{i}" ++ back) :
      Indexed text separator index (text ++ separator ++ toString index)

/-! ## The search for a placeholder -/

theorem isSome_splitPlaceholder (front back : List Char) :
    (splitPlaceholder (front ++ ['{', 'i', '}'] ++ back)).isSome = true := by
  induction front with
  | nil => rfl
  | cons c front ih =>
      rw [List.cons_append, List.cons_append]
      unfold splitPlaceholder
      split
      · rfl
      · rename_i heq
        obtain ⟨rfl, rfl⟩ := List.cons.inj heq
        rwa [Option.isSome_map]
      · rename_i heq
        cases heq

/-- No placeholder starts before the one that is found. -/
theorem length_le_of_splitPlaceholder {cs front back before after : List Char}
    (h : splitPlaceholder cs = some (front, back))
    (hcs : cs = before ++ ['{', 'i', '}'] ++ after) : front.length ≤ before.length := by
  fun_induction splitPlaceholder cs generalizing front before with
  | case1 rest =>
      cases h
      exact Nat.zero_le _
  | case2 c cs hother ih =>
      obtain ⟨⟨rest, _⟩, hsplit, heq⟩ := Option.map_eq_some_iff.mp h
      cases heq
      cases before with
      | nil =>
          obtain ⟨hc, hrest⟩ := List.cons.inj hcs
          exact absurd hrest (hother after hc)
      | cons d before => exact Nat.succ_le_succ (ih hsplit (List.cons.inj hcs).2)
  | case3 => cases h

variable {text front back : String}

theorem toList_around (front back : String) :
    (front ++ "{i}" ++ back).toList = front.toList ++ ['{', 'i', '}'] ++ back.toList := by
  rw [String.toList_append, String.toList_append]
  rfl

theorem firstPlaceholder_of_split {f b : List Char}
    (h : splitPlaceholder text.toList = some (f, b)) :
    FirstPlaceholder text (String.ofList f) (String.ofList b) where
  split := by
    rw [← String.toList_inj, toList_around, String.toList_ofList, String.toList_ofList]
    exact eq_of_splitPlaceholder h
  first before after htext := by
    have hlist : text.toList = before.toList ++ ['{', 'i', '}'] ++ after.toList := by
      rw [htext, toList_around]
    rw [← String.length_toList, ← String.length_toList, String.toList_ofList]
    exact length_le_of_splitPlaceholder h hlist

theorem FirstPlaceholder.split_eq (h : FirstPlaceholder text front back) :
    splitPlaceholder text.toList = some (front.toList, back.toList) := by
  have htext : text.toList = front.toList ++ ['{', 'i', '}'] ++ back.toList := by
    rw [h.split, toList_around]
  obtain ⟨⟨f, b⟩, hsplit⟩ :=
    Option.isSome_iff_exists.mp (htext ▸ isSome_splitPlaceholder front.toList back.toList)
  have hle : f.length ≤ front.toList.length := length_le_of_splitPlaceholder hsplit htext
  have hge := h.first _ _ (firstPlaceholder_of_split hsplit).split
  rw [← String.length_toList, ← String.length_toList, String.toList_ofList] at hge
  have hparts := (eq_of_splitPlaceholder hsplit).symm.trans htext
  rw [List.append_assoc, List.append_assoc] at hparts
  obtain ⟨rfl, hrest⟩ := List.append_inj hparts (Nat.le_antisymm hle hge)
  rw [hsplit, List.append_cancel_left hrest]

theorem exists_firstPlaceholder_or (text : String) :
    (∃ front back, FirstPlaceholder text front back) ∨
      ∀ front back, text ≠ front ++ "{i}" ++ back := by
  cases hsplit : splitPlaceholder text.toList with
  | some parts => exact Or.inl ⟨_, _, firstPlaceholder_of_split hsplit⟩
  | none =>
      refine Or.inr ?_
      rintro front back rfl
      have hsome := isSome_splitPlaceholder front.toList back.toList
      rw [← toList_around, hsplit] at hsome
      cases hsome

/-! ## The index in the text -/

theorem FirstPlaceholder.withIndex_eq (h : FirstPlaceholder text front back) (index : Nat)
    (separator : String) : withIndex text index separator = front ++ toString index ++ back := by
  rw [withIndex, h.split_eq]
  simp only [String.ofList_toList]

theorem withIndex_of_none (h : ∀ front back, text ≠ front ++ "{i}" ++ back) (index : Nat)
    (separator : String) :
    withIndex text index separator = text ++ separator ++ toString index := by
  rw [withIndex]
  split
  · rename_i hsplit
    exact absurd (firstPlaceholder_of_split hsplit).split (h _ _)
  · rfl

theorem indexed_iff {separator result : String} {index : Nat} :
    Indexed text separator index result ↔ result = withIndex text index separator := by
  constructor
  · intro h
    cases h with
    | replaced h => exact (h.withIndex_eq index separator).symm
    | appended h => exact (withIndex_of_none h index separator).symm
  · rintro rfl
    rcases exists_firstPlaceholder_or text with ⟨front, back, h⟩ | h
    · rw [h.withIndex_eq]
      exact .replaced h
    · rw [withIndex_of_none h]
      exact .appended h

theorem withIndex_injective (text separator : String) :
    Function.Injective fun index => withIndex text index separator := by
  intro i j hij
  dsimp only at hij
  rcases exists_firstPlaceholder_or text with ⟨front, back, h⟩ | h
  · rw [h.withIndex_eq, h.withIndex_eq, String.append_left_inj, String.append_right_inj] at hij
    exact toString_injective hij
  · rw [withIndex_of_none h, withIndex_of_none h, String.append_right_inj] at hij
    exact toString_injective hij

end StructureLayout.Text
