/-!
# Index placeholders

The name and the comment of a repeated field may hold the placeholder, an `i` in braces.
An instance has its index in place of the first placeholder; a text without one has the
index at its end, after a separator.
-/

namespace StructureLayout.Text

/-- The text around the first placeholder. -/
def splitPlaceholder : List Char → Option (List Char × List Char)
  | '{' :: 'i' :: '}' :: rest => some ([], rest)
  | c :: cs => (splitPlaceholder cs).map fun (front, back) => (c :: front, back)
  | [] => none

theorem eq_of_splitPlaceholder {cs front back : List Char}
    (h : splitPlaceholder cs = some (front, back)) :
    cs = front ++ ['{', 'i', '}'] ++ back := by
  fun_induction splitPlaceholder cs generalizing front back with
  | case1 rest =>
    simp only [Option.some.injEq, Prod.mk.injEq] at h
    obtain ⟨rfl, rfl⟩ := h
    rfl
  | case2 c cs _ ih =>
    obtain ⟨⟨f, b⟩, hsplit, heq⟩ := Option.map_eq_some_iff.mp h
    simp only [Prod.mk.injEq] at heq
    obtain ⟨rfl, rfl⟩ := heq
    rw [ih hsplit]
    rfl
  | case3 => cases h

def withIndex (text : String) (index : Nat) (separator : String) : String :=
  match splitPlaceholder text.toList with
  | some (front, back) => String.ofList front ++ toString index ++ String.ofList back
  | none => text ++ separator ++ toString index

end StructureLayout.Text
