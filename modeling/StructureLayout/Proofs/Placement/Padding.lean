import StructureLayout.Proofs.Placement.Run
import Mathlib.Order.Bounds.Basic

/-!
# Padding up to an alignment

After the padding that a directive inserts the cursor is at a multiple of the alignment of
what follows, and a field that follows stands there.
-/

namespace StructureLayout

namespace Placement

variable {space : AddressSpace} {options : Options} {s t : Placement}

theorem dvd_add_paddingTo {alignment : Nat} (h : 0 < alignment) (cursor : Nat) :
    alignment ∣ cursor + paddingTo alignment cursor := by
  have hlt := Nat.mod_lt cursor h
  have hsplit := Nat.mod_add_div cursor alignment
  unfold paddingTo
  by_cases hzero : cursor % alignment = 0
  · rw [hzero, Nat.sub_zero, Nat.mod_self, Nat.add_zero]
    exact Nat.dvd_of_mod_eq_zero hzero
  · -- the rest of the last block is shorter than a block
    rw [Nat.mod_eq_of_lt (by omega)]
    refine ⟨cursor / alignment + 1, ?_⟩
    rw [Nat.mul_succ]
    omega

/-- Padding ends at the first multiple that is not passed yet. -/
theorem isLeast_add_paddingTo {alignment : Nat} (h : 0 < alignment) (cursor : Nat) :
    IsLeast {n | alignment ∣ n ∧ cursor ≤ n} (cursor + paddingTo alignment cursor) := by
  have hdvd := dvd_add_paddingTo h cursor
  refine ⟨⟨hdvd, Nat.le_add_right _ _⟩, ?_⟩
  rintro n ⟨hn, hle⟩
  by_contra hlt
  -- two multiples are an alignment apart, and the padding is shorter
  have hgap := Nat.le_of_dvd (Nat.sub_pos_of_lt (Nat.lt_of_not_le hlt)) (Nat.dvd_sub hdvd hn)
  have hshort : paddingTo alignment cursor < alignment := Nat.mod_lt _ h
  omega

theorem alignmentOf_pos {cursor alignment : Nat} {d : Declaration}
    (h : alignmentOf options cursor d = .ok alignment) : 0 < alignment := by
  cases d with
  | field f =>
      cases h
      exact Nat.le_max_left 1 _
  | repetition r =>
      cases h
      exact Nat.le_max_left 1 _
  | flag b =>
      cases h
      exact options.bitWord.bytes_pos
  | pad n => cases h
  | alignNext => cases h
  | void => cases h

/-- A field behind the directive stands at a multiple of its alignment. -/
theorem entry_of_alignNext {next : Declaration} {front back : List Declaration}
    {f : Field Layout}
    (h : s.placeBefore space options next (front ++ .alignNext :: .field f :: back) = .ok t) :
    ∃ offset, max 1 f.content.alignment ∣ offset ∧
      .field f offset f.bytes (boundScaling f) ∈ t.entries := by
  rw [placeBefore_append] at h
  obtain ⟨u, -, h⟩ := bind_eq_ok_iff.mp h
  obtain ⟨v, halign, h⟩ := placeBefore_cons_eq_ok_iff.mp h
  obtain ⟨w, hfield, h⟩ := placeBefore_cons_eq_ok_iff.mp h
  cases halign with
  | alignNext haligned _ =>
      cases hfield with
      | field _ =>
          have hpos := alignmentOf_pos haligned
          cases haligned
          exact ⟨_, dvd_add_paddingTo hpos u.cursor,
            (entries_suffix_of_placeBefore h).mem List.mem_cons_self⟩

end Placement

namespace Layout

theorem get?_of_alignNext {space : AddressSpace} {options : Options} {name : String}
    {front back : List Declaration} {f : Field Layout} {l : Layout}
    (h : compileIn space options name (front ++ .alignNext :: .field f :: back) = .ok l) :
    ∃ offset, max 1 f.content.alignment ∣ offset ∧
      l.get? f.name = some (.field f offset f.bytes (Placement.boundScaling f)) := by
  obtain ⟨s, hrun, -, rfl⟩ := compileIn_eq_ok_iff.mp h
  obtain ⟨offset, hdvd, hmem⟩ := Placement.entry_of_alignNext hrun
  refine ⟨offset, hdvd, ?_⟩
  exact (get?_ofPlacement_eq_some_iff (distinctNames_of_run hrun)).mpr ⟨hmem, rfl⟩

end Layout

end StructureLayout
