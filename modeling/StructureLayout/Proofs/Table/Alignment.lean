import StructureLayout.Proofs.Placement.Nesting
import StructureLayout.Proofs.Placement.Padding
import StructureLayout.Proofs.Table.Leaf

/-!
# Alignment of leaves

A structure is aligned as its widest member, so its alignment suits every primitive within it,
at any depth.  At a multiple of its alignment a structure keeps those leaves aligned whose unit
is no wider.  Words of flags do not count as members, and may be wider.
-/

namespace StructureLayout

theorem Width.bytes_dvd_of_le {v w : Width} (h : v.bytes ≤ w.bytes) : v.bytes ∣ w.bytes := by
  revert h
  cases v <;> cases w <;> decide

theorem Primitive.exists_width_size (p : Primitive) : ∃ w : Width, p.size = w.bytes := by
  cases p with
  | integer t => exact ⟨t.width, rfl⟩
  | float => exact ⟨.four, rfl⟩

/-! ## Alignments -/

namespace Entry

theorem alignment_of_content? {e : Entry Layout} {c : Content Layout}
    (h : e.content? = some c) : e.declaration.alignment = c.alignment := by
  rw [Declaration.alignment, content?_declaration, h]
  rfl

end Entry

namespace Layout

theorem alignment_eq (l : Layout) :
    l.alignment =
      max 1 (min 4 ((l.entries.map fun e => e.declaration.alignment).foldl max 0)) := by
  rw [alignment, fold_eq]
  dsimp only
  rw [List.map_map]
  congr 4
  funext e
  rcases e with ⟨⟨name, content, _⟩, offset, size, scaling⟩ | _
  · cases content <;> rfl
  · rfl

theorem alignment_bounds (l : Layout) : 1 ≤ l.alignment ∧ l.alignment ≤ 4 := by
  rw [alignment_eq]
  omega

end Layout

theorem Content.alignment_bounds (c : Content Layout) : 1 ≤ c.alignment ∧ c.alignment ≤ 4 := by
  cases c with
  | nested s => exact s.alignment_bounds
  | primitive p =>
      obtain ⟨w, hw⟩ := p.exists_width_size
      rw [alignment, Primitive.alignment, hw]
      cases w <;> decide

namespace Layout

theorem alignment_le {l : Layout} {e : Entry Layout} (he : e ∈ l.entries) {c : Content Layout}
    (hc : e.content? = some c) : c.alignment ≤ l.alignment := by
  have hmem : c.alignment ∈ l.entries.map fun e => e.declaration.alignment := by
    rw [← Entry.alignment_of_content? hc]
    exact List.mem_map_of_mem he
  have hmax : c.alignment ≤ (l.entries.map fun e => e.declaration.alignment).max?.getD 0 :=
    List.le_max?_getD_of_mem hmem
  have hle := c.alignment_bounds.2
  rw [alignment_eq, List.foldl_max]
  omega

/-- Only a structure without fields has an alignment that no field has. -/
theorem alignment_attained (l : Layout) :
    l.alignment = 1 ∨ ∃ e ∈ l.entries, ∃ c, e.content? = some c ∧ c.alignment = l.alignment := by
  rw [alignment_eq, List.foldl_max]
  cases hmax : (l.entries.map fun e => e.declaration.alignment).max? with
  | none => exact Or.inl rfl
  | some n =>
      obtain ⟨e, he, rfl⟩ := List.mem_map.mp (List.max?_mem hmax)
      cases hc : e.content? with
      | none =>
          left
          rw [Declaration.alignment, Entry.content?_declaration, hc]
          rfl
      | some c =>
          right
          refine ⟨e, he, c, hc, ?_⟩
          have hbounds := c.alignment_bounds
          rw [Entry.alignment_of_content? hc, Option.getD_some]
          omega

theorem exists_width_alignment (l : Layout) : ∃ w : Width, l.alignment = w.bytes := by
  induction l using nested_induction with
  | h l ih =>
      rcases l.alignment_attained with hone | ⟨e, he, c, hc, hattained⟩
      · exact ⟨.one, hone⟩
      · rw [← hattained]
        cases c with
        | primitive p => exact p.exists_width_size
        | nested s => exact ih e he s (by rw [Entry.nested?, hc]; rfl)

end Layout

theorem Content.exists_width_alignment (c : Content Layout) :
    ∃ w : Width, c.alignment = w.bytes := by
  cases c with
  | primitive p => exact p.exists_width_size
  | nested s => exact s.exists_width_alignment

theorem Layout.alignment_dvd {l : Layout} {e : Entry Layout} (he : e ∈ l.entries)
    {c : Content Layout} (hc : e.content? = some c) : c.alignment ∣ l.alignment := by
  have hle := alignment_le he hc
  obtain ⟨v, hv⟩ := c.exists_width_alignment
  obtain ⟨w, hw⟩ := l.exists_width_alignment
  rw [hv, hw] at hle ⊢
  exact Width.bytes_dvd_of_le hle

/-! ## Leaves -/

namespace Layout

variable {l : Layout} {stem : String} {base : Nat} {r : Leaf}

theorem HasLeaf.exists_width_unit (h : l.HasLeaf stem base r) :
    ∃ w : Width, r.unit = w.bytes := by
  induction h with
  | @flag _ _ _ _ _ word _ _ => exact ⟨word, rfl⟩
  | @primitive _ _ _ _ _ _ _ p _ _ => exact p.exists_width_size
  | nested _ _ _ _ ih => exact ih

/-- The alignment of a layout suits the primitives in it. -/
theorem HasLeaf.size_dvd_alignment (h : l.HasLeaf stem base r) {p : Primitive}
    (hp : r.row.kind = .primitive p) : p.size ∣ l.alignment := by
  induction h with
  | flag _ => cases hp
  | primitive he hcontent =>
      cases hp
      exact alignment_dvd he (congrArg some hcontent)
  | nested he hcontent _ _ ih =>
      exact (ih hp).trans (alignment_dvd he (congrArg some hcontent))

theorem HasLeaf.unit_dvd_alignment (h : l.HasLeaf stem base r)
    (hr : (∃ p, r.row.kind = .primitive p) ∨ r.unit ≤ l.alignment) : r.unit ∣ l.alignment := by
  rcases hr with ⟨p, hp⟩ | hle
  · rw [Leaf.unit, hp]
    exact h.size_dvd_alignment hp
  · obtain ⟨v, hv⟩ := h.exists_width_unit
    obtain ⟨w, hw⟩ := l.exists_width_alignment
    rw [hv, hw] at hle ⊢
    exact Width.bytes_dvd_of_le hle

/-- A primitive gives a layout its alignment. -/
theorem exists_hasLeaf_alignment (l : Layout) :
    l.alignment = 1 ∨ ∃ r p, l.HasLeaf "" 0 r ∧ r.row.kind = .primitive p ∧
      p.size = l.alignment := by
  induction l using nested_induction with
  | h l ih =>
      rcases l.alignment_attained with hone | ⟨e, he, c, hc, hattained⟩
      · exact Or.inl hone
      · rw [← hattained]
        rcases e with ⟨f, offset, size, scaling⟩ | _
        · have hcontent : f.content = c := Option.some.inj hc
          cases c with
          | primitive p => exact Or.inr ⟨_, p, .primitive he hcontent, rfl, rfl⟩
          | nested s =>
              refine (ih _ he s (congrArg Content.nested? hcontent)).imp id ?_
              rintro ⟨r, p, hr, hp, hsize⟩
              have hleaf := hr.moved (memberStem ("" ++ f.name) f.elements 0)
                (0 + offset + 0 * s.totalSize)
              exact ⟨_, p, .nested he hcontent f.elements_pos hleaf, hp, hsize⟩
        · cases hc

theorem aligned_moved (hoffset : r.unit ∣ base) (h : r.Aligned) : (r.moved stem base).Aligned :=
  Nat.dvd_add hoffset h

/-- A structure with aligned leaves that is placed at its alignment keeps aligned the
primitives in it and the flags whose word is no wider than that alignment. -/
theorem aligned_after_alignNext {options : Options} {name : String}
    {front back : List Declaration} {f : Field Layout} {s l : Layout}
    (h : compile options name (front ++ .alignNext :: .field f :: back) = .ok l)
    (hscalar : f.dimensions = []) (hcontent : f.content = .nested s)
    (haligned : ∀ r ∈ s.leaves, r.Aligned) :
    ∃ offset size scaling, l.get? f.name = some (.field f offset size scaling) ∧
      ∀ r ∈ (Entry.field f offset size scaling).leavesFrom "" 0,
        ((∃ p, r.row.kind = .primitive p) ∨ r.unit ≤ s.alignment) → r.Aligned := by
  obtain ⟨offset, hdvd, hget⟩ := get?_of_alignNext h
  refine ⟨offset, _, _, hget, ?_⟩
  intro r hr hunit
  have hone : f.elements = 1 := by
    rw [Field.elements, hscalar]
    rfl
  have hmax : max 1 f.content.alignment = s.alignment := by
    rw [hcontent]
    exact Nat.max_eq_right s.alignment_bounds.1
  rw [hmax] at hdvd
  rw [Entry.leavesFrom_nested _ _ hcontent, hone] at hr
  obtain ⟨i, hi, hr⟩ := List.mem_flatMap.mp hr
  obtain rfl : i = 0 := Nat.lt_one_iff.mp (List.mem_range.mp hi)
  rw [leavesFrom_eq_map_moved, Nat.zero_mul, Nat.add_zero, Nat.zero_add] at hr
  obtain ⟨q, hq, rfl⟩ := List.mem_map.mp hr
  exact aligned_moved (((hasLeaf_iff.mpr hq).unit_dvd_alignment hunit).trans hdvd)
    (haligned q hq)

/-- A number of two bytes and a flag in a word of four. -/
def gauge : Layout where
  name := "gauge"
  entries :=
    [.flag { name := "on" } 0 .four 0,
      .field { name := "level", content := .primitive (.integer ⟨true, .two⟩) } 4 2 none]
  totalSize := 6
  options := {}

theorem gauge_after_alignNext :
    ∃ l, compile {} "outer"
        [.pad 3, .alignNext, .field { name := "gauge", content := .nested gauge }] = .ok l ∧
      (∀ r ∈ gauge.leaves, r.Aligned) ∧
      ∃ offset size scaling,
        l.get? "gauge" =
          some (.field { name := "gauge", content := .nested gauge } offset size scaling) ∧
        ∀ r ∈ (Entry.field { name := "gauge", content := .nested gauge } offset size
            scaling).leavesFrom "" 0,
          ((∃ p, r.row.kind = .primitive p) ∨ r.unit ≤ gauge.alignment) → r.Aligned := by
  obtain ⟨l, hl⟩ : ∃ l, compile {} "outer" ([.pad 3] ++ .alignNext ::
      .field { name := "gauge", content := .nested gauge } :: []) = .ok l := ⟨_, rfl⟩
  have haligned : ∀ r ∈ gauge.leaves, r.Aligned := by decide
  exact ⟨l, hl, haligned, aligned_after_alignNext hl rfl rfl haligned⟩

/-- A structure of one flag, which has no alignment of its own. -/
def status : Layout where
  name := "status"
  entries := [.flag { name := "on" } 0 .four 0]
  totalSize := 4
  options := {}

theorem status_compiled : status.Compiled := by
  refine compiled_of_entries rfl ?_
  simp [status, Entry.nested?, Entry.content?]

/-- The word of flags in a structure behind the directive may stand off its alignment. -/
theorem not_aligned_after_alignNext :
    ¬∀ (options : Options) (name : String) (front back : List Declaration) (f : Field Layout)
      (s l : Layout) (e : Entry Layout), s.Compiled →
      compile options name (front ++ .alignNext :: .field f :: back) = .ok l →
      f.dimensions = [] → f.content = .nested s → (∀ r ∈ s.leaves, r.Aligned) →
      l.get? f.name = some e → ∀ r ∈ e.leavesFrom "" 0, r.Aligned := by
  intro h
  have hfalse := h {} "outer" [.pad 1] [] { name := "status", content := .nested status } status
    _ _ status_compiled rfl rfl rfl (by decide) rfl
  revert hfalse
  decide

end Layout

end StructureLayout
