import StructureLayout.Proofs.Table.Order

/-!
# Tables of nested layouts

A field table is put together from the tables of the structures in the fields.  Each element of
such a field has the whole table of its structure, raised by the offset of the element and with
the names behind a stem of its own.  A structure further down has its table in the same way,
raised by all the offsets on the way to it and behind all the stems.
-/

namespace StructureLayout

namespace Row

/-- The row of a layout that stands at an offset, under names with a common stem. -/
def moved (stem : String) (base : Nat) (r : Row) : Row :=
  ⟨stem ++ r.name, base + r.offset, r.kind⟩

theorem moved_empty (r : Row) : r.moved "" 0 = r := by
  rw [moved, String.empty_append, Nat.zero_add]

theorem moved_moved (stem stem' : String) (base base' : Nat) (r : Row) :
    (r.moved stem base).moved stem' base' = r.moved (stem' ++ stem) (base' + base) := by
  rw [moved, moved, moved, String.append_assoc, Nat.add_assoc]

end Row

theorem Layout.rowsFrom_eq_map_moved (l : Layout) (stem : String) (base : Nat) :
    l.rowsFrom stem base = l.table.rows.map (Row.moved stem base) := by
  rw [← map_row_leavesFrom, leavesFrom_eq_map_moved, ← map_row_leaves, List.map_map, List.map_map]
  rfl

namespace Entry

/-- The rows that an entry gives: a row of its own, or the table of its structure for each
element, raised to where the element stands and named after it. -/
def tableRows : Entry Layout → List Row
  | flag b offset _ bit => [⟨b.name, offset, .bit bit⟩]
  | field f offset _ _ =>
    match f.content with
    | .primitive p => [⟨f.name, offset, .primitive p⟩]
    | .nested s =>
      (List.range f.dimensions.prod).flatMap fun i =>
        s.table.rows.map
          (Row.moved (Layout.memberStem f.name f.dimensions.prod i) (offset + i * s.totalSize))

section Field

variable {f : Field Layout} {offset size : Nat} {scaling : Option Autoscale}

theorem tableRows_primitive {p : Primitive} (h : f.content = .primitive p) :
    (field f offset size scaling).tableRows = [⟨f.name, offset, .primitive p⟩] := by
  rw [tableRows, h]

theorem tableRows_nested {s : Layout} (h : f.content = .nested s) :
    (field f offset size scaling).tableRows =
      (List.range f.dimensions.prod).flatMap fun i =>
        s.table.rows.map (Row.moved (Layout.memberStem f.name f.dimensions.prod i)
          (offset + i * s.totalSize)) := by
  rw [tableRows, h]

end Field

theorem Sized.map_row_leavesFrom {e : Entry Layout} {word : Width} (h : e.Sized word) :
    (e.leavesFrom "" 0).map Leaf.row = e.tableRows := by
  cases e with
  | flag b offset w bit =>
      rw [leavesFrom_flag, String.empty_append, Nat.zero_add]
      rfl
  | field f offset size scaling =>
      cases hcontent : f.content with
      | primitive p =>
          rw [leavesFrom_primitive _ _ hcontent, tableRows_primitive hcontent,
            String.empty_append, Nat.zero_add]
          rfl
      | nested s =>
          rw [leavesFrom_nested _ _ hcontent, tableRows_nested hcontent, h.elements_eq,
            List.map_flatMap]
          refine List.flatMap_congr ?_
          intro i _
          rw [Layout.map_row_leavesFrom, Layout.rowsFrom_eq_map_moved, String.empty_append,
            Nat.zero_add]

end Entry

namespace Layout

theorem Compiled.rows_eq_flatMap {l : Layout} (h : l.Compiled) :
    l.table.rows = l.entries.flatMap Entry.tableRows := by
  rw [← map_row_leaves, leaves, leavesFrom_eq_flatMap, List.map_flatMap]
  exact List.flatMap_congr fun e he => (h.sized e he).map_row_leavesFrom

/-- Where a structure stands in a layout, as an element of a field of it or further down, and
the stem of its names there. -/
inductive Embeds : Layout → Layout → String → Nat → Prop
  | self (l : Layout) : Embeds l l "" 0
  | nested {l s m : Layout} {f : Field Layout} {offset size : Nat} {scaling : Option Autoscale}
      {i : Nat} {stem : String} {base : Nat}
      (entry : .field f offset size scaling ∈ l.entries) (content : f.content = .nested s)
      (element : i < f.dimensions.prod) (inner : Embeds s m stem base) :
      Embeds l m (memberStem f.name f.dimensions.prod i ++ stem) (offset + i * s.totalSize + base)

theorem infix_flatMap {α β : Type} {a : α} {as : List α} (h : a ∈ as) (f : α → List β) :
    f a <:+: as.flatMap f := by
  -- `List.infix_flatMap_of_mem` is for functions into lists of the same type
  rw [List.flatMap_def]
  exact List.infix_of_mem_flatten (List.mem_map_of_mem h)

/-- The table of each element is a piece of the table of the layout. -/
theorem Compiled.element_infix {l s : Layout} (h : l.Compiled) {f : Field Layout}
    {offset size : Nat} {scaling : Option Autoscale} {i : Nat}
    (he : .field f offset size scaling ∈ l.entries) (hcontent : f.content = .nested s)
    (hi : i < f.dimensions.prod) :
    s.table.rows.map (Row.moved (memberStem f.name f.dimensions.prod i)
      (offset + i * s.totalSize)) <:+: l.table.rows := by
  have hentry := infix_flatMap he Entry.tableRows
  rw [← h.rows_eq_flatMap, Entry.tableRows_nested hcontent] at hentry
  exact (infix_flatMap (List.mem_range.mpr hi) _).trans hentry

theorem Embeds.rows_infix {l m : Layout} {stem : String} {base : Nat} (h : l.Embeds m stem base)
    (hl : l.Compiled) : m.table.rows.map (Row.moved stem base) <:+: l.table.rows := by
  induction h with
  | self l =>
      have hmoved : Row.moved "" 0 = id := funext Row.moved_empty
      simp [hmoved]
  | @nested l s m f offset size scaling i stem base he hcontent hi _ ih =>
      have hs : s.Compiled := hl.of_nested he (congrArg Content.nested? hcontent)
      have hinner := (ih hs).map
        (Row.moved (memberStem f.name f.dimensions.prod i) (offset + i * s.totalSize))
      rw [List.map_map, List.map_congr_left fun r _ => r.moved_moved _ _ _ _] at hinner
      exact hinner.trans (hl.element_infix he hcontent hi)

theorem Within.exists_embeds {l m : Layout} (h : m.Within l) (hl : l.Compiled) :
    ∃ stem base, l.Embeds m stem base := by
  induction h with
  | refl l => exact ⟨_, _, .self l⟩
  | nested he hs _ ih =>
      obtain ⟨stem, base, hinner⟩ := ih (hl.of_nested he hs)
      obtain ⟨f, offset, size, scaling, rfl, hcontent⟩ := Entry.exists_field hs
      have hfirst : 0 < f.dimensions.prod := Nat.pos_of_ne_zero (hl.sized _ he).prod_ne_zero
      exact ⟨_, _, .nested he hcontent hfirst hinner⟩

/-- The rows of a table are those of the entries in order, where each element of a structure
gives the table of the structure.  Every structure stands somewhere in the layout, at any depth,
and wherever it stands its table is found as a whole, raised to that place and behind the stem of
that place. -/
theorem table_composed (l : Layout) (h : l.Compiled) :
    l.table.rows = l.entries.flatMap Entry.tableRows ∧
      (∀ m : Layout, m.Within l → ∃ stem base, l.Embeds m stem base) ∧
      ∀ m stem base, l.Embeds m stem base →
        m.table.rows.map (Row.moved stem base) <:+: l.table.rows :=
  ⟨h.rows_eq_flatMap, fun _ hm => hm.exists_embeds h, fun _ _ _ hm => hm.rows_infix h⟩

/-- Two rows of two banks, behind a flag. -/
def rack : Layout where
  name := "rack"
  entries :=
    [.flag { name := "ready" } 0 .two 0,
      .field { name := "bank", content := .nested bank, dimensions := [2, 2] } 2 60 none]
  totalSize := 62
  options := { bitWord := .two }

theorem rack_compiled : rack.Compiled := by
  refine compiled_of_entries rfl ?_
  simpa [rack, Entry.nested?, Entry.content?, Content.nested?] using bank_compiled

theorem rack_embeds : rack.Embeds cell "bank3_cells2_" 57 := by
  have hcells : .field { name := "cells", content := .nested cell, dimensions := [3] } 4 9 none ∈
      bank.entries := List.mem_cons_of_mem _ List.mem_cons_self
  have hbanks : .field { name := "bank", content := .nested bank, dimensions := [2, 2] } 2 60
      none ∈ rack.entries := List.mem_cons_of_mem _ List.mem_cons_self
  have hcell := Embeds.nested (i := 2) hcells rfl (by decide) (.self cell)
  have hrack := Embeds.nested (i := 3) hbanks rfl (by decide) hcell
  convert hrack using 1
  · decide +kernel
  · rfl

theorem table_composed_rack :
    rack.Compiled ∧ rack.Embeds cell "bank3_cells2_" 57 ∧
      cell.table.rows.map (Row.moved "bank3_cells2_" 57) =
        [⟨"bank3_cells2_gain", 57, .primitive (.integer ⟨false, .two⟩)⟩,
          ⟨"bank3_cells2_on", 59, .bit 0⟩, ⟨"bank3_cells2_off", 59, .bit 1⟩] ∧
      cell.table.rows.map (Row.moved "bank3_cells2_" 57) <:+: rack.table.rows :=
  ⟨rack_compiled, rack_embeds, by decide +kernel,
    (table_composed rack rack_compiled).2.2 cell _ _ rack_embeds⟩

end Layout

end StructureLayout
