import StructureLayout.Proofs.Placement.Nesting
import StructureLayout.Proofs.Placement.Overflow
import StructureLayout.Proofs.Table.Leaf

/-!
# The order of a field table

The leaves of a compiled layout stand in order and do not overlap, at every depth of nesting:
the elements of an array of structures are as far apart as the structure is long, and each of
them keeps its leaves within its own bytes.  No sum that leads to an offset in the table
exceeds the size of the layout.
-/

namespace StructureLayout

namespace Layout

/-- Wherever the layout stands, its leaves stand within its bytes and in order. -/
structure OrderedLeaves (l : Layout) : Prop where
  within : ∀ stem base, ∀ r ∈ l.leavesFrom stem base,
    base ≤ r.offset ∧ r.finish ≤ base + l.totalSize
  ordered : ∀ stem base, (l.leavesFrom stem base).Pairwise Leaf.Precedes

end Layout

namespace Entry

variable {e : Entry Layout} {word : Width}

theorem Sized.element_finish_le {f : Field Layout} {offset size : Nat}
    {scaling : Option Autoscale} (h : (field f offset size scaling).Sized word) {s : Layout}
    (hcontent : f.content = .nested s) {i : Nat} (hi : i < f.elements) :
    offset + i * s.totalSize + s.totalSize ≤ offset + size := by
  have hsize := h.size_eq
  rw [hcontent] at hsize
  have hle := Nat.mul_le_mul_right s.totalSize hi
  rw [Nat.succ_mul] at hle
  have hsize : size = f.elements * s.totalSize := hsize
  omega

/-- The leaves of an entry stand within its bytes. -/
theorem Sized.within_leavesFrom (h : e.Sized word)
    (hnested : ∀ s, e.nested? = some s → s.OrderedLeaves) (stem : String) (base : Nat) :
    ∀ r ∈ e.leavesFrom stem base, base + e.offset ≤ r.offset ∧ r.finish ≤ base + e.finish := by
  intro r hr
  cases e with
  | flag b offset w bit =>
      rw [leavesFrom_flag, List.mem_singleton] at hr
      subst hr
      exact ⟨Nat.le_refl _, (Nat.add_assoc base offset w.bytes).le⟩
  | field f offset size scaling =>
      cases hcontent : f.content with
      | primitive p =>
          rw [leavesFrom_primitive stem base hcontent, List.mem_singleton] at hr
          subst hr
          exact ⟨Nat.le_refl _, (Nat.add_assoc base offset size).le⟩
      | nested s =>
          rw [leavesFrom_nested stem base hcontent, List.mem_flatMap] at hr
          obtain ⟨i, hi, hr⟩ := hr
          have hs : (field f offset size scaling).nested? = some s :=
            congrArg Content.nested? hcontent
          have hwithin := (hnested s hs).within _ _ r hr
          have hfinish := h.element_finish_le hcontent (List.mem_range.mp hi)
          simp only [Entry.offset, Entry.finish, Entry.size]
          omega

theorem Sized.ordered_leavesFrom (h : e.Sized word)
    (hnested : ∀ s, e.nested? = some s → s.OrderedLeaves) (stem : String) (base : Nat) :
    (e.leavesFrom stem base).Pairwise Leaf.Precedes := by
  cases e with
  | flag b offset w bit => exact List.pairwise_singleton _ _
  | field f offset size scaling =>
      cases hcontent : f.content with
      | primitive p =>
          rw [leavesFrom_primitive stem base hcontent]
          exact List.pairwise_singleton _ _
      | nested s =>
          have hs := hnested s (congrArg Content.nested? hcontent)
          rw [leavesFrom_nested stem base hcontent, List.pairwise_flatMap]
          refine ⟨fun i _ => hs.ordered _ _, List.pairwise_lt_range.imp ?_⟩
          -- an element ends before the next one starts
          intro i j hij d hd e he
          right
          have hdwithin := hs.within _ _ d hd
          have hewithin := hs.within _ _ e he
          have hle := Nat.mul_le_mul_right s.totalSize hij
          rw [Nat.succ_mul] at hle
          omega

theorem Precedes.leaves {d : Entry Layout} (h : d.Precedes e) (stem : String) (base : Nat)
    (hd : ∀ r ∈ d.leavesFrom stem base, r.finish ≤ base + d.finish)
    (he : ∀ r ∈ e.leavesFrom stem base, base + e.offset ≤ r.offset) :
    ∀ r ∈ d.leavesFrom stem base, ∀ q ∈ e.leavesFrom stem base, r.Precedes q := by
  intro r hr q hq
  rcases h with ⟨i, j, hi, hj, hoffset, hlt⟩ | hfinish
  · cases d with
    | field f offset size scaling => cases hi
    | flag b offset w bit =>
        cases e with
        | field f offset' size scaling => cases hj
        | flag c offset' w' bit' =>
            rw [leavesFrom_flag, List.mem_singleton] at hr hq
            subst hr hq
            cases hi
            cases hj
            exact Or.inl ⟨_, _, rfl, rfl, congrArg (base + ·) hoffset, hlt⟩
  · right
    have hr := hd r hr
    have hq := he q hq
    omega

end Entry

namespace Layout

theorem Compiled.orderedLeaves {l : Layout} (h : l.Compiled) : l.OrderedLeaves := by
  refine h.induction ?_
  intro l hsized hordered hinside ih
  have hwithin (e : Entry Layout) (he : e ∈ l.entries) (stem : String) (base : Nat) :=
    (hsized e he).within_leavesFrom (ih e he) stem base
  constructor
  · intro stem base r hr
    rw [leavesFrom_eq_flatMap, List.mem_flatMap] at hr
    obtain ⟨e, he, hr⟩ := hr
    have hbounds := hwithin e he stem base r hr
    have hfinish := hinside e he
    omega
  · intro stem base
    rw [leavesFrom_eq_flatMap, List.pairwise_flatMap]
    refine ⟨fun e he => (hsized e he).ordered_leavesFrom (ih e he) stem base, ?_⟩
    refine hordered.imp_of_mem ?_
    intro d e hd he hprecedes
    exact hprecedes.leaves stem base (fun r hr => (hwithin d hd stem base r hr).2)
      fun r hr => (hwithin e he stem base r hr).1

/-! ## Sums within the address space -/

/-- The rows of one element of an entry, if the address space has the sums and the product
that lead to it. -/
def elementRowsIn? (space : AddressSpace) (rows? : Nat → Option (List Row))
    (base offset stride index : Nat) : Option (List Row) := do
  let start ← space.add? base offset
  let element ← space.add? start (← space.mul? index stride)
  rows? element

def entryRowsIn? (space : AddressSpace) (stem : String) (base : Nat) :
    Entry (Layout × (String → Nat → Option (List Row))) → Option (List Row)
  | .flag b offset _ bit => do
    return [⟨stem ++ b.name, ← space.add? base offset, .bit bit⟩]
  | .field f offset _ _ =>
    match f.content with
    | .primitive p => do
      return [⟨stem ++ f.name, ← space.add? base offset, .primitive p⟩]
    | .nested (s, rows?) => do
      let elements ← (List.range f.elements).mapM fun i =>
        elementRowsIn? space (rows? (memberStem (stem ++ f.name) f.elements i)) base offset
          s.totalSize i
      return elements.flatten

def flattenEntriesIn? (space : AddressSpace) :
    Layout → List (Entry (Layout × (String → Nat → Option (List Row)))) →
      String → Nat → Option (List Row) :=
  fun _ entries stem base => do
    return (← entries.mapM (entryRowsIn? space stem base)).flatten

/-- The rows of a layout that stands at an offset, if no sum on the way exceeds the address
space. -/
def rowsIn? (space : AddressSpace) : Layout → String → Nat → Option (List Row) :=
  fold (flattenEntriesIn? space)

def tableIn? (space : AddressSpace) (l : Layout) : Option Table := do
  return ⟨l.name, ← l.rowsIn? space "" 0⟩

section Sums

variable {space : AddressSpace}

theorem elementRowsIn?_eq {rows? : Nat → Option (List Row)} {base offset stride index : Nat}
    (hfits : space.fits (base + offset + index * stride) = true) :
    elementRowsIn? space rows? base offset stride index =
      rows? (base + offset + index * stride) := by
  have hstart : space.add? base offset = some (base + offset) :=
    AddressSpace.add?_of_fits (AddressSpace.fits_of_le (Nat.le_add_right _ _) hfits)
  have hmul : space.mul? index stride = some (index * stride) :=
    AddressSpace.mul?_of_fits (AddressSpace.fits_of_le (Nat.le_add_left _ _) hfits)
  have helement : space.add? (base + offset) (index * stride) =
      some (base + offset + index * stride) :=
    AddressSpace.add?_of_fits hfits
  rw [elementRowsIn?, hstart, hmul]
  exact congrArg (·.bind rows?) helement

theorem mapM_eq_some_map {α β : Type} {f : α → Option β} {g : α → β} {xs : List α}
    (h : ∀ x ∈ xs, f x = some (g x)) : xs.mapM f = some (xs.map g) := by
  induction xs with
  | nil => rfl
  | cons x xs ih =>
      rw [List.mapM_cons, h x List.mem_cons_self,
        ih fun y hy => h y (List.mem_cons_of_mem x hy)]
      rfl

theorem entryRowsIn?_eq {e : Entry Layout} {word : Width} (hsized : e.Sized word)
    (hnested : ∀ s, e.nested? = some s → ∀ stem base, space.fits (base + s.totalSize) = true →
      s.rowsIn? space stem base = some (s.rowsFrom stem base))
    {stem : String} {base : Nat} (hfits : space.fits (base + e.finish) = true) :
    entryRowsIn? space stem base (foldEntry (flattenEntriesIn? space) e) =
      some ((e.leavesFrom stem base).map Leaf.row) := by
  have hstart : space.add? base e.offset = some (base + e.offset) := by
    refine AddressSpace.add?_of_fits (AddressSpace.fits_of_le ?_ hfits)
    exact Nat.add_le_add_left (Nat.le_add_right _ _) base
  cases e with
  | flag b offset w bit => exact congrArg (Option.bind · _) hstart
  | field f offset size scaling =>
      rcases f with ⟨name, content, dimensions, _, _, _, _, _⟩
      cases content with
      | primitive p => exact congrArg (Option.bind · _) hstart
      | nested s =>
          rw [Entry.leavesFrom_nested stem base rfl, List.map_flatMap, List.flatMap_def]
          refine congrArg (Option.bind · _) (mapM_eq_some_map ?_)
          intro i hi
          have hfinish : offset + i * s.totalSize + s.totalSize ≤ offset + size :=
            hsized.element_finish_le rfl (List.mem_range.mp hi)
          have helement : space.fits (base + offset + i * s.totalSize + s.totalSize) = true := by
            refine AddressSpace.fits_of_le ?_ hfits
            simp only [Entry.finish, Entry.offset, Entry.size]
            omega
          rw [map_row_leavesFrom,
            elementRowsIn?_eq (AddressSpace.fits_of_le (Nat.le_add_right _ _) helement)]
          exact hnested s rfl _ _ helement

theorem Compiled.rowsIn?_eq {l : Layout} (h : l.Compiled) :
    ∀ stem base, space.fits (base + l.totalSize) = true →
      l.rowsIn? space stem base = some (l.rowsFrom stem base) := by
  refine Compiled.induction (P := fun l => ∀ stem base,
    space.fits (base + l.totalSize) = true →
      l.rowsIn? space stem base = some (l.rowsFrom stem base)) ?_ h
  intro l hsized _ hinside ih stem base hfits
  have hentries : (l.entries.map (foldEntry (flattenEntriesIn? space))).mapM
        (entryRowsIn? space stem base) =
      some (l.entries.map fun e => (e.leavesFrom stem base).map Leaf.row) := by
    rw [List.mapM_map]
    refine mapM_eq_some_map ?_
    intro e he
    refine entryRowsIn?_eq (hsized e he) (ih e he) (AddressSpace.fits_of_le ?_ hfits)
    exact Nat.add_le_add_left (hinside e he) base
  rw [rowsIn?, fold_eq, flattenEntriesIn?, hentries, ← map_row_leavesFrom,
    leavesFrom_eq_flatMap, List.map_flatMap, List.flatMap_def]
  rfl

end Sums

theorem Compiled.fits_totalSize {l : Layout} (h : l.Compiled) :
    AddressSpace.wide.fits l.totalSize = true := by
  cases h with
  | compile h _ => exact ((compileIn_eq_ok_iff_unbounded rfl).mp h).2

/-- The rows of a table stand in order without an overlap and within the layout, and every sum
that leads to their offsets is within 64 bits. -/
theorem table_ordered (l : Layout) (h : l.Compiled) :
    l.leaves.map Leaf.row = l.table.rows ∧ l.leaves.Pairwise Leaf.Precedes ∧
      (∀ r ∈ l.leaves, r.finish ≤ l.totalSize) ∧ l.tableIn? .wide = some l.table := by
  have hleaves := h.orderedLeaves
  refine ⟨l.map_row_leaves, hleaves.ordered "" 0, ?_, ?_⟩
  · intro r hr
    have hwithin := hleaves.within "" 0 r hr
    omega
  · have hfits : AddressSpace.wide.fits (0 + l.totalSize) = true := by
      rw [Nat.zero_add]
      exact h.fits_totalSize
    rw [tableIn?, h.rowsIn?_eq "" 0 hfits]
    rfl

/-- A number and two flags in a word of one byte. -/
def cell : Layout where
  name := "cell"
  entries :=
    [.field { name := "gain", content := .primitive (.integer ⟨false, .two⟩) } 0 2 none,
      .flag { name := "on" } 2 .one 0, .flag { name := "off" } 2 .one 1]
  totalSize := 3
  options := { bitWord := .one, byteOrder := .big }

theorem cell_compiled : cell.Compiled := by
  refine compiled_of_entries rfl ?_
  simp [cell, Entry.nested?, Entry.content?, Content.nested?]

/-- A flag in a word of four bytes and an array of cells, with padding at the end. -/
def bank : Layout where
  name := "bank"
  entries :=
    [.flag { name := "ok" } 0 .four 0,
      .field { name := "cells", content := .nested cell, dimensions := [3] } 4 9 none]
  totalSize := 15
  options := {}

theorem bank_compiled : bank.Compiled := by
  have h : compile {} "bank" (bank.entries.map Entry.declaration ++ [.pad 2]) = .ok bank := rfl
  refine .compile h ?_
  simpa [bank, Entry.declaration, Declaration.nested?, Declaration.content?,
    Declaration.field?, Content.nested?] using cell_compiled

def bankDeclarations : List Declaration :=
  [.flag { name := "ready" },
    .field { name := "bank", content := .nested bank, dimensions := [2, 2] }]

theorem table_ordered_banks :
    ∃ l, compile { bitWord := .two } "banks" bankDeclarations = .ok l ∧ l.Compiled ∧
      l.leaves.length = 41 ∧ l.leaves.Pairwise Leaf.Precedes ∧
        l.tableIn? .wide = some l.table := by
  obtain ⟨l, hl, hlength⟩ : ∃ l, compile { bitWord := .two } "banks" bankDeclarations = .ok l ∧
      l.leaves.length = 41 := ⟨_, rfl, by decide +kernel⟩
  have hcompiled : l.Compiled := by
    refine .compile hl ?_
    simpa [bankDeclarations, Declaration.nested?, Declaration.content?, Declaration.field?,
      Content.nested?] using bank_compiled
  obtain ⟨-, hordered, -, htable⟩ := table_ordered l hcompiled
  exact ⟨l, hl, hcompiled, hlength, hordered, htable⟩

end Layout

end StructureLayout
