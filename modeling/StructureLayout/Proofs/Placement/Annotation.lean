import StructureLayout.Proofs.Placement.Scaling
import StructureLayout.Proofs.Table.Alignment
import StructureLayout.Proofs.Image.ByteOrder
import StructureLayout.Lint
import Mathlib.Data.List.SplitBy

/-!
# Annotations

What is told about a field or a flag beside its name, its type and its declared place is seen by
no one who lays out, lists, checks or accesses.  Two sequences that differ in annotations alone,
at whatever depth of nested structures, are refused with the same error or give layouts that no
table, no finding and no access to an image tells apart.
-/

namespace StructureLayout

/-! ## Without annotations -/

/-- Neither its states have names nor is anything told about it. -/
def Flag.unannotated (b : Flag) : Flag :=
  { b with trueName := none, falseName := none, annotation := {} }

/-- The entry with its nested structure replaced by the one that was made of it. -/
def Entry.unannotatedWith : Entry (Layout × Layout) → Entry Layout
  | field f offset size scaling =>
    field
      { f with
        content :=
          match f.content with
          | .primitive p => .primitive p
          | .nested (_, s) => .nested s
        dimensionName := none
        annotation := {} }
      offset size scaling
  | flag b offset word bit => flag b.unannotated offset word bit

/-- No field and no flag is annotated, neither here nor in a nested structure. -/
def Layout.unannotated : Layout → Layout :=
  Layout.fold fun l entries => { l with entries := entries.map Entry.unannotatedWith }

def Content.unannotated : Content Layout → Content Layout
  | primitive p => primitive p
  | nested s => nested s.unannotated

def Field.unannotated (f : Field Layout) : Field Layout :=
  { f with content := f.content.unannotated, dimensionName := none, annotation := {} }

namespace Entry

def unannotated : Entry Layout → Entry Layout
  | field f offset size scaling => field f.unannotated offset size scaling
  | flag b offset word bit => flag b.unannotated offset word bit

@[simp] theorem name_unannotated (e : Entry Layout) : e.unannotated.name = e.name := by
  cases e <;> rfl

@[simp] theorem offset_unannotated (e : Entry Layout) : e.unannotated.offset = e.offset := by
  cases e <;> rfl

@[simp] theorem size_unannotated (e : Entry Layout) : e.unannotated.size = e.size := by
  cases e <;> rfl

@[simp] theorem bit?_unannotated (e : Entry Layout) : e.unannotated.bit? = e.bit? := by
  cases e <;> rfl

@[simp] theorem scaling?_unannotated (e : Entry Layout) :
    e.unannotated.scaling? = e.scaling? := by
  cases e <;> rfl

@[simp] theorem elements_unannotated (e : Entry Layout) :
    e.unannotated.elements = e.elements := by
  cases e <;> rfl

@[simp] theorem primitive?_unannotated (e : Entry Layout) :
    e.unannotated.primitive? = e.primitive? := by
  rcases e with ⟨⟨name, content, _⟩, _, _, _⟩ | _
  · cases content <;> rfl
  · rfl

end Entry

namespace Layout

theorem unannotated_eq (l : Layout) :
    l.unannotated = { l with entries := l.entries.map Entry.unannotated } := by
  rw [unannotated, fold_eq]
  congr 1
  rw [List.map_map]
  refine List.map_congr_left fun e _ => ?_
  rcases e with ⟨⟨name, content, _⟩, _, _, _⟩ | _
  · cases content <;> rfl
  · rfl

@[simp] theorem name_unannotated (l : Layout) : l.unannotated.name = l.name := by
  rw [unannotated_eq]

@[simp] theorem entries_unannotated (l : Layout) :
    l.unannotated.entries = l.entries.map Entry.unannotated := by
  rw [unannotated_eq]

@[simp] theorem totalSize_unannotated (l : Layout) :
    l.unannotated.totalSize = l.totalSize := by
  rw [unannotated_eq]

@[simp] theorem options_unannotated (l : Layout) : l.unannotated.options = l.options := by
  rw [unannotated_eq]

@[simp] theorem alignment_unannotated (l : Layout) :
    l.unannotated.alignment = l.alignment := by
  induction l using nested_induction with
  | h l ih =>
      rw [alignment_eq, alignment_eq l, entries_unannotated, List.map_map]
      congr 3
      refine List.map_congr_left fun e he => ?_
      rcases e with ⟨⟨name, content, _⟩, _, _, _⟩ | _
      · cases content with
        | primitive p => rfl
        | nested s => exact ih _ he s rfl
      · rfl

end Layout

namespace Content

@[simp] theorem name_unannotated (c : Content Layout) : c.unannotated.name = c.name := by
  cases c with
  | primitive p => rfl
  | nested s => exact s.name_unannotated

@[simp] theorem size_unannotated (c : Content Layout) : c.unannotated.size = c.size := by
  cases c with
  | primitive p => rfl
  | nested s => exact s.totalSize_unannotated

@[simp] theorem alignment_unannotated (c : Content Layout) :
    c.unannotated.alignment = c.alignment := by
  cases c with
  | primitive p => rfl
  | nested s => exact s.alignment_unannotated

@[simp] theorem primitive?_unannotated (c : Content Layout) :
    c.unannotated.primitive? = c.primitive? := by
  cases c <;> rfl

end Content

/-! ## Placement -/

namespace Field

theorem footprint_unannotated (space : AddressSpace) (f : Field Layout) :
    f.unannotated.footprint space = f.footprint space := by
  have hsize : f.unannotated.content.size = f.content.size := f.content.size_unannotated
  rw [footprint, footprint?, hsize]
  rfl

/-- Of the type a specification of the scale is checked against the name and the primitive. -/
theorem scalingOf_unannotated (f : Field Layout) :
    Placement.scalingOf f.unannotated = Placement.scalingOf f := by
  rcases f with ⟨name, content, dimensions, dimensionName, autoscale, _⟩
  cases content with
  | primitive p => rfl
  | nested s =>
      cases autoscale with
      | none => rfl
      | some spec =>
          simp only [Placement.scalingOf, unannotated, Content.unannotated,
            Layout.name_unannotated]

end Field

def Recasting.unannotated : Recasting where
  field := Field.unannotated
  flag := Flag.unannotated
  scaling := id
  faults := id
  name_field _ := rfl
  size_field f := f.content.size_unannotated
  alignment_field f := f.content.alignment_unannotated
  dimensions_field _ := rfl
  offset_field _ := rfl
  instanceAt_field space r index := by
    have hstride : ({ r with template := r.template.unannotated } : Repetition).stride space =
        r.stride space := r.template.footprint_unannotated space
    simp only [Repetition.instanceAt, hstride]
    rfl
  boundScaling_field f := by
    rw [Placement.boundScaling, f.scalingOf_unannotated]
    rfl
  scalingFaults_field f offset fs := by
    rw [Placement.scalingFaults, f.scalingOf_unannotated]
    rfl
  name_flag _ := rfl
  bit_flag _ := rfl
  offset_flag _ := rfl

namespace Declaration

def unannotated : Declaration → Declaration
  | field f => field f.unannotated
  | flag b => flag b.unannotated
  | pad n => pad n
  | alignNext => alignNext
  | repetition r => repetition { r with template := r.template.unannotated }
  | void => void

theorem recasting_unannotated : Recasting.unannotated.declaration = unannotated := by
  funext d
  cases d <;> rfl

end Declaration

namespace Layout

theorem recasting_unannotated : Recasting.unannotated.layout = unannotated := by
  funext l
  rw [unannotated_eq, Recasting.layout]
  congr 2

/-- Annotations go the way of compilation: they decide on no error, and on nothing in the layout
but themselves. -/
theorem compile_map_unannotated (options : Options) (name : String) (ds : List Declaration) :
    compile options name (ds.map Declaration.unannotated) =
      (compile options name ds).map unannotated := by
  have hrun : Placement.placeAll .wide options {} (ds.map Declaration.unannotated) =
      Recasting.unannotated.placement <$> Placement.placeAll .wide options {} ds := by
    rw [← Declaration.recasting_unannotated]
    exact Recasting.unannotated.placeAll_placement {} ds
  cases hs : Placement.placeAll .wide options {} ds with
  | error e =>
      rw [hs] at hrun
      rw [compile_eq_placement_iff.mpr hs, compile_eq_placement_iff.mpr hrun]
      rfl
  | ok s =>
      rw [hs] at hrun
      rw [compile_of_placeAll hs, compile_of_placeAll hrun, ← recasting_unannotated,
        ← Recasting.layout_ofPlacement]
      change (if s.faults = [] then _ else _) = _
      split <;> rfl

end Layout

/-! ## Tables, findings and images -/

theorem splitBy_map {α β : Type} (f : α → β) (r : β → β → Bool) (xs : List α) :
    (xs.map f).splitBy r = (xs.splitBy fun a b => r (f a) (f b)).map (List.map f) := by
  -- the loop carries the run it is in and the runs behind it
  have hloop (xs : List α) (a : α) (run : List α) (runs : List (List α)) :
      List.splitBy.loop r (xs.map f) (f a) (run.map f) (runs.map (List.map f)) =
        (List.splitBy.loop (fun a b => r (f a) (f b)) xs a run runs).map (List.map f) := by
    induction xs generalizing a run runs with
    | nil => simp [List.splitBy.loop]
    | cons b xs ih =>
        rw [List.map_cons, List.splitBy.loop, List.splitBy.loop]
        split
        · exact ih b (a :: run) runs
        · have hnext := ih b [] ((a :: run).reverse :: runs)
          rw [List.map_cons, List.map_reverse, List.map_cons, List.map_nil] at hnext
          exact hnext
  cases xs with
  | nil => rfl
  | cons a xs => exact hloop xs a [] []

namespace Layout

theorem rowsFrom_unannotated (l : Layout) (stem : String) (base : Nat) :
    l.unannotated.rowsFrom stem base = l.rowsFrom stem base := by
  induction l using nested_induction generalizing stem base with
  | h l ih =>
      rw [← map_row_leavesFrom, leavesFrom_eq_flatMap, ← map_row_leavesFrom,
        leavesFrom_eq_flatMap, entries_unannotated, List.flatMap_map, List.map_flatMap,
        List.map_flatMap]
      refine List.flatMap_congr fun e he => ?_
      cases e with
      | flag b offset word bit => rfl
      | field f offset size scaling =>
          cases hcontent : f.content with
          | primitive p =>
              have hplain : f.unannotated.content = .primitive p := by
                rw [Field.unannotated, hcontent, Content.unannotated]
              rw [Entry.unannotated, Entry.leavesFrom_primitive _ _ hplain,
                Entry.leavesFrom_primitive _ _ hcontent]
              rfl
          | nested s =>
              have hplain : f.unannotated.content = .nested s.unannotated := by
                rw [Field.unannotated, hcontent, Content.unannotated]
              have hs : (Entry.field f offset size scaling).nested? = some s := by
                rw [Entry.nested?, Entry.content?, hcontent]
                rfl
              rw [Entry.unannotated, Entry.leavesFrom_nested _ _ hplain,
                Entry.leavesFrom_nested _ _ hcontent, List.map_flatMap, List.map_flatMap,
                totalSize_unannotated]
              refine List.flatMap_congr fun i _ => ?_
              rw [map_row_leavesFrom, map_row_leavesFrom]
              exact ih _ he s hs _ _

theorem table_unannotated (l : Layout) : l.unannotated.table = l.table := by
  rw [table, name_unannotated, rowsFrom_unannotated, table]

end Layout

namespace Lint

theorem typeText_unannotated (e : Entry Layout) : e.unannotated.typeText = e.typeText := by
  cases e with
  | flag _ _ _ _ => rfl
  | field f _ _ _ =>
      have hname : f.unannotated.content.name = f.content.name := f.content.name_unannotated
      rw [Entry.unannotated, Entry.typeText, hname, Entry.typeText]
      rfl

theorem alignmentFindings_unannotated (f : Field Layout) (e : Entry Layout) :
    alignmentFindings f.unannotated e.unannotated = alignmentFindings f e := by
  have halignment : f.unannotated.content.alignment = f.content.alignment :=
    f.content.alignment_unannotated
  have hprimitive : f.unannotated.content.primitive? = f.content.primitive? :=
    f.content.primitive?_unannotated
  simp only [alignmentFindings, halignment, hprimitive, Entry.name_unannotated,
    Entry.offset_unannotated, typeText_unannotated]

theorem usedBits_unannotated (run : List (Entry Layout)) :
    usedBits (run.map Entry.unannotated) = usedBits run := by
  simp only [usedBits, List.foldl_map, Entry.bit?_unannotated]

theorem runFindings_unannotated (wordBits : Nat) (run : List (Entry Layout)) :
    runFindings wordBits (run.map Entry.unannotated) = runFindings wordBits run := by
  cases run with
  | nil => rfl
  | cons e rest =>
      cases e with
      | field f offset size scaling =>
          exact alignmentFindings_unannotated f (.field f offset size scaling)
      | flag b offset word bit =>
          have hused := usedBits_unannotated (.flag b offset word bit :: rest)
          rw [List.map_cons] at hused
          simp only [List.map_cons, runFindings, Entry.unannotated, wordFindings] at hused ⊢
          rw [hused]
          rfl

end Lint

namespace Layout

variable (l : Layout)

theorem lint_unannotated : l.unannotated.lint = l.lint := by
  have hshares (d e : Entry Layout) :
      Lint.sharesWord d.unannotated e.unannotated = Lint.sharesWord d e := by
    simp only [Lint.sharesWord, Entry.bit?_unannotated, Entry.offset_unannotated]
  have hsize : Lint.sizeFindings l.unannotated = Lint.sizeFindings l := by
    simp only [Lint.sizeFindings, options_unannotated, totalSize_unannotated, name_unannotated]
  rw [lint, hsize, options_unannotated, entries_unannotated, splitBy_map, List.flatMap_map]
  simp only [hshares, Lint.runFindings_unannotated]
  rfl

theorem get?_unannotated (name : String) :
    l.unannotated.get? name = (l.get? name).map Entry.unannotated := by
  simp only [get?, entries_unannotated, List.find?_map, Function.comp_def,
    Entry.name_unannotated]

theorem element_unannotated (name : String) (index : Nat) :
    l.unannotated.element name index = l.element name index := by
  rw [element, entry, get?_unannotated, element, entry]
  cases l.get? name with
  | none => rfl
  | some e => simp [ok_bind]

theorem flagPlace_unannotated (name : String) :
    l.unannotated.flagPlace name = l.flagPlace name := by
  rw [flagPlace, entry, get?_unannotated, flagPlace, entry]
  cases l.get? name with
  | none => rfl
  | some e => cases e <;> rfl

theorem perform_unannotated (image : Image) (access : Access) :
    l.unannotated.perform image access = l.perform image access := by
  have hread (name : String) (index : Nat) :
      l.unannotated.read image name index = l.read image name index := by
    rw [read, element_unannotated, options_unannotated, read]
  have hwrite (name : String) (index : Nat) (v : Value) :
      l.unannotated.write image name index v = l.write image name index v := by
    rw [write, element_unannotated, options_unannotated, write]
  cases access with
  | value name index => rw [perform, hread, perform]
  | scaled name index =>
      rw [perform, readScaled, element_unannotated, hread, perform, readScaled]
  | flag name =>
      rw [perform, readFlag, flagPlace_unannotated, options_unannotated, perform, readFlag]
  | store call =>
      have hstore : l.unannotated.store image call = l.store image call := by
        cases call with
        | value name index v => exact hwrite name index v
        | scaled name index v =>
            rw [store, writeScaled, element_unannotated, store, writeScaled]
            simp only [hwrite]
        | flag name on =>
            rw [store, writeFlag, flagPlace_unannotated, options_unannotated, store, writeFlag]
      rw [perform, hstore, perform]

end Layout

/-! ## Two sequences -/

namespace Layout

/-- Layouts that agree on every place and in what tables, findings and images show of them. -/
structure Indistinguishable (l l' : Layout) : Prop where
  entries : l.entries.map (fun e => (e.name, e.offset, e.size, e.bit?, e.scaling?)) =
    l'.entries.map fun e => (e.name, e.offset, e.size, e.bit?, e.scaling?)
  totalSize : l.totalSize = l'.totalSize
  options : l.options = l'.options
  table : l.table = l'.table
  lint : l.lint = l'.lint
  perform : ∀ image access, l.perform image access = l'.perform image access

namespace Indistinguishable

variable {l l' l'' : Layout}

theorem symm (h : l.Indistinguishable l') : l'.Indistinguishable l :=
  ⟨h.entries.symm, h.totalSize.symm, h.options.symm, h.table.symm, h.lint.symm,
    fun image access => (h.perform image access).symm⟩

theorem trans (h : l.Indistinguishable l') (h' : l'.Indistinguishable l'') :
    l.Indistinguishable l'' :=
  ⟨h.entries.trans h'.entries, h.totalSize.trans h'.totalSize, h.options.trans h'.options,
    h.table.trans h'.table, h.lint.trans h'.lint,
    fun image access => (h.perform image access).trans (h'.perform image access)⟩

end Indistinguishable

theorem indistinguishable_unannotated (l : Layout) : l.unannotated.Indistinguishable l where
  entries := by
    rw [entries_unannotated, List.map_map]
    refine List.map_congr_left fun e _ => ?_
    simp only [Function.comp_apply, Entry.name_unannotated, Entry.offset_unannotated,
      Entry.size_unannotated, Entry.bit?_unannotated, Entry.scaling?_unannotated]
  totalSize := l.totalSize_unannotated
  options := l.options_unannotated
  table := l.table_unannotated
  lint := l.lint_unannotated
  perform := l.perform_unannotated

/-- Sequences that differ in annotations alone, also those of nested structures, are refused
with the same error, or both have layouts, and these are not told apart. -/
theorem compile_indistinguishable {ds ds' : List Declaration}
    (h : ds.map Declaration.unannotated = ds'.map Declaration.unannotated) (options : Options)
    (name : String) :
    (∃ e, compile options name ds = .error e ∧ compile options name ds' = .error e) ∨
      ∃ l l', compile options name ds = .ok l ∧ compile options name ds' = .ok l' ∧
        l.Indistinguishable l' := by
  have hmap : (compile options name ds).map unannotated =
      (compile options name ds').map unannotated := by
    rw [← compile_map_unannotated, h, compile_map_unannotated]
  cases hds : compile options name ds with
  | error e =>
      left
      cases hds' : compile options name ds' with
      | error e' =>
          rw [hds, hds'] at hmap
          cases hmap
          exact ⟨e, rfl, rfl⟩
      | ok l' =>
          rw [hds, hds'] at hmap
          cases hmap
  | ok l =>
      right
      cases hds' : compile options name ds' with
      | error e' =>
          rw [hds, hds'] at hmap
          cases hmap
      | ok l' =>
          rw [hds, hds'] at hmap
          have heq : l.unannotated = l'.unannotated := Except.ok.inj hmap
          have hl' := l'.indistinguishable_unannotated
          rw [← heq] at hl'
          exact ⟨l, l', rfl, rfl, l.indistinguishable_unannotated.symm.trans hl'⟩

/-- A lamp with its state named, or not. -/
def lampNoted (note : Option String) : Layout where
  name := "lamp"
  entries :=
    [.flag { name := "lit", trueName := note, annotation := { comment := note } } 0 .four 0]
  totalSize := 4
  options := {}

/-- Repeated levels, a lamp and a flag with a note on each, or with none. -/
def panelNoted (note : Option String) : List Declaration :=
  [.repetition
      ⟨{ name := "level", content := .primitive (.integer ⟨false, .two⟩), dimensions := [2]
         dimensionName := note, autoscale := some "10"
         annotation := { comment := note, units := note } }, 3⟩,
    .field
      { name := "lamp", content := .nested (lampNoted note)
        annotation := { digits := (note.map String.length).getD 0
                        scriptVisible := note.isSome } },
    .flag
      { name := "on", falseName := note
        annotation := { least := .ofInt ((note.map fun _ => 1).getD 0) } }]

theorem compile_panelNoted :
    (panelNoted none).map Declaration.unannotated =
        (panelNoted (some "dim")).map Declaration.unannotated ∧
      ∃ l l', compile {} "panel" (panelNoted none) = .ok l ∧
        compile {} "panel" (panelNoted (some "dim")) = .ok l' ∧ l.Indistinguishable l' := by
  have hsame : (panelNoted none).map Declaration.unannotated =
      (panelNoted (some "dim")).map Declaration.unannotated := rfl
  refine ⟨hsame, (compile_indistinguishable hsame {} "panel").resolve_left ?_⟩
  rintro ⟨e, he, -⟩
  obtain ⟨l, hl⟩ := exists_eq_ok_of_isOk
    (show (compile {} "panel" (panelNoted none)).isOk = true by decide +kernel)
  rw [hl] at he
  cases he

end Layout

end StructureLayout
