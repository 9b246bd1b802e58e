import StructureLayout.Proofs.Placement.Run

/-!
# Recasting

Placement looks only at the names and the declared places of fields and flags, and at the sizes
and the alignments of their types.  A map that keeps these, and may change everything else that
is declared, the types included, maps every placement to a placement: the outcome, with every
error of placement, is that of the mapped sequence.  One that keeps the types changes labels only.
-/

namespace StructureLayout

open Placement

/-- A map on fields and flags that keeps what decides on their places. -/
structure Recasting where
  field : Field Layout → Field Layout
  flag : Flag → Flag
  scaling : Option Autoscale → Option Autoscale
  faults : List FieldFault → List FieldFault
  name_field : ∀ f, (field f).name = f.name
  size_field : ∀ f, (field f).content.size = f.content.size
  alignment_field : ∀ f, (field f).content.alignment = f.content.alignment
  dimensions_field : ∀ f, (field f).dimensions = f.dimensions
  offset_field : ∀ f, (field f).offset = f.offset
  instanceAt_field : ∀ (space : AddressSpace) (r : Repetition) (index : Nat),
    field (r.instanceAt space index) =
      ({ r with template := field r.template } : Repetition).instanceAt space index
  boundScaling_field : ∀ f, boundScaling (field f) = scaling (boundScaling f)
  scalingFaults_field : ∀ f offset fs,
    scalingFaults (field f) offset ++ faults fs = faults (scalingFaults f offset ++ fs)
  name_flag : ∀ b, (flag b).name = b.name
  bit_flag : ∀ b, (flag b).bit = b.bit
  offset_flag : ∀ b, (flag b).offset = b.offset

namespace Recasting

variable (σ : Recasting) {space : AddressSpace} {options : Options} {s t : Placement}

def entry : Entry Layout → Entry Layout
  | .field f offset size scaling => .field (σ.field f) offset size (σ.scaling scaling)
  | .flag b offset word bit => .flag (σ.flag b) offset word bit

def repetition (r : Repetition) : Repetition := { r with template := σ.field r.template }

def declaration : Declaration → Declaration
  | .field f => .field (σ.field f)
  | .flag b => .flag (σ.flag b)
  | .pad n => .pad n
  | .alignNext => .alignNext
  | .repetition r => .repetition (σ.repetition r)
  | .void => .void

def placement (s : Placement) : Placement :=
  { s with entries := s.entries.map σ.entry, faults := σ.faults s.faults }

def layout (l : Layout) : Layout := { l with entries := l.entries.map σ.entry }

@[simp] theorem name_entry (e : Entry Layout) : (σ.entry e).name = e.name := by
  cases e with
  | field f _ _ _ => exact σ.name_field f
  | flag b _ _ _ => exact σ.name_flag b

@[simp] theorem offset_entry (e : Entry Layout) : (σ.entry e).offset = e.offset := by
  cases e <;> rfl

@[simp] theorem size_entry (e : Entry Layout) : (σ.entry e).size = e.size := by
  cases e <;> rfl

@[simp] theorem finish_entry (e : Entry Layout) : (σ.entry e).finish = e.finish := by
  simp [Entry.finish]

@[simp] theorem isFlag_declaration (d : Declaration) : (σ.declaration d).isFlag = d.isFlag := by
  cases d <;> rfl

theorem headD_map_declaration (ds : List Declaration) (next : Declaration) :
    (ds.map σ.declaration).headD (σ.declaration next) = σ.declaration (ds.headD next) := by
  cases ds <;> rfl

theorem instances_repetition (r : Repetition) :
    (σ.repetition r).instances space = (r.instances space).map σ.field := by
  rw [Repetition.instances, Repetition.instances, List.map_map]
  exact List.map_congr_left fun index _ => (σ.instanceAt_field space r index).symm

/-! ## What placement looks at -/

theorem checkDeclared_placement (s : Placement) (field : String) (declared : Option Nat)
    (place : Nat) :
    (σ.placement s).checkDeclared field declared place = s.checkDeclared field declared place := by
  have hcovering (byte : Nat) :
      (σ.placement s).covering? byte = (s.covering? byte).map σ.entry := by
    simp only [covering?, placement, List.find?_map, Function.comp_def, offset_entry,
      finish_entry]
  cases declared with
  | none => rfl
  | some d =>
      simp only [checkDeclared, hcovering]
      cases s.covering? d with
      | none => rfl
      | some e => simp

theorem push_placement (s : Placement) (e : Entry Layout) :
    (σ.placement s).push (σ.entry e) = σ.placement <$> s.push e := by
  have hfirst : (σ.placement s).entries.find? (fun first => first.name == (σ.entry e).name) =
      (s.entries.find? fun first => first.name == e.name).map σ.entry := by
    simp only [placement, List.find?_map, Function.comp_def, name_entry]
  rw [push, hfirst, push]
  cases s.entries.find? fun first => first.name == e.name with
  | none => rfl
  | some first => simp

theorem checkElements_field (f : Field Layout) (offset : Nat) :
    checkElements (σ.field f) offset = checkElements f offset := by
  rw [checkElements, σ.dimensions_field, σ.size_field, σ.name_field, checkElements]

theorem footprint?_field (f : Field Layout) :
    (σ.field f).footprint? space = f.footprint? space := by
  rw [Field.footprint?, Field.elements?, σ.dimensions_field, σ.size_field, Field.footprint?,
    Field.elements?]

theorem fieldSize_field (f : Field Layout) (offset : Nat) :
    fieldSize space (σ.field f) offset = fieldSize space f offset := by
  rw [fieldSize, footprint?_field, σ.name_field, fieldSize]

theorem placeField_eq_bind (s : Placement) (f : Field Layout) :
    s.placeField space f = (do
      checkElements f s.cursor
      s.checkDeclared f.name f.offset s.cursor
      let size ← fieldSize space f s.cursor
      let finish ← advance space f.name s.cursor size
      push { s with cursor := finish, faults := scalingFaults f s.cursor ++ s.faults }
        (.field f s.cursor size (boundScaling f))) := by
  unfold placeField boundScaling scalingFaults
  cases scalingOf f <;> rfl

theorem placeField_placement (s : Placement) (f : Field Layout) :
    (σ.placement s).placeField space (σ.field f) = σ.placement <$> s.placeField space f := by
  have hpush (size finish : Nat) :
      push { σ.placement s with
          cursor := finish
          faults := scalingFaults (σ.field f) s.cursor ++ σ.faults s.faults }
          (.field (σ.field f) s.cursor size (boundScaling (σ.field f))) =
        σ.placement <$> push { s with
          cursor := finish
          faults := scalingFaults f s.cursor ++ s.faults }
          (.field f s.cursor size (boundScaling f)) := by
    rw [σ.scalingFaults_field, σ.boundScaling_field]
    exact σ.push_placement
      { s with cursor := finish, faults := scalingFaults f s.cursor ++ s.faults }
      (.field f s.cursor size (boundScaling f))
  simp only [placeField_eq_bind, map_bind, ← hpush]
  have hcursor : (σ.placement s).cursor = s.cursor := rfl
  simp only [hcursor, checkElements_field, checkDeclared_placement, fieldSize_field,
    σ.name_field, σ.offset_field]
  rfl

theorem foldlM_placeField_placement (s : Placement) (fs : List (Field Layout)) :
    (fs.map σ.field).foldlM (placeField space) (σ.placement s) =
      σ.placement <$> fs.foldlM (placeField space) s := by
  induction fs generalizing s with
  | nil => rfl
  | cons f fs ih =>
      rw [List.map_cons, List.foldlM_cons, List.foldlM_cons, placeField_placement, map_bind,
        bind_map_left]
      simp only [ih]

theorem placeFlag_placement (s : Placement) (b : Flag) (next : Declaration) :
    (σ.placement s).placeFlag space options (σ.flag b) (σ.declaration next) =
      σ.placement <$> s.placeFlag space options b next := by
  have hopen : (σ.placement s).open? = s.open? := rfl
  have hcursor : (σ.placement s).cursor = s.cursor := rfl
  have hbit (word : OpenWord) : chooseBit options (σ.flag b) word = chooseBit options b word := by
    rw [chooseBit, σ.bit_flag, σ.name_flag, chooseBit]
  have hpush (offset bit : Nat) :
      (σ.placement s).push (.flag (σ.flag b) offset options.bitWord bit) =
        σ.placement <$> s.push (.flag b offset options.bitWord bit) :=
    σ.push_placement s (.flag b offset options.bitWord bit)
  simp only [placeFlag, hopen, hcursor, checkDeclared_placement, σ.name_flag, σ.offset_flag,
    hbit, hpush, isFlag_declaration, map_bind, bind_map_left]
  refine bind_congr fun _ => bind_congr fun bit => bind_congr fun u => ?_
  split
  · rw [map_bind]
    rfl
  · rfl

theorem placePadding_placement (s : Placement) (n : Nat) :
    (σ.placement s).placePadding space n = σ.placement <$> s.placePadding space n := by
  rw [placePadding, placePadding, map_bind]
  rfl

theorem placeRepetition_placement (s : Placement) (r : Repetition) :
    (σ.placement s).placeRepetition space (σ.repetition r) =
      σ.placement <$> s.placeRepetition space r := by
  have hname : (σ.repetition r).template.name = r.template.name := σ.name_field r.template
  have hcount : (σ.repetition r).count = r.count := rfl
  have hcursor : (σ.placement s).cursor = s.cursor := rfl
  have hsize : (σ.repetition r).size? space = r.size? space :=
    congrArg (· >>= fun bytes => space.mul? bytes r.count) (σ.footprint?_field r.template)
  simp only [placeRepetition, hname, hcount, hcursor, hsize, instances_repetition]
  split
  · rfl
  · cases (r.size? space).bind (space.add? s.cursor) with
    | none => rfl
    | some _ => exact σ.foldlM_placeField_placement s _

theorem alignmentOf_declaration (cursor : Nat) (d : Declaration) :
    alignmentOf options cursor (σ.declaration d) = alignmentOf options cursor d := by
  cases d with
  | field f => simp [declaration, alignmentOf, σ.alignment_field]
  | repetition r => simp [declaration, repetition, alignmentOf, σ.alignment_field]
  | _ => rfl

theorem place_placement (s : Placement) (d next : Declaration) :
    (σ.placement s).place space options (σ.declaration d) (σ.declaration next) =
      σ.placement <$> s.place space options d next := by
  cases d with
  | field f => exact σ.placeField_placement s f
  | flag b => exact σ.placeFlag_placement s b next
  | pad n => exact σ.placePadding_placement s n
  | alignNext =>
      rw [place, declaration, place, alignmentOf_declaration, map_bind]
      simp only [← placePadding_placement]
      rfl
  | repetition r => exact σ.placeRepetition_placement s r
  | void => rfl

theorem placeAll_placement (s : Placement) (ds : List Declaration) :
    (σ.placement s).placeAll space options (ds.map σ.declaration) =
      σ.placement <$> s.placeAll space options ds := by
  induction ds generalizing s with
  | nil => rfl
  | cons d ds ih =>
      have hnext : (ds.map σ.declaration).headD .void = σ.declaration (ds.headD .void) :=
        σ.headD_map_declaration ds .void
      rw [List.map_cons, placeAll, placeAll, hnext, place_placement, map_bind, bind_map_left]
      simp only [ih]

/-! ## Layouts -/

theorem layout_ofPlacement (options : Options) (name : String) (s : Placement) :
    σ.layout (Layout.ofPlacement options name s) =
      Layout.ofPlacement options name (σ.placement s) := by
  simp [layout, Layout.ofPlacement, placement]

theorem get?_layout (l : Layout) (name : String) :
    (σ.layout l).get? name = (l.get? name).map σ.entry := by
  simp only [Layout.get?, layout, List.find?_map, Function.comp_def, name_entry]

end Recasting

/-! ## Relabellings -/

/-- A recasting that keeps the types of fields, and with them their sizes and alignments. -/
structure Relabelling extends Recasting where
  content_field : ∀ f, (field f).content = f.content
  size_field := fun f => congrArg Content.size (content_field f)
  alignment_field := fun f => congrArg Content.alignment (content_field f)

end StructureLayout
