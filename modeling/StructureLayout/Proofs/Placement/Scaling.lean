import StructureLayout.Proofs.Placement.Contents
import StructureLayout.Proofs.Placement.Recasting

/-!
# Autoscale faults

Autoscale specifications decide on no place.  A sequence is refused by placement as it is
without them, and otherwise every field with a specification that is not accepted is reported,
at the offset that it has without one.
-/

namespace StructureLayout

def Field.unscaled {σ : Type} (f : Field σ) : Field σ := { f with autoscale := none }

/-- No field keeps an autoscale specification. -/
def Relabelling.unscaled : Relabelling where
  field := Field.unscaled
  flag := id
  scaling _ := none
  faults _ := []
  name_field _ := rfl
  content_field _ := rfl
  dimensions_field _ := rfl
  offset_field _ := rfl
  instanceAt_field _ _ _ := rfl
  boundScaling_field _ := rfl
  scalingFaults_field _ _ _ := rfl
  name_flag _ := rfl
  bit_flag _ := rfl
  offset_flag _ := rfl

/-- Why the specification of a field is not accepted.  A structure can have none. -/
def Field.refusal? (f : Field Layout) : Option Autoscale.Fault :=
  match f.autoscale, f.content with
  | none, _ => none
  | some spec, .primitive p =>
    match Autoscale.ofSpec spec p with
    | .ok _ => none
    | .error fault => some fault
  | some _, .nested s => some (.nonIntegerStorage s.name)

def Declaration.refusal? : Declaration → Option (String × Autoscale.Fault)
  | field f => f.refusal?.map (f.name, ·)
  | _ => none

/-- The fields whose specifications are not accepted, in order and with every instance of a
repeated one. -/
def refusals (ds : List Declaration) : List (String × Autoscale.Fault) :=
  (ds.flatMap (Declaration.contents .wide)).filterMap Declaration.refusal?

theorem Placement.scalingFaults_eq (f : Field Layout) (offset : Nat) :
    scalingFaults f offset = (f.refusal?.map fun fault => ⟨f.name, offset, fault⟩).toList := by
  unfold scalingFaults scalingOf Field.refusal?
  cases f.autoscale with
  | none => rfl
  | some spec =>
      cases f.content with
      | nested s => rfl
      | primitive p =>
          dsimp only
          cases Autoscale.ofSpec spec p <;> rfl

namespace Entry

theorem mem_scalingFaults {e : Entry Layout} {x : FieldFault} (h : x ∈ e.scalingFaults) :
    x.field = e.name ∧ x.offset = e.offset := by
  cases e with
  | flag _ _ _ _ => cases h
  | field f offset size scaling =>
      rw [scalingFaults, Placement.scalingFaults_eq] at h
      obtain ⟨fault, -, rfl⟩ := Option.map_eq_some_iff.mp (Option.mem_toList.mp h)
      exact ⟨rfl, rfl⟩

/-- An entry has one fault at most. -/
theorem map_reverse_scalingFaults (e : Entry Layout) :
    e.scalingFaults.reverse.map (fun x => (x.field, x.fault)) =
      e.declaration.refusal?.toList := by
  cases e with
  | flag _ _ _ _ => rfl
  | field f offset size scaling =>
      rw [scalingFaults, Placement.scalingFaults_eq]
      cases hrefusal : f.refusal? with
      | none => simp [declaration, Declaration.refusal?, hrefusal]
      | some fault => simp [declaration, Declaration.refusal?, hrefusal]

end Entry

namespace Placement

variable {options : Options} {s : Placement} {ds : List Declaration}

theorem refusals_of_placeAll (h : placeAll .wide options {} ds = .ok s) :
    s.faults.reverse.map (fun x => (x.field, x.fault)) = refusals ds := by
  rw [placeAll_eq_placeBefore] at h
  have hfaults : s.faults = s.entries.flatMap Entry.scalingFaults :=
    faultsListed_of_placeBefore h rfl
  have hcontents : s.contents = ds.flatMap (Declaration.contents .wide) :=
    contents_of_placeBefore h
  rw [refusals, ← hcontents, contents, hfaults, List.reverse_flatMap, List.map_flatMap,
    List.filterMap_map, List.filterMap_eq_flatMap_toList]
  exact List.flatMap_congr fun e _ => e.map_reverse_scalingFaults

theorem placeAll_unscaled (options : Options) (ds : List Declaration) :
    placeAll .wide options {} (ds.map Relabelling.unscaled.declaration) =
      Relabelling.unscaled.placement <$> placeAll .wide options {} ds :=
  Relabelling.unscaled.placeAll_placement {} ds

end Placement

namespace Layout

variable {options : Options} {name : String} {ds : List Declaration} {s : Placement}

theorem compileIn_of_placeAll {space : AddressSpace}
    (h : Placement.placeAll space options {} ds = .ok s) :
    compileIn space options name ds = if s.faults = [] then .ok (ofPlacement options name s)
      else .error (.autoscale name s.faults.reverse) := by
  rw [compileIn, h]
  rfl

theorem compile_of_placeAll (h : Placement.placeAll .wide options {} ds = .ok s) :
    compile options name ds = if s.faults = [] then .ok (ofPlacement options name s)
      else .error (.autoscale name s.faults.reverse) :=
  compileIn_of_placeAll h

theorem exists_run_of_unscaled {l₀ : Layout}
    (h : compile options name (ds.map Relabelling.unscaled.declaration) = .ok l₀) :
    ∃ s, Placement.placeAll .wide options {} ds = .ok s ∧
      Relabelling.unscaled.layout (ofPlacement options name s) = l₀ := by
  obtain ⟨s₀, hrun, -, rfl⟩ := compileIn_eq_ok_iff.mp h
  rw [← Placement.placeAll_eq_placeBefore, Placement.placeAll_unscaled] at hrun
  cases hs : Placement.placeAll .wide options {} ds with
  | error e =>
      rw [hs] at hrun
      cases hrun
  | ok s =>
      rw [hs] at hrun
      cases hrun
      exact ⟨s, rfl, Relabelling.unscaled.layout_ofPlacement options name s⟩

/-- A fault names the field and the offset of an entry. -/
theorem offset_of_fault (h : Placement.placeAll .wide options {} ds = .ok s) {x : FieldFault}
    (hx : x ∈ s.faults) :
    ((ofPlacement options name s).get? x.field).map Entry.offset = some x.offset := by
  rw [Placement.placeAll_eq_placeBefore] at h
  have hfaults : s.faults = s.entries.flatMap Entry.scalingFaults :=
    Placement.faultsListed_of_placeBefore h rfl
  rw [hfaults] at hx
  obtain ⟨e, he, hx⟩ := List.mem_flatMap.mp hx
  obtain ⟨hfield, hoffset⟩ := Entry.mem_scalingFaults hx
  have hget : (ofPlacement options name s).get? x.field = some e :=
    (get?_ofPlacement_eq_some_iff (distinctNames_of_run h)).mpr ⟨he, hfield.symm⟩
  rw [hget, Option.map_some, hoffset]

/-- Without its autoscale specifications a sequence is refused by placement as it is with
them.  If it then has a layout, so it has with them when all of them are accepted, and the same
one apart from the scaling; else exactly the refused fields are reported, in order. -/
theorem compile_of_unscaled (options : Options) (name : String) (ds : List Declaration) :
    (∀ e, compile options name ds = .error (.placement name e) ↔
      compile options name (ds.map Relabelling.unscaled.declaration) =
        .error (.placement name e)) ∧
    ∀ l₀, compile options name (ds.map Relabelling.unscaled.declaration) = .ok l₀ →
      (refusals ds = [] →
        ∃ l, compile options name ds = .ok l ∧ Relabelling.unscaled.layout l = l₀) ∧
      (refusals ds ≠ [] →
        ∃ faults, compile options name ds = .error (.autoscale name faults) ∧
          faults.map (fun x => (x.field, x.fault)) = refusals ds ∧
          ∀ x ∈ faults, (l₀.get? x.field).map Entry.offset = some x.offset) := by
  constructor
  · intro e
    rw [compile_eq_placement_iff, compile_eq_placement_iff, Placement.placeAll_unscaled]
    cases Placement.placeAll .wide options {} ds <;> simp
  · intro l₀ h₀
    obtain ⟨s, hrun, rfl⟩ := exists_run_of_unscaled h₀
    have hrefusals := Placement.refusals_of_placeAll hrun
    have hnone : s.faults = [] ↔ refusals ds = [] := by simp [← hrefusals]
    rw [compile_of_placeAll hrun]
    constructor
    · intro hnil
      rw [if_pos (hnone.mpr hnil)]
      exact ⟨_, rfl, rfl⟩
    · intro hne
      rw [if_neg (mt hnone.mp hne)]
      refine ⟨s.faults.reverse, rfl, hrefusals, ?_⟩
      intro x hx
      rw [Recasting.get?_layout, Option.map_map]
      simpa [Function.comp_def] using offset_of_fault hrun (List.mem_reverse.mp hx)

/-- A scaled pair of counts, two instances with a scale of zero and a scaled float. -/
def scaledSample : List Declaration :=
  [.field
      { name := "speed", content := .primitive (.integer ⟨false, .two⟩), dimensions := [2]
        autoscale := some "1/2, 3" },
    .repetition
      ⟨{ name := "gain", content := .primitive (.integer ⟨true, .four⟩), autoscale := some "0" },
        2⟩,
    .flag { name := "on" },
    .field { name := "probe", content := .primitive .float, autoscale := some "1" }]

theorem compile_scaledSample :
    (∃ l₀, compile {} "sample" (scaledSample.map Relabelling.unscaled.declaration) = .ok l₀ ∧
      refusals scaledSample =
        [("gain0", .zeroScale), ("gain1", .zeroScale), ("probe", .nonIntegerStorage "float")] ∧
      ∃ faults, compile {} "sample" scaledSample = .error (.autoscale "sample" faults) ∧
        faults.map (fun x => (x.field, x.fault)) = refusals scaledSample ∧
        ∀ x ∈ faults, (l₀.get? x.field).map Entry.offset = some x.offset) ∧
    ∃ l₀ l,
      compile {} "sample" ((scaledSample.take 1).map Relabelling.unscaled.declaration) = .ok l₀ ∧
        refusals (scaledSample.take 1) = [] ∧
        compile {} "sample" (scaledSample.take 1) = .ok l ∧ Relabelling.unscaled.layout l = l₀ := by
  constructor
  · obtain ⟨l₀, h₀⟩ : ∃ l₀,
        compile {} "sample" (scaledSample.map Relabelling.unscaled.declaration) = .ok l₀ :=
      ⟨_, rfl⟩
    have hrefusals : refusals scaledSample =
        [("gain0", .zeroScale), ("gain1", .zeroScale),
          ("probe", .nonIntegerStorage "float")] := by
      decide +kernel
    have hne : refusals scaledSample ≠ [] := by simp [hrefusals]
    exact ⟨l₀, h₀, hrefusals, ((compile_of_unscaled {} "sample" scaledSample).2 l₀ h₀).2 hne⟩
  · obtain ⟨l₀, h₀⟩ : ∃ l₀,
        compile {} "sample" ((scaledSample.take 1).map Relabelling.unscaled.declaration) =
          .ok l₀ :=
      ⟨_, rfl⟩
    have hnone : refusals (scaledSample.take 1) = [] := by decide +kernel
    obtain ⟨l, hl, heq⟩ :=
      ((compile_of_unscaled {} "sample" (scaledSample.take 1)).2 l₀ h₀).1 hnone
    exact ⟨l₀, l, h₀, hnone, hl, heq⟩

end Layout

end StructureLayout
