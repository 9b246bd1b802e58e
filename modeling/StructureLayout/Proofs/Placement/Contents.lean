import StructureLayout.Proofs.Placement.Run

/-!
# Contents of a layout

The entries of a layout hold the declared fields and flags in order, with every repeated field
replaced by its instances and without the directives.  The autoscale faults of a placement
are those of its entries.
-/

namespace StructureLayout

/-- The fields and flags that a declaration places, each as a declaration of its own. -/
def Declaration.contents (space : AddressSpace) : Declaration → List Declaration
  | field f => [field f]
  | flag b => [flag b]
  | repetition r => (r.instances space).map field
  | pad _ | alignNext | void => []

def Entry.scalingFaults : Entry Layout → List FieldFault
  | field f offset _ _ => Placement.scalingFaults f offset
  | flag _ _ _ _ => []

/-- Only the integers are scaled. -/
theorem Autoscale.storage_of_ofSpec {spec : String} {p : Primitive} {a : Autoscale}
    (h : ofSpec spec p = .ok a) : p = .integer a.storage := by
  unfold ofSpec at h
  cases hread : Spec.read? spec with
  | none => simp [hread] at h
  | some numbers =>
      simp only [hread, validate] at h
      split_ifs at h
      cases p with
      | float => cases h
      | integer t =>
          cases h
          rfl

namespace Placement

variable {space : AddressSpace} {options : Options} {s t : Placement}

/-- What has been placed, oldest first. -/
def contents (s : Placement) : List Declaration := s.entries.reverse.map Entry.declaration

theorem contents_withField (s : Placement) (f : Field Layout) :
    (s.withField f).contents = s.contents ++ [.field f] := by
  rw [contents, withField, List.reverse_cons, List.map_append, contents]
  rfl

theorem contents_withFlag (s : Placement) (b : Flag) (next : Declaration) :
    (s.withFlag options b next).contents = s.contents ++ [.flag b] := by
  rw [contents, withFlag, List.reverse_cons, List.map_append, contents]
  rfl

theorem contents_withFields (s : Placement) (fs : List (Field Layout)) :
    (s.withFields fs).contents = s.contents ++ fs.map .field := by
  induction fs generalizing s with
  | nil => simp
  | cons f fs ih =>
      rw [withFields_cons, ih, contents_withField, List.append_assoc]
      rfl

theorem Step.contents {d next : Declaration} (h : Step space options s d next t) :
    t.contents = s.contents ++ d.contents space := by
  cases h with
  | field _ => exact contents_withField s _
  | flag _ => exact contents_withFlag s _ next
  | pad _ => exact (List.append_nil _).symm
  | alignNext _ _ => exact (List.append_nil _).symm
  | repetition _ _ => exact contents_withFields s _
  | void => exact (List.append_nil _).symm

theorem contents_of_placeBefore {next : Declaration} {ds : List Declaration}
    (h : s.placeBefore space options next ds = .ok t) :
    t.contents = s.contents ++ ds.flatMap (Declaration.contents space) := by
  induction ds generalizing s with
  | nil =>
      cases h
      exact (List.append_nil _).symm
  | cons d ds ih =>
      obtain ⟨u, hstep, hrest⟩ := placeBefore_cons_eq_ok_iff.mp h
      rw [ih hrest, hstep.contents, List.flatMap_cons, List.append_assoc]

/-- What has been placed comes from one of the declarations. -/
theorem exists_declaration_of_entry {next : Declaration} {ds : List Declaration}
    (h : placeBefore space options next {} ds = .ok s) {e : Entry Layout} (he : e ∈ s.entries) :
    ∃ d ∈ ds, e.declaration ∈ d.contents space := by
  have hmem : e.declaration ∈ s.contents := List.mem_map_of_mem (List.mem_reverse.mpr he)
  rw [contents_of_placeBefore h] at hmem
  exact List.mem_flatMap.mp hmem

/-- The faults are those of the entries, newest first as these. -/
def FaultsListed (s : Placement) : Prop := s.faults = s.entries.flatMap Entry.scalingFaults

theorem Step.faultsListed {d next : Declaration} (h : Step space options s d next t)
    (hs : s.FaultsListed) : t.FaultsListed := by
  refine h.invariant ?_ ?_ ?_ hs
  · intro u f hu _
    exact congrArg (Placement.scalingFaults f u.cursor ++ ·) hu
  · intro u b e hu _
    exact hu
  · intro u n hu
    exact hu

theorem faultsListed_of_placeBefore {next : Declaration} {ds : List Declaration}
    (h : s.placeBefore space options next ds = .ok t) (hs : s.FaultsListed) :
    t.FaultsListed := by
  refine placeBefore_invariant (P := fun u _ => u.FaultsListed) ?_ hs h
  intro u v d e hu hstep
  exact hstep.faultsListed hu

/-- A fault is not taken back. -/
theorem FaultsListed.eq_nil_of_suffix (hs : s.FaultsListed) (ht : t.FaultsListed)
    (h : s.entries <:+ t.entries) (hnone : t.faults = []) : s.faults = [] := by
  obtain ⟨later, hlater⟩ := h
  rw [ht, ← hlater, List.flatMap_append, List.append_eq_nil_iff] at hnone
  exact hs.trans hnone.2

/-! ## Autoscales of entries -/

/-- An autoscale stores the integers of the field that it is specified for. -/
theorem storage_of_boundScaling {f : Field Layout} {a : Autoscale}
    (h : boundScaling f = some a) : f.content = .primitive (.integer a.storage) := by
  unfold boundScaling scalingOf at h
  cases hspec : f.autoscale with
  | none => simp [hspec] at h
  | some spec =>
      cases hcontent : f.content with
      | nested s => simp [hspec, hcontent] at h
      | primitive p =>
          cases hparsed : Autoscale.ofSpec spec p with
          | error fault => simp [hspec, hcontent, hparsed, Except.map] at h
          | ok b =>
              obtain rfl : b = a := by simpa [hspec, hcontent, hparsed, Except.map] using h
              rw [Autoscale.storage_of_ofSpec hparsed]

def ScalingsBound (s : Placement) : Prop :=
  ∀ f offset size scaling, .field f offset size scaling ∈ s.entries → scaling = boundScaling f

theorem Step.scalingsBound {d next : Declaration} (h : Step space options s d next t)
    (hs : s.ScalingsBound) : t.ScalingsBound := by
  refine h.invariant ?_ ?_ ?_ hs
  · intro u f hu _ g offset size scaling hg
    rcases List.mem_cons.mp hg with heq | hg
    · cases heq
      rfl
    · exact hu g offset size scaling hg
  · intro u b e hu _ g offset size scaling hg
    rcases List.mem_cons.mp hg with heq | hg
    · cases heq
    · exact hu g offset size scaling hg
  · intro u n hu
    exact hu

theorem scalingsBound_of_placeBefore {next : Declaration} {ds : List Declaration}
    (h : s.placeBefore space options next ds = .ok t) (hs : s.ScalingsBound) :
    t.ScalingsBound := by
  refine placeBefore_invariant (P := fun u _ => u.ScalingsBound) ?_ hs h
  intro u v d e hu hstep
  exact hstep.scalingsBound hu

end Placement

namespace Layout

theorem storage_of_compileIn {space : AddressSpace} {options : Options} {name : String}
    {ds : List Declaration} {l : Layout} (h : compileIn space options name ds = .ok l)
    {f : Field Layout} {offset size : Nat} {a : Autoscale}
    (he : .field f offset size (some a) ∈ l.entries) :
    f.content = .primitive (.integer a.storage) := by
  obtain ⟨s, hrun, -, rfl⟩ := compileIn_eq_ok_iff.mp h
  have hbound : s.ScalingsBound :=
    Placement.scalingsBound_of_placeBefore hrun fun _ _ _ _ hmem => absurd hmem List.not_mem_nil
  exact Placement.storage_of_boundScaling (hbound f offset size _ (List.mem_reverse.mp he)).symm

theorem contents_of_compileIn {space : AddressSpace} {options : Options} {name : String}
    {ds : List Declaration} {l : Layout} (h : compileIn space options name ds = .ok l) :
    l.entries.map Entry.declaration = ds.flatMap (Declaration.contents space) := by
  obtain ⟨s, hrun, -, rfl⟩ := compileIn_eq_ok_iff.mp h
  exact (Placement.contents_of_placeBefore hrun).trans (List.nil_append _)

end Layout

end StructureLayout
