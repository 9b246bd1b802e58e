import StructureLayout.Proofs.Autoscale.Acceptance
import StructureLayout.Proofs.Decimal.Shortest
import StructureLayout.Proofs.Placement.Scaling

/-!
# Scales given as numbers

A scale and a bias are kept as a text.  The text is read as the same two numbers, so that a field
is scaled, or refused, as the numbers are.
-/

namespace StructureLayout

namespace Spec

theorem number_text (x : Binary64) : number x.text.toList x :=
  Binary.read?_text (by decide) (by decide) x

/-- The specification of two numbers is read as these. -/
theorem read?_write (x y : Binary64) : read? (write x y) = some (x, y) := by
  have hscale : scale lenient x.text.toList x :=
    Text.Form.enclosed_of_nothing ⟨nofun, nofun⟩ (Or.inl (Or.inl (number_text x)))
  have hbias : bias (' ' :: y.text.toList) y :=
    ⟨[' '], y.text.toList, [], ⟨List.forall_mem_singleton.mpr rfl, nofun⟩, number_text y,
      (List.append_nil _).symm⟩
  have htext : (write x y).toList = x.text.toList ++ ',' :: ' ' :: y.text.toList := by
    rw [write, String.toList_append, String.toList_append, List.append_assoc]
    rfl
  rw [read?_eq_some_iff, htext]
  exact Text.Form.enclosed_of_nothing (Or.inl ⟨rfl, rfl⟩)
    (Or.inr ⟨x.text.toList, ' ' :: y.text.toList, x, y, hscale, hbias, rfl, rfl⟩)

end Spec

theorem Autoscale.ofSpec_write (scale bias : Binary64) (p : Primitive) :
    ofSpec (Spec.write scale bias) p = validate scale bias p := by
  rw [ofSpec, Spec.read?_write]

/-- The specification is never what is wrong with two numbers. -/
theorem Autoscale.validate_ne_malformed (scale bias : Binary64) (p : Primitive) (spec : String) :
    validate scale bias p ≠ .error (.malformed spec) := by
  intro h
  rw [validate] at h
  split_ifs at h
  all_goals cases p <;> cases h

namespace Placement

variable {scale bias : Binary64} {f : Field Layout} {p : Primitive}

theorem scalingOf_withScale (hcontent : f.content = .primitive p) :
    scalingOf (f.withScale scale bias) = (Autoscale.validate scale bias p).map some := by
  rw [← Autoscale.ofSpec_write, scalingOf]
  simp only [Field.withScale, hcontent]

theorem boundScaling_withScale (hcontent : f.content = .primitive p) {a : Autoscale}
    (h : Autoscale.validate scale bias p = .ok a) :
    boundScaling (f.withScale scale bias) = some a := by
  rw [boundScaling, scalingOf_withScale hcontent, h]
  rfl

theorem scalingFaults_withScale (hcontent : f.content = .primitive p) (offset : Nat) :
    scalingFaults (f.withScale scale bias) offset =
      match Autoscale.validate scale bias p with
      | .ok _ => []
      | .error fault => [⟨f.name, offset, fault⟩] := by
  rw [scalingFaults, scalingOf_withScale hcontent]
  cases Autoscale.validate scale bias p <;> rfl

theorem mem_scalingFaults_withScale (hcontent : f.content = .primitive p) {offset : Nat}
    {x : FieldFault} : x ∈ scalingFaults (f.withScale scale bias) offset ↔
      Autoscale.validate scale bias p = .error x.fault ∧ x.field = f.name ∧ x.offset = offset := by
  rw [scalingFaults_withScale hcontent]
  cases Autoscale.validate scale bias p with
  | ok a => exact iff_of_false List.not_mem_nil fun h => nomatch h.1
  | error fault =>
      obtain ⟨field, place, reported⟩ := x
      simp only [List.mem_singleton, FieldFault.mk.injEq, Except.error.injEq]
      tauto

end Placement

namespace Layout

variable {scale bias : Binary64} {f : Field Layout} {p : Primitive} {space : AddressSpace}
  {options : Options} {name : String} {ds : List Declaration} {s : Placement}

/-- What the scale and the bias of a placed field come to once all is placed. -/
theorem scaling_of_run (hcontent : f.content = .primitive p)
    (hmem : .field (f.withScale scale bias) ∈ ds.flatMap (Declaration.contents space))
    (hrun : Placement.placeBefore space options .void {} ds = .ok s) :
    ∃ offset size, .field (f.withScale scale bias) offset size
        (Placement.boundScaling (f.withScale scale bias)) ∈ s.entries ∧
      ∀ x, x ∈ s.faults ∧ x.field = f.name ↔
        Autoscale.validate scale bias p = .error x.fault ∧ x.field = f.name ∧
          x.offset = offset := by
  have hcontents : s.contents = ds.flatMap (Declaration.contents space) :=
    Placement.contents_of_placeBefore hrun
  have hbound : s.ScalingsBound :=
    Placement.scalingsBound_of_placeBefore hrun fun _ _ _ _ hmem => absurd hmem List.not_mem_nil
  have hfaults : s.faults = s.entries.flatMap Entry.scalingFaults :=
    Placement.faultsListed_of_placeBefore hrun rfl
  rw [← hcontents, Placement.contents] at hmem
  obtain ⟨e, he, hdeclared⟩ := List.mem_map.mp hmem
  rw [List.mem_reverse] at he
  cases e with
  | flag _ _ _ _ => cases hdeclared
  | field g offset size scaling =>
      obtain rfl : g = f.withScale scale bias := Declaration.field.inj hdeclared
      obtain rfl := hbound _ _ _ _ he
      refine ⟨offset, size, he, fun x => ?_⟩
      rw [← Placement.mem_scalingFaults_withScale hcontent, hfaults]
      constructor
      · rintro ⟨hx, hfield⟩
        obtain ⟨e, he', hx⟩ := List.mem_flatMap.mp hx
        have hname : e.name = f.name := (Entry.mem_scalingFaults hx).1.symm.trans hfield
        obtain rfl := List.inj_on_of_nodup_map (distinctNames_of_run hrun) he' he hname
        exact hx
      · intro hx
        exact ⟨List.mem_flatMap.mpr ⟨_, he, hx⟩,
          ((Placement.mem_scalingFaults_withScale hcontent).mp hx).2.1⟩

/-- A field that can be placed alone is scaled by its numbers or refused for them. -/
theorem compileIn_singleton_withScale (hcontent : f.content = .primitive p)
    (hdims : 0 ∉ f.dimensions) (hdeclared : ∀ o ∈ f.offset, o = 0)
    (hfits : space.fits f.bytes = true) (options : Options) (name : String) :
    compileIn space options name [.field (f.withScale scale bias)] =
      match Autoscale.validate scale bias p with
      | .ok a => .ok ⟨name, [.field (f.withScale scale bias) 0 f.bytes (some a)], f.bytes, options⟩
      | .error fault => .error (.autoscale name [⟨f.name, 0, fault⟩]) := by
  have hsize : f.content.size ≠ 0 := by
    rw [hcontent]
    exact p.size_pos.ne'
  have hcursor : ({} : Placement).cursor + f.bytes = f.bytes := Nat.zero_add _
  have hadmits : ({} : Placement).Admits space (f.withScale scale bias) :=
    ⟨hdims, hsize, hdeclared, fun _ he => absurd he List.not_mem_nil, hcursor.symm ▸ hfits⟩
  have hrun : Placement.placeAll space options {} [.field (f.withScale scale bias)] =
      .ok (Placement.withField {} (f.withScale scale bias)) := by
    rw [Placement.placeAll, Placement.place, Placement.placeField_eq_ok_iff.mpr ⟨hadmits, rfl⟩]
    rfl
  have hfaults : (Placement.withField {} (f.withScale scale bias)).faults = _ :=
    (List.append_nil _).trans (Placement.scalingFaults_withScale hcontent 0)
  rw [compileIn_of_placeAll hrun, hfaults]
  cases hvalidate : Autoscale.validate scale bias p with
  | ok a =>
      have hlayout : ofPlacement options name (Placement.withField {} (f.withScale scale bias)) =
          ⟨name, [.field (f.withScale scale bias) 0 f.bytes (some a)], f.bytes, options⟩ := by
        rw [ofPlacement, Placement.withField,
          Placement.boundScaling_withScale hcontent hvalidate, mk.injEq]
        exact ⟨rfl, rfl, hcursor, rfl⟩
      exact (if_pos rfl).trans (congrArg Except.ok hlayout)
  | error fault => exact if_neg (List.cons_ne_nil _ _)

theorem scaling_of_compileIn {l : Layout} (hcontent : f.content = .primitive p)
    (hmem : .field (f.withScale scale bias) ∈ ds.flatMap (Declaration.contents space))
    (h : compileIn space options name ds = .ok l) :
    ∃ offset size a, Autoscale.validate scale bias p = .ok a ∧
      .field (f.withScale scale bias) offset size (some a) ∈ l.entries := by
  obtain ⟨s, hrun, hnone, rfl⟩ := compileIn_eq_ok_iff.mp h
  obtain ⟨offset, size, he, hfaults⟩ := scaling_of_run hcontent hmem hrun
  cases hvalidate : Autoscale.validate scale bias p with
  | error fault =>
      have hx := ((hfaults ⟨f.name, offset, fault⟩).mpr ⟨hvalidate, rfl, rfl⟩).1
      rw [hnone] at hx
      cases hx
  | ok a =>
      rw [Placement.boundScaling_withScale hcontent hvalidate] at he
      exact ⟨offset, size, a, rfl, List.mem_reverse.mpr he⟩

/-- What is reported under the name of the field is what is wrong with its numbers. -/
theorem fault_of_compileIn {faults : List FieldFault} (hcontent : f.content = .primitive p)
    (hmem : .field (f.withScale scale bias) ∈ ds.flatMap (Declaration.contents space))
    (h : compileIn space options name ds = .error (.autoscale name faults)) :
    ∃ offset, ∀ x, x ∈ faults ∧ x.field = f.name ↔
      Autoscale.validate scale bias p = .error x.fault ∧ x.field = f.name ∧ x.offset = offset := by
  cases hrun : Placement.placeAll space options {} ds with
  | error e =>
      rw [compileIn, hrun] at h
      cases h
  | ok s =>
      rw [compileIn_of_placeAll hrun] at h
      rw [Placement.placeAll_eq_placeBefore] at hrun
      obtain ⟨offset, -, -, hfaults⟩ := scaling_of_run hcontent hmem hrun
      split at h
      · cases h
      · obtain rfl : s.faults.reverse = faults := (LayoutError.autoscale.inj (Except.error.inj h)).2
        exact ⟨offset, fun x => by rw [List.mem_reverse, hfaults]⟩

/-- A field given two numbers has them as its scale and bias.  In every structure it is scaled as
the numbers are, or reported with what is wrong with them, and never for its specification. -/
theorem compileIn_withScale (scale bias : Binary64) (f : Field Layout) :
    (∀ d : Declaration, d.field? = some (f.withScale scale bias) →
      d.scaleAndBias? = some (scale, bias)) ∧
    ∀ p, f.content = .primitive p →
      (∀ space : AddressSpace, 0 ∉ f.dimensions → (∀ o ∈ f.offset, o = 0) →
        space.fits f.bytes = true → ∀ options name,
          compileIn space options name [.field (f.withScale scale bias)] =
            match Autoscale.validate scale bias p with
            | .ok a =>
              .ok ⟨name, [.field (f.withScale scale bias) 0 f.bytes (some a)], f.bytes, options⟩
            | .error fault => .error (.autoscale name [⟨f.name, 0, fault⟩])) ∧
      ∀ space options name ds,
        .field (f.withScale scale bias) ∈ ds.flatMap (Declaration.contents space) →
        (∀ l, compileIn space options name ds = .ok l →
          ∃ offset size a, Autoscale.validate scale bias p = .ok a ∧
            .field (f.withScale scale bias) offset size (some a) ∈ l.entries) ∧
        ∀ faults, compileIn space options name ds = .error (.autoscale name faults) →
          (∀ fault, Autoscale.validate scale bias p = .error fault →
            ∃ offset, ⟨f.name, offset, fault⟩ ∈ faults) ∧
          ∀ x ∈ faults, x.field = f.name →
            Autoscale.validate scale bias p = .error x.fault ∧
              ∀ spec, x.fault ≠ .malformed spec := by
  refine ⟨fun d hd => ?_, fun p hcontent => ⟨fun space hdims hdeclared hfits options name =>
    compileIn_singleton_withScale hcontent hdims hdeclared hfits options name,
    fun space options name ds hmem => ⟨fun l h => scaling_of_compileIn hcontent hmem h,
      fun faults h => ?_⟩⟩⟩
  · have hspec : d.autoscale? = some (Spec.write scale bias) := by
      rw [Declaration.autoscale?, hd]
      rfl
    rw [Declaration.scaleAndBias?, hspec, Option.bind_some, Spec.read?_write]
  · obtain ⟨offset, hfaults⟩ := fault_of_compileIn hcontent hmem h
    constructor
    · intro fault hfault
      exact ⟨offset, ((hfaults ⟨f.name, offset, fault⟩).mpr ⟨hfault, rfl, rfl⟩).1⟩
    · intro x hx hfield
      have hfault := ((hfaults x).mp ⟨hx, hfield⟩).1
      refine ⟨hfault, fun spec hspec => ?_⟩
      rw [hspec] at hfault
      exact Autoscale.validate_ne_malformed scale bias p spec hfault

/-- Two temperatures in tenths of a degree above forty below zero. -/
def temperature : Field Layout :=
  { name := "temperature", content := .primitive (.integer ⟨false, .two⟩), dimensions := [2] }

theorem compile_temperature :
    (Declaration.field (temperature.withScale (.ofRat 10) (.ofRat (-40)))).scaleAndBias? =
        some (.ofRat 10, .ofRat (-40)) ∧
      (∃ l offset size a,
        compile {} "s" [.field (temperature.withScale (.ofRat 10) (.ofRat (-40)))] = .ok l ∧
          a.scale = .ofRat 10 ∧ a.bias = .ofRat (-40) ∧
          .field (temperature.withScale (.ofRat 10) (.ofRat (-40))) offset size (some a) ∈
            l.entries) ∧
      ∃ faults, compile {} "s" [.field (temperature.withScale (.zero true) .nan)] =
          .error (.autoscale "s" faults) ∧
        (∃ offset, ⟨"temperature", offset, .zeroScale⟩ ∈ faults) ∧
        ∀ x ∈ faults, x.field = "temperature" → ∀ spec, x.fault ≠ .malformed spec := by
  obtain ⟨hpair, hcompile⟩ := compileIn_withScale (.ofRat 10) (.ofRat (-40)) temperature
  obtain ⟨-, hrefused⟩ := compileIn_withScale (.zero true) .nan temperature
  obtain ⟨halone, hwithin⟩ := hcompile _ rfl
  obtain ⟨halone', hwithin'⟩ := hrefused _ rfl
  have hvalid : Autoscale.validate (.ofRat 10) (.ofRat (-40)) (.integer ⟨false, .two⟩) =
      .ok ⟨.ofRat 10, .ofRat (-40), ⟨false, .two⟩, by decide +kernel, by decide +kernel,
        by decide +kernel⟩ := by
    decide +kernel
  have hzero : Autoscale.validate (.zero true) .nan (.integer ⟨false, .two⟩) =
      .error .zeroScale := by
    decide +kernel
  have hok := halone .wide (by decide) nofun rfl {} "s"
  have hfault := halone' .wide (by decide) nofun rfl {} "s"
  rw [hvalid] at hok
  rw [hzero] at hfault
  obtain ⟨offset, size, a, ha, hmem⟩ := (hwithin .wide {} "s" _ List.mem_cons_self).1 _ hok
  obtain rfl := Except.ok.inj (hvalid.symm.trans ha)
  obtain ⟨hlisted, hnames⟩ := (hwithin' .wide {} "s" _ List.mem_cons_self).2 _ hfault
  exact ⟨hpair _ rfl, ⟨_, offset, size, _, hok, rfl, rfl, hmem⟩, _, hfault, hlisted _ hzero,
    fun x hx hfield => (hnames x hx hfield).2⟩

end Layout

end StructureLayout
