import StructureLayout.Proofs.Placement.Overflow

/-!
# Repeated fields

A repeated field is its expansion.  The fields that are its instances can stand in its place
in any sequence, which is then laid out alike or refused alike, and each instance stands one
stride past the one before.
-/

namespace StructureLayout

/-- The entry of one instance of a repeated field that stands at `base`. -/
def Repetition.entryAt (space : AddressSpace) (r : Repetition) (base index : Nat) :
    Entry Layout :=
  .field (r.instanceAt space index) (base + index * r.stride space) (r.stride space)
    (Placement.boundScaling r.template)

namespace Placement

variable {space : AddressSpace} {options : Options} {s t : Placement}

/-- An instance is seen from the declaration before it as the repeated field is. -/
theorem place_before_repetition (s : Placement) (d : Declaration) (r : Repetition)
    (index : Nat) :
    s.place space options d (.repetition r) =
      s.place space options d (.field (r.instanceAt space index)) := by
  cases d <;> rfl

theorem placeBefore_map_field (next : Declaration) (fs : List (Field Layout)) :
    s.placeBefore space options next (fs.map .field) = fs.foldlM (placeField space) s := by
  induction fs generalizing s with
  | nil => rfl
  | cons f fs ih =>
      rw [List.map_cons, placeBefore, List.foldlM_cons]
      simp only [ih]
      rfl

/-- The instances ask of the state what the repeated field asks, and lead to the same state. -/
theorem placeBefore_instances_eq_ok_iff {r : Repetition} (hcount : r.count ≠ 0)
    (next : Declaration) :
    s.placeBefore space options next ((r.instances space).map .field) = .ok t ↔
      s.place space options (.repetition r) next = .ok t := by
  rw [placeBefore_map_field, place, foldlM_placeField_eq_ok_iff, placeRepetition_eq_ok_iff]
  exact (and_iff_right hcount).symm

theorem placeBefore_expand_eq_ok_iff {r : Repetition} (hcount : r.count ≠ 0)
    (next : Declaration) (front back : List Declaration) :
    s.placeBefore space options next (front ++ .repetition r :: back) = .ok t ↔
      s.placeBefore space options next
        (front ++ (r.instances space).map .field ++ back) = .ok t := by
  obtain ⟨fs, hfs⟩ : ∃ fs, r.instances space = r.instanceAt space 0 :: fs :=
    Repetition.instances_eq_cons hcount
  have hhead : ((r.instances space).map Declaration.field ++ back).headD next =
      .field (r.instanceAt space 0) := by
    rw [hfs]
    rfl
  have hfront : s.placeBefore space options (.repetition r) front =
      s.placeBefore space options (.field (r.instanceAt space 0)) front :=
    placeBefore_congr_next fun d _ u => place_before_repetition u d r 0
  have hback (u : Placement) :
      u.placeBefore space options next (.repetition r :: back) = .ok t ↔
        u.placeBefore space options next
          ((r.instances space).map .field ++ back) = .ok t := by
    rw [placeBefore, placeBefore_append, bind_eq_ok_iff, bind_eq_ok_iff]
    simp only [placeBefore_instances_eq_ok_iff hcount]
  rw [List.append_assoc, placeBefore_append, placeBefore_append, List.headD_cons, hhead,
    hfront, bind_eq_ok_iff, bind_eq_ok_iff]
  simp only [hback]

theorem withFields_concat (s : Placement) (fs : List (Field Layout)) (f : Field Layout) :
    s.withFields (fs ++ [f]) = (s.withFields fs).withField f :=
  List.foldl_concat withField s f fs

/-- The first `n` instances take `n` strides. -/
theorem withFields_map_instanceAt {r : Repetition} (hstride : r.stride space = r.template.bytes)
    (s : Placement) (n : Nat) :
    (s.withFields ((List.range n).map (r.instanceAt space))).cursor =
        s.cursor + n * r.stride space ∧
      (s.withFields ((List.range n).map (r.instanceAt space))).entries =
        ((List.range n).map (r.entryAt space s.cursor)).reverse ++ s.entries := by
  induction n with
  | zero => exact ⟨by simp, by simp⟩
  | succ n ih =>
      obtain ⟨hcursor, hentries⟩ := ih
      have hnext : r.entryAt space s.cursor n =
          .field (r.instanceAt space n) (s.cursor + n * r.stride space) r.template.bytes
            (boundScaling (r.instanceAt space n)) := by
        rw [Repetition.entryAt, hstride]
        rfl
      rw [List.range_succ, List.map_append, List.map_append, List.map_singleton,
        List.map_singleton, withFields_concat, withField, hcursor, hentries, hnext,
        Repetition.bytes_instanceAt]
      constructor
      · rw [hstride, Nat.succ_mul, Nat.add_assoc]
      · rw [List.reverse_concat, List.cons_append]

theorem entries_withFields_instances {r : Repetition} (hcount : r.count ≠ 0)
    (h : s.AdmitsAll space (r.instances space)) :
    (s.withFields (r.instances space)).entries =
      ((List.range r.count).map (r.entryAt space s.cursor)).reverse ++ s.entries := by
  obtain ⟨hdims, hsize⟩ := h.template hcount
  have hstride : r.stride space = r.template.bytes :=
    Repetition.stride_eq hdims hsize (Repetition.fits_bytes hcount (h.fits_instances hcount))
  exact (withFields_map_instanceAt hstride s r.count).2

end Placement

namespace Layout

/-- The same layout, the same autoscale faults, or an error of placement on both sides. -/
inductive SameOutcome : Except LayoutError Layout → Except LayoutError Layout → Prop
  | layout (l : Layout) : SameOutcome (.ok l) (.ok l)
  | autoscale (name : String) (faults : List FieldFault) :
      SameOutcome (.error (.autoscale name faults)) (.error (.autoscale name faults))
  | placement (name : String) (e e' : PlacementError) :
      SameOutcome (.error (.placement name e)) (.error (.placement name e'))

theorem SameOutcome.eq_ok {l : Layout} {x : Except LayoutError Layout}
    (h : SameOutcome (.ok l) x) : x = .ok l := by
  cases h with
  | layout => rfl

variable {space : AddressSpace} {options : Options} {name : String} {ds es : List Declaration}

theorem sameOutcome_of_runs
    (h : ∀ s, Placement.placeBefore space options .void {} ds = .ok s ↔
      Placement.placeBefore space options .void {} es = .ok s) :
    SameOutcome (compileIn space options name ds) (compileIn space options name es) := by
  rw [compileIn, compileIn, Placement.placeAll_eq_placeBefore,
    Placement.placeAll_eq_placeBefore]
  cases hds : Placement.placeBefore space options .void {} ds with
  | ok s =>
      rw [(h s).mp hds]
      dsimp only
      split
      · exact .layout _
      · exact .autoscale _ _
  | error e =>
      cases hes : Placement.placeBefore space options .void {} es with
      | ok s => cases hds.symm.trans ((h s).mpr hes)
      | error e' => exact .placement _ _ _

theorem entries_of_repetition {r : Repetition} {front back : List Declaration} {l : Layout}
    (h : compileIn space options name (front ++ .repetition r :: back) = .ok l) :
    ∃ before base after,
      l.entries = before ++ (List.range r.count).map (r.entryAt space base) ++ after := by
  obtain ⟨s, hrun, -, rfl⟩ := compileIn_eq_ok_iff.mp h
  rw [Placement.placeBefore_append] at hrun
  obtain ⟨u, -, hrun⟩ := bind_eq_ok_iff.mp hrun
  obtain ⟨v, hstep, hrest⟩ := Placement.placeBefore_cons_eq_ok_iff.mp hrun
  obtain ⟨later, hlater⟩ := Placement.entries_suffix_of_placeBefore hrest
  cases hstep with
  | repetition hcount hadmits =>
      refine ⟨u.entries.reverse, u.cursor, later.reverse, ?_⟩
      rw [ofPlacement, ← hlater, Placement.entries_withFields_instances hcount hadmits]
      simp only [List.reverse_append, List.reverse_reverse, List.append_assoc]

/-- A repeated field can be replaced by its instances, and these stand one stride apart. -/
theorem compile_repetition (options : Options) (name : String) (front back : List Declaration)
    (r : Repetition) (hcount : 1 ≤ r.count) :
    SameOutcome (compile options name (front ++ .repetition r :: back))
      (compile options name (front ++ (r.instances .wide).map .field ++ back)) ∧
    ∀ l, compile options name (front ++ .repetition r :: back) = .ok l →
      ∃ before base after,
        l.entries = before ++ (List.range r.count).map (r.entryAt .wide base) ++ after := by
  constructor
  · exact sameOutcome_of_runs fun s =>
      Placement.placeBefore_expand_eq_ok_iff (Nat.ne_of_gt hcount) .void front back
  · intro l hl
    exact entries_of_repetition hl

/-- Three scaled arrays, declared where the padding before them ends. -/
def repeatedGain : Repetition where
  template :=
    { name := "gain{i}Bank", content := .primitive (.integer ⟨true, .two⟩), dimensions := [2]
      autoscale := some "1/2, 3", offset := some 6 }
  count := 3

def beforeGain : List Declaration :=
  [.flag { name := "on" },
    .field { name := "mode", content := .primitive (.integer ⟨false, .one⟩) }, .alignNext]

def afterGain : List Declaration := [.alignNext, .flag { name := "off" }]

theorem compile_repeatedGain :
    1 ≤ repeatedGain.count ∧
      ∃ l, compile {} "sample" (beforeGain ++ .repetition repeatedGain :: afterGain) = .ok l ∧
        compile {} "sample"
          (beforeGain ++ (repeatedGain.instances .wide).map .field ++ afterGain) = .ok l ∧
        ∃ before base after, l.entries =
          before ++ (List.range 3).map (repeatedGain.entryAt .wide base) ++ after := by
  have hcount : 1 ≤ repeatedGain.count := by decide
  obtain ⟨l, hl⟩ : ∃ l,
      compile {} "sample" (beforeGain ++ .repetition repeatedGain :: afterGain) = .ok l :=
    exists_eq_ok_of_isOk (by decide +kernel)
  obtain ⟨hsame, hentries⟩ :=
    compile_repetition {} "sample" beforeGain afterGain repeatedGain hcount
  rw [hl] at hsame
  exact ⟨hcount, l, hl, hsame.eq_ok, hentries l hl⟩

end Layout

end StructureLayout
