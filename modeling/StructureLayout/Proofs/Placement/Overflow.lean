import StructureLayout.Proofs.Placement.Run

/-!
# Placement in a bounded address space

In a bounded space exactly those sequences are placed that are placed in the unbounded one
and end within the bound, and then both placements are the same.  A sequence that is placed
in the unbounded space but ends beyond the bound is refused for its size.
-/

namespace StructureLayout

namespace AddressSpace

variable {space : AddressSpace}

theorem saturate_of_fits {n : Nat} (h : space.fits n = true) : space.saturate n = n := by
  rcases space with ⟨_ | limit⟩
  · rfl
  · simp only [fits, decide_eq_true_eq] at h
    exact Nat.min_eq_left h

theorem eq_of_saturate_eq {m n : Nat} (h : space.saturate m = n)
    (hfits : space.fits (n + 1) = true) : m = n := by
  rcases space with ⟨_ | limit⟩
  · exact h
  · simp only [fits, decide_eq_true_eq] at hfits
    simp only [saturate] at h
    omega

end AddressSpace

namespace Repetition

variable {space : AddressSpace} {r : Repetition}

theorem stride_eq (hdims : 0 ∉ r.template.dimensions) (hsize : r.template.content.size ≠ 0)
    (hfits : space.fits r.template.bytes = true) : r.stride space = r.template.bytes := by
  rw [stride, Field.footprint, (Field.footprint?_eq_some_iff hdims hsize).mpr ⟨rfl, hfits⟩]
  rfl

/-- Where the declared offsets fit, they are the template's moved on by whole strides. -/
theorem instanceAt_offset (hdims : 0 ∉ r.template.dimensions)
    (hsize : r.template.content.size ≠ 0) {index : Nat}
    (hbytes : space.fits r.template.bytes = true)
    (hfits : ∀ d ∈ r.template.offset, space.fits (d + index * r.template.bytes) = true) :
    (r.instanceAt space index).offset =
      r.template.offset.map fun d => d + index * r.template.bytes := by
  rw [instanceAt, stride_eq hdims hsize hbytes]
  cases hoffset : r.template.offset with
  | none => rfl
  | some d =>
      have hd := hfits d hoffset
      dsimp only [Option.map_some]
      rw [AddressSpace.saturate_of_fits (AddressSpace.fits_of_le (Nat.le_add_left _ _) hd),
        AddressSpace.saturate_of_fits hd]

theorem fits_declared {cursor index : Nat} (hindex : index < r.count)
    (hdeclared : ∀ d ∈ r.template.offset, d = cursor)
    (hfits : space.fits (cursor + r.count * r.template.bytes) = true) :
    ∀ d ∈ r.template.offset, space.fits (d + index * r.template.bytes) = true := by
  intro d hd
  have hle := Nat.mul_le_mul_right r.template.bytes hindex.le
  rw [hdeclared d hd]
  exact AddressSpace.fits_of_le (Nat.add_le_add_left hle cursor) hfits

/-- The offset that an instance inherits is that at which it stands, if the template is declared
where the first of them stands. -/
theorem offset_of_instanceAt {cursor index : Nat} (hindex : index < r.count)
    (hdims : 0 ∉ r.template.dimensions) (hsize : r.template.content.size ≠ 0)
    (hdeclared : ∀ d ∈ r.template.offset, d = cursor)
    (hfits : space.fits (cursor + r.count * r.template.bytes) = true) :
    ∀ d ∈ (r.instanceAt space index).offset, d = cursor + index * r.template.bytes := by
  have hbytes := fits_bytes (Nat.ne_zero_of_lt hindex) hfits
  rw [instanceAt_offset hdims hsize hbytes (fits_declared hindex hdeclared hfits)]
  intro d hd
  obtain ⟨base, hbase, rfl⟩ := Option.mem_map.mp hd
  rw [hdeclared base hbase]

/-- The first instance is declared where the template is. -/
theorem offset_of_instanceAt_zero {cursor : Nat} (hfits : space.fits (cursor + 1) = true)
    (h : ∀ d ∈ (r.instanceAt space 0).offset, d = cursor) :
    ∀ d ∈ r.template.offset, d = cursor := by
  intro d hd
  have hzero : space.saturate 0 = 0 :=
    AddressSpace.saturate_of_fits (AddressSpace.fits_of_le (Nat.zero_le _) hfits)
  have hplace : space.saturate d = cursor := by
    refine h _ ?_
    simp only [instanceAt, Nat.zero_mul, hzero, Nat.add_zero]
    exact Option.mem_map_of_mem _ hd
  exact AddressSpace.eq_of_saturate_eq hplace hfits

theorem instanceAt_eq_unbounded (hdims : 0 ∉ r.template.dimensions)
    (hsize : r.template.content.size ≠ 0) {index : Nat}
    (hbytes : space.fits r.template.bytes = true)
    (hfits : ∀ d ∈ r.template.offset, space.fits (d + index * r.template.bytes) = true) :
    r.instanceAt space index = r.instanceAt .unbounded index := by
  have hspace := instanceAt_offset hdims hsize hbytes hfits
  have hunbounded : (r.instanceAt .unbounded index).offset = _ :=
    instanceAt_offset hdims hsize rfl fun _ _ => rfl
  simpa only [instanceAt, Field.mk.injEq, true_and, and_true] using
    hspace.trans hunbounded.symm

theorem instances_eq_unbounded {cursor : Nat} (hcount : r.count ≠ 0)
    (hdims : 0 ∉ r.template.dimensions) (hsize : r.template.content.size ≠ 0)
    (hdeclared : ∀ d ∈ r.template.offset, d = cursor)
    (hfits : space.fits (cursor + r.count * r.template.bytes) = true) :
    r.instances space = r.instances .unbounded := by
  have hbytes := fits_bytes hcount hfits
  refine List.map_congr_left ?_
  intro index hindex
  exact instanceAt_eq_unbounded hdims hsize hbytes
    (fits_declared (List.mem_range.mp hindex) hdeclared hfits)

end Repetition

namespace Placement

variable {space : AddressSpace} {options : Options} {s t : Placement}

theorem Admits.change_space {other : AddressSpace} {f : Field Layout} (h : s.Admits other f)
    (hfits : space.fits (s.cursor + f.bytes) = true) : s.Admits space f :=
  { h with fits := hfits }

theorem cursor_le_withFields (s : Placement) (fs : List (Field Layout)) :
    s.cursor ≤ (s.withFields fs).cursor := by
  rw [withFields_cursor]
  exact Nat.le_add_right _ _

theorem AdmitsAll.change_space {other : AddressSpace} {fs : List (Field Layout)}
    (h : s.AdmitsAll other fs) (hfits : space.fits (s.withFields fs).cursor = true) :
    s.AdmitsAll space fs := by
  induction fs generalizing s with
  | nil => trivial
  | cons f fs ih =>
      have hle := cursor_le_withFields (s.withField f) fs
      exact ⟨h.1.change_space (AddressSpace.fits_of_le hle hfits), ih h.2 hfits⟩

/-- The instances stand where the template is declared only if that is at the cursor. -/
theorem AdmitsAll.declared {r : Repetition} (h : s.AdmitsAll space (r.instances space))
    (hcount : r.count ≠ 0) : ∀ d ∈ r.template.offset, d = s.cursor := by
  obtain ⟨fs, hfs⟩ := Repetition.instances_eq_cons hcount
  rw [hfs] at h
  exact Repetition.offset_of_instanceAt_zero
    (AddressSpace.fits_of_le (Nat.add_le_add_left h.1.bytes_pos _) h.1.fits) h.1.declared

theorem AdmitsAll.instances_eq {r : Repetition} (h : s.AdmitsAll space (r.instances space))
    (hcount : r.count ≠ 0) : r.instances space = r.instances .unbounded := by
  obtain ⟨hdims, hsize⟩ := h.template hcount
  exact Repetition.instances_eq_unbounded hcount hdims hsize (h.declared hcount)
    (h.fits_instances hcount)

/-! ## Steps -/

theorem Step.fits_cursor {d next : Declaration} (h : Step space options s d next t)
    (hs : space.fits s.cursor = true) : space.fits t.cursor = true := by
  cases h with
  | field hadmits => exact hadmits.fits
  | @flag b _ hadmits =>
      by_cases hcloses : s.closesWord options b next = true
      · rw [cursor_withFlag_of_closes hcloses]
        exact hadmits.fits hcloses
      · rw [cursor_withFlag_of_not_closes hcloses]
        exact hs
  | pad hfits => exact hfits
  | alignNext _ hfits => exact hfits
  | repetition hcount hadmits =>
      rw [withFields_instances_cursor]
      exact hadmits.fits_instances hcount
  | void => exact hs

theorem Step.cursor_le {d next : Declaration} (h : Step space options s d next t)
    (hready : s.WordReady options d) : s.cursor ≤ t.cursor := by
  cases h with
  | field _ => exact Nat.le_add_right _ _
  | @flag b _ _ =>
      have hoffset := hready.currentWord_offset
      rw [withFlag]
      dsimp only
      split
      · omega
      · exact Nat.le_refl _
  | pad _ => exact Nat.le_add_right _ _
  | alignNext _ _ => exact Nat.le_add_right _ _
  | repetition _ _ => exact cursor_le_withFields s _
  | void => exact Nat.le_refl _

theorem Step.unbounded {d next : Declaration} (h : Step space options s d next t) :
    Step .unbounded options s d next t := by
  cases h with
  | field hadmits => exact .field (hadmits.change_space rfl)
  | flag hadmits => exact .flag { hadmits with fits := fun _ => rfl }
  | pad _ => exact .pad rfl
  | alignNext haligned _ => exact .alignNext haligned rfl
  | repetition hcount hadmits =>
      have hinstances := hadmits.instances_eq hcount
      rw [hinstances] at hadmits ⊢
      exact .repetition hcount (hadmits.change_space rfl)
  | void => exact .void

theorem Step.bounded {d next : Declaration} (h : Step .unbounded options s d next t)
    (hfits : space.fits t.cursor = true) : Step space options s d next t := by
  cases h with
  | field hadmits => exact .field (hadmits.change_space hfits)
  | @flag b _ hadmits =>
      refine .flag { hadmits with fits := ?_ }
      intro hcloses
      rwa [cursor_withFlag_of_closes hcloses] at hfits
  | pad _ => exact .pad hfits
  | alignNext haligned _ => exact .alignNext haligned hfits
  | @repetition r _ hcount hadmits =>
      obtain ⟨hdims, hsize⟩ := hadmits.template hcount
      have hroom := hfits
      rw [withFields_instances_cursor] at hroom
      have hinstances := Repetition.instances_eq_unbounded hcount hdims hsize
        (hadmits.declared hcount) hroom
      rw [← hinstances] at hadmits hfits ⊢
      exact .repetition hcount (hadmits.change_space hfits)
  | void => exact .void

/-! ## Refusals -/

theorem advance_eq_error {field : String} {offset size : Nat}
    (h : ¬space.fits (offset + size) = true) :
    advance space field offset size = .error (.sizeOverflow field offset) := by
  unfold advance
  split
  · rename_i finish hfinish
    exact absurd (AddressSpace.add?_eq_some_iff.mp hfinish).2 h
  · rfl

theorem placeField_eq_error {f : Field Layout} (h : s.Admits .unbounded f)
    (hover : ¬space.fits (s.cursor + f.bytes) = true) :
    s.placeField space f = .error (.sizeOverflow f.name s.cursor) := by
  simp only [placeField, checkElements_eq_ok_iff.mpr ⟨h.dimensions, h.element⟩,
    checkDeclared_eq_ok_iff.mpr h.declared, ok_bind]
  unfold fieldSize
  cases hsize : f.footprint? space with
  | none => rfl
  | some size =>
      obtain ⟨rfl, _⟩ := (Field.footprint?_eq_some_iff h.dimensions h.element).mp hsize
      rw [ok_bind, advance_eq_error hover]
      rfl

theorem placeFlag_eq_error {b : Flag} {next : Declaration}
    (h : s.AdmitsFlag .unbounded options b next) (hcloses : s.closesWord options b next = true)
    (hover : ¬space.fits (s.currentWord.offset + options.bitWord.bytes) = true) :
    s.placeFlag space options b next =
      .error (.sizeOverflow b.name s.currentWord.offset) := by
  have hdeclared : s.checkDeclared b.name b.offset s.currentWord.offset = .ok () :=
    checkDeclared_eq_ok_iff.mpr h.declared
  have hbit := chooseBit_eq_ok_iff.mpr ⟨rfl, h.bit⟩
  have hpush : s.push (.flag b s.currentWord.offset options.bitWord (s.bitFor b)) = _ :=
    push_eq_ok_iff.mpr ⟨h.fresh, rfl⟩
  unfold currentWord at hdeclared hbit hpush
  simp only [placeFlag, hdeclared, hbit, hpush, ok_bind]
  refine (if_pos hcloses).trans ?_
  exact (congrArg (· >>= _) (advance_eq_error hover)).trans rfl

theorem placeRepetition_eq_error {r : Repetition} (hcount : r.count ≠ 0)
    (h : s.AdmitsAll .unbounded (r.instances .unbounded))
    (hover : ¬space.fits (s.cursor + r.count * r.template.bytes) = true) :
    s.placeRepetition space r = .error (.sizeOverflow r.template.name s.cursor) := by
  obtain ⟨hdims, hsize⟩ := h.template hcount
  have hroom : (r.size? space).bind (space.add? s.cursor) = none := by
    rw [Option.eq_none_iff_forall_ne_some]
    intro finish hfinish
    exact hover ((Repetition.finish?_eq_some_iff hcount hdims hsize).mp hfinish).2
  unfold placeRepetition
  rw [if_neg hcount, hroom]

theorem placePadding_eq_error {n : Nat} (hover : ¬space.fits (s.cursor + n) = true) :
    s.placePadding space n = .error (.sizeOverflow "padding" s.cursor) :=
  congrArg (· >>= _) (advance_eq_error hover)

/-- Where only the bound stands in the way, the declaration is refused for its size. -/
theorem Step.overflow {d next : Declaration} (h : Step .unbounded options s d next t)
    (hs : space.fits s.cursor = true) (hover : ¬space.fits t.cursor = true) :
    ∃ field offset, s.place space options d next = .error (.sizeOverflow field offset) := by
  cases h with
  | field hadmits => exact ⟨_, _, placeField_eq_error hadmits hover⟩
  | @flag b _ hadmits =>
      by_cases hcloses : s.closesWord options b next = true
      · rw [cursor_withFlag_of_closes hcloses] at hover
        exact ⟨_, _, placeFlag_eq_error hadmits hcloses hover⟩
      · have hcursor := cursor_withFlag_of_not_closes hcloses
        exact absurd hs (hcursor ▸ hover)
  | pad _ => exact ⟨_, _, placePadding_eq_error hover⟩
  | alignNext haligned _ =>
      refine ⟨"padding", s.cursor, ?_⟩
      rw [place, haligned, ok_bind]
      exact placePadding_eq_error hover
  | @repetition r _ hcount hadmits =>
      rw [withFields_instances_cursor] at hover
      exact ⟨_, _, placeRepetition_eq_error hcount hadmits hover⟩
  | void => exact absurd hs hover

/-! ## Runs -/

theorem cursor_le_of_placeBefore {next : Declaration} {ds : List Declaration}
    (hready : s.WordReady options (ds.headD next))
    (h : s.placeBefore space options next ds = .ok t) : s.cursor ≤ t.cursor := by
  refine (placeBefore_invariant
    (P := fun u d => s.cursor ≤ u.cursor ∧ u.WordReady options d) ?_
    ⟨Nat.le_refl _, hready⟩ h).1
  rintro u v d e ⟨hle, hu⟩ hstep
  exact ⟨hle.trans (hstep.cursor_le hu), hstep.wordReady hu⟩

theorem placeBefore_eq_ok_iff_unbounded {next : Declaration} {ds : List Declaration}
    (hready : s.WordReady options (ds.headD next)) (hs : space.fits s.cursor = true) :
    s.placeBefore space options next ds = .ok t ↔
      s.placeBefore .unbounded options next ds = .ok t ∧ space.fits t.cursor = true := by
  induction ds generalizing s with
  | nil =>
      constructor
      · intro h
        cases h
        exact ⟨rfl, hs⟩
      · rintro ⟨h, _⟩
        exact h
  | cons d ds ih =>
      simp only [placeBefore_cons_eq_ok_iff]
      constructor
      · rintro ⟨u, hstep, hrest⟩
        have hu := (ih (hstep.wordReady hready) (hstep.fits_cursor hs)).mp hrest
        exact ⟨⟨u, hstep.unbounded, hu.1⟩, hu.2⟩
      · rintro ⟨⟨u, hstep, hrest⟩, hfits⟩
        have hready' := hstep.wordReady hready
        have hu := AddressSpace.fits_of_le (cursor_le_of_placeBefore hready' hrest) hfits
        exact ⟨u, hstep.bounded hu, (ih hready' hu).mpr ⟨hrest, hfits⟩⟩

theorem placeBefore_overflow {next : Declaration} {ds : List Declaration}
    (hready : s.WordReady options (ds.headD next)) (hs : space.fits s.cursor = true)
    (h : s.placeBefore .unbounded options next ds = .ok t)
    (hover : ¬space.fits t.cursor = true) :
    ∃ field offset,
      s.placeBefore space options next ds = .error (.sizeOverflow field offset) := by
  induction ds generalizing s with
  | nil =>
      cases h
      exact absurd hs hover
  | cons d ds ih =>
      obtain ⟨u, hstep, hrest⟩ := placeBefore_cons_eq_ok_iff.mp h
      by_cases hu : space.fits u.cursor = true
      · obtain ⟨field, offset, herror⟩ := ih (hstep.wordReady hready) hu hrest
        refine ⟨field, offset, ?_⟩
        rw [placeBefore, place_eq_ok_iff.mpr (hstep.bounded hu)]
        exact herror
      · obtain ⟨field, offset, herror⟩ := hstep.overflow hs hu
        refine ⟨field, offset, ?_⟩
        rw [placeBefore, herror]
        rfl

end Placement

namespace Layout

variable {space : AddressSpace} {options : Options} {name : String} {ds : List Declaration}

theorem compileIn_eq_ok_iff_unbounded (hzero : space.fits 0 = true) {l : Layout} :
    compileIn space options name ds = .ok l ↔
      compileIn .unbounded options name ds = .ok l ∧ space.fits l.totalSize = true := by
  have hrun (s : Placement) : Placement.placeBefore space options .void {} ds = .ok s ↔
      Placement.placeBefore .unbounded options .void {} ds = .ok s ∧
        space.fits s.cursor = true :=
    Placement.placeBefore_eq_ok_iff_unbounded (.of_none rfl) hzero
  simp only [compileIn_eq_ok_iff, hrun]
  constructor
  · rintro ⟨s, ⟨hs, hfits⟩, hfaults, rfl⟩
    exact ⟨⟨s, hs, hfaults, rfl⟩, hfits⟩
  · rintro ⟨⟨s, hs, hfaults, rfl⟩, hfits⟩
    exact ⟨s, ⟨hs, hfits⟩, hfaults, rfl⟩

/-- Compilation within 64 bits is compilation without a bound, cut off where the layout ends
beyond the bound. -/
theorem compile_eq_compileIn_unbounded (options : Options) (name : String)
    (ds : List Declaration) :
    (∀ l, compile options name ds = .ok l ↔
      compileIn .unbounded options name ds = .ok l ∧ l.totalSize ≤ 2 ^ 64 - 1) ∧
    ∀ s, Placement.placeAll .unbounded options {} ds = .ok s → 2 ^ 64 - 1 < s.cursor →
      ∃ field offset,
        compile options name ds = .error (.placement name (.sizeOverflow field offset)) := by
  have hzero : AddressSpace.wide.fits 0 = true := AddressSpace.fits_wide_iff.mpr (Nat.zero_le _)
  constructor
  · intro l
    rw [← AddressSpace.fits_wide_iff]
    exact compileIn_eq_ok_iff_unbounded hzero
  · intro s hs hover
    rw [Placement.placeAll_eq_placeBefore] at hs
    rw [← Nat.not_le, ← AddressSpace.fits_wide_iff] at hover
    obtain ⟨field, offset, herror⟩ :=
      Placement.placeBefore_overflow (.of_none rfl) hzero hs hover
    refine ⟨field, offset, ?_⟩
    rw [compile, compileIn, Placement.placeAll_eq_placeBefore, herror]

/-- The last byte can be reached, and a word that ends one byte beyond it is refused. -/
theorem compile_at_bound :
    (∃ l, compile {} "full" [.pad (2 ^ 64 - 5), .flag { name := "on" }] = .ok l) ∧
      ∃ field offset, compile {} "over" [.pad (2 ^ 64 - 4), .flag { name := "on" }] =
        .error (.placement "over" (.sizeOverflow field offset)) :=
  ⟨⟨_, ((compile_eq_compileIn_unbounded {} "full" _).1 _).mpr ⟨rfl, by decide⟩⟩,
    (compile_eq_compileIn_unbounded {} "over" _).2 _ rfl (by decide)⟩

end Layout

end StructureLayout
