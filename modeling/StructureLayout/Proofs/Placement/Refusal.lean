import StructureLayout.Proofs.Placement.Run

/-!
# Refusals of placement

A refusal is about one of the rules of placement, and each check refuses for its own rule alone.
A run is refused where its first refused declaration is.
-/

namespace StructureLayout

namespace PlacementError

/-- What a refusal is about. -/
inductive Rule
  | declaredOffset
  | bit
  | count
  | elements
  | size
  | name
  | alignment
deriving DecidableEq

def rule : PlacementError → Rule
  | overlap _ _ _ _ _ | paddingOverlap _ _ | unexpectedGap _ _ _ => .declaredOffset
  | bitCollision _ _ _ _ | bitOutOfRange _ _ _ _ => .bit
  | nonPositiveCount _ _ => .count
  | zeroDimension _ _ _ | zeroSizedElement _ _ => .elements
  | sizeOverflow _ _ => .size
  | duplicateName _ _ _ => .name
  | alignmentBeforeDirective _ | alignmentAtEnd _ => .alignment

end PlacementError

namespace Placement

variable {space : AddressSpace} {options : Options} {s t : Placement} {next : Declaration}
  {field : String} {x : PlacementError}

/-! ## Checks -/

theorem rule_of_push {e : Entry Layout} (h : s.push e = .error x) : x.rule = .name := by
  unfold push at h
  split at h
  · cases h
    rfl
  · cases h

theorem push_eq_error_iff {e : Entry Layout} :
    s.push e = .error x ↔
      ∃ first, (s.entries.find? fun d => d.name == e.name) = some first ∧
        x = .duplicateName e.name e.offset first.offset := by
  unfold push
  cases s.entries.find? fun d => d.name == e.name with
  | none => simp
  | some first => simp [eq_comm]

theorem rule_of_advance {offset size : Nat} (h : advance space field offset size = .error x) :
    x.rule = .size := by
  unfold advance at h
  split at h
  · cases h
  · cases h
    rfl

theorem rule_of_fieldSize {f : Field Layout} {offset : Nat}
    (h : fieldSize space f offset = .error x) : x.rule = .size := by
  unfold fieldSize at h
  split at h
  · cases h
  · cases h
    rfl

theorem rule_of_checkElements {f : Field Layout} {offset : Nat}
    (h : checkElements f offset = .error x) : x.rule = .elements := by
  unfold checkElements at h
  split at h
  · cases h
    rfl
  · split at h
    · cases h
      rfl
    · cases h

theorem rule_of_checkDeclared {declared : Option Nat} {place : Nat}
    (h : s.checkDeclared field declared place = .error x) : x.rule = .declaredOffset := by
  unfold checkDeclared at h
  split at h
  · cases h
  · split at h
    · cases h
    · split at h
      · cases h
        rfl
      · split at h <;> cases h <;> rfl

theorem chooseBit_eq_error_iff {b : Flag} {w : OpenWord} :
    chooseBit options b w = .error x ↔
      ∃ bit, b.bit = some bit ∧
        (options.bitWord.bits ≤ bit ∧
            x = .bitOutOfRange b.name w.offset bit options.bitWord.bits ∨
          bit < options.bitWord.bits ∧ bit < w.nextBit ∧
            x = .bitCollision b.name w.offset bit w.nextBit) := by
  unfold chooseBit
  cases hb : b.bit with
  | none => simp
  | some bit =>
      by_cases hrange : options.bitWord.bits ≤ bit
      · simp [hrange, Nat.not_lt.mpr hrange, eq_comm]
      · by_cases hfree : bit < w.nextBit
        · simp [hrange, hfree, Nat.lt_of_not_le hrange, eq_comm]
        · simp [hrange, hfree]

theorem rule_of_alignmentOf {cursor : Nat} {d : Declaration}
    (h : alignmentOf options cursor d = .error x) : x.rule = .alignment := by
  cases d with
  | field _ => cases h
  | flag _ => cases h
  | repetition _ => cases h
  | pad _ =>
      cases h
      rfl
  | alignNext =>
      cases h
      rfl
  | void =>
      cases h
      rfl

/-! ## Declarations -/

/-- Past the bit only the name and the end of the word are checked. -/
theorem placeFlag_eq_error_iff_of_rule {b : Flag} (hname : x.rule ≠ .name)
    (hsize : x.rule ≠ .size) :
    s.placeFlag space options b next = .error x ↔
      s.checkDeclared b.name b.offset s.currentWord.offset = .error x ∨
        s.checkDeclared b.name b.offset s.currentWord.offset = .ok () ∧
          chooseBit options b s.currentWord = .error x := by
  rw [placeFlag, bind_eq_error_iff]
  refine or_congr_right ?_
  constructor
  · rintro ⟨_, hdeclared, h⟩
    rcases bind_eq_error_iff.mp h with hbit | ⟨bit, _, h⟩
    · exact ⟨hdeclared, hbit⟩
    · rcases bind_eq_error_iff.mp h with hpush | ⟨u, _, h⟩
      · exact absurd (rule_of_push hpush) hname
      · split at h
        · rcases bind_eq_error_iff.mp h with hadvance | ⟨finish, _, h⟩
          · exact absurd (rule_of_advance hadvance) hsize
          · cases h
        · cases h
  · rintro ⟨hdeclared, hbit⟩
    exact ⟨(), hdeclared, bind_eq_error_iff.mpr (Or.inl hbit)⟩

theorem placeField_eq_error_iff_of_rule {f : Field Layout} (h : x.rule = .declaredOffset) :
    s.placeField space f = .error x ↔
      checkElements f s.cursor = .ok () ∧
        s.checkDeclared f.name f.offset s.cursor = .error x := by
  rw [placeField, bind_eq_error_iff]
  constructor
  · rintro (helements | ⟨_, helements, hrest⟩)
    · rw [rule_of_checkElements helements] at h
      cases h
    · rcases bind_eq_error_iff.mp hrest with hdeclared | ⟨_, _, hrest⟩
      · exact ⟨helements, hdeclared⟩
      · rcases bind_eq_error_iff.mp hrest with hsize | ⟨size, _, hrest⟩
        · rw [rule_of_fieldSize hsize] at h
          cases h
        · rcases bind_eq_error_iff.mp hrest with hadvance | ⟨finish, _, hpush⟩
          · rw [rule_of_advance hadvance] at h
            cases h
          · rw [rule_of_push hpush] at h
            cases h
  · rintro ⟨helements, hdeclared⟩
    exact Or.inr ⟨(), helements, bind_eq_error_iff.mpr (Or.inl hdeclared)⟩

/-- The name of a field is checked last. -/
theorem placeField_eq_error_iff_of_name {f : Field Layout} (h : x.rule = .name) :
    s.placeField space f = .error x ↔
      0 ∉ f.dimensions ∧ f.content.size ≠ 0 ∧ (∀ d ∈ f.offset, d = s.cursor) ∧
        space.fits (s.cursor + f.bytes) = true ∧
          ∃ first, (s.entries.find? fun d => d.name == f.name) = some first ∧
            x = .duplicateName f.name s.cursor first.offset := by
  constructor
  · intro hplace
    have hrefused := hplace
    rcases bind_eq_error_iff.mp hrefused with helements | ⟨_, helements, hrefused⟩
    · rw [rule_of_checkElements helements] at h
      cases h
    rcases bind_eq_error_iff.mp hrefused with hdeclared | ⟨_, hdeclared, hrefused⟩
    · rw [rule_of_checkDeclared hdeclared] at h
      cases h
    rcases bind_eq_error_iff.mp hrefused with hsize | ⟨size, hsize, hrefused⟩
    · rw [rule_of_fieldSize hsize] at h
      cases h
    rcases bind_eq_error_iff.mp hrefused with hadvance | ⟨finish, hadvance, -⟩
    · rw [rule_of_advance hadvance] at h
      cases h
    obtain ⟨hdims, helement⟩ := checkElements_eq_ok_iff.mp helements
    have hdeclared := checkDeclared_eq_ok_iff.mp hdeclared
    obtain ⟨rfl, -⟩ := (fieldSize_eq_ok_iff hdims helement).mp hsize
    obtain ⟨-, hfits⟩ := advance_eq_ok_iff.mp hadvance
    rw [placeField_eq f hdims helement hdeclared hfits] at hplace
    exact ⟨hdims, helement, hdeclared, hfits, push_eq_error_iff.mp hplace⟩
  · rintro ⟨hdims, helement, hdeclared, hfits, hfirst⟩
    rw [placeField_eq f hdims helement hdeclared hfits]
    exact push_eq_error_iff.mpr hfirst

theorem rule_of_placePadding {n : Nat} (h : s.placePadding space n = .error x) :
    x.rule = .size := by
  rcases bind_eq_error_iff.mp h with hadvance | ⟨finish, _, h⟩
  · exact rule_of_advance hadvance
  · cases h

/-- Of fields that are placed one after another the first refused one decides. -/
theorem foldlM_placeField_eq_error_iff {fs : List (Field Layout)} :
    fs.foldlM (placeField space) s = .error x ↔
      ∃ front f back, fs = front ++ f :: back ∧ s.AdmitsAll space front ∧
        (s.withFields front).placeField space f = .error x := by
  induction fs generalizing s with
  | nil =>
      constructor
      · exact nofun
      · rintro ⟨front, f, back, hfs, _⟩
        cases front <;> cases hfs
  | cons g fs ih =>
      rw [List.foldlM_cons, bind_eq_error_iff]
      constructor
      · rintro (hfirst | ⟨u, hfirst, hrest⟩)
        · exact ⟨[], g, fs, rfl, trivial, hfirst⟩
        · obtain ⟨hadmits, rfl⟩ := placeField_eq_ok_iff.mp hfirst
          obtain ⟨front, f, back, rfl, hall, hrefused⟩ := ih.mp hrest
          exact ⟨g :: front, f, back, rfl, ⟨hadmits, hall⟩, hrefused⟩
      · rintro ⟨_ | ⟨c, front⟩, f, back, hfs, hall, hrefused⟩
        · cases hfs
          exact Or.inl hrefused
        · cases hfs
          refine Or.inr ⟨_, placeField_eq_ok_iff.mpr ⟨hall.1, rfl⟩, ih.mpr ?_⟩
          exact ⟨front, f, back, rfl, hall.2, hrefused⟩

/-- Past the count and the end of the whole the instances decide. -/
theorem placeRepetition_eq_error_iff_of_rule {r : Repetition} (hcount : x.rule ≠ .count)
    (hsize : x.rule ≠ .size) :
    s.placeRepetition space r = .error x ↔
      r.count ≠ 0 ∧ (r.size? space).bind (space.add? s.cursor) ≠ none ∧
        ∃ front f back, r.instances space = front ++ f :: back ∧ s.AdmitsAll space front ∧
          (s.withFields front).placeField space f = .error x := by
  rw [← foldlM_placeField_eq_error_iff, placeRepetition]
  by_cases hzero : r.count = 0
  · rw [if_pos hzero]
    constructor
    · intro h
      cases h
      exact absurd rfl hcount
    · rintro ⟨hne, _⟩
      exact absurd hzero hne
  · rw [if_neg hzero]
    cases (r.size? space).bind (space.add? s.cursor) with
    | none =>
        constructor
        · intro h
          cases h
          exact absurd rfl hsize
        · rintro ⟨_, hne, _⟩
          exact absurd rfl hne
    | some finish => simp [hzero]

/-! ## Runs -/

theorem placeBefore_eq_error_iff {ds : List Declaration} :
    s.placeBefore space options next ds = .error x ↔
      ∃ front d back u, ds = front ++ d :: back ∧
        s.placeBefore space options d front = .ok u ∧
          u.place space options d (back.headD next) = .error x := by
  induction ds generalizing s with
  | nil =>
      constructor
      · exact nofun
      · rintro ⟨front, d, back, u, hds, _⟩
        cases front <;> cases hds
  | cons c ds ih =>
      rw [placeBefore, bind_eq_error_iff]
      constructor
      · rintro (hfirst | ⟨v, hfirst, hrest⟩)
        · exact ⟨[], c, ds, s, rfl, rfl, hfirst⟩
        · obtain ⟨front, d, back, u, rfl, hrun, hrefused⟩ := ih.mp hrest
          refine ⟨c :: front, d, back, u, rfl, ?_, hrefused⟩
          rw [headD_append, List.headD_cons] at hfirst
          rw [placeBefore, hfirst, ok_bind]
          exact hrun
      · rintro ⟨_ | ⟨e, front⟩, d, back, u, hds, hrun, hrefused⟩
        · cases hds
          cases hrun
          exact Or.inl hrefused
        · rw [List.cons_append] at hds
          obtain ⟨rfl, rfl⟩ := List.cons.inj hds
          obtain ⟨v, hfirst, hrest⟩ := bind_eq_ok_iff.mp hrun
          rw [headD_append, List.headD_cons]
          exact Or.inr ⟨v, hfirst, ih.mpr ⟨front, d, back, u, rfl, hrest, hrefused⟩⟩

end Placement

namespace Layout

variable {options : Options} {name : String} {ds : List Declaration} {x : PlacementError}

/-- A sequence is refused by placement where its first refused declaration is. -/
theorem compile_eq_placement_iff_exists :
    compile options name ds = .error (.placement name x) ↔
      ∃ front d back s, ds = front ++ d :: back ∧
        Placement.placeBefore .wide options d {} front = .ok s ∧
          s.place .wide options d (back.headD .void) = .error x := by
  rw [compile_eq_placement_iff, Placement.placeAll_eq_placeBefore,
    Placement.placeBefore_eq_error_iff]

end Layout

end StructureLayout
