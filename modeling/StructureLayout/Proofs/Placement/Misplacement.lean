import StructureLayout.Proofs.Placement.Refusal
import StructureLayout.Proofs.Placement.Stage

/-!
# Misplacements

A field or flag that is declared off its place is refused with what holds the declared byte: an
entry placed before, padding that a directive inserted, or nothing yet.
-/

namespace StructureLayout

/-- What is declared at another offset than it would be placed at. -/
structure Misplaced where
  field : String
  declared : Nat
  place : Nat

/-- The last of the entries that cover a byte, which are one field or flags of one word. -/
structure LastCovering (entries : List (Entry Layout)) (byte : Nat) (e : Entry Layout) : Prop where
  covers : e.covers byte = true
  newest : ∃ later earlier, entries = later ++ e :: earlier ∧ ∀ d ∈ later, d.covers byte = false
  others : ∀ d ∈ entries, d.covers byte = true →
    d = e ∨ ∃ i j, d.bit? = some i ∧ e.bit? = some j ∧ d.offset = e.offset ∧ i < j

theorem LastCovering.mem {entries : List (Entry Layout)} {byte : Nat} {e : Entry Layout}
    (h : LastCovering entries byte e) : e ∈ entries := by
  obtain ⟨later, earlier, rfl, _⟩ := h.newest
  exact List.mem_append_right _ List.mem_cons_self

namespace Placement

variable {space : AddressSpace} {options : Options} {s t u : Placement} {d next : Declaration}
  {m : Misplaced} {x : PlacementError} {padding : List Nat}

/-! ## The check of a declared offset -/

theorem covering?_eq_some {byte : Nat} {e : Entry Layout} (hs : Tiling options padding s)
    (h : s.covering? byte = some e) : LastCovering s.entries byte e := by
  obtain ⟨hcovers, later, earlier, hentries, hlater⟩ := List.find?_eq_some_iff_append.mp h
  have hlater : ∀ d ∈ later, d.covers byte = false := by
    intro d hd
    exact (Bool.not_eq_true' _).mp (hlater d hd)
  refine ⟨hcovers, ⟨later, earlier, hentries, hlater⟩, ?_⟩
  intro d hd hdcovers
  rw [hentries] at hd
  rcases List.mem_append.mp hd with hd | hd
  · rw [hlater d hd] at hdcovers
    cases hdcovers
  · rcases List.mem_cons.mp hd with rfl | hd
    · exact Or.inl rfl
    · have hordered := hs.ordered
      rw [hentries] at hordered
      have hprecedes := (List.pairwise_cons.mp (List.pairwise_append.mp hordered).2.1).1 d hd
      rcases hprecedes with hword | hfinish
      · exact Or.inr hword
      · have hhigh := (Entry.covers_iff.mp hdcovers).2
        have hlow := (Entry.covers_iff.mp hcovers).1
        omega

theorem covering?_eq_none_iff {byte : Nat} :
    s.covering? byte = none ↔ ∀ e ∈ s.entries, e.covers byte = false := by
  refine List.find?_eq_none.trans (forall₂_congr fun e _ => ?_)
  exact Bool.eq_false_iff.symm

theorem checkDeclared_of_lt {field : String} {o place : Nat} (h : place < o) :
    s.checkDeclared field (some o) place = .error (.unexpectedGap field o place) := by
  unfold checkDeclared
  dsimp only
  rw [if_neg h.ne', if_pos h]

theorem checkDeclared_of_covering {field : String} {o place : Nat} {e : Entry Layout}
    (h : o < place) (hcovering : s.covering? o = some e) :
    s.checkDeclared field (some o) place =
      .error (.overlap field o e.name e.offset e.finish) := by
  unfold checkDeclared
  dsimp only
  rw [if_neg h.ne, if_neg (Nat.lt_asymm h), hcovering]

theorem checkDeclared_of_covering_none {field : String} {o place : Nat} (h : o < place)
    (hcovering : s.covering? o = none) :
    s.checkDeclared field (some o) place = .error (.paddingOverlap field o) := by
  unfold checkDeclared
  dsimp only
  rw [if_neg h.ne, if_neg (Nat.lt_asymm h), hcovering]

theorem exists_checkDeclared_eq_error_iff {field : String} {declared : Option Nat}
    {place : Nat} :
    (∃ x, s.checkDeclared field declared place = .error x) ↔
      ∃ o, declared = some o ∧ o ≠ place := by
  have hok : s.checkDeclared field declared place = .ok () ↔ ∀ o ∈ declared, o = place :=
    checkDeclared_eq_ok_iff
  cases hcheck : s.checkDeclared field declared place with
  | error x =>
      rw [hcheck] at hok
      simpa using hok
  | ok _ =>
      rw [hcheck] at hok
      simpa using hok

/-! ## Declarations -/

/-- The declared offset is the first rule that a declaration breaks, in the state that its field
or flag, or an instance of its repeated field, is placed from. -/
inductive Misdeclares (space : AddressSpace) :
    Placement → Declaration → Placement → Misplaced → Prop
  | field {s : Placement} {f : Field Layout} {o : Nat} (dimensions : 0 ∉ f.dimensions)
      (element : f.content.size ≠ 0) (declared : f.offset = some o) (off : o ≠ s.cursor) :
      Misdeclares space s (.field f) s ⟨f.name, o, s.cursor⟩
  | flag {s : Placement} {b : Flag} {o : Nat} (declared : b.offset = some o)
      (off : o ≠ s.currentWord.offset) :
      Misdeclares space s (.flag b) s ⟨b.name, o, s.currentWord.offset⟩
  | repetition {s t : Placement} {r : Repetition} {front back : List (Field Layout)}
      {f : Field Layout} {m : Misplaced} (count : r.count ≠ 0)
      (room : (r.size? space).bind (space.add? s.cursor) ≠ none)
      (instances : r.instances space = front ++ f :: back) (admits : s.AdmitsAll space front)
      (misdeclares : Misdeclares space (s.withFields front) (.field f) t m) :
      Misdeclares space s (.repetition r) t m

theorem Misdeclares.place_eq_error (h : Misdeclares space s d u m)
    (hcheck : u.checkDeclared m.field (some m.declared) m.place = .error x) :
    s.place space options d next = .error x := by
  have hrule := rule_of_checkDeclared hcheck
  induction h with
  | @field s f o hdims hsize hdeclared _ =>
      refine (placeField_eq_error_iff_of_rule hrule).mpr ⟨?_, ?_⟩
      · exact checkElements_eq_ok_iff.mpr ⟨hdims, hsize⟩
      · rw [hdeclared]
        exact hcheck
  | @flag s b o hdeclared _ =>
      refine (placeFlag_eq_error_iff_of_rule (by simp [hrule]) (by simp [hrule])).mpr ?_
      rw [hdeclared]
      exact Or.inl hcheck
  | @repetition s t r front back f m hcount hroom hinstances hall _ ih =>
      exact (placeRepetition_eq_error_iff_of_rule (by simp [hrule]) (by simp [hrule])).mpr
        ⟨hcount, hroom, front, f, back, hinstances, hall, ih hcheck⟩

theorem Misdeclares.declared_ne (h : Misdeclares space s d u m) : m.declared ≠ m.place := by
  induction h with
  | field _ _ _ hne => exact hne
  | flag _ hne => exact hne
  | repetition _ _ _ _ _ ih => exact ih

theorem misdeclares_of_placeField {f : Field Layout} (hrule : x.rule = .declaredOffset)
    (h : s.placeField space f = .error x) : ∃ m, Misdeclares space s (.field f) s m := by
  obtain ⟨helements, hcheck⟩ := (placeField_eq_error_iff_of_rule hrule).mp h
  obtain ⟨hdims, hsize⟩ := checkElements_eq_ok_iff.mp helements
  obtain ⟨o, hdeclared, hne⟩ := exists_checkDeclared_eq_error_iff.mp ⟨x, hcheck⟩
  exact ⟨_, .field hdims hsize hdeclared hne⟩

theorem misdeclares_of_place (hrule : x.rule = .declaredOffset)
    (h : s.place space options d next = .error x) : ∃ u m, Misdeclares space s d u m := by
  cases d with
  | field f => exact ⟨s, misdeclares_of_placeField hrule h⟩
  | flag b =>
      rcases (placeFlag_eq_error_iff_of_rule (by simp [hrule]) (by simp [hrule])).mp h with
        hcheck | ⟨_, hbit⟩
      · obtain ⟨o, hdeclared, hne⟩ := exists_checkDeclared_eq_error_iff.mp ⟨x, hcheck⟩
        exact ⟨s, _, .flag hdeclared hne⟩
      · obtain ⟨bit, _, ⟨_, rfl⟩ | ⟨_, _, rfl⟩⟩ := chooseBit_eq_error_iff.mp hbit <;> cases hrule
  | pad n =>
      rw [rule_of_placePadding h] at hrule
      cases hrule
  | alignNext =>
      rcases bind_eq_error_iff.mp h with halignment | ⟨_, _, hpadding⟩
      · rw [rule_of_alignmentOf halignment] at hrule
        cases hrule
      · rw [rule_of_placePadding hpadding] at hrule
        cases hrule
  | repetition r =>
      obtain ⟨hcount, hroom, front, f, back, hinstances, hall, hrefused⟩ :=
        (placeRepetition_eq_error_iff_of_rule (by simp [hrule]) (by simp [hrule])).mp h
      obtain ⟨m, hm⟩ := misdeclares_of_placeField hrule hrefused
      exact ⟨_, m, .repetition hcount hroom hinstances hall hm⟩
  | void => cases h

/-- The place is at the cursor, also of a flag in an open word. -/
theorem Misdeclares.tiling (h : Misdeclares space s d u m) (hready : s.WordReady options d)
    (hs : Tiling options padding s) :
    Tiling options padding u ∧ m.place ≤ u.frontier options := by
  induction h with
  | field _ _ _ _ =>
      refine ⟨hs, ?_⟩
      rw [frontier_of_none (hready.open?_eq_none rfl)]
  | @flag s b o _ _ =>
      refine ⟨hs, ?_⟩
      dsimp only
      cases hopen : s.open? with
      | none => rw [frontier_of_none hopen, hready.currentWord_offset]
      | some w =>
          rw [frontier_of_open hopen]
          exact Nat.le_add_right _ _
  | @repetition s t r front back f m _ _ _ hall _ ih =>
      have hopen := hready.open?_eq_none rfl
      apply ih
      · exact .of_none ((withFields_open? s front).trans hopen)
      · exact hs.withFields hopen hall

/-! ## Padding -/

theorem Step.of_mem_inserted {byte : Nat} (h : Step space options s d next t)
    (hbyte : byte ∈ List.range' s.cursor (insertedBy options s.cursor d next)) :
    d.isDirective = true ∧ s.cursor ≤ byte ∧ byte < t.cursor := by
  have hrange := List.mem_range'_1.mp hbyte
  cases h with
  | pad _ => exact ⟨rfl, hrange⟩
  | alignNext haligned _ =>
      rw [insertedBy, haligned] at hrange
      exact ⟨rfl, hrange⟩
  | _ =>
      have hnone : byte < s.cursor + 0 := hrange.2
      have hlow := hrange.1
      omega

theorem exists_stage_of_mem_insertedBytes {ds : List Declaration} {byte : Nat}
    (h : byte ∈ s.insertedBytes space options next ds) :
    ∃ g ∈ s.stages space options next ds,
      g.declaration.isDirective = true ∧ g.before.cursor ≤ byte ∧ byte < g.after.cursor := by
  rw [insertedBytes_eq_flatMap] at h
  obtain ⟨g, hg, hbyte⟩ := List.mem_flatMap.mp h
  exact ⟨g, hg, (step_of_mem_stages hg).of_mem_inserted hbyte⟩

end Placement

namespace Layout

variable {options : Options} {name : String} {ds : List Declaration} {u : Placement}
  {m : Misplaced} {x : PlacementError}

/-- The first rule that a sequence breaks is the declared offset of a field or flag, which would
be placed from the state `u`. -/
def Misdeclared (options : Options) (ds : List Declaration) (u : Placement) (m : Misplaced) :
    Prop :=
  ∃ front d back s, ds = front ++ d :: back ∧
    Placement.placeBefore .wide options d {} front = .ok s ∧ Placement.Misdeclares .wide s d u m

theorem Misdeclared.declared_ne (h : Misdeclared options ds u m) : m.declared ≠ m.place := by
  obtain ⟨front, d, back, s, _, _, hm⟩ := h
  exact hm.declared_ne

theorem Misdeclared.compile_eq (h : Misdeclared options ds u m)
    (hcheck : u.checkDeclared m.field (some m.declared) m.place = .error x) :
    compile options name ds = .error (.placement name x) := by
  obtain ⟨front, d, back, s, hds, hrun, hm⟩ := h
  exact compile_eq_placement_iff_exists.mpr
    ⟨front, d, back, s, hds, hrun, hm.place_eq_error hcheck⟩

/-- Nothing else is refused for a declared offset. -/
theorem exists_misdeclared_iff :
    (∃ u m, Misdeclared options ds u m) ↔
      ∃ x, compile options name ds = .error (.placement name x) ∧ x.rule = .declaredOffset := by
  constructor
  · rintro ⟨u, m, h⟩
    obtain ⟨x, hcheck⟩ : ∃ x, u.checkDeclared m.field (some m.declared) m.place = .error x :=
      Placement.exists_checkDeclared_eq_error_iff.mpr ⟨_, rfl, h.declared_ne⟩
    exact ⟨x, h.compile_eq hcheck, Placement.rule_of_checkDeclared hcheck⟩
  · rintro ⟨x, h, hrule⟩
    obtain ⟨front, d, back, s, hds, hrun, hrefused⟩ := compile_eq_placement_iff_exists.mp h
    obtain ⟨u, m, hm⟩ := Placement.misdeclares_of_place hrule hrefused
    exact ⟨u, m, front, d, back, s, hds, hrun, hm⟩

theorem Misdeclared.tiling (h : Misdeclared options ds u m) :
    ∃ padding, Placement.Tiling options padding u ∧ m.place ≤ u.frontier options ∧
      ∀ byte ∈ padding, ∃ g ∈ Placement.stages .wide options .void {} ds,
        g.declaration.isDirective = true ∧ g.before.cursor ≤ byte ∧ byte < g.after.cursor := by
  obtain ⟨front, d, back, s, rfl, hrun, hm⟩ := h
  obtain ⟨htiling, hready⟩ := Placement.tiling_of_run hrun
  obtain ⟨htiling, hplace⟩ := hm.tiling hready htiling
  refine ⟨_, htiling, hplace, ?_⟩
  intro byte hbyte
  obtain ⟨g, hg, hinserted⟩ := Placement.exists_stage_of_mem_insertedBytes hbyte
  exact ⟨g, Placement.mem_stages_append hg, hinserted⟩

/-- A misplaced field is refused as past a gap, as overlapping the last entry that covers its
declared byte, or as overlapping what a directive inserted. -/
theorem compile_of_misdeclared (h : Misdeclared options ds u m) (name : String) :
    (m.place < m.declared →
      compile options name ds =
        .error (.placement name (.unexpectedGap m.field m.declared m.place))) ∧
    (m.declared < m.place → (∃ e ∈ u.entries, e.covers m.declared = true) →
      ∃ e, LastCovering u.entries m.declared e ∧
        compile options name ds =
          .error (.placement name (.overlap m.field m.declared e.name e.offset e.finish))) ∧
    (m.declared < m.place → (∀ e ∈ u.entries, e.covers m.declared = false) →
      compile options name ds = .error (.placement name (.paddingOverlap m.field m.declared)) ∧
        ∃ g ∈ Placement.stages .wide options .void {} ds, g.declaration.isDirective = true ∧
          g.before.cursor ≤ m.declared ∧ m.declared < g.after.cursor) := by
  obtain ⟨padding, htiling, hplace, hinserted⟩ := h.tiling
  refine ⟨?_, ?_, ?_⟩
  · intro hgap
    exact h.compile_eq (Placement.checkDeclared_of_lt hgap)
  · rintro hlt ⟨d, hd, hcovers⟩
    cases hcovering : u.covering? m.declared with
    | none =>
        rw [Placement.covering?_eq_none_iff.mp hcovering d hd] at hcovers
        cases hcovers
    | some e =>
        refine ⟨e, Placement.covering?_eq_some htiling hcovering, ?_⟩
        exact h.compile_eq (Placement.checkDeclared_of_covering hlt hcovering)
  · intro hlt hnone
    have hcovering := Placement.covering?_eq_none_iff.mpr hnone
    refine ⟨h.compile_eq (Placement.checkDeclared_of_covering_none hlt hcovering), ?_⟩
    apply hinserted
    rw [← htiling.uncovered]
    refine List.mem_filter.mpr ⟨List.mem_range.mpr (hlt.trans_le hplace), ?_⟩
    simpa using hnone

/-- A word of flags and padding before a field that is declared at an offset. -/
def lateDeclarations (o : Nat) : List Declaration :=
  [.field { name := "gain", content := .primitive .float }, .flag { name := "first" },
    .flag { name := "second" }, .pad 4,
    .field { name := "late", content := .primitive (.integer ⟨false, .one⟩), offset := some o }]

def earlierEntries : List (Entry Layout) :=
  [.flag { name := "second" } 4 .four 1, .flag { name := "first" } 4 .four 0,
    .field { name := "gain", content := .primitive .float } 0 4 none]

theorem misdeclared_lateDeclarations {o : Nat} (ho : o ≠ 12) :
    Misdeclared {} (lateDeclarations o) ⟨12, none, earlierEntries, []⟩ ⟨"late", o, 12⟩ := by
  refine ⟨(lateDeclarations o).take 4, _, [], _, rfl, rfl, ?_⟩
  exact .field List.not_mem_nil Nat.one_ne_zero rfl ho

theorem compile_lateDeclarations :
    compile {} "sample" (lateDeclarations 20) =
        .error (.placement "sample" (.unexpectedGap "late" 20 12)) ∧
      compile {} "sample" (lateDeclarations 5) =
        .error (.placement "sample" (.overlap "late" 5 "second" 4 8)) ∧
      compile {} "sample" (lateDeclarations 9) =
        .error (.placement "sample" (.paddingOverlap "late" 9)) := by
  have hgap := compile_of_misdeclared (misdeclared_lateDeclarations (o := 20) (by decide)) "sample"
  have hcovered :=
    compile_of_misdeclared (misdeclared_lateDeclarations (o := 5) (by decide)) "sample"
  have hpadding :=
    compile_of_misdeclared (misdeclared_lateDeclarations (o := 9) (by decide)) "sample"
  refine ⟨hgap.1 (by decide), ?_, (hpadding.2.2 (by decide) (by decide)).1⟩
  obtain ⟨e, hlast, hcompile⟩ := hcovered.2.1 (by decide) ⟨_, List.mem_cons_self, rfl⟩
  rcases hlast.others _ List.mem_cons_self rfl with rfl | ⟨i, j, hi, hj, _, hlt⟩
  · exact hcompile
  · -- no other entry has a bit above that of the second flag
    cases hi
    have he := hlast.mem
    simp only [earlierEntries, List.mem_cons, List.not_mem_nil, or_false] at he
    rcases he with rfl | rfl | rfl <;> cases hj <;> omega

end Layout

end StructureLayout
