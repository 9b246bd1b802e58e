import StructureLayout.Proofs.Placement.Step
import Mathlib.Data.List.Nodup

/-!
# Runs of placement

A sequence of declarations is placed in view of the declaration that follows it, so that a
run over a long sequence is the composition of runs over its parts.  What every step keeps
holds after every run.
-/

namespace StructureLayout

/-- Under distinct keys a search for a key finds the only element that has it. -/
theorem find?_eq_some_iff_of_nodup {α : Type} {key : α → String} {xs : List α}
    (h : (xs.map key).Nodup) {k : String} {a : α} :
    (xs.find? fun x => key x == k) = some a ↔ a ∈ xs ∧ key a = k := by
  constructor
  · intro hfind
    have hkey := List.find?_some hfind
    exact ⟨List.mem_of_find?_eq_some hfind, beq_iff_eq.mp hkey⟩
  · rintro ⟨ha, rfl⟩
    cases hfind : xs.find? fun x => key x == key a with
    | none => exact absurd (beq_self_eq_true (key a)) (List.find?_eq_none.mp hfind a ha)
    | some b =>
        have hkey := List.find?_some hfind
        rw [List.inj_on_of_nodup_map h (List.mem_of_find?_eq_some hfind) ha (beq_iff_eq.mp hkey)]

namespace Placement

variable {space : AddressSpace} {options : Options} {s t : Placement}

def placeBefore (space : AddressSpace) (options : Options) (next : Declaration)
    (s : Placement) : List Declaration → Except PlacementError Placement
  | [] => .ok s
  | d :: ds => do (← s.place space options d (ds.headD next)).placeBefore space options next ds

@[simp] theorem placeBefore_nil (next : Declaration) :
    s.placeBefore space options next [] = .ok s := rfl

theorem placeAll_eq_placeBefore (ds : List Declaration) :
    s.placeAll space options ds = s.placeBefore space options .void ds := by
  induction ds generalizing s with
  | nil => rfl
  | cons d ds ih =>
      rw [placeAll, placeBefore]
      simp only [ih]

theorem headD_append (ds es : List Declaration) (next : Declaration) :
    (ds ++ es).headD next = ds.headD (es.headD next) := by cases ds <;> rfl

theorem placeBefore_append (next : Declaration) (ds es : List Declaration) :
    s.placeBefore space options next (ds ++ es) =
      s.placeBefore space options (es.headD next) ds >>=
        fun u => u.placeBefore space options next es := by
  induction ds generalizing s with
  | nil => rfl
  | cons d ds ih =>
      rw [List.cons_append, placeBefore, placeBefore, headD_append, bind_assoc]
      simp only [ih]

theorem placeBefore_cons_eq_ok_iff {next d : Declaration} {ds : List Declaration} :
    s.placeBefore space options next (d :: ds) = .ok t ↔
      ∃ u, Step space options s d (ds.headD next) u ∧
        u.placeBefore space options next ds = .ok t := by
  rw [placeBefore, bind_eq_ok_iff]
  simp only [place_eq_ok_iff]

/-- Only the last declaration is placed in view of the one that follows the sequence. -/
theorem placeBefore_concat_eq_ok_iff {next d : Declaration} {ds : List Declaration} :
    s.placeBefore space options next (ds ++ [d]) = .ok t ↔
      ∃ u, s.placeBefore space options d ds = .ok u ∧ Step space options u d next t := by
  rw [placeBefore_append, bind_eq_ok_iff]
  simp [placeBefore_cons_eq_ok_iff]

theorem placeBefore_congr_next {next other : Declaration} {ds : List Declaration}
    (h : ∀ d ∈ ds.getLast?, ∀ u : Placement,
      u.place space options d next = u.place space options d other) :
    s.placeBefore space options next ds = s.placeBefore space options other ds := by
  rcases List.eq_nil_or_concat' ds with rfl | ⟨front, d, rfl⟩
  · rfl
  · have hlast (u : Placement) : u.place space options d next = u.place space options d other :=
      h d (by simp) u
    rw [placeBefore_append, placeBefore_append]
    simp only [placeBefore, List.headD_nil, List.headD_cons, hlast]

/-- What holds of a state and the declaration to come, and is kept by every step, holds after
every run. -/
theorem placeBefore_invariant {P : Placement → Declaration → Prop} {next : Declaration}
    (hstep : ∀ {u v d e}, P u d → Step space options u d e v → P v e)
    {ds : List Declaration} (hs : P s (ds.headD next))
    (h : s.placeBefore space options next ds = .ok t) : P t next := by
  induction ds generalizing s with
  | nil =>
      cases h
      exact hs
  | cons d ds ih =>
      obtain ⟨u, hplace, hrest⟩ := placeBefore_cons_eq_ok_iff.mp h
      exact ih (hstep hs hplace) hrest

/-- What every field, flag and padding keeps is kept by every step. -/
theorem Step.invariant {P : Placement → Prop} {d next : Declaration}
    (hfield : ∀ {u f}, P u → u.Admits space f → P (u.withField f))
    (hflag : ∀ {u b e}, P u → u.AdmitsFlag space options b e → P (u.withFlag options b e))
    (hpadding : ∀ {u n}, P u → P (u.withPadding n))
    (h : Step space options s d next t) (hs : P s) : P t := by
  cases h with
  | field hadmits => exact hfield hs hadmits
  | flag hadmits => exact hflag hs hadmits
  | pad _ => exact hpadding hs
  | alignNext _ _ => exact hpadding hs
  | @repetition r _ _ hadmits =>
      generalize r.instances space = fs at hadmits
      induction fs generalizing s with
      | nil => exact hs
      | cons f fs ih => exact ih (hfield hs hadmits.1) hadmits.2
  | void => exact hs

/-! ## Entries -/

theorem entries_suffix_withFields (s : Placement) (fs : List (Field Layout)) :
    s.entries <:+ (s.withFields fs).entries := by
  induction fs generalizing s with
  | nil => exact List.suffix_rfl
  | cons f fs ih => exact (List.suffix_cons _ _).trans (ih (s.withField f))

theorem Step.entries_suffix {d next : Declaration} (h : Step space options s d next t) :
    s.entries <:+ t.entries := by
  refine h.invariant (P := fun u => s.entries <:+ u.entries) ?_ ?_ ?_ List.suffix_rfl
  · intro u f hu _
    exact hu.trans (List.suffix_cons _ _)
  · intro u b e hu _
    exact hu.trans (List.suffix_cons _ _)
  · intro u n hu
    exact hu

theorem entries_suffix_of_placeBefore {next : Declaration} {ds : List Declaration}
    (h : s.placeBefore space options next ds = .ok t) : s.entries <:+ t.entries := by
  refine placeBefore_invariant (P := fun u _ => s.entries <:+ u.entries) ?_ List.suffix_rfl h
  intro u v d e hu hstep
  exact hu.trans hstep.entries_suffix

def DistinctNames (s : Placement) : Prop := (s.entries.map Entry.name).Nodup

theorem distinctNames_cons {e : Entry Layout} (hs : s.DistinctNames)
    (hfresh : ∀ d ∈ s.entries, d.name ≠ e.name) : ((e :: s.entries).map Entry.name).Nodup := by
  rw [List.map_cons, List.nodup_cons]
  refine ⟨?_, hs⟩
  intro hmem
  obtain ⟨d, hd, hname⟩ := List.mem_map.mp hmem
  exact hfresh d hd hname

theorem Step.distinctNames {d next : Declaration} (h : Step space options s d next t)
    (hs : s.DistinctNames) : t.DistinctNames := by
  refine h.invariant ?_ ?_ ?_ hs
  · intro u f hu hadmits
    exact distinctNames_cons hu hadmits.fresh
  · intro u b e hu hadmits
    exact distinctNames_cons hu hadmits.fresh
  · intro u n hu
    exact hu

theorem distinctNames_of_placeBefore {next : Declaration} {ds : List Declaration}
    (h : s.placeBefore space options next ds = .ok t) (hs : s.DistinctNames) :
    t.DistinctNames := by
  refine placeBefore_invariant (P := fun u _ => u.DistinctNames) ?_ hs h
  intro u v d e hu hstep
  exact hstep.distinctNames hu

theorem DistinctNames.eq_of_name_eq (h : s.DistinctNames) {d e : Entry Layout}
    (hd : d ∈ s.entries) (he : e ∈ s.entries) (hname : d.name = e.name) : d = e :=
  List.inj_on_of_nodup_map h hd he hname

/-! ## Open words -/

/-- An open word stands at the cursor, has a bit left and awaits a flag. -/
structure WordReady (options : Options) (s : Placement) (d : Declaration) : Prop where
  offset : ∀ w ∈ s.open?, w.offset = s.cursor
  nextBit : ∀ w ∈ s.open?, w.nextBit < options.bitWord.bits
  awaits : s.open? ≠ none → d.isFlag = true

theorem WordReady.of_none {d : Declaration} (h : s.open? = none) : s.WordReady options d where
  offset := by simp [h]
  nextBit := by simp [h]
  awaits := by simp [h]

theorem WordReady.open?_eq_none {d : Declaration} (h : s.WordReady options d)
    (hd : d.isFlag = false) : s.open? = none := by
  by_contra hopen
  rw [h.awaits hopen] at hd
  cases hd

theorem WordReady.currentWord_offset {d : Declaration} (h : s.WordReady options d) :
    s.currentWord.offset = s.cursor := by
  unfold currentWord
  cases hopen : s.open? with
  | none => rfl
  | some w => exact h.offset w hopen

theorem WordReady.currentWord_nextBit {d : Declaration} (h : s.WordReady options d) :
    s.currentWord.nextBit < options.bitWord.bits := by
  unfold currentWord
  cases hopen : s.open? with
  | none => exact options.bitWord.bits_pos
  | some w => exact h.nextBit w hopen

theorem WordReady.bitFor_lt {d next : Declaration} {b : Flag} (h : s.WordReady options d)
    (hadmits : s.AdmitsFlag space options b next) : s.bitFor b < options.bitWord.bits := by
  unfold bitFor
  cases hbit : b.bit with
  | none => exact h.currentWord_nextBit
  | some i => exact (hadmits.bit i hbit).2

theorem AdmitsFlag.nextBit_le_bitFor {next : Declaration} {b : Flag}
    (h : s.AdmitsFlag space options b next) : s.currentWord.nextBit ≤ s.bitFor b := by
  unfold bitFor
  cases hbit : b.bit with
  | none => exact Nat.le_refl _
  | some i => exact (h.bit i hbit).1

theorem withFields_open? (s : Placement) (fs : List (Field Layout)) :
    (s.withFields fs).open? = s.open? := by
  induction fs generalizing s with
  | nil => rfl
  | cons f fs ih => exact ih (s.withField f)

theorem Step.wordReady {d next : Declaration} (h : Step space options s d next t)
    (hs : s.WordReady options d) : t.WordReady options next := by
  cases h with
  | field _ => exact .of_none (hs.open?_eq_none rfl)
  | @flag b _ hadmits =>
      by_cases hcloses : s.closesWord options b next = true
      · exact .of_none (open?_withFlag_of_closes hcloses)
      · have hopen := open?_withFlag_of_not_closes hcloses
        have hcursor := cursor_withFlag_of_not_closes hcloses
        have hcloses : s.bitFor b + 1 ≠ options.bitWord.bits ∧ next.isFlag = true := by
          simpa [closesWord] using hcloses
        have hlt := hs.bitFor_lt hadmits
        constructor
        · rw [hopen, hcursor]
          rintro w ⟨⟩
          exact hs.currentWord_offset
        · rw [hopen]
          rintro w ⟨⟩
          have hne := hcloses.1
          dsimp only
          omega
        · intro _
          exact hcloses.2
  | pad _ => exact .of_none (hs.open?_eq_none rfl)
  | alignNext _ _ => exact .of_none (hs.open?_eq_none rfl)
  | @repetition r _ _ _ =>
      exact .of_none ((withFields_open? s _).trans (hs.open?_eq_none rfl))
  | void => exact .of_none (hs.open?_eq_none rfl)

end Placement

namespace Layout

def ofPlacement (options : Options) (name : String) (s : Placement) : Layout :=
  ⟨name, s.entries.reverse, s.cursor, options⟩

variable {space : AddressSpace} {options : Options} {name : String} {ds : List Declaration}

theorem entry_of_get? {l : Layout} {field : String} {e : Entry Layout}
    (h : l.get? field = some e) : e ∈ l.entries ∧ e.name = field := by
  rw [get?] at h
  have hname := List.find?_some h
  exact ⟨List.mem_of_find?_eq_some h, beq_iff_eq.mp hname⟩

theorem get?_ofPlacement_eq_some_iff {s : Placement} (hs : s.DistinctNames) {field : String}
    {e : Entry Layout} :
    (ofPlacement options name s).get? field = some e ↔ e ∈ s.entries ∧ e.name = field := by
  have hnames : ((ofPlacement options name s).entries.map Entry.name).Nodup := by
    rw [ofPlacement, List.map_reverse]
    exact List.nodup_reverse.mpr hs
  rw [get?, find?_eq_some_iff_of_nodup hnames, ofPlacement, List.mem_reverse]

theorem distinctNames_of_run {s : Placement}
    (hrun : Placement.placeBefore space options .void {} ds = .ok s) : s.DistinctNames :=
  Placement.distinctNames_of_placeBefore hrun List.nodup_nil

theorem compileIn_eq_ok_iff {l : Layout} :
    compileIn space options name ds = .ok l ↔
      ∃ s, Placement.placeBefore space options .void {} ds = .ok s ∧ s.faults = [] ∧
        l = ofPlacement options name s := by
  rw [compileIn, Placement.placeAll_eq_placeBefore]
  cases h : Placement.placeBefore space options .void {} ds with
  | error e =>
      constructor
      · exact nofun
      · rintro ⟨s, hs, _⟩
        cases hs
  | ok s =>
      dsimp only
      by_cases hfaults : s.faults = []
      · rw [if_pos hfaults]
        constructor
        · intro hl
          cases hl
          exact ⟨s, rfl, hfaults, rfl⟩
        · rintro ⟨u, hu, _, rfl⟩
          cases hu
          rfl
      · rw [if_neg hfaults]
        constructor
        · exact nofun
        · rintro ⟨u, hu, hnone, _⟩
          cases hu
          exact absurd hnone hfaults

theorem names_nodup_of_compileIn {l : Layout} (h : compileIn space options name ds = .ok l) :
    (l.entries.map Entry.name).Nodup := by
  obtain ⟨s, hrun, -, rfl⟩ := compileIn_eq_ok_iff.mp h
  rw [ofPlacement, List.map_reverse, List.nodup_reverse]
  exact distinctNames_of_run hrun

/-- A placement that is refused leaves no layout, and nothing else is refused as a placement. -/
theorem compile_eq_placement_iff {e : PlacementError} :
    compile options name ds = .error (.placement name e) ↔
      Placement.placeAll .wide options {} ds = .error e := by
  cases h : Placement.placeAll .wide options {} ds with
  | error e' => simp [compile, compileIn, h]
  | ok s =>
      simp only [compile, compileIn, h]
      split <;> simp

theorem exists_placementError
    (h : ∀ s, Placement.placeBefore .wide options .void {} ds ≠ .ok s) :
    ∃ x, compile options name ds = .error (.placement name x) := by
  cases hrun : Placement.placeAll .wide options {} ds with
  | error x => exact ⟨x, compile_eq_placement_iff.mpr hrun⟩
  | ok s =>
      rw [Placement.placeAll_eq_placeBefore] at hrun
      exact absurd hrun (h s)

end Layout

end StructureLayout
