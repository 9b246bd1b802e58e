import StructureLayout.Proofs.Placement.Overflow

/-!
# Declared offsets

A declared offset is only an assertion.  A sequence is laid out exactly when it is laid out
without its declared offsets and each of them is the offset that its field then has, and the
two layouts place every field and flag alike.
-/

namespace StructureLayout

def Field.undeclared {σ : Type} (f : Field σ) : Field σ := { f with offset := none }

def Flag.undeclared (b : Flag) : Flag := { b with offset := none }

def Entry.undeclared {σ : Type} : Entry σ → Entry σ
  | field f offset size scaling => field f.undeclared offset size scaling
  | flag b offset word bit => flag b.undeclared offset word bit

namespace Repetition

def undeclared (r : Repetition) : Repetition := { r with template := r.template.undeclared }

theorem instances_undeclared (space : AddressSpace) (r : Repetition) :
    r.undeclared.instances space = (r.instances space).map Field.undeclared := by
  rw [instances, instances, List.map_map]
  rfl

end Repetition

namespace Declaration

def undeclared : Declaration → Declaration
  | field f => field f.undeclared
  | flag b => flag b.undeclared
  | pad n => pad n
  | alignNext => alignNext
  | repetition r => repetition r.undeclared
  | void => void

/-- The name of the first field or flag that the declaration places. -/
def leadName? : Declaration → Option String
  | field f => some f.name
  | flag b => some b.name
  | repetition r => some (Text.withIndex r.template.name 0 "")
  | pad _ | alignNext | void => none

@[simp] theorem isFlag_undeclared (d : Declaration) : d.undeclared.isFlag = d.isFlag := by
  cases d <;> rfl

@[simp] theorem leadName?_undeclared (d : Declaration) :
    d.undeclared.leadName? = d.leadName? := by
  cases d <;> rfl

theorem leadName?_of_declaredOffset? {d : Declaration} {o : Nat} (h : o ∈ d.declaredOffset?) :
    ∃ name, d.leadName? = some name := by
  cases d with
  | field f => exact ⟨_, rfl⟩
  | flag b => exact ⟨_, rfl⟩
  | repetition r => exact ⟨_, rfl⟩
  | pad n => cases h
  | alignNext => cases h
  | void => cases h

theorem headD_map_undeclared (ds : List Declaration) (next : Declaration) :
    (ds.map undeclared).headD next.undeclared = (ds.headD next).undeclared := by
  cases ds <;> rfl

end Declaration

section EntryFacts

variable {σ : Type} (e : Entry σ)

@[simp] theorem Entry.name_undeclared : e.undeclared.name = e.name := by cases e <;> rfl

@[simp] theorem Entry.offset_undeclared : e.undeclared.offset = e.offset := by cases e <;> rfl

end EntryFacts

namespace Placement

variable {space : AddressSpace} {options : Options} {s t : Placement}

def undeclared (s : Placement) : Placement :=
  { s with entries := s.entries.map Entry.undeclared }

theorem undeclared_withField (s : Placement) (f : Field Layout) :
    (s.withField f).undeclared = s.undeclared.withField f.undeclared := rfl

theorem undeclared_withFields (s : Placement) (fs : List (Field Layout)) :
    (s.withFields fs).undeclared = s.undeclared.withFields (fs.map Field.undeclared) := by
  induction fs generalizing s with
  | nil => rfl
  | cons f fs ih =>
      rw [List.map_cons, withFields_cons, withFields_cons, ih, undeclared_withField]

theorem closesWord_undeclared (s : Placement) (b : Flag) (next : Declaration) :
    s.undeclared.closesWord options b.undeclared next.undeclared =
      s.closesWord options b next := by
  rw [closesWord, closesWord, Declaration.isFlag_undeclared]
  rfl

theorem undeclared_withFlag (s : Placement) (b : Flag) (next : Declaration) :
    (s.withFlag options b next).undeclared =
      s.undeclared.withFlag options b.undeclared next.undeclared := by
  unfold withFlag
  rw [closesWord_undeclared]
  rfl

theorem fresh_undeclared_iff {name : String} :
    (∀ e ∈ s.undeclared.entries, e.name ≠ name) ↔ ∀ e ∈ s.entries, e.name ≠ name := by
  simp [undeclared]

theorem alignmentOf_undeclared (cursor : Nat) (d : Declaration) :
    alignmentOf options cursor d.undeclared = alignmentOf options cursor d := by
  cases d <;> rfl

theorem admits_iff_undeclared {f : Field Layout} :
    s.Admits space f ↔
      s.undeclared.Admits space f.undeclared ∧ ∀ d ∈ f.offset, d = s.cursor := by
  constructor
  · intro h
    exact ⟨⟨h.dimensions, h.element, nofun, fresh_undeclared_iff.mpr h.fresh, h.fits⟩,
      h.declared⟩
  · rintro ⟨h, hdeclared⟩
    exact ⟨h.dimensions, h.element, hdeclared, fresh_undeclared_iff.mp h.fresh, h.fits⟩

theorem admitsFlag_iff_undeclared {b : Flag} {next : Declaration} :
    s.AdmitsFlag space options b next ↔
      s.undeclared.AdmitsFlag space options b.undeclared next.undeclared ∧
        ∀ d ∈ b.offset, d = s.currentWord.offset := by
  constructor
  · intro h
    refine ⟨⟨nofun, h.bit, fresh_undeclared_iff.mpr h.fresh, ?_⟩, h.declared⟩
    rw [closesWord_undeclared]
    exact h.fits
  · rintro ⟨h, hdeclared⟩
    refine ⟨hdeclared, h.bit, fresh_undeclared_iff.mp h.fresh, ?_⟩
    rw [← closesWord_undeclared]
    exact h.fits

/-- Every declared offset is the one that the fields before it lead to. -/
def DeclaredFrom : Nat → List (Field Layout) → Prop
  | _, [] => True
  | cursor, f :: fs => (∀ d ∈ f.offset, d = cursor) ∧ DeclaredFrom (cursor + f.bytes) fs

theorem admitsAll_iff_undeclared {fs : List (Field Layout)} :
    s.AdmitsAll space fs ↔
      s.undeclared.AdmitsAll space (fs.map Field.undeclared) ∧ DeclaredFrom s.cursor fs := by
  induction fs generalizing s with
  | nil => exact ⟨fun h => ⟨h, h⟩, And.left⟩
  | cons f fs ih =>
      rw [List.map_cons, AdmitsAll, AdmitsAll, DeclaredFrom, admits_iff_undeclared, ih,
        undeclared_withField]
      constructor
      · rintro ⟨⟨hfirst, hd⟩, hrest, hds⟩
        exact ⟨⟨hfirst, hrest⟩, hd, hds⟩
      · rintro ⟨⟨hfirst, hrest⟩, hd, hds⟩
        exact ⟨⟨hfirst, hd⟩, hrest, hds⟩

end Placement

namespace Repetition

variable {space : AddressSpace} {r : Repetition}

/-- The offsets that the instances inherit are those at which they stand, if the template is
declared where the first of them stands. -/
theorem declaredFrom_instances {cursor : Nat}
    (hdims : 0 ∉ r.template.dimensions) (hsize : r.template.content.size ≠ 0)
    (hdeclared : ∀ d ∈ r.template.offset, d = cursor)
    (hfits : space.fits (cursor + r.count * r.template.bytes) = true) :
    Placement.DeclaredFrom cursor (r.instances space) := by
  -- the instances from any index on, which stand past those before
  have hfrom (n start : Nat) (hn : start + n ≤ r.count) :
      Placement.DeclaredFrom (cursor + start * r.template.bytes)
        ((List.range' start n).map (r.instanceAt space)) := by
    induction n generalizing start with
    | zero => trivial
    | succ n ih =>
        have hnext : cursor + start * r.template.bytes + r.template.bytes =
            cursor + (start + 1) * r.template.bytes := by
          rw [Nat.succ_mul, Nat.add_assoc]
        refine ⟨offset_of_instanceAt (by omega) hdims hsize hdeclared hfits, ?_⟩
        rw [bytes_instanceAt, hnext]
        exact ih (start + 1) (by omega)
  have hall := hfrom r.count 0 (Nat.zero_add _).le
  rwa [Nat.zero_mul, Nat.add_zero, ← List.range_eq_range'] at hall

end Repetition

namespace Placement

variable {space : AddressSpace} {options : Options} {s t : Placement}

/-! ## Steps -/

theorem Step.undeclared {d next : Declaration} (h : Step space options s d next t) :
    Step space options s.undeclared d.undeclared next.undeclared t.undeclared := by
  cases h with
  | field hadmits => exact .field (admits_iff_undeclared.mp hadmits).1
  | flag hadmits =>
      rw [undeclared_withFlag]
      exact .flag (admitsFlag_iff_undeclared.mp hadmits).1
  | pad hfits => exact .pad hfits
  | alignNext haligned hfits =>
      exact .alignNext ((alignmentOf_undeclared _ _).trans haligned) hfits
  | repetition hcount hadmits =>
      rw [undeclared_withFields, ← Repetition.instances_undeclared]
      refine .repetition hcount ?_
      rw [Repetition.instances_undeclared]
      exact (admitsAll_iff_undeclared.mp hadmits).1
  | void => exact .void

/-- A declaration that is placed is declared, if at all, where it stands. -/
theorem Step.declaredOffset {d next : Declaration} (h : Step space options s d next t)
    (hready : s.WordReady options d) : ∀ o ∈ d.declaredOffset?, o = s.cursor := by
  cases h with
  | field hadmits => exact hadmits.declared
  | flag hadmits =>
      rw [← hready.currentWord_offset]
      exact hadmits.declared
  | pad _ => exact nofun
  | alignNext _ _ => exact nofun
  | repetition hcount hadmits => exact hadmits.declared hcount
  | void => exact nofun

theorem Step.of_undeclared {d next : Declaration} {u : Placement}
    (h : Step space options s.undeclared d.undeclared next.undeclared u)
    (hready : s.WordReady options d) (hdeclared : ∀ o ∈ d.declaredOffset?, o = s.cursor) :
    ∃ t, u = t.undeclared ∧ Step space options s d next t := by
  cases d with
  | field f =>
      cases h with
      | field hadmits =>
          exact ⟨_, rfl, .field (admits_iff_undeclared.mpr ⟨hadmits, hdeclared⟩)⟩
  | flag b =>
      cases h with
      | flag hadmits =>
          rw [← hready.currentWord_offset] at hdeclared
          exact ⟨_, (undeclared_withFlag s b next).symm,
            .flag (admitsFlag_iff_undeclared.mpr ⟨hadmits, hdeclared⟩)⟩
  | pad n =>
      cases h with
      | pad hfits => exact ⟨s.withPadding n, rfl, .pad hfits⟩
  | alignNext =>
      cases h with
      | alignNext haligned hfits =>
          rw [alignmentOf_undeclared] at haligned
          exact ⟨_, rfl, .alignNext haligned hfits⟩
  | repetition r =>
      cases h with
      | repetition hcount hadmits =>
          obtain ⟨hdims, hsize⟩ := hadmits.template hcount
          have hfits := hadmits.fits_instances hcount
          have hfrom : DeclaredFrom s.cursor (r.instances space) :=
            Repetition.declaredFrom_instances hdims hsize hdeclared hfits
          rw [Repetition.instances_undeclared] at hadmits ⊢
          refine ⟨_, (undeclared_withFields s _).symm, .repetition hcount ?_⟩
          exact admitsAll_iff_undeclared.mpr ⟨hadmits, hfrom⟩
  | void =>
      cases h with
      | void => exact ⟨s, rfl, .void⟩

theorem Step.lead {d next : Declaration} (h : Step space options s d next t)
    (hready : s.WordReady options d) :
    ∀ name ∈ d.leadName?, ∃ e ∈ t.entries, e.name = name ∧ e.offset = s.cursor := by
  cases h with
  | @field f _ _ =>
      rintro name ⟨⟩
      exact ⟨.field f s.cursor f.bytes (boundScaling f), List.mem_cons_self, rfl, rfl⟩
  | @flag b _ _ =>
      rintro name ⟨⟩
      exact ⟨.flag b s.currentWord.offset options.bitWord (s.bitFor b), List.mem_cons_self, rfl,
        hready.currentWord_offset⟩
  | pad _ => exact nofun
  | alignNext _ _ => exact nofun
  | @repetition r _ hcount _ =>
      rintro name ⟨⟩
      obtain ⟨fs, hfs⟩ := Repetition.instances_eq_cons hcount
      have hsuffix := entries_suffix_withFields (s.withField (r.instanceAt space 0)) fs
      rw [hfs, withFields_cons]
      exact ⟨_, hsuffix.mem List.mem_cons_self, rfl, rfl⟩
  | void => exact nofun

theorem WordReady.undeclared {d : Declaration} (h : s.WordReady options d) :
    s.undeclared.WordReady options d.undeclared where
  offset := h.offset
  nextBit := h.nextBit
  awaits := d.isFlag_undeclared.symm ▸ h.awaits

/-! ## Runs -/

theorem placeBefore_undeclared {next : Declaration} {ds : List Declaration}
    (h : s.placeBefore space options next ds = .ok t) :
    s.undeclared.placeBefore space options next.undeclared (ds.map Declaration.undeclared) =
      .ok t.undeclared := by
  induction ds generalizing s with
  | nil =>
      cases h
      rfl
  | cons d ds ih =>
      obtain ⟨u, hstep, hrest⟩ := placeBefore_cons_eq_ok_iff.mp h
      refine placeBefore_cons_eq_ok_iff.mpr ⟨u.undeclared, ?_, ih hrest⟩
      rw [Declaration.headD_map_undeclared]
      exact hstep.undeclared

/-- What a declaration places first stands where the declaration says, if it says. -/
def Confirms (s : Placement) (d : Declaration) : Prop :=
  ∀ o ∈ d.declaredOffset?, ∃ e ∈ s.entries, d.leadName? = some e.name ∧ e.offset = o

theorem confirms_undeclared_iff {d : Declaration} :
    s.undeclared.Confirms d ↔ s.Confirms d := by
  simp [Confirms, undeclared]

theorem Confirms.mono {d : Declaration} (h : s.Confirms d) (hst : s.entries <:+ t.entries) :
    t.Confirms d := by
  intro o ho
  obtain ⟨e, he, hname, hoffset⟩ := h o ho
  exact ⟨e, hst.mem he, hname, hoffset⟩

theorem Step.confirms {d next : Declaration} (h : Step space options s d next t)
    (hready : s.WordReady options d) : t.Confirms d := by
  intro o ho
  obtain ⟨name, hname⟩ := Declaration.leadName?_of_declaredOffset? ho
  obtain ⟨e, he, rfl, hoffset⟩ := h.lead hready name hname
  exact ⟨e, he, hname, hoffset.trans (h.declaredOffset hready o ho).symm⟩

theorem confirms_of_placeBefore {next : Declaration} {ds : List Declaration}
    (hready : s.WordReady options (ds.headD next))
    (h : s.placeBefore space options next ds = .ok t) : ∀ d ∈ ds, t.Confirms d := by
  induction ds generalizing s with
  | nil =>
      intro d hd
      cases hd
  | cons d ds ih =>
      obtain ⟨u, hstep, hrest⟩ := placeBefore_cons_eq_ok_iff.mp h
      intro e he
      rcases List.mem_cons.mp he with rfl | he
      · exact (hstep.confirms hready).mono (entries_suffix_of_placeBefore hrest)
      · exact ih (hstep.wordReady hready) hrest e he

theorem placeBefore_of_undeclared (next : Declaration) {ds : List Declaration} {u : Placement}
    (hready : s.WordReady options (ds.headD next)) (hdistinct : u.DistinctNames)
    (h : s.undeclared.placeBefore space options next.undeclared
      (ds.map Declaration.undeclared) = .ok u)
    (hconfirms : ∀ d ∈ ds, u.Confirms d) :
    ∃ t, u = t.undeclared ∧ s.placeBefore space options next ds = .ok t := by
  induction ds generalizing s with
  | nil =>
      cases h
      exact ⟨s, rfl, rfl⟩
  | cons d ds ih =>
      obtain ⟨v, hstep, hrest⟩ := placeBefore_cons_eq_ok_iff.mp h
      rw [Declaration.headD_map_undeclared] at hstep
      have hdeclared : ∀ o ∈ d.declaredOffset?, o = s.cursor := by
        intro o ho
        obtain ⟨e, he, hname, rfl⟩ := hconfirms d List.mem_cons_self o ho
        rw [← Declaration.leadName?_undeclared] at hname
        obtain ⟨first, hfirst, hfirstName, hoffset⟩ := hstep.lead hready.undeclared _ hname
        have hmem := (entries_suffix_of_placeBefore hrest).mem hfirst
        rw [hdistinct.eq_of_name_eq he hmem hfirstName.symm]
        exact hoffset
      obtain ⟨w, rfl, hplace⟩ := hstep.of_undeclared hready hdeclared
      obtain ⟨t, rfl, ht⟩ := ih (hplace.wordReady hready) hrest
        fun e he => hconfirms e (List.mem_cons_of_mem d he)
      exact ⟨t, rfl, placeBefore_cons_eq_ok_iff.mpr ⟨w, hplace, ht⟩⟩

end Placement

/-! ## Layouts -/

def Entry.place {σ : Type} (e : Entry σ) :
    String × Nat × Nat × Option Nat × Option Autoscale :=
  (e.name, e.offset, e.size, e.bit?, e.scaling?)

@[simp] theorem Entry.place_undeclared {σ : Type} (e : Entry σ) :
    e.undeclared.place = e.place := by
  cases e <;> rfl

namespace Layout

variable {space : AddressSpace} {options : Options} {name : String} {ds : List Declaration}

/-- The same fields and flags stand at the same places. -/
structure SamePlaces (l m : Layout) : Prop where
  entries : l.entries.map Entry.place = m.entries.map Entry.place
  totalSize : l.totalSize = m.totalSize

/-- The offset in the layout of what a declaration places first. -/
def leadOffset? (l : Layout) (d : Declaration) : Option Nat :=
  (d.leadName?.bind l.get?).map Entry.offset

/-- The declared offset, if any, is the one in the layout. -/
def Confirms (l : Layout) (d : Declaration) : Prop :=
  ∀ o ∈ d.declaredOffset?, l.leadOffset? d = some o

instance (l : Layout) (d : Declaration) : Decidable (l.Confirms d) :=
  inferInstanceAs (Decidable (∀ o ∈ d.declaredOffset?, l.leadOffset? d = some o))

/-- The declaration at the offset that it has in the layout. -/
def declareAt (l : Layout) : Declaration → Declaration
  | .field f => .field { f with offset := l.leadOffset? (.field f) }
  | .flag b => .flag { b with offset := l.leadOffset? (.flag b) }
  | .pad n => .pad n
  | .alignNext => .alignNext
  | .repetition r =>
    .repetition { r with template := { r.template with offset := l.leadOffset? (.repetition r) } }
  | .void => .void

theorem undeclared_declareAt (l : Layout) (d : Declaration) :
    (l.declareAt d).undeclared = d.undeclared := by
  cases d <;> rfl

@[simp] theorem leadOffset?_declareAt (l m : Layout) (d : Declaration) :
    l.leadOffset? (m.declareAt d) = l.leadOffset? d := by
  cases d <;> rfl

theorem confirms_declareAt (l : Layout) (d : Declaration) : l.Confirms (l.declareAt d) := by
  intro o ho
  rw [leadOffset?_declareAt]
  cases d with
  | field f => exact ho
  | flag b => exact ho
  | repetition r => exact ho
  | pad n => cases ho
  | alignNext => cases ho
  | void => cases ho

theorem leadOffset?_ofPlacement_eq_some_iff {s : Placement} (hs : s.DistinctNames)
    {d : Declaration} {o : Nat} :
    (ofPlacement options name s).leadOffset? d = some o ↔
      ∃ e ∈ s.entries, d.leadName? = some e.name ∧ e.offset = o := by
  rw [leadOffset?, Option.map_eq_some_iff]
  constructor
  · rintro ⟨e, hfound, hoffset⟩
    obtain ⟨lead, hlead, hget⟩ := Option.bind_eq_some_iff.mp hfound
    obtain ⟨he, rfl⟩ := (get?_ofPlacement_eq_some_iff hs).mp hget
    exact ⟨e, he, hlead, hoffset⟩
  · rintro ⟨e, he, hlead, hoffset⟩
    refine ⟨e, Option.bind_eq_some_iff.mpr ⟨_, hlead, ?_⟩, hoffset⟩
    exact (get?_ofPlacement_eq_some_iff hs).mpr ⟨he, rfl⟩

theorem confirms_ofPlacement_iff {s : Placement} (hs : s.DistinctNames) {d : Declaration} :
    (ofPlacement options name s).Confirms d ↔ s.Confirms d := by
  simp only [Confirms, Placement.Confirms, leadOffset?_ofPlacement_eq_some_iff hs]

def undeclared (l : Layout) : Layout := { l with entries := l.entries.map Entry.undeclared }

theorem samePlaces_undeclared (l : Layout) : l.undeclared.SamePlaces l := by
  constructor
  · simp [undeclared]
  · rfl

theorem SamePlaces.symm {l m : Layout} (h : l.SamePlaces m) : m.SamePlaces l :=
  ⟨h.entries.symm, h.totalSize.symm⟩

theorem SamePlaces.trans {l m n : Layout} (h : l.SamePlaces m) (h' : m.SamePlaces n) :
    l.SamePlaces n :=
  ⟨h.entries.trans h'.entries, h.totalSize.trans h'.totalSize⟩

theorem confirms_undeclared_iff (l : Layout) (d : Declaration) :
    l.undeclared.Confirms d ↔ l.Confirms d := by
  have hget (field : String) : l.undeclared.get? field = (l.get? field).map Entry.undeclared := by
    have hname : (fun e : Entry Layout => e.name == field) ∘ Entry.undeclared =
        fun e => e.name == field := by
      funext e
      simp
    rw [get?, undeclared, List.find?_map, hname]
    rfl
  have hlead : l.undeclared.leadOffset? d = l.leadOffset? d := by
    cases hname : d.leadName? with
    | none => simp [leadOffset?, hname]
    | some field => simp [leadOffset?, hname, hget, Function.comp_def]
  rw [Confirms, Confirms, hlead]

theorem ofPlacement_undeclared (s : Placement) :
    ofPlacement options name s.undeclared = (ofPlacement options name s).undeclared := by
  simp [ofPlacement, undeclared, Placement.undeclared]

theorem compileIn_undeclared {l : Layout} (h : compileIn space options name ds = .ok l) :
    compileIn space options name (ds.map Declaration.undeclared) = .ok l.undeclared ∧
      ∀ d ∈ ds, l.undeclared.Confirms d := by
  obtain ⟨s, hrun, hfaults, rfl⟩ := compileIn_eq_ok_iff.mp h
  constructor
  · rw [← ofPlacement_undeclared]
    exact compileIn_eq_ok_iff.mpr ⟨_, Placement.placeBefore_undeclared hrun, hfaults, rfl⟩
  · intro d hd
    rw [confirms_undeclared_iff, confirms_ofPlacement_iff (distinctNames_of_run hrun)]
    exact Placement.confirms_of_placeBefore (.of_none rfl) hrun d hd

theorem compileIn_of_undeclared {m : Layout}
    (h : compileIn space options name (ds.map Declaration.undeclared) = .ok m)
    (hconfirms : ∀ d ∈ ds, m.Confirms d) :
    ∃ l, compileIn space options name ds = .ok l ∧ m = l.undeclared := by
  obtain ⟨u, hrun, hfaults, rfl⟩ := compileIn_eq_ok_iff.mp h
  have hdistinct := distinctNames_of_run hrun
  obtain ⟨s, rfl, hs⟩ := Placement.placeBefore_of_undeclared (s := {}) .void (.of_none rfl)
    hdistinct hrun fun d hd => (confirms_ofPlacement_iff hdistinct).mp (hconfirms d hd)
  exact ⟨_, compileIn_eq_ok_iff.mpr ⟨s, hs, hfaults, rfl⟩, ofPlacement_undeclared s⟩

/-- A sequence has a layout exactly when it has one without its declared offsets that confirms
them, and the places are then the same.  Offsets declared as a layout has them are confirmed. -/
theorem compile_iff_undeclared (options : Options) (name : String) (ds : List Declaration) :
    ((∃ l, compile options name ds = .ok l) ↔
      ∃ m, compile options name (ds.map Declaration.undeclared) = .ok m ∧
        ∀ d ∈ ds, m.Confirms d) ∧
    (∀ l m, compile options name ds = .ok l →
      compile options name (ds.map Declaration.undeclared) = .ok m → l.SamePlaces m) ∧
    ∀ l, compile options name ds = .ok l →
      ∃ m, compile options name (ds.map l.declareAt) = .ok m ∧ m.SamePlaces l := by
  refine ⟨⟨?_, ?_⟩, ?_, ?_⟩
  · rintro ⟨l, hl⟩
    exact ⟨_, compileIn_undeclared hl⟩
  · rintro ⟨m, hm, hconfirms⟩
    obtain ⟨l, hl, -⟩ := compileIn_of_undeclared hm hconfirms
    exact ⟨l, hl⟩
  · intro l m hl hm
    cases (compileIn_undeclared hl).1.symm.trans hm
    exact l.samePlaces_undeclared.symm
  · intro l hl
    have hundeclared : (ds.map l.declareAt).map Declaration.undeclared =
        ds.map Declaration.undeclared := by
      rw [List.map_map]
      exact List.map_congr_left fun d _ => l.undeclared_declareAt d
    have hconfirms : ∀ d ∈ ds.map l.declareAt, l.undeclared.Confirms d := by
      intro d hd
      obtain ⟨e, _, rfl⟩ := List.mem_map.mp hd
      exact (confirms_undeclared_iff l _).mpr (l.confirms_declareAt e)
    obtain ⟨m, hm, hplaces⟩ :=
      compileIn_of_undeclared (hundeclared ▸ (compileIn_undeclared hl).1) hconfirms
    refine ⟨m, hm, m.samePlaces_undeclared.symm.trans ?_⟩
    rw [← hplaces]
    exact l.samePlaces_undeclared

/-- A byte, two flags in one word and a repeated field, each declared where it stands. -/
def declaredSample : List Declaration :=
  [.field { name := "mode", content := .primitive (.integer ⟨false, .one⟩), offset := some 0 },
    .pad 3, .flag { name := "on", offset := some 4 }, .flag { name := "off", offset := some 4 },
    .repetition ⟨{ name := "gain", content := .primitive .float, offset := some 8 }, 3⟩]

theorem compile_declaredSample :
    (∃ l, compile {} "sample" declaredSample = .ok l) ∧
      ¬∃ l, compile {} "sample" (.pad 1 :: declaredSample) = .ok l := by
  constructor
  · exact (compile_iff_undeclared {} "sample" declaredSample).1.mpr ⟨_, rfl, by decide +kernel⟩
  · rw [(compile_iff_undeclared {} "sample" (.pad 1 :: declaredSample)).1]
    rintro ⟨m, hm, hconfirms⟩
    cases hm
    revert hconfirms
    decide +kernel

end Layout

end StructureLayout
