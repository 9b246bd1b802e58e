import StructureLayout.Proofs.Placement.DeclaredOffset
import StructureLayout.Proofs.Placement.Prefix
import StructureLayout.Proofs.Table.Alignment

/-!
# Translation

A sequence that is laid out behind another one is laid out as on its own, moved on by the size
of the first, if that is a multiple of four.  Every alignment divides four, so that the padding
of the directives is the same at the cursor and at the moved one.
-/

namespace StructureLayout

def Field.raised {σ : Type} (k : Nat) (f : Field σ) : Field σ :=
  { f with offset := f.offset.map (k + ·) }

def Flag.raised (k : Nat) (b : Flag) : Flag := { b with offset := b.offset.map (k + ·) }

/-- The entry at an offset raised by `k`, and declared so if it is declared. -/
def Entry.raised {σ : Type} (k : Nat) : Entry σ → Entry σ
  | field f offset size scaling => field (f.raised k) (k + offset) size scaling
  | flag b offset word bit => flag (b.raised k) (k + offset) word bit

def Repetition.raised (k : Nat) (r : Repetition) : Repetition :=
  { r with template := r.template.raised k }

/-- The declaration with the offset it is declared to land on raised by `k`. -/
def Declaration.raised (k : Nat) : Declaration → Declaration
  | field f => field (f.raised k)
  | flag b => flag (b.raised k)
  | pad n => pad n
  | alignNext => alignNext
  | repetition r => repetition (r.raised k)
  | void => void

def OpenWord.raised (k : Nat) (w : OpenWord) : OpenWord := { w with offset := k + w.offset }

def FieldFault.raised (k : Nat) (e : FieldFault) : FieldFault := { e with offset := k + e.offset }

section Raised

variable {σ : Type} (k : Nat)

@[simp] theorem Entry.name_raised (e : Entry σ) : (e.raised k).name = e.name := by
  cases e <;> rfl

theorem Entry.place_raised (e : Entry σ) :
    (e.raised k).place = (e.name, k + e.offset, e.size, e.bit?, e.scaling?) := by
  cases e <;> rfl

@[simp] theorem Declaration.isFlag_raised (d : Declaration) : (d.raised k).isFlag = d.isFlag := by
  cases d <;> rfl

theorem Declaration.headD_map_raised (ds : List Declaration) (next : Declaration) :
    (ds.map (raised k)).headD (next.raised k) = (ds.headD next).raised k := by
  cases ds <;> rfl

theorem Repetition.instanceAt_raised (r : Repetition) (index : Nat) :
    (r.raised k).instanceAt .unbounded index = (r.instanceAt .unbounded index).raised k := by
  cases hoffset : r.template.offset with
  | none => simp [instanceAt, raised, Field.raised, hoffset]
  | some o =>
      simp only [instanceAt, raised, Field.raised, hoffset, Option.map_some, Field.mk.injEq,
        true_and, and_true, Option.some.injEq]
      exact Nat.add_assoc k o _

/-- Without a limit the instances of a raised template are the raised instances. -/
theorem Repetition.instances_raised (r : Repetition) :
    (r.raised k).instances .unbounded = (r.instances .unbounded).map (Field.raised k) := by
  rw [instances, instances, List.map_map]
  exact List.map_congr_left fun index _ => r.instanceAt_raised k index

end Raised

namespace Placement

variable {options : Options} {base s t : Placement} {k : Nat}

/-! ## Padding -/

theorem alignmentOf_dvd_four {cursor alignment : Nat} {d : Declaration}
    (h : alignmentOf options cursor d = .ok alignment) : alignment ∣ 4 := by
  have hwidth (w : Width) : w.bytes ∣ 4 := by cases w <;> decide
  have hcontent (c : Content Layout) : max 1 c.alignment ∣ 4 := by
    obtain ⟨w, hw⟩ := c.exists_width_alignment
    rw [Nat.max_eq_right c.alignment_bounds.1, hw]
    exact hwidth w
  cases d with
  | field f =>
      cases h
      exact hcontent _
  | repetition r =>
      cases h
      exact hcontent _
  | flag b =>
      cases h
      exact hwidth _
  | _ => cases h

theorem alignmentOf_raised {cursor alignment : Nat} {d : Declaration}
    (h : alignmentOf options cursor d = .ok alignment) (k : Nat) :
    alignmentOf options (k + cursor) (d.raised k) = .ok alignment := by
  cases d with
  | field f => exact h
  | repetition r => exact h
  | flag b => exact h
  | _ => cases h

/-- Padding depends on the residue of the cursor only. -/
theorem paddingTo_add {alignment : Nat} (h : alignment ∣ k) (cursor : Nat) :
    paddingTo alignment (k + cursor) = paddingTo alignment cursor := by
  obtain ⟨m, rfl⟩ := h
  rw [paddingTo, Nat.mul_add_mod, paddingTo]

/-! ## States -/

/-- The state `s` reached behind the state `base`. -/
def behind (base s : Placement) : Placement where
  cursor := base.cursor + s.cursor
  open? := s.open?.map (OpenWord.raised base.cursor)
  entries := s.entries.map (Entry.raised base.cursor) ++ base.entries
  faults := s.faults.map (FieldFault.raised base.cursor) ++ base.faults

theorem behind_empty (h : base.open? = none) : base.behind {} = base := by
  rcases base with ⟨cursor, _, entries, faults⟩
  subst h
  rfl

theorem currentWord_behind (base s : Placement) :
    (base.behind s).currentWord = s.currentWord.raised base.cursor := by
  unfold currentWord behind
  cases s.open? <;> rfl

theorem bitFor_behind (base s : Placement) (b : Flag) :
    (base.behind s).bitFor (b.raised base.cursor) = s.bitFor b := by
  rw [bitFor, currentWord_behind]
  rfl

theorem closesWord_behind (base s : Placement) (b : Flag) (next : Declaration) :
    (base.behind s).closesWord options (b.raised base.cursor) (next.raised base.cursor) =
      s.closesWord options b next := by
  rw [closesWord, bitFor_behind, Declaration.isFlag_raised, closesWord]

theorem scalingFaults_raised (f : Field Layout) (offset k : Nat) :
    scalingFaults (f.raised k) (k + offset) =
      (scalingFaults f offset).map (FieldFault.raised k) := by
  have hscaling : scalingOf (f.raised k) = scalingOf f := rfl
  rw [scalingFaults, hscaling, scalingFaults]
  cases scalingOf f <;> rfl

theorem behind_withField (base s : Placement) (f : Field Layout) :
    base.behind (s.withField f) = (base.behind s).withField (f.raised base.cursor) := by
  simp only [withField, behind, scalingFaults_raised, List.map_append, List.append_assoc,
    List.map_cons, List.cons_append, Nat.add_assoc]
  rfl

theorem behind_withFields (base s : Placement) (fs : List (Field Layout)) :
    base.behind (s.withFields fs) =
      (base.behind s).withFields (fs.map (Field.raised base.cursor)) := by
  induction fs generalizing s with
  | nil => rfl
  | cons f fs ih => rw [withFields_cons, ih, List.map_cons, withFields_cons, behind_withField]

theorem behind_withFlag (base s : Placement) (b : Flag) (next : Declaration) :
    base.behind (s.withFlag options b next) =
      (base.behind s).withFlag options (b.raised base.cursor) (next.raised base.cursor) := by
  unfold withFlag
  rw [closesWord_behind, currentWord_behind, bitFor_behind]
  cases s.closesWord options b next with
  | false => rfl
  | true => simp [behind, OpenWord.raised, Entry.raised, Nat.add_assoc]

theorem behind_withPadding (base s : Placement) (n : Nat) :
    base.behind (s.withPadding n) = (base.behind s).withPadding n := by
  simp [behind, withPadding, Nat.add_assoc]

/-! ## Steps and runs -/

/-- No name of the state is one of the entries before it. -/
def NewNames (base s : Placement) : Prop :=
  ∀ e ∈ s.entries, ∀ d ∈ base.entries, d.name ≠ e.name

theorem NewNames.mono (h : base.NewNames t) (hst : s.entries <:+ t.entries) : base.NewNames s :=
  fun e he => h e (hst.mem he)

theorem fresh_behind {name : String} (hs : ∀ e ∈ s.entries, e.name ≠ name)
    (hbase : ∀ d ∈ base.entries, d.name ≠ name) :
    ∀ e ∈ (base.behind s).entries, e.name ≠ name := by
  intro e he
  rcases List.mem_append.mp he with he | he
  · obtain ⟨d, hd, rfl⟩ := List.mem_map.mp he
    rw [Entry.name_raised]
    exact hs d hd
  · exact hbase e he

theorem Admits.behind {f : Field Layout} (h : s.Admits .unbounded f)
    (hnames : base.NewNames (s.withField f)) :
    (base.behind s).Admits .unbounded (f.raised base.cursor) where
  dimensions := h.dimensions
  element := h.element
  declared := by
    intro d hd
    obtain ⟨o, ho, rfl⟩ := Option.mem_map.mp hd
    rw [h.declared o ho]
    rfl
  fresh := fresh_behind h.fresh (hnames _ List.mem_cons_self)
  fits := rfl

theorem AdmitsAll.behind {fs : List (Field Layout)} (h : s.AdmitsAll .unbounded fs)
    (hnames : base.NewNames (s.withFields fs)) :
    (base.behind s).AdmitsAll .unbounded (fs.map (Field.raised base.cursor)) := by
  induction fs generalizing s with
  | nil => trivial
  | cons f fs ih =>
      obtain ⟨hfirst, hrest⟩ := h
      refine ⟨hfirst.behind (hnames.mono (entries_suffix_withFields (s.withField f) fs)), ?_⟩
      rw [← behind_withField]
      exact ih hrest hnames

theorem AdmitsFlag.behind {b : Flag} {next : Declaration}
    (h : s.AdmitsFlag .unbounded options b next)
    (hnames : base.NewNames (s.withFlag options b next)) :
    (base.behind s).AdmitsFlag .unbounded options (b.raised base.cursor)
      (next.raised base.cursor) where
  declared := by
    intro d hd
    obtain ⟨o, ho, rfl⟩ := Option.mem_map.mp hd
    rw [h.declared o ho, currentWord_behind]
    rfl
  bit := by
    rw [currentWord_behind]
    exact h.bit
  fresh := fresh_behind h.fresh (hnames _ List.mem_cons_self)
  fits := fun _ => rfl

theorem Step.behind {d next : Declaration} (hfour : 4 ∣ base.cursor)
    (h : Step .unbounded options s d next t) (hnames : base.NewNames t) :
    Step .unbounded options (base.behind s) (d.raised base.cursor) (next.raised base.cursor)
      (base.behind t) := by
  cases h with
  | field hadmits =>
      rw [behind_withField]
      exact .field (hadmits.behind hnames)
  | flag hadmits =>
      rw [behind_withFlag]
      exact .flag (hadmits.behind hnames)
  | pad _ =>
      rw [behind_withPadding]
      exact .pad rfl
  | alignNext haligned _ =>
      have hdvd := (alignmentOf_dvd_four haligned).trans hfour
      rw [behind_withPadding, ← paddingTo_add hdvd s.cursor]
      exact .alignNext (alignmentOf_raised haligned base.cursor) rfl
  | @repetition r _ hcount hadmits =>
      rw [behind_withFields, ← r.instances_raised]
      refine .repetition hcount ?_
      rw [r.instances_raised]
      exact hadmits.behind hnames
  | void => exact .void

theorem placeBefore_behind {next : Declaration} {ds : List Declaration}
    (hfour : 4 ∣ base.cursor) (h : s.placeBefore .unbounded options next ds = .ok t)
    (hnames : base.NewNames t) :
    (base.behind s).placeBefore .unbounded options (next.raised base.cursor)
      (ds.map (Declaration.raised base.cursor)) = .ok (base.behind t) := by
  induction ds generalizing s with
  | nil =>
      cases h
      rfl
  | cons d ds ih =>
      obtain ⟨u, hstep, hrest⟩ := placeBefore_cons_eq_ok_iff.mp h
      refine placeBefore_cons_eq_ok_iff.mpr ⟨base.behind u, ?_, ih hrest⟩
      rw [Declaration.headD_map_raised]
      exact hstep.behind hfour (hnames.mono (entries_suffix_of_placeBefore hrest))

/-- A finished run goes on with any declaration that does not continue its last word. -/
theorem placeBefore_of_void {space : AddressSpace} {next : Declaration} {ds : List Declaration}
    (h : s.placeBefore space options .void ds = .ok t)
    (hflag : ∀ b, ds.getLast? = some (.flag b) → next.isFlag = false) :
    s.placeBefore space options next ds = .ok t := by
  rcases List.eq_nil_or_concat' ds with rfl | ⟨front, d, rfl⟩
  · exact h
  · obtain ⟨u, hfront, hstep⟩ := placeBefore_concat_eq_ok_iff.mp h
    refine placeBefore_concat_eq_ok_iff.mpr ⟨u, hfront, hstep.change_next ?_ ?_⟩
    · rintro rfl
      cases hstep with
      | alignNext haligned _ => cases haligned
    · cases d with
      | flag b => exact fun _ => (hflag b List.getLast?_concat).symm
      | _ => exact nofun

end Placement

namespace Layout

variable {options : Options} {name₁ name₂ : String} {ds₁ ds₂ : List Declaration}
  {l₁ l₂ : Layout}

/-- The layout of two sequences, the second moved on behind the first. -/
def append (name : String) (l₁ l₂ : Layout) : Layout :=
  ⟨name, l₁.entries ++ l₂.entries.map (Entry.raised l₁.totalSize), l₁.totalSize + l₂.totalSize,
    l₁.options⟩

theorem ofPlacement_behind (options : Options) (name name₁ name₂ : String)
    (base s : Placement) :
    ofPlacement options name (base.behind s) =
      append name (ofPlacement options name₁ base) (ofPlacement options name₂ s) := by
  simp [ofPlacement, append, Placement.behind]

theorem compileIn_append (name : String)
    (h₁ : compileIn .unbounded options name₁ ds₁ = .ok l₁)
    (h₂ : compileIn .unbounded options name₂ ds₂ = .ok l₂) (hfour : 4 ∣ l₁.totalSize)
    (hflags : ∀ b c, ds₁.getLast? = some (.flag b) → ds₂.head? ≠ some (.flag c))
    (hnames : ∀ d ∈ l₁.entries, ∀ e ∈ l₂.entries, d.name ≠ e.name) :
    compileIn .unbounded options name (ds₁ ++ ds₂.map (Declaration.raised l₁.totalSize)) =
      .ok (append name l₁ l₂) := by
  obtain ⟨base, hfirst, hfaults₁, rfl⟩ := compileIn_eq_ok_iff.mp h₁
  obtain ⟨s, hsecond, hfaults₂, rfl⟩ := compileIn_eq_ok_iff.mp h₂
  have hopen := (frontier_of_run hfirst).1
  have hnext : ∀ b, ds₁.getLast? = some (.flag b) →
      ((ds₂.map (Declaration.raised base.cursor)).headD .void).isFlag = false := by
    intro b hb
    cases ds₂ with
    | nil => rfl
    | cons d ds =>
        cases d with
        | flag c => exact absurd rfl (hflags b c hb)
        | _ => rfl
  have hnew : base.NewNames s := fun e he d hd =>
    hnames d (List.mem_reverse.mpr hd) e (List.mem_reverse.mpr he)
  have hmoved := Placement.placeBefore_behind hfour hsecond hnew
  rw [Placement.behind_empty hopen] at hmoved
  rw [← ofPlacement_behind]
  refine compileIn_eq_ok_iff.mpr ⟨base.behind s, ?_, ?_, rfl⟩
  · rw [Placement.placeBefore_append]
    exact bind_eq_ok_iff.mpr ⟨base, Placement.placeBefore_of_void hfirst hnext, hmoved⟩
  · simp [Placement.behind, hfaults₁, hfaults₂]

/-- Two sequences that have layouts have one together, which is that of the first followed by
that of the second moved on. -/
theorem compile_append_raised (name : String) (h₁ : compile options name₁ ds₁ = .ok l₁)
    (h₂ : compile options name₂ ds₂ = .ok l₂) (hfour : 4 ∣ l₁.totalSize)
    (hflags : ∀ b c, ds₁.getLast? = some (.flag b) → ds₂.head? ≠ some (.flag c))
    (hnames : ∀ d ∈ l₁.entries, ∀ e ∈ l₂.entries, d.name ≠ e.name)
    (hfits : l₁.totalSize + l₂.totalSize ≤ 2 ^ 64 - 1) :
    ∃ l, compile options name (ds₁ ++ ds₂.map (Declaration.raised l₁.totalSize)) = .ok l ∧
      l.entries.map Entry.place = l₁.entries.map Entry.place ++ l₂.entries.map
        (fun e => (e.name, l₁.totalSize + e.offset, e.size, e.bit?, e.scaling?)) ∧
      l.totalSize = l₁.totalSize + l₂.totalSize := by
  have hzero := AddressSpace.fits_wide_zero
  have hfirst := ((compileIn_eq_ok_iff_unbounded hzero).mp h₁).1
  have hsecond := ((compileIn_eq_ok_iff_unbounded hzero).mp h₂).1
  have htogether := compileIn_append name hfirst hsecond hfour hflags hnames
  refine ⟨append name l₁ l₂, (compileIn_eq_ok_iff_unbounded hzero).mpr ⟨htogether, ?_⟩, ?_, rfl⟩
  · exact AddressSpace.fits_wide_iff.mpr hfits
  · simp [append, Entry.place_raised, Function.comp_def]

def statusPart : List Declaration := [.flag { name := "on" }, .flag { name := "ok" }]

/-- A byte, padding, arrays that are declared where they stand, padding and a flag. -/
def gainPart : List Declaration :=
  [.field { name := "mode", content := .primitive (.integer ⟨false, .one⟩) }, .alignNext,
    .repetition
      ⟨{ name := "gain", content := .primitive (.integer ⟨true, .two⟩), dimensions := [3]
         offset := some 2 }, 2⟩,
    .alignNext, .flag { name := "off", offset := some 16 }]

theorem compile_append_statusPart :
    ∃ l₁ l₂, compile {} "status" statusPart = .ok l₁ ∧ compile {} "gain" gainPart = .ok l₂ ∧
      4 ∣ l₁.totalSize ∧
      (∀ b c, statusPart.getLast? = some (.flag b) → gainPart.head? ≠ some (.flag c)) ∧
      (∀ d ∈ l₁.entries, ∀ e ∈ l₂.entries, d.name ≠ e.name) ∧
      l₁.totalSize + l₂.totalSize ≤ 2 ^ 64 - 1 ∧
      ∃ l, compile {} "both" (statusPart ++ gainPart.map (Declaration.raised l₁.totalSize)) =
          .ok l ∧
        l.entries.map Entry.place = l₁.entries.map Entry.place ++ l₂.entries.map
          (fun e => (e.name, l₁.totalSize + e.offset, e.size, e.bit?, e.scaling?)) ∧
        l.totalSize = l₁.totalSize + l₂.totalSize := by
  obtain ⟨l₁, l₂, h₁, h₂, hfour, hnames, hfits⟩ :
      ∃ l₁ l₂, compile {} "status" statusPart = .ok l₁ ∧ compile {} "gain" gainPart = .ok l₂ ∧
        4 ∣ l₁.totalSize ∧ (∀ d ∈ l₁.entries, ∀ e ∈ l₂.entries, d.name ≠ e.name) ∧
        l₁.totalSize + l₂.totalSize ≤ 2 ^ 64 - 1 :=
    ⟨_, _, rfl, rfl, by decide +kernel, by decide +kernel, by decide +kernel⟩
  have hflags : ∀ b c, statusPart.getLast? = some (.flag b) →
      gainPart.head? ≠ some (.flag c) := by
    simp [gainPart]
  exact ⟨l₁, l₂, h₁, h₂, hfour, hflags, hnames, hfits,
    compile_append_raised "both" h₁ h₂ hfour hflags hnames hfits⟩

end Layout

end StructureLayout
