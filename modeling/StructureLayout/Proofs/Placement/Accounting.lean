import StructureLayout.Proofs.Placement.Stage

/-!
# Accounts of the size

Every declaration answers for its size in view of the one behind it, where of flags that follow
one another only the last answers for a word.  The answers sum up to the size of the layout but
for the padding of alignments, and for the words that are filled by a flag before another one.
-/

namespace StructureLayout

namespace Stage

/-- The padding that an alignment inserts. -/
def alignmentBytes (options : Options) (g : Stage) : Nat :=
  match g.declaration with
  | .alignNext => Placement.insertedBy options g.before.cursor .alignNext g.next
  | _ => 0

/-- Whether a flag takes the last bit of its word before another flag. -/
def fillsWord (options : Options) (g : Stage) : Bool :=
  g.declaration.isFlag && g.next.isFlag &&
    decide (g.after.entries.head?.bind Entry.bit? = some (options.bitWord.bits - 1))

def filledBytes (options : Options) (g : Stage) : Nat :=
  if g.fillsWord options then options.bitWord.bytes else 0

/-- What a declaration takes, by its own account and beyond it. -/
def bytes (options : Options) (g : Stage) : Nat :=
  g.declaration.size .wide options.bitWord g.next + g.alignmentBytes options +
    g.filledBytes options

variable {options : Options} {s t : Placement} {d next : Declaration}

theorem filledBytes_of_not_flag (h : d.isFlag = false) :
    filledBytes options ⟨s, d, next, t⟩ = 0 := by
  simp [filledBytes, fillsWord, h]

theorem alignmentBytes_of_not_directive (h : d.isDirective = false) :
    alignmentBytes options ⟨s, d, next, t⟩ = 0 := by
  cases d with
  | alignNext => cases h
  | _ => rfl

theorem bytes_of_not_directive (hflag : d.isFlag = false) (hdirective : d.isDirective = false) :
    bytes options ⟨s, d, next, t⟩ = d.size .wide options.bitWord next := by
  rw [bytes, alignmentBytes_of_not_directive hdirective, filledBytes_of_not_flag hflag]
  rfl

end Stage

namespace Placement

variable {space : AddressSpace} {options : Options} {s t : Placement} {next d : Declaration}
  {ds : List Declaration}

theorem Admits.footprint_eq {f : Field Layout} (h : s.Admits space f) :
    f.footprint space = f.bytes := by
  have hfits := AddressSpace.fits_of_le (Nat.le_add_left _ _) h.fits
  rw [Field.footprint, (Field.footprint?_eq_some_iff h.dimensions h.element).mpr ⟨rfl, hfits⟩]
  rfl

theorem AdmitsAll.size_eq {r : Repetition} (h : s.AdmitsAll space (r.instances space))
    (hcount : r.count ≠ 0) :
    space.orLimit (r.size? space) = r.count * r.template.bytes := by
  obtain ⟨hdims, hsize⟩ := h.template hcount
  have hfits := AddressSpace.fits_of_le (Nat.le_add_left _ _) (h.fits_instances hcount)
  rw [Repetition.size?_eq hcount hdims hsize hfits]
  rfl

theorem fillsWord_withFlag (s : Placement) (b : Flag) (next : Declaration) :
    Stage.fillsWord options ⟨s, .flag b, next, s.withFlag options b next⟩ =
      (next.isFlag && decide (s.bitFor b + 1 = options.bitWord.bits)) := by
  have hlast : s.bitFor b = options.bitWord.bits - 1 ↔
      s.bitFor b + 1 = options.bitWord.bits := by
    have hpos := options.bitWord.bits_pos
    omega
  simp [Stage.fillsWord, Declaration.isFlag, withFlag, Entry.bit?, hlast]

/-- A flag in view of another one answers for no word, and takes one if it fills it. -/
theorem cursor_withFlag {b : Flag} (hready : s.WordReady options (.flag b)) :
    (s.withFlag options b next).cursor =
      s.cursor + Stage.bytes options ⟨s, .flag b, next, s.withFlag options b next⟩ := by
  have halign : Stage.alignmentBytes options ⟨s, .flag b, next, s.withFlag options b next⟩ = 0 :=
    Stage.alignmentBytes_of_not_directive rfl
  rw [Stage.bytes, halign, Stage.filledBytes, fillsWord_withFlag, Declaration.size, withFlag,
    hready.currentWord_offset, closesWord]
  cases next.isFlag with
  | false => simp
  | true => by_cases hfull : s.bitFor b + 1 = options.bitWord.bits <;> simp [hfull]

theorem Step.cursor_eq (h : Step .wide options s d next t) (hready : s.WordReady options d) :
    t.cursor = s.cursor + Stage.bytes options ⟨s, d, next, t⟩ := by
  cases h with
  | field hadmits =>
      rw [Stage.bytes_of_not_directive rfl rfl, Declaration.size, hadmits.footprint_eq]
      rfl
  | flag _ => exact cursor_withFlag hready
  | pad _ => rfl
  | alignNext haligned _ =>
      rw [Stage.bytes, Stage.alignmentBytes, Stage.filledBytes_of_not_flag rfl, insertedBy,
        haligned, Declaration.size, Nat.zero_add]
      rfl
  | repetition hcount hadmits =>
      rw [Stage.bytes_of_not_directive rfl rfl, Declaration.size, hadmits.size_eq hcount,
        withFields_instances_cursor]
  | void => rfl

theorem cursor_eq_of_mem_stages (hs : s.WordReady options (ds.headD next)) {g : Stage}
    (hg : g ∈ s.stages .wide options next ds) :
    g.after.cursor = g.before.cursor + g.bytes options := by
  have hready : g.before.WordReady options g.declaration :=
    before_of_mem_stages (P := fun u d => u.WordReady options d)
      (fun hu hstep => hstep.wordReady hu) hs hg
  exact (step_of_mem_stages hg).cursor_eq hready

/-- The three accounts of a run: the answers of the declarations, the padding of alignments and
the words that are filled before another flag. -/
theorem cursor_eq_sum_sizes (hs : s.WordReady options (ds.headD next))
    (h : s.placeBefore .wide options next ds = .ok t) :
    t.cursor = s.cursor +
      (((inView next ds).map fun p => p.1.size .wide options.bitWord p.2).sum +
        ((s.stages .wide options next ds).map (Stage.alignmentBytes options)).sum +
        ((s.stages .wide options next ds).map (Stage.filledBytes options)).sum) := by
  rw [cursor_eq_sum_stages (fun g hg => cursor_eq_of_mem_stages hs hg) h, ← map_stages h,
    List.map_map, ← List.sum_map_add, ← List.sum_map_add]
  rfl

end Placement

namespace Layout

variable {options : Options} {name : String} {ds : List Declaration} {l : Layout}

/-- Every declaration moves the cursor by its own account, and the accounts sum up to the size
of the layout. -/
theorem compile_totalSize (h : compile options name ds = .ok l) :
    let stages := Placement.stages .wide options .void {} ds
    stages.map (fun g => (g.declaration, g.next)) = inView .void ds ∧
      (∀ g ∈ stages, g.after.cursor = g.before.cursor + g.bytes options) ∧
        l.totalSize =
          ((inView .void ds).map fun p => p.1.size .wide options.bitWord p.2).sum +
            (stages.map (Stage.alignmentBytes options)).sum +
            (stages.map (Stage.filledBytes options)).sum := by
  obtain ⟨s, hrun, -, rfl⟩ := compileIn_eq_ok_iff.mp h
  have hready : Placement.WordReady options {} (ds.headD .void) := .of_none rfl
  refine ⟨Placement.map_stages hrun, ?_, ?_⟩
  · intro g hg
    exact Placement.cursor_eq_of_mem_stages hready hg
  · exact (Placement.cursor_eq_sum_sizes hready hrun).trans (Nat.zero_add _)

/-- A flag fills a word of one byte before another flag, behind a field that is aligned. -/
def mixedDeclarations : List Declaration :=
  [.field { name := "mode", content := .primitive (.integer ⟨false, .one⟩) }, .alignNext,
    .field { name := "gain", content := .primitive .float },
    .flag { name := "last", bit := some 7 }, .flag { name := "first" }, .pad 3, .void,
    .repetition ⟨{ name := "slot", content := .primitive (.integer ⟨true, .two⟩) }, 2⟩]

theorem compile_mixedDeclarations :
    ∃ l, compile { bitWord := .one } "sample" mixedDeclarations = .ok l ∧
      l.totalSize = (1 + 0 + 4 + 0 + 1 + 3 + 0 + 4) + 3 + 1 := by
  obtain ⟨l, hl⟩ : ∃ l, compile { bitWord := .one } "sample" mixedDeclarations = .ok l :=
    ⟨_, rfl⟩
  obtain ⟨-, -, hsize⟩ := compile_totalSize hl
  refine ⟨l, hl, hsize.trans ?_⟩
  decide

end Layout

end StructureLayout
