import StructureLayout.Proofs.Machine.Arithmetic
import StructureLayout.Proofs.Placement.Misplacement
import StructureLayout.Proofs.Placement.Overflow
import StructureLayout.Proofs.Placement.Padding
import StructureLayout.Proofs.Placement.Partition

/-!
# Placement on a machine

The end of a flag's word is looked at only where the word starts low enough, so that a word which
is open at the end of the address space does no harm.
-/

namespace StructureLayout

namespace Machine

/-! ## The arithmetic of placement -/

def bits? (w : Width) : Option Nat := narrow.mul? w.bytes 8

def finish? (e : Entry Layout) : Option Nat := AddressSpace.wide.add? e.offset e.size

/-- An entry that starts past the byte is not asked for its end. -/
def covers? (e : Entry Layout) (byte : Nat) : Option Bool :=
  if e.offset ≤ byte then (finish? e).map fun finish => decide (byte < finish) else some false

def covering? (s : Placement) (byte : Nat) : Option (Option (Entry Layout)) :=
  s.entries.findM? fun e => covers? e byte

def checkDeclared (s : Placement) (field : String) (declared : Option Nat) (place : Nat) :
    Machine PlacementError Unit :=
  match declared with
  | none => pure ()
  | some d =>
    if d = place then pure ()
    else if place < d then throw (.unexpectedGap field d place)
    else do
      match ← covering? s d with
      | some other => throw (.overlap field d other.name other.offset (← finish? other))
      | none => throw (.paddingOverlap field d)

def placeField (s : Placement) (f : Field Layout) : Machine PlacementError Placement := do
  let offset := s.cursor
  Placement.checkElements f offset
  checkDeclared s f.name f.offset offset
  let size ← Placement.fieldSize .wide f offset
  let finish ← Placement.advance .wide f.name offset size
  let (scaling, faults) :=
    match Placement.scalingOf f with
    | .ok scaling => (scaling, s.faults)
    | .error fault => (none, ⟨f.name, offset, fault⟩ :: s.faults)
  Placement.push { s with cursor := finish, faults := faults } (.field f offset size scaling)

def placeFlag (options : Options) (s : Placement) (b : Flag) (next : Declaration) :
    Machine PlacementError Placement := do
  let width ← bits? options.bitWord
  let word := s.open?.getD ⟨s.cursor, 0⟩
  checkDeclared s b.name b.offset word.offset
  let bit ← Placement.chooseBit options b word
  let s ← s.push (.flag b word.offset options.bitWord bit)
  let nextBit ← narrow.add? bit 1
  if nextBit = width || !next.isFlag then
    let finish ← Placement.advance .wide b.name word.offset options.bitWord.bytes
    return { s with cursor := finish, open? := none }
  else
    return { s with open? := some ⟨word.offset, nextBit⟩ }

def paddingTo? (alignment cursor : Nat) : Option Nat := do
  mod? (← sub? alignment (← mod? cursor alignment)) alignment

def placeRepetition (s : Placement) (r : Repetition) : Machine PlacementError Placement :=
  let name := r.template.name
  if r.count = 0 then throw (.nonPositiveCount name s.cursor)
  else
    match (r.size? .wide).bind (AddressSpace.wide.add? s.cursor) with
    | none => throw (.sizeOverflow name s.cursor)
    | some _ => (r.instances .wide).foldlM placeField s

def place (options : Options) (s : Placement) (d next : Declaration) :
    Machine PlacementError Placement :=
  match d with
  | .field f => placeField s f
  | .flag b => placeFlag options s b next
  | .pad n => s.placePadding .wide n
  | .alignNext => do
    let alignment ← Placement.alignmentOf options s.cursor next
    let padding ← paddingTo? alignment s.cursor
    s.placePadding .wide padding
  | .repetition r => placeRepetition s r
  | .void => pure s

def placeAll (options : Options) (s : Placement) :
    List Declaration → Machine PlacementError Placement
  | [] => pure s
  | d :: ds => do placeAll options (← place options s d (ds.headD .void)) ds

/-- The scan `Entry.disjointFrom` with the ends that it forms. -/
def disjointFrom? (finish : Nat) (flag? : Option (Nat × Nat)) : List (Entry Layout) → Option Bool
  | [] => some true
  | e :: es =>
    match e.bit?, flag? with
    | some bit, some (offset, last) =>
      if offset = e.offset then
        if last < bit then disjointFrom? finish (some (offset, bit)) es else some false
      else if finish ≤ e.offset then do
        disjointFrom? (← finish? e) (some (e.offset, bit)) es
      else some false
    | bit?, _ =>
      if finish ≤ e.offset then do
        disjointFrom? (← finish? e) (bit?.map fun bit => (e.offset, bit)) es
      else some false

/-- The layout of a state.  Its entries are asserted to be disjoint. -/
def layoutOf (options : Options) (name : String) (s : Placement) : Machine LayoutError Layout :=
  if s.faults = [] then do
    let l := Layout.ofPlacement options name s
    if ← disjointFrom? 0 none l.entries then return l else liftM (none : Option Layout)
  else throw (.autoscale name s.faults.reverse)

def compile (options : Options) (name : String) (ds : List Declaration) :
    Machine LayoutError Layout := do
  layoutOf options name (← (placeAll options {} ds).adapt (LayoutError.placement name))

variable {options : Options} {s t : Placement} {d next : Declaration}

/-! ## Sound states -/

/-- The cursor is an address, and all entries but those in the open word end below it. -/
structure Sound (options : Options) (s : Placement) (d : Declaration) : Prop where
  tiling : ∃ padding, Placement.Tiling options padding s
  ready : s.WordReady options d
  fits : AddressSpace.wide.fits s.cursor = true

theorem Sound.start (options : Options) (d : Declaration) : Sound options {} d where
  tiling := ⟨[], .empty⟩
  ready := .of_none rfl
  fits := AddressSpace.fits_wide_zero

theorem Sound.step (h : Sound options s d)
    (hstep : Placement.Step .wide options s d next t) : Sound options t next := by
  obtain ⟨padding, htiling⟩ := h.tiling
  exact ⟨⟨_, hstep.tiling h.ready htiling⟩, hstep.wordReady h.ready, hstep.fits_cursor h.fits⟩

theorem Sound.withField {f : Field Layout} (h : Sound options s d) (hd : d.isFlag = false)
    (hadmits : s.Admits .wide f) : Sound options (s.withField f) d := by
  obtain ⟨padding, htiling⟩ := h.tiling
  have hopen := h.ready.open?_eq_none hd
  exact ⟨⟨_, htiling.withField hopen hadmits⟩, .of_none hopen, hadmits.fits⟩

theorem Sound.finish?_eq (h : Sound options s d) {e : Entry Layout} (he : e ∈ s.entries)
    (hlt : e.offset < s.cursor) : finish? e = some e.finish := by
  obtain ⟨padding, htiling⟩ := h.tiling
  have hfinish : e.finish ≤ s.cursor := by
    rcases htiling.settled e he with hfinish | ⟨w, hw, bit, _, hoffset, _⟩
    · exact hfinish
    · -- a flag in the open word starts at the cursor
      have hword := h.ready.offset w hw
      omega
  exact AddressSpace.add?_of_fits (AddressSpace.fits_of_le hfinish h.fits)

theorem Sound.covers?_eq (h : Sound options s d) {byte : Nat} (hbyte : byte < s.cursor)
    {e : Entry Layout} (he : e ∈ s.entries) : covers? e byte = some (e.covers byte) := by
  unfold covers? Entry.covers
  by_cases hoffset : e.offset ≤ byte
  · rw [if_pos hoffset, h.finish?_eq he (Nat.lt_of_le_of_lt hoffset hbyte), decide_eq_true hoffset]
    rfl
  · rw [if_neg hoffset, decide_eq_false hoffset]
    rfl

theorem Sound.covering?_eq (h : Sound options s d) {byte : Nat} (hbyte : byte < s.cursor) :
    covering? s byte = some (s.covering? byte) :=
  findM?_eq_some fun _ he => h.covers?_eq hbyte he

/-! ## Placement does not stop -/

theorem Sound.checkDeclared_eq (h : Sound options s d) (field : String) (declared : Option Nat)
    {place : Nat} (hplace : place = s.cursor) :
    checkDeclared s field declared place = liftM (s.checkDeclared field declared place) := by
  subst hplace
  unfold checkDeclared Placement.checkDeclared
  cases declared with
  | none => rfl
  | some o =>
      dsimp only
      by_cases heq : o = s.cursor
      · rw [if_pos heq, if_pos heq]
        rfl
      · by_cases hgap : s.cursor < o
        · rw [if_neg heq, if_neg heq, if_pos hgap, if_pos hgap]
          rfl
        · have hlt : o < s.cursor := by omega
          rw [if_neg heq, if_neg heq, if_neg hgap, if_neg hgap, some_bind (h.covering?_eq hlt)]
          cases hcovering : s.covering? o with
          | none => rfl
          | some e =>
              obtain ⟨padding, htiling⟩ := h.tiling
              have hlast := Placement.covering?_eq_some htiling hcovering
              have hoffset := (Entry.covers_iff.mp hlast.covers).1
              exact some_bind (h.finish?_eq hlast.mem (Nat.lt_of_le_of_lt hoffset hlt)) _

theorem Sound.placeField_eq (h : Sound options s d) (f : Field Layout) :
    placeField s f = liftM (s.placeField .wide f) := by
  unfold placeField Placement.placeField
  apply bind_lift rfl
  intro _ _
  apply bind_lift (h.checkDeclared_eq f.name f.offset rfl)
  intro _ _
  apply bind_lift rfl
  intro size _
  apply bind_lift rfl
  intro finish _
  rfl

theorem bits?_eq (w : Width) : bits? w = some w.bits := by cases w <;> rfl

theorem bits_le (w : Width) : w.bits ≤ 32 := by cases w <;> decide

theorem bit_lt_of_chooseBit {b : Flag} {bit : Nat} (hready : s.WordReady options d)
    (h : Placement.chooseBit options b s.currentWord = .ok bit) : bit < options.bitWord.bits := by
  obtain ⟨rfl, hrange⟩ := Placement.chooseBit_eq_ok_iff.mp h
  unfold Placement.bitFor
  cases hbit : b.bit with
  | none => exact hready.currentWord_nextBit
  | some i => exact (hrange i hbit).2

theorem add?_one_of_lt {bit : Nat} {w : Width} (h : bit < w.bits) :
    narrow.add? bit 1 = some (bit + 1) := by
  have hle := bits_le w
  apply AddressSpace.add?_of_fits
  apply decide_eq_true
  omega

theorem Sound.placeFlag_eq (h : Sound options s d) (b : Flag) :
    placeFlag options s b next = liftM (s.placeFlag .wide options b next) := by
  unfold placeFlag Placement.placeFlag
  rw [some_bind (bits?_eq options.bitWord)]
  apply bind_lift (h.checkDeclared_eq b.name b.offset h.ready.currentWord_offset)
  intro _ _
  apply bind_lift rfl
  intro bit hbit
  apply bind_lift rfl
  intro u _
  rw [some_bind (add?_one_of_lt (bit_lt_of_chooseBit h.ready hbit))]
  split
  · apply bind_lift rfl
    intro finish _
    rfl
  · rfl

theorem paddingTo?_eq {alignment : Nat} (h : 0 < alignment) (cursor : Nat) :
    paddingTo? alignment cursor = some (Placement.paddingTo alignment cursor) := by
  have hlt := Nat.mod_lt cursor h
  rw [paddingTo?, mod?_of_pos h, Option.bind_eq_bind, Option.bind_some, sub?_of_le hlt.le,
    Option.bind_some]
  exact mod?_of_pos h

theorem Sound.placeRepetition_eq (h : Sound options s d) (hd : d.isFlag = false)
    (r : Repetition) : placeRepetition s r = liftM (s.placeRepetition .wide r) := by
  unfold placeRepetition Placement.placeRepetition
  dsimp only
  by_cases hcount : r.count = 0
  · rw [if_pos hcount, if_pos hcount]
    rfl
  · rw [if_neg hcount, if_neg hcount]
    cases (r.size? .wide).bind (AddressSpace.wide.add? s.cursor) with
    | none => rfl
    | some _ =>
      refine foldlM_lift (P := fun s => Sound options s d) ?_ ?_ _ h
      · intro u f hu
        exact hu.placeField_eq f
      · intro u f v hu hv
        obtain ⟨hadmits, rfl⟩ := Placement.placeField_eq_ok_iff.mp hv
        exact hu.withField hd hadmits

theorem Sound.place_eq (h : Sound options s d) :
    place options s d next = liftM (s.place .wide options d next) := by
  cases d with
  | field f => exact h.placeField_eq f
  | flag b => exact h.placeFlag_eq b
  | pad n => rfl
  | alignNext =>
      apply bind_lift rfl
      intro alignment halignment
      exact some_bind (paddingTo?_eq (Placement.alignmentOf_pos halignment) s.cursor) _
  | repetition r => exact h.placeRepetition_eq rfl r
  | void => rfl

theorem placeAll_eq {ds : List Declaration} (h : Sound options s (ds.headD .void)) :
    placeAll options s ds = liftM (s.placeAll .wide options ds) := by
  induction ds generalizing s with
  | nil => rfl
  | cons d ds ih =>
      rw [placeAll, Placement.placeAll]
      apply bind_lift (Sound.place_eq h)
      intro t ht
      exact ih (h.step (Placement.place_eq_ok_iff.mp ht))

/-! ## The assertion on the result -/

theorem disjointFrom?_eq {es : List (Entry Layout)} (h : ∀ e ∈ es, finish? e = some e.finish)
    (finish : Nat) (flag? : Option (Nat × Nat)) :
    disjointFrom? finish flag? es = some (Entry.disjointFrom finish flag? es) := by
  induction es generalizing finish flag? with
  | nil => rfl
  | cons e es ih =>
      have hfinish := h e List.mem_cons_self
      have hrest := ih fun c hc => h c (List.mem_cons_of_mem e hc)
      cases hbit : e.bit? with
      | none =>
          by_cases hle : finish ≤ e.offset <;>
            simp [disjointFrom?, Entry.disjointFrom, hbit, hle, hfinish, hrest]
      | some bit =>
          rcases flag? with _ | ⟨offset, last⟩
          · by_cases hle : finish ≤ e.offset <;>
              simp [disjointFrom?, Entry.disjointFrom, hbit, hle, hfinish, hrest]
          · by_cases hoffset : offset = e.offset
            · by_cases hlt : last < bit <;>
                simp [disjointFrom?, Entry.disjointFrom, hbit, hoffset, hlt, hrest]
            · by_cases hle : finish ≤ e.offset <;>
                simp [disjointFrom?, Entry.disjointFrom, hbit, hoffset, hle, hfinish, hrest]

variable {name : String} {ds : List Declaration} {l : Layout}

theorem fits_of_compile (h : Layout.compile options name ds = .ok l) {e : Entry Layout}
    (he : e ∈ l.entries) : AddressSpace.wide.fits e.finish = true := by
  have hfits := ((Layout.compileIn_eq_ok_iff_unbounded AddressSpace.fits_wide_zero).mp h).2
  exact AddressSpace.fits_of_le (Layout.finish_le_of_compileIn h e he) hfits

theorem finish?_of_compile (h : Layout.compile options name ds = .ok l) {e : Entry Layout}
    (he : e ∈ l.entries) : finish? e = some e.finish :=
  AddressSpace.add?_of_fits (fits_of_compile h he)

theorem disjoint_of_compile (h : Layout.compile options name ds = .ok l) :
    disjointFrom? 0 none l.entries = some true := by
  rw [disjointFrom?_eq fun e he => finish?_of_compile h he]
  exact congrArg some
    (Entry.allDisjoint_of_pairwise (Layout.sized_of_compileIn h) (Layout.ordered_of_compileIn h))

/-- Whatever is declared, compilation does not stop on a machine, where it has the result that it
has on all numbers. -/
theorem compile_eq (options : Options) (name : String) (ds : List Declaration) :
    compile options name ds = liftM (Layout.compile options name ds) := by
  have hall : placeAll options {} ds = liftM (Placement.placeAll .wide options {} ds) :=
    placeAll_eq (.start options _)
  cases hrun : Placement.placeAll .wide options {} ds with
  | error x =>
      rw [compile, hall, Layout.compile, Layout.compileIn, hrun]
      rfl
  | ok s =>
      have hstate : compile options name ds = layoutOf options name s := by
        rw [compile, hall, hrun]
        rfl
      rw [hstate, layoutOf]
      by_cases hfaults : s.faults = []
      · have hcompile : Layout.compile options name ds =
            .ok (Layout.ofPlacement options name s) := by
          rw [Layout.compile, Layout.compileIn, hrun]
          exact if_pos hfaults
        rw [if_pos hfaults, hcompile]
        exact some_bind (disjoint_of_compile hcompile) _
      · have hcompile : Layout.compile options name ds =
            .error (.autoscale name s.faults.reverse) := by
          rw [Layout.compile, Layout.compileIn, hrun]
          exact if_neg hfaults
        rw [if_neg hfaults, hcompile]
        rfl

end Machine

end StructureLayout
