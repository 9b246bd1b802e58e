import StructureLayout.Placement.Basic
import Mathlib.Algebra.BigOperators.Ring.List
import Mathlib.Algebra.Ring.Nat

/-!
# One step of placement

Each kind of declaration is placed exactly under the conditions named here, and the state
that results is then a total function of the state before.  The address space enters the
conditions only through the end of what is placed.
-/

namespace StructureLayout

theorem bind_eq_ok_iff {ε α β : Type} {x : Except ε α} {f : α → Except ε β} {b : β} :
    (x >>= f) = .ok b ↔ ∃ a, x = .ok a ∧ f a = .ok b := by
  cases x with
  | error e =>
      constructor
      · intro h
        cases h
      · rintro ⟨a, ha, _⟩
        cases ha
  | ok a =>
      constructor
      · intro h
        exact ⟨a, rfl, h⟩
      · rintro ⟨_, ha, h⟩
        cases ha
        exact h

theorem bind_eq_error_iff {ε α β : Type} {x : Except ε α} {f : α → Except ε β} {e : ε} :
    (x >>= f) = .error e ↔ x = .error e ∨ ∃ a, x = .ok a ∧ f a = .error e := by
  cases x with
  | error d =>
      constructor
      · intro h
        cases h
        exact Or.inl rfl
      · rintro (h | ⟨a, ha, _⟩)
        · cases h
          rfl
        · cases ha
  | ok a =>
      constructor
      · intro h
        exact Or.inr ⟨a, rfl, h⟩
      · rintro (h | ⟨_, ha, h⟩)
        · cases h
        · cases ha
          exact h

theorem exists_eq_ok_of_isOk {ε α : Type} {x : Except ε α} (h : x.isOk = true) :
    ∃ a, x = .ok a := by
  cases x with
  | error e => cases h
  | ok a => exact ⟨a, rfl⟩

@[simp] theorem ok_bind {ε α β : Type} (a : α) (f : α → Except ε β) :
    ((.ok a : Except ε α) >>= f) = f a := rfl

namespace AddressSpace

variable {space : AddressSpace}

theorem fits_of_le {m n : Nat} (h : m ≤ n) (hn : space.fits n = true) :
    space.fits m = true := by
  rcases space with ⟨_ | limit⟩
  · rfl
  · simp only [fits, decide_eq_true_eq] at hn ⊢
    omega

@[simp] theorem fits_unbounded (n : Nat) : unbounded.fits n = true := rfl

theorem fits_wide_iff {n : Nat} : wide.fits n = true ↔ n ≤ 2 ^ 64 - 1 := by
  simp [fits, wide]

theorem fits_wide_zero : wide.fits 0 = true := fits_wide_iff.mpr (Nat.zero_le _)

theorem add?_eq_some_iff {m n k : Nat} :
    space.add? m n = some k ↔ k = m + n ∧ space.fits (m + n) = true :=
  space.check?_eq_some_iff

theorem mul?_eq_some_iff {m n k : Nat} :
    space.mul? m n = some k ↔ k = m * n ∧ space.fits (m * n) = true :=
  space.check?_eq_some_iff

theorem add?_of_fits {m n : Nat} (h : space.fits (m + n) = true) :
    space.add? m n = some (m + n) :=
  add?_eq_some_iff.mpr ⟨rfl, h⟩

theorem mul?_of_fits {m n : Nat} (h : space.fits (m * n) = true) :
    space.mul? m n = some (m * n) :=
  mul?_eq_some_iff.mpr ⟨rfl, h⟩

theorem foldlM_mul?_eq {ds : List Nat} {acc n : Nat}
    (h : ds.foldlM space.mul? acc = some n) : n = acc * ds.prod := by
  induction ds generalizing acc with
  | nil => simpa using h.symm
  | cons d ds ih =>
      rw [List.foldlM_cons] at h
      obtain ⟨m, hm, hrest⟩ := Option.bind_eq_some_iff.mp h
      obtain ⟨rfl, _⟩ := mul?_eq_some_iff.mp hm
      rw [ih hrest, List.prod_cons, Nat.mul_assoc]

/-- Without a zero among the factors no partial product exceeds the whole. -/
theorem foldlM_mul?_of_fits {ds : List Nat} (hds : 0 ∉ ds) {acc : Nat}
    (hfits : space.fits (acc * ds.prod) = true) :
    ds.foldlM space.mul? acc = some (acc * ds.prod) := by
  induction ds generalizing acc with
  | nil => simp
  | cons d ds ih =>
      have hprod : acc * (d :: ds).prod = acc * d * ds.prod := by
        rw [List.prod_cons, Nat.mul_assoc]
      have hrest : 0 ∉ ds := fun h => hds (List.mem_cons_of_mem d h)
      have hpos : 0 < ds.prod := Nat.pos_of_ne_zero (List.prod_ne_zero hrest)
      have hfirst : space.mul? acc d = some (acc * d) := by
        refine mul?_of_fits (fits_of_le ?_ (hprod ▸ hfits))
        exact Nat.le_mul_of_pos_right _ hpos
      rw [List.foldlM_cons, hfirst, hprod]
      exact ih hrest (hprod ▸ hfits)

end AddressSpace

namespace Field

variable {space : AddressSpace} {f : Field Layout}

def bytes (f : Field Layout) : Nat := f.content.size * f.dimensions.prod

theorem bytes_pos (hdims : 0 ∉ f.dimensions) (hsize : f.content.size ≠ 0) : 0 < f.bytes :=
  Nat.mul_pos (Nat.pos_of_ne_zero hsize) (Nat.pos_of_ne_zero (List.prod_ne_zero hdims))

theorem footprint?_eq_some_iff (hdims : 0 ∉ f.dimensions) (hsize : f.content.size ≠ 0)
    {n : Nat} : f.footprint? space = some n ↔ n = f.bytes ∧ space.fits f.bytes = true := by
  have hprod : 0 < f.dimensions.prod := Nat.pos_of_ne_zero (List.prod_ne_zero hdims)
  have hmax : max 1 f.dimensions.prod = f.dimensions.prod := by omega
  have hcomm : f.dimensions.prod * f.content.size = f.bytes := Nat.mul_comm _ _
  constructor
  · intro h
    obtain ⟨count, hcount, hn⟩ := Option.bind_eq_some_iff.mp h
    obtain ⟨product, hproduct, rfl⟩ := Option.map_eq_some_iff.mp hcount
    have hval := AddressSpace.foldlM_mul?_eq hproduct
    rw [Nat.one_mul] at hval
    rw [hval, hmax, AddressSpace.mul?_eq_some_iff, hcomm] at hn
    exact hn
  · rintro ⟨rfl, hfits⟩
    have hle : 1 * f.dimensions.prod ≤ f.bytes := by
      rw [Nat.one_mul]
      exact Nat.le_mul_of_pos_left _ (Nat.pos_of_ne_zero hsize)
    have hcount : f.elements? space = some f.dimensions.prod := by
      rw [elements?, AddressSpace.foldlM_mul?_of_fits hdims (AddressSpace.fits_of_le hle hfits),
        Option.map_some, Nat.one_mul, hmax]
    refine Option.bind_eq_some_iff.mpr ⟨_, hcount, AddressSpace.mul?_eq_some_iff.mpr ?_⟩
    rw [hcomm]
    exact ⟨rfl, hfits⟩

end Field

namespace Repetition

variable {space : AddressSpace} (r : Repetition)

@[simp] theorem bytes_instanceAt (index : Nat) :
    (r.instanceAt space index).bytes = r.template.bytes := rfl

theorem length_instances : (r.instances space).length = r.count := by
  rw [instances, List.length_map, List.length_range]

theorem instances_eq_cons {r : Repetition} (hcount : r.count ≠ 0) :
    ∃ fs, r.instances space = r.instanceAt space 0 :: fs := by
  obtain ⟨n, hn⟩ := Nat.exists_eq_succ_of_ne_zero hcount
  rw [instances, hn, List.range_succ_eq_map, List.map_cons]
  exact ⟨_, rfl⟩

theorem fits_bytes {r : Repetition} {cursor : Nat} (hcount : r.count ≠ 0)
    (hfits : space.fits (cursor + r.count * r.template.bytes) = true) :
    space.fits r.template.bytes = true := by
  have hle := Nat.le_mul_of_pos_left r.template.bytes (Nat.pos_of_ne_zero hcount)
  exact AddressSpace.fits_of_le (Nat.le_add_left_of_le hle) hfits

theorem size?_eq {r : Repetition} (hcount : r.count ≠ 0)
    (hdims : 0 ∉ r.template.dimensions) (hsize : r.template.content.size ≠ 0)
    (hfits : space.fits (r.count * r.template.bytes) = true) :
    r.size? space = some (r.count * r.template.bytes) := by
  have hle : r.template.bytes ≤ r.count * r.template.bytes :=
    Nat.le_mul_of_pos_left _ (Nat.pos_of_ne_zero hcount)
  have hfootprint : r.template.footprint? space = some r.template.bytes :=
    (Field.footprint?_eq_some_iff hdims hsize).mpr ⟨rfl, AddressSpace.fits_of_le hle hfits⟩
  have hcomm : r.template.bytes * r.count = r.count * r.template.bytes := Nat.mul_comm _ _
  refine Option.bind_eq_some_iff.mpr ⟨_, hfootprint, AddressSpace.mul?_eq_some_iff.mpr ?_⟩
  rw [hcomm]
  exact ⟨rfl, hfits⟩

/-- Where the instances end that start at `cursor`, if the address space has it. -/
theorem finish?_eq_some_iff {r : Repetition} {cursor finish : Nat} (hcount : r.count ≠ 0)
    (hdims : 0 ∉ r.template.dimensions) (hsize : r.template.content.size ≠ 0) :
    (r.size? space).bind (space.add? cursor) = some finish ↔
      finish = cursor + r.count * r.template.bytes ∧
        space.fits (cursor + r.count * r.template.bytes) = true := by
  constructor
  · intro h
    obtain ⟨total, htotal, hadd⟩ := Option.bind_eq_some_iff.mp h
    obtain ⟨bytes, hbytes, hmul⟩ := Option.bind_eq_some_iff.mp htotal
    obtain ⟨rfl, _⟩ := (Field.footprint?_eq_some_iff hdims hsize).mp hbytes
    obtain ⟨rfl, _⟩ := AddressSpace.mul?_eq_some_iff.mp hmul
    rw [Nat.mul_comm r.count]
    exact AddressSpace.add?_eq_some_iff.mp hadd
  · rintro ⟨rfl, hfits⟩
    rw [size?_eq hcount hdims hsize (AddressSpace.fits_of_le (Nat.le_add_left _ _) hfits),
      Option.bind_some]
    exact AddressSpace.add?_of_fits hfits

end Repetition

namespace Placement

variable {space : AddressSpace} {options : Options} {s t : Placement}

theorem checkDeclared_eq_ok_iff {field : String} {declared : Option Nat} {place : Nat} :
    s.checkDeclared field declared place = .ok () ↔ ∀ d ∈ declared, d = place := by
  cases declared with
  | none => simp [checkDeclared]
  | some d =>
      by_cases hd : d = place
      · simp [checkDeclared, hd]
      · have hne : s.checkDeclared field (some d) place ≠ .ok () := by
          unfold checkDeclared
          split
          · rename_i h
            cases h
          · rename_i h
            cases h
            rw [if_neg hd]
            split
            · exact nofun
            · split <;> exact nofun
        simp [hne, hd]

theorem push_eq_ok_iff {e : Entry Layout} :
    s.push e = .ok t ↔
      (∀ d ∈ s.entries, d.name ≠ e.name) ∧ t = { s with entries := e :: s.entries } := by
  unfold push
  split
  · rename_i first hfirst
    have hmem := List.mem_of_find?_eq_some hfirst
    have hname := List.find?_some hfirst
    constructor
    · exact nofun
    · rintro ⟨hfresh, _⟩
      exact absurd (beq_iff_eq.mp hname) (hfresh first hmem)
  · rename_i hnone
    have hfresh : ∀ d ∈ s.entries, d.name ≠ e.name := by
      intro d hd hname
      exact List.find?_eq_none.mp hnone d hd (beq_iff_eq.mpr hname)
    constructor
    · intro h
      cases h
      exact ⟨hfresh, rfl⟩
    · rintro ⟨_, rfl⟩
      rfl

theorem advance_eq_ok_iff {field : String} {offset size finish : Nat} :
    advance space field offset size = .ok finish ↔
      finish = offset + size ∧ space.fits (offset + size) = true := by
  unfold advance
  split
  · rename_i n hn
    obtain ⟨rfl, hfits⟩ := AddressSpace.add?_eq_some_iff.mp hn
    constructor
    · intro h
      cases h
      exact ⟨rfl, hfits⟩
    · rintro ⟨rfl, _⟩
      rfl
  · rename_i hn
    constructor
    · exact nofun
    · rintro ⟨_, hfits⟩
      rw [AddressSpace.add?_of_fits hfits] at hn
      cases hn

/-! ## Fields -/

theorem checkElements_eq_ok_iff {f : Field Layout} {offset : Nat} :
    checkElements f offset = .ok () ↔ 0 ∉ f.dimensions ∧ f.content.size ≠ 0 := by
  unfold checkElements
  split
  · rename_i index hindex
    obtain ⟨hlt, hzero, _⟩ := List.findIdx?_eq_some_iff_getElem.mp hindex
    constructor
    · exact nofun
    · rintro ⟨hdims, _⟩
      exact absurd (beq_iff_eq.mp hzero ▸ List.getElem_mem hlt) hdims
  · rename_i hnone
    have hdims : 0 ∉ f.dimensions := by
      intro h
      simpa using List.findIdx?_eq_none_iff.mp hnone 0 h
    by_cases hsize : f.content.size = 0
    · simp [hsize]
    · simp [hsize, hdims]

theorem fieldSize_eq_ok_iff {f : Field Layout} (hdims : 0 ∉ f.dimensions)
    (hsize : f.content.size ≠ 0) {offset n : Nat} :
    fieldSize space f offset = .ok n ↔ n = f.bytes ∧ space.fits f.bytes = true := by
  rw [← Field.footprint?_eq_some_iff hdims hsize, fieldSize]
  cases f.footprint? space <;> simp

/-- The conditions under which a field is placed at the cursor. -/
structure Admits (space : AddressSpace) (s : Placement) (f : Field Layout) : Prop where
  dimensions : 0 ∉ f.dimensions
  element : f.content.size ≠ 0
  declared : ∀ d ∈ f.offset, d = s.cursor
  fresh : ∀ e ∈ s.entries, e.name ≠ f.name
  fits : space.fits (s.cursor + f.bytes) = true

theorem Admits.bytes_pos {f : Field Layout} (h : s.Admits space f) : 0 < f.bytes :=
  Field.bytes_pos h.dimensions h.element

def boundScaling (f : Field Layout) : Option Autoscale :=
  match scalingOf f with
  | .ok scaling => scaling
  | .error _ => none

def scalingFaults (f : Field Layout) (offset : Nat) : List FieldFault :=
  match scalingOf f with
  | .ok _ => []
  | .error fault => [⟨f.name, offset, fault⟩]

def withField (s : Placement) (f : Field Layout) : Placement :=
  { s with
    cursor := s.cursor + f.bytes
    entries := .field f s.cursor f.bytes (boundScaling f) :: s.entries
    faults := scalingFaults f s.cursor ++ s.faults }

/-- Of the conditions only those on the size depend on the address space. -/
theorem placeField_eq (f : Field Layout) (hdims : 0 ∉ f.dimensions) (hsize : f.content.size ≠ 0)
    (hdeclared : ∀ d ∈ f.offset, d = s.cursor) (hfits : space.fits (s.cursor + f.bytes) = true) :
    s.placeField space f =
      push { s with
        cursor := s.cursor + f.bytes
        faults := scalingFaults f s.cursor ++ s.faults }
        (.field f s.cursor f.bytes (boundScaling f)) := by
  have hbytes : fieldSize space f s.cursor = .ok f.bytes :=
    (fieldSize_eq_ok_iff hdims hsize).mpr
      ⟨rfl, AddressSpace.fits_of_le (Nat.le_add_left _ _) hfits⟩
  have hadvance : advance space f.name s.cursor f.bytes = .ok (s.cursor + f.bytes) :=
    advance_eq_ok_iff.mpr ⟨rfl, hfits⟩
  simp only [placeField, checkElements_eq_ok_iff.mpr ⟨hdims, hsize⟩,
    checkDeclared_eq_ok_iff.mpr hdeclared, hbytes, hadvance, ok_bind]
  unfold boundScaling scalingFaults
  cases scalingOf f <;> rfl

theorem placeField_eq_ok_iff {f : Field Layout} :
    s.placeField space f = .ok t ↔ s.Admits space f ∧ t = s.withField f := by
  constructor
  · intro h
    have hplace := h
    obtain ⟨_, helements, h⟩ := bind_eq_ok_iff.mp h
    obtain ⟨hdims, hsize⟩ := checkElements_eq_ok_iff.mp helements
    obtain ⟨_, hdeclared, h⟩ := bind_eq_ok_iff.mp h
    have hdeclared := checkDeclared_eq_ok_iff.mp hdeclared
    obtain ⟨size, hbytes, h⟩ := bind_eq_ok_iff.mp h
    obtain ⟨finish, hadvance, -⟩ := bind_eq_ok_iff.mp h
    obtain ⟨rfl, -⟩ := (fieldSize_eq_ok_iff hdims hsize).mp hbytes
    obtain ⟨-, hfits⟩ := advance_eq_ok_iff.mp hadvance
    rw [placeField_eq f hdims hsize hdeclared hfits] at hplace
    obtain ⟨hfresh, rfl⟩ := push_eq_ok_iff.mp hplace
    exact ⟨⟨hdims, hsize, hdeclared, hfresh, hfits⟩, rfl⟩
  · rintro ⟨h, rfl⟩
    rw [placeField_eq f h.dimensions h.element h.declared h.fits]
    exact push_eq_ok_iff.mpr ⟨h.fresh, rfl⟩

/-! ## Flags -/

/-- The word that the next flag is placed in. -/
def currentWord (s : Placement) : OpenWord := s.open?.getD ⟨s.cursor, 0⟩

theorem currentWord_of_open {w : OpenWord} (h : s.open? = some w) : s.currentWord = w := by
  rw [currentWord, h, Option.getD_some]

def bitFor (s : Placement) (b : Flag) : Nat := b.bit.getD s.currentWord.nextBit

/-- Whether the cursor passes the word with this flag. -/
def closesWord (options : Options) (s : Placement) (b : Flag) (next : Declaration) : Bool :=
  decide (s.bitFor b + 1 = options.bitWord.bits) || !next.isFlag

theorem chooseBit_eq_ok_iff {b : Flag} {bit : Nat} :
    chooseBit options b s.currentWord = .ok bit ↔
      bit = s.bitFor b ∧
        ∀ i ∈ b.bit, s.currentWord.nextBit ≤ i ∧ i < options.bitWord.bits := by
  unfold chooseBit bitFor
  cases hb : b.bit with
  | none => simp [eq_comm]
  | some i =>
      by_cases hrange : options.bitWord.bits ≤ i
      · simp [hrange]
      · by_cases hfree : i < s.currentWord.nextBit
        · simp [hrange, hfree]
        · simp [hrange, hfree, eq_comm, Nat.le_of_not_lt hfree, Nat.lt_of_not_le hrange]

/-- The conditions under which a flag is placed in view of the next declaration. -/
structure AdmitsFlag (space : AddressSpace) (options : Options) (s : Placement) (b : Flag)
    (next : Declaration) : Prop where
  declared : ∀ d ∈ b.offset, d = s.currentWord.offset
  bit : ∀ i ∈ b.bit, s.currentWord.nextBit ≤ i ∧ i < options.bitWord.bits
  fresh : ∀ e ∈ s.entries, e.name ≠ b.name
  fits : s.closesWord options b next = true →
    space.fits (s.currentWord.offset + options.bitWord.bytes) = true

def withFlag (options : Options) (s : Placement) (b : Flag) (next : Declaration) : Placement :=
  { s with
    cursor := if s.closesWord options b next then
        s.currentWord.offset + options.bitWord.bytes else s.cursor
    open? := if s.closesWord options b next then none else
        some ⟨s.currentWord.offset, s.bitFor b + 1⟩
    entries := .flag b s.currentWord.offset options.bitWord (s.bitFor b) :: s.entries }

section WithFlag

variable {b : Flag} {next : Declaration}

theorem cursor_withFlag_of_closes (h : s.closesWord options b next = true) :
    (s.withFlag options b next).cursor = s.currentWord.offset + options.bitWord.bytes :=
  if_pos h

theorem cursor_withFlag_of_not_closes (h : ¬s.closesWord options b next = true) :
    (s.withFlag options b next).cursor = s.cursor :=
  if_neg h

theorem open?_withFlag_of_closes (h : s.closesWord options b next = true) :
    (s.withFlag options b next).open? = none :=
  if_pos h

theorem open?_withFlag_of_not_closes (h : ¬s.closesWord options b next = true) :
    (s.withFlag options b next).open? = some ⟨s.currentWord.offset, s.bitFor b + 1⟩ :=
  if_neg h

end WithFlag

theorem placeFlag_eq_ok_iff {b : Flag} {next : Declaration} :
    s.placeFlag space options b next = .ok t ↔
      s.AdmitsFlag space options b next ∧ t = s.withFlag options b next := by
  constructor
  · intro h
    obtain ⟨_, hdeclared, h⟩ := bind_eq_ok_iff.mp h
    obtain ⟨bit, hbit, h⟩ := bind_eq_ok_iff.mp h
    obtain ⟨u, hpush, h⟩ := bind_eq_ok_iff.mp h
    obtain ⟨rfl, hrange⟩ := chooseBit_eq_ok_iff.mp hbit
    obtain ⟨hfresh, rfl⟩ := push_eq_ok_iff.mp hpush
    have hdeclared := checkDeclared_eq_ok_iff.mp hdeclared
    by_cases hcloses : s.closesWord options b next = true
    · obtain ⟨finish, hadvance, h⟩ := bind_eq_ok_iff.mp ((if_pos hcloses).symm.trans h)
      obtain ⟨rfl, hfits⟩ := advance_eq_ok_iff.mp hadvance
      cases h
      exact ⟨⟨hdeclared, hrange, hfresh, fun _ => hfits⟩, by simp [withFlag, hcloses, currentWord]⟩
    · cases (if_neg hcloses).symm.trans h
      exact ⟨⟨hdeclared, hrange, hfresh, fun hc => absurd hc hcloses⟩,
        by simp [withFlag, hcloses, currentWord]⟩
  · rintro ⟨h, rfl⟩
    refine bind_eq_ok_iff.mpr ⟨(), checkDeclared_eq_ok_iff.mpr h.declared, ?_⟩
    refine bind_eq_ok_iff.mpr ⟨_, chooseBit_eq_ok_iff.mpr ⟨rfl, h.bit⟩, ?_⟩
    refine bind_eq_ok_iff.mpr ⟨_, push_eq_ok_iff.mpr ⟨h.fresh, rfl⟩, ?_⟩
    by_cases hcloses : s.closesWord options b next = true
    · refine (if_pos hcloses).trans ?_
      refine bind_eq_ok_iff.mpr ⟨_, advance_eq_ok_iff.mpr ⟨rfl, h.fits hcloses⟩, ?_⟩
      simp [withFlag, hcloses, currentWord, pure, Except.pure]
    · refine (if_neg hcloses).trans ?_
      simp [withFlag, hcloses, currentWord, pure, Except.pure]

/-! ## Directives -/

def withPadding (s : Placement) (n : Nat) : Placement := { s with cursor := s.cursor + n }

theorem placePadding_eq_ok_iff {n : Nat} :
    s.placePadding space n = .ok t ↔
      space.fits (s.cursor + n) = true ∧ t = s.withPadding n := by
  constructor
  · intro h
    obtain ⟨finish, hadvance, h⟩ := bind_eq_ok_iff.mp h
    obtain ⟨rfl, hfits⟩ := advance_eq_ok_iff.mp hadvance
    cases h
    exact ⟨hfits, rfl⟩
  · rintro ⟨hfits, rfl⟩
    exact bind_eq_ok_iff.mpr ⟨_, advance_eq_ok_iff.mpr ⟨rfl, hfits⟩, rfl⟩

/-! ## Repeated fields -/

/-- The conditions under which fields are placed one after another. -/
def AdmitsAll (space : AddressSpace) : Placement → List (Field Layout) → Prop
  | _, [] => True
  | s, f :: fs => s.Admits space f ∧ AdmitsAll space (s.withField f) fs

def withFields (s : Placement) (fs : List (Field Layout)) : Placement := fs.foldl withField s

@[simp] theorem withFields_nil (s : Placement) : s.withFields [] = s := rfl

@[simp] theorem withFields_cons (s : Placement) (f : Field Layout) (fs : List (Field Layout)) :
    s.withFields (f :: fs) = (s.withField f).withFields fs := rfl

theorem foldlM_placeField_eq_ok_iff {fs : List (Field Layout)} :
    fs.foldlM (placeField space) s = .ok t ↔ s.AdmitsAll space fs ∧ t = s.withFields fs := by
  induction fs generalizing s with
  | nil =>
      constructor
      · intro h
        cases h
        exact ⟨trivial, rfl⟩
      · rintro ⟨_, rfl⟩
        rfl
  | cons f fs ih =>
      rw [List.foldlM_cons, bind_eq_ok_iff]
      constructor
      · rintro ⟨u, hfirst, hrest⟩
        obtain ⟨hadmits, rfl⟩ := placeField_eq_ok_iff.mp hfirst
        obtain ⟨hall, rfl⟩ := ih.mp hrest
        exact ⟨⟨hadmits, hall⟩, rfl⟩
      · rintro ⟨⟨hadmits, hall⟩, rfl⟩
        exact ⟨_, placeField_eq_ok_iff.mpr ⟨hadmits, rfl⟩, ih.mpr ⟨hall, rfl⟩⟩

theorem withFields_cursor (s : Placement) (fs : List (Field Layout)) :
    (s.withFields fs).cursor = s.cursor + (fs.map Field.bytes).sum := by
  induction fs generalizing s with
  | nil => rfl
  | cons f fs ih =>
      rw [withFields_cons, ih, List.map_cons, List.sum_cons, ← Nat.add_assoc]
      rfl

theorem AdmitsAll.elements {fs : List (Field Layout)} {f : Field Layout}
    (h : s.AdmitsAll space fs) (hf : f ∈ fs) : 0 ∉ f.dimensions ∧ f.content.size ≠ 0 := by
  induction fs generalizing s with
  | nil => cases hf
  | cons g fs ih =>
      rcases List.mem_cons.mp hf with rfl | hf
      · exact ⟨h.1.dimensions, h.1.element⟩
      · exact ih h.2 hf

theorem AdmitsAll.fits {fs : List (Field Layout)} (h : s.AdmitsAll space fs) (hne : fs ≠ []) :
    space.fits (s.withFields fs).cursor = true := by
  induction fs generalizing s with
  | nil => exact absurd rfl hne
  | cons f fs ih =>
      obtain ⟨hfirst, hrest⟩ := h
      by_cases hfs : fs = []
      · subst hfs
        exact hfirst.fits
      · exact ih hrest hfs

theorem withFields_instances_cursor (s : Placement) (r : Repetition) :
    (s.withFields (r.instances space)).cursor = s.cursor + r.count * r.template.bytes := by
  have hbytes : (r.instances space).map Field.bytes =
      List.replicate r.count r.template.bytes := by
    rw [List.eq_replicate_iff]
    refine ⟨by rw [List.length_map, Repetition.length_instances], ?_⟩
    intro n hn
    obtain ⟨f, hf, rfl⟩ := List.mem_map.mp hn
    obtain ⟨index, _, rfl⟩ := List.mem_map.mp hf
    exact r.bytes_instanceAt index
  rw [withFields_cursor, hbytes, List.sum_replicate_nat]

theorem AdmitsAll.template {r : Repetition} (h : s.AdmitsAll space (r.instances space))
    (hcount : r.count ≠ 0) : 0 ∉ r.template.dimensions ∧ r.template.content.size ≠ 0 := by
  have hzero : r.instanceAt space 0 ∈ r.instances space :=
    List.mem_map_of_mem (List.mem_range.mpr (Nat.pos_of_ne_zero hcount))
  have helements := h.elements hzero
  exact helements

theorem AdmitsAll.fits_instances {r : Repetition} (h : s.AdmitsAll space (r.instances space))
    (hcount : r.count ≠ 0) : space.fits (s.cursor + r.count * r.template.bytes) = true := by
  have hne : r.instances space ≠ [] := by
    intro hnil
    exact hcount (by rw [← r.length_instances, hnil, List.length_nil])
  have hfits := h.fits hne
  rwa [withFields_instances_cursor] at hfits

/-- That all instances fit is checked beforehand, and asks no more than placing them does. -/
theorem placeRepetition_eq_ok_iff {r : Repetition} :
    s.placeRepetition space r = .ok t ↔
      r.count ≠ 0 ∧ s.AdmitsAll space (r.instances space) ∧
        t = s.withFields (r.instances space) := by
  constructor
  · intro h
    unfold placeRepetition at h
    dsimp only at h
    split at h
    · cases h
    · rename_i hcount
      split at h
      · cases h
      · exact ⟨hcount, foldlM_placeField_eq_ok_iff.mp h⟩
  · rintro ⟨hcount, hall, rfl⟩
    obtain ⟨hdims, hsize⟩ := hall.template hcount
    have hfits := hall.fits_instances hcount
    unfold placeRepetition
    rw [if_neg hcount, (Repetition.finish?_eq_some_iff hcount hdims hsize).mpr ⟨rfl, hfits⟩]
    exact foldlM_placeField_eq_ok_iff.mpr ⟨hall, rfl⟩

/-! ## Declarations -/

/-- What the placement of a declaration asks of the state and makes of it. -/
inductive Step (space : AddressSpace) (options : Options) (s : Placement) :
    Declaration → Declaration → Placement → Prop
  | field {f : Field Layout} {next : Declaration} (admits : s.Admits space f) :
      Step space options s (.field f) next (s.withField f)
  | flag {b : Flag} {next : Declaration} (admits : s.AdmitsFlag space options b next) :
      Step space options s (.flag b) next (s.withFlag options b next)
  | pad {n : Nat} {next : Declaration} (fits : space.fits (s.cursor + n) = true) :
      Step space options s (.pad n) next (s.withPadding n)
  | alignNext {next : Declaration} {alignment : Nat}
      (aligned : alignmentOf options s.cursor next = .ok alignment)
      (fits : space.fits (s.cursor + paddingTo alignment s.cursor) = true) :
      Step space options s .alignNext next (s.withPadding (paddingTo alignment s.cursor))
  | repetition {r : Repetition} {next : Declaration} (count : r.count ≠ 0)
      (admits : s.AdmitsAll space (r.instances space)) :
      Step space options s (.repetition r) next (s.withFields (r.instances space))
  | void {next : Declaration} : Step space options s .void next s

theorem place_eq_ok_iff {d next : Declaration} :
    s.place space options d next = .ok t ↔ Step space options s d next t := by
  constructor
  · intro h
    cases d with
    | field f =>
        obtain ⟨hadmits, rfl⟩ := placeField_eq_ok_iff.mp h
        exact .field hadmits
    | flag b =>
        obtain ⟨hadmits, rfl⟩ := placeFlag_eq_ok_iff.mp h
        exact .flag hadmits
    | pad n =>
        obtain ⟨hfits, rfl⟩ := placePadding_eq_ok_iff.mp h
        exact .pad hfits
    | alignNext =>
        obtain ⟨alignment, haligned, h⟩ := bind_eq_ok_iff.mp h
        obtain ⟨hfits, rfl⟩ := placePadding_eq_ok_iff.mp h
        exact .alignNext haligned hfits
    | repetition r =>
        obtain ⟨hcount, hadmits, rfl⟩ := placeRepetition_eq_ok_iff.mp h
        exact .repetition hcount hadmits
    | void =>
        cases h
        exact .void
  · intro h
    cases h with
    | field hadmits => exact placeField_eq_ok_iff.mpr ⟨hadmits, rfl⟩
    | flag hadmits => exact placeFlag_eq_ok_iff.mpr ⟨hadmits, rfl⟩
    | pad hfits => exact placePadding_eq_ok_iff.mpr ⟨hfits, rfl⟩
    | alignNext haligned hfits =>
        exact bind_eq_ok_iff.mpr ⟨_, haligned, placePadding_eq_ok_iff.mpr ⟨hfits, rfl⟩⟩
    | repetition hcount hadmits =>
        exact placeRepetition_eq_ok_iff.mpr ⟨hcount, hadmits, rfl⟩
    | void => rfl

end Placement

end StructureLayout
