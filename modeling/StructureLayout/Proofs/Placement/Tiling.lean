import StructureLayout.Proofs.Placement.Run
import Mathlib.Data.List.Dedup

/-!
# Tilings

The bytes up to the frontier of a placement, which is the cursor or the end of an open word,
are divided among the entries and the padding.  The invariant `Tiling` says so of every state
that a run reaches, also while a word is open whose bytes the cursor has not passed yet.
-/

namespace StructureLayout

namespace Entry

def covers (e : Entry Layout) (byte : Nat) : Bool :=
  decide (e.offset ≤ byte) && decide (byte < e.finish)

theorem covers_iff {e : Entry Layout} {byte : Nat} :
    e.covers byte = true ↔ e.offset ≤ byte ∧ byte < e.finish := by
  simp [covers]

/-- A field takes its elements, which are not empty, and a flag a bit of a word. -/
def Sized (word : Width) : Entry Layout → Prop
  | field f _ size _ => size = f.content.size * f.dimensions.prod ∧ 0 < size
  | flag _ _ w bit => w = word ∧ bit < word.bits

theorem Sized.size_pos {word : Width} {e : Entry Layout} (h : e.Sized word) : 0 < e.size := by
  cases e with
  | field f offset size scaling => exact h.2
  | flag b offset w bit => exact w.bytes_pos

theorem Sized.offset_lt_finish {word : Width} {e : Entry Layout} (h : e.Sized word) :
    e.offset < e.finish :=
  Nat.lt_add_of_pos_right h.size_pos

theorem Sized.finish_of_bit? {word : Width} {e : Entry Layout} (h : e.Sized word)
    (hbit : e.bit?.isSome = true) : e.finish = e.offset + word.bytes := by
  cases e with
  | field f offset size scaling => cases hbit
  | flag b offset w bit =>
      obtain ⟨rfl, _⟩ := h
      rfl

theorem Sized.prod_ne_zero {word : Width} {f : Field Layout} {offset size : Nat}
    {scaling : Option Autoscale} (h : (field f offset size scaling).Sized word) :
    f.dimensions.prod ≠ 0 := by
  obtain ⟨hsize, hpos⟩ := h
  intro hzero
  rw [hsize, hzero, Nat.mul_zero] at hpos
  exact Nat.lt_irrefl 0 hpos

theorem Sized.elements_eq {word : Width} {f : Field Layout} {offset size : Nat}
    {scaling : Option Autoscale} (h : (field f offset size scaling).Sized word) :
    f.elements = f.dimensions.prod := by
  have hne := h.prod_ne_zero
  rw [Field.elements, ← List.prod_eq_foldl]
  omega

theorem Sized.size_eq {word : Width} {f : Field Layout} {offset size : Nat}
    {scaling : Option Autoscale} (h : (field f offset size scaling).Sized word) :
    size = f.elements * f.content.size := by
  rw [h.elements_eq, h.1, Nat.mul_comm]

/-- Of two flags in one word the first has the lower bit, and other entries do not overlap. -/
def Precedes (d e : Entry Layout) : Prop :=
  (∃ i j, d.bit? = some i ∧ e.bit? = some j ∧ d.offset = e.offset ∧ i < j) ∨
    d.finish ≤ e.offset

end Entry

/-- The bytes below a limit that no entry covers. -/
def uncoveredBelow (entries : List (Entry Layout)) (limit : Nat) : List Nat :=
  (List.range limit).filter fun byte => !entries.any fun e => e.covers byte

def fieldBytes (entries : List (Entry Layout)) : Nat :=
  ((entries.filter fun e => e.bit?.isNone).map Entry.size).sum

/-- The offsets of the words, each listed once. -/
def wordOffsets (entries : List (Entry Layout)) : List Nat :=
  ((entries.filter fun e => e.bit?.isSome).map Entry.offset).dedup

section Counting

variable (es : List (Entry Layout))

theorem fieldBytes_field (f : Field Layout) (offset size : Nat) (scaling : Option Autoscale) :
    fieldBytes (.field f offset size scaling :: es) = size + fieldBytes es := rfl

theorem fieldBytes_flag (b : Flag) (offset : Nat) (word : Width) (bit : Nat) :
    fieldBytes (.flag b offset word bit :: es) = fieldBytes es := rfl

theorem wordOffsets_field (f : Field Layout) (offset size : Nat) (scaling : Option Autoscale) :
    wordOffsets (.field f offset size scaling :: es) = wordOffsets es := rfl

variable {es}

theorem wordOffsets_flag_of_mem {b : Flag} {offset : Nat} {word : Width} {bit : Nat}
    (h : ∃ e ∈ es, e.bit?.isSome = true ∧ e.offset = offset) :
    wordOffsets (.flag b offset word bit :: es) = wordOffsets es := by
  obtain ⟨e, he, hbit, rfl⟩ := h
  have hmem : e.offset ∈ (es.filter fun e => e.bit?.isSome).map Entry.offset :=
    List.mem_map_of_mem (List.mem_filter.mpr ⟨he, hbit⟩)
  exact List.dedup_cons_of_mem hmem

theorem wordOffsets_flag_of_forall_ne {b : Flag} {offset : Nat} {word : Width} {bit : Nat}
    (h : ∀ e ∈ es, e.offset ≠ offset) :
    wordOffsets (.flag b offset word bit :: es) = offset :: wordOffsets es := by
  refine List.dedup_cons_of_notMem ?_
  intro hmem
  obtain ⟨e, he, heq⟩ := List.mem_map.mp hmem
  exact h e (List.mem_of_mem_filter he) heq

end Counting

section Covering

variable {e : Entry Layout} {es : List (Entry Layout)}

theorem uncoveredBelow_append_range' {n : Nat} (hes : ∀ e ∈ es, e.finish ≤ n) (k : Nat) :
    uncoveredBelow es (n + k) = uncoveredBelow es n ++ List.range' n k := by
  unfold uncoveredBelow
  rw [List.range_add, List.filter_append, ← List.range'_eq_map_range]
  congr 1
  rw [List.filter_eq_self]
  intro byte hbyte
  rw [Bool.not_eq_true', List.any_eq_false]
  intro e he hcovers
  have hfinish := hes e he
  have hlow := (List.mem_range'_1.mp hbyte).1
  have hhigh := (Entry.covers_iff.mp hcovers).2
  omega

theorem uncoveredBelow_cons_of_fills {n : Nat} (hoffset : e.offset = n) :
    uncoveredBelow (e :: es) e.finish = uncoveredBelow es n := by
  unfold uncoveredBelow
  rw [show e.finish = n + e.size by rw [← hoffset]; rfl, List.range_add, List.filter_append,
    ← List.range'_eq_map_range]
  have hbelow : ∀ byte ∈ List.range n, e.covers byte = false := by
    intro byte hbyte
    rw [Bool.eq_false_iff]
    intro hcovers
    have hlt := List.mem_range.mp hbyte
    have hlow := (Entry.covers_iff.mp hcovers).1
    omega
  have hwithin : ∀ byte ∈ List.range' n e.size, e.covers byte = true := by
    intro byte hbyte
    obtain ⟨hlow, hhigh⟩ := List.mem_range'_1.mp hbyte
    refine Entry.covers_iff.mpr ⟨hoffset ▸ hlow, ?_⟩
    rw [Entry.finish, hoffset]
    exact hhigh
  have hnone : (List.range' n e.size).filter
      (fun byte => !(e :: es).any fun d => d.covers byte) = [] := by
    rw [List.filter_eq_nil_iff]
    intro byte hbyte
    simp [hwithin byte hbyte]
  rw [hnone, List.append_nil]
  apply List.filter_congr
  intro byte hbyte
  rw [List.any_cons, hbelow byte hbyte, Bool.false_or]

theorem uncoveredBelow_cons_of_covered
    (h : ∀ byte, e.covers byte = true → ∃ d ∈ es, d.covers byte = true) (n : Nat) :
    uncoveredBelow (e :: es) n = uncoveredBelow es n := by
  apply List.filter_congr
  intro byte _
  rw [List.any_cons]
  cases hcovers : e.covers byte with
  | false => rw [Bool.false_or]
  | true =>
      obtain ⟨d, hd, hdcovers⟩ := h byte hcovers
      rw [Bool.true_or, List.any_eq_true.mpr ⟨d, hd, hdcovers⟩]

end Covering

namespace Placement

variable {space : AddressSpace} {options : Options} {s t : Placement} {padding : List Nat}

/-- The end of the bytes that are given away. -/
def frontier (options : Options) (s : Placement) : Nat :=
  match s.open? with
  | some w => w.offset + options.bitWord.bytes
  | none => s.cursor

theorem frontier_of_none (h : s.open? = none) : s.frontier options = s.cursor := by
  rw [frontier, h]

theorem frontier_withFlag (b : Flag) (next : Declaration) :
    (s.withFlag options b next).frontier options =
      s.currentWord.offset + options.bitWord.bytes := by
  by_cases hcloses : s.closesWord options b next = true
  · rw [frontier_of_none (open?_withFlag_of_closes hcloses)]
    exact cursor_withFlag_of_closes hcloses
  · have hopen := open?_withFlag_of_not_closes hcloses
    rw [frontier, hopen]

theorem frontier_of_open {w : OpenWord} (h : s.open? = some w) :
    s.frontier options = s.currentWord.offset + options.bitWord.bytes := by
  rw [frontier, currentWord, h, Option.getD_some]

theorem frontier_le (options : Options) (s : Placement) :
    s.frontier options ≤ s.currentWord.offset + options.bitWord.bytes := by
  cases h : s.open? with
  | none =>
      rw [frontier, currentWord, h]
      exact Nat.le_add_right _ _
  | some w => exact (frontier_of_open h).le

/-- The entries and the padding share the bytes up to the frontier. -/
structure Tiling (options : Options) (padding : List Nat) (s : Placement) : Prop where
  sized : ∀ e ∈ s.entries, e.Sized options.bitWord
  /-- The cursor is past an entry, unless it is a flag in the open word. -/
  settled : ∀ e ∈ s.entries, e.finish ≤ s.cursor ∨
    ∃ w ∈ s.open?, ∃ bit, e.bit? = some bit ∧ e.offset = w.offset ∧ bit < w.nextBit
  ordered : s.entries.Pairwise fun later earlier => earlier.Precedes later
  opened : ∀ w ∈ s.open?, ∃ e ∈ s.entries, e.bit?.isSome = true ∧ e.offset = w.offset
  uncovered : uncoveredBelow s.entries (s.frontier options) = padding
  total : s.frontier options = fieldBytes s.entries +
    options.bitWord.bytes * (wordOffsets s.entries).length + padding.length

namespace Tiling

theorem empty : Tiling options [] {} where
  sized := by simp
  settled := by simp
  ordered := List.Pairwise.nil
  opened := by simp
  uncovered := rfl
  total := by simp [frontier, fieldBytes, wordOffsets]

theorem finish_le_cursor (h : Tiling options padding s) (hopen : s.open? = none) :
    ∀ e ∈ s.entries, e.finish ≤ s.cursor := by
  intro e he
  rcases h.settled e he with hfinish | ⟨w, hw, _⟩
  · exact hfinish
  · rw [hopen] at hw
    cases hw

theorem finish_le_frontier {d : Declaration} (h : Tiling options padding s)
    (hready : s.WordReady options d) : ∀ e ∈ s.entries, e.finish ≤ s.frontier options := by
  intro e he
  cases hopen : s.open? with
  | none =>
      rw [frontier_of_none hopen]
      exact h.finish_le_cursor hopen e he
  | some w =>
      have hoffset := hready.offset w hopen
      rw [frontier, hopen]
      dsimp only
      rcases h.settled e he with hfinish | ⟨w', hw', bit, hbit, heq, _⟩
      · omega
      · rw [hopen] at hw'
        cases hw'
        rw [(h.sized e he).finish_of_bit? (by rw [hbit]; rfl), heq]

theorem precedes_of_finish_le {e : Entry Layout} (hfinish : ∀ d ∈ s.entries, d.finish ≤ e.offset)
    (h : Tiling options padding s) :
    (e :: s.entries).Pairwise fun later earlier => earlier.Precedes later :=
  List.pairwise_cons.mpr ⟨fun d hd => Or.inr (hfinish d hd), h.ordered⟩

theorem withField {f : Field Layout} (h : Tiling options padding s) (hopen : s.open? = none)
    (hadmits : s.Admits space f) : Tiling options padding (s.withField f) := by
  have hfinish := h.finish_le_cursor hopen
  have hbytes := hadmits.bytes_pos
  have hafter : (s.withField f).frontier options = s.cursor + f.bytes :=
    frontier_of_none (s := s.withField f) hopen
  constructor
  · intro e he
    rcases List.mem_cons.mp he with rfl | he
    · exact ⟨rfl, hbytes⟩
    · exact h.sized e he
  · intro e he
    left
    rcases List.mem_cons.mp he with rfl | he
    · exact Nat.le_refl _
    · exact Nat.le_add_right_of_le (hfinish e he)
  · exact precedes_of_finish_le hfinish h
  · intro w hw
    cases hopen.symm.trans hw
  · rw [hafter, ← h.uncovered, frontier_of_none hopen]
    exact uncoveredBelow_cons_of_fills rfl
  · have htotal := h.total
    rw [frontier_of_none hopen] at htotal
    have hfields : fieldBytes (s.withField f).entries = f.bytes + fieldBytes s.entries :=
      fieldBytes_field s.entries f _ _ _
    have hwords : wordOffsets (s.withField f).entries = wordOffsets s.entries :=
      wordOffsets_field s.entries f _ _ _
    rw [hafter, hfields, hwords]
    omega

theorem withFields {fs : List (Field Layout)} (h : Tiling options padding s)
    (hopen : s.open? = none) (hadmits : s.AdmitsAll space fs) :
    Tiling options padding (s.withFields fs) := by
  induction fs generalizing s with
  | nil => exact h
  | cons f fs ih => exact ih (h.withField hopen hadmits.1) hopen hadmits.2

theorem withPadding (h : Tiling options padding s) (hopen : s.open? = none) (n : Nat) :
    Tiling options (padding ++ List.range' s.cursor n) (s.withPadding n) := by
  have hfinish := h.finish_le_cursor hopen
  have hafter : (s.withPadding n).frontier options = s.cursor + n :=
    frontier_of_none (s := s.withPadding n) hopen
  constructor
  · exact h.sized
  · intro e he
    exact Or.inl (Nat.le_add_right_of_le (hfinish e he))
  · exact h.ordered
  · exact h.opened
  · rw [hafter, ← h.uncovered, frontier_of_none hopen]
    exact uncoveredBelow_append_range' hfinish n
  · have htotal := h.total
    rw [frontier_of_none hopen] at htotal
    rw [hafter, List.length_append, List.length_range']
    dsimp only [Placement.withPadding]
    omega

/-- A flag in the open word stands behind the flags that are there. -/
theorem precedes_flag {d next : Declaration} {b : Flag} (h : Tiling options padding s)
    (hready : s.WordReady options d) (hadmits : s.AdmitsFlag space options b next) :
    ∀ e ∈ s.entries,
      e.Precedes (.flag b s.currentWord.offset options.bitWord (s.bitFor b)) := by
  intro e he
  rcases h.settled e he with hfinish | ⟨w, hw, bit, hbit, hoffset, hlt⟩
  · right
    rw [Entry.offset, hready.currentWord_offset]
    exact hfinish
  · left
    have hword := currentWord_of_open hw
    have hle := hadmits.nextBit_le_bitFor
    rw [hword] at hle ⊢
    exact ⟨bit, _, hbit, rfl, hoffset, Nat.lt_of_lt_of_le hlt hle⟩

theorem settled_withFlag {d next : Declaration} {b : Flag} (h : Tiling options padding s)
    (hready : s.WordReady options d) (hadmits : s.AdmitsFlag space options b next) :
    ∀ e ∈ (s.withFlag options b next).entries, e.finish ≤ (s.withFlag options b next).cursor ∨
      ∃ w ∈ (s.withFlag options b next).open?, ∃ bit,
        e.bit? = some bit ∧ e.offset = w.offset ∧ bit < w.nextBit := by
  have hprecedes := h.precedes_flag hready hadmits
  have hbelow := h.finish_le_frontier hready
  by_cases hcloses : s.closesWord options b next = true
  · -- the cursor passes the word and with it every entry
    have hcursor := cursor_withFlag_of_closes hcloses
    intro e he
    left
    rw [hcursor]
    rcases List.mem_cons.mp he with rfl | he
    · exact Nat.le_refl _
    · exact (hbelow e he).trans (frontier_le options s)
  · have hcursor := cursor_withFlag_of_not_closes hcloses
    have hopen := open?_withFlag_of_not_closes hcloses
    intro e he
    rw [hcursor, hopen]
    rcases List.mem_cons.mp he with rfl | he
    · exact Or.inr ⟨_, rfl, _, rfl, rfl, Nat.lt_succ_self _⟩
    · rcases hprecedes e he with ⟨i, j, hi, hj, hoffset, hlt⟩ | hfinish
      · cases hj
        exact Or.inr ⟨_, rfl, i, hi, hoffset, Nat.lt_succ_of_lt hlt⟩
      · left
        rw [← hready.currentWord_offset]
        exact hfinish

theorem opened_withFlag (b : Flag) (next : Declaration) :
    ∀ w ∈ (s.withFlag options b next).open?, ∃ e ∈ (s.withFlag options b next).entries,
      e.bit?.isSome = true ∧ e.offset = w.offset := by
  intro w hw
  by_cases hcloses : s.closesWord options b next = true
  · have hopen := open?_withFlag_of_closes hcloses
    cases hopen.symm.trans hw
  · have hopen := open?_withFlag_of_not_closes hcloses
    cases hopen.symm.trans hw
    exact ⟨_, List.mem_cons_self, rfl, rfl⟩

theorem uncovered_withFlag {d next : Declaration} {b : Flag} (h : Tiling options padding s)
    (hready : s.WordReady options d) :
    uncoveredBelow (s.withFlag options b next).entries
      ((s.withFlag options b next).frontier options) = padding := by
  rw [frontier_withFlag, ← h.uncovered]
  cases hopen : s.open? with
  | none =>
      rw [frontier_of_none hopen]
      exact uncoveredBelow_cons_of_fills hready.currentWord_offset
  | some w =>
      -- the flags that are there cover the word already
      rw [frontier_of_open hopen]
      refine uncoveredBelow_cons_of_covered ?_ _
      intro byte hbyte
      obtain ⟨e, he, hbit, hoffset⟩ := h.opened w hopen
      refine ⟨e, he, Entry.covers_iff.mpr ?_⟩
      rw [(h.sized e he).finish_of_bit? hbit, hoffset, ← currentWord_of_open hopen]
      exact Entry.covers_iff.mp hbyte

theorem total_withFlag {d next : Declaration} {b : Flag} (h : Tiling options padding s)
    (hready : s.WordReady options d) :
    (s.withFlag options b next).frontier options =
      fieldBytes (s.withFlag options b next).entries +
        options.bitWord.bytes * (wordOffsets (s.withFlag options b next).entries).length +
          padding.length := by
  have hfields : fieldBytes (s.withFlag options b next).entries = fieldBytes s.entries :=
    fieldBytes_flag s.entries b _ _ _
  have htotal := h.total
  rw [frontier_withFlag, hfields]
  cases hopen : s.open? with
  | none =>
      rw [frontier_of_none hopen] at htotal
      have hwords : wordOffsets (s.withFlag options b next).entries =
          s.currentWord.offset :: wordOffsets s.entries := by
        refine wordOffsets_flag_of_forall_ne ?_
        intro e he
        have hlt := (h.sized e he).offset_lt_finish
        have hle := h.finish_le_cursor hopen e he
        rw [hready.currentWord_offset]
        omega
      rw [hwords, List.length_cons, Nat.mul_succ, hready.currentWord_offset]
      omega
  | some w =>
      rw [frontier_of_open hopen] at htotal
      have hwords : wordOffsets (s.withFlag options b next).entries = wordOffsets s.entries := by
        refine wordOffsets_flag_of_mem ?_
        rw [currentWord_of_open hopen]
        exact h.opened w hopen
      rw [hwords]
      exact htotal

/-- A flag opens a word at the cursor or joins the flags of the open word. -/
theorem withFlag {d next : Declaration} {b : Flag} (h : Tiling options padding s)
    (hready : s.WordReady options d) (hadmits : s.AdmitsFlag space options b next) :
    Tiling options padding (s.withFlag options b next) where
  sized := by
    intro e he
    rcases List.mem_cons.mp he with rfl | he
    · exact ⟨rfl, hready.bitFor_lt hadmits⟩
    · exact h.sized e he
  settled := h.settled_withFlag hready hadmits
  ordered := List.pairwise_cons.mpr ⟨h.precedes_flag hready hadmits, h.ordered⟩
  opened := opened_withFlag b next
  uncovered := h.uncovered_withFlag hready
  total := h.total_withFlag hready

end Tiling

def insertedBy (options : Options) (cursor : Nat) (d next : Declaration) : Nat :=
  match d with
  | .pad n => n
  | .alignNext =>
    match alignmentOf options cursor next with
    | .ok alignment => paddingTo alignment cursor
    | .error _ => 0
  | .field _ | .flag _ | .repetition _ | .void => 0

/-- The bytes that the directives of a sequence insert when it is placed from a state on. -/
def insertedBytes (space : AddressSpace) (options : Options) (next : Declaration)
    (s : Placement) : List Declaration → List Nat
  | [] => []
  | d :: ds =>
    match s.place space options d (ds.headD next) with
    | .error _ => []
    | .ok t =>
      List.range' s.cursor (insertedBy options s.cursor d (ds.headD next)) ++
        t.insertedBytes space options next ds

theorem Step.tiling {d next : Declaration} (h : Step space options s d next t)
    (hready : s.WordReady options d) (hs : Tiling options padding s) :
    Tiling options (padding ++ List.range' s.cursor (insertedBy options s.cursor d next)) t := by
  cases h with
  | field hadmits =>
      rw [insertedBy, List.range'_zero, List.append_nil]
      exact hs.withField (hready.open?_eq_none rfl) hadmits
  | flag hadmits =>
      rw [insertedBy, List.range'_zero, List.append_nil]
      exact hs.withFlag hready hadmits
  | pad _ => exact hs.withPadding (hready.open?_eq_none rfl) _
  | alignNext haligned _ =>
      rw [insertedBy, haligned]
      exact hs.withPadding (hready.open?_eq_none rfl) _
  | repetition _ hadmits =>
      rw [insertedBy, List.range'_zero, List.append_nil]
      exact hs.withFields (hready.open?_eq_none rfl) hadmits
  | void =>
      rw [insertedBy, List.range'_zero, List.append_nil]
      exact hs

theorem tiling_of_placeBefore {next : Declaration} {ds : List Declaration}
    (hready : s.WordReady options (ds.headD next)) (hs : Tiling options padding s)
    (h : s.placeBefore space options next ds = .ok t) :
    Tiling options (padding ++ s.insertedBytes space options next ds) t ∧
      t.WordReady options next := by
  induction ds generalizing s padding with
  | nil =>
      cases h
      rw [insertedBytes, List.append_nil]
      exact ⟨hs, hready⟩
  | cons d ds ih =>
      obtain ⟨u, hstep, hrest⟩ := placeBefore_cons_eq_ok_iff.mp h
      rw [insertedBytes, place_eq_ok_iff.mpr hstep]
      dsimp only
      rw [← List.append_assoc]
      exact ih (hstep.wordReady hready) (hstep.tiling hready hs) hrest

/-- A whole run divides its bytes among the entries and the padding that it inserts. -/
theorem tiling_of_run {next : Declaration} {ds : List Declaration}
    (h : placeBefore space options next {} ds = .ok t) :
    Tiling options (insertedBytes space options next {} ds) t ∧ t.WordReady options next :=
  tiling_of_placeBefore (.of_none rfl) .empty h

end Placement

end StructureLayout
