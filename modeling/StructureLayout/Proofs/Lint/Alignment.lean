import StructureLayout.Lint
import StructureLayout.Proofs.Table.Alignment
import Mathlib.Data.List.SplitBy

/-!
# What silence says about alignment

Without a finding every field stands at a multiple of its alignment and every structure is a
whole number of its own words of flags long.  The primitives in it are then aligned up to the
arrays of structures: an element after the first one is aligned if the structure is also a
whole number of its alignments long, and a word narrower than the alignment does not say so.
-/

namespace StructureLayout

/-- A field stands at a multiple of its alignment. -/
def Entry.InAlignment (e : Entry Layout) : Prop := ∀ c, e.content? = some c → c.alignment ∣ e.offset

namespace Lint

theorem sharesWord_isSome {d e : Entry Layout} (h : sharesWord d e = true) :
    e.bit?.isSome = true := by
  rw [sharesWord, Bool.and_eq_true, Bool.and_eq_true] at h
  exact h.1.2

/-- A run goes on with flags only. -/
theorem isSome_of_isChain {e : Entry Layout} {run : List (Entry Layout)}
    (h : (e :: run).IsChain fun d e => sharesWord d e = true) :
    ∀ d ∈ run, d.bit?.isSome = true := by
  induction run generalizing e with
  | nil => exact fun d hd => absurd hd List.not_mem_nil
  | cons c run ih =>
      rw [List.isChain_cons_cons] at h
      intro d hd
      rcases List.mem_cons.mp hd with rfl | hd
      · exact sharesWord_isSome h.1
      · exact ih h.2 d hd

/-- A field makes a run of its own, and a flag is not reported for its alignment. -/
theorem forall_runFindings_iff {wordBits : Nat} {run : List (Entry Layout)}
    (h : run.IsChain fun d e => sharesWord d e = true) :
    (∀ x ∈ runFindings wordBits run, x.rule ≠ .misaligned) ↔ ∀ e ∈ run, e.InAlignment := by
  cases run with
  | nil => simp [runFindings]
  | cons e run =>
      have hrest : ∀ d ∈ run, d.InAlignment := by
        intro d hd c hc
        rcases d with _ | _
        · cases isSome_of_isChain h _ hd
        · cases hc
      rw [List.forall_mem_cons, and_iff_left hrest]
      cases e with
      | field f offset size scaling =>
          have hmax : max 1 f.content.alignment = f.content.alignment :=
            Nat.max_eq_right f.content.alignment_bounds.1
          simp [runFindings, alignmentFindings, Entry.InAlignment, Entry.content?, Entry.offset,
            hmax, Nat.dvd_iff_mod_eq_zero]
      | flag b offset word bit =>
          simp [runFindings, wordFindings, Entry.InAlignment, Entry.content?]

end Lint

namespace Layout

/-- What is reported as misaligned are the fields off their alignment. -/
theorem forall_lint_iff {l : Layout} :
    (∀ x ∈ l.lint, x.rule ≠ .misaligned) ↔ ∀ e ∈ l.entries, e.InAlignment := by
  have hsize : ∀ x ∈ Lint.sizeFindings l, x.rule ≠ .misaligned := by
    simp [Lint.sizeFindings]
  have hruns : (∀ run ∈ l.entries.splitBy Lint.sharesWord, ∀ e ∈ run, e.InAlignment) ↔
      ∀ e ∈ l.entries, e.InAlignment := by
    rw [← List.forall_mem_flatten, List.flatten_splitBy]
  rw [lint, List.forall_mem_append, and_iff_left hsize, List.forall_mem_flatMap, ← hruns]
  exact forall₂_congr fun run hrun => Lint.forall_runFindings_iff (List.isChain_of_mem_splitBy hrun)

section Silence

variable {l : Layout} (h : l.lint = [])
include h

theorem alignment_dvd_offset {e : Entry Layout} (he : e ∈ l.entries) {c : Content Layout}
    (hc : e.content? = some c) : c.alignment ∣ e.offset := by
  refine forall_lint_iff.mp ?_ e he c hc
  rw [h]
  exact nofun

theorem bitWord_dvd_totalSize : l.options.bitWord.bytes ∣ l.totalSize := by
  have hfindings : Lint.sizeFindings l = [] := (List.append_eq_nil_iff.mp h).2
  by_contra hdvd
  have hne : l.totalSize % l.options.bitWord.bytes ≠ 0 :=
    fun hmod => hdvd (Nat.dvd_of_mod_eq_zero hmod)
  simp [Lint.sizeFindings, hne] at hfindings

end Silence

/-- Neither the layout nor a layout nested in it has a finding. -/
def Silent (l : Layout) : Prop := ∀ m : Layout, m.Within l → m.lint = []

theorem silent_iff {l : Layout} :
    l.Silent ↔ l.lint = [] ∧ ∀ e ∈ l.entries, ∀ s, e.nested? = some s → s.Silent :=
  forall_within_iff

/-- What is asked of each structure that a field anywhere in the layout repeats. -/
def ForArrays (P : Layout → Prop) (l : Layout) : Prop :=
  ∀ m : Layout, m.Within l → ∀ e ∈ m.entries, ∀ s, e.nested? = some s → 1 < e.elements → P s

theorem forArrays_iff {P : Layout → Prop} {l : Layout} :
    l.ForArrays P ↔ (∀ e ∈ l.entries, ∀ s, e.nested? = some s → 1 < e.elements → P s) ∧
      ∀ e ∈ l.entries, ∀ s, e.nested? = some s → s.ForArrays P :=
  forall_within_iff

/-- The elements of an array of the structure are all aligned as the first one is. -/
def Stackable (s : Layout) : Prop := s.alignment ∣ s.totalSize

theorem stackable_of_bitWord {s : Layout} (h : s.lint = [])
    (hwide : s.alignment ≤ s.options.bitWord.bytes) : s.Stackable := by
  obtain ⟨w, hw⟩ := s.exists_width_alignment
  rw [hw] at hwide
  rw [Stackable, hw]
  exact (Width.bytes_dvd_of_le hwide).trans (bitWord_dvd_totalSize h)

/-! ## Structures that keep their elements aligned -/

theorem alignment_dvd_element {l s : Layout} {base : Nat} (hbase : l.alignment ∣ base)
    (hsilent : l.lint = []) {f : Field Layout} {offset size : Nat} {scaling : Option Autoscale}
    (he : .field f offset size scaling ∈ l.entries) (hcontent : f.content = .nested s)
    (hstack : 1 < f.elements → s.Stackable) {i : Nat} (hi : i < f.elements) :
    s.alignment ∣ base + offset + i * s.totalSize := by
  have hdvd : s.alignment ∣ l.alignment := alignment_dvd he (congrArg some hcontent)
  have hoffset : s.alignment ∣ offset := alignment_dvd_offset hsilent he (congrArg some hcontent)
  refine Nat.dvd_add (Nat.dvd_add (hdvd.trans hbase) hoffset) ?_
  by_cases hone : 1 < f.elements
  · exact Dvd.dvd.mul_left (hstack hone) i
  · obtain rfl : i = 0 := by omega
    rw [Nat.zero_mul]
    exact Nat.dvd_zero _

theorem HasLeaf.size_dvd_offset {l : Layout} {stem : String} {base : Nat} {r : Leaf}
    (h : l.HasLeaf stem base r) (hsilent : l.Silent) (harrays : l.ForArrays Stackable)
    (hbase : l.alignment ∣ base) {p : Primitive} (hp : r.row.kind = .primitive p) :
    p.size ∣ r.offset := by
  induction h with
  | flag _ => cases hp
  | primitive he hcontent =>
      cases hp
      have hc := congrArg some hcontent
      exact Nat.dvd_add ((alignment_dvd he hc).trans hbase)
        (alignment_dvd_offset (silent_iff.mp hsilent).1 he hc)
  | nested he hcontent hi _ ih =>
      obtain ⟨hlint, hsilent⟩ := silent_iff.mp hsilent
      obtain ⟨hstack, harrays⟩ := forArrays_iff.mp harrays
      have hs := congrArg Content.nested? hcontent
      refine ih (hsilent _ he _ hs) (harrays _ he _ hs) ?_ hp
      exact alignment_dvd_element hbase hlint he hcontent (hstack _ he _ hs) hi

/-! ## Arrays whose elements are aligned -/

/-- Where one layout stands in another. -/
theorem Within.exists_hasLeaf {l m : Layout} (h : m.Within l) (stem : String) (base : Nat) :
    ∃ stem' base', ∀ r, m.HasLeaf stem' base' r → l.HasLeaf stem base r := by
  induction h generalizing stem base with
  | refl => exact ⟨stem, base, fun r hr => hr⟩
  | @nested _ _ s e he hs _ ih =>
      obtain ⟨f, offset, size, scaling, rfl, hcontent⟩ := Entry.exists_field hs
      obtain ⟨stem', base', hleaf⟩ :=
        ih (memberStem (stem ++ f.name) f.elements 0) (base + offset + 0 * s.totalSize)
      exact ⟨stem', base', fun r hr => .nested he hcontent f.elements_pos (hleaf r hr)⟩

/-- If the first two elements of an array have their primitives aligned, its structure is
stackable. -/
theorem stackable_of_aligned {l s : Layout} {stem : String} {base : Nat}
    (haligned : ∀ r, l.HasLeaf stem base r → ∀ p, r.row.kind = .primitive p →
      p.size ∣ r.offset)
    {e : Entry Layout} (he : e ∈ l.entries) (hs : e.nested? = some s) (helements : 1 < e.elements) :
    s.Stackable := by
  rw [Stackable]
  rcases s.exists_hasLeaf_alignment with hone | ⟨r, p, hr, hp, hsize⟩
  · rw [hone]
    exact Nat.one_dvd _
  · obtain ⟨f, offset, size, scaling, rfl, hcontent⟩ := Entry.exists_field hs
    have hdvd {i : Nat} (hi : i < f.elements) :
        s.alignment ∣ base + offset + i * s.totalSize + r.offset := by
      rw [← hsize]
      exact haligned _ (.nested he hcontent hi (hr.moved _ _)) p hp
    have hfirst := hdvd f.elements_pos
    have hsecond := hdvd helements
    have hsum : base + offset + 1 * s.totalSize + r.offset =
        base + offset + 0 * s.totalSize + r.offset + s.totalSize := by omega
    rw [hsum] at hsecond
    exact (Nat.dvd_add_right hfirst).mp hsecond

/-! ## The table -/

/-- In a layout without findings, at any depth, the primitives of the table are aligned exactly
if the structures in arrays are stackable; a word of flags as wide as the alignment of the
structure is enough for that. -/
theorem aligned_iff_of_silent (l : Layout) (h : l.Silent) :
    ((∀ r ∈ l.table.rows, ∀ p, r.kind = .primitive p → p.size ∣ r.offset) ↔
      l.ForArrays Stackable) ∧
    (l.ForArrays (fun s => s.alignment ≤ s.options.bitWord.bytes) →
      ∀ r ∈ l.table.rows, ∀ p, r.kind = .primitive p → p.size ∣ r.offset) := by
  have hiff : (∀ r ∈ l.table.rows, ∀ p, r.kind = .primitive p → p.size ∣ r.offset) ↔
      l.ForArrays Stackable := by
    rw [forall_row_iff]
    constructor
    · intro haligned m hm e he s hs helements
      obtain ⟨stem, base, hleaf⟩ := hm.exists_hasLeaf "" 0
      exact stackable_of_aligned (fun r hr => haligned r (hleaf r hr)) he hs helements
    · intro harrays r hr p hp
      exact hr.size_dvd_offset h harrays (Nat.dvd_zero _) hp
  refine ⟨hiff, fun hwide => hiff.mpr ?_⟩
  intro m hm e he s hs helements
  have hsilent : s.lint = [] := h s (.trans (.nested he hs (.refl s)) hm)
  exact stackable_of_bitWord hsilent (hwide m hm e he s hs helements)

/-- A point of eight bytes, aligned at four. -/
def point : Layout where
  name := "point"
  entries :=
    [.field { name := "at", content := .primitive .float } 0 4 none,
      .field { name := "gain", content := .primitive (.integer ⟨false, .two⟩) } 4 2 none,
      .field { name := "tags", content := .primitive (.integer ⟨false, .one⟩),
               dimensions := [2] } 6 2 none]
  totalSize := 8
  options := {}

def curve : Layout where
  name := "curve"
  entries := [.field { name := "points", content := .nested point, dimensions := [2, 3] } 0 48 none]
  totalSize := 48
  options := {}

theorem curve_compiled : curve.Compiled := by
  have hpoint : point.Compiled := by
    refine compiled_of_entries rfl ?_
    simp [point, Entry.nested?, Entry.content?, Content.nested?]
  refine compiled_of_entries rfl ?_
  simpa [curve, Entry.nested?, Entry.content?, Content.nested?] using hpoint

theorem curve_silent : curve.Silent := by
  have hpoint : point.Silent := by
    refine silent_iff.mpr ⟨rfl, ?_⟩
    simp [point, Entry.nested?, Entry.content?, Content.nested?]
  refine silent_iff.mpr ⟨rfl, ?_⟩
  simpa [curve, Entry.nested?, Entry.content?, Content.nested?] using hpoint

theorem curve_forArrays : curve.ForArrays fun s => s.alignment ≤ s.options.bitWord.bytes := by
  have hpoint : point.ForArrays fun s => s.alignment ≤ s.options.bitWord.bytes := by
    refine forArrays_iff.mpr ⟨?_, ?_⟩ <;>
      simp [point, Entry.nested?, Entry.content?, Content.nested?]
  have hwide : point.alignment ≤ point.options.bitWord.bytes := by decide
  refine forArrays_iff.mpr ⟨?_, ?_⟩
  · simpa [curve, Entry.nested?, Entry.content?, Content.nested?] using fun _ => hwide
  · simpa [curve, Entry.nested?, Entry.content?, Content.nested?] using hpoint

theorem curve_aligned :
    curve.Compiled ∧ curve.Silent ∧
      curve.ForArrays (fun s => s.alignment ≤ s.options.bitWord.bytes) ∧
      ∀ r ∈ curve.table.rows, ∀ p, r.kind = .primitive p → p.size ∣ r.offset :=
  ⟨curve_compiled, curve_silent, curve_forArrays,
    (aligned_iff_of_silent curve curve_silent).2 curve_forArrays⟩

/-- Three bytes, aligned at two, with words of one byte. -/
def mark : Layout where
  name := "mark"
  entries :=
    [.field { name := "height", content := .primitive (.integer ⟨false, .two⟩) } 0 2 none,
      .field { name := "tag", content := .primitive (.integer ⟨false, .one⟩) } 2 1 none]
  totalSize := 3
  options := { bitWord := .one }

def marks : Layout where
  name := "marks"
  entries := [.field { name := "mark", content := .nested mark, dimensions := [2] } 0 6 none]
  totalSize := 6
  options := { bitWord := .one }

theorem marks_compiled : marks.Compiled := by
  have hmark : mark.Compiled := by
    refine compiled_of_entries rfl ?_
    simp [mark, Entry.nested?, Entry.content?, Content.nested?]
  refine compiled_of_entries rfl ?_
  simpa [marks, Entry.nested?, Entry.content?, Content.nested?] using hmark

theorem marks_silent : marks.Silent := by
  have hmark : mark.Silent := by
    refine silent_iff.mpr ⟨rfl, ?_⟩
    simp [mark, Entry.nested?, Entry.content?, Content.nested?]
  refine silent_iff.mpr ⟨rfl, ?_⟩
  simpa [marks, Entry.nested?, Entry.content?, Content.nested?] using hmark

/-- Words of one byte leave the second element of an array at an odd offset. -/
theorem not_aligned_of_silent :
    ¬∀ l : Layout, l.Compiled → l.Silent →
      ∀ r ∈ l.table.rows, ∀ p, r.kind = .primitive p → p.size ∣ r.offset := by
  intro h
  have hrow : (⟨"mark1_height", 3, .primitive (.integer ⟨false, .two⟩)⟩ : Row) ∈
      marks.table.rows := by decide +kernel
  have hdvd := h marks marks_compiled marks_silent _ hrow _ rfl
  revert hdvd
  decide

end Layout

end StructureLayout
