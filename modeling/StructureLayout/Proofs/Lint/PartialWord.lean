import StructureLayout.Lint
import StructureLayout.Proofs.Placement.Words
import StructureLayout.Proofs.Text.Numeral
import Mathlib.Data.List.SplitBy
import Mathlib.Data.Finset.Card

/-!
# Words with bits to spare

Each word of flags is looked at once.  A report counts the bits up to the highest one that is
taken.  That is the number of bits taken in a word without gaps; a flag that skips bits makes a
word look fuller than it is.
-/

namespace StructureLayout

/-! ## Runs of one word -/

section Runs

variable {d e : Entry Layout} {es run rest : List (Entry Layout)} {offset : Nat}

theorem Entry.sharesWord_eq (hd : d.inWord offset = true) :
    Lint.sharesWord d e = e.inWord offset := by
  obtain ⟨hflag, rfl⟩ := inWord_iff.mp hd
  rw [Lint.sharesWord, hflag, Bool.true_and, inWord, BEq.comm]

theorem splitBy_word (he : e.bit?.isSome = true)
    (hrun : ∀ d ∈ run, d.inWord e.offset = true)
    (hrest : ∀ d ∈ rest, d.inWord e.offset = false) :
    (e :: (run ++ rest)).splitBy Lint.sharesWord =
      (e :: run) :: rest.splitBy Lint.sharesWord := by
  have hflags := inWord_of_mem_cons he hrun
  have hchain : (e :: run).IsChain fun d c => Lint.sharesWord d c = true := by
    refine List.Pairwise.isChain (List.pairwise_of_forall_mem_list ?_)
    intro d hd c hc
    rw [Entry.sharesWord_eq (hflags d hd)]
    exact hflags c hc
  rw [← List.cons_append, List.splitBy_append, List.splitBy_of_isChain (List.cons_ne_nil e run)
    hchain, List.singleton_append]
  intro d hd c hc
  rw [Entry.sharesWord_eq (hflags d (List.mem_of_mem_getLast? hd))]
  exact hrest c (List.mem_of_mem_head? hc)

theorem splitBy_field (f : Field Layout) (o size : Nat) (scaling : Option Autoscale) :
    (.field f o size scaling :: es).splitBy Lint.sharesWord =
      [.field f o size scaling] :: es.splitBy Lint.sharesWord := by
  rw [← List.singleton_append, List.splitBy_append, List.splitBy_of_isChain (List.cons_ne_nil _ _)
    (List.isChain_singleton _)]
  · rfl
  · rintro d hd c -
    obtain rfl : _ = d := by simpa using hd
    rfl

end Runs

/-! ## Reports -/

namespace Lint

/-- The bits up to the highest one of a word. -/
def reach (bits : List Nat) : Nat := bits.foldl (fun n bit => max n (bit + 1)) 0

/-- How many bits are taken. -/
def taken (bits : List Nat) : Nat := bits.dedup.length

def partialWord (field : String) (offset used wordBits : Nat) : Finding where
  field := some field
  offset := offset
  rule := .partialBitWord
  severity := .warning
  message := "bit word at " ++ toString offset ++ " uses " ++ toString used ++ " of " ++
    toString wordBits ++ " bits"

/-- The report on the flags of one word, named after the first of them, if by the given count
the word has bits to spare. -/
def wordReport (count : List Nat → Nat) (wordBits : Nat) (flags : List (Entry Layout)) :
    List Finding :=
  let used := count (flags.filterMap Entry.bit?)
  if used < wordBits then
    (flags.head?.map fun first => partialWord first.name first.offset used wordBits).toList
  else []

/-- The reports on the words, one for each offset at which a word stands. -/
def wordReports (count : List Nat → Nat) (wordBits : Nat) (entries : List (Entry Layout)) :
    List Finding :=
  (wordOffsets entries).flatMap fun offset =>
    wordReport count wordBits (flagsAt entries offset)

def isPartialWord (x : Finding) : Bool := x.rule == .partialBitWord

variable {es : List (Entry Layout)} {count : List Nat → Nat} {wordBits : Nat}

theorem usedBits_eq_reach {run : List (Entry Layout)} (h : ∀ e ∈ run, e.bit?.isSome = true) :
    usedBits run = reach (run.filterMap Entry.bit?) := by
  rw [reach, List.foldl_filterMap, usedBits]
  refine List.foldl_ext _ _ _ ?_
  intro n e he
  obtain ⟨bit, hbit⟩ := Option.isSome_iff_exists.mp (h e he)
  rw [hbit]
  rfl

theorem filter_alignmentFindings (f : Field Layout) (e : Entry Layout) :
    (alignmentFindings f e).filter isPartialWord = [] := by
  unfold alignmentFindings
  dsimp only
  split <;> rfl

theorem filter_sizeFindings (l : Layout) : (sizeFindings l).filter isPartialWord = [] := by
  unfold sizeFindings
  dsimp only
  split <;> rfl

theorem filter_runFindings_flags {e : Entry Layout} {run : List (Entry Layout)}
    (h : ∀ d ∈ e :: run, d.bit?.isSome = true) :
    (runFindings wordBits (e :: run)).filter isPartialWord =
      wordReport reach wordBits (e :: run) := by
  cases e with
  | field f offset size scaling => cases h _ List.mem_cons_self
  | flag b offset word bit =>
      rw [runFindings, wordFindings, usedBits_eq_reach h, wordReport]
      split <;> rfl

/-- The words are reported in the order of the entries, with the bits up to the highest one. -/
theorem filter_findings {word : Width} (hsized : ∀ e ∈ es, e.Sized word)
    (hordered : es.Pairwise Entry.Precedes) :
    ((es.splitBy sharesWord).flatMap (runFindings wordBits)).filter isPartialWord =
      wordReports reach wordBits es := by
  refine word_induction (P := fun es =>
    ((es.splitBy sharesWord).flatMap (runFindings wordBits)).filter isPartialWord =
      wordReports reach wordBits es) rfl ?_ ?_ es hsized hordered
  · intro f offset size scaling es ih
    rw [splitBy_field, List.flatMap_cons, List.filter_append, ih, runFindings,
      filter_alignmentFindings, List.nil_append, wordReports, wordReports, wordOffsets_field]
    simp only [flagsAt_field]
  · intro e run rest he hrun hrest ih
    have hflags : ∀ d ∈ e :: run, d.bit?.isSome = true :=
      fun d hd => (Entry.inWord_iff.mp (inWord_of_mem_cons he hrun d hd)).1
    rw [splitBy_word he hrun hrest, List.flatMap_cons, List.filter_append, ih,
      filter_runFindings_flags hflags, wordReports, wordReports, wordOffsets_word he hrun hrest,
      List.flatMap_cons, flagsAt_first he hrun hrest]
    refine congrArg _ (List.flatMap_congr ?_)
    intro offset hoffset
    rw [flagsAt_later he hrun hrest hoffset]

/-! ## Gaps -/

/-- Every bit below a taken one is taken. -/
def Gapless (bits : List Nat) : Prop := ∀ bit ∈ bits, ∀ i < bit, i ∈ bits

variable {bits : List Nat}

theorem lt_reach_iff {i : Nat} : i < reach bits ↔ ∃ bit ∈ bits, i ≤ bit := by
  have hfrom (n : Nat) : i < bits.foldl (fun n bit => max n (bit + 1)) n ↔
      i < n ∨ ∃ bit ∈ bits, i ≤ bit := by
    induction bits generalizing n with
    | nil => simp
    | cons b bits ih =>
        rw [List.foldl_cons, ih, List.exists_mem_cons_iff, lt_max_iff, or_assoc,
          Nat.lt_succ_iff]
  simpa [reach] using hfrom 0

theorem reach_le {n : Nat} (h : ∀ bit ∈ bits, bit < n) : reach bits ≤ n := by
  by_contra hlt
  obtain ⟨bit, hbit, hle⟩ := lt_reach_iff.mp (Nat.lt_of_not_le hlt)
  exact absurd (h bit hbit) (Nat.not_lt.mpr hle)

theorem toFinset_subset_range_reach : bits.toFinset ⊆ Finset.range (reach bits) := by
  intro bit hbit
  exact Finset.mem_range.mpr (lt_reach_iff.mpr ⟨bit, List.mem_toFinset.mp hbit, Nat.le_refl _⟩)

theorem taken_eq_card : taken bits = bits.toFinset.card := (List.card_toFinset bits).symm

theorem taken_le_reach : taken bits ≤ reach bits := by
  rw [taken_eq_card, ← Finset.card_range (reach bits)]
  exact Finset.card_le_card toFinset_subset_range_reach

/-- The bits up to the highest one are the bits taken if there is no gap among them. -/
theorem reach_eq_taken_iff : reach bits = taken bits ↔ Gapless bits := by
  constructor
  · intro h bit hbit i hi
    have hall : bits.toFinset = Finset.range (reach bits) := by
      refine Finset.eq_of_subset_of_card_le toFinset_subset_range_reach ?_
      rw [Finset.card_range, h, taken_eq_card]
    have hmem : i ∈ Finset.range (reach bits) :=
      Finset.mem_range.mpr (lt_reach_iff.mpr ⟨bit, hbit, hi.le⟩)
    rw [← hall] at hmem
    exact List.mem_toFinset.mp hmem
  · intro h
    have hall : Finset.range (reach bits) ⊆ bits.toFinset := by
      intro i hi
      obtain ⟨bit, hbit, hle⟩ := lt_reach_iff.mp (Finset.mem_range.mp hi)
      rw [List.mem_toFinset]
      rcases hle.eq_or_lt with rfl | hlt
      · exact hbit
      · exact h bit hbit i hlt
    have hle := Finset.card_le_card hall
    rw [Finset.card_range, ← taken_eq_card] at hle
    exact Nat.le_antisymm hle taken_le_reach

/-! ## The two counts compared -/

section Reports

variable {flags : List (Entry Layout)} {x : Finding}

theorem mem_wordReport_iff : x ∈ wordReport count wordBits flags ↔
    ∃ first ∈ flags.head?, count (flags.filterMap Entry.bit?) < wordBits ∧
      x = partialWord first.name first.offset (count (flags.filterMap Entry.bit?)) wordBits := by
  rw [wordReport]
  split <;> rename_i hlt
  · simp [hlt, eq_comm]
  · simp [hlt]

theorem offset_of_mem_wordReport {offset : Nat}
    (h : x ∈ wordReport count wordBits (flagsAt es offset)) : x.offset = offset := by
  obtain ⟨first, hfirst, -, rfl⟩ := mem_wordReport_iff.mp h
  obtain ⟨-, hin⟩ := List.mem_filter.mp (List.mem_of_mem_head? hfirst)
  exact (Entry.inWord_iff.mp hin).2

/-- The reports on a word are those located at it. -/
theorem mem_wordReport_of_mem_wordReports (h : x ∈ wordReports count wordBits es) :
    x ∈ wordReport count wordBits (flagsAt es x.offset) := by
  obtain ⟨offset, -, hx⟩ := List.mem_flatMap.mp h
  rwa [offset_of_mem_wordReport hx]

theorem used_of_partialWord_eq {field field' : String} {offset used used' : Nat}
    (h : partialWord field offset used wordBits = partialWord field' offset used' wordBits) :
    used = used' := by
  have hmessage := congrArg Finding.message h
  simp only [partialWord, String.append_assoc, String.append_right_inj,
    String.append_left_inj] at hmessage
  exact Text.toString_injective hmessage

/-- Both counts give the same report only where they agree. -/
theorem reach_eq_taken_of_wordReports
    (h : wordReports reach wordBits es = wordReports taken wordBits es)
    {offset : Nat} (hoffset : offset ∈ wordOffsets es)
    (hlt : taken (bitsAt es offset) < wordBits) :
    reach (bitsAt es offset) = taken (bitsAt es offset) := by
  obtain ⟨first, hfirst⟩ : ∃ first, (flagsAt es offset).head? = some first := by
    obtain ⟨e, he, hin⟩ := mem_wordOffsets_iff.mp hoffset
    exact Option.isSome_iff_exists.mp
      (List.isSome_head?.mpr (List.ne_nil_of_mem (List.mem_filter.mpr ⟨he, hin⟩)))
  -- The report by the bits taken stands among the others, where only one is on this word.
  have htaken : partialWord first.name first.offset (taken (bitsAt es offset)) wordBits ∈
      wordReport taken wordBits (flagsAt es offset) :=
    mem_wordReport_iff.mpr ⟨first, hfirst, hlt, rfl⟩
  have hat : first.offset = offset := offset_of_mem_wordReport htaken
  have hreach : partialWord first.name first.offset (taken (bitsAt es offset)) wordBits ∈
      wordReports reach wordBits es := by
    rw [h]
    exact List.mem_flatMap.mpr ⟨offset, hoffset, htaken⟩
  have hword := mem_wordReport_of_mem_wordReports hreach
  rw [show (partialWord first.name first.offset _ wordBits).offset = offset from hat] at hword
  obtain ⟨first', hfirst', -, heq⟩ := mem_wordReport_iff.mp hword
  obtain rfl : first = first' := Option.some_inj.mp (hfirst.symm.trans hfirst')
  exact (used_of_partialWord_eq heq).symm

theorem wordReports_eq_iff
    (hbits : ∀ offset ∈ wordOffsets es, ∀ bit ∈ bitsAt es offset, bit < wordBits) :
    wordReports reach wordBits es = wordReports taken wordBits es ↔
      ∀ offset ∈ wordOffsets es, Gapless (bitsAt es offset) := by
  constructor
  · intro h offset hoffset
    by_contra hgap
    have hne : reach (bitsAt es offset) ≠ taken (bitsAt es offset) :=
      fun heq => hgap (reach_eq_taken_iff.mp heq)
    have hlt : taken (bitsAt es offset) < wordBits :=
      (Nat.lt_of_le_of_ne taken_le_reach hne.symm).trans_le (reach_le (hbits offset hoffset))
    exact hne (reach_eq_taken_of_wordReports h hoffset hlt)
  · intro h
    refine List.flatMap_congr ?_
    intro offset hoffset
    have heq : reach ((flagsAt es offset).filterMap Entry.bit?) =
        taken ((flagsAt es offset).filterMap Entry.bit?) :=
      reach_eq_taken_iff.mpr (h offset hoffset)
    simp only [wordReport, heq]

/-- A word with every bit taken is not reported. -/
theorem offset_ne_of_full {offset : Nat} (hfull : wordBits ≤ taken (bitsAt es offset))
    (h : x ∈ wordReports reach wordBits es) : x.offset ≠ offset := by
  rintro rfl
  obtain ⟨-, -, hlt, -⟩ := mem_wordReport_iff.mp (mem_wordReport_of_mem_wordReports h)
  exact absurd (hfull.trans taken_le_reach) (Nat.not_le.mpr hlt)

end Reports

end Lint

/-! ## Compiled layouts -/

namespace Layout

variable {options : Options} {name : String} {ds : List Declaration} {l : Layout}

theorem bit_lt_of_compileIn (h : compile options name ds = .ok l) {offset : Nat} :
    ∀ bit ∈ bitsAt l.entries offset, bit < options.bitWord.bits := by
  intro bit hbit
  obtain ⟨e, he, hbit⟩ := List.mem_filterMap.mp hbit
  have hsized := sized_of_compileIn h e (List.mem_filter.mp he).1
  cases e with
  | field f o size scaling => cases hbit
  | flag b o word i =>
      cases hbit
      exact hsized.2

/-- Each word is reported once, under its first flag, if the bits up to its highest one are
fewer than a word has.  These are the reports by the bits taken if, and only if, no word has a
gap; a word with every bit taken is never reported. -/
theorem lint_partialBitWord (h : compile options name ds = .ok l) :
    l.lint.filter Lint.isPartialWord =
        Lint.wordReports Lint.reach options.bitWord.bits l.entries ∧
      (l.lint.filter Lint.isPartialWord =
          Lint.wordReports Lint.taken options.bitWord.bits l.entries ↔
        ∀ offset ∈ wordOffsets l.entries, Lint.Gapless (bitsAt l.entries offset)) ∧
      ∀ offset, options.bitWord.bits ≤ Lint.taken (bitsAt l.entries offset) →
        ∀ x ∈ l.lint.filter Lint.isPartialWord, x.offset ≠ offset := by
  have hreports : l.lint.filter Lint.isPartialWord =
      Lint.wordReports Lint.reach options.bitWord.bits l.entries := by
    rw [lint, List.filter_append, Lint.filter_sizeFindings, List.append_nil,
      Lint.filter_findings (sized_of_compileIn h) (ordered_of_compileIn h),
      options_of_compileIn h]
  rw [hreports]
  refine ⟨rfl, Lint.wordReports_eq_iff fun _ _ => bit_lt_of_compileIn h, ?_⟩
  intro offset hfull x hx
  exact Lint.offset_ne_of_full hfull hx

/-- A byte between two words of flags; the second flag skips bits. -/
def gappedFlags : List Declaration :=
  [.flag { name := "on" }, .flag { name := "fault", bit := some 5 },
    .field { name := "mode", content := .primitive (.integer ⟨false, .one⟩) },
    .flag { name := "ok" }]

theorem lint_gappedFlags :
    ∃ l, compile {} "gapped" gappedFlags = .ok l ∧
      l.lint.filter Lint.isPartialWord = Lint.wordReports Lint.reach 32 l.entries ∧
      Lint.wordReports Lint.reach 32 l.entries =
        [Lint.partialWord "on" 0 6 32, Lint.partialWord "ok" 5 1 32] := by
  obtain ⟨l, hl⟩ : ∃ l, compile {} "gapped" gappedFlags = .ok l := ⟨_, rfl⟩
  refine ⟨l, hl, (lint_partialBitWord hl).1, ?_⟩
  cases hl
  decide +kernel

/-- The last bit hides the bits below it. -/
theorem not_lint_taken :
    ¬∀ (options : Options) (name : String) (ds : List Declaration) (l : Layout),
      compile options name ds = .ok l →
        l.lint.filter Lint.isPartialWord =
          Lint.wordReports Lint.taken options.bitWord.bits l.entries := by
  intro h
  obtain ⟨l, hl⟩ : ∃ l, compile {} "s" [.flag { name := "a", bit := some 31 }] = .ok l :=
    ⟨_, rfl⟩
  have hreports := h _ _ _ l hl
  cases hl
  revert hreports
  decide +kernel

end Layout

end StructureLayout
