import StructureLayout.Proofs.Placement.Partition
import Mathlib.Data.List.TakeWhile

/-!
# Words of flags

The flags of one word stand together among the entries of a compiled layout.  Its entries can
therefore be taken as fields and whole words, one after another.
-/

namespace StructureLayout

namespace Entry

def inWord (offset : Nat) (e : Entry Layout) : Bool := e.bit?.isSome && e.offset == offset

variable {d e : Entry Layout} {offset : Nat}

theorem inWord_iff : e.inWord offset = true ↔ e.bit?.isSome = true ∧ e.offset = offset := by
  simp [inWord]

theorem inWord_self (he : e.bit?.isSome = true) : e.inWord e.offset = true :=
  inWord_iff.mpr ⟨he, rfl⟩

theorem Precedes.offset_le (h : d.Precedes e) : d.offset ≤ e.offset := by
  rcases h with ⟨_, _, _, _, hoffset, _⟩ | hfinish
  · exact hoffset.le
  · exact (Nat.le_add_right d.offset d.size).trans hfinish

/-- An entry that is not in the word of a flag before it stands past the word. -/
theorem Precedes.finish_le_of_not_inWord (h : d.Precedes e) (he : e.inWord d.offset = false) :
    d.finish ≤ e.offset := by
  rcases h with ⟨_, _, _, hbit, hoffset, _⟩ | hfinish
  · simp [inWord, hbit, hoffset] at he
  · exact hfinish

end Entry

/-- The flags in the word at an offset. -/
def flagsAt (entries : List (Entry Layout)) (offset : Nat) : List (Entry Layout) :=
  entries.filter (Entry.inWord offset)

def bitsAt (entries : List (Entry Layout)) (offset : Nat) : List Nat :=
  (flagsAt entries offset).filterMap Entry.bit?

/-! ## Words in the order of the entries -/

section Words

variable {es run rest : List (Entry Layout)} {e : Entry Layout} {offset : Nat}

theorem mem_wordOffsets_iff :
    offset ∈ wordOffsets es ↔ ∃ e ∈ es, e.inWord offset = true := by
  simp only [wordOffsets, List.mem_dedup, List.mem_map, List.mem_filter, Entry.inWord_iff,
    and_assoc]

/-- Past the first entry outside its word there is no flag of the word left. -/
theorem exists_run_of_flag {word : Width} (hsized : e.Sized word)
    (hordered : (e :: es).Pairwise Entry.Precedes) :
    ∃ run rest, es = run ++ rest ∧ (∀ d ∈ run, d.inWord e.offset = true) ∧
      ∀ d ∈ rest, d.inWord e.offset = false := by
  refine ⟨es.takeWhile (Entry.inWord e.offset), es.dropWhile (Entry.inWord e.offset),
    List.takeWhile_append_dropWhile.symm, fun d hd => List.mem_takeWhile_imp hd, ?_⟩
  obtain ⟨hfirst, hlater⟩ := List.pairwise_cons.mp hordered
  have hsub := List.dropWhile_sublist (Entry.inWord e.offset) (l := es)
  cases hdrop : es.dropWhile (Entry.inWord e.offset) with
  | nil => exact fun d hd => absurd hd List.not_mem_nil
  | cons c cs =>
      have hc : c.inWord e.offset = false := by
        simpa [hdrop] using List.head?_dropWhile_not (Entry.inWord e.offset) es
      rw [hdrop] at hsub
      have hpast : e.finish ≤ c.offset :=
        (hfirst c (hsub.subset List.mem_cons_self)).finish_le_of_not_inWord hc
      have hle : ∀ d ∈ c :: cs, c.offset ≤ d.offset := by
        have hrest := (List.pairwise_cons.mp (hlater.sublist hsub)).1
        rintro d (_ | ⟨_, hd⟩)
        · exact Nat.le_refl _
        · exact (hrest d hd).offset_le
      intro d hd
      have hne : d.offset ≠ e.offset := by
        have hlt := hsized.offset_lt_finish
        have hdle := hle d hd
        omega
      simp [Entry.inWord, hne]

/-- The entries of a layout are fields and whole words of flags, one after another. -/
theorem word_induction {P : List (Entry Layout) → Prop} {word : Width} (nil : P [])
    (field : ∀ f offset size scaling es, P es → P (.field f offset size scaling :: es))
    (flags : ∀ e run rest, e.bit?.isSome = true → (∀ d ∈ run, d.inWord e.offset = true) →
      (∀ d ∈ rest, d.inWord e.offset = false) → P rest → P (e :: (run ++ rest)))
    (es : List (Entry Layout)) (hsized : ∀ e ∈ es, e.Sized word)
    (hordered : es.Pairwise Entry.Precedes) : P es := by
  -- By the length of the list, since a word takes several entries at once.
  induction hn : es.length using Nat.strong_induction_on generalizing es with
  | h n ih =>
      cases es with
      | nil => exact nil
      | cons e es =>
          rw [List.length_cons] at hn
          have hsized' : ∀ d ∈ es, d.Sized word :=
            fun d hd => hsized d (List.mem_cons_of_mem e hd)
          have hordered' := (List.pairwise_cons.mp hordered).2
          cases e with
          | field f offset size scaling =>
              exact field f offset size scaling es (ih _ (by omega) es hsized' hordered' rfl)
          | flag b offset w bit =>
              obtain ⟨run, rest, rfl, hrun, hrest⟩ :=
                exists_run_of_flag (hsized _ List.mem_cons_self) hordered
              rw [List.length_append] at hn
              refine flags _ run rest rfl hrun hrest (ih _ (by omega) rest ?_ ?_ rfl)
              · exact fun d hd => hsized' d (List.mem_append_right run hd)
              · exact hordered'.sublist (List.sublist_append_right run rest)

theorem flagsAt_field (f : Field Layout) (o size : Nat) (scaling : Option Autoscale) :
    flagsAt (.field f o size scaling :: es) offset = flagsAt es offset :=
  List.filter_cons_of_neg (by simp [Entry.inWord, Entry.bit?])

section Word

variable (he : e.bit?.isSome = true) (hrun : ∀ d ∈ run, d.inWord e.offset = true)
  (hrest : ∀ d ∈ rest, d.inWord e.offset = false)

include he hrun in
theorem inWord_of_mem_cons : ∀ d ∈ e :: run, d.inWord e.offset = true := by
  rintro d (_ | ⟨_, hd⟩)
  · exact Entry.inWord_self he
  · exact hrun d hd

include he hrun hrest

theorem flagsAt_first : flagsAt (e :: (run ++ rest)) e.offset = e :: run := by
  have hnone : rest.filter (Entry.inWord e.offset) = [] := by
    simpa [List.filter_eq_nil_iff] using hrest
  rw [flagsAt, ← List.cons_append, List.filter_append, hnone, List.append_nil]
  exact List.filter_eq_self.mpr (inWord_of_mem_cons he hrun)

theorem flagsAt_later (hoffset : offset ∈ wordOffsets rest) :
    flagsAt (e :: (run ++ rest)) offset = flagsAt rest offset := by
  obtain ⟨c, hc, hin⟩ := mem_wordOffsets_iff.mp hoffset
  have hne : e.offset ≠ offset := by
    rintro rfl
    rw [hrest c hc] at hin
    cases hin
  have hnone : (e :: run).filter (Entry.inWord offset) = [] := by
    refine List.filter_eq_nil_iff.mpr ?_
    intro d hd hin
    have hd := (Entry.inWord_iff.mp (inWord_of_mem_cons he hrun d hd)).2
    exact hne (hd.symm.trans (Entry.inWord_iff.mp hin).2)
  rw [flagsAt, ← List.cons_append, List.filter_append, hnone, List.nil_append]
  rfl

theorem wordOffsets_word : wordOffsets (e :: (run ++ rest)) = e.offset :: wordOffsets rest := by
  have hflags := inWord_of_mem_cons he hrun
  have hself : (e :: run).filter (fun d => d.bit?.isSome) = e :: run :=
    List.filter_eq_self.mpr fun d hd => (Entry.inWord_iff.mp (hflags d hd)).1
  have hsame : (e :: run).map Entry.offset = List.replicate (run.length + 1) e.offset := by
    refine List.eq_replicate_iff.mpr ⟨by simp, ?_⟩
    intro o ho
    obtain ⟨d, hd, rfl⟩ := List.mem_map.mp ho
    exact (Entry.inWord_iff.mp (hflags d hd)).2
  have hdisjoint : (List.replicate (run.length + 1) e.offset).Disjoint
      ((rest.filter fun d => d.bit?.isSome).map Entry.offset) := by
    intro o ho hrestOffset
    obtain rfl := List.eq_of_mem_replicate ho
    obtain ⟨d, hd, hoffset⟩ := List.mem_map.mp hrestOffset
    obtain ⟨hd, hflag⟩ := List.mem_filter.mp hd
    have hin : d.inWord e.offset = true := Entry.inWord_iff.mpr ⟨hflag, hoffset⟩
    rw [hrest d hd] at hin
    cases hin
  rw [wordOffsets, ← List.cons_append, List.filter_append, List.map_append, hself, hsame,
    hdisjoint.dedup_append, List.replicate_dedup (Nat.succ_ne_zero _)]
  rfl

end Word

end Words

end StructureLayout
