import StructureLayout.Proofs.Lint.Alignment
import StructureLayout.Proofs.Placement.DeclaredOffset
import StructureLayout.Proofs.Placement.Prefix
import StructureLayout.Proofs.Placement.Repetition

/-!
# Alignment directives

The padding of a directive ends at the first multiple of the alignment of what follows, which is
placed there.  A sequence with such a directive in front of every field and every repeated field
has all its fields in alignment, as long as repeated fields keep it from one instance to the next.
-/

namespace StructureLayout

/-- The alignment that a directive takes from the declaration behind it: the width of the word
for a flag. -/
def Declaration.alignmentIn (options : Options) (d : Declaration) : Nat :=
  if d.isFlag then options.bitWord.bytes else d.alignment

theorem Declaration.alignmentIn_of_content? {options : Options} {d : Declaration}
    {c : Content Layout} (h : d.content? = some c) : d.alignmentIn options = c.alignment := by
  have hflag : d.isFlag = false := by
    cases d with
    | flag b => cases h
    | _ => rfl
  rw [alignmentIn, hflag, alignment, h]
  rfl

/-- Every field and every repeated field stands directly behind a directive. -/
def AlignsFields (ds : List Declaration) : Prop :=
  (Declaration.void :: ds).IsChain fun c d => d.field?.isSome = true → c = .alignNext

theorem alignsFields_concat_iff {ds : List Declaration} {d : Declaration} :
    AlignsFields (ds ++ [d]) ↔
      AlignsFields ds ∧ (d.field?.isSome = true → ds.getLast? = some .alignNext) := by
  rw [AlignsFields, ← List.cons_append, List.isChain_append, AlignsFields]
  refine and_congr_right fun _ => ?_
  rcases List.eq_nil_or_concat' ds with rfl | ⟨front, c, rfl⟩
  · simp
  · rw [← List.cons_append, List.getLast?_concat, List.getLast?_concat]
    simp

namespace Placement

variable {space : AddressSpace} {options : Options} {s t : Placement} {next d : Declaration}
  {ds : List Declaration}

theorem alignmentOf_eq_ok_iff {cursor alignment : Nat} :
    alignmentOf options cursor d = .ok alignment ↔
      d.leadName?.isSome = true ∧ alignment = d.alignmentIn options := by
  have hmax (c : Content Layout) : max 1 c.alignment = c.alignment :=
    Nat.max_eq_right c.alignment_bounds.1
  cases d with
  | field f =>
      rw [Declaration.alignmentIn_of_content? rfl]
      simp [alignmentOf, Declaration.leadName?, hmax, eq_comm]
  | repetition r =>
      rw [Declaration.alignmentIn_of_content? rfl]
      simp [alignmentOf, Declaration.leadName?, hmax, eq_comm]
  | flag b =>
      simp [alignmentOf, Declaration.leadName?, Declaration.alignmentIn, Declaration.isFlag,
        eq_comm]
  | pad n => simp [alignmentOf, Declaration.leadName?]
  | alignNext => simp [alignmentOf, Declaration.leadName?]
  | void => simp [alignmentOf, Declaration.leadName?]

/-- Behind a directive the cursor is at the first multiple of the alignment in view. -/
theorem Step.isLeast_cursor (h : Step space options s .alignNext next t) :
    next.leadName?.isSome = true ∧
      IsLeast {n | next.alignmentIn options ∣ n ∧ s.cursor ≤ n} t.cursor := by
  cases h with
  | alignNext haligned _ =>
      have hpos := alignmentOf_pos haligned
      obtain ⟨hlead, rfl⟩ := alignmentOf_eq_ok_iff.mp haligned
      exact ⟨hlead, isLeast_add_paddingTo hpos s.cursor⟩

/-! ## Fields in alignment -/

def InAlignment (s : Placement) : Prop := ∀ e ∈ s.entries, e.InAlignment

theorem Step.inAlignment (h : Step space options s d next t) (hs : s.InAlignment)
    (hcursor : ∀ c, d.content? = some c → c.alignment ∣ s.cursor)
    (hstride : ∀ r, d = .repetition r → r.template.content.alignment ∣ r.stride space) :
    t.InAlignment := by
  cases h with
  | @field f _ _ =>
      refine List.forall_mem_cons.mpr ⟨?_, hs⟩
      rintro c ⟨⟩
      exact hcursor f.content rfl
  | flag _ =>
      refine List.forall_mem_cons.mpr ⟨?_, hs⟩
      exact nofun
  | pad _ => exact hs
  | alignNext _ _ => exact hs
  | @repetition r _ hcount hadmits =>
      rw [InAlignment, entries_withFields_instances hcount hadmits, List.forall_mem_append]
      refine ⟨?_, hs⟩
      intro e he
      obtain ⟨i, -, rfl⟩ := List.mem_map.mp (List.mem_reverse.mp he)
      rintro c ⟨⟩
      -- the instances keep the alignment of the first one
      exact Nat.dvd_add (hcursor r.template.content rfl)
        (Dvd.dvd.mul_left (hstride r rfl) i)
  | void => exact hs

/-- What follows a directive stands at the first multiple of its alignment. -/
theorem exists_lead_of_alignNext {front back : List Declaration}
    (h : placeBefore space options .void {} (front ++ .alignNext :: back) = .ok t) :
    ∃ s d rest e, placeBefore space options .alignNext {} front = .ok s ∧ back = d :: rest ∧
      e ∈ t.entries ∧ d.leadName? = some e.name ∧
        IsLeast {n | d.alignmentIn options ∣ n ∧ s.cursor ≤ n} e.offset := by
  rw [placeBefore_append] at h
  obtain ⟨s, hs, h⟩ := bind_eq_ok_iff.mp h
  obtain ⟨u, halign, h⟩ := placeBefore_cons_eq_ok_iff.mp h
  obtain ⟨hlead, hleast⟩ := halign.isLeast_cursor
  cases back with
  | nil => cases hlead
  | cons d rest =>
      obtain ⟨v, hstep, hrest⟩ := placeBefore_cons_eq_ok_iff.mp h
      have hready := halign.wordReady (wordReady_of_placeBefore (.of_none rfl) hs)
      obtain ⟨name, hname⟩ := Option.isSome_iff_exists.mp hlead
      obtain ⟨e, he, rfl, hoffset⟩ := hstep.lead hready name hname
      refine ⟨s, d, rest, e, hs, rfl, (entries_suffix_of_placeBefore hrest).mem he, hname, ?_⟩
      rwa [hoffset]

theorem inAlignment_of_placeBefore (h : s.placeBefore space options next ds = .ok t)
    (hs : s.InAlignment) (hds : AlignsFields ds)
    (hstride : ∀ r, .repetition r ∈ ds → r.template.content.alignment ∣ r.stride space) :
    t.InAlignment := by
  induction ds using List.reverseRecOn generalizing next t with
  | nil =>
      cases h
      exact hs
  | append_singleton ds d ih =>
      obtain ⟨u, hrun, hstep⟩ := placeBefore_concat_eq_ok_iff.mp h
      obtain ⟨hds, hled⟩ := alignsFields_concat_iff.mp hds
      have hu : u.InAlignment := ih hrun hds fun r hr => hstride r (List.mem_append_left _ hr)
      refine hstep.inAlignment hu ?_ ?_
      · intro c hc
        have hfield : d.field?.isSome = true := by
          rw [← Option.isSome_map (f := (·.content)), ← Declaration.content?, hc]
          rfl
        have hlast := hled hfield
        obtain ⟨front, rfl⟩ := List.getLast?_eq_some_iff.mp hlast
        obtain ⟨v, -, halign⟩ := placeBefore_concat_eq_ok_iff.mp hrun
        rw [← Declaration.alignmentIn_of_content? hc]
        exact halign.isLeast_cursor.2.1.1
      · rintro r rfl
        exact hstride r (List.mem_append_right _ (List.mem_singleton_self _))

end Placement

namespace Layout

variable {options : Options} {name : String} {ds : List Declaration} {l : Layout}

/-- What follows an alignment directive stands at the first multiple of its alignment that is not
passed yet.  With a directive before every field, and strides that keep the alignment, no field
is reported as misaligned. -/
theorem compile_alignNext (h : compile options name ds = .ok l) :
    (∀ front back, ds = front ++ .alignNext :: back →
      ∃ s d rest offset, Placement.placeBefore .wide options .alignNext {} front = .ok s ∧
        back = d :: rest ∧ l.leadOffset? d = some offset ∧
          IsLeast {n | d.alignmentIn options ∣ n ∧ s.cursor ≤ n} offset) ∧
      (AlignsFields ds →
        (∀ r, .repetition r ∈ ds → r.template.content.alignment ∣ r.stride .wide) →
          ∀ x ∈ l.lint, x.rule ≠ .misaligned) := by
  obtain ⟨t, hrun, -, rfl⟩ := compileIn_eq_ok_iff.mp h
  constructor
  · rintro front back rfl
    obtain ⟨s, d, rest, e, hs, hback, he, hname, hleast⟩ :=
      Placement.exists_lead_of_alignNext hrun
    have hoffset : (ofPlacement options name t).leadOffset? d = some e.offset :=
      (leadOffset?_ofPlacement_eq_some_iff (distinctNames_of_run hrun)).mpr ⟨e, he, hname, rfl⟩
    exact ⟨s, d, rest, e.offset, hs, hback, hoffset, hleast⟩
  · intro hds hstride
    have hstart : Placement.InAlignment {} := fun _ he => absurd he List.not_mem_nil
    have haligned := Placement.inAlignment_of_placeBefore hrun hstart hds hstride
    exact forall_lint_iff.mpr fun e he => haligned e (List.mem_reverse.mp he)

/-- A number behind a directive, among flags and padding. -/
def beforeSlots : List Declaration :=
  [.flag { name := "on" }, .pad 1, .alignNext,
    .field { name := "gain", content := .primitive .float }, .pad 3, .alignNext,
    .flag { name := "ok" }, .pad 1]

/-- Two structures of six bytes that are aligned at two. -/
def slots : Repetition := ⟨{ name := "slot", content := .nested gauge }, 2⟩

theorem alignsFields_slots : AlignsFields (beforeSlots ++ .alignNext :: [.repetition slots]) := by
  simp [AlignsFields, beforeSlots, Declaration.field?]

theorem compile_slots :
    ∃ l s, compile { bitWord := .two } "sample"
        (beforeSlots ++ .alignNext :: [.repetition slots]) = .ok l ∧
      Placement.placeBefore .wide { bitWord := .two } .alignNext {} beforeSlots = .ok s ∧
      s.cursor = 15 ∧ l.leadOffset? (.repetition slots) = some 16 ∧
      IsLeast {n | (Declaration.repetition slots).alignmentIn { bitWord := .two } ∣ n ∧
        s.cursor ≤ n} 16 ∧
      ∀ x ∈ l.lint, x.rule ≠ .misaligned := by
  obtain ⟨l, hl, hlead⟩ : ∃ l, compile { bitWord := .two } "sample"
      (beforeSlots ++ .alignNext :: [.repetition slots]) = .ok l ∧
        l.leadOffset? (.repetition slots) = some 16 := ⟨_, rfl, by decide +kernel⟩
  obtain ⟨hplaces, hlint⟩ := compile_alignNext hl
  obtain ⟨s, d, rest, offset, hs, hback, hoffset, hleast⟩ := hplaces _ _ rfl
  cases hback
  cases hlead.symm.trans hoffset
  refine ⟨l, s, hl, hs, ?_, hlead, hleast, hlint alignsFields_slots ?_⟩
  · cases hs
    rfl
  · intro r hr
    obtain rfl : r = slots := by simpa [beforeSlots] using hr
    decide +kernel

end Layout

end StructureLayout
