import StructureLayout.Proofs.Placement.Partition

/-!
# Nested layouts

A field holds a structure that was compiled before.  What a layout owes to its compilation
therefore holds of every layout nested in it, at any depth and under the options that each of
them was compiled with.
-/

namespace StructureLayout

namespace Placement

variable {space : AddressSpace} {options : Options} {s t : Placement}

theorem mem_entries_withFields {fs : List (Field Layout)} {e : Entry Layout}
    (h : e ∈ (s.withFields fs).entries) :
    e ∈ s.entries ∨ ∃ f ∈ fs, e.content? = some f.content := by
  induction fs generalizing s with
  | nil => exact Or.inl h
  | cons f fs ih =>
      rcases ih h with hfirst | ⟨g, hg, hcontent⟩
      · rcases List.mem_cons.mp hfirst with rfl | he
        · exact Or.inr ⟨f, List.mem_cons_self, rfl⟩
        · exact Or.inl he
      · exact Or.inr ⟨g, List.mem_cons_of_mem f hg, hcontent⟩

/-- What a declaration adds holds what the declaration says. -/
theorem Step.content?_eq {d next : Declaration} (h : Step space options s d next t)
    {e : Entry Layout} (he : e ∈ t.entries) : e ∈ s.entries ∨ e.content? = d.content? := by
  cases h with
  | field _ =>
      rcases List.mem_cons.mp he with rfl | he
      · exact Or.inr rfl
      · exact Or.inl he
  | flag _ =>
      rcases List.mem_cons.mp he with rfl | he
      · exact Or.inr rfl
      · exact Or.inl he
  | pad _ => exact Or.inl he
  | alignNext _ _ => exact Or.inl he
  | repetition _ _ =>
      rcases mem_entries_withFields he with he | ⟨f, hf, hcontent⟩
      · exact Or.inl he
      · obtain ⟨index, _, rfl⟩ := List.mem_map.mp hf
        exact Or.inr hcontent
  | void => exact Or.inl he

theorem content?_of_placeBefore {next : Declaration} {ds : List Declaration}
    (h : s.placeBefore space options next ds = .ok t) {e : Entry Layout} (he : e ∈ t.entries) :
    e ∈ s.entries ∨ ∃ d ∈ ds, e.content? = d.content? := by
  induction ds generalizing s with
  | nil =>
      cases h
      exact Or.inl he
  | cons d ds ih =>
      obtain ⟨u, hstep, hrest⟩ := placeBefore_cons_eq_ok_iff.mp h
      rcases ih hrest with hu | ⟨c, hc, hcontent⟩
      · rcases hstep.content?_eq hu with hs | hcontent
        · exact Or.inl hs
        · exact Or.inr ⟨d, List.mem_cons_self, hcontent⟩
      · exact Or.inr ⟨c, List.mem_cons_of_mem d hc, hcontent⟩

end Placement

namespace Entry

theorem content?_declaration (e : Entry Layout) : e.declaration.content? = e.content? := by
  cases e <;> rfl

theorem exists_field {e : Entry Layout} {s : Layout} (h : e.nested? = some s) :
    ∃ f offset size scaling, e = .field f offset size scaling ∧ f.content = .nested s := by
  rcases e with ⟨⟨name, content, _, _, _, _, _, _⟩, offset, size, scaling⟩ | _
  · cases content with
    | primitive p => cases h
    | nested t =>
        cases h
        exact ⟨_, offset, size, scaling, rfl, rfl⟩
  · cases h

end Entry

namespace Layout

/-- A result of compilation from fields that hold results of compilation. -/
inductive Compiled : Layout → Prop
  | compile {options : Options} {name : String} {ds : List Declaration} {l : Layout}
      (h : compile options name ds = .ok l)
      (nested : ∀ d ∈ ds, ∀ s, d.nested? = some s → Compiled s) : Compiled l

theorem compiled_of_entries {l : Layout}
    (h : compile l.options l.name (l.entries.map Entry.declaration) = .ok l)
    (nested : ∀ e ∈ l.entries, ∀ s, e.nested? = some s → s.Compiled) : l.Compiled := by
  refine .compile h ?_
  intro d hd s hs
  obtain ⟨e, he, rfl⟩ := List.mem_map.mp hd
  refine nested e he s ?_
  rw [Entry.nested?, ← Entry.content?_declaration]
  exact hs

theorem nested?_of_compileIn {space : AddressSpace} {options : Options} {name : String}
    {ds : List Declaration} {l s : Layout} (h : compileIn space options name ds = .ok l)
    {e : Entry Layout} (he : e ∈ l.entries) (hs : e.nested? = some s) :
    ∃ d ∈ ds, d.nested? = some s := by
  obtain ⟨t, hrun, -, rfl⟩ := compileIn_eq_ok_iff.mp h
  rcases Placement.content?_of_placeBefore hrun (List.mem_reverse.mp he) with
    hnil | ⟨d, hd, hcontent⟩
  · cases hnil
  · exact ⟨d, hd, by rw [Declaration.nested?, ← hcontent]; exact hs⟩

theorem Compiled.sized {l : Layout} (h : l.Compiled) :
    ∀ e ∈ l.entries, e.Sized l.options.bitWord := by
  cases h with
  | compile h _ =>
      rw [options_of_compileIn h]
      exact sized_of_compileIn h

/-- What follows for a layout from the arrangement of its entries and from the same for the
layouts nested in it holds of every compiled layout. -/
theorem Compiled.induction {P : Layout → Prop}
    (step : ∀ l : Layout, (∀ e ∈ l.entries, e.Sized l.options.bitWord) →
      l.entries.Pairwise Entry.Precedes → (∀ e ∈ l.entries, e.finish ≤ l.totalSize) →
      (∀ e ∈ l.entries, ∀ s, e.nested? = some s → P s) → P l)
    {l : Layout} (hl : l.Compiled) : P l := by
  induction hl with
  | compile h hnested ih =>
      have hsized := (Compiled.compile h hnested).sized
      refine step _ hsized (ordered_of_compileIn h) (finish_le_of_compileIn h) ?_
      intro e he s hs
      obtain ⟨d, hd, hdeclared⟩ := nested?_of_compileIn h he hs
      exact ih d hd s hdeclared

/-- A layout is within itself and within each layout that one of its fields leads to. -/
inductive Within : Layout → Layout → Prop
  | refl (l : Layout) : Within l l
  | nested {l m s : Layout} {e : Entry Layout} (entry : e ∈ l.entries)
      (content : e.nested? = some s) (within : Within m s) : Within m l

theorem Within.trans {k m l : Layout} (h : k.Within m) (hm : m.Within l) : k.Within l := by
  induction hm with
  | refl => exact h
  | nested he hs _ ih => exact .nested he hs (ih h)

theorem Compiled.of_within {l m : Layout} (hl : l.Compiled) (h : m.Within l) : m.Compiled := by
  induction h with
  | refl => exact hl
  | nested he hs _ ih =>
      cases hl with
      | compile hcompile hnested =>
          obtain ⟨d, hd, hdeclared⟩ := nested?_of_compileIn hcompile he hs
          exact ih (hnested d hd _ hdeclared)

theorem Compiled.of_nested {l s : Layout} (hl : l.Compiled) {e : Entry Layout}
    (he : e ∈ l.entries) (hs : e.nested? = some s) : s.Compiled :=
  hl.of_within (.nested he hs (.refl s))

theorem forall_within_iff {P : Layout → Prop} {l : Layout} :
    (∀ m : Layout, m.Within l → P m) ↔
      P l ∧ ∀ e ∈ l.entries, ∀ s, e.nested? = some s → ∀ m : Layout, m.Within s → P m := by
  constructor
  · intro h
    exact ⟨h l (.refl l), fun e he s hs m hm => h m (.nested he hs hm)⟩
  · rintro ⟨hl, hnested⟩ m hm
    cases hm with
    | refl => exact hl
    | nested he hs hm => exact hnested _ he _ hs m hm

end Layout

end StructureLayout
