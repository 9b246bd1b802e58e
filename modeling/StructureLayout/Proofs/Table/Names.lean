import StructureLayout.Proofs.Placement.Nesting
import StructureLayout.Proofs.Table.Leaf
import StructureLayout.Proofs.Text.Numeral
import Mathlib.Data.List.Nodup
import Mathlib.Data.List.Pairwise

/-!
# Names of rows

The members of one element are told apart by their names and the elements of one field by
their numerals, at every depth.  Two rows can have one name only because a field is named like
the member of another field beside it, which the names of the fields do not rule out.
-/

namespace StructureLayout

/-! ## Spellings -/

namespace Text

/-- A way to write names, letter by letter, that keeps what stands between a field and its
members. -/
structure Spelling (spell : String → String) : Prop where
  append : ∀ a b, spell (a ++ b) = spell a ++ spell b
  kept : ∀ s : String, (∀ c ∈ s.toList, c.isDigit = true ∨ c = '_') → spell s = s

theorem Spelling.plain : Spelling id := ⟨fun _ _ => rfl, fun _ _ => rfl⟩

theorem upperChar_kept {c : Char} (h : c.isDigit = true ∨ c = '_') : upperChar c = [c] := by
  -- The codes of the underscore and of the digits.
  have hall : ∀ n ∈ 95 :: List.range' 48 10,
      caseExpansions.lookup n = none ∧ (caseRuns.find? fun r => r.covers n) = none := by
    decide +kernel
  have hcode : c.toNat ∈ 95 :: List.range' 48 10 := by
    rcases h with h | rfl
    · simp only [Char.isDigit, Bool.and_eq_true, decide_eq_true_eq] at h
      have hleast : 48 ≤ c.toNat := UInt32.le_iff_toNat_le.mp h.1
      have hgreatest : c.toNat ≤ 57 := UInt32.le_iff_toNat_le.mp h.2
      simp only [List.mem_cons, List.mem_range'_1]
      omega
    · decide
  obtain ⟨hexpansion, hrun⟩ := hall _ hcode
  rw [upperChar, hexpansion, hrun]

theorem Spelling.upper : Spelling upper := by
  refine ⟨?_, ?_⟩
  · intro a b
    rw [Text.upper, String.toList_append, List.flatMap_append, String.ofList_append]
    rfl
  · intro s hs
    have hchars : s.toList.flatMap upperChar = s.toList := by
      rw [List.flatMap_congr fun c hc => upperChar_kept (hs c hc), List.flatMap_singleton']
    rw [Text.upper, hchars, String.ofList_toList]

end Text

namespace Layout

/-! ## Members of one field -/

theorem memberStem_eq (field : String) (elements index : Nat) :
    memberStem field elements index = field ++ memberStem "" elements index := by
  rw [← memberStem_append, String.append_empty]

theorem spell_memberStem {spell : String → String} (hs : Text.Spelling spell) (field : String)
    (elements index : Nat) :
    spell (memberStem field elements index) = spell field ++ memberStem "" elements index := by
  rw [memberStem_eq, hs.append, hs.kept (memberStem "" elements index)]
  intro c hc
  rw [memberStem, String.empty_append, String.toList_append, List.mem_append] at hc
  rcases hc with hnumeral | hc
  · split at hnumeral
    · rw [Text.toList_toString] at hnumeral
      exact Or.inl (Nat.isDigit_of_mem_toDigits (by decide) (by decide) hnumeral)
    · cases hnumeral
  · exact Or.inr (List.mem_singleton.mp hc)

/-- The stem of a member tells which element it is in. -/
theorem index_of_memberStem {elements i j : Nat} (hi : i < elements) (hj : j < elements)
    {a b : String} (h : memberStem "" elements i ++ a = memberStem "" elements j ++ b) :
    i = j := by
  rw [memberStem, memberStem] at h
  by_cases hmany : 1 < elements
  · simp only [hmany, if_true, String.empty_append] at h
    exact Text.numeral_of_append h
  · omega

end Layout

namespace Entry

/-- The names of the rows of an entry. -/
def rowNames (e : Entry Layout) : List String := (e.leavesFrom "" 0).map fun r => r.row.name

variable {e : Entry Layout} {f : Field Layout} {offset size : Nat} {scaling : Option Autoscale}
  {s : Layout}

theorem rowNames_of_none (h : e.nested? = none) : e.rowNames = [e.name] := by
  rcases e with ⟨⟨name, content, _, _, _, _, _, _⟩, offset, size, scaling⟩ | _
  · cases content with
    | primitive p => simp [rowNames, leavesFrom_primitive, Entry.name]
    | nested s => cases h
  · simp [rowNames, leavesFrom_flag, Entry.name]

end Entry

namespace Layout

theorem names_eq_map_leaves (l : Layout) : l.table.names = l.leaves.map fun r => r.row.name := by
  rw [Table.names, ← map_row_leaves, List.map_map]
  rfl

theorem names_eq_flatMap (l : Layout) : l.table.names = l.entries.flatMap Entry.rowNames := by
  rw [names_eq_map_leaves, leaves, leavesFrom_eq_flatMap, List.map_flatMap]
  rfl

end Layout

namespace Entry

variable {e : Entry Layout} {f : Field Layout} {offset size : Nat} {scaling : Option Autoscale}
  {s : Layout}

theorem rowNames_nested (h : f.content = .nested s) :
    (field f offset size scaling).rowNames = (List.range f.elements).flatMap fun i =>
      s.table.names.map (Layout.memberStem f.name f.elements i ++ ·) := by
  rw [rowNames, leavesFrom_nested _ _ h, List.map_flatMap]
  refine List.flatMap_congr ?_
  intro i _
  rw [Layout.leavesFrom_eq_map_moved, Layout.names_eq_map_leaves, List.map_map, List.map_map,
    String.empty_append]
  rfl

section Spelled

variable {spell : String → String} (hspell : Text.Spelling spell)

include hspell

theorem map_rowNames_nested (h : f.content = .nested s) :
    (field f offset size scaling).rowNames.map spell =
      (List.range f.elements).flatMap fun i => (s.table.names.map spell).map
        (spell f.name ++ Layout.memberStem "" f.elements i ++ ·) := by
  rw [rowNames_nested h, List.map_flatMap]
  refine List.flatMap_congr ?_
  intro i _
  rw [List.map_map, List.map_map]
  refine List.map_congr_left ?_
  intro name _
  rw [Function.comp_apply, Function.comp_apply, hspell.append, Layout.spell_memberStem hspell]

/-- Members of different elements never share a name. -/
theorem nodup_rowNames_iff :
    (e.rowNames.map spell).Nodup ↔
      ∀ s, e.nested? = some s → (s.table.names.map spell).Nodup := by
  cases hnested : e.nested? with
  | none => simp [rowNames_of_none hnested]
  | some s =>
      obtain ⟨f, offset, size, scaling, rfl, hcontent⟩ := exists_field hnested
      have hinj (i : Nat) :
          Function.Injective (spell f.name ++ Layout.memberStem "" f.elements i ++ ·) :=
        fun a b hab => (String.append_right_inj _).mp hab
      rw [map_rowNames_nested hspell hcontent, List.nodup_flatMap]
      constructor
      · rintro ⟨hall, -⟩ t ht
        cases ht
        exact (List.nodup_map_iff (hinj 0)).mp (hall 0 (List.mem_range.mpr f.elements_pos))
      · intro h
        refine ⟨fun i _ => (List.nodup_map_iff (hinj i)).mpr (h s rfl), ?_⟩
        refine List.nodup_range.pairwise_of_forall_ne ?_
        intro i hi j hj hne x hx hy
        obtain ⟨a, -, rfl⟩ := List.mem_map.mp hx
        obtain ⟨b, -, hab⟩ := List.mem_map.mp hy
        simp only [String.append_assoc, String.append_right_inj] at hab
        exact hne (Layout.index_of_memberStem (List.mem_range.mp hi) (List.mem_range.mp hj)
          hab.symm)

end Spelled

end Entry

namespace Layout

/-- Names are distinct in a table if, and only if, in the layout and in each layout within it no
two fields share the name of a row. -/
theorem nodup_names_iff {spell : String → String} (hspell : Text.Spelling spell) (l : Layout) :
    (l.table.names.map spell).Nodup ↔ ∀ m : Layout, m.Within l →
      m.entries.Pairwise fun d e => (d.rowNames.map spell).Disjoint (e.rowNames.map spell) := by
  induction l using nested_induction with
  | h l ih =>
      rw [forall_within_iff, names_eq_flatMap, List.map_flatMap, List.nodup_flatMap, and_comm]
      refine and_congr_right' ?_
      refine forall₂_congr fun e he => ?_
      rw [Entry.nodup_rowNames_iff hspell]
      exact forall₂_congr fun s hs => ih e he s hs

theorem Compiled.names_nodup {l : Layout} (h : l.Compiled) : (l.entries.map Entry.name).Nodup := by
  cases h with
  | compile h _ => exact names_nodup_of_compileIn h

theorem Compiled.pairwise_iff {l : Layout} (h : l.Compiled)
    {R : Entry Layout → Entry Layout → Prop} (hR : ∀ d e, R d e → R e d) :
    l.entries.Pairwise R ↔ ∀ d ∈ l.entries, ∀ e ∈ l.entries, d.name ≠ e.name → R d e := by
  constructor
  · intro hpairwise d hd e he hne
    have : Std.Symm R := ⟨hR⟩
    exact hpairwise.forall hd he (ne_of_apply_ne Entry.name hne)
  · intro hall
    refine h.names_nodup.of_map.pairwise_of_forall_ne ?_
    intro d hd e he hne
    exact hall d hd e he fun hname => hne (List.inj_on_of_nodup_map h.names_nodup hd he hname)

end Layout

/-! ## Stems -/

namespace Entry

/-- What the names of the rows of an entry begin with: the stem of each element of a structure,
and the whole name otherwise. -/
def stems : Entry Layout → List String
  | .flag b _ _ _ => [b.name]
  | .field f _ _ _ =>
    match f.content with
    | .primitive _ => [f.name]
    | .nested _ => (List.range f.elements).map (Layout.memberStem f.name f.elements)

variable {d e : Entry Layout} {x : String}

theorem exists_stem_of_mem_rowNames (hx : x ∈ e.rowNames) :
    ∃ t ∈ e.stems, t.toList <+: x.toList ∧ (e.nested? = none → x = t) := by
  cases hnested : e.nested? with
  | none =>
      rw [rowNames_of_none hnested, List.mem_singleton] at hx
      refine ⟨x, ?_, List.prefix_refl _, fun _ => rfl⟩
      rw [hx]
      rcases e with ⟨⟨name, content, _, _, _, _, _, _⟩, offset, size, scaling⟩ | _
      · cases content with
        | primitive p => exact List.mem_singleton_self _
        | nested s => cases hnested
      · exact List.mem_singleton_self _
  | some s =>
      obtain ⟨f, offset, size, scaling, rfl, hcontent⟩ := exists_field hnested
      rw [rowNames_nested hcontent] at hx
      obtain ⟨i, hi, hx⟩ := List.mem_flatMap.mp hx
      obtain ⟨name, -, rfl⟩ := List.mem_map.mp hx
      refine ⟨Layout.memberStem f.name f.elements i, ?_, ?_, nofun⟩
      · rw [stems, hcontent]
        exact List.mem_map_of_mem hi
      · rw [String.toList_append]
        exact List.prefix_append _ _

/-- Rows share a name only if a stem begins a stem. -/
theorem disjoint_rowNames_of_stems
    (hfirst : ∀ s ∈ d.stems, ∀ t ∈ e.stems, ¬s.toList <+: t.toList)
    (hsecond : e.nested?.isSome = true → ∀ t ∈ e.stems, ∀ s ∈ d.stems, ¬t.toList <+: s.toList) :
    d.rowNames.Disjoint e.rowNames := by
  intro x hd he
  obtain ⟨s, hs, hsx, -⟩ := exists_stem_of_mem_rowNames hd
  obtain ⟨t, ht, htx, hwhole⟩ := exists_stem_of_mem_rowNames he
  cases hnested : e.nested? with
  | none =>
      rw [hwhole hnested] at hsx
      exact hfirst s hs t ht hsx
  | some inner =>
      rcases List.prefix_or_prefix_of_prefix hsx htx with hst | hts
      · exact hfirst s hs t ht hst
      · exact hsecond (hnested ▸ rfl) t ht s hs hts

end Entry

/-! ## Compiled layouts -/

namespace Layout

/-- No member of a structure has the name of a row of another field. -/
def MembersApart (l : Layout) : Prop :=
  ∀ d ∈ l.entries, ∀ e ∈ l.entries, d.name ≠ e.name → d.nested?.isSome = true →
    d.rowNames.Disjoint e.rowNames

/-- No name of another field begins like the members of a structure. -/
def StemsApart (l : Layout) : Prop :=
  ∀ d ∈ l.entries, ∀ e ∈ l.entries, d.name ≠ e.name → d.nested?.isSome = true →
    ∀ s ∈ d.stems, ∀ t ∈ e.stems, ¬s.toList <+: t.toList

/-- No two fields share the name of a row in upper case. -/
def ConstantsApart (l : Layout) : Prop :=
  ∀ d ∈ l.entries, ∀ e ∈ l.entries, d.name ≠ e.name →
    (d.rowNames.map Text.upper).Disjoint (e.rowNames.map Text.upper)

variable {l : Layout}

theorem StemsApart.membersApart (h : l.StemsApart) : l.MembersApart := by
  intro d hd e he hne hnested
  exact Entry.disjoint_rowNames_of_stems (h d hd e he hne hnested) (h e he d hd hne.symm)

/-- The names of fields that hold no structures are told apart in the compilation. -/
theorem Compiled.pairwise_disjoint_iff (h : l.Compiled) :
    (l.entries.Pairwise fun d e => d.rowNames.Disjoint e.rowNames) ↔ l.MembersApart := by
  rw [h.pairwise_iff fun _ _ hdisjoint => hdisjoint.symm]
  constructor
  · intro hall d hd e he hne _
    exact hall d hd e he hne
  · intro hapart d hd e he hne
    cases hdn : d.nested? with
    | some s => exact hapart d hd e he hne (hdn ▸ rfl)
    | none =>
        cases hen : e.nested? with
        | some s => exact (hapart e he d hd hne.symm (hen ▸ rfl)).symm
        | none =>
            rw [Entry.rowNames_of_none hdn, Entry.rowNames_of_none hen]
            simpa using hne.symm

theorem row_of_nodup {t : Table} (h : t.names.Nodup) {r : Row} (hr : r ∈ t.rows) :
    t.get? r.name = some r :=
  (find?_eq_some_iff_of_nodup h).mpr ⟨hr, rfl⟩

/-- The names in a table are distinct if, and only if, at every level no member of a structure
has the name of a row of a field beside it.  Then a row is found by its name, and it is so if no
name begins like the members of a structure beside it.  For names in upper case the fields
without structures have to be compared as well. -/
theorem table_names (h : l.Compiled) :
    (l.table.names.Nodup ↔ ∀ m : Layout, m.Within l → m.MembersApart) ∧
      ((∀ m : Layout, m.Within l → m.StemsApart) → l.table.names.Nodup) ∧
      (l.table.names.Nodup → ∀ r ∈ l.table.rows, l.table.get? r.name = some r) ∧
      ((l.table.names.map Text.upper).Nodup ↔ ∀ m : Layout, m.Within l → m.ConstantsApart) := by
  have hplain : l.table.names.Nodup ↔ ∀ m : Layout, m.Within l → m.MembersApart := by
    have hnames := nodup_names_iff Text.Spelling.plain l
    simp only [List.map_id] at hnames
    rw [hnames]
    exact forall₂_congr fun m hm => (h.of_within hm).pairwise_disjoint_iff
  refine ⟨hplain, ?_, fun hnodup r hr => row_of_nodup hnodup hr, ?_⟩
  · intro hstems
    exact hplain.mpr fun m hm => (hstems m hm).membersApart
  · rw [nodup_names_iff Text.Spelling.upper]
    exact forall₂_congr fun m hm =>
      (h.of_within hm).pairwise_iff fun _ _ hdisjoint => hdisjoint.symm

def pixel : Layout where
  name := "pixel"
  entries :=
    [.field { name := "x", content := .primitive (.integer ⟨true, .two⟩) } 0 2 none,
      .field { name := "y", content := .primitive (.integer ⟨true, .two⟩) } 2 2 none]
  totalSize := 4
  options := {}

theorem pixel_compiled : pixel.Compiled := by
  refine compiled_of_entries rfl ?_
  simp [pixel, Entry.nested?, Entry.content?, Content.nested?]

/-- Pixels beside a field with the name of their members. -/
def track : Layout where
  name := "track"
  entries :=
    [.field { name := "pixel", content := .nested pixel, dimensions := [2] } 0 8 none,
      .field { name := "x", content := .primitive (.integer ⟨false, .one⟩) } 8 1 none]
  totalSize := 9
  options := {}

theorem track_compiled : track.Compiled := by
  refine compiled_of_entries rfl ?_
  simpa [track, Entry.nested?, Entry.content?, Content.nested?] using pixel_compiled

theorem table_names_track :
    track.Compiled ∧ track.table.names = ["pixel0_x", "pixel0_y", "pixel1_x", "pixel1_y", "x"] ∧
      ∀ r ∈ track.table.rows, track.table.get? r.name = some r := by
  have hnames : track.table.names = ["pixel0_x", "pixel0_y", "pixel1_x", "pixel1_y", "x"] := by
    decide +kernel
  refine ⟨track_compiled, hnames, (table_names track_compiled).2.2.1 ?_⟩
  rw [hnames]
  decide

/-- A pixel beside a field with the name of a row of the pixel. -/
def clash : Layout where
  name := "clash"
  entries :=
    [.field { name := "pixel", content := .nested pixel } 0 4 none,
      .field { name := "pixel_x", content := .primitive (.integer ⟨false, .one⟩) } 4 1 none]
  totalSize := 5
  options := {}

theorem clash_compiled : clash.Compiled := by
  refine compiled_of_entries rfl ?_
  simpa [clash, Entry.nested?, Entry.content?, Content.nested?] using pixel_compiled

theorem not_names_nodup : ¬∀ l : Layout, l.Compiled → l.table.names.Nodup := by
  intro h
  have hnodup := h clash clash_compiled
  revert hnodup
  decide +kernel

end Layout

end StructureLayout
