import StructureLayout.Proofs.Placement.Contents
import Std.Data.HashMap.Lemmas

/-!
# Entries by name

The entries of a layout are the contents of its declarations, in order and unchanged, and no two
have one name.  An index of the names that is extended with every entry leads to the entry that
a search through the list finds, so a name is refused when, and only when, it is in the index.
-/

namespace StructureLayout

/-- The position of each name, noted when its entry is added.  The entries stand newest first, so
an entry is added at a position that is the number of those before it. -/
def nameIndex : List (Entry Layout) → Std.HashMap String Nat
  | [] => ∅
  | e :: es => (nameIndex es).insert e.name es.length

section Index

variable {es : List (Entry Layout)} {name : String}

theorem lt_length_of_nameIndex {i : Nat} (h : (nameIndex es)[name]? = some i) :
    i < es.length := by
  induction es with
  | nil => simp [nameIndex] at h
  | cons e es ih =>
      rw [nameIndex, Std.HashMap.getElem?_insert] at h
      rw [List.length_cons]
      split at h
      · cases h
        exact Nat.lt_succ_self _
      · exact Nat.lt_succ_of_lt (ih h)

/-- The index leads to the newest entry of a name. -/
theorem find?_eq_bind_nameIndex :
    (es.find? fun e => e.name == name) = (nameIndex es)[name]?.bind (es.reverse[·]?) := by
  induction es with
  | nil => simp [nameIndex]
  | cons e es ih =>
      rw [List.find?_cons, nameIndex, Std.HashMap.getElem?_insert, List.reverse_cons]
      cases hname : e.name == name with
      | true => simp
      | false =>
          dsimp only
          rw [ih]
          cases hindex : (nameIndex es)[name]? with
          | none => rfl
          | some i =>
              have hlt := lt_length_of_nameIndex hindex
              rw [if_neg Bool.false_ne_true, Option.bind_some, Option.bind_some,
                List.getElem?_append_left (by rwa [List.length_reverse])]

end Index

theorem Entry.name?_declaration (e : Entry Layout) : e.declaration.name? = some e.name := by
  cases e <;> rfl

theorem Entry.map_name?_declaration (es : List (Entry Layout)) :
    (es.map Entry.declaration).map Declaration.name? = (es.map Entry.name).map some := by
  rw [List.map_map, List.map_map]
  exact List.map_congr_left fun e _ => e.name?_declaration

namespace Placement

variable {space : AddressSpace} {options : Options} {s t : Placement}

def index (s : Placement) : Std.HashMap String Nat := nameIndex s.entries

/-- A name is refused if the index has it, with the place of the entry that it leads to. -/
theorem push_eq (s : Placement) (e : Entry Layout) :
    s.push e =
      match s.index[e.name]?.bind (s.entries.reverse[·]?) with
      | some first => .error (.duplicateName e.name e.offset first.offset)
      | none => .ok { s with entries := e :: s.entries } := by
  rw [push, find?_eq_bind_nameIndex]
  rfl

theorem index_of_push {e : Entry Layout} (h : s.push e = .ok t) :
    t.index = s.index.insert e.name s.entries.length := by
  obtain ⟨-, rfl⟩ := push_eq_ok_iff.mp h
  rfl

/-- A run that comes to its end has met no name twice. -/
theorem nodup_names_of_placeBefore {next : Declaration} {ds : List Declaration}
    (h : placeBefore space options next {} ds = .ok s) :
    ((ds.flatMap (Declaration.contents space)).map Declaration.name?).Nodup := by
  have hcontents : s.contents = ds.flatMap (Declaration.contents space) :=
    (contents_of_placeBefore h).trans (List.nil_append _)
  have hnames : s.DistinctNames := distinctNames_of_placeBefore h List.nodup_nil
  rw [← hcontents, contents, Entry.map_name?_declaration, List.map_reverse]
  exact (List.nodup_reverse.mpr hnames).map (Option.some_injective String)

end Placement

namespace Layout

def index (l : Layout) : Std.HashMap String Nat := nameIndex l.entries.reverse

/-- The layout lists the contents of the declarations, and finds them by their names. -/
structure Lists (l : Layout) (ds : List Declaration) : Prop where
  contents : l.entries.map Entry.declaration = ds.flatMap (Declaration.contents .wide)
  named : ∀ e ∈ l.entries, e.declaration.name? = some e.name
  distinct : (l.entries.map Entry.name).Nodup
  found : ∀ name e, l.get? name = some e ↔ e ∈ l.entries ∧ e.name = name
  missing : ∀ name, l.get? name = none ↔ ∀ e ∈ l.entries, e.name ≠ name
  indexed : ∀ name, l.get? name = l.index[name]?.bind (l.entries[·]?)

variable {options : Options} {name : String} {ds : List Declaration} {l : Layout}

theorem get?_eq_bind_index (h : (l.entries.map Entry.name).Nodup) (field : String) :
    l.get? field = l.index[field]?.bind (l.entries[·]?) := by
  have hreverse : (l.entries.reverse.map Entry.name).Nodup := by
    rw [List.map_reverse]
    exact List.nodup_reverse.mpr h
  have hfind : l.get? field = l.entries.reverse.find? fun e => e.name == field := by
    ext e
    rw [get?, find?_eq_some_iff_of_nodup h, find?_eq_some_iff_of_nodup hreverse,
      List.mem_reverse]
  rw [hfind, find?_eq_bind_nameIndex, List.reverse_reverse, index]

theorem lists_of_compile (h : compile options name ds = .ok l) : l.Lists ds where
  contents := contents_of_compileIn h
  named := fun e _ => e.name?_declaration
  distinct := names_nodup_of_compileIn h
  found := fun _ _ => find?_eq_some_iff_of_nodup (names_nodup_of_compileIn h)
  missing := fun field => by simp [get?]
  indexed := get?_eq_bind_index (names_nodup_of_compileIn h)

/-- The entries of a layout are the contents of the declarations, in order and one for each, and
can be found by their names.  Contents of which two have one name are refused. -/
theorem compile_lists (options : Options) (name : String) (ds : List Declaration) :
    (∀ l, compile options name ds = .ok l → l.Lists ds) ∧
      (¬((ds.flatMap (Declaration.contents .wide)).map Declaration.name?).Nodup →
        ∃ x, compile options name ds = .error (.placement name x)) := by
  refine ⟨fun l hl => lists_of_compile hl, fun hnames => exists_placementError ?_⟩
  intro s hrun
  exact hnames (Placement.nodup_names_of_placeBefore hrun)

/-- Two instances between other declarations, with directives and nothing. -/
def namedDeclarations : List Declaration :=
  [.field { name := "mode", content := .primitive (.integer ⟨false, .one⟩) }, .void, .alignNext,
    .repetition ⟨{ name := "gain{i}Bank", content := .primitive (.integer ⟨true, .two⟩),
                   dimensions := [3] }, 2⟩,
    .pad 1, .flag { name := "on" }, .flag { name := "off", bit := some 4 }]

/-- The last instance of the first template has the name of the only instance of the second. -/
def clashingRepetitions : List Declaration :=
  [.repetition ⟨{ name := "x", content := .primitive .float }, 11⟩,
    .repetition ⟨{ name := "x1", content := .primitive .float }, 1⟩]

theorem compile_lists_sample :
    (∃ l, compile {} "sample" namedDeclarations = .ok l ∧ l.Lists namedDeclarations ∧
      l.entries.map Entry.name = ["mode", "gain0Bank", "gain1Bank", "on", "off"]) ∧
      ∃ x, compile {} "sample" clashingRepetitions = .error (.placement "sample" x) := by
  refine ⟨?_, (compile_lists {} "sample" clashingRepetitions).2 (by decide +kernel)⟩
  obtain ⟨l, hl, hnames⟩ : ∃ l, compile {} "sample" namedDeclarations = .ok l ∧
      l.entries.map Entry.name = ["mode", "gain0Bank", "gain1Bank", "on", "off"] :=
    ⟨_, rfl, by decide +kernel⟩
  exact ⟨l, hl, (compile_lists {} "sample" namedDeclarations).1 l hl, hnames⟩

end Layout

end StructureLayout
