import StructureLayout.Proofs.Placement.Contents
import StructureLayout.Proofs.Placement.Overflow
import StructureLayout.Proofs.Placement.Refusal
import StructureLayout.Proofs.Text.Placeholder

/-!
# Instances by name

No two instances of a repeated field have one name.  A repeated field is therefore refused for a
name only if an instance is named like something that was placed before the first of them.
-/

namespace StructureLayout

namespace Repetition

variable {space : AddressSpace} {r : Repetition}

/-- Each instance is named after the template, with its index, and no two are named alike. -/
structure NamesInstances (space : AddressSpace) (r : Repetition) : Prop where
  length : (r.instances space).length = r.count
  named : ∀ index < r.count, ∃ f, (r.instances space)[index]? = some f ∧
    Text.Indexed r.template.name "" index f.name
  distinct : ((r.instances space).map fun f => f.name).Nodup

theorem name_instanceAt_injective (space : AddressSpace) (r : Repetition) :
    Function.Injective fun index => (r.instanceAt space index).name :=
  Text.withIndex_injective r.template.name ""

theorem namesInstances (space : AddressSpace) (r : Repetition) : r.NamesInstances space where
  length := length_instances r
  named index hindex := by
    refine ⟨r.instanceAt space index, ?_, Text.indexed_iff.mpr rfl⟩
    rw [instances, List.getElem?_map, List.getElem?_range hindex, Option.map_some]
  distinct := by
    rw [instances, List.map_map]
    exact List.nodup_range.map (name_instanceAt_injective space r)

/-! ## The instances before one -/

/-- The instances with an index below `index`. -/
def instancesBelow (space : AddressSpace) (r : Repetition) (index : Nat) : List (Field Layout) :=
  (List.range index).map (r.instanceAt space)

theorem instancesBelow_succ (index : Nat) :
    r.instancesBelow space (index + 1) =
      r.instancesBelow space index ++ [r.instanceAt space index] := by
  simp [instancesBelow, List.range_succ]

theorem name_ne_of_mem_instancesBelow {index : Nat} :
    ∀ f ∈ r.instancesBelow space index, f.name ≠ (r.instanceAt space index).name := by
  intro f hf hname
  obtain ⟨i, hi, rfl⟩ := List.mem_map.mp hf
  have hne : i ≠ index := (List.mem_range.mp hi).ne
  exact hne (name_instanceAt_injective space r hname)

theorem exists_instances_eq_append {index : Nat} (hindex : index < r.count) :
    ∃ back, r.instances space =
      r.instancesBelow space index ++ r.instanceAt space index :: back := by
  obtain ⟨n, hn⟩ := Nat.exists_eq_add_of_lt hindex
  have hrange : List.range r.count = List.range index ++ index :: List.range' (index + 1) n := by
    rw [hn, Nat.add_assoc, List.range_eq_range', List.range_eq_range', ← List.range'_append_1,
      Nat.zero_add, List.range'_succ]
  refine ⟨(List.range' (index + 1) n).map (r.instanceAt space), ?_⟩
  rw [instances, hrange, List.map_append, List.map_cons, instancesBelow]

theorem exists_index_of_instances_eq_append {front back : List (Field Layout)} {f : Field Layout}
    (h : r.instances space = front ++ f :: back) :
    ∃ index < r.count, front = r.instancesBelow space index ∧ f = r.instanceAt space index := by
  have hindex : front.length < r.count := by
    rw [← r.length_instances, h]
    simp
  obtain ⟨rest, hrest⟩ : ∃ rest, r.instances space = _ := exists_instances_eq_append hindex
  have hlength : front.length = (r.instancesBelow space front.length).length := by
    simp [instancesBelow]
  obtain ⟨hfront, hcons⟩ := List.append_inj (h.symm.trans hrest) hlength
  exact ⟨front.length, hindex, hfront, (List.cons.inj hcons).1⟩

end Repetition

namespace Placement

variable {space : AddressSpace} {s : Placement} {r : Repetition} {index : Nat}

/-- All that the instances ask of the state but that their names are not taken. -/
structure HasRoom (space : AddressSpace) (s : Placement) (r : Repetition) : Prop where
  count : r.count ≠ 0
  dimensions : 0 ∉ r.template.dimensions
  element : r.template.content.size ≠ 0
  declared : ∀ d ∈ r.template.offset, d = s.cursor
  fits : space.fits (s.cursor + r.count * r.template.bytes) = true

/-- The instance at `index` is the first one whose name is taken, and `e` has taken it. -/
structure Collides (space : AddressSpace) (s : Placement) (r : Repetition) (index : Nat)
    (e : Entry Layout) : Prop where
  room : s.HasRoom space r
  lt : index < r.count
  placed : e ∈ s.entries
  name : e.name = (r.instanceAt space index).name
  earlier : ∀ i < index, ∀ d ∈ s.entries, d.name ≠ (r.instanceAt space i).name

/-! ## One instance behind those before it -/

theorem cursor_withFields_instancesBelow (s : Placement) (r : Repetition) (index : Nat) :
    (s.withFields (r.instancesBelow space index)).cursor =
      s.cursor + index * r.template.bytes :=
  withFields_instances_cursor s { r with count := index }

/-- Fields of other names do not change what a name leads to. -/
theorem find?_withFields {fs : List (Field Layout)} {name : String}
    (h : ∀ f ∈ fs, f.name ≠ name) :
    ((s.withFields fs).entries.find? fun e => e.name == name) =
      s.entries.find? fun e => e.name == name := by
  induction fs generalizing s with
  | nil => rfl
  | cons f fs ih =>
      obtain ⟨hf, hfs⟩ := List.forall_mem_cons.mp h
      rw [withFields_cons, ih hfs, withField]
      exact List.find?_cons_of_neg (by simpa [Entry.name] using hf)

theorem HasRoom.declared_instanceAt (h : s.HasRoom space r) (hindex : index < r.count) :
    ∀ d ∈ (r.instanceAt space index).offset,
      d = (s.withFields (r.instancesBelow space index)).cursor := by
  rw [cursor_withFields_instancesBelow]
  exact Repetition.offset_of_instanceAt hindex h.dimensions h.element h.declared h.fits

theorem HasRoom.fits_instanceAt (h : s.HasRoom space r) (hindex : index < r.count) :
    space.fits ((s.withFields (r.instancesBelow space index)).cursor +
      (r.instanceAt space index).bytes) = true := by
  have hle : (index + 1) * r.template.bytes ≤ r.count * r.template.bytes :=
    Nat.mul_le_mul_right _ hindex
  rw [cursor_withFields_instancesBelow, Repetition.bytes_instanceAt, Nat.add_assoc,
    ← Nat.succ_mul]
  exact AddressSpace.fits_of_le (Nat.add_le_add_left hle _) h.fits

/-- The instances before one never have its name. -/
theorem HasRoom.admits_instanceAt_iff (h : s.HasRoom space r) (hindex : index < r.count) :
    (s.withFields (r.instancesBelow space index)).Admits space (r.instanceAt space index) ↔
      ∀ e ∈ s.entries, e.name ≠ (r.instanceAt space index).name := by
  constructor
  · intro hadmits e he
    exact hadmits.fresh e ((entries_suffix_withFields s _).mem he)
  · intro hfresh
    refine ⟨h.dimensions, h.element, h.declared_instanceAt hindex, ?_, h.fits_instanceAt hindex⟩
    have hnone : (s.entries.find? fun e => e.name == (r.instanceAt space index).name) = none :=
      List.find?_eq_none.mpr fun e he => by simpa using hfresh e he
    rw [← find?_withFields Repetition.name_ne_of_mem_instancesBelow] at hnone
    intro e he
    simpa using List.find?_eq_none.mp hnone e he

theorem admitsAll_concat_iff {fs : List (Field Layout)} {f : Field Layout} :
    s.AdmitsAll space (fs ++ [f]) ↔
      s.AdmitsAll space fs ∧ (s.withFields fs).Admits space f := by
  induction fs generalizing s with
  | nil => simp [AdmitsAll]
  | cons g fs ih =>
      rw [List.cons_append, AdmitsAll, AdmitsAll, ih, and_assoc]
      rfl

theorem HasRoom.admitsAll_instancesBelow_iff (h : s.HasRoom space r) {n : Nat}
    (hn : n ≤ r.count) :
    s.AdmitsAll space (r.instancesBelow space n) ↔
      ∀ i < n, ∀ e ∈ s.entries, e.name ≠ (r.instanceAt space i).name := by
  induction n with
  | zero => simp [Repetition.instancesBelow, AdmitsAll]
  | succ n ih =>
      rw [Repetition.instancesBelow_succ, admitsAll_concat_iff, ih (Nat.le_of_succ_le hn),
        h.admits_instanceAt_iff hn, Nat.forall_lt_succ_right]

/-! ## The whole repeated field -/

theorem HasRoom.finish?_ne_none (h : s.HasRoom space r) :
    (r.size? space).bind (space.add? s.cursor) ≠ none :=
  Option.ne_none_iff_exists'.mpr
    ⟨_, (Repetition.finish?_eq_some_iff h.count h.dimensions h.element).mpr ⟨rfl, h.fits⟩⟩

/-- A repeated field that is refused at one of its instances was found to have an end, and its
first instance to stand where it is declared. -/
theorem HasRoom.of_instanceAt (hindex : index < r.count)
    (hfinish : (r.size? space).bind (space.add? s.cursor) ≠ none)
    (hall : s.AdmitsAll space (r.instancesBelow space index))
    (hdims : 0 ∉ r.template.dimensions) (hsize : r.template.content.size ≠ 0)
    (hdeclared : ∀ d ∈ (r.instanceAt space index).offset,
      d = (s.withFields (r.instancesBelow space index)).cursor) : s.HasRoom space r := by
  have hcount : r.count ≠ 0 := Nat.ne_zero_of_lt hindex
  obtain ⟨finish, hfinish⟩ := Option.ne_none_iff_exists'.mp hfinish
  obtain ⟨-, hfits⟩ := (Repetition.finish?_eq_some_iff hcount hdims hsize).mp hfinish
  have hfirst : ∀ d ∈ (r.instanceAt space 0).offset, d = s.cursor := by
    cases index with
    | zero => exact hdeclared
    | succ n =>
        rw [Repetition.instancesBelow, List.range_succ_eq_map] at hall
        exact hall.1.declared
  have hpos : 0 < r.count * r.template.bytes :=
    Nat.mul_pos (Nat.pos_of_ne_zero hcount) (Field.bytes_pos hdims hsize)
  have hnext : space.fits (s.cursor + 1) = true :=
    AddressSpace.fits_of_le (Nat.add_le_add_left hpos _) hfits
  exact ⟨hcount, hdims, hsize, Repetition.offset_of_instanceAt_zero hnext hfirst, hfits⟩

/-- A repeated field that has room is refused for the first instance whose name is taken, and
nothing else about a repeated field is refused as a name. -/
theorem placeRepetition_eq_duplicateName_iff (hs : s.DistinctNames) {field : String}
    {offset first : Nat} :
    s.placeRepetition space r = .error (.duplicateName field offset first) ↔
      ∃ index e, s.Collides space r index e ∧ field = e.name ∧
        offset = s.cursor + index * r.template.bytes ∧ first = e.offset := by
  -- what has the name of an instance was there before all of them
  have htaken (index : Nat) (e : Entry Layout) :
      ((s.withFields (r.instancesBelow space index)).entries.find? fun d =>
          d.name == (r.instanceAt space index).name) = some e ↔
        e ∈ s.entries ∧ e.name = (r.instanceAt space index).name := by
    rw [find?_withFields Repetition.name_ne_of_mem_instancesBelow, find?_eq_some_iff_of_nodup hs]
  rw [placeRepetition_eq_error_iff_of_rule (by simp [PlacementError.rule])
    (by simp [PlacementError.rule])]
  constructor
  · rintro ⟨-, hfinish, front, f, back, hinstances, hall, hrefused⟩
    obtain ⟨index, hindex, rfl, rfl⟩ :=
      Repetition.exists_index_of_instances_eq_append hinstances
    obtain ⟨hdims, hsize, hdeclared, -, e, hfind, herror⟩ :=
      (placeField_eq_error_iff_of_name rfl).mp hrefused
    obtain ⟨hplaced, hname⟩ := (htaken index e).mp hfind
    have hroom := HasRoom.of_instanceAt hindex hfinish hall hdims hsize hdeclared
    have hearlier := (hroom.admitsAll_instancesBelow_iff hindex.le).mp hall
    cases herror
    exact ⟨index, e, ⟨hroom, hindex, hplaced, hname, hearlier⟩, hname.symm,
      cursor_withFields_instancesBelow s r index, rfl⟩
  · rintro ⟨index, e, h, rfl, rfl, rfl⟩
    have hroom := h.room
    obtain ⟨back, hinstances⟩ : ∃ back, r.instances space = _ :=
      Repetition.exists_instances_eq_append h.lt
    have hall := (hroom.admitsAll_instancesBelow_iff h.lt.le).mpr h.earlier
    refine ⟨hroom.count, hroom.finish?_ne_none, _, _, back, hinstances, hall, ?_⟩
    rw [placeField_eq_error_iff_of_name rfl, ← cursor_withFields_instancesBelow, h.name]
    exact ⟨hroom.dimensions, hroom.element, hroom.declared_instanceAt h.lt,
      hroom.fits_instanceAt h.lt, e, (htaken index e).mpr ⟨h.placed, h.name⟩, rfl⟩

end Placement

namespace Layout

/-- No two instances of a repeated field have one name.  A repeated field is refused for a name
exactly when it has room and the name of an instance is taken; what has taken it was declared
before the repeated field. -/
theorem instances_named_apart (options : Options) (name : String) (front back : List Declaration)
    (r : Repetition) :
    r.NamesInstances .wide ∧
      ∀ s, Placement.placeBefore .wide options (.repetition r) {} front = .ok s →
        (∀ field offset first,
          s.place .wide options (.repetition r) (back.headD .void) =
              .error (.duplicateName field offset first) ↔
            ∃ index e, s.Collides .wide r index e ∧ field = e.name ∧
              offset = s.cursor + index * r.template.bytes ∧ first = e.offset) ∧
        ∀ index e, s.Collides .wide r index e →
          (∃ d ∈ front, e.declaration ∈ d.contents .wide) ∧
            compile options name (front ++ .repetition r :: back) =
              .error (.placement name
                (.duplicateName e.name (s.cursor + index * r.template.bytes) e.offset)) := by
  refine ⟨Repetition.namesInstances .wide r, ?_⟩
  intro s hrun
  have hdistinct := Placement.distinctNames_of_placeBefore hrun List.nodup_nil
  refine ⟨fun _ _ _ => Placement.placeRepetition_eq_duplicateName_iff hdistinct, ?_⟩
  intro index e h
  have hplace : s.place .wide options (.repetition r) (back.headD .void) = .error _ :=
    (Placement.placeRepetition_eq_duplicateName_iff hdistinct).mpr ⟨index, e, h, rfl, rfl, rfl⟩
  exact ⟨Placement.exists_declaration_of_entry hrun h.placed,
    compile_eq_placement_iff_exists.mpr ⟨front, _, back, s, rfl, hrun, hplace⟩⟩

/-- Twelve fields whose names have a digit before the index and a placeholder after it. -/
def slotRow : Repetition where
  template := { name := "slot1{i}{i}", content := .primitive (.integer ⟨true, .one⟩) }
  count := 12

/-- A flag with the name of the last of the twelve. -/
def beforeSlotRow : List Declaration :=
  [.field { name := "mode", content := .primitive (.integer ⟨false, .one⟩) },
    .flag { name := "slot111{i}" }]

def slotRowPlacement : Placement where
  cursor := 5
  entries := [.flag { name := "slot111{i}" } 1 .four 0,
    .field { name := "mode", content := .primitive (.integer ⟨false, .one⟩) } 0 1 none]

theorem slotRow_collides :
    slotRowPlacement.Collides .wide slotRow 11 (.flag { name := "slot111{i}" } 1 .four 0) where
  room := ⟨by decide, by decide, by decide, nofun, by decide⟩
  lt := by decide
  placed := List.mem_cons_self
  name := by decide +kernel
  earlier := by decide +kernel

theorem instances_named_apart_slotRow :
    Placement.placeBefore .wide {} (.repetition slotRow) {} beforeSlotRow = .ok slotRowPlacement ∧
      slotRow.NamesInstances .wide ∧
      slotRowPlacement.place .wide {} (.repetition slotRow) (.pad 1) =
        .error (.duplicateName "slot111{i}" 16 1) ∧
      (∃ d ∈ beforeSlotRow, Declaration.flag { name := "slot111{i}" } ∈ d.contents .wide) ∧
      compile {} "sample" (beforeSlotRow ++ [.repetition slotRow, .pad 1]) =
        .error (.placement "sample" (.duplicateName "slot111{i}" 16 1)) := by
  have hrun : Placement.placeBefore .wide {} (.repetition slotRow) {} beforeSlotRow =
      .ok slotRowPlacement := rfl
  obtain ⟨hnames, hcollisions⟩ := instances_named_apart {} "sample" beforeSlotRow [.pad 1] slotRow
  obtain ⟨hrefused, hcollides⟩ := hcollisions slotRowPlacement hrun
  obtain ⟨hdeclared, hcompile⟩ := hcollides 11 _ slotRow_collides
  exact ⟨hrun, hnames, (hrefused _ _ _).mpr ⟨11, _, slotRow_collides, rfl, rfl, rfl⟩, hdeclared,
    hcompile⟩

end Layout

end StructureLayout
