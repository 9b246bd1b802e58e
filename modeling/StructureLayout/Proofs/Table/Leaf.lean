import StructureLayout.Table
import Mathlib.Data.List.Basic

/-!
# Leaves

Each row of a field table comes from a leaf of the tree of nested layouts: a flag or a field
of primitives.  A leaf is listed here with the bytes that its entry occupies, in the order of
the rows.
-/

namespace StructureLayout

structure Leaf where
  row : Row
  /-- The bytes of the entry: the whole field, or the word that a flag is in. -/
  size : Nat
deriving DecidableEq

namespace Leaf

def offset (r : Leaf) : Nat := r.row.offset

def finish (r : Leaf) : Nat := r.offset + r.size

/-- The size of one element of a field, and of its word for a flag. -/
def unit (r : Leaf) : Nat :=
  match r.row.kind with
  | .primitive p => p.size
  | .bit _ => r.size

def Aligned (r : Leaf) : Prop := r.unit ∣ r.offset

instance (r : Leaf) : Decidable r.Aligned := inferInstanceAs (Decidable (r.unit ∣ r.offset))

/-- The leaf of a nested layout in the layout around it. -/
def moved (stem : String) (base : Nat) (r : Leaf) : Leaf :=
  ⟨⟨stem ++ r.row.name, base + r.offset, r.row.kind⟩, r.size⟩

/-- Of two flags in one word the first has the lower bit, and other leaves do not overlap. -/
def Precedes (d e : Leaf) : Prop :=
  (∃ i j, d.row.kind = .bit i ∧ e.row.kind = .bit j ∧ d.offset = e.offset ∧ i < j) ∨
    d.finish ≤ e.offset

end Leaf

theorem Field.elements_pos (f : Field Layout) : 0 < f.elements := by
  rw [Field.elements]
  omega

namespace Layout

/-- The leaves of one entry, given those of the structure that it holds. -/
def entryLeaves (stem : String) (base : Nat) :
    Entry (Layout × (String → Nat → List Leaf)) → List Leaf
  | .flag b offset word bit => [⟨⟨stem ++ b.name, base + offset, .bit bit⟩, word.bytes⟩]
  | .field f offset size _ =>
    match f.content with
    | .primitive p => [⟨⟨stem ++ f.name, base + offset, .primitive p⟩, size⟩]
    | .nested (s, leaves) =>
      (List.range f.elements).flatMap fun i =>
        leaves (memberStem (stem ++ f.name) f.elements i) (base + offset + i * s.totalSize)

def flattenEntries :
    Layout → List (Entry (Layout × (String → Nat → List Leaf))) → String → Nat → List Leaf :=
  fun _ entries stem base => entries.flatMap (entryLeaves stem base)

/-- The leaves of a layout that stands at an offset, under names with a common stem. -/
def leavesFrom : Layout → String → Nat → List Leaf := fold flattenEntries

def leaves (l : Layout) : List Leaf := l.leavesFrom "" 0

end Layout

namespace Entry

/-- The leaves of an entry of a layout that stands at `base`. -/
def leavesFrom (e : Entry Layout) (stem : String) (base : Nat) : List Leaf :=
  Layout.entryLeaves stem base (Layout.foldEntry Layout.flattenEntries e)

variable (stem : String) (base : Nat)

theorem leavesFrom_flag (b : Flag) (offset : Nat) (word : Width) (bit : Nat) :
    (flag b offset word bit).leavesFrom stem base =
      [⟨⟨stem ++ b.name, base + offset, .bit bit⟩, word.bytes⟩] := rfl

section Field

variable {f : Field Layout} {offset size : Nat} {scaling : Option Autoscale}

theorem leavesFrom_primitive {p : Primitive} (h : f.content = .primitive p) :
    (field f offset size scaling).leavesFrom stem base =
      [⟨⟨stem ++ f.name, base + offset, .primitive p⟩, size⟩] := by
  rcases f with ⟨name, content, _⟩
  cases h
  rfl

theorem leavesFrom_nested {s : Layout} (h : f.content = .nested s) :
    (field f offset size scaling).leavesFrom stem base =
      (List.range f.elements).flatMap fun i =>
        s.leavesFrom (Layout.memberStem (stem ++ f.name) f.elements i)
          (base + offset + i * s.totalSize) := by
  rcases f with ⟨name, content, _⟩
  cases h
  rfl

end Field

end Entry

namespace Layout

theorem leavesFrom_eq_flatMap (l : Layout) (stem : String) (base : Nat) :
    l.leavesFrom stem base = l.entries.flatMap fun e => e.leavesFrom stem base := by
  rw [leavesFrom, fold_eq, flattenEntries, List.flatMap_map]
  rfl

/-- The leaves stand in the order of the rows. -/
theorem map_row_leavesFrom (l : Layout) (stem : String) (base : Nat) :
    (l.leavesFrom stem base).map Leaf.row = l.rowsFrom stem base := by
  induction l using nested_induction generalizing stem base with
  | h l ih =>
      rw [leavesFrom_eq_flatMap, rowsFrom_eq, List.map_flatMap, List.flatMap_map]
      refine List.flatMap_congr ?_
      rintro (⟨⟨name, content, dimensions, _, _, _, _, _⟩, offset, size, scaling⟩ | _) he
      · cases content with
        | primitive p => rfl
        | nested s =>
            rw [Entry.leavesFrom_nested stem base rfl, List.map_flatMap]
            exact List.flatMap_congr fun i _ => ih _ he s rfl _ _
      · rfl

theorem map_row_leaves (l : Layout) : l.leaves.map Leaf.row = l.table.rows :=
  l.map_row_leavesFrom "" 0

/-- The leaves of a layout, one by one: the flags and primitive fields among its entries, and
the leaves of the structures in its fields. -/
inductive HasLeaf : Layout → String → Nat → Leaf → Prop
  | flag {l : Layout} {stem : String} {base : Nat} {b : Flag} {offset : Nat} {word : Width}
      {bit : Nat} (entry : .flag b offset word bit ∈ l.entries) :
      HasLeaf l stem base ⟨⟨stem ++ b.name, base + offset, .bit bit⟩, word.bytes⟩
  | primitive {l : Layout} {stem : String} {base : Nat} {f : Field Layout} {offset size : Nat}
      {scaling : Option Autoscale} {p : Primitive}
      (entry : .field f offset size scaling ∈ l.entries) (content : f.content = .primitive p) :
      HasLeaf l stem base ⟨⟨stem ++ f.name, base + offset, .primitive p⟩, size⟩
  | nested {l : Layout} {stem : String} {base : Nat} {f : Field Layout} {offset size : Nat}
      {scaling : Option Autoscale} {s : Layout} {i : Nat} {r : Leaf}
      (entry : .field f offset size scaling ∈ l.entries) (content : f.content = .nested s)
      (element : i < f.elements)
      (leaf : HasLeaf s (memberStem (stem ++ f.name) f.elements i)
        (base + offset + i * s.totalSize) r) :
      HasLeaf l stem base r

theorem hasLeaf_iff {l : Layout} {stem : String} {base : Nat} {r : Leaf} :
    l.HasLeaf stem base r ↔ r ∈ l.leavesFrom stem base := by
  constructor
  · intro h
    induction h with
    | flag he =>
        rw [leavesFrom_eq_flatMap]
        exact List.mem_flatMap.mpr ⟨_, he, List.mem_singleton_self _⟩
    | primitive he hcontent =>
        rw [leavesFrom_eq_flatMap]
        refine List.mem_flatMap.mpr ⟨_, he, ?_⟩
        rw [Entry.leavesFrom_primitive _ _ hcontent]
        exact List.mem_singleton_self _
    | nested he hcontent hi _ ih =>
        rw [leavesFrom_eq_flatMap]
        refine List.mem_flatMap.mpr ⟨_, he, ?_⟩
        rw [Entry.leavesFrom_nested _ _ hcontent]
        exact List.mem_flatMap.mpr ⟨_, List.mem_range.mpr hi, ih⟩
  · intro h
    induction l using nested_induction generalizing stem base with
    | h l ih =>
        rw [leavesFrom_eq_flatMap] at h
        obtain ⟨e, he, h⟩ := List.mem_flatMap.mp h
        cases e with
        | flag b offset word bit =>
            cases List.mem_singleton.mp h
            exact .flag he
        | field f offset size scaling =>
            cases hcontent : f.content with
            | primitive p =>
                rw [Entry.leavesFrom_primitive _ _ hcontent] at h
                cases List.mem_singleton.mp h
                exact .primitive he hcontent
            | nested s =>
                rw [Entry.leavesFrom_nested _ _ hcontent] at h
                obtain ⟨i, hi, h⟩ := List.mem_flatMap.mp h
                have hs : (Entry.field f offset size scaling).nested? = some s :=
                  congrArg Content.nested? hcontent
                exact .nested he hcontent (List.mem_range.mp hi) (ih _ he s hs h)

theorem memberStem_append (stem field : String) (elements index : Nat) :
    memberStem (stem ++ field) elements index = stem ++ memberStem field elements index := by
  simp only [memberStem, String.append_assoc]

/-- A nested layout has the leaves that it has by itself, moved to where it stands. -/
theorem leavesFrom_eq_map_moved (l : Layout) (stem : String) (base : Nat) :
    l.leavesFrom stem base = l.leaves.map (Leaf.moved stem base) := by
  induction l using nested_induction generalizing stem base with
  | h l ih =>
      rw [leaves, leavesFrom_eq_flatMap, leavesFrom_eq_flatMap, List.map_flatMap]
      refine List.flatMap_congr ?_
      intro e he
      cases e with
      | flag b offset word bit =>
          simp [Entry.leavesFrom_flag, Leaf.moved, Leaf.offset]
      | field f offset size scaling =>
          cases hcontent : f.content with
          | primitive p =>
              simp [Entry.leavesFrom_primitive _ _ hcontent, Leaf.moved, Leaf.offset]
          | nested s =>
              have hs : (Entry.field f offset size scaling).nested? = some s :=
                congrArg Content.nested? hcontent
              rw [Entry.leavesFrom_nested _ _ hcontent, Entry.leavesFrom_nested _ _ hcontent,
                List.map_flatMap]
              refine List.flatMap_congr ?_
              intro i _
              rw [ih _ he s hs, ih _ he s hs, List.map_map]
              refine List.map_congr_left ?_
              intro r _
              simp [Leaf.moved, Leaf.offset, memberStem_append, String.append_assoc,
                Nat.add_assoc]

theorem HasLeaf.moved {l : Layout} {r : Leaf} (h : l.HasLeaf "" 0 r) (stem : String)
    (base : Nat) : l.HasLeaf stem base (r.moved stem base) := by
  rw [hasLeaf_iff, leavesFrom_eq_map_moved]
  exact List.mem_map_of_mem (hasLeaf_iff.mp h)

theorem forall_row_iff {l : Layout} {P : Row → Prop} :
    (∀ r ∈ l.table.rows, P r) ↔ ∀ r, l.HasLeaf "" 0 r → P r.row := by
  rw [← map_row_leaves, List.forall_mem_map]
  exact forall_congr' fun r => by rw [hasLeaf_iff, leaves]

end Layout

end StructureLayout
