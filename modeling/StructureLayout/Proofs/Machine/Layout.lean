import StructureLayout.Proofs.Machine.Image
import StructureLayout.Proofs.Table.Order
import StructureLayout.Lint
import Mathlib.Data.List.SplitBy

/-!
# Layouts on a machine

Compilation forms no number that is out of range, and leaves none to be formed by what uses its
result: the ends and elements of entries, the findings of lint, the field table, and accesses.
-/

namespace StructureLayout

namespace Machine

/-! ## Lint -/

def usedBits? (run : List (Entry Layout)) : Option Nat :=
  run.foldlM (fun used e => (narrow.add? (e.bit?.getD 0) 1).map (max used)) 0

/-- What is found is reported without arithmetic. -/
def runFindings? (wordBits : Nat) : List (Entry Layout) → Option (List Lint.Finding)
  | [] => some []
  | e :: rest =>
    match e with
    | .field f _ _ _ => do
      let excess ← mod? e.offset (max 1 f.content.alignment)
      return if excess = 0 then [] else Lint.alignmentFindings f e
    | .flag _ _ _ _ => do
      let used ← usedBits? (e :: rest)
      return if used < wordBits then Lint.wordFindings wordBits e (e :: rest) else []

def sizeFindings? (l : Layout) : Option (List Lint.Finding) := do
  let excess ← mod? l.totalSize l.options.bitWord.bytes
  return if excess = 0 then [] else Lint.sizeFindings l

def lint? (l : Layout) : Option (List Lint.Finding) := do
  let wordBits ← bits? l.options.bitWord
  let findings ← (l.entries.splitBy Lint.sharesWord).mapM (runFindings? wordBits)
  return findings.flatten ++ (← sizeFindings? l)

variable {options : Options} {n : String} {ds : List Declaration} {l : Layout} {word : Width}

theorem add?_bit_of_sized {e : Entry Layout} (h : e.Sized word) :
    narrow.add? (e.bit?.getD 0) 1 = some (e.bit?.getD 0 + 1) := by
  cases e with
  | field f offset size scaling => rfl
  | flag b offset w bit => exact add?_one_of_lt h.2

theorem usedBits?_eq {run : List (Entry Layout)} (h : ∀ e ∈ run, e.Sized word) :
    usedBits? run = some (Lint.usedBits run) := by
  apply foldlM_eq_some
  intro used e he
  rw [add?_bit_of_sized (h e he)]
  rfl

theorem runFindings?_eq {run : List (Entry Layout)} (h : ∀ e ∈ run, e.Sized word)
    (wordBits : Nat) : runFindings? wordBits run = some (Lint.runFindings wordBits run) := by
  cases run with
  | nil => rfl
  | cons e rest =>
      cases e with
      | field f offset size scaling =>
          have halignment : 0 < max 1 f.content.alignment := Nat.le_max_left 1 _
          rw [runFindings?, mod?_of_pos halignment, Option.bind_eq_bind, Option.bind_some,
            Lint.runFindings, Lint.alignmentFindings]
          split <;> simp_all
      | flag b offset w bit =>
          rw [runFindings?, usedBits?_eq h, Option.bind_eq_bind, Option.bind_some,
            Lint.runFindings, Lint.wordFindings]
          split <;> simp_all

theorem sizeFindings?_eq (l : Layout) : sizeFindings? l = some (Lint.sizeFindings l) := by
  rw [sizeFindings?, mod?_of_pos l.options.bitWord.bytes_pos, Option.bind_eq_bind,
    Option.bind_some, Lint.sizeFindings]
  split <;> simp_all

theorem lint?_eq (h : ∀ e ∈ l.entries, e.Sized word) : lint? l = some l.lint := by
  have hruns : (l.entries.splitBy Lint.sharesWord).mapM (runFindings? l.options.bitWord.bits) =
      some ((l.entries.splitBy Lint.sharesWord).map
        (Lint.runFindings l.options.bitWord.bits)) := by
    apply Layout.mapM_eq_some_map
    intro run hrun
    apply runFindings?_eq
    intro e he
    apply h
    rw [← List.flatten_splitBy Lint.sharesWord l.entries]
    exact List.mem_flatten_of_mem hrun he
  rw [lint?, bits?_eq, Option.bind_eq_bind, Option.bind_some, hruns, Option.bind_eq_bind,
    Option.bind_some, sizeFindings?_eq, Layout.lint, List.flatMap_def]
  rfl

/-! ## Uses of a layout -/

/-- All that is computed from a layout is computed on a machine as it is on all numbers. -/
structure Serves (l : Layout) : Prop where
  finish : ∀ m : Layout, m.Within l → ∀ e ∈ m.entries, finish? e = some e.finish
  elements : ∀ m : Layout, m.Within l → ∀ e ∈ m.entries, elements? e = some e.elements
  lint : lint? l = some l.lint
  /-- Besides the numbers of elements a table takes only these sums and products. -/
  table : l.tableIn? .wide = some l.table
  perform : ∀ image access, perform l image access = some (l.perform image access)

theorem table_of_compiled (h : l.Compiled) : l.tableIn? .wide = some l.table := by
  have hfits : AddressSpace.wide.fits (0 + l.totalSize) = true := by
    rw [Nat.zero_add]
    exact h.fits_totalSize
  rw [Layout.tableIn?, h.rowsIn?_eq "" 0 hfits]
  rfl

theorem serves_of_compiled (h : l.Compiled) : Serves l := by
  have hcompile (m : Layout) (hm : m.Within l) :
      ∃ options n ds, Layout.compile options n ds = .ok m := by
    cases h.of_within hm with
    | compile hm _ => exact ⟨_, _, _, hm⟩
  obtain ⟨options, n, ds, hl⟩ := hcompile l (.refl l)
  refine ⟨?_, ?_, ?_, table_of_compiled h, ?_⟩
  · intro m hm e he
    obtain ⟨_, _, _, hm⟩ := hcompile m hm
    exact finish?_of_compile hm he
  · intro m hm e he
    obtain ⟨_, _, _, hm⟩ := hcompile m hm
    exact elements?_of_compile hm he
  · exact lint?_eq (Layout.sized_of_compileIn hl)
  · intro image access
    exact perform_eq hl image access

/-- No operation that is out of range is met in a compilation, nor in the use of its result. -/
theorem never_stops :
    (∀ options name ds, compile options name ds = liftM (Layout.compile options name ds)) ∧
      ∀ l : Layout, l.Compiled → Serves l :=
  ⟨compile_eq, fun _ => serves_of_compiled⟩

/-- A word that is open at the end of the address space when an offset is found declared. -/
def edgeDeclarations : List Declaration :=
  [.pad 0xFFFFFFFFFFFFFFFD, .flag { name := "low" }, .flag { name := "late", offset := some 5 }]

theorem never_stops_at_edge :
    finish? (.flag { name := "low" } 0xFFFFFFFFFFFFFFFD .four 0) = none ∧
      compile {} "edge" edgeDeclarations =
        liftM (.error (.placement "edge" (.paddingOverlap "late" 5)) : Except LayoutError Layout) ∧
      Layout.bank.Compiled ∧ lint? Layout.bank = some Layout.bank.lint ∧
      perform Layout.bank Layout.bank.blankImage (.store (.flag "ok" true)) =
        some (.ok .stored, 1 :: List.replicate 14 0) := by
  have hserves := never_stops.2 Layout.bank Layout.bank_compiled
  refine ⟨rfl, ?_, Layout.bank_compiled, hserves.lint, ?_⟩
  · rw [never_stops.1 {} "edge" edgeDeclarations]
    rfl
  · rw [hserves.perform]
    rfl

end Machine

end StructureLayout
