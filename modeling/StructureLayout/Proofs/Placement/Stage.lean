import StructureLayout.Proofs.Placement.Tiling

/-!
# Stages of a run

A run goes through one stage for each declaration.  A stage has the declaration that is placed,
the one in view behind it, and the states before and after.
-/

namespace StructureLayout

structure Stage where
  before : Placement
  declaration : Declaration
  next : Declaration
  after : Placement

/-- The declarations of a sequence, each with the one in view behind it. -/
def inView (next : Declaration) (ds : List Declaration) : List (Declaration × Declaration) :=
  ds.zip (ds.tail ++ [next])

theorem inView_cons (next d : Declaration) (ds : List Declaration) :
    inView next (d :: ds) = (d, ds.headD next) :: inView next ds := by
  cases ds <;> rfl

namespace Placement

variable {space : AddressSpace} {options : Options} {s t u : Placement} {next d : Declaration}
  {ds : List Declaration} {g : Stage}

/-- The stages of a run, up to the first declaration that is refused. -/
def stages (space : AddressSpace) (options : Options) (next : Declaration) (s : Placement) :
    List Declaration → List Stage
  | [] => []
  | d :: ds =>
    match s.place space options d (ds.headD next) with
    | .error _ => []
    | .ok t => ⟨s, d, ds.headD next, t⟩ :: t.stages space options next ds

theorem stages_cons (h : Step space options s d (ds.headD next) u) :
    s.stages space options next (d :: ds) =
      ⟨s, d, ds.headD next, u⟩ :: u.stages space options next ds := by
  rw [stages, place_eq_ok_iff.mpr h]

theorem mem_stages_cons_iff :
    g ∈ s.stages space options next (d :: ds) ↔
      ∃ u, Step space options s d (ds.headD next) u ∧
        (g = ⟨s, d, ds.headD next, u⟩ ∨ g ∈ u.stages space options next ds) := by
  constructor
  · intro hg
    cases hplace : s.place space options d (ds.headD next) with
    | error e =>
        rw [stages, hplace] at hg
        cases hg
    | ok u =>
        have hstep := place_eq_ok_iff.mp hplace
        rw [stages_cons hstep] at hg
        exact ⟨u, hstep, List.mem_cons.mp hg⟩
  · rintro ⟨u, hstep, hg⟩
    rw [stages_cons hstep]
    exact List.mem_cons.mpr hg

theorem step_of_mem_stages (hg : g ∈ s.stages space options next ds) :
    Step space options g.before g.declaration g.next g.after := by
  induction ds generalizing s with
  | nil => cases hg
  | cons d ds ih =>
      obtain ⟨u, hstep, rfl | hg⟩ := mem_stages_cons_iff.mp hg
      · exact hstep
      · exact ih hg

/-- What every step keeps holds before every stage. -/
theorem before_of_mem_stages {P : Placement → Declaration → Prop}
    (hstep : ∀ {u v d e}, P u d → Step space options u d e v → P v e)
    (hs : P s (ds.headD next)) (hg : g ∈ s.stages space options next ds) :
    P g.before g.declaration := by
  induction ds generalizing s with
  | nil => cases hg
  | cons d ds ih =>
      obtain ⟨u, hplace, rfl | hg⟩ := mem_stages_cons_iff.mp hg
      · exact hs
      · exact ih (hstep hs hplace) hg

/-- The stages of the first declarations are stages of the whole sequence. -/
theorem mem_stages_append {es : List Declaration}
    (hg : g ∈ s.stages space options (es.headD next) ds) :
    g ∈ s.stages space options next (ds ++ es) := by
  induction ds generalizing s with
  | nil => cases hg
  | cons d ds ih =>
      obtain ⟨u, hstep, hrest⟩ := mem_stages_cons_iff.mp hg
      rw [← headD_append] at hstep hrest
      rw [List.cons_append]
      exact mem_stages_cons_iff.mpr ⟨u, hstep, hrest.imp id ih⟩

theorem insertedBytes_eq_flatMap (s : Placement) (ds : List Declaration) :
    s.insertedBytes space options next ds =
      (s.stages space options next ds).flatMap fun g =>
        List.range' g.before.cursor (insertedBy options g.before.cursor g.declaration g.next) := by
  induction ds generalizing s with
  | nil => rfl
  | cons d ds ih =>
      rw [insertedBytes, stages]
      cases s.place space options d (ds.headD next) with
      | error e => rfl
      | ok t =>
          dsimp only
          rw [List.flatMap_cons, ih]

theorem map_stages (h : s.placeBefore space options next ds = .ok t) :
    (s.stages space options next ds).map (fun g => (g.declaration, g.next)) =
      inView next ds := by
  induction ds generalizing s with
  | nil => rfl
  | cons d ds ih =>
      obtain ⟨u, hstep, hrest⟩ := placeBefore_cons_eq_ok_iff.mp h
      rw [stages_cons hstep, List.map_cons, ih hrest, inView_cons]

/-- The cursor goes on by what it goes on in the stages. -/
theorem cursor_eq_sum_stages {advance : Stage → Nat}
    (hadvance : ∀ g ∈ s.stages space options next ds,
      g.after.cursor = g.before.cursor + advance g)
    (h : s.placeBefore space options next ds = .ok t) :
    t.cursor = s.cursor + ((s.stages space options next ds).map advance).sum := by
  induction ds generalizing s with
  | nil =>
      cases h
      rfl
  | cons d ds ih =>
      obtain ⟨u, hstep, hrest⟩ := placeBefore_cons_eq_ok_iff.mp h
      rw [stages_cons hstep] at hadvance ⊢
      have hfirst : u.cursor = s.cursor + advance ⟨s, d, ds.headD next, u⟩ :=
        hadvance _ List.mem_cons_self
      rw [ih (fun g hg => hadvance g (List.mem_cons_of_mem _ hg)) hrest, hfirst, List.map_cons,
        List.sum_cons, Nat.add_assoc]

end Placement

end StructureLayout
