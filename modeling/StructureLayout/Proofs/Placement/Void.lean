import StructureLayout.Proofs.Placement.DeclaredOffset
import StructureLayout.Proofs.Placement.Prefix

/-!
# Nothing in a sequence

The declaration `void` places nothing.  It is seen, though, by the declaration before it, and
stands there for the end of the sequence: it ends a run of flags, and an alignment directive finds
nothing to align.  Everywhere else it can be put in or left out.
-/

namespace StructureLayout

/-- Whether it matters to the first declaration that nothing stands between it and the second. -/
def Declaration.Meets (d e : Declaration) : Prop :=
  d.isFlag = true ∧ e.isFlag = true ∨ d = .alignNext ∧ e.isVoid = false

namespace Placement

variable {space : AddressSpace} {options : Options} {s t : Placement}

/-- What does not meet its successor is placed as at the end of the sequence. -/
theorem place_void_of_not_meets {d e : Declaration} (h : ¬d.Meets e) :
    s.place space options d .void = s.place space options d e := by
  cases d with
  | flag b =>
      have he : e.isFlag = Declaration.void.isFlag := by
        simpa [Declaration.Meets, Declaration.isFlag] using h
      rw [place, place, placeFlag, placeFlag, he]
  | alignNext =>
      cases e with
      | void => rfl
      | _ => exact absurd (Or.inr ⟨rfl, rfl⟩) h
  | _ => rfl

theorem placeBefore_void {next : Declaration} {front back : List Declaration}
    (h : ∀ d ∈ front.getLast?, ¬d.Meets (back.headD next)) :
    s.placeBefore space options next (front ++ .void :: back) =
      s.placeBefore space options next (front ++ back) := by
  have hfront : s.placeBefore space options .void front =
      s.placeBefore space options (back.headD next) front :=
    placeBefore_congr_next fun d hd _ => place_void_of_not_meets (h d hd)
  -- the step of the void itself keeps the state
  rw [placeBefore_append, placeBefore_append, List.headD_cons, hfront]
  rfl

/-- In view of the end a directive is refused. -/
theorem not_step_alignNext_void : ¬Step space options s .alignNext .void t := by
  intro h
  cases h with
  | alignNext haligned _ => cases haligned

theorem ne_ok_of_alignNext_void {next : Declaration} {front back : List Declaration}
    (h : front.getLast? = some .alignNext) :
    s.placeBefore space options next (front ++ .void :: back) ≠ .ok t := by
  obtain ⟨front, rfl⟩ := List.getLast?_eq_some_iff.mp h
  intro hrun
  rw [placeBefore_append] at hrun
  obtain ⟨u, hfront, -⟩ := bind_eq_ok_iff.mp hrun
  obtain ⟨v, -, hstep⟩ := placeBefore_concat_eq_ok_iff.mp hfront
  exact not_step_alignNext_void hstep

/-- A flag behind a `void` starts a word right after that of the flag in front of it. -/
theorem exists_words_of_void {next : Declaration} {front back : List Declaration} {b c : Flag}
    (hb : front.getLast? = some (.flag b)) (hc : back.head? = some (.flag c))
    (h : s.placeBefore space options next (front ++ .void :: back) = .ok t) :
    ∃ d ∈ t.entries, ∃ e ∈ t.entries, d.name = b.name ∧ e.name = c.name ∧
      e.offset = d.offset + options.bitWord.bytes := by
  obtain ⟨front, rfl⟩ := List.getLast?_eq_some_iff.mp hb
  obtain ⟨back, rfl⟩ := List.head?_eq_some_iff.mp hc
  rw [placeBefore_append, List.headD_cons] at h
  obtain ⟨u, hfront, h⟩ := bind_eq_ok_iff.mp h
  obtain ⟨r, hrun, hb⟩ := placeBefore_concat_eq_ok_iff.mp hfront
  obtain ⟨v, hvoid, h⟩ := placeBefore_cons_eq_ok_iff.mp h
  obtain ⟨w, hc, hrest⟩ := placeBefore_cons_eq_ok_iff.mp h
  cases hvoid
  -- no flag is in view of the first one, so its word is full
  have hcloses : r.closesWord options b .void = true := by simp [closesWord, Declaration.isFlag]
  cases hb with
  | flag _ =>
      have hready : (r.withFlag options b .void).WordReady options (.flag c) :=
        .of_none (open?_withFlag_of_closes hcloses)
      obtain ⟨e, he, hname, hoffset⟩ := hc.lead hready c.name rfl
      have hentries := entries_suffix_of_placeBefore hrest
      refine ⟨.flag b r.currentWord.offset options.bitWord (r.bitFor b), ?_, e, hentries.mem he,
        rfl, hname, ?_⟩
      · exact hentries.mem (hc.entries_suffix.mem List.mem_cons_self)
      · rw [hoffset, cursor_withFlag_of_closes hcloses]
        rfl

end Placement

namespace Layout

variable {options : Options} {name : String} {front back : List Declaration}

theorem compileIn_void {space : AddressSpace}
    (h : ∀ d ∈ front.getLast?, ∀ e ∈ back.head?, ¬d.Meets e) :
    compileIn space options name (front ++ .void :: back) =
      compileIn space options name (front ++ back) := by
  have hmeets : ∀ d ∈ front.getLast?, ¬d.Meets (back.headD .void) := by
    intro d hd
    cases back with
    | nil => simp [Declaration.Meets, Declaration.isFlag, Declaration.isVoid]
    | cons e back => exact h d hd e rfl
  rw [compileIn, compileIn, Placement.placeAll_eq_placeBefore, Placement.placeAll_eq_placeBefore,
    Placement.placeBefore_void hmeets]

/-- With a `void` put in, a sequence has the same layout or is refused for the same reason, except
behind an alignment directive and between two flags.  Behind a directive it is always refused, and
between flags the second flag starts the word after that of the first. -/
theorem compile_void (options : Options) (name : String) (front back : List Declaration) :
    ((∀ d ∈ front.getLast?, ∀ e ∈ back.head?, ¬d.Meets e) →
      compile options name (front ++ .void :: back) = compile options name (front ++ back)) ∧
      (front.getLast? = some .alignNext →
        ∃ x, compile options name (front ++ .void :: back) = .error (.placement name x)) ∧
      ∀ b c l, front.getLast? = some (.flag b) → back.head? = some (.flag c) →
        compile options name (front ++ .void :: back) = .ok l →
          ∃ offset, l.leadOffset? (.flag b) = some offset ∧
            l.leadOffset? (.flag c) = some (offset + options.bitWord.bytes) := by
  refine ⟨fun h => compileIn_void h, fun h => ?_, fun b c l hb hc hl => ?_⟩
  · exact exists_placementError fun s => Placement.ne_ok_of_alignNext_void h
  · obtain ⟨t, hrun, -, rfl⟩ := compileIn_eq_ok_iff.mp hl
    obtain ⟨d, hd, e, he, hdname, hename, hoffset⟩ := Placement.exists_words_of_void hb hc hrun
    have hdistinct := distinctNames_of_run hrun
    refine ⟨d.offset, ?_, ?_⟩
    · exact (leadOffset?_ofPlacement_eq_some_iff hdistinct).mpr
        ⟨d, hd, congrArg some hdname.symm, rfl⟩
    · exact (leadOffset?_ofPlacement_eq_some_iff hdistinct).mpr
        ⟨e, he, congrArg some hename.symm, hoffset⟩

def gainField : Declaration := .field { name := "gain", content := .primitive .float }

def onFlag : Flag := { name := "on" }

def offFlag : Flag := { name := "off" }

/-- Between a flag and a field nothing changes; a directive loses its field, and of two flags in
one word the second gets a word of its own. -/
theorem compile_void_exceptions :
    compile {} "sample" ([.flag onFlag] ++ .void :: [gainField]) =
        compile {} "sample" ([.flag onFlag] ++ [gainField]) ∧
      (∃ l, compile {} "sample" ([.pad 1, .alignNext] ++ [gainField]) = .ok l) ∧
      (∃ x, compile {} "sample" ([.pad 1, .alignNext] ++ .void :: [gainField]) =
        .error (.placement "sample" x)) ∧
      (∃ l, compile {} "sample" ([.flag onFlag] ++ [.flag offFlag]) = .ok l ∧
        l.leadOffset? (.flag offFlag) = some 0) ∧
      ∃ l, compile {} "sample" ([.flag onFlag] ++ .void :: [.flag offFlag]) = .ok l ∧
        l.leadOffset? (.flag offFlag) = some 4 := by
  refine ⟨?_, ⟨_, rfl⟩, ?_, ⟨_, rfl, by decide +kernel⟩, ?_⟩
  · refine (compile_void {} "sample" [.flag onFlag] [gainField]).1 ?_
    simp [Declaration.Meets, Declaration.isFlag, gainField]
  · exact (compile_void {} "sample" [.pad 1, .alignNext] [gainField]).2.1 rfl
  · obtain ⟨l, hl, hon⟩ : ∃ l,
        compile {} "sample" ([.flag onFlag] ++ .void :: [.flag offFlag]) = .ok l ∧
          l.leadOffset? (.flag onFlag) = some 0 := ⟨_, rfl, by decide +kernel⟩
    obtain ⟨offset, hfirst, hsecond⟩ :=
      (compile_void {} "sample" [.flag onFlag] [.flag offFlag]).2.2 onFlag offFlag l rfl rfl hl
    cases hon.symm.trans hfirst
    exact ⟨l, hl, hsecond⟩

end Layout

end StructureLayout
