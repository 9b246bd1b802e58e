import StructureLayout.Proofs.Placement.Contents
import StructureLayout.Proofs.Placement.Overflow
import StructureLayout.Proofs.Placement.Partition

/-!
# Prefixes of a sequence

A sequence that has a layout keeps its places when more declarations are appended.  The cut
shows only in the last declaration before it, which is placed in view of another one: a word
of flags that the appended declarations would go on with is closed at the cut.
-/

namespace StructureLayout

namespace Placement

variable {space : AddressSpace} {options : Options} {s t : Placement}

/-! ## Another declaration in view -/

/-- Of the declaration in view a flag asks only whether it is a flag too. -/
theorem closesWord_congr {b : Flag} {next other : Declaration}
    (h : next.isFlag = other.isFlag) :
    s.closesWord options b next = s.closesWord options b other := by
  rw [closesWord, closesWord, h]

theorem withFlag_congr {b : Flag} {next other : Declaration} (h : next.isFlag = other.isFlag) :
    s.withFlag options b next = s.withFlag options b other := by
  rw [withFlag, withFlag, closesWord_congr h]

theorem AdmitsFlag.congr {b : Flag} {next other : Declaration}
    (h : s.AdmitsFlag space options b next) (hflag : next.isFlag = other.isFlag) :
    s.AdmitsFlag space options b other :=
  { h with fits := by rw [← closesWord_congr hflag]; exact h.fits }

theorem Step.change_next {d next other : Declaration} (h : Step space options s d next t)
    (hd : d ≠ .alignNext) (hflag : d.isFlag = true → next.isFlag = other.isFlag) :
    Step space options s d other t := by
  cases h with
  | field hadmits => exact .field hadmits
  | flag hadmits =>
      rw [withFlag_congr (hflag rfl)]
      exact .flag (hadmits.congr (hflag rfl))
  | pad hfits => exact .pad hfits
  | alignNext _ _ => exact absurd rfl hd
  | repetition hcount hadmits => exact .repetition hcount hadmits
  | void => exact .void

/-! ## Closing a word -/

/-- The state with its open word passed. -/
def closed (options : Options) (s : Placement) : Placement :=
  { s with cursor := s.frontier options, open? := none }

theorem closed_of_none (h : s.open? = none) : s.closed options = s := by
  rw [closed, frontier_of_none h, ← h]

theorem withFlag_void (s : Placement) (b : Flag) (next : Declaration) :
    s.withFlag options b .void = (s.withFlag options b next).closed options := by
  have hcloses : s.closesWord options b .void = true := by simp [closesWord, Declaration.isFlag]
  rw [closed, frontier_withFlag, withFlag, hcloses]
  rfl

theorem Step.open?_eq_none {d next : Declaration} (h : Step space options s d next t)
    (hready : s.WordReady options d) (hd : d.isFlag = false) : t.open? = none := by
  have hs := hready.open?_eq_none hd
  cases h with
  | flag _ => cases hd
  | repetition _ _ => exact (withFields_open? s _).trans hs
  | _ => exact hs

theorem Step.close {d next : Declaration} (h : Step space options s d next t)
    (hready : s.WordReady options d) (hd : d ≠ .alignNext)
    (hfits : space.fits (t.frontier options) = true) :
    Step space options s d .void (t.closed options) := by
  cases hflag : d.isFlag with
  | false =>
      rw [closed_of_none (h.open?_eq_none hready hflag)]
      exact h.change_next hd fun hflag' => absurd hflag' (hflag ▸ Bool.false_ne_true)
  | true =>
      cases h with
      | flag hadmits =>
          rw [frontier_withFlag] at hfits
          rw [← withFlag_void]
          exact .flag { hadmits with fits := fun _ => hfits }
      | _ => cases hflag

/-! ## Runs -/

theorem Step.frontier_le {d next : Declaration} (h : Step space options s d next t)
    (hready : s.WordReady options d) : s.frontier options ≤ t.frontier options := by
  cases hflag : d.isFlag with
  | false =>
      rw [frontier_of_none (hready.open?_eq_none hflag),
        frontier_of_none (h.open?_eq_none hready hflag)]
      exact h.cursor_le hready
  | true =>
      cases h with
      | flag _ =>
          rw [frontier_withFlag]
          exact frontier_le options s
      | _ => cases hflag

theorem frontier_le_of_placeBefore {next : Declaration} {ds : List Declaration}
    (hready : s.WordReady options (ds.headD next))
    (h : s.placeBefore space options next ds = .ok t) :
    s.frontier options ≤ t.frontier options := by
  refine (placeBefore_invariant
    (P := fun u d => s.frontier options ≤ u.frontier options ∧ u.WordReady options d) ?_
    ⟨Nat.le_refl _, hready⟩ h).1
  rintro u v d e ⟨hle, hu⟩ hstep
  exact ⟨hle.trans (hstep.frontier_le hu), hstep.wordReady hu⟩

theorem wordReady_of_placeBefore {next : Declaration} {ds : List Declaration}
    (hready : s.WordReady options (ds.headD next))
    (h : s.placeBefore space options next ds = .ok t) : t.WordReady options next :=
  placeBefore_invariant (P := fun u d => u.WordReady options d)
    (fun hu hstep => hstep.wordReady hu) hready h

/-- A run that is cut where it may end closes its word and changes in nothing else. -/
theorem placeBefore_close {next : Declaration} {ds : List Declaration}
    (hs : s.open? = none) (h : s.placeBefore space options next ds = .ok t)
    (hlast : ds.getLast? ≠ some .alignNext) (hfits : space.fits (t.frontier options) = true) :
    s.placeBefore space options .void ds = .ok (t.closed options) := by
  rcases List.eq_nil_or_concat' ds with rfl | ⟨front, d, rfl⟩
  · cases h
    rw [closed_of_none hs]
    rfl
  · obtain ⟨u, hfront, hstep⟩ := placeBefore_concat_eq_ok_iff.mp h
    have hready := wordReady_of_placeBefore (.of_none hs) hfront
    have hd : d ≠ .alignNext := by simpa using hlast
    exact placeBefore_concat_eq_ok_iff.mpr ⟨u, hfront, hstep.close hready hd hfits⟩

end Placement

namespace Layout

variable {options : Options} {name : String} {ds es : List Declaration} {l : Layout}

theorem exists_layout_of_append (hlast : ds.getLast? ≠ some .alignNext)
    (h : compile options name (ds ++ es) = .ok l) :
    ∃ m rest, compile options name ds = .ok m ∧ l.entries = m.entries ++ rest ∧
      m.totalSize ≤ l.totalSize := by
  obtain ⟨t, hrun, hfaults, rfl⟩ := compileIn_eq_ok_iff.mp h
  have hfits :=
    ((Placement.placeBefore_eq_ok_iff_unbounded (.of_none rfl) AddressSpace.fits_wide_zero).mp
      hrun).2
  have hend := (frontier_of_run hrun).2
  rw [Placement.placeBefore_append] at hrun
  obtain ⟨u, hds, hes⟩ := bind_eq_ok_iff.mp hrun
  have hready := Placement.wordReady_of_placeBefore (.of_none rfl) hds
  have hle : u.frontier options ≤ t.cursor :=
    hend ▸ Placement.frontier_le_of_placeBefore hready hes
  have hclosed := Placement.placeBefore_close rfl hds hlast (AddressSpace.fits_of_le hle hfits)
  have hlisted := Placement.faultsListed_of_placeBefore hds rfl
  have hsuffix := Placement.entries_suffix_of_placeBefore hes
  have hnone := hlisted.eq_nil_of_suffix (Placement.faultsListed_of_placeBefore hes hlisted)
    hsuffix hfaults
  obtain ⟨later, hlater⟩ := hsuffix
  refine ⟨ofPlacement options name (u.closed options), later.reverse,
    compileIn_eq_ok_iff.mpr ⟨_, hclosed, hnone, rfl⟩, ?_, hle⟩
  rw [ofPlacement, ← hlater, List.reverse_append]
  rfl

/-- What the layout of a longer sequence begins with is the layout of the shorter one, which
ends no later. -/
theorem compile_of_append (hlast : ds.getLast? ≠ some .alignNext)
    (h : compile options name (ds ++ es) = .ok l) :
    ∃ m rest, compile options name ds = .ok m ∧ l.entries = m.entries ++ rest ∧
      m.entries.map Entry.declaration = ds.flatMap (Declaration.contents .wide) ∧
      rest.map Entry.declaration = es.flatMap (Declaration.contents .wide) ∧
      m.totalSize ≤ l.totalSize := by
  obtain ⟨m, rest, hm, hentries, hsize⟩ := exists_layout_of_append hlast h
  have hcontents := contents_of_compileIn h
  have hfront : m.entries.map Entry.declaration = ds.flatMap (Declaration.contents .wide) :=
    contents_of_compileIn hm
  rw [hentries, List.map_append, List.flatMap_append, hfront] at hcontents
  exact ⟨m, rest, hm, hentries, hfront, List.append_cancel_left hcontents, hsize⟩

/-- A byte and two flags of a word, of which the second is the last before the cut. -/
def beforeCut : List Declaration :=
  [.field { name := "mode", content := .primitive (.integer ⟨false, .one⟩) }, .alignNext,
    .flag { name := "on" }, .flag { name := "off", bit := some 7 }]

/-- The word goes on behind the cut. -/
def afterCut : List Declaration :=
  [.flag { name := "ok" }, .repetition ⟨{ name := "gain", content := .primitive .float }, 2⟩]

theorem compile_of_append_cut :
    beforeCut.getLast? ≠ some .alignNext ∧
      ∃ l, compile {} "sample" (beforeCut ++ afterCut) = .ok l ∧
        ∃ m rest, compile {} "sample" beforeCut = .ok m ∧ l.entries = m.entries ++ rest ∧
          m.entries.map Entry.declaration = beforeCut.flatMap (Declaration.contents .wide) ∧
          rest.map Entry.declaration = afterCut.flatMap (Declaration.contents .wide) ∧
          m.totalSize ≤ l.totalSize := by
  have hlast : beforeCut.getLast? ≠ some .alignNext := by simp [beforeCut]
  obtain ⟨l, hl⟩ : ∃ l, compile {} "sample" (beforeCut ++ afterCut) = .ok l :=
    exists_eq_ok_of_isOk (by decide +kernel)
  exact ⟨hlast, l, hl, compile_of_append hlast hl⟩

end Layout

end StructureLayout
