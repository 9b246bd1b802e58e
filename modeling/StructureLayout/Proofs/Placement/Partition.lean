import StructureLayout.Proofs.Placement.Tiling

/-!
# The partition of a layout

Every byte of a layout belongs to one field, to one word of flags, or to the padding that a
directive inserted.  The tiling of the finished placement says so; here it is read off for
the layout, whose entries stand in the order of their offsets.
-/

namespace StructureLayout

theorem uncoveredBelow_reverse (es : List (Entry Layout)) (n : Nat) :
    uncoveredBelow es.reverse n = uncoveredBelow es n := by
  simp only [uncoveredBelow, List.any_reverse]

theorem fieldBytes_reverse (es : List (Entry Layout)) :
    fieldBytes es.reverse = fieldBytes es := by
  rw [fieldBytes, List.filter_reverse, List.map_reverse, List.sum_reverse, fieldBytes]

theorem length_wordOffsets_reverse (es : List (Entry Layout)) :
    (wordOffsets es.reverse).length = (wordOffsets es).length := by
  rw [wordOffsets, List.filter_reverse, List.map_reverse]
  exact (List.reverse_perm _).dedup.length_eq

namespace Entry

/-- Two entries have no byte in common unless they are different flags of one word. -/
def Apart (d e : Entry Layout) : Prop :=
  (∃ i j, d.bit? = some i ∧ e.bit? = some j ∧ d.offset = e.offset ∧ i ≠ j) ∨
    ∀ byte, ¬(d.covers byte = true ∧ e.covers byte = true)

theorem Precedes.apart {d e : Entry Layout} (h : d.Precedes e) : d.Apart e := by
  rcases h with ⟨i, j, hi, hj, hoffset, hlt⟩ | hfinish
  · exact Or.inl ⟨i, j, hi, hj, hoffset, hlt.ne⟩
  · right
    rintro byte ⟨hd, he⟩
    have hhigh := (covers_iff.mp hd).2
    have hlow := (covers_iff.mp he).1
    omega

theorem Precedes.finish_le {d e : Entry Layout} (h : d.Precedes e)
    (hbit : d.bit? = none ∨ e.bit? = none ∨ d.offset ≠ e.offset) : d.finish ≤ e.offset := by
  rcases h with ⟨i, j, hi, hj, hoffset, _⟩ | hfinish
  · rcases hbit with hd | he | hne
    · cases hd.symm.trans hi
    · cases he.symm.trans hj
    · exact absurd hoffset hne
  · exact hfinish

/-- Flags in one word end at the same byte. -/
theorem Sized.finish_eq {word : Width} {d e : Entry Layout} {i j : Nat} (hd : d.Sized word)
    (he : e.Sized word) (hi : d.bit? = some i) (hj : e.bit? = some j)
    (hoffset : d.offset = e.offset) : d.finish = e.finish := by
  rw [hd.finish_of_bit? (by simp [hi]), he.finish_of_bit? (by simp [hj]), hoffset]

theorem Precedes.bit_lt {word : Width} {d e : Entry Layout} {i j : Nat} (h : d.Precedes e)
    (hd : d.Sized word) (hi : d.bit? = some i) (hj : e.bit? = some j)
    (hoffset : d.offset = e.offset) : i < j := by
  rcases h with ⟨i', j', hi', hj', _, hlt⟩ | hle
  · cases hi.symm.trans hi'
    cases hj.symm.trans hj'
    exact hlt
  · have hlt := hd.offset_lt_finish
    omega

/-- The scan of the entries after one that ends at `finish` and, if it is a flag, has the
given word and bit. -/
def disjointFrom (finish : Nat) (flag? : Option (Nat × Nat)) : List (Entry Layout) → Bool
  | [] => true
  | e :: es =>
    match e.bit?, flag? with
    | some bit, some (offset, last) =>
      if offset = e.offset then
        decide (last < bit) && disjointFrom finish (some (offset, bit)) es
      else
        decide (finish ≤ e.offset) && disjointFrom e.finish (some (e.offset, bit)) es
    | bit?, _ =>
      decide (finish ≤ e.offset) &&
        disjointFrom e.finish (bit?.map fun bit => (e.offset, bit)) es

/-- The check that compilation makes of its own result: flags in one word have increasing
bits, and every other entry stands past the one before. -/
def allDisjoint (entries : List (Entry Layout)) : Bool := disjointFrom 0 none entries

theorem disjointFrom_none (finish : Nat) (e : Entry Layout) (es : List (Entry Layout)) :
    disjointFrom finish none (e :: es) = (decide (finish ≤ e.offset) &&
      disjointFrom e.finish (e.bit?.map fun bit => (e.offset, bit)) es) := by
  cases hbit : e.bit? <;> simp [disjointFrom, hbit]

theorem disjointFrom_of_pairwise {word : Width} {d : Entry Layout} {es : List (Entry Layout)}
    (hsized : ∀ e ∈ d :: es, e.Sized word) (hordered : (d :: es).Pairwise Precedes) :
    disjointFrom d.finish (d.bit?.map fun bit => (d.offset, bit)) es = true := by
  induction es generalizing d with
  | nil => rfl
  | cons e es ih =>
      obtain ⟨hd, hrest⟩ := List.pairwise_cons.mp hordered
      have hnext := ih (fun c hc => hsized c (List.mem_cons_of_mem d hc)) hrest
      have hde : d.Precedes e := hd e List.mem_cons_self
      cases hdbit : d.bit? with
      | none =>
          have hle := hde.finish_le (Or.inl hdbit)
          rw [Option.map_none, disjointFrom_none, decide_eq_true hle, hnext]
          rfl
      | some i =>
          rw [Option.map_some]
          cases hebit : e.bit? with
          | none =>
              have hle := hde.finish_le (Or.inr (Or.inl hebit))
              rw [hebit, Option.map_none] at hnext
              simp [disjointFrom, hebit, hle, hnext]
          | some j =>
              rw [hebit, Option.map_some] at hnext
              by_cases hoffset : d.offset = e.offset
              · have hdsized := hsized d List.mem_cons_self
                have hesized := hsized e (List.mem_cons_of_mem d List.mem_cons_self)
                have hfinish := hdsized.finish_eq hesized hdbit hebit hoffset
                have hlt := hde.bit_lt hdsized hdbit hebit hoffset
                simp [disjointFrom, hebit, hoffset, hlt, hfinish, hnext]
              · have hle := hde.finish_le (Or.inr (Or.inr hoffset))
                simp [disjointFrom, hebit, hoffset, hle, hnext]

theorem allDisjoint_of_pairwise {word : Width} {es : List (Entry Layout)}
    (hsized : ∀ e ∈ es, e.Sized word) (hordered : es.Pairwise Precedes) :
    allDisjoint es = true := by
  cases es with
  | nil => rfl
  | cons e es =>
      have hrest := disjointFrom_of_pairwise hsized hordered
      rw [allDisjoint, disjointFrom_none, decide_eq_true (Nat.zero_le _), hrest]
      rfl

end Entry

namespace Layout

/-- The bytes of a layout are divided among its entries and the given padding. -/
structure Partitioned (l : Layout) (padding : List Nat) : Prop where
  field_size : ∀ f offset size scaling, Entry.field f offset size scaling ∈ l.entries →
    size = f.content.size * f.dimensions.prod ∧ 0 < size
  flag_size : ∀ e ∈ l.entries, ∀ bit ∈ e.bit?,
    e.size = l.options.bitWord.bytes ∧ bit < l.options.bitWord.bits
  /-- An entry stands past every one before it, or both are flags of one word. -/
  ordered : l.entries.Pairwise Entry.Precedes
  inside : ∀ e ∈ l.entries, e.finish ≤ l.totalSize
  /-- The bytes without an entry are those of the padding, in order. -/
  uncovered : uncoveredBelow l.entries l.totalSize = padding
  total : l.totalSize = fieldBytes l.entries +
    l.options.bitWord.bytes * (wordOffsets l.entries).length + padding.length
  apart : l.entries.Pairwise Entry.Apart
  checked : Entry.allDisjoint l.entries = true

section Compiled

variable {space : AddressSpace} {options : Options} {name : String} {ds : List Declaration}
  {l : Layout}

theorem options_of_compileIn (h : compileIn space options name ds = .ok l) :
    l.options = options := by
  obtain ⟨s, _, _, rfl⟩ := compileIn_eq_ok_iff.mp h
  rfl

theorem sized_of_compileIn (h : compileIn space options name ds = .ok l) :
    ∀ e ∈ l.entries, e.Sized options.bitWord := by
  obtain ⟨s, hrun, _, rfl⟩ := compileIn_eq_ok_iff.mp h
  intro e he
  exact (Placement.tiling_of_run hrun).1.sized e (List.mem_reverse.mp he)

theorem ordered_of_compileIn (h : compileIn space options name ds = .ok l) :
    l.entries.Pairwise Entry.Precedes := by
  obtain ⟨s, hrun, _, rfl⟩ := compileIn_eq_ok_iff.mp h
  exact List.pairwise_reverse.mpr (Placement.tiling_of_run hrun).1.ordered

theorem frontier_of_run {s : Placement}
    (hrun : Placement.placeBefore space options .void {} ds = .ok s) :
    s.open? = none ∧ s.frontier options = s.cursor := by
  have hopen := (Placement.tiling_of_run hrun).2.open?_eq_none rfl
  exact ⟨hopen, Placement.frontier_of_none hopen⟩

theorem finish_le_of_compileIn (h : compileIn space options name ds = .ok l) :
    ∀ e ∈ l.entries, e.finish ≤ l.totalSize := by
  obtain ⟨s, hrun, _, rfl⟩ := compileIn_eq_ok_iff.mp h
  intro e he
  exact (Placement.tiling_of_run hrun).1.finish_le_cursor (frontier_of_run hrun).1 e
    (List.mem_reverse.mp he)

/-- The bytes that the directives of a sequence insert in its layout. -/
def paddingBytes (options : Options) (ds : List Declaration) : List Nat :=
  Placement.insertedBytes .wide options .void {} ds

theorem compile_partitioned (h : compile options name ds = .ok l) :
    l.options = options ∧ l.Partitioned (paddingBytes options ds) := by
  have hoptions := options_of_compileIn h
  have hsized := sized_of_compileIn h
  have hordered := ordered_of_compileIn h
  refine ⟨hoptions, ?_, ?_, hordered, finish_le_of_compileIn h, ?_, ?_,
    hordered.imp Entry.Precedes.apart, Entry.allDisjoint_of_pairwise hsized hordered⟩
  · intro f offset size scaling he
    exact hsized _ he
  · intro e he bit hbit
    have hesized := hsized e he
    rw [hoptions]
    cases e with
    | field f offset size scaling => cases hbit
    | flag b offset word i =>
        cases hbit
        obtain ⟨rfl, hlt⟩ := hesized
        exact ⟨rfl, hlt⟩
  · obtain ⟨s, hrun, _, rfl⟩ := compileIn_eq_ok_iff.mp h
    have huncovered := (Placement.tiling_of_run hrun).1.uncovered
    rw [(frontier_of_run hrun).2] at huncovered
    exact (uncoveredBelow_reverse _ _).trans huncovered
  · obtain ⟨s, hrun, _, rfl⟩ := compileIn_eq_ok_iff.mp h
    have htotal := (Placement.tiling_of_run hrun).1.total
    rw [(frontier_of_run hrun).2] at htotal
    rw [ofPlacement, fieldBytes_reverse, length_wordOffsets_reverse]
    exact htotal

/-- A byte, padding up to the next word, three flags of which one skips bits, and an array
between padding. -/
def sampleDeclarations : List Declaration :=
  [.field { name := "mode", content := .primitive (.integer ⟨false, .one⟩) }, .alignNext,
    .flag { name := "on" }, .flag { name := "off", bit := some 31 }, .flag { name := "ok" },
    .pad 2, .field { name := "map", content := .primitive .float, dimensions := [2, 3] }]

theorem sampleDeclarations_partitioned :
    ∃ l, compile {} "sample" sampleDeclarations = .ok l ∧
      l.Partitioned (paddingBytes {} sampleDeclarations) ∧
        paddingBytes {} sampleDeclarations = [1, 2, 3, 12, 13] := by
  obtain ⟨l, hl⟩ : ∃ l, compile {} "sample" sampleDeclarations = .ok l := ⟨_, rfl⟩
  exact ⟨l, hl, (compile_partitioned hl).2, by decide +kernel⟩

end Compiled

end Layout

end StructureLayout
