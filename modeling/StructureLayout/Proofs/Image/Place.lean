import StructureLayout.Proofs.Image.Update
import StructureLayout.Proofs.Placement.Partition
import Mathlib.Data.List.Pairwise

/-!
# Places in an image

In a compiled layout the elements of fields and the words of flags are separate regions, and
two flags in one word have different bits.
-/

namespace StructureLayout

namespace Region

variable {r q r' q' : Region}

def Within (r q : Region) : Prop := q.offset ≤ r.offset ∧ r.finish ≤ q.finish

theorem Apart.mono (h : r'.Apart q') (hr : r.Within r') (hq : q.Within q') : r.Apart q := by
  rcases h with h | h
  · exact Or.inl (hr.2.trans (h.trans hq.1))
  · exact Or.inr (hq.2.trans (h.trans hr.1))

theorem apart_of_lt {base size i j : Nat} (h : i < j) :
    Apart ⟨base + i * size, size⟩ ⟨base + j * size, size⟩ := by
  left
  have hle := Nat.mul_le_mul_right size h
  rw [Nat.succ_mul] at hle
  simp only [finish]
  omega

theorem apart_of_ne {base size i j : Nat} (h : i ≠ j) :
    Apart ⟨base + i * size, size⟩ ⟨base + j * size, size⟩ := by
  rcases Nat.lt_or_gt_of_ne h with hlt | hlt
  · exact apart_of_lt hlt
  · exact (apart_of_lt hlt).symm

end Region

def Entry.region {σ : Type} (e : Entry σ) : Region := ⟨e.offset, e.size⟩

def Element.region (p : Element) : Region := ⟨p.offset, p.type.size⟩

def FlagPlace.region (p : FlagPlace) : Region := ⟨p.offset, p.word.bytes⟩

namespace Layout

variable {l : Layout} {name other : String} {index index' : Nat}

/-- What the places in a layout owe to its compilation. -/
structure WellPlaced (l : Layout) : Prop where
  sized : ∀ e ∈ l.entries, e.Sized l.options.bitWord
  ordered : l.entries.Pairwise Entry.Precedes

theorem wellPlaced_of_compileIn {space : AddressSpace} {options : Options}
    {ds : List Declaration} (h : compileIn space options name ds = .ok l) : l.WellPlaced where
  sized := by
    rw [options_of_compileIn h]
    exact sized_of_compileIn h
  ordered := ordered_of_compileIn h

theorem element_eq_ok_iff {p : Element} :
    l.element name index = .ok p ↔
      ∃ f offset size scaling t, l.get? name = some (.field f offset size scaling) ∧
        f.content = .primitive t ∧ index < f.elements ∧
          p = ⟨t, offset + index * t.size, scaling⟩ := by
  unfold element entry
  cases hget : l.get? name with
  | none => simp [bind, Except.bind]
  | some e =>
      cases e with
      | flag b offset word bit => simp [Entry.primitive?, Entry.content?]
      | field f offset size scaling =>
          cases hcontent : f.content with
          | nested s => simp [Entry.primitive?, Entry.content?, Content.primitive?, hcontent]
          | primitive t =>
              by_cases hindex : index < f.elements
              · simp [Entry.primitive?, Entry.content?, Content.primitive?, Entry.elements,
                  Entry.offset, Entry.scaling?, hcontent, hindex, eq_comm]
              · simp [Entry.primitive?, Entry.content?, Content.primitive?, Entry.elements,
                  hcontent, hindex]

theorem flagPlace_eq_ok_iff {p : FlagPlace} :
    l.flagPlace name = .ok p ↔
      ∃ b, l.get? name = some (.flag b p.offset p.word p.bit) := by
  unfold flagPlace entry
  cases hget : l.get? name with
  | none => simp [bind, Except.bind]
  | some e =>
      rcases p with ⟨word, offset, bit⟩
      cases e with
      | field f offset size scaling => simp
      | flag b offset' word' bit' =>
          constructor
          · intro h
            cases h
            exact ⟨b, rfl⟩
          · rintro ⟨_, h⟩
            cases h
            rfl

namespace WellPlaced

theorem entries_apart (h : l.WellPlaced) {d e : Entry Layout} (hd : l.get? name = some d)
    (he : l.get? other = some e) (hne : name ≠ other) :
    (∃ i j, d.bit? = some i ∧ e.bit? = some j ∧ d.offset = e.offset ∧ i ≠ j) ∨
      d.region.Apart e.region := by
  obtain ⟨hdmem, hdname⟩ := entry_of_get? hd
  obtain ⟨hemem, hename⟩ := entry_of_get? he
  have hde : d ≠ e := by
    rintro rfl
    exact hne (hdname.symm.trans hename)
  have hsymm : Std.Symm fun d e : Entry Layout => d.Precedes e ∨ e.Precedes d :=
    ⟨fun _ _ => Or.symm⟩
  have heither : l.entries.Pairwise fun d e => d.Precedes e ∨ e.Precedes d :=
    h.ordered.imp Or.inl
  have hordered := heither.forall hdmem hemem hde
  rcases hordered with (⟨i, j, hi, hj, hoffset, hlt⟩ | hle) | (⟨i, j, hi, hj, hoffset, hlt⟩ | hle)
  · exact Or.inl ⟨i, j, hi, hj, hoffset, hlt.ne⟩
  · exact Or.inr (Or.inl hle)
  · exact Or.inl ⟨j, i, hj, hi, hoffset.symm, hlt.ne'⟩
  · exact Or.inr (Or.inr hle)

theorem element_within (h : l.WellPlaced) {f : Field Layout} {offset size : Nat}
    {scaling : Option Autoscale} {t : Primitive}
    (hget : l.get? name = some (.field f offset size scaling))
    (hcontent : f.content = .primitive t) (hindex : index < f.elements) :
    Region.Within ⟨offset + index * t.size, t.size⟩
      (Entry.field f offset size scaling).region := by
  have hsize := (h.sized _ (entry_of_get? hget).1).size_eq
  rw [hcontent] at hsize
  have hle := Nat.mul_le_mul_right t.size hindex
  rw [Nat.succ_mul] at hle
  have hsize : size = f.elements * t.size := hsize
  constructor
  · exact Nat.le_add_right _ _
  · simp only [Entry.region, Region.finish, Entry.offset, Entry.size]
    omega

theorem elements_apart (h : l.WellPlaced) {p q : Element} (hp : l.element name index = .ok p)
    (hq : l.element other index' = .ok q) (hne : name = other → index ≠ index') :
    p.region.Apart q.region := by
  obtain ⟨f, offset, size, scaling, t, hget, hcontent, hindex, rfl⟩ := element_eq_ok_iff.mp hp
  obtain ⟨f', offset', size', scaling', t', hget', hcontent', hindex', rfl⟩ :=
    element_eq_ok_iff.mp hq
  by_cases hname : name = other
  · subst hname
    cases hget.symm.trans hget'
    cases hcontent.symm.trans hcontent'
    exact Region.apart_of_ne (hne rfl)
  · rcases h.entries_apart hget hget' hname with ⟨i, _, hi, _⟩ | hapart
    · cases hi
    · exact hapart.mono (h.element_within hget hcontent hindex)
        (h.element_within hget' hcontent' hindex')

theorem element_flag_apart (h : l.WellPlaced) {p : Element} {q : FlagPlace}
    (hp : l.element name index = .ok p) (hq : l.flagPlace other = .ok q) :
    p.region.Apart q.region := by
  obtain ⟨f, offset, size, scaling, t, hget, hcontent, hindex, rfl⟩ := element_eq_ok_iff.mp hp
  obtain ⟨b, hget'⟩ := flagPlace_eq_ok_iff.mp hq
  have hname : name ≠ other := by
    rintro rfl
    cases hget.symm.trans hget'
  rcases h.entries_apart hget hget' hname with ⟨i, _, hi, _⟩ | hapart
  · cases hi
  · exact hapart.mono (h.element_within hget hcontent hindex) ⟨Nat.le_refl _, Nat.le_refl _⟩

theorem flag_word (h : l.WellPlaced) {p : FlagPlace} (hp : l.flagPlace name = .ok p) :
    p.word = l.options.bitWord ∧ p.bit < p.word.bits := by
  obtain ⟨b, hget⟩ := flagPlace_eq_ok_iff.mp hp
  obtain ⟨hword, hbit⟩ := h.sized _ (entry_of_get? hget).1
  exact ⟨hword, hword ▸ hbit⟩

/-- Two flags are different bits of one word or in separate words. -/
theorem flags_apart (h : l.WellPlaced) {p q : FlagPlace} (hp : l.flagPlace name = .ok p)
    (hq : l.flagPlace other = .ok q) (hne : name ≠ other) :
    (p.region = q.region ∧ p.bit ≠ q.bit) ∨ p.region.Apart q.region := by
  obtain ⟨b, hget⟩ := flagPlace_eq_ok_iff.mp hp
  obtain ⟨b', hget'⟩ := flagPlace_eq_ok_iff.mp hq
  rcases h.entries_apart hget hget' hne with ⟨i, j, hi, hj, hoffset, hij⟩ | hapart
  · left
    cases hi
    cases hj
    have hoffset : p.offset = q.offset := hoffset
    have hword : p.word = q.word := (h.flag_word hp).1.trans (h.flag_word hq).1.symm
    exact ⟨by rw [FlagPlace.region, FlagPlace.region, hoffset, hword], hij⟩
  · exact Or.inr hapart

theorem bit_ne (h : l.WellPlaced) {p q : FlagPlace} (hp : l.flagPlace name = .ok p)
    (hq : l.flagPlace other = .ok q) (hne : name ≠ other) (hoffset : p.offset = q.offset) :
    p.bit ≠ q.bit := by
  rcases h.flags_apart hp hq hne with ⟨_, hbit⟩ | hapart
  · exact hbit
  · have hpos := p.word.bytes_pos
    have hpos' := q.word.bytes_pos
    rcases hapart with hle | hle
    · simp only [FlagPlace.region, Region.finish] at hle
      omega
    · simp only [FlagPlace.region, Region.finish] at hle
      omega

end WellPlaced

end Layout

end StructureLayout
