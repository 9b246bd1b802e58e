import StructureLayout.Proofs.Image.Store

/-!
# Reversed images

The units of a layout are the elements of its primitive fields and the words of its flags.  In
the reversed image the bytes of every unit stand in the opposite order, and every other byte
stands where it stood.  Units of a compiled layout do not overlap, so that a unit of the
reversed image holds in one byte order the number that it held in the other one.
-/

namespace StructureLayout

namespace Region

variable {r q : Region} {byte : Nat}

instance (r : Region) (byte : Nat) : Decidable (r.Covers byte) :=
  inferInstanceAs (Decidable (_ ∧ _))

/-- The byte that is as far from the end as the given one is from the start. -/
def mirror (r : Region) (byte : Nat) : Nat := r.offset + (r.finish - 1 - byte)

theorem mirror_add (r : Region) (i : Nat) :
    r.mirror (r.offset + i) = r.offset + (r.count - 1 - i) := by
  rw [mirror, finish]
  omega

theorem Covers.mirror (h : r.Covers byte) : r.Covers (r.mirror byte) := by
  obtain ⟨i, hi, rfl⟩ := h.exists_eq
  rw [mirror_add, Covers, finish]
  omega

end Region

/-- The elements of a primitive field, or the word of a flag. -/
def Entry.units : Entry Layout → List Region
  | field f offset _ _ =>
    match f.content with
    | .primitive p => (List.range f.elements).map fun i => ⟨offset + i * p.size, p.size⟩
    | .nested _ => []
  | flag _ offset word _ => [⟨offset, word.bytes⟩]

namespace Layout

variable {l : Layout} {image : Image} {r q : Region} {byte : Nat}
  {name : String} {index : Nat}

def units (l : Layout) : List Region := l.entries.flatMap Entry.units

/-- The byte with which a byte changes places. -/
def mirror (l : Layout) (byte : Nat) : Nat :=
  match l.units.find? fun r => decide (r.Covers byte) with
  | some r => r.mirror byte
  | none => byte

/-- The image in which the bytes of every unit are reversed. -/
def reversed (l : Layout) (image : Image) : Image :=
  image.mapIdx fun byte b => image.getD (l.mirror byte) b

@[simp] theorem length_reversed : (l.reversed image).length = image.length :=
  List.length_mapIdx

theorem mirror_of_not_covers (h : ¬∃ r ∈ l.units, r.Covers byte) : l.mirror byte = byte := by
  have hnone : (l.units.find? fun r => decide (r.Covers byte)) = none := by
    simpa using h
  rw [mirror, hnone]

/-- The units do not overlap, and the image has all of them. -/
structure Reversible (l : Layout) (image : Image) : Prop where
  apart : ∀ r ∈ l.units, ∀ q ∈ l.units, r = q ∨ r.Apart q
  fits : ∀ r ∈ l.units, r.finish ≤ image.length

namespace Reversible

theorem fits_reversed (h : l.Reversible image) (hr : r ∈ l.units) :
    r.finish ≤ (l.reversed image).length := by
  rw [length_reversed]
  exact h.fits r hr

theorem mirror_of_mem (h : l.Reversible image) (hr : r ∈ l.units) (hbyte : r.Covers byte) :
    l.mirror byte = r.mirror byte := by
  unfold mirror
  cases hfind : l.units.find? fun r => decide (r.Covers byte) with
  | none =>
      have hnone := List.find?_eq_none.mp hfind r hr
      simp [hbyte] at hnone
  | some q =>
      have hq := List.mem_of_find?_eq_some hfind
      have hcovers : q.Covers byte := by simpa using List.find?_some hfind
      rcases h.apart r hr q hq with rfl | hapart
      · rfl
      · exact absurd hcovers (hapart.not_covers hbyte)

theorem covers_mirror_iff (h : l.Reversible image) (hr : r ∈ l.units) :
    r.Covers (l.mirror byte) ↔ r.Covers byte := by
  by_cases hcovered : ∃ q ∈ l.units, q.Covers byte
  · obtain ⟨q, hq, hbyte⟩ := hcovered
    rw [h.mirror_of_mem hq hbyte]
    rcases h.apart q hq r hr with rfl | hapart
    · exact iff_of_true hbyte.mirror hbyte
    · exact iff_of_false (hapart.not_covers hbyte.mirror) (hapart.not_covers hbyte)
  · rw [mirror_of_not_covers hcovered]

theorem mirror_lt (h : l.Reversible image) (hbyte : byte < image.length) :
    l.mirror byte < image.length := by
  by_cases hcovered : ∃ r ∈ l.units, r.Covers byte
  · obtain ⟨r, hr, hcovers⟩ := hcovered
    exact Nat.lt_of_lt_of_le ((h.covers_mirror_iff hr).mpr hcovers).2 (h.fits r hr)
  · rwa [mirror_of_not_covers hcovered]

theorem getElem?_reversed (h : l.Reversible image) (hbyte : byte < image.length) :
    (l.reversed image)[byte]? = image[l.mirror byte]? := by
  have hmirror := h.mirror_lt hbyte
  simp [reversed, hbyte, hmirror]

theorem take_drop_reversed (h : l.Reversible image) (hr : r ∈ l.units) :
    ((l.reversed image).drop r.offset).take r.count =
      ((image.drop r.offset).take r.count).reverse := by
  have hfits := h.fits r hr
  rw [Region.finish] at hfits
  have hlength : ((image.drop r.offset).take r.count).length = r.count := by
    rw [List.length_take, List.length_drop]
    omega
  apply List.ext_getElem?
  intro i
  by_cases hi : i < r.count
  · have hcovers : r.Covers (r.offset + i) := by
      rw [Region.Covers, Region.finish]
      omega
    have hlt : r.count - 1 - i < r.count := by omega
    rw [List.getElem?_reverse (hlength.symm ▸ hi), hlength, List.getElem?_take_of_lt hi,
      List.getElem?_take_of_lt hlt, List.getElem?_drop, List.getElem?_drop,
      h.getElem?_reversed (by omega), h.mirror_of_mem hr hcovers, r.mirror_add]
  · have hle := Nat.le_of_not_lt hi
    rw [List.getElem?_take_eq_none hle,
      List.getElem?_eq_none (by rwa [List.length_reverse, hlength])]

/-- In the opposite byte order a unit holds the number that it held before. -/
theorem number_reversed (h : l.Reversible image) (hr : r ∈ l.units) :
    (l.reversed image).number .big r = image.number .little r := by
  rw [Image.number, h.take_drop_reversed hr, ByteOrder.decode, List.reverse_reverse]
  rfl

theorem of_length_eq (h : l.Reversible image) {final : Image}
    (hlength : final.length = image.length) : l.Reversible final where
  apart := h.apart
  fits := by
    rw [hlength]
    exact h.fits

/-- To reverse an image and then to change the number in a unit is to change it first. -/
theorem apply_reversed (h : l.Reversible image) {u : Update} (hu : u.toRegion ∈ l.units) :
    u.apply .big (l.reversed image) = l.reversed (u.apply .little image) := by
  have hfits : u.finish ≤ image.length := h.fits _ hu
  have hfits' : u.finish ≤ (l.reversed image).length := h.fits_reversed hu
  have hlength : (u.apply .little image).length = image.length := Update.length_apply hfits
  have hbytes : u.bytes .big (l.reversed image) = (u.bytes .little image).reverse := by
    rw [Update.bytes, h.number_reversed hu]
    rfl
  apply List.ext_getElem?
  intro byte
  by_cases hbyte : byte < image.length
  · rw [(h.of_length_eq hlength).getElem?_reversed (hlength.symm ▸ hbyte)]
    by_cases hcovers : u.Covers byte
    · rw [h.mirror_of_mem hu hcovers]
      obtain ⟨i, hi, rfl⟩ := hcovers.exists_eq
      have hlt : u.count - 1 - i < u.count := by omega
      rw [Update.getElem?_apply_of_lt hfits' hi, hbytes, Region.mirror_add,
        Update.getElem?_apply_of_lt hfits hlt,
        List.getElem?_reverse (by rwa [Update.length_bytes]), Update.length_bytes]
    · rw [Update.getElem?_apply_of_not_covers hfits' hcovers,
        Update.getElem?_apply_of_not_covers hfits (mt (h.covers_mirror_iff hu).mp hcovers),
        h.getElem?_reversed hbyte]
  · have hle := Nat.le_of_not_lt hbyte
    rw [List.getElem?_eq_none (by rwa [Update.length_apply hfits', length_reversed]),
      List.getElem?_eq_none (by rwa [length_reversed, hlength])]

end Reversible

/-! ## Units of a compiled layout -/

theorem element_mem_units {p : Element} (hp : l.element name index = .ok p) :
    p.region ∈ l.units := by
  obtain ⟨f, offset, size, scaling, t, hget, hcontent, hindex, rfl⟩ := element_eq_ok_iff.mp hp
  refine List.mem_flatMap.mpr ⟨_, (entry_of_get? hget).1, ?_⟩
  rw [Entry.units, hcontent]
  exact List.mem_map_of_mem (List.mem_range.mpr hindex)

theorem flagPlace_mem_units {p : FlagPlace} (hp : l.flagPlace name = .ok p) :
    p.region ∈ l.units := by
  obtain ⟨b, hget⟩ := flagPlace_eq_ok_iff.mp hp
  exact List.mem_flatMap.mpr ⟨_, (entry_of_get? hget).1, List.mem_singleton_self _⟩

/-- Where every entry is found by its name, so is every unit. -/
theorem exists_place_of_mem_units (hget : ∀ e ∈ l.entries, l.get? e.name = some e)
    (hr : r ∈ l.units) :
    (∃ name index p, l.element name index = .ok p ∧ p.region = r) ∨
      ∃ name p, l.flagPlace name = .ok p ∧ p.region = r := by
  obtain ⟨e, he, hr⟩ := List.mem_flatMap.mp hr
  have hget := hget e he
  cases e with
  | flag b offset word bit =>
      obtain rfl := List.mem_singleton.mp hr
      exact Or.inr ⟨b.name, ⟨word, offset, bit⟩, flagPlace_eq_ok_iff.mpr ⟨b, hget⟩, rfl⟩
  | field f offset size scaling =>
      rw [Entry.units] at hr
      cases hcontent : f.content with
      | nested s => simp [hcontent] at hr
      | primitive t =>
          rw [hcontent] at hr
          obtain ⟨index, hindex, rfl⟩ := List.mem_map.mp hr
          refine Or.inl ⟨f.name, index, ⟨t, offset + index * t.size, scaling⟩, ?_, rfl⟩
          exact element_eq_ok_iff.mpr
            ⟨f, offset, size, scaling, t, hget, hcontent, List.mem_range.mp hindex, rfl⟩

namespace WellPlaced

theorem units_apart (h : l.WellPlaced) (hget : ∀ e ∈ l.entries, l.get? e.name = some e)
    (hr : r ∈ l.units) (hq : q ∈ l.units) : r = q ∨ r.Apart q := by
  rcases exists_place_of_mem_units hget hr with ⟨name, index, p, hp, rfl⟩ | ⟨name, p, hp, rfl⟩
  · rcases exists_place_of_mem_units hget hq with
      ⟨name', index', p', hp', rfl⟩ | ⟨name', p', hp', rfl⟩
    · by_cases hsame : name = name' ∧ index = index'
      · obtain ⟨rfl, rfl⟩ := hsame
        cases hp.symm.trans hp'
        exact Or.inl rfl
      · exact Or.inr (h.elements_apart hp hp' fun hname hindex => hsame ⟨hname, hindex⟩)
    · exact Or.inr (h.element_flag_apart hp hp')
  · rcases exists_place_of_mem_units hget hq with
      ⟨name', index', p', hp', rfl⟩ | ⟨name', p', hp', rfl⟩
    · exact Or.inr (h.element_flag_apart hp' hp).symm
    · by_cases hname : name = name'
      · subst hname
        cases hp.symm.trans hp'
        exact Or.inl rfl
      · exact (h.flags_apart hp hp' hname).imp And.left id

theorem units_within (h : l.WellPlaced) (hget : ∀ e ∈ l.entries, l.get? e.name = some e)
    (hr : r ∈ l.units) : ∃ e ∈ l.entries, r.Within e.region := by
  rcases exists_place_of_mem_units hget hr with ⟨name, index, p, hp, rfl⟩ | ⟨name, p, hp, rfl⟩
  · obtain ⟨f, offset, size, scaling, t, hfield, hcontent, hindex, rfl⟩ :=
      element_eq_ok_iff.mp hp
    exact ⟨_, (entry_of_get? hfield).1, h.element_within hfield hcontent hindex⟩
  · obtain ⟨b, hflag⟩ := flagPlace_eq_ok_iff.mp hp
    exact ⟨_, (entry_of_get? hflag).1, Nat.le_refl _, Nat.le_refl _⟩

end WellPlaced

theorem get?_name_of_compileIn {space : AddressSpace} {options : Options} {ds : List Declaration}
    (h : compileIn space options name ds = .ok l) {e : Entry Layout} (he : e ∈ l.entries) :
    l.get? e.name = some e := by
  obtain ⟨s, hrun, -, rfl⟩ := compileIn_eq_ok_iff.mp h
  exact (get?_ofPlacement_eq_some_iff (distinctNames_of_run hrun)).mpr
    ⟨List.mem_reverse.mp he, rfl⟩

theorem reversible_of_compileIn {space : AddressSpace} {options : Options}
    {ds : List Declaration} (h : compileIn space options name ds = .ok l)
    (hsize : l.totalSize ≤ image.length) : l.Reversible image := by
  have hplaced := wellPlaced_of_compileIn h
  have hget := fun e => get?_name_of_compileIn h (e := e)
  constructor
  · intro r hr q hq
    exact hplaced.units_apart hget hr hq
  · intro r hr
    obtain ⟨e, he, hwithin⟩ := hplaced.units_within hget hr
    exact (hwithin.2.trans (finish_le_of_compileIn h e he)).trans hsize

end Layout

end StructureLayout
