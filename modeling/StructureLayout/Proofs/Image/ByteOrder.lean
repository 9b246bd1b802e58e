import StructureLayout.Proofs.Image.Mirror

/-!
# Byte order

The byte order decides on no place.  A layout with the one byte order does to an image what the
layout with the other does to the reversed image, whatever is read and stored, and with the same
answers and refusals.
-/

namespace StructureLayout

/-- What can be asked of an image or stored in it. -/
inductive Access
  | value (name : String) (index : Nat)
  /-- A value in engineering units. -/
  | scaled (name : String) (index : Nat)
  | flag (name : String)
  | store (call : StoreCall)

inductive Answer
  | value (v : Value)
  | number (x : Binary64)
  | flag (on : Bool)
  | stored
deriving DecidableEq

namespace Placement

theorem place_byteOrder (space : AddressSpace) (word : Width) (order order' : ByteOrder)
    (s : Placement) (d next : Declaration) :
    s.place space ⟨word, order⟩ d next = s.place space ⟨word, order'⟩ d next := by
  cases d with
  | alignNext => cases next <;> rfl
  | _ => rfl

theorem placeAll_byteOrder (space : AddressSpace) (word : Width) (order order' : ByteOrder)
    (s : Placement) (ds : List Declaration) :
    s.placeAll space ⟨word, order⟩ ds = s.placeAll space ⟨word, order'⟩ ds := by
  induction ds generalizing s with
  | nil => rfl
  | cons d ds ih =>
      rw [placeAll, placeAll, place_byteOrder space word order order']
      simp only [ih]

end Placement

namespace Layout

variable {l : Layout} {image : Image} {name : String} {index : Nat}

def withByteOrder (order : ByteOrder) (l : Layout) : Layout :=
  { l with options := { l.options with byteOrder := order } }

@[simp] theorem element_withByteOrder (order : ByteOrder) :
    (l.withByteOrder order).element name index = l.element name index := rfl

@[simp] theorem flagPlace_withByteOrder (order : ByteOrder) :
    (l.withByteOrder order).flagPlace name = l.flagPlace name := rfl

theorem compileIn_byteOrder (space : AddressSpace) (word : Width) (order order' : ByteOrder)
    (name : String) (ds : List Declaration) :
    compileIn space ⟨word, order⟩ name ds =
      (compileIn space ⟨word, order'⟩ name ds).map (withByteOrder order) := by
  rw [compileIn, Placement.placeAll_byteOrder space word order order', compileIn]
  cases Placement.placeAll space ⟨word, order'⟩ {} ds with
  | error e => rfl
  | ok s =>
      dsimp only
      split <;> rfl

/-! ## Accesses -/

/-- The answer to an access, and the image after it.  What is refused changes nothing. -/
def perform (l : Layout) (image : Image) : Access → Except AccessError Answer × Image
  | .value name index => ((l.read image name index).map .value, image)
  | .scaled name index => ((l.readScaled image name index).map .number, image)
  | .flag name => ((l.readFlag image name).map .flag, image)
  | .store call =>
    match l.store image call with
    | .ok final => (.ok .stored, final)
    | .error e => (.error e, image)

/-- The answers to a sequence of accesses, each with the image after it. -/
def trace (l : Layout) (image : Image) : List Access → List (Except AccessError Answer × Image)
  | [] => []
  | access :: accesses =>
    let done := l.perform image access
    done :: l.trace done.2 accesses

/-! ## An access whose place is known -/

theorem read_of_element {p : Element} (hp : l.element name index = .ok p)
    (hfits : p.region.finish ≤ image.length) :
    l.read image name index =
      .ok (.ofBits p.type (image.number l.options.byteOrder p.region)) := by
  have hslice : image.slice p.offset p.type.size = _ :=
    Image.slice_eq_ok_iff.mpr ⟨hfits, rfl⟩
  rw [read, hp, ok_bind, hslice]
  rfl

theorem readFlag_of_flagPlace {p : FlagPlace} (hp : l.flagPlace name = .ok p)
    (hfits : p.region.finish ≤ image.length) :
    l.readFlag image name =
      .ok ((image.number l.options.byteOrder p.region).testBit p.bit) := by
  have hslice : image.slice p.offset p.word.bytes = _ :=
    Image.slice_eq_ok_iff.mpr ⟨hfits, rfl⟩
  rw [readFlag, hp, ok_bind, hslice]
  rfl

theorem write_of_element {p : Element} {v : Value} (hp : l.element name index = .ok p)
    (hfits : p.region.finish ≤ image.length) :
    l.write image name index v =
      if v.type = p.type then .ok ((p.put v).apply l.options.byteOrder image)
      else .error (.typeMismatch name p.type v.type) := by
  by_cases htype : v.type = p.type
  · rw [if_pos htype]
    exact write_eq_ok_iff.mpr ⟨p, hp, htype, hfits, rfl⟩
  · rw [write, hp, ok_bind, if_neg htype, if_neg htype]

/-! ## Reversal -/

namespace Reversible

theorem read_reversed (h : l.Reversible image) (horder : l.options.byteOrder = .little) :
    (l.withByteOrder .big).read (l.reversed image) name index = l.read image name index := by
  cases hp : l.element name index with
  | error e =>
      rw [read, read, element_withByteOrder, hp]
      rfl
  | ok p =>
      have hmem := element_mem_units hp
      have hfits := h.fits _ hmem
      have hfits' := h.fits_reversed hmem
      rw [read_of_element hp hfits, read_of_element (l := l.withByteOrder .big) hp hfits', horder,
        ← h.number_reversed hmem]
      rfl

theorem readScaled_reversed (h : l.Reversible image) (horder : l.options.byteOrder = .little) :
    (l.withByteOrder .big).readScaled (l.reversed image) name index =
      l.readScaled image name index := by
  rw [readScaled, readScaled, h.read_reversed horder, element_withByteOrder]

theorem readFlag_reversed (h : l.Reversible image) (horder : l.options.byteOrder = .little) :
    (l.withByteOrder .big).readFlag (l.reversed image) name = l.readFlag image name := by
  cases hp : l.flagPlace name with
  | error e =>
      rw [readFlag, readFlag, flagPlace_withByteOrder, hp]
      rfl
  | ok p =>
      have hmem := flagPlace_mem_units hp
      have hfits := h.fits _ hmem
      have hfits' := h.fits_reversed hmem
      rw [readFlag_of_flagPlace hp hfits,
        readFlag_of_flagPlace (l := l.withByteOrder .big) hp hfits', horder,
        ← h.number_reversed hmem]
      rfl

theorem write_reversed (h : l.Reversible image) (horder : l.options.byteOrder = .little)
    (v : Value) :
    (l.withByteOrder .big).write (l.reversed image) name index v =
      (l.write image name index v).map l.reversed := by
  cases hp : l.element name index with
  | error e =>
      rw [write, write, element_withByteOrder, hp]
      rfl
  | ok p =>
      have hmem := element_mem_units hp
      have hfits := h.fits _ hmem
      have hfits' := h.fits_reversed hmem
      rw [write_of_element hp hfits, write_of_element (l := l.withByteOrder .big) hp hfits',
        horder]
      split
      · exact congrArg Except.ok (h.apply_reversed (u := p.put v) hmem)
      · rfl

theorem writeFlag_reversed (h : l.Reversible image) (horder : l.options.byteOrder = .little)
    (on : Bool) :
    (l.withByteOrder .big).writeFlag (l.reversed image) name on =
      (l.writeFlag image name on).map l.reversed := by
  cases hp : l.flagPlace name with
  | error e =>
      rw [writeFlag, writeFlag, flagPlace_withByteOrder, hp]
      rfl
  | ok p =>
      have hmem := flagPlace_mem_units hp
      have hfits := h.fits _ hmem
      have hfits' := h.fits_reversed hmem
      rw [writeFlag_eq_ok_iff.mpr ⟨p, hp, hfits, rfl⟩,
        (writeFlag_eq_ok_iff (l := l.withByteOrder .big)).mpr ⟨p, hp, hfits', rfl⟩, horder]
      exact congrArg Except.ok (h.apply_reversed (u := p.put on) hmem)

theorem store_reversed (h : l.Reversible image) (horder : l.options.byteOrder = .little)
    (call : StoreCall) :
    (l.withByteOrder .big).store (l.reversed image) call =
      (l.store image call).map l.reversed := by
  cases call with
  | value name index v => exact h.write_reversed horder v
  | flag name on => exact h.writeFlag_reversed horder on
  | scaled name index v =>
      rw [store, store, writeScaled, writeScaled, element_withByteOrder]
      cases l.element name index with
      | error e => rfl
      | ok p => exact h.write_reversed horder (storedFor p v)

/-- One access gives the same answer, and leaves the reversed image. -/
theorem perform_reversed (h : l.Reversible image) (horder : l.options.byteOrder = .little)
    (access : Access) :
    (l.withByteOrder .big).perform (l.reversed image) access =
      ((l.perform image access).1, l.reversed (l.perform image access).2) := by
  cases access with
  | value name index => rw [perform, h.read_reversed horder, perform]
  | scaled name index => rw [perform, h.readScaled_reversed horder, perform]
  | flag name => rw [perform, h.readFlag_reversed horder, perform]
  | store call =>
      rw [perform, h.store_reversed horder, perform]
      cases l.store image call <;> rfl

theorem perform (h : l.Reversible image) (access : Access) :
    l.Reversible (l.perform image access).2 := by
  cases access with
  | store call =>
      rw [Layout.perform]
      cases hstore : l.store image call with
      | error e => exact h
      | ok final => exact h.of_length_eq (length_store hstore)
  | _ => exact h

theorem trace_reversed (h : l.Reversible image) (horder : l.options.byteOrder = .little)
    (accesses : List Access) :
    (l.withByteOrder .big).trace (l.reversed image) accesses =
      (l.trace image accesses).map fun done => (done.1, l.reversed done.2) := by
  induction accesses generalizing image with
  | nil => rfl
  | cons access accesses ih =>
      rw [trace, h.perform_reversed horder, trace, List.map_cons]
      exact congrArg _ (ih (h.perform access))

end Reversible

/-- The two byte orders lay out alike, and whatever is done to an image in the one has the same
answers in the other on the reversed image, which stays the reversed one. -/
theorem byteOrder_dual (word : Width) (name : String) (ds : List Declaration) :
    compile ⟨word, .big⟩ name ds = (compile ⟨word, .little⟩ name ds).map (withByteOrder .big) ∧
    ∀ l, compile ⟨word, .little⟩ name ds = .ok l →
      ∀ image : Image, l.totalSize ≤ image.length → ∀ accesses,
        (l.withByteOrder .big).trace (l.reversed image) accesses =
          (l.trace image accesses).map fun done => (done.1, l.reversed done.2) := by
  constructor
  · exact compileIn_byteOrder .wide word .big .little name ds
  · intro l hl image hsize accesses
    have horder : l.options.byteOrder = .little := by rw [options_of_compileIn hl]
    exact (reversible_of_compileIn hl hsize).trace_reversed horder accesses

/-- Reads and stores, two of them refused. -/
def accessSample : List Access :=
  [.value "trim" 1, .store (.value "trim" 0 (.ofInt (.integer ⟨true, .two⟩) (-2))),
    .store (.flag "off" true), .scaled "mode" 0, .value "trim" 2, .flag "off",
    .store (.flag "mode" true)]

def accessSampleImage : Image := [7, 1, 0, 0, 0, 5, 0, 0x34, 0x12, 0xAA]

theorem byteOrder_dual_storeSample :
    ∃ l, compile { byteOrder := .little } "sample" storeSample = .ok l ∧
      l.totalSize ≤ accessSampleImage.length ∧
      l.reversed accessSampleImage = [7, 0, 0, 0, 1, 0, 5, 0x12, 0x34, 0xAA] ∧
      (l.trace accessSampleImage accessSample).map (fun done => done.1.toOption) =
        [some (.value (.ofInt (.integer ⟨true, .two⟩) 0x1234)), some .stored, some .stored,
          some (.number (.ofInt 7)), none, some (.flag true), none] ∧
      (l.withByteOrder .big).trace (l.reversed accessSampleImage) accessSample =
        (l.trace accessSampleImage accessSample).map fun done => (done.1, l.reversed done.2) := by
  obtain ⟨l, hl, hsize, hreversed, hanswers⟩ : ∃ l,
      compile { byteOrder := .little } "sample" storeSample = .ok l ∧
        l.totalSize ≤ accessSampleImage.length ∧
        l.reversed accessSampleImage = [7, 0, 0, 0, 1, 0, 5, 0x12, 0x34, 0xAA] ∧
        (l.trace accessSampleImage accessSample).map (fun done => done.1.toOption) =
          [some (.value (.ofInt (.integer ⟨true, .two⟩) 0x1234)), some .stored, some .stored,
            some (.number (.ofInt 7)), none, some (.flag true), none] :=
    ⟨_, rfl, by decide +kernel, by decide +kernel, by decide +kernel⟩
  exact ⟨l, hl, hsize, hreversed, hanswers,
    (byteOrder_dual .four "sample" storeSample).2 l hl accessSampleImage hsize accessSample⟩

end Layout

end StructureLayout
