import StructureLayout.Proofs.Image.ByteOrder
import StructureLayout.Proofs.Image.InPlace
import StructureLayout.Proofs.Placement.Contents

/-!
# Refusals

An access to an image through a compiled layout is refused for one reason, which depends on the
entry with the name, the index, the type of the value and the length of the image in this order.
An image of the size of the structure is long enough for every access.
-/

namespace StructureLayout

theorem map_eq_error_iff {ε α β : Type} {x : Except ε α} {f : α → β} {e : ε} :
    x.map f = .error e ↔ x = .error e := by
  cases x <;> simp [Except.map]

theorem bind_pure_eq_error_iff {ε α β : Type} {x : Except ε α} {f : α → β} {e : ε} :
    (x >>= fun a => pure (f a)) = .error e ↔ x = .error e := by
  cases x <;> simp [bind, Except.bind, pure, Except.pure]

theorem Image.slice_eq_error_iff {image : Image} {offset count : Nat} {x : AccessError} :
    image.slice offset count = .error x ↔
      image.length < offset + count ∧ x = .shortImage (offset + count) image.length := by
  unfold slice
  by_cases h : offset + count ≤ image.length
  · simp [h, Nat.not_lt.mpr h]
  · simp [h, Nat.lt_of_not_le h, eq_comm]

theorem Image.splice_eq_error_iff {image : Image} {offset : Nat} {bytes : List UInt8}
    {x : AccessError} :
    image.splice offset bytes = .error x ↔ image.length < offset + bytes.length ∧
      x = .shortImage (offset + bytes.length) image.length := by
  unfold splice
  by_cases h : offset + bytes.length ≤ image.length
  · simp [h, Nat.not_lt.mpr h]
  · simp [h, Nat.lt_of_not_le h, eq_comm]

theorem Entry.primitive?_eq_none_iff {e : Entry Layout} :
    e.primitive? = none ↔ e.bit?.isSome = true ∨ e.nested?.isSome = true := by
  rcases e with ⟨⟨name, content, _, _, _, _, _, _⟩, offset, size, scaling⟩ | _
  · cases content <;>
      simp [Entry.primitive?, Entry.nested?, Entry.bit?, Entry.content?, Content.primitive?,
        Content.nested?]
  · simp [Entry.primitive?, Entry.bit?, Entry.content?]

theorem Entry.exists_primitive {e : Entry Layout} {p : Primitive} (h : e.primitive? = some p) :
    ∃ f offset size scaling, e = .field f offset size scaling ∧ f.content = .primitive p := by
  rcases e with ⟨⟨name, content, _, _, _, _, _, _⟩, offset, size, scaling⟩ | _
  · cases content with
    | primitive t =>
        cases h
        exact ⟨_, offset, size, scaling, rfl, rfl⟩
    | nested s => cases h
  · cases h

namespace Layout

variable {options : Options} {n name : String} {ds : List Declaration} {l : Layout}
  {image : Image} {index : Nat} {stored : Option Primitive} {x : AccessError}

/-! ## What is refused -/

/-- Why an element is not read, or not given a value of the type `stored`. -/
inductive ElementRefused (l : Layout) (image : Image) (name : String) (index : Nat)
    (stored : Option Primitive) : AccessError → Prop
  | unknown (names : ∀ e ∈ l.entries, e.name ≠ name) :
      ElementRefused l image name index stored (.unknownField name)
  | kind {e : Entry Layout} (entry : e ∈ l.entries) (named : e.name = name)
      (kind : e.bit?.isSome = true ∨ e.nested?.isSome = true) :
      ElementRefused l image name index stored (.notPrimitive name)
  | index {e : Entry Layout} {p : Primitive} (entry : e ∈ l.entries) (named : e.name = name)
      (kind : e.primitive? = some p) (beyond : e.dimensions.prod ≤ index) :
      ElementRefused l image name index stored (.indexOutOfRange name index e.dimensions.prod)
  | type {e : Entry Layout} {p t : Primitive} (entry : e ∈ l.entries) (named : e.name = name)
      (kind : e.primitive? = some p) (inside : index < e.dimensions.prod)
      (type : stored = some t) (differs : t ≠ p) :
      ElementRefused l image name index stored (.typeMismatch name p t)
  | short {e : Entry Layout} {p : Primitive} (entry : e ∈ l.entries) (named : e.name = name)
      (kind : e.primitive? = some p) (inside : index < e.dimensions.prod)
      (type : ∀ t ∈ stored, t = p) (short : image.length < e.offset + index * p.size + p.size) :
      ElementRefused l image name index stored
        (.shortImage (e.offset + index * p.size + p.size) image.length)

inductive FlagRefused (l : Layout) (image : Image) (name : String) : AccessError → Prop
  | unknown (names : ∀ e ∈ l.entries, e.name ≠ name) :
      FlagRefused l image name (.unknownField name)
  | kind {e : Entry Layout} (entry : e ∈ l.entries) (named : e.name = name)
      (kind : e.bit? = none) : FlagRefused l image name (.notFlag name)
  | short {e : Entry Layout} (entry : e ∈ l.entries) (named : e.name = name)
      (kind : e.bit?.isSome = true) (short : image.length < e.offset + e.size) :
      FlagRefused l image name (.shortImage (e.offset + e.size) image.length)

/-- A value in engineering units is of no wrong type. -/
def Refused (l : Layout) (image : Image) : Access → AccessError → Prop
  | .value name index => l.ElementRefused image name index none
  | .scaled name index => l.ElementRefused image name index none
  | .flag name => l.FlagRefused image name
  | .store (.value name index v) => l.ElementRefused image name index (some v.type)
  | .store (.scaled name index _) => l.ElementRefused image name index none
  | .store (.flag name _) => l.FlagRefused image name

/-! ## Places that are refused -/

theorem get?_eq_some_iff (h : compile options n ds = .ok l) {e : Entry Layout} :
    l.get? name = some e ↔ e ∈ l.entries ∧ e.name = name := by
  constructor
  · exact entry_of_get?
  · rintro ⟨he, rfl⟩
    exact get?_name_of_compileIn h he

theorem get?_eq_none_iff : l.get? name = none ↔ ∀ e ∈ l.entries, e.name ≠ name := by
  simp [get?, List.find?_eq_none]

theorem element_of_none (h : l.get? name = none) :
    l.element name index = .error (.unknownField name) := by
  simp [element, entry, h, bind, Except.bind]

theorem element_of_kind {e : Entry Layout} (h : l.get? name = some e)
    (hkind : e.primitive? = none) : l.element name index = .error (.notPrimitive name) := by
  simp [element, entry, h, hkind]

theorem elements_of_compileIn (h : compile options n ds = .ok l) {e : Entry Layout}
    (he : e ∈ l.entries) {p : Primitive} (hkind : e.primitive? = some p) :
    e.elements = e.dimensions.prod := by
  obtain ⟨f, offset, size, scaling, rfl, -⟩ := Entry.exists_primitive hkind
  exact (sized_of_compileIn h _ he).elements_eq

theorem element_of_primitive (h : compile options n ds = .ok l) (index : Nat) {e : Entry Layout}
    {p : Primitive} (he : e ∈ l.entries) (hname : e.name = name)
    (hkind : e.primitive? = some p) :
    l.element name index =
      if index < e.dimensions.prod then .ok ⟨p, e.offset + index * p.size, e.scaling?⟩
      else .error (.indexOutOfRange name index e.dimensions.prod) := by
  have hget := (get?_eq_some_iff h).mpr ⟨he, hname⟩
  rw [← elements_of_compileIn h he hkind]
  simp [element, entry, hget, hkind]

theorem elementRefused_of_error (h : compile options n ds = .ok l)
    (herror : l.element name index = .error x) : l.ElementRefused image name index stored x := by
  cases hget : l.get? name with
  | none =>
      rw [element_of_none hget] at herror
      cases herror
      exact .unknown (get?_eq_none_iff.mp hget)
  | some e =>
      obtain ⟨he, hname⟩ := entry_of_get? hget
      cases hkind : e.primitive? with
      | none =>
          rw [element_of_kind hget hkind] at herror
          cases herror
          exact .kind he hname (Entry.primitive?_eq_none_iff.mp hkind)
      | some p =>
          rw [element_of_primitive h index he hname hkind] at herror
          split at herror
          · cases herror
          · rename_i hbeyond
            cases herror
            exact .index he hname hkind (Nat.not_lt.mp hbeyond)

theorem entry_of_element (h : compile options n ds = .ok l) {p : Element}
    (hp : l.element name index = .ok p) :
    ∃ e ∈ l.entries, e.name = name ∧ e.primitive? = some p.type ∧ index < e.dimensions.prod ∧
      p.region.finish = e.offset + index * p.type.size + p.type.size := by
  obtain ⟨f, offset, size, scaling, t, hget, hcontent, hindex, rfl⟩ := element_eq_ok_iff.mp hp
  obtain ⟨he, hname⟩ := entry_of_get? hget
  have hkind : (Entry.field f offset size scaling).primitive? = some t :=
    congrArg Content.primitive? hcontent
  have helements : f.elements = f.dimensions.prod := elements_of_compileIn h he hkind
  exact ⟨_, he, hname, hkind, helements ▸ hindex, rfl⟩

theorem elementRefused_iff (h : compile options n ds = .ok l) :
    l.ElementRefused image name index stored x ↔
      l.element name index = .error x ∨ ∃ p, l.element name index = .ok p ∧
        ((∃ t, stored = some t ∧ t ≠ p.type ∧ x = .typeMismatch name p.type t) ∨
          (∀ t ∈ stored, t = p.type) ∧ image.length < p.region.finish ∧
            x = .shortImage p.region.finish image.length) := by
  constructor
  · intro hrefused
    cases hrefused with
    | unknown hnames => exact Or.inl (element_of_none (get?_eq_none_iff.mpr hnames))
    | kind he hname hkind =>
        exact Or.inl (element_of_kind ((get?_eq_some_iff h).mpr ⟨he, hname⟩)
          (Entry.primitive?_eq_none_iff.mpr hkind))
    | index he hname hkind hbeyond =>
        rw [element_of_primitive h index he hname hkind, if_neg (Nat.not_lt.mpr hbeyond)]
        exact Or.inl rfl
    | type he hname hkind hindex htype hdiffers =>
        rw [element_of_primitive h index he hname hkind, if_pos hindex]
        exact Or.inr ⟨_, rfl, Or.inl ⟨_, htype, hdiffers, rfl⟩⟩
    | short he hname hkind hindex htype hshort =>
        rw [element_of_primitive h index he hname hkind, if_pos hindex]
        exact Or.inr ⟨_, rfl, Or.inr ⟨htype, hshort, rfl⟩⟩
  · rintro (herror | ⟨p, hp, hreason⟩)
    · exact elementRefused_of_error h herror
    · obtain ⟨e, he, hname, hkind, hindex, hfinish⟩ := entry_of_element h hp
      rw [hfinish] at hreason
      rcases hreason with ⟨t, ht, hdiffers, rfl⟩ | ⟨htype, hshort, rfl⟩
      · exact .type he hname hkind hindex ht hdiffers
      · exact .short he hname hkind hindex htype hshort

/-- The type of a value decides on nothing where it is the right one. -/
theorem elementRefused_some_iff {t : Primitive}
    (htype : ∀ e ∈ l.entries, e.name = name → ∀ p, e.primitive? = some p → t = p) :
    l.ElementRefused image name index (some t) x ↔ l.ElementRefused image name index none x := by
  constructor
  · intro hrefused
    cases hrefused with
    | unknown hnames => exact .unknown hnames
    | kind he hname hkind => exact .kind he hname hkind
    | index he hname hkind hbeyond => exact .index he hname hkind hbeyond
    | type he hname hkind _ heq hdiffers =>
        cases heq
        exact absurd (htype _ he hname _ hkind) hdiffers
    | short he hname hkind hindex _ hshort => exact .short he hname hkind hindex nofun hshort
  · intro hrefused
    cases hrefused with
    | unknown hnames => exact .unknown hnames
    | kind he hname hkind => exact .kind he hname hkind
    | index he hname hkind hbeyond => exact .index he hname hkind hbeyond
    | type _ _ _ _ heq _ => cases heq
    | short he hname hkind hindex _ hshort =>
        refine .short he hname hkind hindex ?_ hshort
        rintro _ ⟨⟩
        exact htype _ he hname _ hkind

theorem flagPlace_of_none (h : l.get? name = none) :
    l.flagPlace name = .error (.unknownField name) := by
  simp [flagPlace, entry, h, bind, Except.bind]

theorem flagRefused_iff (h : compile options n ds = .ok l) :
    l.FlagRefused image name x ↔
      l.flagPlace name = .error x ∨ ∃ p, l.flagPlace name = .ok p ∧
        image.length < p.region.finish ∧ x = .shortImage p.region.finish image.length := by
  constructor
  · intro hrefused
    cases hrefused with
    | unknown hnames => exact Or.inl (flagPlace_of_none (get?_eq_none_iff.mpr hnames))
    | @kind e he hname hkind =>
        have hget := (get?_eq_some_iff h).mpr ⟨he, hname⟩
        cases e with
        | field f offset size scaling => exact Or.inl (by simp [flagPlace, entry, hget])
        | flag b offset word bit => cases hkind
    | @short e he hname hkind hshort =>
        have hget := (get?_eq_some_iff h).mpr ⟨he, hname⟩
        cases e with
        | field f offset size scaling => cases hkind
        | flag b offset word bit =>
            exact Or.inr ⟨⟨word, offset, bit⟩, flagPlace_eq_ok_iff.mpr ⟨b, hget⟩, hshort, rfl⟩
  · intro hrefused
    cases hget : l.get? name with
    | none =>
        rw [flagPlace_of_none hget] at hrefused
        rcases hrefused with heq | ⟨p, hp, _⟩
        · cases heq
          exact .unknown (get?_eq_none_iff.mp hget)
        · cases hp
    | some e =>
        obtain ⟨he, hname⟩ := entry_of_get? hget
        rcases hrefused with herror | ⟨p, hp, hshort, rfl⟩
        · cases e with
          | field f offset size scaling =>
              obtain rfl : AccessError.notFlag name = x := by
                simpa [flagPlace, entry, hget] using herror
              exact .kind he hname rfl
          | flag b offset word bit =>
              have hplace := flagPlace_eq_ok_iff (p := ⟨word, offset, bit⟩).mpr ⟨b, hget⟩
              cases hplace.symm.trans herror
        · obtain ⟨b, hflag⟩ := flagPlace_eq_ok_iff.mp hp
          cases hget.symm.trans hflag
          exact .short he hname rfl hshort

/-! ## Accesses that are refused -/

theorem read_eq_error_iff (h : compile options n ds = .ok l) :
    l.read image name index = .error x ↔ l.ElementRefused image name index none x := by
  rw [read, bind_eq_error_iff, elementRefused_iff h]
  refine or_congr_right (exists_congr fun p => and_congr_right fun _ => ?_)
  rw [bind_pure_eq_error_iff, Image.slice_eq_error_iff]
  simp [Element.region, Region.finish]

theorem write_eq_error_iff (h : compile options n ds = .ok l) {v : Value} :
    l.write image name index v = .error x ↔
      l.ElementRefused image name index (some v.type) x := by
  rw [write, bind_eq_error_iff, elementRefused_iff h]
  refine or_congr_right (exists_congr fun p => and_congr_right fun _ => ?_)
  by_cases htype : v.type = p.type
  · simp [htype, Image.splice_eq_error_iff, ByteOrder.length_encode, Element.region,
      Region.finish]
  · simp [htype, eq_comm]

theorem readScaled_eq_error_iff :
    l.readScaled image name index = .error x ↔ l.read image name index = .error x := by
  rw [readScaled, bind_eq_error_iff]
  constructor
  · rintro (herror | ⟨p, _, hread⟩)
    · rw [read, herror]
      rfl
    · exact bind_pure_eq_error_iff.mp hread
  · intro hread
    cases helement : l.element name index with
    | error y =>
        rw [read, helement] at hread
        cases hread
        exact Or.inl rfl
    | ok p => exact Or.inr ⟨p, rfl, bind_pure_eq_error_iff.mpr hread⟩

/-- What is stored for a value in engineering units is of the type of the element. -/
theorem type_storedFor (h : compile options n ds = .ok l) {p : Element}
    (hp : l.element name index = .ok p) (v : Binary64) : (storedFor p v).type = p.type := by
  obtain ⟨f, offset, size, scaling, t, hget, hcontent, -, rfl⟩ := element_eq_ok_iff.mp hp
  cases scaling with
  | some a =>
      have hstorage := storage_of_compileIn h (entry_of_get? hget).1
      cases hcontent.symm.trans hstorage
      exact Value.type_ofInt (.integer a.storage) _
  | none =>
      cases t with
      | integer t => exact Value.type_ofInt (.integer t) _
      | float => rfl

theorem writeScaled_eq_error_iff (h : compile options n ds = .ok l) {v : Binary64} :
    l.writeScaled image name index v = .error x ↔
      l.ElementRefused image name index none x := by
  rw [writeScaled, bind_eq_error_iff, elementRefused_iff h]
  refine or_congr_right (exists_congr fun p => and_congr_right fun hp => ?_)
  rw [write, hp, ok_bind, if_pos (type_storedFor h hp v), Image.splice_eq_error_iff,
    ByteOrder.length_encode]
  simp [Element.region, Region.finish]

theorem readFlag_eq_error_iff (h : compile options n ds = .ok l) :
    l.readFlag image name = .error x ↔ l.FlagRefused image name x := by
  rw [readFlag, bind_eq_error_iff, flagRefused_iff h]
  refine or_congr_right (exists_congr fun p => and_congr_right fun _ => ?_)
  rw [bind_pure_eq_error_iff, Image.slice_eq_error_iff]
  rfl

theorem writeFlag_eq_error_iff (h : compile options n ds = .ok l) {on : Bool} :
    l.writeFlag image name on = .error x ↔ l.FlagRefused image name x := by
  rw [writeFlag, bind_eq_error_iff, flagRefused_iff h]
  refine or_congr_right (exists_congr fun p => and_congr_right fun _ => ?_)
  rw [bind_eq_error_iff, Image.slice_eq_error_iff]
  constructor
  · rintro (hshort | ⟨bytes, hslice, hsplice⟩)
    · exact hshort
    · rw [Image.splice_eq_error_iff, ByteOrder.length_encode] at hsplice
      exact hsplice
  · exact Or.inl

theorem perform_eq_error_iff (h : compile options n ds = .ok l) {access : Access} :
    (l.perform image access).1 = .error x ↔ l.Refused image access x := by
  have hstore (call : StoreCall) : (l.perform image (.store call)).1 = .error x ↔
      l.store image call = .error x := by
    rw [perform]
    cases l.store image call <;> simp
  cases access with
  | value name index => exact map_eq_error_iff.trans (read_eq_error_iff h)
  | scaled name index =>
      exact map_eq_error_iff.trans (readScaled_eq_error_iff.trans (read_eq_error_iff h))
  | flag name => exact map_eq_error_iff.trans (readFlag_eq_error_iff h)
  | store call =>
      rw [hstore]
      cases call with
      | value name index v => exact write_eq_error_iff h
      | scaled name index v => exact writeScaled_eq_error_iff h
      | flag name on => exact writeFlag_eq_error_iff h

/-! ## Images that are long enough -/

theorem ElementRefused.needed_le (h : compile options n ds = .ok l) {needed available : Nat}
    (hrefused : l.ElementRefused image name index stored (.shortImage needed available)) :
    needed ≤ l.totalSize ∧ image.length < needed := by
  cases hrefused with
  | @short e p he hname hkind hindex _ hshort =>
      refine ⟨?_, hshort⟩
      have hfinish := finish_le_of_compileIn h e he
      rw [← elements_of_compileIn h he hkind] at hindex
      obtain ⟨f, offset, size, scaling, rfl, hcontent⟩ := Entry.exists_primitive hkind
      have hwithin := (wellPlaced_of_compileIn h).element_within
        ((get?_eq_some_iff h).mpr ⟨he, hname⟩) hcontent hindex
      exact hwithin.2.trans hfinish

theorem FlagRefused.needed_le (h : compile options n ds = .ok l) {needed available : Nat}
    (hrefused : l.FlagRefused image name (.shortImage needed available)) :
    needed ≤ l.totalSize ∧ image.length < needed := by
  cases hrefused with
  | short he _ _ hshort => exact ⟨finish_le_of_compileIn h _ he, hshort⟩

theorem Refused.needed_le (h : compile options n ds = .ok l) {access : Access}
    {needed available : Nat} (hrefused : l.Refused image access (.shortImage needed available)) :
    needed ≤ l.totalSize ∧ image.length < needed := by
  rcases access with _ | _ | _ | (_ | _ | _)
  · exact ElementRefused.needed_le h hrefused
  · exact ElementRefused.needed_le h hrefused
  · exact FlagRefused.needed_le h hrefused
  · exact ElementRefused.needed_le h hrefused
  · exact ElementRefused.needed_le h hrefused
  · exact FlagRefused.needed_le h hrefused

/-! ## Compiled layouts -/

/-- What is refused is known, and a refusal leaves no trace in the image. -/
structure RefusesExactly (l : Layout) (image : Image) : Prop where
  refused : ∀ access x, (l.perform image access).1 = .error x ↔ l.Refused image access x
  answered : ∀ access, (∃ answer, (l.perform image access).1 = .ok answer) ↔
    ∀ x, ¬l.Refused image access x
  readScaled : ∀ name index x,
    l.readScaled image name index = .error x ↔ l.read image name index = .error x
  /-- As a value of the right type is. -/
  writeScaled : ∀ name index v (w : Value),
    (∀ e ∈ l.entries, e.name = name → ∀ p, e.primitive? = some p → w.type = p) → ∀ x,
      (l.writeScaled image name index v = .error x ↔ l.write image name index w = .error x)
  scaledType : ∀ name index v field expected found,
    l.writeScaled image name index v ≠ .error (.typeMismatch field expected found)
  inPlace : ∀ call, InPlace.onImage (l.storeInPlace call) image =
    outcome image (l.store image call)
  unchanged : ∀ call x after,
    InPlace.onImage (l.storeInPlace call) image = (.error x, after) → after = image
  longEnough : l.totalSize ≤ image.length → ∀ access needed available,
    (l.perform image access).1 ≠ .error (.shortImage needed available)

theorem refusesExactly_of_compile (h : compile options n ds = .ok l) (image : Image) :
    l.RefusesExactly image where
  refused _ _ := perform_eq_error_iff h
  answered access := by
    constructor
    · rintro ⟨answer, hanswer⟩ x hrefused
      cases hanswer.symm.trans ((perform_eq_error_iff h).mpr hrefused)
    · intro hnone
      cases hresult : (l.perform image access).1 with
      | error x => exact absurd ((perform_eq_error_iff h).mp hresult) (hnone x)
      | ok answer => exact ⟨answer, rfl⟩
  readScaled _ _ _ := readScaled_eq_error_iff
  writeScaled name index v w htype x := by
    rw [writeScaled_eq_error_iff h, write_eq_error_iff h, elementRefused_some_iff htype]
  scaledType name index v field expected found := by
    rw [ne_eq, writeScaled_eq_error_iff h]
    intro hrefused
    cases hrefused with
    | type _ _ _ _ hstored _ => cases hstored
  inPlace := onImage_storeInPlace
  unchanged call x after := by
    rw [onImage_storeInPlace]
    cases l.store image call with
    | ok final => exact nofun
    | error y =>
        intro heq
        cases heq
        rfl
  longEnough hsize access needed available hshort := by
    obtain ⟨hneeded, hlt⟩ := Refused.needed_le h ((perform_eq_error_iff h).mp hshort)
    omega

/-- One access for each reason to refuse one. -/
def refusedSample : List Access :=
  [.value "gain" 0, .scaled "on" 0, .value "trim" 2, .store (.value "trim" 0 (.float .nan)),
    .store (.scaled "trim" 1 (.ofInt 5)), .flag "mode", .store (.flag "on" true)]

theorem refusesExactly_storeSample :
    ∃ l, compile {} "sample" storeSample = .ok l ∧ l.RefusesExactly [1, 2, 3] ∧
      refusedSample.map (fun access => (l.perform [1, 2, 3] access).1) =
        [.error (.unknownField "gain"), .error (.notPrimitive "on"),
          .error (.indexOutOfRange "trim" 2 2),
          .error (.typeMismatch "trim" (.integer ⟨true, .two⟩) .float),
          .error (.shortImage 9 3), .error (.notFlag "mode"), .error (.shortImage 5 3)] := by
  obtain ⟨l, hl, hrefused⟩ : ∃ l, compile {} "sample" storeSample = .ok l ∧
      refusedSample.map (fun access => (l.perform [1, 2, 3] access).1) =
        [.error (.unknownField "gain"), .error (.notPrimitive "on"),
          .error (.indexOutOfRange "trim" 2 2),
          .error (.typeMismatch "trim" (.integer ⟨true, .two⟩) .float),
          .error (.shortImage 9 3), .error (.notFlag "mode"), .error (.shortImage 5 3)] :=
    ⟨_, rfl, by decide +kernel⟩
  exact ⟨l, hl, refusesExactly_of_compile hl [1, 2, 3], hrefused⟩

end Layout

end StructureLayout
