import StructureLayout.Proofs.Image.Place

/-!
# Stores to an image

Whatever is stored in the elements and flags of a compiled layout, each of them holds what it
was given last, and nothing else in the image changes.
-/

namespace StructureLayout

/-- An element of a field, or a flag. -/
inductive Target
  | element (name : String) (index : Nat)
  | flag (name : String)
deriving DecidableEq

inductive StoreCall
  | value (name : String) (index : Nat) (v : Value)
  /-- A value in engineering units. -/
  | scaled (name : String) (index : Nat) (v : Binary64)
  | flag (name : String) (on : Bool)

def StoreCall.target : StoreCall → Target
  | value name index _ => .element name index
  | scaled name index _ => .element name index
  | flag name _ => .flag name

def Element.put (p : Element) (v : Value) : Update := ⟨p.region, fun _ => v.toBits⟩

def FlagPlace.put (p : FlagPlace) (on : Bool) : Update :=
  ⟨p.region, fun bits => setBit bits p.bit on⟩

theorem FlagPlace.put_lt {p : FlagPlace} (hbit : p.bit < p.word.bits) (on : Bool) :
    ∀ n < 256 ^ (p.put on).count, (p.put on).change n < 256 ^ (p.put on).count := by
  intro n hn
  have hcount : 256 ^ (p.put on).count = 2 ^ p.word.bits := p.word.two_pow_bits.symm
  rw [hcount] at hn ⊢
  exact setBit_lt hn hbit on

theorem FlagPlace.put_commute {p q : FlagPlace} (hregion : p.region = q.region)
    (hbit : p.bit ≠ q.bit) (hp : p.bit < p.word.bits) (hq : q.bit < q.word.bits) (a b : Bool) :
    (p.put a).Commute (q.put b) where
  region := hregion
  change n := setBit_comm hbit.symm n b a
  lt_left := p.put_lt hp a
  lt_right := q.put_lt hq b

namespace Layout

variable {l : Layout} {image final : Image} {name : String} {index : Nat} {call : StoreCall}
  {u : Update}

def store (l : Layout) (image : Image) : StoreCall → Except AccessError Image
  | .value name index v => l.write image name index v
  | .scaled name index v => l.writeScaled image name index v
  | .flag name on => l.writeFlag image name on

def storeAll (l : Layout) (image : Image) (calls : List StoreCall) : Except AccessError Image :=
  calls.foldlM l.store image

/-- The bytes of an element, or of the word of a flag. -/
def region (l : Layout) : Target → Except AccessError Region
  | .element name index => return (← l.element name index).region
  | .flag name => return (← l.flagPlace name).region

def storedValue? (l : Layout) (name : String) (index : Nat) : StoreCall → Option Value
  | .value n i v => if n = name ∧ i = index then some v else none
  | .scaled n i v =>
    if n = name ∧ i = index then (l.element n i).toOption.map (storedFor · v) else none
  | .flag _ _ => none

def storedFlag? (name : String) : StoreCall → Option Bool
  | .flag n on => if n = name then some on else none
  | _ => none

inductive Performs (l : Layout) : StoreCall → Update → Prop
  | element {call : StoreCall} {name : String} {index : Nat} {p : Element} {v : Value}
      (target : call.target = .element name index) (place : l.element name index = .ok p)
      (type : v.type = p.type) (stored : l.storedValue? name index call = some v) :
      Performs l call (p.put v)
  | flag {name : String} {on : Bool} {p : FlagPlace} (place : l.flagPlace name = .ok p) :
      Performs l (.flag name on) (p.put on)

/-! ## One store -/

theorem write_eq_ok_iff {v : Value} :
    l.write image name index v = .ok final ↔
      ∃ p, l.element name index = .ok p ∧ v.type = p.type ∧
        (p.put v).finish ≤ image.length ∧ final = (p.put v).apply l.options.byteOrder image := by
  rw [write, bind_eq_ok_iff]
  apply exists_congr
  intro p
  apply and_congr_right
  intro _
  by_cases htype : v.type = p.type
  · rw [if_pos htype, Image.splice_eq_ok_iff, ByteOrder.length_encode]
    exact ⟨fun h => ⟨htype, h⟩, And.right⟩
  · simp [htype]

theorem writeFlag_eq_ok_iff {on : Bool} :
    l.writeFlag image name on = .ok final ↔
      ∃ p, l.flagPlace name = .ok p ∧ (p.put on).finish ≤ image.length ∧
        final = (p.put on).apply l.options.byteOrder image := by
  rw [writeFlag, bind_eq_ok_iff]
  apply exists_congr
  intro p
  apply and_congr_right
  intro _
  rw [bind_eq_ok_iff]
  simp only [Image.slice_eq_ok_iff, Image.splice_eq_ok_iff, ByteOrder.length_encode]
  constructor
  · rintro ⟨_, ⟨hfits, rfl⟩, _, rfl⟩
    exact ⟨hfits, rfl⟩
  · rintro ⟨hfits, rfl⟩
    exact ⟨_, ⟨hfits, rfl⟩, hfits, rfl⟩

theorem storedValue?_scaled {v : Binary64} {p : Element} (hp : l.element name index = .ok p) :
    l.storedValue? name index (.scaled name index v) = some (storedFor p v) := by
  rw [storedValue?, if_pos ⟨rfl, rfl⟩, hp]
  rfl

theorem storedValue?_of_ne (h : call.target ≠ .element name index) :
    l.storedValue? name index call = none := by
  cases call with
  | value n i v => simpa [StoreCall.target, storedValue?] using h
  | scaled n i v =>
      have hne : ¬(n = name ∧ i = index) := by simpa [StoreCall.target] using h
      rw [storedValue?, if_neg hne]
  | flag n on => rfl

theorem store_eq_ok_iff :
    l.store image call = .ok final ↔
      ∃ u, l.Performs call u ∧ u.finish ≤ image.length ∧
        final = u.apply l.options.byteOrder image := by
  constructor
  · intro h
    cases call with
    | value name index v =>
        obtain ⟨p, hp, htype, hfits, rfl⟩ := write_eq_ok_iff.mp h
        exact ⟨_, .element rfl hp htype (if_pos ⟨rfl, rfl⟩), hfits, rfl⟩
    | scaled name index v =>
        obtain ⟨p, hp, hwrite⟩ := bind_eq_ok_iff.mp h
        obtain ⟨q, hq, htype, hfits, rfl⟩ := write_eq_ok_iff.mp hwrite
        cases hp.symm.trans hq
        exact ⟨_, .element rfl hp htype (storedValue?_scaled hp), hfits, rfl⟩
    | flag name on =>
        obtain ⟨p, hp, hfits, rfl⟩ := writeFlag_eq_ok_iff.mp h
        exact ⟨_, .flag hp, hfits, rfl⟩
  · rintro ⟨u, hperforms, hfits, rfl⟩
    cases hperforms with
    | flag hp => exact writeFlag_eq_ok_iff.mpr ⟨_, hp, hfits, rfl⟩
    | element htarget hp htype hstored =>
        cases call with
        | value n i v =>
            cases htarget
            cases (if_pos ⟨rfl, rfl⟩).symm.trans hstored
            exact write_eq_ok_iff.mpr ⟨_, hp, htype, hfits, rfl⟩
        | scaled n i v =>
            cases htarget
            cases (storedValue?_scaled hp).symm.trans hstored
            exact bind_eq_ok_iff.mpr ⟨_, hp, write_eq_ok_iff.mpr ⟨_, hp, htype, hfits, rfl⟩⟩
        | flag n on => cases htarget

theorem Performs.region_eq (h : l.Performs call u) : l.region call.target = .ok u.toRegion := by
  cases h with
  | element htarget hp _ _ =>
      rw [htarget]
      exact bind_eq_ok_iff.mpr ⟨_, hp, rfl⟩
  | flag hp => exact bind_eq_ok_iff.mpr ⟨_, hp, rfl⟩

theorem getElem?_store {byte : Nat} (hs : l.store image call = .ok final)
    (hbyte : ∀ r, l.region call.target = .ok r → ¬r.Covers byte) :
    final[byte]? = image[byte]? := by
  obtain ⟨u, hperforms, hfits, rfl⟩ := store_eq_ok_iff.mp hs
  exact Update.getElem?_apply_of_not_covers hfits (hbyte _ hperforms.region_eq)

theorem length_store (hs : l.store image call = .ok final) : final.length = image.length := by
  obtain ⟨u, _, hfits, rfl⟩ := store_eq_ok_iff.mp hs
  exact Update.length_apply hfits

/-! ## Reading an element after a store -/

theorem read_put {p : Element} {v : Value} (hp : l.element name index = .ok p)
    (htype : v.type = p.type) (hfits : (p.put v).finish ≤ image.length) :
    l.read ((p.put v).apply l.options.byteOrder image) name index = .ok v := by
  have hlt : v.toBits < 256 ^ p.type.size := htype ▸ v.toBits_lt
  have hbits : l.options.byteOrder.decode ((p.put v).bytes l.options.byteOrder image) =
      v.toBits := Update.decode_bytes hlt
  rw [read, hp, ok_bind]
  refine bind_eq_ok_iff.mpr ⟨_, Update.slice_apply hfits, ?_⟩
  rw [hbits, ← htype, v.ofBits_toBits]
  rfl

theorem read_of_apart {p : Element} (hp : l.element name index = .ok p)
    (hfits : u.finish ≤ image.length) (hapart : u.Apart p.region) :
    l.read (u.apply l.options.byteOrder image) name index = l.read image name index := by
  have hslice : (u.apply l.options.byteOrder image).slice p.offset p.type.size =
      image.slice p.offset p.type.size := Update.slice_apply_of_apart hfits hapart
  rw [read, read, hp, ok_bind, ok_bind, hslice]

theorem read_store (h : l.WellPlaced) (hs : l.store image call = .ok final) :
    l.read final name index =
      (l.storedValue? name index call).elim (l.read image name index) .ok := by
  obtain ⟨u, hperforms, hfits, rfl⟩ := store_eq_ok_iff.mp hs
  by_cases htarget : call.target = .element name index
  · cases hperforms with
    | @element _ n i p v hcall hp htype hstored =>
        cases htarget.symm.trans hcall
        rw [hstored]
        exact read_put hp htype hfits
    | flag hp => cases htarget
  · rw [storedValue?_of_ne htarget]
    cases hp : l.element name index with
    | error e => simp [read, hp, bind, Except.bind]
    | ok p =>
        have hapart : u.Apart p.region := by
          cases hperforms with
          | element hcall hq _ _ =>
              refine h.elements_apart hq hp ?_
              rintro rfl rfl
              exact htarget hcall
          | flag hq => exact (h.element_flag_apart hp hq).symm
        exact read_of_apart hp hfits hapart

/-! ## Reading a bit after a store -/

/-- One bit of a word, which need not be that of a flag. -/
def bitAt (l : Layout) (image : Image) (p : FlagPlace) : Except AccessError Bool := do
  let bytes ← image.slice p.offset p.word.bytes
  return (l.options.byteOrder.decode bytes).testBit p.bit

theorem readFlag_eq_bitAt {p : FlagPlace} (hp : l.flagPlace name = .ok p) :
    l.readFlag image name = l.bitAt image p := by
  rw [readFlag, hp]
  rfl

theorem bitAt_of_apart {p : FlagPlace} (hfits : u.finish ≤ image.length)
    (hapart : u.Apart p.region) :
    l.bitAt (u.apply l.options.byteOrder image) p = l.bitAt image p := by
  have hslice : (u.apply l.options.byteOrder image).slice p.offset p.word.bytes =
      image.slice p.offset p.word.bytes := Update.slice_apply_of_apart hfits hapart
  rw [bitAt, bitAt, hslice]

theorem bitAt_put {p : FlagPlace} {on : Bool} (hbit : p.bit < p.word.bits)
    (hfits : (p.put on).finish ≤ image.length) (bit : Nat) :
    l.bitAt ((p.put on).apply l.options.byteOrder image) { p with bit := bit } =
      if bit = p.bit then .ok on else l.bitAt image { p with bit := bit } := by
  have hlt := p.put_lt hbit on _ (Image.number_lt l.options.byteOrder hfits)
  have hafter : l.bitAt ((p.put on).apply l.options.byteOrder image) { p with bit := bit } =
      .ok ((setBit (image.number l.options.byteOrder p.region) p.bit on).testBit bit) := by
    refine bind_eq_ok_iff.mpr ⟨_, Update.slice_apply hfits, ?_⟩
    rw [Update.decode_bytes hlt]
    rfl
  have hbefore : l.bitAt image { p with bit := bit } =
      .ok ((image.number l.options.byteOrder p.region).testBit bit) :=
    bind_eq_ok_iff.mpr ⟨_, Image.slice_eq_ok_iff.mpr ⟨hfits, rfl⟩, rfl⟩
  rw [hafter, hbefore, testBit_setBit]
  split <;> rfl

theorem bitAt_store (h : l.WellPlaced) (hs : l.store image call = .ok final) {p : FlagPlace}
    (hp : l.flagPlace name = .ok p) {bit : Nat}
    (hbit : ∀ n on q, call = .flag n on → l.flagPlace n = .ok q → q.offset = p.offset →
      q.bit ≠ bit) :
    l.bitAt final { p with bit := bit } = l.bitAt image { p with bit := bit } := by
  obtain ⟨u, hperforms, hfits, rfl⟩ := store_eq_ok_iff.mp hs
  cases hperforms with
  | element _ hq _ _ =>
      have hapart := h.element_flag_apart hq hp
      exact bitAt_of_apart hfits hapart
  | @flag n on q hq =>
      by_cases hoffset : q.offset = p.offset
      · have hword : q.word = p.word := (h.flag_word hq).1.trans (h.flag_word hp).1.symm
        have hput := bitAt_put (l := l) (h.flag_word hq).2 hfits bit
        rw [if_neg (hbit n on q rfl hq hoffset).symm, hoffset, hword] at hput
        exact hput
      · have hapart : q.region.Apart p.region := by
          by_cases hname : n = name
          · subst hname
            cases hq.symm.trans hp
            exact absurd rfl hoffset
          · rcases h.flags_apart hq hp hname with ⟨hregion, _⟩ | hapart
            · exact absurd (congrArg Region.offset hregion) hoffset
            · exact hapart
        exact bitAt_of_apart hfits hapart

theorem storedFlag?_of_ne (h : call.target ≠ .flag name) : storedFlag? name call = none := by
  cases call with
  | value n i v => rfl
  | scaled n i v => rfl
  | flag n on => simpa [StoreCall.target, storedFlag?] using h

theorem readFlag_store (h : l.WellPlaced) (hs : l.store image call = .ok final) :
    l.readFlag final name = (storedFlag? name call).elim (l.readFlag image name) .ok := by
  by_cases htarget : call.target = .flag name
  · cases call with
    | value n i v => cases htarget
    | scaled n i v => cases htarget
    | flag n on =>
        cases htarget
        obtain ⟨p, hp, hfits, rfl⟩ := writeFlag_eq_ok_iff.mp hs
        rw [readFlag_eq_bitAt hp, storedFlag?, if_pos rfl]
        exact (bitAt_put (h.flag_word hp).2 hfits p.bit).trans (if_pos rfl)
  · rw [storedFlag?_of_ne htarget]
    cases hp : l.flagPlace name with
    | error e => simp [readFlag, hp, bind, Except.bind]
    | ok p =>
        rw [readFlag_eq_bitAt hp, readFlag_eq_bitAt hp]
        refine bitAt_store h hs hp ?_
        rintro n on q rfl hq hoffset
        refine h.bit_ne hq hp ?_ hoffset
        rintro rfl
        exact htarget rfl

/-! ## Order of stores -/

theorem Performs.apart_or_commute (h : l.WellPlaced) {other : StoreCall} {v : Update}
    (hu : l.Performs call u) (hv : l.Performs other v) (hne : call.target ≠ other.target) :
    u.Apart v.toRegion ∨ u.Commute v := by
  cases hu with
  | element htarget hp _ _ =>
      left
      cases hv with
      | element htarget' hq _ _ =>
          refine h.elements_apart hp hq ?_
          rintro rfl rfl
          exact hne (htarget.trans htarget'.symm)
      | flag hq => exact h.element_flag_apart hp hq
  | @flag n a p hp =>
      cases hv with
      | element _ hq _ _ => exact Or.inl (h.element_flag_apart hq hp).symm
      | @flag m b q hq =>
          have hname : n ≠ m := by
            rintro rfl
            exact hne rfl
          rcases h.flags_apart hp hq hname with ⟨hregion, hbit⟩ | hapart
          · right
            exact FlagPlace.put_commute hregion hbit (h.flag_word hp).2 (h.flag_word hq).2 a b
          · exact Or.inl hapart

theorem store_comm (h : l.WellPlaced) {other : StoreCall} {mid : Image}
    (hne : call.target ≠ other.target) (hfirst : l.store image call = .ok mid)
    (hsecond : l.store mid other = .ok final) :
    ∃ mid, l.store image other = .ok mid ∧ l.store mid call = .ok final := by
  obtain ⟨u, hu, hufits, rfl⟩ := store_eq_ok_iff.mp hfirst
  obtain ⟨v, hv, hvfits, rfl⟩ := store_eq_ok_iff.mp hsecond
  rw [Update.length_apply hufits] at hvfits
  refine ⟨_, store_eq_ok_iff.mpr ⟨v, hv, hvfits, rfl⟩, store_eq_ok_iff.mpr ⟨u, hu, ?_, ?_⟩⟩
  · rwa [Update.length_apply hvfits]
  · rcases hu.apart_or_commute h hv hne with hapart | hcommute
    · exact Update.apply_comm_of_apart hufits hvfits hapart
    · exact Update.apply_comm_of_commute hufits hcommute

/-! ## Many stores -/

theorem storeAll_cons_eq_ok_iff {calls : List StoreCall} :
    l.storeAll image (call :: calls) = .ok final ↔
      ∃ mid, l.store image call = .ok mid ∧ l.storeAll mid calls = .ok final := by
  rw [storeAll, List.foldlM_cons]
  exact bind_eq_ok_iff

/-- What every call replaces or leaves is, after all of them, what the last call put there. -/
theorem observe_storeAll {ρ β : Type} {observe : Image → ρ} {stored? : StoreCall → Option β}
    {result : β → ρ} {calls : List StoreCall}
    (hstep : ∀ {call image final}, l.store image call = .ok final →
      observe final = (stored? call).elim (observe image) result)
    (hs : l.storeAll image calls = .ok final) :
    observe final = (calls.filterMap stored?).getLast?.elim (observe image) result := by
  induction calls generalizing image with
  | nil =>
      cases hs
      rfl
  | cons call calls ih =>
      obtain ⟨mid, hfirst, hrest⟩ := storeAll_cons_eq_ok_iff.mp hs
      rw [ih hrest, hstep hfirst]
      cases hstored : stored? call with
      | none => rw [List.filterMap_cons_none hstored, Option.elim_none]
      | some b =>
          rw [List.filterMap_cons_some hstored, List.getLast?_cons]
          cases (calls.filterMap stored?).getLast? <;> rfl

/-- What none of the calls changes is after them as it was before. -/
theorem observe_storeAll_of_forall {ρ : Type} {observe : Image → ρ} {P : StoreCall → Prop}
    {calls : List StoreCall}
    (hstep : ∀ {call image final}, P call → l.store image call = .ok final →
      observe final = observe image)
    (hcalls : ∀ call ∈ calls, P call) (hs : l.storeAll image calls = .ok final) :
    observe final = observe image := by
  induction calls generalizing image with
  | nil =>
      cases hs
      rfl
  | cons call calls ih =>
      obtain ⟨mid, hfirst, hrest⟩ := storeAll_cons_eq_ok_iff.mp hs
      obtain ⟨hcall, hcalls⟩ := List.forall_mem_cons.mp hcalls
      rw [ih hcalls hrest, hstep hcall hfirst]

/-- After the calls the image holds what was stored last and is otherwise as before. -/
structure Holds (l : Layout) (calls : List StoreCall) (image final : Image) : Prop where
  element : ∀ name index, l.read final name index =
    (calls.filterMap (l.storedValue? name index)).getLast?.elim (l.read image name index) .ok
  flag : ∀ name, l.readFlag final name =
    (calls.filterMap (storedFlag? name)).getLast?.elim (l.readFlag image name) .ok
  byte : ∀ byte, (∀ call ∈ calls, ∀ r, l.region call.target = .ok r → ¬r.Covers byte) →
    final[byte]? = image[byte]?
  /-- In the word of a flag the bits that are not stored stay. -/
  bit : ∀ name p, l.flagPlace name = .ok p → ∀ bit,
    (∀ n on q, StoreCall.flag n on ∈ calls → l.flagPlace n = .ok q → q.offset = p.offset →
      q.bit ≠ bit) →
    l.bitAt final { p with bit := bit } = l.bitAt image { p with bit := bit }
  length : final.length = image.length

theorem WellPlaced.holds (h : l.WellPlaced) {calls : List StoreCall}
    (hs : l.storeAll image calls = .ok final) : l.Holds calls image final where
  element name index := observe_storeAll (read_store h) hs
  flag name := observe_storeAll (readFlag_store h) hs
  byte byte hcalls :=
    observe_storeAll_of_forall (fun hcall hs => getElem?_store hs hcall) hcalls hs
  bit name p hp bit hcalls := by
    refine observe_storeAll_of_forall (fun hcall hs => bitAt_store h hs hp hcall) ?_ hs
    rintro call hmem n on q rfl hq hoffset
    exact hcalls n on q hmem hq hoffset
  length := observe_storeAll_of_forall (P := fun _ => True) (fun _ => length_store)
    (fun _ _ => trivial) hs

/-- In a compiled layout every sequence of stores is kept, and stores to different targets can
be made in either order. -/
theorem storeAll_holds {options : Options} {ds : List Declaration}
    (h : compile options name ds = .ok l) (image : Image) :
    (∀ calls final, l.storeAll image calls = .ok final → l.Holds calls image final) ∧
      ∀ c d, c.target ≠ d.target → ∀ final,
        l.storeAll image [c, d] = .ok final ↔ l.storeAll image [d, c] = .ok final := by
  have hplaced := wellPlaced_of_compileIn h
  have hswap (c d : StoreCall) (hne : c.target ≠ d.target) (final : Image)
      (hs : l.storeAll image [c, d] = .ok final) : l.storeAll image [d, c] = .ok final := by
    obtain ⟨mid, hfirst, hrest⟩ := storeAll_cons_eq_ok_iff.mp hs
    obtain ⟨_, hsecond, hnil⟩ := storeAll_cons_eq_ok_iff.mp hrest
    cases hnil
    obtain ⟨mid, hfirst, hsecond⟩ := store_comm hplaced hne hfirst hsecond
    exact storeAll_cons_eq_ok_iff.mpr
      ⟨mid, hfirst, storeAll_cons_eq_ok_iff.mpr ⟨final, hsecond, rfl⟩⟩
  refine ⟨fun calls final => hplaced.holds, ?_⟩
  intro c d hne final
  exact ⟨hswap c d hne final, hswap d c hne.symm final⟩

/-- A byte, two flags in one word and a pair of signed integers. -/
def storeSample : List Declaration :=
  [.field { name := "mode", content := .primitive (.integer ⟨false, .one⟩) },
    .flag { name := "on" }, .flag { name := "off" },
    .field { name := "trim", content := .primitive (.integer ⟨true, .two⟩), dimensions := [2] }]

def storeSampleCalls : List StoreCall :=
  [.flag "on" true, .value "trim" 1 (.ofInt (.integer ⟨true, .two⟩) (-2)), .flag "off" true,
    .scaled "mode" 0 (.ofInt 300), .flag "on" false]

theorem storeSample_holds :
    ∃ l final, compile { byteOrder := .big } "sample" storeSample = .ok l ∧
      l.storeAll l.blankImage storeSampleCalls = .ok final ∧
      l.Holds storeSampleCalls l.blankImage final ∧
      final = [255, 0, 0, 0, 2, 0, 0, 255, 254] ∧
      (l.storeAll l.blankImage [.flag "on" true, .flag "off" true] =
          .ok [0, 0, 0, 0, 3, 0, 0, 0, 0] ↔
        l.storeAll l.blankImage [.flag "off" true, .flag "on" true] =
          .ok [0, 0, 0, 0, 3, 0, 0, 0, 0]) := by
  obtain ⟨l, hl, hs⟩ : ∃ l, compile { byteOrder := .big } "sample" storeSample = .ok l ∧
      l.storeAll l.blankImage storeSampleCalls = .ok [255, 0, 0, 0, 2, 0, 0, 255, 254] :=
    ⟨_, rfl, by decide +kernel⟩
  exact ⟨l, _, hl, hs, (storeAll_holds hl _).1 _ _ hs, rfl,
    (storeAll_holds hl _).2 _ _ (by decide) _⟩

end Layout

end StructureLayout
