import StructureLayout.Proofs.Machine.Placement
import StructureLayout.Proofs.Image.Refusal

/-!
# Images on a machine

The places that an access forms are within the layout, and the layout is within the address
space.  The bytes taken from an image are as many as are used, and a flag is a bit of its word.
-/

namespace StructureLayout

namespace Machine

/-! ## Words -/

/-- The number in the first bytes of a buffer. -/
def load? (order : ByteOrder) (count : Nat) (buffer : List UInt8) : Option Nat :=
  if count ≤ buffer.length then some (order.decode (buffer.take count)) else none

/-- A buffer with a number in its first bytes. -/
def store? (order : ByteOrder) (count n : Nat) (buffer : List UInt8) : Option (List UInt8) :=
  if count ≤ buffer.length then some (order.encode count n ++ buffer.drop count) else none

/-- The bytes of a word as the length of its buffer tells. -/
def wordBytes : Nat → Nat
  | 1 => 1
  | 2 => 2
  | _ => 4

def withBit (bits mask : Nat) (on : Bool) : Nat :=
  if on then bits ||| mask else bits &&& (0xFFFFFFFF ^^^ mask)

section Words

variable {order : ByteOrder} {count : Nat} {buffer : List UInt8}

theorem load?_of_length (h : buffer.length = count) :
    load? order count buffer = some (order.decode buffer) := by
  rw [load?, if_pos h.ge, List.take_of_length_le h.le]

theorem store?_of_length (h : buffer.length = count) (n : Nat) :
    store? order count n buffer = some (order.encode count n) := by
  rw [store?, if_pos h.ge, List.drop_of_length_le h.le, List.append_nil]

theorem wordBytes_bytes (w : Width) : wordBytes w.bytes = w.bytes := by cases w <;> rfl

theorem decode_lt_of_length {w : Width} (h : buffer.length = w.bytes) :
    order.decode buffer < 2 ^ 32 := by
  have hlt := order.decode_lt buffer
  rw [h, ← w.two_pow_bits] at hlt
  exact hlt.trans_le (Nat.pow_le_pow_right (by decide) (bits_le w))

theorem and_mask (bits i : Nat) : (bits &&& (1 <<< i) != 0) = bits.testBit i := by
  rw [Nat.shiftLeft_eq, Nat.one_mul, Nat.and_two_pow]
  cases bits.testBit i <;> simp

theorem withBit_eq_setBit {bits : Nat} (hbits : bits < 2 ^ 32) (i : Nat) (on : Bool) :
    withBit bits (1 <<< i) on = setBit bits i on := by
  apply Nat.eq_of_testBit_eq
  intro j
  have hmask : (1 <<< i).testBit j = decide (i = j) := by
    rw [Nat.shiftLeft_eq, Nat.one_mul, Nat.testBit_two_pow]
  have hfull : Nat.testBit 0xFFFFFFFF j = decide (j < 32) := Nat.testBit_two_pow_sub_one 32 j
  rw [testBit_setBit, withBit]
  cases on with
  | true =>
      rw [if_pos rfl, Nat.testBit_or, hmask]
      by_cases hij : i = j <;> simp [hij, eq_comm]
  | false =>
      rw [if_neg Bool.false_ne_true, Nat.testBit_and, Nat.testBit_xor, hmask, hfull]
      by_cases hlt : j < 32
      · by_cases hij : i = j <;> simp [hij, hlt, eq_comm]
      · -- the word has no bit there
        have hnone : bits.testBit j = false :=
          Nat.testBit_lt_two_pow (hbits.trans_le (Nat.pow_le_pow_right (by decide) (by omega)))
        simp [hnone]

end Words

/-! ## Places -/

/-- The product of the dimensions, formed from the first one on. -/
def elements? (e : Entry Layout) : Option Nat :=
  (e.dimensions.foldlM AddressSpace.wide.mul? 1).map (max 1)

def element (l : Layout) (name : String) (index : Nat) : Machine AccessError Element := do
  let e ← l.entry name
  match e.primitive? with
  | none => throw (.notPrimitive name)
  | some type =>
    let count ← elements? e
    if index < count then
      let distance ← AddressSpace.wide.mul? index type.size
      let offset ← AddressSpace.wide.add? e.offset distance
      return ⟨type, offset, e.scaling?⟩
    else throw (.indexOutOfRange name index count)

def slice (image : Image) (offset count : Nat) : Machine AccessError (List UInt8) := do
  let finish ← AddressSpace.wide.add? offset count
  if finish ≤ image.length then return (image.drop offset).take count
  else throw (.shortImage finish image.length)

/-- The image with a buffer put back to where it was taken from. -/
def putBack (image : Image) (offset : Nat) (buffer : List UInt8) : Image :=
  image.take offset ++ buffer ++ image.drop (offset + buffer.length)

/-! ## Accesses -/

section Accesses

variable (l : Layout) (image : Image)

def read (name : String) (index : Nat) : Machine AccessError Value := do
  let e ← element l name index
  let buffer ← slice image e.offset e.type.size
  return .ofBits e.type (← load? l.options.byteOrder e.type.size buffer)

def write (name : String) (index : Nat) (v : Value) : Machine AccessError Image := do
  let e ← element l name index
  if v.type = e.type then
    let buffer ← slice image e.offset e.type.size
    let buffer ← store? l.options.byteOrder v.type.size v.toBits buffer
    return putBack image e.offset buffer
  else throw (.typeMismatch name e.type v.type)

def readScaled (name : String) (index : Nat) : Machine AccessError Binary64 := do
  let e ← element l name index
  let stored ← read l image name index
  return match e.scaling with
    | some a => a.decode stored
    | none => stored.toBinary64

def writeScaled (name : String) (index : Nat) (v : Binary64) : Machine AccessError Image := do
  let e ← element l name index
  write l image name index (Layout.storedFor e v)

def readFlag (name : String) : Machine AccessError Bool := do
  let p ← l.flagPlace name
  let buffer ← slice image p.offset p.word.bytes
  let bits ← load? l.options.byteOrder (wordBytes buffer.length) buffer
  let mask ← mask? p.bit
  return bits &&& mask != 0

def writeFlag (name : String) (on : Bool) : Machine AccessError Image := do
  let p ← l.flagPlace name
  let buffer ← slice image p.offset p.word.bytes
  let bits ← load? l.options.byteOrder (wordBytes buffer.length) buffer
  let mask ← mask? p.bit
  let buffer ← store? l.options.byteOrder (wordBytes buffer.length) (withBit bits mask on) buffer
  return putBack image p.offset buffer

def store : StoreCall → Machine AccessError Image
  | .value name index v => write l image name index v
  | .scaled name index v => writeScaled l image name index v
  | .flag name on => writeFlag l image name on

/-- The answer to an access, and the image after it, unless the access stops. -/
def perform : Access → Option (Except AccessError Answer × Image)
  | .value name index => do return ((← (read l image name index).run).map .value, image)
  | .scaled name index => do return ((← (readScaled l image name index).run).map .number, image)
  | .flag name => do return ((← (readFlag l image name).run).map .flag, image)
  | .store call => do
    match ← (store l image call).run with
    | .ok final => return (.ok .stored, final)
    | .error x => return (.error x, image)

end Accesses

variable {options : Options} {n name : String} {ds : List Declaration} {l : Layout}
  {image : Image} {index : Nat}

/-! ## Places are within the address space -/

theorem elements?_of_compile (h : Layout.compile options n ds = .ok l) {e : Entry Layout}
    (he : e ∈ l.entries) : elements? e = some e.elements := by
  have hsized := Layout.sized_of_compileIn h e he
  have hfits := fits_of_compile h he
  cases e with
  | flag b offset word bit => rfl
  | field f offset size scaling =>
      have hne := hsized.prod_ne_zero
      have hdims : 0 ∉ f.dimensions := fun hzero => hne (List.prod_eq_zero hzero)
      have hcontent : 0 < f.content.size := Nat.pos_of_mul_pos_right (hsized.1 ▸ hsized.2)
      have hle : 1 * f.dimensions.prod ≤ size := by
        rw [hsized.1, Nat.one_mul]
        exact Nat.le_mul_of_pos_left _ hcontent
      have hproduct : f.dimensions.foldlM AddressSpace.wide.mul? 1 = _ :=
        AddressSpace.foldlM_mul?_of_fits hdims
          (AddressSpace.fits_of_le (Nat.le_add_left_of_le hle) hfits)
      rw [elements?, Entry.dimensions, hproduct, Entry.elements, hsized.elements_eq, Nat.one_mul,
        Option.map_some, Nat.max_eq_right (Nat.pos_of_ne_zero hne)]

theorem fits_element (h : Layout.compile options n ds = .ok l) {p : Element}
    (hp : l.element name index = .ok p) :
    AddressSpace.wide.fits (p.offset + p.type.size) = true := by
  obtain ⟨f, offset, size, scaling, t, hget, hcontent, hindex, rfl⟩ :=
    Layout.element_eq_ok_iff.mp hp
  have hwithin := (Layout.wellPlaced_of_compileIn h).element_within hget hcontent hindex
  exact AddressSpace.fits_of_le hwithin.2 (fits_of_compile h (Layout.entry_of_get? hget).1)

theorem fits_flagPlace (h : Layout.compile options n ds = .ok l) {p : FlagPlace}
    (hp : l.flagPlace name = .ok p) :
    AddressSpace.wide.fits (p.offset + p.word.bytes) = true := by
  obtain ⟨b, hget⟩ := Layout.flagPlace_eq_ok_iff.mp hp
  exact fits_of_compile h (Layout.entry_of_get? hget).1

theorem get?_of_entry {e : Entry Layout} (h : l.entry name = .ok e) : l.get? name = some e := by
  unfold Layout.entry at h
  split at h
  · cases h
    assumption
  · cases h

theorem element_eq (h : Layout.compile options n ds = .ok l) (name : String) (index : Nat) :
    element l name index = liftM (l.element name index) := by
  apply bind_lift rfl
  intro e he
  have hget := get?_of_entry he
  cases hkind : e.primitive? with
  | none => rfl
  | some type =>
      obtain ⟨f, offset, size, scaling, rfl, hcontent⟩ := Entry.exists_primitive hkind
      dsimp only
      rw [some_bind (elements?_of_compile h (Layout.entry_of_get? hget).1)]
      by_cases hindex : index < f.elements
      · have hplace : l.element name index = .ok ⟨type, offset + index * type.size, scaling⟩ :=
          Layout.element_eq_ok_iff.mpr ⟨f, offset, size, scaling, type, hget, hcontent, hindex, rfl⟩
        have hoffset := AddressSpace.fits_of_le (Nat.le_add_right _ _) (fits_element h hplace)
        have hdistance := AddressSpace.fits_of_le (Nat.le_add_left _ _) hoffset
        rw [Entry.elements, if_pos hindex, if_pos hindex,
          some_bind (AddressSpace.mul?_of_fits hdistance)]
        exact some_bind (AddressSpace.add?_of_fits hoffset) _
      · rw [Entry.elements, if_neg hindex, if_neg hindex]
        rfl

theorem slice_eq {offset count : Nat}
    (hfits : AddressSpace.wide.fits (offset + count) = true) :
    slice image offset count = liftM (image.slice offset count) := by
  rw [slice, some_bind (AddressSpace.add?_of_fits hfits), Image.slice]
  split <;> rfl

theorem length_of_slice {offset count : Nat} {buffer : List UInt8}
    (h : image.slice offset count = .ok buffer) : buffer.length = count := by
  obtain ⟨hfits, rfl⟩ := Image.slice_eq_ok_iff.mp h
  rw [List.length_take, List.length_drop]
  omega

/-- Bytes are refused a place that no buffer can be taken from, and are put back there else. -/
theorem splice_eq_bind {offset count : Nat} {bytes : List UInt8} (h : bytes.length = count) :
    image.splice offset bytes =
      image.slice offset count >>= fun _ => .ok (putBack image offset bytes) := by
  rw [Image.splice, Image.slice, h]
  by_cases hfits : offset + count ≤ image.length
  · rw [if_pos hfits, if_pos hfits, ok_bind, putBack, h]
  · rw [if_neg hfits, if_neg hfits]
    rfl

/-! ## Accesses do not stop -/

section Accesses

variable (h : Layout.compile options n ds = .ok l) (image : Image) (name : String)
include h

theorem read_eq (index : Nat) : read l image name index = liftM (l.read image name index) := by
  apply bind_lift (element_eq h name index)
  intro p hp
  apply bind_lift (slice_eq (fits_element h hp))
  intro buffer hbuffer
  exact some_bind (load?_of_length (length_of_slice hbuffer)) _

theorem write_eq (index : Nat) (v : Value) :
    write l image name index v = liftM (l.write image name index v) := by
  apply bind_lift (element_eq h name index)
  intro p hp
  by_cases htype : v.type = p.type
  · have hlength := l.options.byteOrder.length_encode p.type.size v.toBits
    rw [if_pos htype, if_pos htype, splice_eq_bind hlength]
    apply bind_lift (slice_eq (fits_element h hp))
    intro buffer hbuffer
    rw [htype]
    exact some_bind (store?_of_length (length_of_slice hbuffer) _) _
  · rw [if_neg htype, if_neg htype]
    rfl

theorem readScaled_eq (index : Nat) :
    readScaled l image name index = liftM (l.readScaled image name index) := by
  apply bind_lift (element_eq h name index)
  intro p _
  apply bind_lift (read_eq h image name index)
  intro stored _
  rfl

theorem writeScaled_eq (index : Nat) (v : Binary64) :
    writeScaled l image name index v = liftM (l.writeScaled image name index v) := by
  apply bind_lift (element_eq h name index)
  intro p _
  exact write_eq h image name index _

theorem bit_lt (hp : l.flagPlace name = .ok p) : p.bit < 32 := by
  have hbit := ((Layout.wellPlaced_of_compileIn h).flag_word hp).2
  exact hbit.trans_le (bits_le p.word)

theorem readFlag_eq : readFlag l image name = liftM (l.readFlag image name) := by
  apply bind_lift rfl
  intro p hp
  apply bind_lift (slice_eq (fits_flagPlace h hp))
  intro buffer hbuffer
  have hlength := length_of_slice hbuffer
  have hload : load? l.options.byteOrder p.word.bytes buffer = _ := load?_of_length hlength
  rw [hlength, wordBytes_bytes, some_bind hload, some_bind (mask?_of_lt (bit_lt h name hp)),
    and_mask]
  rfl

theorem writeFlag_eq (on : Bool) :
    writeFlag l image name on = liftM (l.writeFlag image name on) := by
  apply bind_lift rfl
  intro p hp
  apply bind_lift (slice_eq (fits_flagPlace h hp))
  intro buffer hbuffer
  have hlength := length_of_slice hbuffer
  have hload : load? l.options.byteOrder p.word.bytes buffer = _ := load?_of_length hlength
  rw [hlength, wordBytes_bytes, some_bind hload, some_bind (mask?_of_lt (bit_lt h name hp)),
    some_bind (store?_of_length hlength _), withBit_eq_setBit (decode_lt_of_length hlength),
    splice_eq_bind (l.options.byteOrder.length_encode _ _), hbuffer]
  rfl

theorem store_eq (call : StoreCall) : store l image call = liftM (l.store image call) := by
  cases call with
  | value name index v => exact write_eq h image name index v
  | scaled name index v => exact writeScaled_eq h image name index v
  | flag name on => exact writeFlag_eq h image name on

/-- Every access to an image of a compiled layout has the outcome on a machine that it has on
all numbers. -/
theorem perform_eq (access : Access) : perform l image access = some (l.perform image access) := by
  cases access with
  | value name index =>
      rw [perform, read_eq h]
      rfl
  | scaled name index =>
      rw [perform, readScaled_eq h]
      rfl
  | flag name =>
      rw [perform, readFlag_eq h]
      rfl
  | store call =>
      rw [perform, store_eq h, Layout.perform]
      cases l.store image call <;> rfl

end Accesses

end Machine

end StructureLayout
