import StructureLayout.Proofs.Image.Bytes

/-!
# Updates of an image

Every store changes the number that stands in a few bytes of an image.  Updates of separate
bytes do not see one another and can be made in either order.
-/

namespace StructureLayout

structure Region where
  offset : Nat
  count : Nat
deriving DecidableEq

namespace Region

variable {r q : Region} {byte : Nat}

def finish (r : Region) : Nat := r.offset + r.count

def Covers (r : Region) (byte : Nat) : Prop := r.offset ≤ byte ∧ byte < r.finish

def Apart (r q : Region) : Prop := r.finish ≤ q.offset ∨ q.finish ≤ r.offset

theorem Apart.symm (h : r.Apart q) : q.Apart r := Or.symm h

theorem Apart.not_covers (h : r.Apart q) (hbyte : r.Covers byte) : ¬q.Covers byte := by
  rintro ⟨hlow, hhigh⟩
  have hr := hbyte.1
  have hr' := hbyte.2
  rcases h with h | h <;> omega

theorem Covers.exists_eq (h : r.Covers byte) : ∃ i < r.count, byte = r.offset + i := by
  obtain ⟨hlow, hhigh⟩ := h
  rw [finish] at hhigh
  exact ⟨byte - r.offset, by omega, by omega⟩

end Region

namespace Image

variable {image : Image}

theorem slice_eq_ok_iff {offset count : Nat} {bytes : List UInt8} :
    image.slice offset count = .ok bytes ↔
      offset + count ≤ image.length ∧ bytes = (image.drop offset).take count := by
  unfold slice
  by_cases h : offset + count ≤ image.length
  · simp [h, eq_comm]
  · simp [h]

theorem splice_eq_ok_iff {offset : Nat} {bytes : List UInt8} {final : Image} :
    image.splice offset bytes = .ok final ↔
      offset + bytes.length ≤ image.length ∧
        final = image.take offset ++ bytes ++ image.drop (offset + bytes.length) := by
  unfold splice
  by_cases h : offset + bytes.length ≤ image.length
  · simp [h, eq_comm]
  · simp [h]

def number (order : ByteOrder) (image : Image) (r : Region) : Nat :=
  order.decode ((image.drop r.offset).take r.count)

theorem number_lt (order : ByteOrder) {r : Region} (h : r.finish ≤ image.length) :
    number order image r < 256 ^ r.count := by
  rw [Region.finish] at h
  have hlength : ((image.drop r.offset).take r.count).length = r.count := by
    rw [List.length_take, List.length_drop]
    omega
  have hlt := order.decode_lt ((image.drop r.offset).take r.count)
  rwa [hlength] at hlt

end Image

/-- A change of the number in a region. -/
structure Update extends Region where
  change : Nat → Nat

namespace Update

variable {order : ByteOrder} {u v : Update} {image : Image}

def bytes (order : ByteOrder) (u : Update) (image : Image) : List UInt8 :=
  order.encode u.count (u.change (image.number order u.toRegion))

def apply (order : ByteOrder) (u : Update) (image : Image) : Image :=
  image.take u.offset ++ u.bytes order image ++ image.drop u.finish

@[simp] theorem length_bytes : (u.bytes order image).length = u.count :=
  order.length_encode _ _

theorem decode_bytes
    (h : u.change (image.number order u.toRegion) < 256 ^ u.count) :
    order.decode (u.bytes order image) = u.change (image.number order u.toRegion) :=
  (order.decode_encode _ _).trans (Nat.mod_eq_of_lt h)

theorem length_apply (h : u.finish ≤ image.length) :
    (u.apply order image).length = image.length := by
  rw [Region.finish] at h
  simp only [apply, List.length_append, List.length_take, List.length_drop, length_bytes,
    Region.finish]
  omega

theorem length_take_offset (h : u.finish ≤ image.length) :
    (image.take u.offset).length = u.offset := by
  rw [Region.finish] at h
  rw [List.length_take]
  omega

theorem getElem?_apply_of_not_covers (h : u.finish ≤ image.length) {byte : Nat}
    (hbyte : ¬u.Covers byte) : (u.apply order image)[byte]? = image[byte]? := by
  have htake := length_take_offset h
  rw [apply, List.append_assoc]
  by_cases hlow : byte < u.offset
  · rw [List.getElem?_append_left (htake.symm ▸ hlow), List.getElem?_take_of_lt hlow]
  · have hhigh : u.finish ≤ byte := by
      by_contra hlt
      exact hbyte ⟨by omega, by omega⟩
    rw [Region.finish] at hhigh
    rw [List.getElem?_append_right (by omega), htake,
      List.getElem?_append_right (by rw [length_bytes]; omega), length_bytes,
      List.getElem?_drop, Region.finish]
    congr 1
    omega

theorem getElem?_apply_of_lt (h : u.finish ≤ image.length) {i : Nat} (hi : i < u.count) :
    (u.apply order image)[u.offset + i]? = (u.bytes order image)[i]? := by
  have htake := length_take_offset h
  rw [apply, List.append_assoc, List.getElem?_append_right (by omega), htake,
    List.getElem?_append_left (by rw [length_bytes]; omega), Nat.add_sub_cancel_left]

theorem take_drop_apply_of_apart (h : u.finish ≤ image.length) {r : Region}
    (hapart : u.Apart r) :
    ((u.apply order image).drop r.offset).take r.count =
      (image.drop r.offset).take r.count := by
  apply List.ext_getElem?
  intro i
  by_cases hi : i < r.count
  · rw [List.getElem?_take_of_lt hi, List.getElem?_take_of_lt hi, List.getElem?_drop,
      List.getElem?_drop]
    apply getElem?_apply_of_not_covers h
    apply hapart.symm.not_covers
    rw [Region.Covers, Region.finish]
    omega
  · have hle := Nat.le_of_not_lt hi
    rw [List.getElem?_take_eq_none hle, List.getElem?_take_eq_none hle]

theorem slice_apply_of_apart (h : u.finish ≤ image.length) {r : Region} (hapart : u.Apart r) :
    (u.apply order image).slice r.offset r.count = image.slice r.offset r.count := by
  rw [Image.slice, Image.slice, length_apply h, take_drop_apply_of_apart h hapart]

theorem take_drop_apply (h : u.finish ≤ image.length) :
    ((u.apply order image).drop u.offset).take u.count = u.bytes order image := by
  apply List.ext_getElem?
  intro i
  by_cases hi : i < u.count
  · rw [List.getElem?_take_of_lt hi, List.getElem?_drop, getElem?_apply_of_lt h hi]
  · have hle := Nat.le_of_not_lt hi
    rw [List.getElem?_take_eq_none hle, List.getElem?_eq_none (by rwa [length_bytes])]

theorem slice_apply (h : u.finish ≤ image.length) :
    (u.apply order image).slice u.offset u.count = .ok (u.bytes order image) := by
  refine Image.slice_eq_ok_iff.mpr ⟨?_, (take_drop_apply h).symm⟩
  rwa [length_apply h]

theorem number_apply (h : u.finish ≤ image.length) :
    (u.apply order image).number order u.toRegion =
      u.change (image.number order u.toRegion) % 256 ^ u.count := by
  rw [Image.number, take_drop_apply h]
  exact order.decode_encode _ _

theorem bytes_apply_of_apart (hv : v.finish ≤ image.length) (hapart : u.Apart v.toRegion) :
    u.bytes order (v.apply order image) = u.bytes order image := by
  rw [bytes, bytes, Image.number, take_drop_apply_of_apart hv hapart.symm, Image.number]

theorem apply_comm_of_apart (hu : u.finish ≤ image.length) (hv : v.finish ≤ image.length)
    (hapart : u.Apart v.toRegion) :
    v.apply order (u.apply order image) = u.apply order (v.apply order image) := by
  have hu' : u.finish ≤ (v.apply order image).length := by rwa [length_apply hv]
  have hv' : v.finish ≤ (u.apply order image).length := by rwa [length_apply hu]
  apply List.ext_getElem?
  intro byte
  by_cases hbu : u.Covers byte
  · have hbv : ¬v.Covers byte := hapart.not_covers hbu
    obtain ⟨i, hi, rfl⟩ := hbu.exists_eq
    rw [getElem?_apply_of_not_covers hv' hbv, getElem?_apply_of_lt hu hi,
      getElem?_apply_of_lt hu' hi, bytes_apply_of_apart hv hapart]
  · rw [getElem?_apply_of_not_covers hu' hbu]
    by_cases hbv : v.Covers byte
    · obtain ⟨i, hi, rfl⟩ := hbv.exists_eq
      rw [getElem?_apply_of_lt hv' hi, getElem?_apply_of_lt hv hi,
        bytes_apply_of_apart hu hapart.symm]
    · rw [getElem?_apply_of_not_covers hv' hbv, getElem?_apply_of_not_covers hv hbv,
        getElem?_apply_of_not_covers hu hbu]

/-- Changes of one number that commute, within the bytes that it has. -/
structure Commute (u v : Update) : Prop where
  region : u.toRegion = v.toRegion
  change : ∀ n, u.change (v.change n) = v.change (u.change n)
  lt_left : ∀ n < 256 ^ u.count, u.change n < 256 ^ u.count
  lt_right : ∀ n < 256 ^ v.count, v.change n < 256 ^ v.count

theorem Commute.symm (h : u.Commute v) : v.Commute u where
  region := h.region.symm
  change n := (h.change n).symm
  lt_left := h.lt_right
  lt_right := h.lt_left

theorem bytes_apply_of_commute (hu : u.finish ≤ image.length) (h : u.Commute v) :
    v.bytes order (u.apply order image) =
      order.encode u.count (v.change (u.change (image.number order u.toRegion))) := by
  have hlt := h.lt_left _ (Image.number_lt order hu)
  rw [bytes, ← h.region, number_apply hu, Nat.mod_eq_of_lt hlt]

theorem apply_comm_of_commute (hu : u.finish ≤ image.length) (h : u.Commute v) :
    v.apply order (u.apply order image) = u.apply order (v.apply order image) := by
  have hv : v.finish ≤ image.length := by rwa [← h.region]
  have hu' : u.finish ≤ (v.apply order image).length := by rwa [length_apply hv]
  have hv' : v.finish ≤ (u.apply order image).length := by rwa [length_apply hu]
  apply List.ext_getElem?
  intro byte
  by_cases hbyte : u.Covers byte
  · obtain ⟨i, hi, rfl⟩ := hbyte.exists_eq
    have hi' : i < v.count := by rwa [← h.region]
    rw [getElem?_apply_of_lt hu' hi, h.region, getElem?_apply_of_lt hv' hi',
      bytes_apply_of_commute hu h, bytes_apply_of_commute hv h.symm, h.region, h.change]
  · have hbyte' : ¬v.Covers byte := by rwa [← h.region]
    rw [getElem?_apply_of_not_covers hv' hbyte', getElem?_apply_of_not_covers hu hbyte,
      getElem?_apply_of_not_covers hu' hbyte, getElem?_apply_of_not_covers hv hbyte']

end Update

end StructureLayout
