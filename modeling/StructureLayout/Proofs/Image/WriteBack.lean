import StructureLayout.Proofs.Image.ByteOrder

/-!
# Writing back

Every pattern of bytes is the encoding of the value that is read from it, but for the patterns
of not-a-number.  What was read can therefore be written back without a change, and so can a
flag.
-/

namespace StructureLayout

/-! ## Bytes -/

namespace ByteOrder

theorem lowFirst_ofLowFirst (bytes : List UInt8) :
    lowFirst bytes.length (ofLowFirst bytes) = bytes := by
  induction bytes with
  | nil => rfl
  | cons b bs ih =>
      have hb : b.toNat < 256 := b.toNat_lt
      have hlow : (b.toNat + 256 * ofLowFirst bs) % 256 = b.toNat := by omega
      have hhigh : (b.toNat + 256 * ofLowFirst bs) / 256 = ofLowFirst bs := by omega
      rw [ofLowFirst, List.length_cons, lowFirst, hlow, hhigh, ih, UInt8.ofNat_toNat]

theorem encode_decode (order : ByteOrder) (bytes : List UInt8) :
    order.encode bytes.length (order.decode bytes) = bytes := by
  cases order with
  | little => exact lowFirst_ofLowFirst bytes
  | big =>
      rw [encode, decode, ← List.length_reverse, lowFirst_ofLowFirst, List.reverse_reverse]

end ByteOrder

/-! ## Values -/

namespace IntegerType

variable {t : IntegerType} {bits : Nat}

/-- Every pattern denotes a number in the range of the type. -/
theorem ofBits_mem (t : IntegerType) (bits : Nat) :
    t.least ≤ t.ofBits bits ∧ t.ofBits bits ≤ t.greatest := by
  have hpos : 0 < 2 ^ t.width.bits := Nat.two_pow_pos _
  have hhalf : 2 ^ t.width.bits = 2 * 2 ^ (t.width.bits - 1) := by
    rw [← Nat.pow_succ', Nat.succ_eq_add_one, Nat.sub_add_cancel t.width.bits_pos]
  simp only [least, greatest, ofBits, Nat.shiftLeft_eq, Nat.one_mul]
  cases t.isSigned with
  | true =>
      have hlow := Int.le_bmod (x := (bits : Int)) hpos
      have hhigh := Int.bmod_lt (x := (bits : Int)) hpos
      simp only [if_true]
      omega
  | false =>
      have hlt := Nat.mod_lt bits hpos
      simp only [Bool.false_eq_true, if_false]
      omega

theorem toBits_ofBits (h : bits < 256 ^ t.width.bytes) : t.toBits (t.ofBits bits) = bits := by
  rw [← Width.two_pow_bits] at h
  have hmod : t.ofBits bits % ((2 ^ t.width.bits : Nat) : Int) = bits := by
    rw [ofBits, Nat.shiftLeft_eq, Nat.one_mul]
    split
    · rw [Int.bmod_emod, ← Int.natCast_mod, Nat.mod_eq_of_lt h]
    · rw [Nat.mod_eq_of_lt h, ← Int.natCast_mod, Nat.mod_eq_of_lt h]
  rw [toBits, Nat.shiftLeft_eq, Nat.one_mul, hmod, Int.toNat_natCast]

end IntegerType

/-- Only not-a-number has several patterns. -/
theorem Binary.toBits_ofBits {f : Format} {bits : Nat} (h : bits < 2 * signBit f)
    (hnan : (ofBits bits : Binary f) ≠ nan) : (ofBits bits : Binary f).toBits = bits := by
  have hsplit := Nat.div_add_mod bits (signBit f)
  have hsign : bits / signBit f < 2 := Nat.div_lt_of_lt_mul (by rwa [Nat.mul_comm])
  unfold ofBits at hnan ⊢
  split at hnan
  · rename_i hrank
    rw [dif_pos hrank, toBits]
    rcases Nat.le_one_iff_eq_zero_or_eq_one.mp (Nat.le_of_lt_succ hsign) with hzero | hone
    · rw [hzero, Nat.mul_zero] at hsplit
      simpa [hzero] using hsplit
    · rw [hone, Nat.mul_one] at hsplit
      simpa [hone] using hsplit
  · exact absurd rfl hnan

namespace Value

theorem type_ofBits (p : Primitive) (bits : Nat) : (ofBits p bits).type = p := by
  cases p with
  | integer t => exact type_ofInt (.integer t) _
  | float => rfl

theorem toBits_ofBits {p : Primitive} {bits : Nat} (h : bits < 256 ^ p.size)
    (hnan : ofBits p bits ≠ .float .nan) : (ofBits p bits).toBits = bits := by
  cases p with
  | integer t =>
      have hclamp := IntegerType.clamp_of_mem (t.ofBits_mem bits)
      simp only [ofBits, ofInt, toBits, hclamp]
      exact IntegerType.toBits_ofBits h
  | float =>
      refine Binary.toBits_ofBits h ?_
      rintro heq
      exact hnan (congrArg float heq)

end Value

/-! ## Images -/

/-- A change to the number that is there changes no byte. -/
theorem Update.apply_eq_self {order : ByteOrder} {u : Update} {image : Image}
    (h : u.finish ≤ image.length)
    (hchange : u.change (image.number order u.toRegion) = image.number order u.toRegion) :
    u.apply order image = image := by
  have hlength : ((image.drop u.offset).take u.count).length = u.count := by
    rw [Region.finish] at h
    rw [List.length_take, List.length_drop]
    omega
  have hbytes : u.bytes order image = (image.drop u.offset).take u.count := by
    rw [bytes, hchange, Image.number]
    nth_rewrite 1 [← hlength]
    exact order.encode_decode _
  rw [apply, hbytes, Region.finish, ← List.drop_drop, List.append_assoc,
    List.take_append_drop, List.take_append_drop]

namespace Layout

variable {l : Layout} {image : Image} {name : String} {index : Nat}

theorem read_eq_ok_iff {v : Value} :
    l.read image name index = .ok v ↔
      ∃ p, l.element name index = .ok p ∧ p.region.finish ≤ image.length ∧
        v = .ofBits p.type (image.number l.options.byteOrder p.region) := by
  constructor
  · intro hread
    obtain ⟨p, hp, hread⟩ := bind_eq_ok_iff.mp hread
    obtain ⟨bytes, hslice, hvalue⟩ := bind_eq_ok_iff.mp hread
    obtain ⟨hfits, rfl⟩ := Image.slice_eq_ok_iff.mp hslice
    cases hvalue
    exact ⟨p, hp, hfits, rfl⟩
  · rintro ⟨p, hp, hfits, rfl⟩
    exact read_of_element hp hfits

theorem readFlag_eq_ok_iff {on : Bool} :
    l.readFlag image name = .ok on ↔
      ∃ p, l.flagPlace name = .ok p ∧ p.region.finish ≤ image.length ∧
        on = (image.number l.options.byteOrder p.region).testBit p.bit := by
  constructor
  · intro hread
    obtain ⟨p, hp, hread⟩ := bind_eq_ok_iff.mp hread
    obtain ⟨bytes, hslice, hflag⟩ := bind_eq_ok_iff.mp hread
    obtain ⟨hfits, rfl⟩ := Image.slice_eq_ok_iff.mp hslice
    cases hflag
    exact ⟨p, hp, hfits, rfl⟩
  · rintro ⟨p, hp, hfits, rfl⟩
    exact readFlag_of_flagPlace hp hfits

theorem write_of_read {v : Value} (hread : l.read image name index = .ok v)
    (hnan : v ≠ .float .nan) : l.write image name index v = .ok image := by
  obtain ⟨p, hp, hfits, rfl⟩ := read_eq_ok_iff.mp hread
  refine write_eq_ok_iff.mpr ⟨p, hp, Value.type_ofBits _ _, hfits, ?_⟩
  refine (Update.apply_eq_self hfits ?_).symm
  exact Value.toBits_ofBits (Image.number_lt _ hfits) hnan

theorem writeFlag_of_readFlag {on : Bool} (hread : l.readFlag image name = .ok on) :
    l.writeFlag image name on = .ok image := by
  obtain ⟨p, hp, hfits, rfl⟩ := readFlag_eq_ok_iff.mp hread
  refine writeFlag_eq_ok_iff.mpr ⟨p, hp, hfits, ?_⟩
  exact (Update.apply_eq_self hfits (if_pos rfl)).symm

/-- What is read from an image, whatever its bytes, is written back without a change to them. -/
theorem write_back (l : Layout) (image : Image) :
    (∀ name index v, l.read image name index = .ok v → v ≠ .float .nan →
        l.write image name index v = .ok image) ∧
      ∀ name on, l.readFlag image name = .ok on → l.writeFlag image name on = .ok image :=
  ⟨fun _ _ _ => write_of_read, fun _ _ => writeFlag_of_readFlag⟩

theorem write_back_storeSample :
    ∃ l, compile { byteOrder := .big, bitWord := .two } "sample" storeSample = .ok l ∧
      l.read [1, 2, 3, 0xFF, 0x9C, 0, 4] "trim" 0 = .ok (.ofInt (.integer ⟨true, .two⟩) (-100)) ∧
      l.write [1, 2, 3, 0xFF, 0x9C, 0, 4] "trim" 0 (.ofInt (.integer ⟨true, .two⟩) (-100)) =
        .ok [1, 2, 3, 0xFF, 0x9C, 0, 4] ∧
      l.writeFlag [1, 2, 3, 0xFF, 0x9C, 0, 4] "off" true = .ok [1, 2, 3, 0xFF, 0x9C, 0, 4] := by
  obtain ⟨l, hl, hread, hflag⟩ : ∃ l,
      compile { byteOrder := .big, bitWord := .two } "sample" storeSample = .ok l ∧
        l.read [1, 2, 3, 0xFF, 0x9C, 0, 4] "trim" 0 =
          .ok (.ofInt (.integer ⟨true, .two⟩) (-100)) ∧
        l.readFlag [1, 2, 3, 0xFF, 0x9C, 0, 4] "off" = .ok true :=
    ⟨_, rfl, by decide +kernel, by decide +kernel⟩
  exact ⟨l, hl, hread, (write_back l _).1 _ _ _ hread nofun, (write_back l _).2 _ _ hflag⟩

end Layout

end StructureLayout
