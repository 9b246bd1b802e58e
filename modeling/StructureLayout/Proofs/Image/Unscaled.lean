import StructureLayout.Proofs.Binary.Conversion
import StructureLayout.Proofs.Image.WriteBack
import StructureLayout.Proofs.Machine.Scaling

/-!
# Fields without an autoscale

The engineering value of a field without an autoscale is the stored one, as a number of 64 bits.
Every stored value is found again from it, on a machine through rounding, two clamps and the low
bits of the integer, so that writing back what was read changes no byte.
-/

namespace StructureLayout

open Binary

namespace Machine

/-- What is stored for an engineering value.  Without an autoscale an integer is the integral
number between the limits of its type. -/
def storedFor? (e : Element) (v : Binary64) : Option Value :=
  match e.scaling, e.type with
  | some a, _ => encode? a v
  | none, .integer t => do
    let limits := (Primitive.integer t).range
    let count ← clamp? limits.1 limits.2 (roundIntegral v)
    ofInt? (.integer t) (toInt count)
  | none, .float => some (.float v.convert)

/-- Not-a-number passes the clamp and is converted to zero. -/
theorem clamp?_nan {lo hi : Binary64} (hlimits : lo.atMost hi = true) :
    (clamp? lo hi (roundIntegral .nan)).map toInt = some 0 := by
  have hlow : ¬ below (.nan : Binary64) lo = true := fun h => absurd (below_iff.mp h).1 (by decide)
  have hhigh : ¬ below hi (.nan : Binary64) = true :=
    fun h => absurd (below_iff.mp h).2.1 (by decide)
  have hround : roundIntegral (.nan : Binary64) = .nan := rfl
  rw [clamp?, if_pos hlimits, hround, if_neg hlow]
  dsimp only
  rw [if_neg hhigh]
  rfl

theorem clamp?_range_eq (t : IntegerType) (v : Binary64) :
    (clamp? (Primitive.integer t).range.1 (Primitive.integer t).range.2 (roundIntegral v)).map
      toInt = some (v.toIntClamped t.least t.greatest) := by
  cases hv : v.isNaN with
  | false => exact clamp?_range hv
  | true =>
      cases v with
      | nan => exact clamp?_nan (ofInt_mono (least_mem t).2)
      | number _ _ => cases hv

/-- The machine stores what the library stores. -/
theorem storedFor?_eq (e : Element) (v : Binary64) :
    storedFor? e v = some (Layout.storedFor e v) := by
  rcases e with ⟨type, offset, _ | a⟩
  · cases type with
    | float => rfl
    | integer t =>
        obtain ⟨count, hclamp, hcount⟩ := Option.map_eq_some_iff.mp (clamp?_range_eq t v)
        rw [storedFor?]
        simp only [hclamp, Option.bind_eq_bind, Option.bind_some, hcount, ofInt?_eq]
        rfl
  · exact encode?_eq a v

end Machine

namespace Layout

/-- The number that a value denotes is stored as that value. -/
theorem storedFor_toBinary64 {p : Element} {v : Value} (hscaling : p.scaling = none)
    (htype : v.type = p.type) : storedFor p v.toBinary64 = v := by
  rcases p with ⟨type, offset, scaling⟩
  obtain rfl : scaling = none := hscaling
  obtain rfl : v.type = type := htype
  cases v with
  | float x => exact congrArg Value.float (convert_convert Format.binary32_within x)
  | integer t n inRange =>
      have hclamp : t.clamp ((ofInt n : Binary64).toIntClamped t.least t.greatest) = n := by
        rw [IntegerType.toIntClamped_ofInt inRange, IntegerType.clamp_of_mem inRange]
      simp only [storedFor, Value.type, Value.toBinary64, Value.ofInt, hclamp]

/-- Of the stored values only not-a-number denotes not-a-number. -/
theorem isNaN_toBinary64_iff (v : Value) : v.toBinary64.isNaN = true ↔ v = .float .nan := by
  cases v with
  | integer t n inRange => simp [Value.toBinary64, isNaN_ofInt]
  | float x =>
      rw [Value.toBinary64, isNaN_convert]
      cases x <;> simp [isNaN]

variable {l : Layout} {image : Image} {name : String} {index : Nat}

/-- Without an autoscale the engineering value of an element is its stored value. -/
theorem readScaled_eq_ok_iff {x : Binary64}
    (hplain : (l.get? name).bind Entry.scaling? = none) :
    l.readScaled image name index = .ok x ↔
      ∃ p stored, l.element name index = .ok p ∧ p.scaling = none ∧ stored.type = p.type ∧
        l.read image name index = .ok stored ∧ x = stored.toBinary64 := by
  constructor
  · intro hread
    obtain ⟨p, hp, hread⟩ := bind_eq_ok_iff.mp hread
    obtain ⟨stored, hstored, hvalue⟩ := bind_eq_ok_iff.mp hread
    have hscaling : p.scaling = none := by
      obtain ⟨f, offset, size, scaling, t, hget, -, -, rfl⟩ := element_eq_ok_iff.mp hp
      rw [hget] at hplain
      exact hplain
    obtain ⟨p', hp', -, hbits⟩ := read_eq_ok_iff.mp hstored
    obtain rfl : p = p' := Except.ok.inj (hp.symm.trans hp')
    rw [hscaling] at hvalue
    cases hvalue
    exact ⟨p, stored, hp, hscaling, hbits ▸ Value.type_ofBits _ _, hstored, rfl⟩
  · rintro ⟨p, stored, hp, hscaling, -, hstored, rfl⟩
    rw [readScaled, hp, ok_bind, hstored, ok_bind, hscaling]
    rfl

/-- An engineering value that was read from a field without an autoscale is stored as the value that
was read, and writing it leaves the image as it is. -/
theorem writeScaled_readScaled (l : Layout) (image : Image) (name : String) (index : Nat)
    (x : Binary64) (hplain : (l.get? name).bind Entry.scaling? = none)
    (hread : l.readScaled image name index = .ok x) (hx : x.isNaN = false) :
    l.writeScaled image name index x = .ok image ∧
      ∃ p stored, l.element name index = .ok p ∧ l.read image name index = .ok stored ∧
        x = stored.toBinary64 ∧ Machine.storedFor? p x = some stored := by
  obtain ⟨p, stored, hp, hscaling, htype, hstored, rfl⟩ := (readScaled_eq_ok_iff hplain).mp hread
  have hback : storedFor p stored.toBinary64 = stored := storedFor_toBinary64 hscaling htype
  have hnan : stored ≠ .float .nan := fun heq => by
    rw [(isNaN_toBinary64_iff stored).mpr heq] at hx
    cases hx
  refine ⟨?_, p, stored, hp, hstored, rfl, ?_⟩
  · rw [writeScaled, hp, ok_bind, hback]
    exact write_of_read hstored hnan
  · rw [Machine.storedFor?_eq, hback]

/-- Two floats and an unsigned integer of four bytes. -/
def readings : List Declaration :=
  [.field { name := "level", content := .primitive .float, dimensions := [2] },
    .field { name := "ticks", content := .primitive (.integer ⟨false, .four⟩) }]

/-- The negative infinity, the smallest number of 32 bits and the greatest integer. -/
def readingsImage : Image := [0, 0, 0x80, 0xFF, 1, 0, 0, 0, 0xFF, 0xFF, 0xFF, 0xFF]

theorem writeScaled_readings :
    ∃ l x y z, compile {} "readings" readings = .ok l ∧
      l.readScaled readingsImage "level" 0 = .ok x ∧ x = infinity true ∧
      l.writeScaled readingsImage "level" 0 x = .ok readingsImage ∧
      l.readScaled readingsImage "level" 1 = .ok y ∧ y.value = 2 ^ (-149 : Int) ∧
      l.writeScaled readingsImage "level" 1 y = .ok readingsImage ∧
      l.readScaled readingsImage "ticks" 0 = .ok z ∧ z.value = 4294967295 ∧
      l.writeScaled readingsImage "ticks" 0 z = .ok readingsImage := by
  let least : Binary64 := .ofRat (2 ^ (-149 : Int))
  let greatest : Binary64 := .ofInt 4294967295
  obtain ⟨l, hl, hlevel, hticks, hx, hy, hz⟩ : ∃ l, compile {} "readings" readings = .ok l ∧
      (l.get? "level").bind Entry.scaling? = none ∧ (l.get? "ticks").bind Entry.scaling? = none ∧
      l.readScaled readingsImage "level" 0 = .ok (infinity true) ∧
      l.readScaled readingsImage "level" 1 = .ok least ∧
      l.readScaled readingsImage "ticks" 0 = .ok greatest :=
    ⟨_, rfl, rfl, rfl, by decide +kernel, by decide +kernel, by decide +kernel⟩
  refine ⟨l, _, least, greatest, hl, hx, rfl, ?_, hy, by decide +kernel, ?_, hz, by decide +kernel,
    ?_⟩
  · exact (writeScaled_readScaled l _ _ _ _ hlevel hx rfl).1
  · exact (writeScaled_readScaled l _ _ _ _ hlevel hy (by decide +kernel)).1
  · exact (writeScaled_readScaled l _ _ _ _ hticks hz (by decide +kernel)).1

end Layout

end StructureLayout
