import StructureLayout.Image.Bytes
import StructureLayout.Proofs.Autoscale.Order
import StructureLayout.Proofs.Binary.Accuracy
import StructureLayout.Proofs.Image.WriteBack

/-!
# Scaling on a machine

A machine rounds to an integral number of 64 bits, compares that with the limits as numbers,
converts it to an integer, and takes the low bits of what it has clamped once more.  No step
overflows or wraps, and the branch for not-a-number is taken for such a value alone.
-/

namespace StructureLayout

namespace Machine

open Binary

/-! ## Steps -/

section Steps

variable {f : Format}

/-- The nearest integral number, halves away from zero. -/
def roundIntegral (x : Binary f) : Binary f :=
  if x.isFinite then .round x.isNegative (roundHalfAway x.value : Rat).abs else x

/-- Not-a-number is below nothing. -/
def below : Binary f → Binary f → Bool
  | .number s r, .number t u => decide (value (.number s r) < value (.number t u))
  | _, _ => false

/-- A number beyond a limit is replaced by it; the limits have to be in order. -/
def clamp? (lo hi x : Binary f) : Option (Binary f) :=
  if lo.atMost hi then
    let y := if below x lo then lo else x
    some (if below hi y then hi else y)
  else none

/-- The integral part, toward zero. -/
def truncate (q : Rat) : Int := if q < 0 then -(-q).floor else q.floor

def least : Int := -0x8000000000000000

def greatest : Int := 0x7FFFFFFFFFFFFFFF

/-- The integer of 64 bits, or the limit that the number is beyond; zero for not-a-number. -/
def toInt : Binary f → Int
  | .nan => 0
  | .number negative rank =>
    if rank = Fin.last f.infinityRank then
      if negative then least else greatest
    else clampInt least greatest (truncate (value (.number negative rank)))

end Steps

/-- The limits have to be in order. -/
def clampInt? (lo hi n : Int) : Option Int :=
  if lo ≤ hi then some (if n < lo then lo else if hi < n then hi else n) else none

/-- The low bits of an integer. -/
def wrap (t : IntegerType) (n : Int) : Int := t.ofBits (t.toBits n)

/-- The stored value of an integer; a float does not use the limits, which are formed
nevertheless. -/
def ofInt? (p : Primitive) (n : Int) : Option Value := do
  let limits := p.range
  let clamped ← clampInt? (toInt limits.1) (toInt limits.2) n
  return match p with
    | .integer t => .integer t (wrap t clamped) (t.ofBits_mem _)
    | .float => .float (.ofInt n)

def encodeCount? (a : Autoscale) (v : Binary64) : Option Int :=
  let limits := (Primitive.integer a.storage).range
  let counts := roundIntegral (countsOf a.scale a.bias v)
  if counts.isNaN then clampInt? (toInt limits.1) (toInt limits.2) 0
  else (clamp? limits.1 limits.2 counts).map toInt

def encode? (a : Autoscale) (v : Binary64) : Option Value :=
  (encodeCount? a v).bind (ofInt? (.integer a.storage))

/-! ## What the steps give -/

section Steps

variable {f : Format} {x lo hi : Binary f}

theorem isNaN_roundIntegral (x : Binary f) : (roundIntegral x).isNaN = x.isNaN := by
  rw [roundIntegral]
  split
  · rename_i hx
    exact (isNaN_of_isFinite hx).symm
  · rfl

theorem below_iff :
    below x lo = true ↔ x.isNaN = false ∧ lo.isNaN = false ∧ x.value < lo.value := by
  cases x with
  | nan => simp [below, isNaN]
  | number s r =>
      cases lo with
      | nan => simp [below, isNaN]
      | number t u => simp [below, isNaN]

/-- A number is clamped as its value is. -/
theorem exists_clamp (hlimits : lo.atMost hi = true) (hx : x.isNaN = false) :
    ∃ y, clamp? lo hi x = some y ∧ y.isNaN = false ∧
      y.value = max lo.value (min hi.value x.value) := by
  obtain ⟨hlo, hhi, hle⟩ := atMost_iff.mp hlimits
  rw [clamp?, if_pos hlimits]
  refine ⟨_, rfl, ?_⟩
  by_cases hlow : below x lo = true
  · have hnot : ¬ below hi lo = true := fun h => (below_iff.mp h).2.2.not_ge hle
    have hlt := (below_iff.mp hlow).2.2
    rw [if_pos hlow, if_neg hnot]
    refine ⟨hlo, (max_eq_left ?_).symm⟩
    exact (min_le_right _ _).trans hlt.le
  · have hge : lo.value ≤ x.value := not_lt.mp fun h => hlow (below_iff.mpr ⟨hx, hlo, h⟩)
    rw [if_neg hlow]
    by_cases hhigh : below hi x = true
    · have hlt := (below_iff.mp hhigh).2.2
      rw [if_pos hhigh, min_eq_left hlt.le, max_eq_right hle]
      exact ⟨hhi, rfl⟩
    · have hge' : x.value ≤ hi.value := not_lt.mp fun h => hhigh (below_iff.mpr ⟨hhi, hx, h⟩)
      rw [if_neg hhigh, min_eq_right hge', max_eq_right hge]
      exact ⟨hx, rfl⟩

theorem truncate_intCast (n : Int) : truncate n = n := by
  rw [truncate]
  split
  · rw [← Int.cast_neg, Rat.floor_intCast, neg_neg]
  · exact Rat.floor_intCast n

theorem clampInt?_eq {lo hi : Int} (h : lo ≤ hi) (n : Int) :
    clampInt? lo hi n = some (clampInt lo hi n) := by
  rw [clampInt?, if_pos h, clampInt]
  congr 1
  split
  · omega
  · split <;> omega

end Steps

/-- A number that is an integer of 64 bits is converted to that integer. -/
theorem toInt_eq {x : Binary64} (hx : x.isNaN = false) {n : Int} (hvalue : x.value = n)
    (hleast : least ≤ n) (hgreatest : n ≤ greatest) : toInt x = n := by
  have hsmall : |x.value| < Format.binary64.top := by
    have habs : |n| ≤ 2 ^ 63 := abs_le.mpr ⟨hleast, hgreatest.trans (by decide)⟩
    calc |x.value| = |(n : Rat)| := by rw [hvalue]
      _ ≤ 2 ^ (63 : Int) := by exact_mod_cast habs
      _ < Format.binary64.top := two_zpow_lt_top_binary64 (by decide)
  have hfinite := (abs_value_lt_top_iff hx).mp hsmall
  cases x with
  | nan => cases hx
  | number negative rank =>
      rw [isFinite, bne_iff_ne] at hfinite
      rw [toInt, if_neg hfinite, hvalue, truncate_intCast]
      exact clampInt_of_mem hleast hgreatest

/-! ## Counts -/

section Counts

variable {t : IntegerType} {n : Int}

theorem least_le (t : IntegerType) : least ≤ t.least := by
  rcases t with ⟨s, w⟩
  cases s <;> cases w <;> decide

theorem le_greatest (t : IntegerType) : t.greatest ≤ greatest := by
  rcases t with ⟨s, w⟩
  cases s <;> cases w <;> decide

theorem toInt_of_mem {x : Binary64} (hx : x.isNaN = false) (hvalue : x.value = n)
    (hn : t.least ≤ n ∧ n ≤ t.greatest) : toInt x = n :=
  toInt_eq hx hvalue ((least_le t).trans hn.1) (hn.2.trans (le_greatest t))

theorem least_mem (t : IntegerType) : t.least ≤ t.least ∧ t.least ≤ t.greatest :=
  ⟨le_rfl, t.least_nonpos.trans t.greatest_nonneg⟩

theorem greatest_mem (t : IntegerType) : t.least ≤ t.greatest ∧ t.greatest ≤ t.greatest :=
  ⟨t.least_nonpos.trans t.greatest_nonneg, le_rfl⟩

/-- The limits are converted to the integers that they are made from. -/
theorem clampInt?_range (t : IntegerType) (n : Int) :
    clampInt? (toInt (Primitive.integer t).range.1) (toInt (Primitive.integer t).range.2) n =
      some (t.clamp n) := by
  have hleast : toInt (Primitive.integer t).range.1 = t.least :=
    toInt_of_mem (isNaN_ofInt _) (IntegerType.value_ofInt (least_mem t)) (least_mem t)
  have hgreatest : toInt (Primitive.integer t).range.2 = t.greatest :=
    toInt_of_mem (isNaN_ofInt _) (IntegerType.value_ofInt (greatest_mem t)) (greatest_mem t)
  rw [hleast, hgreatest]
  exact clampInt?_eq (least_mem t).2 n

/-- The value stored for any integer is the one of the library. -/
theorem ofInt?_eq (p : Primitive) (n : Int) : ofInt? p n = some (Value.ofInt p n) := by
  cases p with
  | integer t =>
      have hwrap : wrap t (t.clamp n) = t.clamp n := IntegerType.ofBits_toBits (t.clamp_mem n)
      rw [ofInt?]
      simp only [clampInt?_range, Option.bind_eq_bind, Option.bind_some, hwrap]
      rfl
  | float =>
      have hlimits : toInt Primitive.float.range.1 ≤ toInt Primitive.float.range.2 := by
        decide +kernel
      rw [ofInt?]
      simp only [clampInt?_eq hlimits]
      rfl

theorem value_roundIntegral {x : Binary64} (hx : x.isFinite = true) :
    (roundIntegral x).value = roundHalfAway x.value := by
  rw [roundIntegral, if_pos hx, value_round, ratAbs_eq_abs,
    ← Format.nearest_signed _ _ (abs_nonneg _), signed_abs_roundHalfAway]
  exact Format.nearest_roundHalfAway _ (by decide) two_mul_binade_le_top_binary64 x

/-- The integral number is clamped to the count, and infinity to the limit at its end. -/
theorem max_min_roundIntegral {x : Binary64} (hx : x.isNaN = false) :
    max (t.least : Rat) (min (t.greatest : Rat) (roundIntegral x).value) =
      x.toIntClamped t.least t.greatest := by
  rcases finite_or_infinite hx with hfinite | hinfinite
  · rw [value_roundIntegral hfinite, toIntClamped_of_isFinite hfinite, clampInt]
    push_cast
    rfl
  · have hfixed : roundIntegral x = x := if_neg fun hfinite => by
      simp [isInfinite_of_isFinite hfinite] at hinfinite
    have hleast := abs_lt.mp (IntegerType.abs_lt_top_of_mem (least_mem t))
    have hgreatest := abs_lt.mp (IntegerType.abs_lt_top_of_mem (greatest_mem t))
    rw [hfixed, eq_infinity_of_isInfinite hinfinite, value_infinity, toIntClamped_infinity]
    cases x.isNegative with
    | true =>
        rw [signed, if_pos rfl, if_pos rfl]
        exact max_eq_left ((min_le_right _ _).trans hleast.1.le)
    | false =>
        rw [signed, if_neg Bool.false_ne_true, if_neg Bool.false_ne_true,
          min_eq_left hgreatest.2.le]
        exact max_eq_right (by exact_mod_cast (least_mem t).2)

theorem clamp?_range {x : Binary64} (hx : x.isNaN = false) :
    (clamp? (Primitive.integer t).range.1 (Primitive.integer t).range.2 (roundIntegral x)).map
      toInt = some (x.toIntClamped t.least t.greatest) := by
  have hround : (roundIntegral x).isNaN = false := (isNaN_roundIntegral x).trans hx
  obtain ⟨y, hy, hnan, hvalue⟩ :=
    exists_clamp (f := .binary64) (ofInt_mono (least_mem t).2) hround
  rw [IntegerType.value_ofInt (least_mem t), IntegerType.value_ofInt (greatest_mem t),
    max_min_roundIntegral hx] at hvalue
  have hmem := toIntClamped_mem t.least_nonpos t.greatest_nonneg x
  change (clamp? (.ofInt t.least) (.ofInt t.greatest) (roundIntegral x)).map toInt = _
  rw [hy, Option.map_some, toInt_of_mem hnan hvalue hmem]

theorem encodeCount_of_isNaN (a : Autoscale) {v : Binary64} (hv : v.isNaN = true) :
    a.encodeCount v = 0 := by
  have hnan := (a.isNaN_countsOf v).trans hv
  rw [Autoscale.encodeCount]
  cases h : countsOf a.scale a.bias v with
  | nan => rfl
  | number _ _ =>
      rw [h] at hnan
      cases hnan

theorem encodeCount?_eq (a : Autoscale) (v : Binary64) :
    encodeCount? a v = some (a.encodeCount v) := by
  have hnan : (roundIntegral (countsOf a.scale a.bias v)).isNaN = v.isNaN :=
    (isNaN_roundIntegral _).trans (a.isNaN_countsOf v)
  rw [encodeCount?, hnan]
  cases hv : v.isNaN with
  | true =>
      rw [if_pos rfl, clampInt?_range, encodeCount_of_isNaN a hv]
      exact congrArg some (clampInt_of_mem a.storage.least_nonpos a.storage.greatest_nonneg)
  | false =>
      rw [if_neg Bool.false_ne_true]
      exact clamp?_range ((a.isNaN_countsOf v).trans hv)

theorem encode?_eq (a : Autoscale) (v : Binary64) : encode? a v = some (a.encode v) := by
  rw [encode?, encodeCount?_eq, Option.bind_some, ofInt?_eq]
  rfl

end Counts

end Machine

namespace Autoscale

open Binary

/-- For every value the machine finds the count, which is within the limits, and stores it as it
is; the branch for not-a-number is taken for that value alone and gives zero. -/
theorem encode_saturates (a : Autoscale) (v : Binary64) :
    Machine.encodeCount? a v = some (a.encodeCount v) ∧
      a.storage.least ≤ a.encodeCount v ∧ a.encodeCount v ≤ a.storage.greatest ∧
      (Machine.roundIntegral (countsOf a.scale a.bias v)).isNaN = v.isNaN ∧
      (v.isNaN = true → a.encodeCount v = 0) ∧
      Machine.encode? a v = some (a.encode v) ∧ (a.encode v).type = .integer a.storage ∧
      (a.encode v).toInt? = some (a.encodeCount v) := by
  have hmem := toIntClamped_mem a.storage.least_nonpos a.storage.greatest_nonneg
    (countsOf a.scale a.bias v)
  have hnan := (Machine.isNaN_roundIntegral _).trans (a.isNaN_countsOf v)
  have hstored : (a.encode v).toInt? = some (a.encodeCount v) :=
    congrArg some (IntegerType.clamp_of_mem hmem)
  exact ⟨Machine.encodeCount?_eq a v, hmem.1, hmem.2, hnan, Machine.encodeCount_of_isNaN a,
    Machine.encode?_eq a v, Value.type_ofInt _ _, hstored⟩

theorem encode_saturates_ascending :
    (Binary.nan : Binary64).isNaN = true ∧ ascending.encodeCount .nan = 0 ∧
      ∃ v : Binary64, v.isFinite = true ∧ (countsOf ascending.scale ascending.bias v).isInfinite ∧
        Machine.encodeCount? ascending v = some 65535 ∧
        (ascending.encode v).toInt? = some 65535 := by
  let largest : Binary64 := .number false ⟨Format.binary64.infinityRank - 1, by decide⟩
  have hcount : ascending.encodeCount largest = 65535 := by decide +kernel
  have h := ascending.encode_saturates largest
  refine ⟨rfl, (ascending.encode_saturates .nan).2.2.2.2.1 rfl, largest, by decide +kernel,
    by decide +kernel, ?_, ?_⟩
  · rw [h.1, hcount]
  · rw [h.2.2.2.2.2.2.2, hcount]

end Autoscale

end StructureLayout
