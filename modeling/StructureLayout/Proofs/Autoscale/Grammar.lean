import StructureLayout.Autoscale.Spec
import StructureLayout.Proofs.Decimal.Reading
import StructureLayout.Proofs.Text.Form

/-!
# The grammar of specifications

A specification is described by one grammar in which it is left open what may enclose the whole,
the scale, the operands of a quotient and the exponent of a power.  A documented specification has
one pair of braces around the whole or around the scale, and one pair of parentheses around an
exponent.
-/

namespace StructureLayout.Spec

open Text Text.Form

structure Brackets where
  whole : Enclosure
  scale : Enclosure
  operand : Enclosure
  exponent : Enclosure

def number : Form Binary64 := fun cs x => Binary.read? cs = some x

def exponent : Form Int := fun cs n => Numeral.integer? cs = some n ∧ n.natAbs ≤ 62

/-- A mark of two and a mark of a power, then the exponent. -/
def power (b : Brackets) : Form Binary64 := fun cs x =>
  ∃ ds, cs = '2' :: '^' :: ds ∧ mapped (fun n => .ofRat (2 ^ n)) (within b.exponent exponent) ds x

def term (b : Brackets) : Form Binary64 := either number (power b)

def operand (b : Brackets) : Form Binary64 := enclosed b.operand (term b)

def ratio (b : Brackets) : Form Binary64 :=
  either (term b) (joined '/' (· / ·) (operand b) (operand b))

def scale (b : Brackets) : Form Binary64 := enclosed b.scale (ratio b)

def bias : Form Binary64 := within .blanks number

def body (b : Brackets) : Form (Binary64 × Binary64) :=
  either (mapped (·, .zero false) (scale b)) (joined ',' Prod.mk (scale b) bias)

def specification (b : Brackets) : Form (Binary64 × Binary64) := enclosed b.whole (body b)

def braces : Enclosure := .optional (.pair '{' '}')

def parentheses : Enclosure := .optional (.pair '(' ')')

def bracedWhole : Brackets := ⟨braces, .nothing, .nothing, parentheses⟩

def bracedScale : Brackets := ⟨.nothing, braces, .nothing, parentheses⟩

/-- The text is a documented specification of a scale and a bias. -/
def Described (text : String) (p : Binary64 × Binary64) : Prop :=
  specification bracedWhole text.toList p ∨ specification bracedScale text.toList p

/-! ## Characters -/

/-- What may be dropped at the ends of a term. -/
def isMargin (c : Char) : Bool := isBlank c || c == '{' || c == '}'

def isInk (c : Char) : Bool := Numeral.isMark c || c == '^' || c == '(' || c == ')'

theorem isMargin_of_isBlank (c : Char) (h : isBlank c = true) : isMargin c = true := by
  simp [isMargin, h]

theorem isInk_of_isMark {c : Char} (h : Numeral.isMark c = true) : isInk c = true := by
  simp [isInk, h]

theorem isBlank_of_isInk {c : Char} (h : isInk c = true) : isBlank c = false := by
  simp only [isInk, Numeral.isMark, Bool.or_eq_true, beq_iff_eq] at h
  rcases h with (((((h | rfl) | rfl) | rfl) | rfl) | rfl) | rfl
  · exact isBlank_of_isAlphanum h
  all_goals rfl

theorem isMargin_of_isInk {c : Char} (h : isInk c = true) : isMargin c = false := by
  rw [isMargin, isBlank_of_isInk h, Bool.false_or, Bool.or_eq_false_iff]
  constructor
  all_goals
    rw [beq_eq_false_iff_ne]
    rintro rfl
    cases h

theorem over_number : Over (fun c => Numeral.isMark c = true) number := fun _ _ h =>
  Binary.isMark_of_read? h

theorem over_exponent : Over (fun c => Numeral.isMark c = true) exponent := fun _ _ h =>
  Numeral.isMark_of_integer? h.1

section Characters

variable {b : Brackets} {c : Char}

theorem over_term (h : b.exponent.Over fun c => isInk c = true) :
    Over (fun c => isInk c = true) (term b) := by
  refine Over.either (fun cs x hx c hc => isInk_of_isMark (over_number cs x hx c hc)) ?_
  have hexponent : Over (fun c => isInk c = true) exponent := fun cs n hn c hc =>
    isInk_of_isMark (over_exponent cs n hn c hc)
  rintro _ x ⟨ds, rfl, hds⟩ c hc
  rcases List.mem_cons.mp hc with rfl | hc
  · rfl
  · rcases List.mem_cons.mp hc with rfl | hc
    · rfl
    · exact (hexponent.within h).mapped ds x hds c hc

theorem has_term (h : b.exponent.Over fun c => isInk c = true) :
    Has (fun c => isInk c = true) (term b) := by
  intro cs x hterm
  obtain ⟨c, ds, rfl⟩ : ∃ c ds, cs = c :: ds := by
    refine List.exists_cons_of_ne_nil ?_
    rintro rfl
    rcases hterm with hnumber | ⟨ds, hds, -⟩
    · cases hnumber
    · cases hds
  exact ⟨c, List.mem_cons_self, over_term h _ _ hterm c List.mem_cons_self⟩

theorem over_parentheses : parentheses.Over fun c => isInk c = true :=
  Enclosure.Over.optional (Enclosure.over_pair rfl rfl)

theorem blanks_over_ne (hc : isBlank c = false) : Enclosure.blanks.Over (· ≠ c) := by
  have hne (d : Char) (hd : isBlank d = true) : d ≠ c := by
    rintro rfl
    exact absurd hd (Bool.eq_false_iff.mp hc)
  exact Enclosure.over_runs hne hne

end Characters

/-! ## Balance -/

theorem balanced_blanks : Enclosure.blanks.Balanced '{' '}' :=
  Enclosure.Over.balanced fun front back h c hc =>
    ⟨blanks_over_ne rfl front back h c hc, blanks_over_ne rfl front back h c hc⟩

/-- Where braces come in pairs, they do so in the whole. -/
theorem balanced_specification {b : Brackets} (hwhole : b.whole.Balanced '{' '}')
    (hscale : b.scale.Balanced '{' '}') (hoperand : b.operand.Balanced '{' '}')
    (hexponent : b.exponent.Over fun c => isInk c = true) :
    Balanced '{' '}' (specification b) := by
  have hink (c : Char) (h : isInk c = true) : c ≠ '{' ∧ c ≠ '}' := by
    constructor <;> (rintro rfl; cases h)
  have hterm : Balanced '{' '}' (term b) :=
    Over.balanced fun cs x hx c hc => hink c (over_term hexponent cs x hx c hc)
  have hnumber : Balanced '{' '}' number := Over.balanced fun cs x hx c hc =>
    hink c (isInk_of_isMark (over_number cs x hx c hc))
  have hquotient := hterm.enclosed hoperand balanced_blanks
  have hratio : Balanced '{' '}' (ratio b) :=
    hterm.either (hquotient.joined hquotient (by decide) (by decide))
  have hscale := hratio.enclosed hscale balanced_blanks
  exact (hscale.mapped.either (hscale.joined (hnumber.within balanced_blanks) (by decide)
    (by decide))).enclosed hwhole balanced_blanks

theorem balanced_of_described {text : String} {p : Binary64 × Binary64} (h : Described text p) :
    '{' ∈ text.toList ↔ '}' ∈ text.toList := by
  have hbraces : braces.Balanced '{' '}' := Enclosure.balanced_pair.optional
  have hnothing : Enclosure.nothing.Balanced '{' '}' := Enclosure.over_nothing.balanced
  rcases h with h | h
  · exact balanced_specification hbraces hnothing hnothing over_parentheses _ _ h
  · exact balanced_specification hnothing hbraces hnothing over_parentheses _ _ h

/-! ## Texts without brackets -/

section Reduction

variable {p : Char → Bool} {b b' : Brackets}

theorem reduces_number (h : ∀ c, Numeral.isMark c = true → p c = true) :
    Reduces p number number := by
  intro cs x hx
  rwa [List.filter_eq_self.mpr fun c hc => h c (over_number cs x hx c hc)]

theorem reduces_exponent (h : ∀ c, Numeral.isMark c = true → p c = true) :
    Reduces p exponent exponent := by
  intro cs n hn
  rwa [List.filter_eq_self.mpr fun c hc => h c (over_exponent cs n hn c hc)]

theorem reduces_term (h : ∀ c, Numeral.isMark c = true → p c = true) (hpower : p '^' = true)
    (hexponent : b.exponent.Reduces p b'.exponent) : Reduces p (term b) (term b') := by
  refine (reduces_number h).either ?_
  rintro _ x ⟨ds, rfl, hds⟩
  have htwo : p '2' = true := h '2' rfl
  refine ⟨ds.filter p, ?_, ((reduces_exponent h).within hexponent).mapped _ _ hds⟩
  rw [List.filter_cons_of_pos htwo, List.filter_cons_of_pos hpower]

/-- Characters that only enclose may be left out. -/
theorem reduces_specification (h : ∀ c, Numeral.isMark c = true → p c = true)
    (hpower : p '^' = true) (hquotient : p '/' = true) (hcomma : p ',' = true)
    (hwhole : b.whole.Reduces p b'.whole) (hscale : b.scale.Reduces p b'.scale)
    (hoperand : b.operand.Reduces p b'.operand) (hexponent : b.exponent.Reduces p b'.exponent) :
    Reduces p (specification b) (specification b') := by
  have hterm := reduces_term h hpower hexponent
  have hscale : Reduces p (scale b) (scale b') :=
    (hterm.either ((hterm.enclosed hoperand).joined (hterm.enclosed hoperand) hquotient)).enclosed
      hscale
  exact (hscale.mapped.either (hscale.joined ((reduces_number h).within .runs) hcomma)).enclosed
    hwhole

end Reduction

end StructureLayout.Spec
