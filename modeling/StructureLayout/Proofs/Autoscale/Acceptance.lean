import StructureLayout.Proofs.Autoscale.Grammar

/-!
# Accepted specifications

Reading accepts the texts of the grammar in which the scale and its operands stand between any
number of braces and an exponent between any number of parentheses.
-/

namespace StructureLayout.Spec

open Text Text.Form

def isParenthesis (c : Char) : Bool := c == '(' || c == ')'

/-- Opening braces in front and closing ones behind, in any numbers. -/
def looseBraces : Enclosure := .runs (· == '{') (· == '}')

def looseParentheses : Enclosure := .runs isParenthesis isParenthesis

def lenient : Brackets := ⟨braces, looseBraces, looseBraces, looseParentheses⟩

/-! ## Marks -/

section Marks

variable {mark : Char} {cs ds es : List Char}

theorem splitFirst_of_forall_ne (h : ∀ c ∈ cs, c ≠ mark) : splitFirst mark cs = (cs, none) := by
  have hall : ∀ c ∈ cs, (c != mark) = true := fun c hc => bne_iff_ne.mpr (h c hc)
  rw [splitFirst, dropWhile_of_forall hall]

theorem splitFirst_append (h : ∀ c ∈ ds, c ≠ mark) (es : List Char) :
    splitFirst mark (ds ++ mark :: es) = (ds, some es) := by
  have hall : ∀ c ∈ ds, (c != mark) = true := fun c hc => bne_iff_ne.mpr (h c hc)
  have hdrop : (ds ++ mark :: es).dropWhile (· != mark) = mark :: es := by
    rw [List.dropWhile_append_of_pos hall]
    exact List.dropWhile_cons_of_neg (by simp)
  have htake : (ds ++ mark :: es).takeWhile (· != mark) = ds := by
    rw [List.takeWhile_append_of_pos hall, List.takeWhile_cons_of_neg (by simp), List.append_nil]
  rw [splitFirst, hdrop, htake]

theorem eq_of_splitFirst_none (h : splitFirst mark cs = (ds, none)) : ds = cs := by
  unfold splitFirst at h
  split at h
  · exact (congrArg Prod.fst h).symm
  · cases congrArg Prod.snd h

theorem eq_append_of_splitFirst (h : splitFirst mark cs = (ds, some es)) :
    cs = ds ++ mark :: es ∧ mark ∉ ds := by
  unfold splitFirst at h
  split at h
  · cases congrArg Prod.snd h
  · rename_i c rest hdrop
    obtain rfl : cs.takeWhile (· != mark) = ds := congrArg Prod.fst h
    obtain rfl : rest = es := Option.some.inj (congrArg Prod.snd h)
    obtain rfl : c = mark := by
      have hhead := List.head?_dropWhile_not (· != mark) cs
      rw [hdrop] at hhead
      exact bne_eq_false_iff_eq.mp hhead
    refine ⟨?_, fun hmem => absurd (List.mem_takeWhile_imp hmem) (by simp)⟩
    rw [← hdrop, List.takeWhile_append_dropWhile]

end Marks

/-! ## Bare terms -/

section Bare

variable {α : Type} {K : Form α} {cs : List Char} {x : α}

/-- What stands for something without its braces and blanks stands for the same with them. -/
theorem enclosed_of_bare (h : K (bare cs) x) : enclosed looseBraces K cs x := by
  obtain ⟨front, back, hfront, hback, hcs⟩ := exists_trimWith isBlank cs
  obtain ⟨opening, hopening, htrim⟩ := exists_dropWhile (· == '{') (trim cs)
  obtain ⟨closing, hclosing, hdrop⟩ :=
    exists_dropTail (· == '}') ((trim cs).dropWhile (· == '{'))
  obtain ⟨front', back', hfront', hback', hinner⟩ := exists_trimWith isBlank
    (dropTail (· == '}') ((trim cs).dropWhile (· == '{')))
  refine ⟨front, trim cs, back, ⟨hfront, hback⟩, ⟨opening, _, closing, ⟨hopening, hclosing⟩,
    ⟨front', bare cs, back', ⟨hfront', hback'⟩, h, hinner⟩, ?_⟩, hcs⟩
  rw [List.append_assoc, ← hdrop]
  exact htrim

/-- Blanks, braces of one kind and blanks are dropped in front. -/
def strip (brace : Char) (cs : List Char) : List Char :=
  ((cs.dropWhile isBlank).dropWhile (· == brace)).dropWhile isBlank

theorem bare_pivot {c : Char} (hc : isMargin c = false) (front back : List Char) :
    bare (front ++ c :: back) = strip '{' front ++ c :: (strip '}' back.reverse).reverse := by
  obtain ⟨⟨hblank, hopening⟩, hclosing⟩ :
      (isBlank c = false ∧ (c == '{') = false) ∧ (c == '}') = false := by
    rwa [isMargin, Bool.or_eq_false_iff, Bool.or_eq_false_iff] at hc
  have htrim (front back : List Char) :
      trim (front ++ c :: back) = front.dropWhile isBlank ++ c :: dropTail isBlank back :=
    trimWith_pivot hblank front back
  rw [bare, htrim, dropWhile_pivot (p := (· == '{')) hopening,
    dropTail_pivot (p := (· == '}')) hclosing, htrim]
  simp only [strip, dropTail, List.reverse_reverse]

/-- Stripping drops one layer of blanks, braces and blanks at least, and nothing but margin. -/
theorem drops_strip {brace : Char} (hbrace : isBlank brace = false)
    (hmargin : isMargin brace = true) {before opening after : List Char}
    (hbefore : ∀ c ∈ before, isBlank c = true)
    (hopening : ∀ c ∈ opening, (c == brace) = true) (hafter : ∀ c ∈ after, isBlank c = true)
    (cs : List Char) :
    Drops isMargin cs (strip brace (before ++ (opening ++ (after ++ cs)))) := by
  have hblanks (ds : List Char) := drops_dropWhile isMargin_of_isBlank ds
  have hbraces (ds : List Char) : Drops isMargin ds (ds.dropWhile (· == brace)) :=
    drops_dropWhile (fun c hc => beq_iff_eq.mp hc ▸ hmargin) ds
  rw [strip, List.dropWhile_append_of_pos hbefore]
  cases opening with
  | nil =>
      rw [List.nil_append, List.dropWhile_append_of_pos hafter]
      exact ((hblanks cs).trans (hbraces _)).trans (hblanks _)
  | cons c opening =>
      obtain ⟨hc, -⟩ := List.forall_mem_cons.mp hopening
      have hne : ¬ isBlank c = true := by
        rw [beq_iff_eq.mp hc, hbrace]
        exact Bool.false_ne_true
      rw [List.cons_append, List.dropWhile_cons_of_neg hne, ← List.cons_append,
        List.dropWhile_append_of_pos hopening]
      cases after with
      | nil => exact (hbraces cs).trans (hblanks _)
      | cons d after =>
          have hd : ¬ (d == brace) = true := by
            rw [beq_iff_eq]
            rintro rfl
            exact absurd (hafter _ List.mem_cons_self) (Bool.eq_false_iff.mp hbrace)
          rw [List.cons_append, List.dropWhile_cons_of_neg (p := (· == brace)) hd,
            ← List.cons_append, List.dropWhile_append_of_pos hafter]
          exact hblanks cs

/-- Where a form may lose margin, its texts are those that stand for something when bare. -/
theorem bare_of_enclosed (hsheds : Sheds isMargin K) (hhas : Has (fun c => isMargin c = false) K)
    (h : enclosed looseBraces K cs x) : K (bare cs) x := by
  obtain ⟨before, _, before', ⟨hbefore, hbefore'⟩, ⟨opening, _, closing, ⟨hopening, hclosing⟩,
    ⟨after, inner, after', ⟨hafter, hafter'⟩, hinner, rfl⟩, rfl⟩, rfl⟩ := h
  -- What stands in front of the pivot and what stands behind it are stripped apart, and the back
  -- is stripped as a front read backwards.
  obtain ⟨c, hc, hmargin⟩ := hhas _ _ hinner
  obtain ⟨front, back, rfl⟩ := List.append_of_mem hc
  have hreverse {ds : List Char} {p : Char → Prop} (h : ∀ c ∈ ds, p c) : ∀ c ∈ ds.reverse, p c :=
    fun c hc => h c (List.mem_reverse.mp hc)
  obtain ⟨dropped, hdropped, hfront⟩ := drops_strip rfl rfl hbefore hopening hafter front
  obtain ⟨dropped', hdropped', hback⟩ := drops_strip rfl rfl (hreverse hbefore')
    (hreverse hclosing) (hreverse hafter') back.reverse
  have hbare : bare (before ++ (opening ++ (after ++ (front ++ c :: back) ++ after') ++ closing) ++
      before') =
        strip '{' (before ++ (opening ++ (after ++ front))) ++
          c :: (strip '}' (before'.reverse ++ (closing.reverse ++
            (after'.reverse ++ back.reverse)))).reverse := by
    rw [← List.reverse_append, ← List.reverse_append, ← List.reverse_append, ← bare_pivot hmargin]
    simp only [List.append_assoc, List.cons_append]
  rw [hbare]
  refine hsheds.ends hdropped (hreverse hdropped') ?_
  rw [hfront, ← List.reverse_reverse back, hback] at hinner
  simpa using hinner

end Bare

/-! ## Terms and scales -/

section Scales

variable {cs : List Char} {x : Binary64}

theorem power?_eq_some_iff : power? cs = some x ↔
    mapped (fun n => .ofRat (2 ^ n)) (within looseParentheses exponent) cs x := by
  have htrim : trimWith (fun c => c == '(' || c == ')') cs = trimWith isParenthesis cs := rfl
  rw [power?, htrim]
  constructor
  · intro h
    split at h
    · rename_i n hn
      split at h
      · rename_i hsize
        obtain ⟨front, back, hfront, hback, hcs⟩ := exists_trimWith isParenthesis cs
        exact ⟨n, ⟨front, _, back, ⟨hfront, hback⟩, ⟨hn, hsize⟩, hcs⟩, (Option.some.inj h).symm⟩
      · cases h
    · cases h
  · rintro ⟨n, ⟨front, inner, back, ⟨hfront, hback⟩, hinner, rfl⟩, rfl⟩
    have hself : trimWith isParenthesis inner = inner := trimWith_eq_self fun c hc => by
      have hmark := over_exponent _ _ hinner c hc
      rw [isParenthesis, Bool.or_eq_false_iff, beq_eq_false_iff_ne, beq_eq_false_iff_ne]
      constructor <;> (rintro rfl; cases hmark)
    rw [trimWith_append hfront hback, hself, hinner.1]
    exact if_pos hinner.2

theorem term?_eq_some_iff : term? cs = some x ↔ term lenient cs x := by
  unfold term?
  split
  · rename_i ds
    rw [power?_eq_some_iff]
    constructor
    · exact fun h => Or.inr ⟨ds, rfl, h⟩
    · rintro (hnumber | ⟨es, hes, h⟩)
      · have hmark := over_number _ _ hnumber '^' (List.mem_cons_of_mem _ List.mem_cons_self)
        cases hmark
      · rwa [(List.cons.inj (List.cons.inj hes).2).2]
  · rename_i hpower
    exact ⟨Or.inl, fun h => h.elim id fun ⟨ds, hds, _⟩ => (hpower ds hds).elim⟩

theorem over_looseParentheses : looseParentheses.Over fun c => isInk c = true := by
  have hink (c : Char) (h : isParenthesis c = true) : isInk c = true := by
    rw [isParenthesis, Bool.or_eq_true, beq_iff_eq, beq_iff_eq] at h
    rcases h with rfl | rfl <;> rfl
  exact Enclosure.over_runs hink hink

theorem sheds_term : Sheds isMargin (term lenient) :=
  Over.sheds fun cs x h c hc => isMargin_of_isInk (over_term over_looseParentheses cs x h c hc)

theorem has_term_lenient : Has (fun c => isMargin c = false) (term lenient) := fun cs x h =>
  (has_term over_looseParentheses cs x h).imp fun _ hc => ⟨hc.1, isMargin_of_isInk hc.2⟩

theorem operand_iff : operand lenient cs x ↔ term? (bare cs) = some x := by
  rw [term?_eq_some_iff]
  exact ⟨bare_of_enclosed sheds_term has_term_lenient, enclosed_of_bare⟩

theorem looseBraces_over_ne {c : Char} (hc : c ≠ '{' ∧ c ≠ '}') : looseBraces.Over (· ≠ c) := by
  refine Enclosure.over_runs (fun d hd => ?_) (fun d hd => ?_)
  · rw [beq_iff_eq.mp hd]
    exact hc.1.symm
  · rw [beq_iff_eq.mp hd]
    exact hc.2.symm

/-- No mark of a quotient or of a bias stands in an operand. -/
theorem over_operand (mark : Char) (hmargin : isMargin mark = false) (hink : isInk mark = false) :
    Over (· ≠ mark) (operand lenient) := by
  obtain ⟨⟨hblank, hopening⟩, hclosing⟩ :
      (isBlank mark = false ∧ mark ≠ '{') ∧ mark ≠ '}' := by
    simpa [isMargin, and_assoc] using hmargin
  have hterm : Over (· ≠ mark) (term lenient) := by
    intro cs x h c hc
    rintro rfl
    exact absurd (over_term over_looseParentheses cs x h c hc) (Bool.eq_false_iff.mp hink)
  exact hterm.enclosed (looseBraces_over_ne ⟨hopening, hclosing⟩) (blanks_over_ne hblank)

theorem sheds_ratio : Sheds isMargin (ratio lenient) := by
  have hoperand : Sheds isMargin (operand lenient) :=
    sheds_term.within_runs.within_runs.within_runs
  exact sheds_term.either (hoperand.joined hoperand rfl)

theorem has_ratio : Has (fun c => isMargin c = false) (ratio lenient) :=
  has_term_lenient.either (has_joined rfl)

theorem scale?_eq_some_iff : scale? cs = some x ↔ scale lenient cs x := by
  constructor
  · intro h
    refine enclosed_of_bare ?_
    obtain ⟨numerator, rest, hsplit⟩ : ∃ ds es, splitFirst '/' (bare cs) = (ds, es) := ⟨_, _, rfl⟩
    rw [scale?, hsplit] at h
    cases rest with
    | none =>
        rw [eq_of_splitFirst_none hsplit] at h
        exact Or.inl (term?_eq_some_iff.mp h)
    | some denominator =>
        by_cases hmore : '/' ∈ denominator
        · simp only [if_pos hmore] at h
          cases h
        · simp only [if_neg hmore] at h
          obtain ⟨n, hn, h⟩ := Option.bind_eq_some_iff.mp h
          obtain ⟨d, hd, h⟩ := Option.bind_eq_some_iff.mp h
          exact Or.inr ⟨numerator, denominator, n, d, operand_iff.mpr hn, operand_iff.mpr hd,
            (eq_append_of_splitFirst hsplit).1, (Option.some.inj h).symm⟩
  · intro h
    have hne := over_operand '/' rfl rfl
    rcases bare_of_enclosed sheds_ratio has_ratio h with hterm | ⟨ds, es, n, d, hn, hd, hbare, rfl⟩
    · have hwhole := splitFirst_of_forall_ne (hne _ _ (enclosed_of_nothing ⟨nofun, nofun⟩ hterm))
      rw [scale?, hwhole]
      exact term?_eq_some_iff.mpr hterm
    · have hmore : '/' ∉ es := fun hmem => hne es d hd _ hmem rfl
      rw [scale?, hbare, splitFirst_append (hne ds n hn)]
      simp only [if_neg hmore, operand_iff.mp hn, operand_iff.mp hd]
      rfl

theorem over_scale : Over (· ≠ ',') (scale lenient) := by
  have hoperand := over_operand ',' rfl rfl
  have hterm : Over (· ≠ ',') (term lenient) := fun cs x h =>
    hoperand cs x (enclosed_of_nothing ⟨nofun, nofun⟩ h)
  exact (hterm.either (hoperand.joined hoperand (by decide))).enclosed
    (looseBraces_over_ne (by decide)) (blanks_over_ne rfl)

theorem bias_iff : bias cs x ↔ Binary.read? (trim cs) = some x := by
  constructor
  · rintro ⟨front, inner, back, ⟨hfront, hback⟩, hinner, rfl⟩
    have hself : trim inner = inner := trimWith_eq_self fun c hc =>
      isBlank_of_isInk (isInk_of_isMark (over_number _ _ hinner c hc))
    rw [trim, trimWith_append hfront hback, ← trim, hself]
    exact hinner
  · intro h
    obtain ⟨front, back, hfront, hback, hcs⟩ := exists_trimWith isBlank cs
    exact ⟨front, trim cs, back, ⟨hfront, hback⟩, h, hcs⟩

end Scales

/-! ## The whole -/

section Whole

variable {cs : List Char} {p : Binary64 × Binary64}

theorem sheds_body : Sheds isMargin (body lenient) := by
  have hscale : Sheds isMargin (scale lenient) := sheds_ratio.within_runs.within_runs.within_runs
  have hnumber : Sheds isMargin number := Over.sheds fun cs x h c hc =>
    isMargin_of_isInk (isInk_of_isMark (over_number cs x h c hc))
  exact hscale.mapped.either (hscale.joined hnumber.within_runs rfl)

theorem has_body : Has (fun c => isMargin c = false) (body lenient) :=
  has_ratio.enclosed.mapped.either (has_joined rfl)

theorem unwrap_cases (cs : List Char) : unwrap cs = cs ∨ cs = '{' :: unwrap cs ++ ['}'] := by
  unfold unwrap
  split
  · rename_i rest
    split
    · rename_i hlast
      right
      obtain ⟨inner, rfl⟩ := List.getLast?_eq_some_iff.mp hlast
      rw [List.dropLast_concat]
      rfl
    · exact Or.inl rfl
  · exact Or.inl rfl

theorem unwrap_pair (cs : List Char) : unwrap ('{' :: cs ++ ['}']) = cs := by
  simp [unwrap]

/-- The braces around the whole are dropped if they form a pair. -/
theorem body_unwrap_iff :
    body lenient (trim (unwrap (trim cs))) p ↔ specification lenient cs p := by
  constructor
  · intro h
    obtain ⟨front, back, hfront, hback, hcs⟩ := exists_trimWith isBlank cs
    obtain ⟨front', back', hfront', hback', hinner⟩ := exists_trimWith isBlank (unwrap (trim cs))
    have hpart : within .blanks (body lenient) (unwrap (trim cs)) p :=
      ⟨front', _, back', ⟨hfront', hback'⟩, h, hinner⟩
    refine ⟨front, trim cs, back, ⟨hfront, hback⟩, ?_, hcs⟩
    rcases unwrap_cases (trim cs) with hsame | hpair
    · refine ⟨[], unwrap (trim cs), [], Or.inl ⟨rfl, rfl⟩, hpart, ?_⟩
      rw [List.append_nil, List.nil_append, hsame]
    · exact ⟨['{'], unwrap (trim cs), ['}'], Or.inr ⟨rfl, rfl⟩, hpart, hpair⟩
  · rintro ⟨front, _, back, ⟨hfront, hback⟩, ⟨opening, _, closing, hbraces,
      ⟨front', inner, back', ⟨hfront', hback'⟩, hinner, rfl⟩, rfl⟩, rfl⟩
    have htrim : trim (front' ++ inner ++ back') = trim inner :=
      trimWith_append hfront' hback' inner
    have houter (ds : List Char) : trim (front ++ ds ++ back) = trim ds :=
      trimWith_append hfront hback ds
    have hbody := sheds_body.trim isMargin_of_isBlank hinner
    rw [houter]
    rcases hbraces with ⟨rfl, rfl⟩ | ⟨rfl, rfl⟩
    -- Braces of the scale may be taken for a pair around the whole; the body then sheds them.
    · rw [List.append_nil, List.nil_append, htrim]
      refine sheds_body.trim isMargin_of_isBlank ?_
      rcases unwrap_cases (trim inner) with hsame | hpair
      · rwa [hsame]
      · rw [hpair] at hbody
        have hopening : ∀ c ∈ ['{'], isMargin c = true := List.forall_mem_singleton.mpr rfl
        have hclosing : ∀ c ∈ ['}'], isMargin c = true := List.forall_mem_singleton.mpr rfl
        exact sheds_body.ends hopening hclosing hbody
    · have hpair : trim (['{'] ++ (front' ++ inner ++ back') ++ ['}']) =
          '{' :: (front' ++ inner ++ back') ++ ['}'] := by
        have hopening : isBlank '{' = false := rfl
        have hclosing : isBlank '}' = false := rfl
        exact (trimWith_pivot hopening [] _).trans
          (congrArg (List.cons '{') (dropTail_pivot hclosing (front' ++ inner ++ back') []))
      rw [hpair, unwrap_pair, htrim]
      exact hbody

theorem read?_eq_some_iff {text : String} :
    read? text = some p ↔ specification lenient text.toList p := by
  have hne (h : body lenient (trim (unwrap (trim text.toList))) p) :
      trim (unwrap (trim text.toList)) ≠ [] := by
    obtain ⟨c, hc, -⟩ := has_body _ _ h
    exact List.ne_nil_of_mem hc
  rw [← body_unwrap_iff, read?]
  generalize trim (unwrap (trim text.toList)) = cs at hne ⊢
  constructor
  · intro h
    split at h
    · cases h
    · obtain ⟨ds, rest, hsplit⟩ : ∃ ds rest, splitFirst ',' cs = (ds, rest) := ⟨_, _, rfl⟩
      rw [hsplit] at h
      cases rest with
      | none =>
          obtain ⟨x, hx, hp⟩ := Option.map_eq_some_iff.mp h
          rw [eq_of_splitFirst_none hsplit] at hx
          exact Or.inl ⟨x, scale?_eq_some_iff.mp hx, hp.symm⟩
      | some es =>
          obtain ⟨x, hx, h⟩ := Option.bind_eq_some_iff.mp h
          obtain ⟨y, hy, h⟩ := Option.bind_eq_some_iff.mp h
          exact Or.inr ⟨ds, es, x, y, scale?_eq_some_iff.mp hx, bias_iff.mpr hy,
            (eq_append_of_splitFirst hsplit).1, (Option.some.inj h).symm⟩
  · intro h
    rw [if_neg (hne h)]
    rcases h with ⟨x, hx, rfl⟩ | ⟨ds, es, x, y, hx, hy, rfl, rfl⟩
    · rw [splitFirst_of_forall_ne (over_scale _ _ hx)]
      exact Option.map_eq_some_iff.mpr ⟨x, scale?_eq_some_iff.mpr hx, rfl⟩
    · rw [splitFirst_append (over_scale _ _ hx)]
      simp only [scale?_eq_some_iff.mpr hx, bias_iff.mp hy]
      rfl

end Whole

/-! ## Documented specifications -/

def isBracket (c : Char) : Bool := c == '{' || c == '}' || isParenthesis c

def withoutBrackets (text : String) : String :=
  String.ofList (text.toList.filter fun c => !isBracket c)

/-- What encloses a part of a documented specification may enclose it when it is read. -/
theorem lenient_of_described {text : String} {p : Binary64 × Binary64} (h : Described text p) :
    specification lenient text.toList p := by
  have hnothing : Enclosure.nothing.Reduces (fun _ => true) looseBraces :=
    .nothing ⟨nofun, nofun⟩
  have hbraces : braces.Reduces (fun _ => true) looseBraces :=
    .optional ⟨nofun, nofun⟩ (.pair rfl rfl)
  have hparentheses : parentheses.Reduces (fun _ => true) looseParentheses :=
    .optional ⟨nofun, nofun⟩ (.pair rfl rfl)
  have hwhole : Reduces (fun _ => true) (specification bracedWhole) (specification lenient) :=
    reduces_specification (fun _ _ => rfl) rfl rfl rfl (.refl _) hnothing hnothing hparentheses
  have hscale : Reduces (fun _ => true) (specification bracedScale) (specification lenient) :=
    reduces_specification (fun _ _ => rfl) rfl rfl rfl (.nothing (Or.inl ⟨rfl, rfl⟩)) hbraces
      hnothing hparentheses
  rw [← List.filter_true (l := text.toList)]
  exact h.elim (hwhole _ _) (hscale _ _)

theorem described_withoutBrackets {text : String} {p : Binary64 × Binary64}
    (h : specification lenient text.toList p) : Described (withoutBrackets text) p := by
  have hmark (c : Char) (hc : Numeral.isMark c = true) : (!isBracket c) = true := by
    rw [Bool.not_eq_true', isBracket, isParenthesis]
    simp only [Bool.or_eq_false_iff, beq_eq_false_iff_ne]
    refine ⟨⟨?_, ?_⟩, ?_, ?_⟩ <;> (rintro rfl; cases hc)
  have hbraces : looseBraces.Over fun c => (!isBracket c) = false :=
    Enclosure.over_runs (fun c hc => by rw [beq_iff_eq.mp hc]; rfl)
      fun c hc => by rw [beq_iff_eq.mp hc]; rfl
  have hparentheses : looseParentheses.Over fun c => (!isBracket c) = false :=
    Enclosure.over_runs (fun c hc => by simp [isBracket, hc]) fun c hc => by simp [isBracket, hc]
  have hpair : braces.Over fun c => (!isBracket c) = false :=
    Enclosure.Over.optional (Enclosure.over_pair rfl rfl)
  have hreduces :
      Reduces (fun c => !isBracket c) (specification lenient) (specification bracedWhole) :=
    reduces_specification hmark rfl rfl rfl (.of_dropped (Or.inl ⟨rfl, rfl⟩) hpair)
      (.of_dropped ⟨rfl, rfl⟩ hbraces) (.of_dropped ⟨rfl, rfl⟩ hbraces)
      (.of_dropped (Or.inl ⟨rfl, rfl⟩) hparentheses)
  refine Or.inl ?_
  rw [withoutBrackets, String.toList_ofList]
  exact hreduces _ _ h

/-- An eighth as a quotient by a power, in braces, and a bias. -/
theorem described_eighth :
    Described "\x7b1/2^(3)\x7d, -40" (.ofRat (1 / 8), .ofRat (-40)) := by
  have hblanks (K : Form Binary64) (cs : List Char) (x : Binary64) (h : K cs x) :
      within .blanks K cs x :=
    ⟨[], cs, [], ⟨nofun, nofun⟩, h, (List.append_nil cs).symm⟩
  have hone : operand bracedScale ['1'] (.ofRat 1) :=
    enclosed_of_nothing ⟨rfl, rfl⟩ (Or.inl (by unfold number; decide +kernel))
  have height : operand bracedScale "2^(3)".toList (.ofRat (2 ^ (3 : Int))) := by
    refine enclosed_of_nothing ⟨rfl, rfl⟩ (Or.inr ⟨"(3)".toList, rfl, 3, ?_, rfl⟩)
    exact ⟨['('], ['3'], [')'], Or.inr ⟨rfl, rfl⟩, ⟨by decide, by decide⟩, rfl⟩
  have hratio : ratio bracedScale "1/2^(3)".toList (.ofRat (1 / 8)) :=
    Or.inr ⟨['1'], "2^(3)".toList, _, _, hone, height, rfl, by decide +kernel⟩
  have hscale : scale bracedScale "\x7b1/2^(3)\x7d".toList (.ofRat (1 / 8)) :=
    hblanks _ _ _ ⟨['{'], _, ['}'], Or.inr ⟨rfl, rfl⟩, hblanks _ _ _ hratio, rfl⟩
  have hbias : bias " -40".toList (.ofRat (-40)) :=
    ⟨[' '], "-40".toList, [], ⟨List.forall_mem_singleton.mpr rfl, nofun⟩,
      by unfold number; decide +kernel, rfl⟩
  exact Or.inr (enclosed_of_nothing ⟨rfl, rfl⟩ (Or.inr ⟨_, _, _, _, hscale, hbias, rfl, rfl⟩))

/-- Every documented specification is read as what it stands for.  Reading also accepts brackets
that do not match, and nothing else: without its brackets every text that is read is documented, so
that of texts without any the documented ones are read. -/
theorem read?_documented (text : String) (p : Binary64 × Binary64) :
    (Described text p → read? text = some p) ∧
      (read? text = some p ↔ specification lenient text.toList p) ∧
      (read? text = some p → Described (withoutBrackets text) p) ∧
      (withoutBrackets text = text → (read? text = some p ↔ Described text p)) := by
  have hread (h : Described text p) : read? text = some p :=
    read?_eq_some_iff.mpr (lenient_of_described h)
  have hplain (h : read? text = some p) : Described (withoutBrackets text) p :=
    described_withoutBrackets (read?_eq_some_iff.mp h)
  refine ⟨hread, read?_eq_some_iff, hplain, fun hnone => ⟨fun h => ?_, hread⟩⟩
  rw [← hnone]
  exact hplain h

theorem read?_eighth :
    Described "\x7b1/2^(3)\x7d, -40" (.ofRat (1 / 8), .ofRat (-40)) ∧
      read? "\x7b1/2^(3)\x7d, -40" = some (.ofRat (1 / 8), .ofRat (-40)) ∧
      read? "\x7b\x7b1\x7d/2^((3, -40" = some (.ofRat (1 / 8), .ofRat (-40)) ∧
      Described (withoutBrackets "\x7b\x7b1\x7d/2^((3, -40") (.ofRat (1 / 8), .ofRat (-40)) := by
  have hread : read? "\x7b\x7b1\x7d/2^((3, -40" = some (.ofRat (1 / 8), .ofRat (-40)) := by
    decide +kernel
  exact ⟨described_eighth, (read?_documented _ _).1 described_eighth, hread,
    (read?_documented _ _).2.2.1 hread⟩

/-- An opening brace alone is no documented specification's. -/
theorem read?_unclosed :
    read? "\x7b10" = some (.ofRat 10, .zero false) ∧
      ¬ ∀ text p, read? text = some p ↔ Described text p := by
  have hread : read? "\x7b10" = some (.ofRat 10, .zero false) := by decide +kernel
  refine ⟨hread, fun h => ?_⟩
  have hbalanced := balanced_of_described ((h _ _).mp hread)
  exact absurd (hbalanced.mp (by decide)) (by decide)

end StructureLayout.Spec
