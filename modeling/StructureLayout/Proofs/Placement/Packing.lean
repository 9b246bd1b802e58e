import StructureLayout.Image.Basic
import StructureLayout.Proofs.Placement.Prefix
import StructureLayout.Proofs.Placement.Refusal
import Mathlib.Algebra.Order.Floor.Div

/-!
# Packing flags

Flags that follow one another take the bits of words in turn.  A flag goes to the bit that it is
declared at, or else to the first free one, which is past the flag before it or, when that has
the last bit of its word, at the start of the next word.  Without declared bits the places are
quotients and remainders.
-/

namespace StructureLayout

/-- The place that a flag takes in view of the first free bit of a word. -/
def OpenWord.placeFor (width : Width) (w : OpenWord) (b : Flag) : FlagPlace :=
  ⟨width, w.offset, b.bit.getD w.nextBit⟩

namespace FlagPlace

/-- The first free bit behind a place. -/
def behind (p : FlagPlace) : OpenWord :=
  if p.bit + 1 = p.word.bits then ⟨p.offset + p.word.bytes, 0⟩ else ⟨p.offset, p.bit + 1⟩

def entry (p : FlagPlace) (b : Flag) : Entry Layout := .flag b p.offset p.word p.bit

def finish (p : FlagPlace) : Nat := p.offset + p.word.bytes

end FlagPlace

/-- The places of flags that follow one another, from the first free bit on. -/
def packed (width : Width) : OpenWord → List Flag → List FlagPlace
  | _, [] => []
  | w, b :: bs => w.placeFor width b :: packed width (w.placeFor width b).behind bs

/-- The first free bit behind flags that follow one another. -/
def freeBehind (width : Width) (w : OpenWord) (bs : List Flag) : OpenWord :=
  bs.foldl (fun w b => (w.placeFor width b).behind) w

section Packed

variable {width : Width} {w : OpenWord} {b : Flag} {bs : List Flag}

theorem freeBehind_concat :
    freeBehind width w (bs ++ [b]) = ((freeBehind width w bs).placeFor width b).behind :=
  List.foldl_concat _ _ _ _

theorem packed_concat :
    packed width w (bs ++ [b]) =
      packed width w bs ++ [(freeBehind width w bs).placeFor width b] := by
  induction bs generalizing w with
  | nil => rfl
  | cons c bs ih => rw [List.cons_append, packed, ih, packed, List.cons_append, freeBehind,
      freeBehind, List.foldl_cons]

@[simp] theorem length_packed : (packed width w bs).length = bs.length := by
  induction bs generalizing w with
  | nil => rfl
  | cons b bs ih => rw [packed, List.length_cons, ih, List.length_cons]

/-- The place of the flag with a number in words that are filled from an offset on. -/
def FlagPlace.nth (width : Width) (start k : Nat) : FlagPlace :=
  ⟨width, start + k / width.bits * width.bytes, k % width.bits⟩

theorem FlagPlace.behind_nth (width : Width) (start k : Nat) :
    (FlagPlace.nth width start k).behind =
      ⟨start + (k + 1) / width.bits * width.bytes, (k + 1) % width.bits⟩ := by
  have hpos := width.bits_pos
  have hsplit := Nat.div_add_mod k width.bits
  have hlt := Nat.mod_lt k hpos
  unfold behind nth
  dsimp only
  by_cases hlast : k % width.bits + 1 = width.bits
  · have hnext : k + 1 = width.bits * (k / width.bits + 1) := by
      rw [Nat.mul_succ]
      omega
    rw [if_pos hlast, hnext, Nat.mul_div_cancel_left _ hpos, Nat.mul_mod_right, Nat.succ_mul,
      Nat.add_assoc]
  · have hnext : k + 1 = width.bits * (k / width.bits) + (k % width.bits + 1) := by omega
    have hless : k % width.bits + 1 < width.bits := by omega
    rw [if_neg hlast, hnext, Nat.mul_add_div hpos, Nat.div_eq_of_lt hless, Nat.mul_add_mod,
      Nat.mod_eq_of_lt hless, Nat.add_zero (k / width.bits)]

theorem freeBehind_of_free {start : Nat} (h : ∀ b ∈ bs, b.bit = none) :
    freeBehind width ⟨start, 0⟩ bs =
      ⟨start + bs.length / width.bits * width.bytes, bs.length % width.bits⟩ := by
  induction bs using List.reverseRecOn with
  | nil => simp [freeBehind]
  | append_singleton bs b ih =>
      have hb := h b (by simp)
      have hbs := ih fun c hc => h c (List.mem_append_left _ hc)
      rw [freeBehind_concat, hbs, List.length_append, List.length_singleton,
        ← FlagPlace.behind_nth, OpenWord.placeFor, hb]
      rfl

/-- Flags without declared bits stand at quotients and remainders of their numbers. -/
theorem packed_of_free {start : Nat} (h : ∀ b ∈ bs, b.bit = none) :
    packed width ⟨start, 0⟩ bs = (List.range bs.length).map (FlagPlace.nth width start) := by
  induction bs using List.reverseRecOn with
  | nil => rfl
  | append_singleton bs b ih =>
      have hb := h b (by simp)
      have hbs : ∀ c ∈ bs, c.bit = none := fun c hc => h c (List.mem_append_left _ hc)
      rw [packed_concat, ih hbs, freeBehind_of_free hbs, List.length_append,
        List.length_singleton, List.range_succ, List.map_append, OpenWord.placeFor, hb]
      rfl

theorem finish_nth (width : Width) (start n : Nat) :
    (FlagPlace.nth width start n).finish =
      start + ((n + 1) ⌈/⌉ width.bits) * width.bytes := by
  have hceil : (n + 1) ⌈/⌉ width.bits = n / width.bits + 1 := by
    rw [Nat.ceilDiv_eq_add_pred_div, Nat.add_right_comm, Nat.add_sub_cancel,
      Nat.add_div_right n width.bits_pos]
  rw [FlagPlace.finish, FlagPlace.nth, hceil, Nat.succ_mul, Nat.add_assoc]

end Packed

namespace Placement

variable {space : AddressSpace} {options : Options} {s t : Placement} {next : Declaration}
  {b : Flag} {bs : List Flag}

/-! ## Runs of flags -/

theorem entries_withFlag (options : Options) (s : Placement) (b : Flag) (next : Declaration) :
    (s.withFlag options b next).entries =
      (s.currentWord.placeFor options.bitWord b).entry b :: s.entries := rfl

theorem currentWord_withFlag (hnext : next.isFlag = true) :
    (s.withFlag options b next).currentWord =
      (s.currentWord.placeFor options.bitWord b).behind := by
  have hcloses : s.closesWord options b next = true ↔ s.bitFor b + 1 = options.bitWord.bits := by
    simp [closesWord, hnext]
  have hbehind : (s.currentWord.placeFor options.bitWord b).behind =
      if s.bitFor b + 1 = options.bitWord.bits then
        ⟨s.currentWord.offset + options.bitWord.bytes, 0⟩
      else ⟨s.currentWord.offset, s.bitFor b + 1⟩ := rfl
  rw [hbehind]
  by_cases h : s.closesWord options b next = true
  · rw [if_pos (hcloses.mp h), currentWord, open?_withFlag_of_closes h,
      cursor_withFlag_of_closes h]
    rfl
  · rw [if_neg (mt hcloses.mpr h), currentWord, open?_withFlag_of_not_closes h]
    rfl

/-- Only the last flag is placed in view of what follows the flags. -/
theorem placeBefore_flags_concat_eq_ok_iff :
    s.placeBefore space options next ((bs ++ [b]).map .flag) = .ok t ↔
      ∃ u, s.placeBefore space options (.flag b) (bs.map .flag) = .ok u ∧
        u.AdmitsFlag space options b next ∧ t = u.withFlag options b next := by
  rw [List.map_append, List.map_singleton, placeBefore_concat_eq_ok_iff]
  refine exists_congr fun u => and_congr_right fun _ => ?_
  constructor
  · intro hstep
    cases hstep with
    | flag hadmits => exact ⟨hadmits, rfl⟩
  · rintro ⟨hadmits, rfl⟩
    exact .flag hadmits

theorem currentWord_of_flags (h : s.placeBefore space options next (bs.map .flag) = .ok t)
    (hnext : next.isFlag = true) :
    t.currentWord = freeBehind options.bitWord s.currentWord bs := by
  induction bs using List.reverseRecOn generalizing next t with
  | nil =>
      cases h
      rfl
  | append_singleton bs b ih =>
      obtain ⟨u, hrun, -, rfl⟩ := placeBefore_flags_concat_eq_ok_iff.mp h
      rw [currentWord_withFlag hnext, ih hrun rfl, freeBehind_concat]

theorem entries_of_flags (h : s.placeBefore space options next (bs.map .flag) = .ok t) :
    t.entries =
      (List.zipWith FlagPlace.entry (packed options.bitWord s.currentWord bs) bs).reverse ++
        s.entries := by
  induction bs using List.reverseRecOn generalizing next t with
  | nil =>
      cases h
      rfl
  | append_singleton bs b ih =>
      obtain ⟨u, hrun, -, rfl⟩ := placeBefore_flags_concat_eq_ok_iff.mp h
      rw [entries_withFlag, ih hrun, currentWord_of_flags hrun rfl, packed_concat,
        List.zipWith_append length_packed, List.reverse_append]
      rfl

/-- Behind the last of the flags the cursor is past its word. -/
theorem cursor_of_flags (h : s.placeBefore space options next (bs.map .flag) = .ok t)
    (hnext : next.isFlag = false) :
    ∀ p ∈ (packed options.bitWord s.currentWord bs).getLast?,
      t.cursor = p.finish ∧ t.open? = none := by
  rcases List.eq_nil_or_concat' bs with rfl | ⟨bs, b, rfl⟩
  · exact nofun
  · obtain ⟨u, hrun, -, rfl⟩ := placeBefore_flags_concat_eq_ok_iff.mp h
    have hcloses : u.closesWord options b next = true := by simp [closesWord, hnext]
    rw [packed_concat, List.getLast?_concat, ← currentWord_of_flags hrun rfl]
    rintro p ⟨⟩
    exact ⟨cursor_withFlag_of_closes hcloses, open?_withFlag_of_closes hcloses⟩

/-- Where no flag comes before, no word is open. -/
theorem currentWord_of_run {front : List Declaration}
    (hfront : ∀ d ∈ front.getLast?, d.isFlag = false)
    (h : placeBefore space options next {} front = .ok s) : s.currentWord = ⟨s.cursor, 0⟩ := by
  have hopen : s.open? = none := by
    rcases List.eq_nil_or_concat' front with rfl | ⟨front, d, rfl⟩
    · cases h
      rfl
    · obtain ⟨u, hrun, hstep⟩ := placeBefore_concat_eq_ok_iff.mp h
      have hd : d.isFlag = false := hfront d (by simp)
      exact hstep.open?_eq_none (wordReady_of_placeBefore (.of_none rfl) hrun) hd
  rw [currentWord, hopen]
  rfl

/-! ## Refused bits -/

/-- When a flag is refused for its bit, in view of the first free one. -/
structure RefusesBit (options : Options) (s : Placement) (w : OpenWord) (b : Flag) : Prop where
  outOfRange : ∀ next field offset bit width,
    s.place .wide options (.flag b) next = .error (.bitOutOfRange field offset bit width) ↔
      b.bit = some bit ∧ options.bitWord.bits ≤ bit ∧
        field = b.name ∧ offset = w.offset ∧ width = options.bitWord.bits
  collision : ∀ next field offset bit nextFree,
    s.place .wide options (.flag b) next = .error (.bitCollision field offset bit nextFree) ↔
      b.bit = some bit ∧ bit < w.nextBit ∧
        field = b.name ∧ offset = w.offset ∧ nextFree = w.nextBit

theorem refusesBit_of_declared (hready : s.WordReady options (.flag b))
    (hdeclared : ∀ d ∈ b.offset, d = s.currentWord.offset) :
    s.RefusesBit options s.currentWord b := by
  have hplace {next : Declaration} {x : PlacementError} (hx : x.rule = .bit) :
      s.place .wide options (.flag b) next = .error x ↔
        chooseBit options b s.currentWord = .error x := by
    have hok : s.checkDeclared b.name b.offset s.currentWord.offset = .ok () :=
      checkDeclared_eq_ok_iff.mpr hdeclared
    rw [place, placeFlag_eq_error_iff_of_rule (by simp [hx]) (by simp [hx]), hok]
    simp
  have hfree := hready.currentWord_nextBit
  constructor
  · intro next field offset bit width
    rw [hplace rfl, chooseBit_eq_error_iff]
    constructor
    · rintro ⟨i, hi, ⟨hrange, heq⟩ | ⟨_, _, heq⟩⟩
      · cases heq
        exact ⟨hi, hrange, rfl, rfl, rfl⟩
      · cases heq
    · rintro ⟨hi, hrange, rfl, rfl, rfl⟩
      exact ⟨bit, hi, Or.inl ⟨hrange, rfl⟩⟩
  · intro next field offset bit nextFree
    rw [hplace rfl, chooseBit_eq_error_iff]
    constructor
    · rintro ⟨i, hi, ⟨_, heq⟩ | ⟨_, hless, heq⟩⟩
      · cases heq
      · cases heq
        exact ⟨hi, hless, rfl, rfl, rfl⟩
    · rintro ⟨hi, hless, rfl, rfl, rfl⟩
      exact ⟨bit, hi, Or.inr ⟨hless.trans hfree, hless, rfl⟩⟩

end Placement

/-- Flags are packed into words between two cursors. -/
structure PacksFlags (width : Width) (bs : List Flag) (start stop : Nat)
    (run : List (Entry Layout)) : Prop where
  entries : run = List.zipWith FlagPlace.entry (packed width ⟨start, 0⟩ bs) bs
  /-- The last word is passed, and no word behind it. -/
  passed : ∀ p ∈ (packed width ⟨start, 0⟩ bs).getLast?, stop = p.finish
  free : (∀ b ∈ bs, b.bit = none) →
    packed width ⟨start, 0⟩ bs = (List.range bs.length).map (FlagPlace.nth width start) ∧
      stop = start + (bs.length ⌈/⌉ width.bits) * width.bytes

theorem packsFlags_of_finish {width : Width} {b : Flag} {bs : List Flag} {start stop : Nat}
    (h : ∀ p ∈ (packed width ⟨start, 0⟩ (b :: bs)).getLast?, stop = p.finish) :
    PacksFlags width (b :: bs) start stop
      (List.zipWith FlagPlace.entry (packed width ⟨start, 0⟩ (b :: bs)) (b :: bs)) where
  entries := rfl
  passed := h
  free hfree := by
    have hpacked : packed width ⟨start, 0⟩ (b :: bs) = _ := packed_of_free hfree
    refine ⟨hpacked, ?_⟩
    have hlast : FlagPlace.nth width start bs.length ∈
        (packed width ⟨start, 0⟩ (b :: bs)).getLast? := by
      rw [hpacked, List.length_cons, List.range_succ, List.map_append, List.map_singleton,
        List.getLast?_concat]
      rfl
    rw [h _ hlast, finish_nth, List.length_cons]

namespace Layout

variable {options : Options} {front : List Declaration}

/-- Flags between other declarations are packed into words from the cursor on, and a flag that
comes up behind some of them is refused for its bit exactly when that is beyond the word or below
the first free one. -/
theorem compile_flags (hfront : ∀ d ∈ front.getLast?, d.isFlag = false) :
    (∀ name b bs back l, (∀ d ∈ back.head?, d.isFlag = false) →
      compile options name (front ++ (b :: bs).map .flag ++ back) = .ok l →
        ∃ s t run later, Placement.placeBefore .wide options (.flag b) {} front = .ok s ∧
          s.placeBefore .wide options (back.headD .void) ((b :: bs).map .flag) = .ok t ∧
          PacksFlags options.bitWord (b :: bs) s.cursor t.cursor run ∧
          l.entries = s.entries.reverse ++ run ++ later) ∧
    ∀ bs b s t, Placement.placeBefore .wide options ((bs.map .flag).headD (.flag b)) {} front =
        .ok s →
      s.placeBefore .wide options (.flag b) (bs.map .flag) = .ok t →
        (∀ d ∈ b.offset, d = (freeBehind options.bitWord ⟨s.cursor, 0⟩ bs).offset) →
          t.RefusesBit options (freeBehind options.bitWord ⟨s.cursor, 0⟩ bs) b ∧
            ∀ name back x, t.place .wide options (.flag b) (back.headD .void) = .error x →
              compile options name (front ++ bs.map .flag ++ .flag b :: back) =
                .error (.placement name x) := by
  constructor
  · intro name b bs back l hback h
    obtain ⟨u, hrun, -, rfl⟩ := compileIn_eq_ok_iff.mp h
    rw [List.append_assoc, Placement.placeBefore_append] at hrun
    obtain ⟨s, hs, hrun⟩ := bind_eq_ok_iff.mp hrun
    rw [Placement.placeBefore_append] at hrun
    obtain ⟨t, ht, hrun⟩ := bind_eq_ok_iff.mp hrun
    have hnext : (back.headD .void).isFlag = false := by
      cases back with
      | nil => rfl
      | cons d back => exact hback d rfl
    have hword := Placement.currentWord_of_run hfront hs
    have hentries := Placement.entries_of_flags ht
    have hcursor := Placement.cursor_of_flags ht hnext
    rw [hword] at hentries hcursor
    obtain ⟨later, hlater⟩ := Placement.entries_suffix_of_placeBefore hrun
    refine ⟨s, t, _, later.reverse, hs, ht,
      packsFlags_of_finish fun p hp => (hcursor p hp).1, ?_⟩
    rw [ofPlacement, ← hlater, List.reverse_append, hentries, List.reverse_append,
      List.reverse_reverse]
  · intro bs b s t hs ht hdeclared
    have hword : t.currentWord = freeBehind options.bitWord ⟨s.cursor, 0⟩ bs := by
      rw [Placement.currentWord_of_flags ht rfl, Placement.currentWord_of_run hfront hs]
    constructor
    · have hready : t.WordReady options (.flag b) := by
        have hstart := Placement.wordReady_of_placeBefore (.of_none rfl) hs
        exact Placement.wordReady_of_placeBefore hstart ht
      rw [← hword] at hdeclared ⊢
      exact Placement.refusesBit_of_declared hready hdeclared
    · intro name back x hx
      refine compile_eq_placement_iff_exists.mpr ⟨_, _, back, t, rfl, ?_, hx⟩
      rw [Placement.placeBefore_append, hs]
      exact ht

/-- In words of one byte the third flag takes the last bit, and the fifth skips some. -/
def crowdedFlags : List Flag :=
  [{ name := "a" }, { name := "b", bit := some 3 }, { name := "c", bit := some 7 },
    { name := "d" }, { name := "e", bit := some 6 }]

def crowdedFront : List Declaration :=
  [.field { name := "mode", content := .primitive (.integer ⟨false, .one⟩) }, .alignNext]

/-- A flag behind the crowded ones, which is declared where they leave a bit free. -/
def lateFlag (bit : Nat) : Flag := { name := "f", bit := some bit, offset := some 2 }

theorem compile_crowdedFlags :
    (∀ d ∈ crowdedFront.getLast?, d.isFlag = false) ∧
      (∃ l before run later, compile { bitWord := .one } "sample"
          (crowdedFront ++ crowdedFlags.map .flag ++ [.pad 1]) = .ok l ∧
        packed .one ⟨1, 0⟩ crowdedFlags =
          [⟨.one, 1, 0⟩, ⟨.one, 1, 3⟩, ⟨.one, 1, 7⟩, ⟨.one, 2, 0⟩, ⟨.one, 2, 6⟩] ∧
        PacksFlags .one crowdedFlags 1 3 run ∧ l.entries = before ++ run ++ later) ∧
      compile { bitWord := .one } "sample"
          (crowdedFront ++ crowdedFlags.map .flag ++ [.flag (lateFlag 8)]) =
        .error (.placement "sample" (.bitOutOfRange "f" 2 8 8)) ∧
      compile { bitWord := .one } "sample"
          (crowdedFront ++ crowdedFlags.map .flag ++ [.flag (lateFlag 6)]) =
        .error (.placement "sample" (.bitCollision "f" 2 6 7)) := by
  have hfront : ∀ d ∈ crowdedFront.getLast?, d.isFlag = false := by
    simp [crowdedFront, Declaration.isFlag]
  obtain ⟨hpacks, hrefuses⟩ := @compile_flags { bitWord := .one } _ hfront
  refine ⟨hfront, ?_, ?_, ?_⟩
  · obtain ⟨l, hl⟩ : ∃ l, compile { bitWord := .one } "sample"
        (crowdedFront ++ crowdedFlags.map .flag ++ [.pad 1]) = .ok l := ⟨_, rfl⟩
    obtain ⟨s, t, run, later, hs, ht, hrun, hentries⟩ :=
      hpacks "sample" _ _ [.pad 1] l (by simp [Declaration.isFlag]) hl
    cases hs
    cases ht
    exact ⟨l, _, run, later, hl, rfl, hrun, hentries⟩
  · obtain ⟨hbit, hcompile⟩ := hrefuses crowdedFlags (lateFlag 8) _ _ rfl rfl (by rintro d ⟨⟩; rfl)
    apply hcompile "sample" []
    exact (hbit.outOfRange _ _ _ _ _).mpr ⟨rfl, by decide, rfl, rfl, rfl⟩
  · obtain ⟨hbit, hcompile⟩ := hrefuses crowdedFlags (lateFlag 6) _ _ rfl rfl (by rintro d ⟨⟩; rfl)
    apply hcompile "sample" []
    exact (hbit.collision _ _ _ _ _).mpr ⟨rfl, by decide, rfl, rfl, rfl⟩

end Layout

end StructureLayout
