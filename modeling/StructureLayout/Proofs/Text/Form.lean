import StructureLayout.Proofs.Text.Trim
import Mathlib.Data.List.Basic
import Mathlib.Data.List.Induction

/-!
# Forms of text

A form says which texts stand for what.  Larger forms enclose the texts of a smaller one, set a
mark between the texts of two, or leave a choice.  What passes from the parts to the whole: which
characters the texts consist of and hold, that characters of a class may be left out of a text,
and that they may be lost at its ends.
-/

namespace StructureLayout.Text

abbrev Form (α : Type) := List Char → α → Prop

/-- What may stand in front of a text and what then stands behind it. -/
abbrev Enclosure := List Char → List Char → Prop

namespace Enclosure

def nothing : Enclosure := fun front back => front = [] ∧ back = []

def pair (opening closing : Char) : Enclosure := fun front back =>
  front = [opening] ∧ back = [closing]

def optional (e : Enclosure) : Enclosure := fun front back => nothing front back ∨ e front back

/-- Any number of characters on either side, which need not match. -/
def runs (p q : Char → Bool) : Enclosure := fun front back =>
  (∀ c ∈ front, p c = true) ∧ ∀ c ∈ back, q c = true

def blanks : Enclosure := runs isBlank isBlank

/-- What stands on both sides consists of characters with a property. -/
def Over (p : Char → Prop) (e : Enclosure) : Prop :=
  ∀ front back, e front back → ∀ c ∈ front ++ back, p c

section Characters

variable {p : Char → Prop} {q r : Char → Bool} {e : Enclosure} {a b : Char}

theorem over_nothing : Over p nothing := by
  rintro _ _ ⟨rfl, rfl⟩
  exact nofun

theorem over_pair (ha : p a) (hb : p b) : Over p (pair a b) := by
  rintro _ _ ⟨rfl, rfl⟩ c hc
  rcases List.mem_cons.mp hc with rfl | hc
  · exact ha
  · exact List.mem_singleton.mp hc ▸ hb

theorem over_runs (hq : ∀ c, q c = true → p c) (hr : ∀ c, r c = true → p c) :
    Over p (runs q r) := fun _ _ h c hc =>
  (List.mem_append.mp hc).elim (fun hc => hq c (h.1 c hc)) fun hc => hr c (h.2 c hc)

theorem Over.optional (h : Over p e) : Over p (optional e) := fun _ _ he =>
  he.elim (over_nothing _ _) (h _ _)

/-- Of two characters both stand there or none. -/
def Balanced (a b : Char) (e : Enclosure) : Prop :=
  ∀ front back, e front back → (a ∈ front ++ back ↔ b ∈ front ++ back)

theorem Over.balanced (h : Over (fun c => c ≠ a ∧ c ≠ b) e) : Balanced a b e := fun _ _ he =>
  iff_of_false (fun hc => (h _ _ he a hc).1 rfl) fun hc => (h _ _ he b hc).2 rfl

theorem balanced_pair : Balanced a b (pair a b) := by
  rintro _ _ ⟨rfl, rfl⟩
  exact iff_of_true List.mem_cons_self (List.mem_cons_of_mem a List.mem_cons_self)

theorem Balanced.optional (h : Balanced a b e) : Balanced a b (optional e) := fun _ _ he =>
  he.elim (over_nothing.balanced _ _) (h _ _)

end Characters

/-- What keeps only some characters of one enclosure is admitted by the other. -/
def Reduces (p : Char → Bool) (e e' : Enclosure) : Prop :=
  ∀ front back, e front back → e' (front.filter p) (back.filter p)

section Reduction

variable {p q r : Char → Bool} {e e' : Enclosure} {a b : Char}

theorem Reduces.refl (e : Enclosure) : e.Reduces (fun _ => true) e := by
  intro front back h
  rwa [List.filter_true, List.filter_true]

theorem Reduces.nothing (h : e [] []) : Reduces p nothing e := by
  rintro _ _ ⟨rfl, rfl⟩
  exact h

theorem Reduces.runs : Reduces p (runs q r) (runs q r) := fun _ _ h =>
  ⟨fun c hc => h.1 c (List.mem_of_mem_filter hc), fun c hc => h.2 c (List.mem_of_mem_filter hc)⟩

theorem Reduces.pair (ha : q a = true) (hb : r b = true) :
    Reduces p (pair a b) (Enclosure.runs q r) := by
  rintro _ _ ⟨rfl, rfl⟩
  exact Reduces.runs _ _
    ⟨List.forall_mem_singleton.mpr ha, List.forall_mem_singleton.mpr hb⟩

/-- An enclosure of which nothing is kept may be replaced by none. -/
theorem Reduces.of_dropped (h : e' [] []) (hdropped : e.Over fun c => p c = false) :
    Reduces p e e' := by
  intro front back hends
  have hnone := hdropped front back hends
  have hfront : front.filter p = [] := List.filter_eq_nil_iff.mpr fun c hc =>
    Bool.eq_false_iff.mp (hnone c (List.mem_append_left _ hc))
  have hback : back.filter p = [] := List.filter_eq_nil_iff.mpr fun c hc =>
    Bool.eq_false_iff.mp (hnone c (List.mem_append_right _ hc))
  rwa [hfront, hback]

theorem Reduces.optional (hnothing : e' [] []) (h : Reduces p e e') :
    Reduces p (optional e) e' := by
  rintro front back (⟨rfl, rfl⟩ | he)
  · exact hnothing
  · exact h front back he

end Reduction

end Enclosure

namespace Form

variable {α β γ : Type}

def within (e : Enclosure) (K : Form α) : Form α := fun cs x =>
  ∃ front inner back, e front back ∧ K inner x ∧ cs = front ++ inner ++ back

/-- Blanks may stand around the enclosure and within it. -/
def enclosed (e : Enclosure) (K : Form α) : Form α := within .blanks (within e (within .blanks K))

def joined (mark : Char) (combine : α → β → γ) (K : Form α) (L : Form β) : Form γ := fun cs z =>
  ∃ ds es x y, K ds x ∧ L es y ∧ cs = ds ++ mark :: es ∧ z = combine x y

def either (K L : Form α) : Form α := fun cs x => K cs x ∨ L cs x

def mapped (g : α → β) (K : Form α) : Form β := fun cs y => ∃ x, K cs x ∧ y = g x

/-- A text may stand without anything around it. -/
theorem enclosed_of_nothing {e : Enclosure} {K : Form α} {cs : List Char} {x : α}
    (he : e [] []) (h : K cs x) : enclosed e K cs x := by
  have hblanks (L : Form α) (hL : L cs x) : within .blanks L cs x :=
    ⟨[], cs, [], ⟨nofun, nofun⟩, hL, (List.append_nil cs).symm⟩
  exact hblanks _ ⟨[], cs, [], he, hblanks K h, (List.append_nil cs).symm⟩

/-! ## Characters left out -/

section Reduction

/-- A text that only keeps some characters stands in the other form for the same. -/
def Reduces (p : Char → Bool) (K L : Form α) : Prop := ∀ cs x, K cs x → L (cs.filter p) x

variable {p : Char → Bool} {e e' : Enclosure} {K K' L L' : Form α} {M N : Form β}

theorem Reduces.within (h : Reduces p K L) (he : e.Reduces p e') :
    Reduces p (within e K) (within e' L) := by
  rintro _ x ⟨front, inner, back, hends, hinner, rfl⟩
  exact ⟨_, _, _, he _ _ hends, h _ _ hinner, by simp only [List.filter_append]⟩

theorem Reduces.enclosed (h : Reduces p K L) (he : e.Reduces p e') :
    Reduces p (enclosed e K) (enclosed e' L) :=
  ((h.within .runs).within he).within .runs

theorem Reduces.joined {mark : Char} {combine : α → β → γ} (h : Reduces p K L)
    (h' : Reduces p M N) (hmark : p mark = true) :
    Reduces p (joined mark combine K M) (joined mark combine L N) := by
  rintro _ _ ⟨ds, es, x, y, hds, hes, rfl, rfl⟩
  refine ⟨_, _, x, y, h _ _ hds, h' _ _ hes, ?_, rfl⟩
  rw [List.filter_append, List.filter_cons_of_pos hmark]

theorem Reduces.either (h : Reduces p K L) (h' : Reduces p K' L') :
    Reduces p (either K K') (either L L') := fun _ _ htext =>
  htext.imp (h _ _) (h' _ _)

theorem Reduces.mapped {g : α → β} (h : Reduces p K L) :
    Reduces p (mapped g K) (mapped g L) := by
  rintro _ _ ⟨x, hx, rfl⟩
  exact ⟨x, h _ _ hx, rfl⟩

end Reduction

/-! ## Characters -/

section Characters

/-- The texts consist of characters with a property. -/
def Over (p : Char → Prop) (K : Form α) : Prop := ∀ cs x, K cs x → ∀ c ∈ cs, p c

variable {p : Char → Prop} {q r : Char → Bool} {K L : Form α} {M : Form β}

theorem Over.within {e : Enclosure} (h : Over p K) (he : e.Over p) : Over p (within e K) := by
  rintro _ _ ⟨front, inner, back, hends, hinner, rfl⟩ c hc
  have hends := he front back hends c
  rw [List.mem_append] at hends
  rcases List.mem_append.mp hc with hc | hback
  · exact (List.mem_append.mp hc).elim (fun hfront => hends (Or.inl hfront)) (h _ _ hinner c)
  · exact hends (Or.inr hback)

theorem Over.enclosed {e : Enclosure} (h : Over p K) (he : e.Over p)
    (hblanks : Enclosure.blanks.Over p) : Over p (enclosed e K) :=
  ((h.within hblanks).within he).within hblanks

theorem Over.joined {mark : Char} {combine : α → β → γ} (h : Over p K) (h' : Over p M)
    (hmark : p mark) : Over p (joined mark combine K M) := by
  rintro _ _ ⟨ds, es, x, y, hds, hes, rfl, rfl⟩ c hc
  rcases List.mem_append.mp hc with hc | hc
  · exact h _ _ hds c hc
  · rcases List.mem_cons.mp hc with rfl | hc
    · exact hmark
    · exact h' _ _ hes c hc

theorem Over.either (h : Over p K) (h' : Over p L) : Over p (either K L) := fun _ _ htext =>
  htext.elim (h _ _) (h' _ _)

theorem Over.mapped {g : α → β} (h : Over p K) : Over p (mapped g K) := by
  rintro _ _ ⟨x, hx, rfl⟩
  exact h _ _ hx

/-- Every text holds a character with a property. -/
def Has (p : Char → Prop) (K : Form α) : Prop := ∀ cs x, K cs x → ∃ c ∈ cs, p c

theorem Has.within {e : Enclosure} (h : Has p K) : Has p (within e K) := by
  rintro _ _ ⟨front, inner, back, -, hinner, rfl⟩
  obtain ⟨c, hc, hp⟩ := h _ _ hinner
  exact ⟨c, List.mem_append_left _ (List.mem_append_right _ hc), hp⟩

theorem Has.enclosed {e : Enclosure} (h : Has p K) : Has p (enclosed e K) := h.within.within.within

theorem has_joined {mark : Char} {combine : α → β → γ} (hmark : p mark) :
    Has p (joined mark combine K M) := by
  rintro _ _ ⟨ds, es, x, y, -, -, rfl, -⟩
  exact ⟨mark, List.mem_append_right _ List.mem_cons_self, hmark⟩

theorem Has.either (h : Has p K) (h' : Has p L) : Has p (either K L) := fun _ _ htext =>
  htext.elim (h _ _) (h' _ _)

theorem Has.mapped {g : α → β} (h : Has p K) : Has p (mapped g K) := by
  rintro _ _ ⟨x, hx, -⟩
  exact h _ _ hx

/-- Of two characters the texts hold both or none. -/
def Balanced (a b : Char) (K : Form α) : Prop := ∀ cs x, K cs x → (a ∈ cs ↔ b ∈ cs)

variable {a b : Char}

theorem Over.balanced (h : Over (fun c => c ≠ a ∧ c ≠ b) K) : Balanced a b K := fun _ _ htext =>
  iff_of_false (fun hc => (h _ _ htext a hc).1 rfl) fun hc => (h _ _ htext b hc).2 rfl

theorem Balanced.within {e : Enclosure} (h : Balanced a b K)
    (he : e.Balanced a b) : Balanced a b (within e K) := by
  rintro _ _ ⟨front, inner, back, hends, hinner, rfl⟩
  have hends := he front back hends
  have hinner := h _ _ hinner
  simp only [List.mem_append] at hends ⊢
  tauto

theorem Balanced.enclosed {e : Enclosure} (h : Balanced a b K) (he : e.Balanced a b)
    (hblanks : Enclosure.blanks.Balanced a b) : Balanced a b (enclosed e K) :=
  ((h.within hblanks).within he).within hblanks

theorem Balanced.joined {mark : Char} {combine : α → β → γ} (h : Balanced a b K)
    (h' : Balanced a b M) (ha : a ≠ mark) (hb : b ≠ mark) :
    Balanced a b (joined mark combine K M) := by
  rintro _ _ ⟨ds, es, x, y, hds, hes, rfl, -⟩
  simp only [List.mem_append, List.mem_cons, ha, hb, false_or, h _ _ hds, h' _ _ hes]

theorem Balanced.either (h : Balanced a b K) (h' : Balanced a b L) : Balanced a b (either K L) :=
  fun _ _ htext => htext.elim (h _ _) (h' _ _)

theorem Balanced.mapped {g : α → β} (h : Balanced a b K) : Balanced a b (mapped g K) := by
  rintro _ _ ⟨x, hx, -⟩
  exact h _ _ hx

end Characters

/-! ## Loss of characters at the ends -/

section Loss

/-- A text that loses a character of the class at one of its ends stands for the same. -/
structure Sheds (p : Char → Bool) (K : Form α) : Prop where
  first : ∀ {c cs x}, p c = true → K (c :: cs) x → K cs x
  last : ∀ {c cs x}, p c = true → K (cs ++ [c]) x → K cs x

variable {p q r : Char → Bool} {K L : Form α} {M : Form β}

theorem Sheds.ends (h : Sheds p K) {front cs back : List Char} {x : α}
    (hfront : ∀ c ∈ front, p c = true) (hback : ∀ c ∈ back, p c = true)
    (htext : K (front ++ cs ++ back) x) : K cs x := by
  induction back using List.reverseRecOn generalizing cs with
  | nil =>
      rw [List.append_nil] at htext
      induction front with
      | nil => exact htext
      | cons c front ih =>
          obtain ⟨hc, hfront⟩ := List.forall_mem_cons.mp hfront
          exact ih hfront (h.first hc htext)
  | append_singleton back c ih =>
      obtain ⟨hback, hc⟩ := List.forall_mem_append.mp hback
      refine ih hback (h.last (hc c List.mem_cons_self) ?_)
      rwa [List.append_assoc]

/-- Nothing is lost where the texts hold no character of the class. -/
theorem Over.sheds (h : Over (fun c => p c = false) K) : Sheds p K where
  first hc htext := absurd hc (Bool.eq_false_iff.mp (h _ _ htext _ List.mem_cons_self))
  last hc htext := absurd hc (Bool.eq_false_iff.mp (h _ _ htext _ (by simp)))

theorem Sheds.within_runs (h : Sheds p K) : Sheds p (within (.runs q r) K) where
  first := by
    -- The enclosure loses the character, and where it is empty in front the text does.
    rintro c cs x hc ⟨front, inner, back, ⟨hfront, hback⟩, hinner, htext⟩
    cases front with
    | cons d front =>
        exact ⟨front, inner, back, ⟨(List.forall_mem_cons.mp hfront).2, hback⟩, hinner,
          (List.cons.inj htext).2⟩
    | nil =>
        cases inner with
        | cons d inner =>
            obtain ⟨rfl, hcs⟩ := List.cons.inj htext
            exact ⟨[], inner, back, ⟨nofun, hback⟩, h.first hc hinner, hcs⟩
        | nil =>
            refine ⟨[], [], cs, ⟨nofun, fun d hd => hback d ?_⟩, hinner, rfl⟩
            rw [show back = c :: cs from htext.symm]
            exact List.mem_cons_of_mem c hd
  last := by
    rintro c cs x hc ⟨front, inner, back, ⟨hfront, hback⟩, hinner, htext⟩
    rcases List.eq_nil_or_concat' back with rfl | ⟨back, d, rfl⟩
    · rw [List.append_nil] at htext
      rcases List.eq_nil_or_concat' inner with rfl | ⟨inner, d, rfl⟩
      · refine ⟨cs, [], [], ⟨fun d hd => hfront d ?_, nofun⟩, hinner, by simp⟩
        rw [List.append_nil] at htext
        rw [← htext]
        exact List.mem_append_left _ hd
      · rw [← List.append_assoc] at htext
        obtain ⟨hcs, hlast⟩ := List.append_inj' htext rfl
        obtain rfl := List.singleton_inj.mp hlast
        exact ⟨front, inner, [], ⟨hfront, nofun⟩, h.last hc hinner, by rw [hcs, List.append_nil]⟩
    · rw [← List.append_assoc] at htext
      exact ⟨front, inner, back, ⟨hfront, (List.forall_mem_append.mp hback).1⟩, hinner,
        (List.append_inj' htext rfl).1⟩

theorem Sheds.joined {mark : Char} {combine : α → β → γ} (h : Sheds p K) (h' : Sheds p M)
    (hmark : p mark = false) : Sheds p (joined mark combine K M) where
  first := by
    rintro c cs _ hc ⟨ds, es, x, y, hds, hes, htext, rfl⟩
    cases ds with
    | nil =>
        obtain ⟨rfl, -⟩ := List.cons.inj htext
        exact absurd hc (Bool.eq_false_iff.mp hmark)
    | cons d ds =>
        obtain ⟨rfl, hcs⟩ := List.cons.inj htext
        exact ⟨ds, es, x, y, h.first hc hds, hes, hcs, rfl⟩
  last := by
    rintro c cs _ hc ⟨ds, es, x, y, hds, hes, htext, rfl⟩
    rcases List.eq_nil_or_concat' es with rfl | ⟨es, d, rfl⟩
    · obtain ⟨-, hlast⟩ := List.append_inj' htext rfl
      obtain rfl := List.singleton_inj.mp hlast
      exact absurd hc (Bool.eq_false_iff.mp hmark)
    · rw [← List.cons_append, ← List.append_assoc] at htext
      obtain ⟨hcs, hlast⟩ := List.append_inj' htext rfl
      obtain rfl := List.singleton_inj.mp hlast
      exact ⟨ds, es, x, y, hds, h'.last hc hes, hcs, rfl⟩

theorem Sheds.either (h : Sheds p K) (h' : Sheds p L) : Sheds p (either K L) where
  first hc htext := htext.imp (h.first hc) (h'.first hc)
  last hc htext := htext.imp (h.last hc) (h'.last hc)

theorem Sheds.mapped {g : α → β} (h : Sheds p K) : Sheds p (mapped g K) where
  first hc := fun ⟨x, hx, hy⟩ => ⟨x, h.first hc hx, hy⟩
  last hc := fun ⟨x, hx, hy⟩ => ⟨x, h.last hc hx, hy⟩

theorem Sheds.trim (h : Sheds p K) (hp : ∀ c, isBlank c = true → p c = true) {cs : List Char}
    {x : α} (htext : K cs x) : K (trim cs) x := by
  obtain ⟨front, back, hfront, hback, hcs⟩ := exists_trimWith isBlank cs
  rw [hcs] at htext
  exact h.ends (fun c hc => hp c (hfront c hc)) (fun c hc => hp c (hback c hc)) htext

end Loss

end Form

end StructureLayout.Text
