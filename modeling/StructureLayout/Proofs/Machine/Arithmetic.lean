import StructureLayout.Proofs.Placement.Step

/-!
# Machine arithmetic

On a machine an offset or a size is a number of 64 bits and the bits of a word are counted in 32.
A computation stops for good at a sum, a product, a difference, a remainder or a shift that is
out of range there, which is not the same as to be refused.
-/

namespace StructureLayout

/-- What is computed on a machine, unless it is refused or stops. -/
abbrev Machine (ε α : Type) := ExceptT ε Option α

namespace Machine

def narrow : AddressSpace := ⟨some 0xFFFFFFFF⟩

def sub? (m n : Nat) : Option Nat := if n ≤ m then some (m - n) else none

def mod? (m n : Nat) : Option Nat := if n = 0 then none else some (m % n)

/-- The word of 32 bits that has one bit set. -/
def mask? (bit : Nat) : Option Nat := if bit < 32 then some (1 <<< bit) else none

theorem sub?_of_le {m n : Nat} (h : n ≤ m) : sub? m n = some (m - n) := if_pos h

theorem mod?_of_pos {m n : Nat} (h : 0 < n) : mod? m n = some (m % n) := if_neg h.ne'

theorem mask?_of_lt {bit : Nat} (h : bit < 32) : mask? bit = some (1 <<< bit) := if_pos h

/-! ## Computations that do not stop -/

section Lifting

variable {ε α β σ : Type}

/-- A step that does not stop is followed by what does not stop after its result. -/
theorem bind_lift {m : Machine ε α} {x : Except ε α} (hm : m = liftM x) {f : α → Machine ε β}
    {g : α → Except ε β} (h : ∀ a, x = .ok a → f a = liftM (g a)) :
    m >>= f = liftM (x >>= g) := by
  subst hm
  cases x with
  | error e => rfl
  | ok a => exact h a rfl

theorem some_bind {o : Option α} {a : α} (h : o = some a) (f : α → Machine ε β) :
    (liftM o : Machine ε α) >>= f = f a := by
  rw [h]
  rfl

/-- What every step of a fold keeps saves the next one from stopping. -/
theorem foldlM_lift {P : σ → Prop} {f : σ → α → Machine ε σ} {g : σ → α → Except ε σ}
    (hf : ∀ s a, P s → f s a = liftM (g s a)) (hP : ∀ s a t, P s → g s a = .ok t → P t)
    (xs : List α) {s : σ} (hs : P s) : xs.foldlM f s = liftM (xs.foldlM g s) := by
  induction xs generalizing s with
  | nil => rfl
  | cons x xs ih =>
      rw [List.foldlM_cons, List.foldlM_cons]
      apply bind_lift (hf s x hs)
      intro t ht
      exact ih (hP s x t hs ht)

theorem findM?_eq_some {p : α → Option Bool} {q : α → Bool} {xs : List α}
    (h : ∀ x ∈ xs, p x = some (q x)) : xs.findM? p = some (xs.find? q) := by
  induction xs with
  | nil => rfl
  | cons x xs ih =>
      rw [List.findM?, h x List.mem_cons_self, List.find?_cons]
      cases q x with
      | true => rfl
      | false => exact ih fun y hy => h y (List.mem_cons_of_mem x hy)

theorem foldlM_eq_some {f : σ → α → Option σ} {g : σ → α → σ} {xs : List α}
    (h : ∀ s, ∀ a ∈ xs, f s a = some (g s a)) (s : σ) : xs.foldlM f s = some (xs.foldl g s) := by
  induction xs generalizing s with
  | nil => rfl
  | cons x xs ih =>
      rw [List.foldlM_cons, h s x List.mem_cons_self, List.foldl_cons]
      exact ih (fun t a ha => h t a (List.mem_cons_of_mem x ha)) (g s x)

end Lifting

end Machine

end StructureLayout
