import StructureLayout.Proofs.Image.Store

/-!
# Stores in place

A store can be made in the image itself, one byte after another.  Everything that can be refused
is refused before the first byte changes, so that a refused store leaves the image as it was.
-/

namespace StructureLayout

/-- Work on an image.  What was changed before a refusal stays changed. -/
abbrev InPlace := ExceptT AccessError (StateM Image)

namespace InPlace

variable {α β : Type} {image : Image}

def onImage (m : InPlace α) (image : Image) : Except AccessError α × Image :=
  StateT.run (ExceptT.run m) image

/-- The bytes of a region that has to be in the image. -/
def window (offset count : Nat) : InPlace (List UInt8) := do
  let image ← get
  image.slice offset count

def poke (offset : Nat) : List UInt8 → InPlace Unit
  | [] => pure ()
  | byte :: bytes => do
    modify fun image : Image => image.set offset byte
    poke (offset + 1) bytes

theorem onImage_pure (a : α) : onImage (pure a) image = (.ok a, image) := rfl

theorem onImage_lift (x : Except AccessError α) :
    onImage (liftM x : InPlace α) image = (x, image) := rfl

theorem onImage_modify (f : Image → Image) :
    onImage (modify f : InPlace Unit) image = (.ok (), f image) := rfl

theorem onImage_window (offset count : Nat) :
    onImage (window offset count) image = (image.slice offset count, image) := rfl

theorem onImage_bind (m : InPlace α) (f : α → InPlace β) :
    onImage (m >>= f) image =
      match onImage m image with
      | (.ok a, after) => onImage (f a) after
      | (.error x, after) => (.error x, after) := by
  have hbind : onImage (m >>= f) image =
      StateT.run (ExceptT.bindCont f (onImage m image).1) (onImage m image).2 := rfl
  rw [hbind]
  rcases onImage m image with ⟨x | a, after⟩ <;> rfl

theorem onImage_lift_bind (x : Except AccessError α) (f : α → InPlace β) :
    onImage (liftM x >>= f) image =
      match x with
      | .ok a => onImage (f a) image
      | .error x => (.error x, image) := by
  rw [onImage_bind, onImage_lift]
  cases x <;> rfl

/-- Bytes that are poked in one after another are there, and the others are as they were. -/
theorem onImage_poke {offset : Nat} {bytes : List UInt8}
    (h : offset + bytes.length ≤ image.length) :
    onImage (poke offset bytes) image =
      (.ok (), image.take offset ++ bytes ++ image.drop (offset + bytes.length)) := by
  induction bytes generalizing offset image with
  | nil => simp [poke, onImage_pure]
  | cons byte bytes ih =>
      rw [List.length_cons] at h
      have hoffset : offset < image.length := by omega
      have hrest : offset + 1 + bytes.length ≤ (image.set offset byte).length := by
        rw [List.length_set]
        omega
      have htake : (image.set offset byte).take (offset + 1) = image.take offset ++ [byte] := by
        rw [List.take_succ_eq_append_getElem (by rwa [List.length_set]), List.take_set_of_le le_rfl,
          List.getElem_set_self]
      have hdrop : (image.set offset byte).drop (offset + 1 + bytes.length) =
          image.drop (offset + (bytes.length + 1)) := by
        rw [List.drop_set_of_lt (by omega), Nat.add_assoc, Nat.add_comm 1]
      rw [poke, onImage_bind, onImage_modify]
      dsimp only
      rw [ih hrest, htake, hdrop, List.length_cons, List.append_assoc (image.take offset),
        List.singleton_append]

end InPlace

open InPlace

namespace Layout

variable {l : Layout} {image : Image} {name : String} {index : Nat}

def writeInPlace (l : Layout) (name : String) (index : Nat) (v : Value) : InPlace Unit := do
  let e ← l.element name index
  if v.type = e.type then
    let _ ← window e.offset e.type.size
    poke e.offset (l.options.byteOrder.encode e.type.size v.toBits)
  else throw (.typeMismatch name e.type v.type)

def storeInPlace (l : Layout) : StoreCall → InPlace Unit
  | .value name index v => l.writeInPlace name index v
  | .scaled name index v => do
    let e ← l.element name index
    l.writeInPlace name index (storedFor e v)
  | .flag name on => do
    let p ← l.flagPlace name
    let bytes ← window p.offset p.word.bytes
    let bits := setBit (l.options.byteOrder.decode bytes) p.bit on
    poke p.offset (l.options.byteOrder.encode p.word.bytes bits)

/-- What a store in place leaves, by what the store says. -/
def outcome (image : Image) : Except AccessError Image → Except AccessError Unit × Image
  | .ok final => (.ok (), final)
  | .error x => (.error x, image)

theorem onImage_poke_eq_splice {offset : Nat} {bytes : List UInt8}
    (h : offset + bytes.length ≤ image.length) :
    onImage (poke offset bytes) image = outcome image (image.splice offset bytes) := by
  rw [onImage_poke h, Image.splice, if_pos h]
  rfl

theorem onImage_writeInPlace (v : Value) :
    onImage (l.writeInPlace name index v) image =
      outcome image (l.write image name index v) := by
  rw [writeInPlace, onImage_lift_bind, write]
  cases l.element name index with
  | error x => rfl
  | ok p =>
      by_cases htype : v.type = p.type
      · simp only [if_pos htype, ok_bind]
        have hlength := l.options.byteOrder.length_encode p.type.size v.toBits
        rw [onImage_bind, onImage_window]
        by_cases hfits : p.offset + p.type.size ≤ image.length
        · rw [Image.slice, if_pos hfits]
          exact onImage_poke_eq_splice (by rwa [hlength])
        · rw [Image.slice, if_neg hfits, Image.splice, hlength, if_neg hfits]
          rfl
      · simp only [if_neg htype, ok_bind]
        rfl

/-- A store in place does what the store says, and nothing where it is refused. -/
theorem onImage_storeInPlace (call : StoreCall) :
    onImage (l.storeInPlace call) image = outcome image (l.store image call) := by
  cases call with
  | value name index v => exact onImage_writeInPlace v
  | scaled name index v =>
      rw [storeInPlace, store, writeScaled, onImage_lift_bind]
      cases l.element name index with
      | error x => rfl
      | ok p => exact onImage_writeInPlace _
  | flag name on =>
      rw [storeInPlace, store, writeFlag, onImage_lift_bind]
      cases l.flagPlace name with
      | error x => rfl
      | ok p =>
          dsimp only
          rw [onImage_bind, onImage_window, ok_bind]
          cases hslice : image.slice p.offset p.word.bytes with
          | error x => rfl
          | ok bytes =>
              obtain ⟨hfits, -⟩ := Image.slice_eq_ok_iff.mp hslice
              exact onImage_poke_eq_splice (by rwa [ByteOrder.length_encode])

end Layout

end StructureLayout
