import PackedLogic.Field
set_option autoImplicit false

/-!
# Blocks of parallel cells

A block is a row of neighbouring cells, one per lane, with one cursor for all of them: the first bit
that is not yet lent.  A request for `width` bits is served at the cursor of the first block that
has room (`firstFit`), and the bits served are a `Slot`: the same span in every lane.
-/

namespace PackedLogic

/-- A row of neighbouring cells, the first of which is named `base`, and their first free bit. -/
structure Block where
  base : Nat
  cursor : Nat
  cursor_le : cursor ≤ cellBits
  deriving DecidableEq, Repr

namespace Block

/-- The block can serve `width` more bits. -/
def HasRoom (b : Block) (width : Nat) : Prop := b.cursor + width ≤ cellBits

instance (b : Block) (width : Nat) : Decidable (b.HasRoom width) :=
  inferInstanceAs (Decidable (_ ≤ _))

/-- The block after serving `width` more bits. -/
def claim (b : Block) (width : Nat) (room : b.HasRoom width) : Block :=
  ⟨b.base, b.cursor + width, room⟩

/-- A block of which nothing is lent. -/
def fresh (base : Nat) : Block := ⟨base, 0, Nat.zero_le _⟩

theorem fresh_hasRoom {base width : Nat} (fits : width ≤ cellBits) :
    (fresh base).HasRoom width := by
  simpa [HasRoom, fresh] using fits

/-- A block of which everything is lent. -/
def whole (base : Nat) : Block := ⟨base, cellBits, Nat.le_refl _⟩

/-- The reference to the cell of one lane. -/
def ref (b : Block) (lane : Nat) : CellRef := .ofCell (b.base + lane)

end Block

/-- The place of a request of `width` bits: the next bits of a block that has room for them. -/
structure Slot (width : Nat) where
  block : Block
  room : block.HasRoom width
  deriving DecidableEq, Repr

namespace Slot

variable {width : Nat}

/-- The bits served, the same in every lane. -/
def span (slot : Slot width) : Span := ⟨slot.block.cursor, width, slot.room⟩

/-- The bits served in one lane. -/
def field (slot : Slot width) (lane : Nat) : Field := ⟨slot.span, slot.block.ref lane⟩

/-- The block once the request has been served. -/
def claimed (slot : Slot width) : Block := slot.block.claim width slot.room

end Slot

/-- Serves a request from the first block with room: the place served, and the blocks after. -/
def firstFit (width : Nat) : List Block → Option (Slot width × List Block)
  | [] => none
  | b :: bs =>
    if room : b.HasRoom width then
      let slot : Slot width := ⟨b, room⟩
      some (slot, slot.claimed :: bs)
    else (firstFit width bs).map fun (slot, after) => (slot, b :: after)

/-- No block is found exactly when none has room. -/
theorem firstFit_eq_none_iff {width : Nat} {bs : List Block} :
    firstFit width bs = none ↔ ∀ b ∈ bs, ¬ b.HasRoom width := by
  induction bs with
  | nil => simp [firstFit]
  | cons b bs ih =>
    unfold firstFit
    split <;> simp_all

/-- The block found is the first with room, and it alone changes. -/
theorem firstFit_eq_some_iff {width : Nat} {bs after : List Block} {slot : Slot width} :
    firstFit width bs = some (slot, after) ↔
      ∃ before rest, bs = before ++ slot.block :: rest ∧
        after = before ++ slot.claimed :: rest ∧ ∀ b ∈ before, ¬ b.HasRoom width := by
  induction bs generalizing after with
  | nil => simp [firstFit]
  | cons b bs ih =>
    unfold firstFit
    split
    · rename_i room
      constructor
      · intro h
        cases h
        exact ⟨[], bs, rfl, rfl, by simp⟩
      · rintro ⟨before, rest, hbs, rfl, full⟩
        cases before with
        | nil => cases hbs; rfl
        | cons c before => cases hbs; exact absurd room (full b (by simp))
    · rename_i full
      simp only [Option.map_eq_some_iff, Prod.mk.injEq, Prod.exists]
      constructor
      · rintro ⟨slot', after', h, rfl, rfl⟩
        obtain ⟨before, rest, rfl, rfl, hfull⟩ := ih.1 h
        exact ⟨b :: before, rest, rfl, rfl, by simpa [full] using hfull⟩
      · rintro ⟨before, rest, hbs, rfl, hfull⟩
        cases before with
        | nil => cases hbs; exact absurd slot.room full
        | cons c before =>
          cases hbs
          exact ⟨slot, _, ih.2 ⟨before, rest, rfl, rfl, fun d hd => hfull d (by simp [hd])⟩,
            rfl, rfl⟩

end PackedLogic
