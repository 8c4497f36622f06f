import BoundaryTag.Size

/-! Boundary tags: the word at either end of a block that holds its size and whether it is
allocated. The main statements say that packing loses nothing.
-/

namespace BoundaryTag

/-- A boundary tag is any word. Two tags are equal when all their bits are, also the low bits
that neither the size nor the flag reads.
-/
structure Tag where
  raw : Word
deriving DecidableEq

namespace Tag

/-- The tag for a block of a given size: the lowest bit, which no size uses, is the flag. -/
def pack (size : Size) (allocated : Bool) : Tag :=
  ⟨if allocated then size.word + 1 else size.word⟩

/-- The size that a tag holds. -/
def size (t : Tag) : Size := Size.floor t.raw

/-- Whether a tag says that its block is allocated. -/
def allocated (t : Tag) : Bool := t.raw % 2 = 1

/-- A tag by its two readings. -/
def describe (t : Tag) : String :=
  Text.record "Tag" [("size", Text.decimal t.size.word), ("allocated", Text.truth t.allocated)]

/-- A packed tag is the number of its size plus one for the flag. -/
theorem toNat_raw_pack (size : Size) (allocated : Bool)
    : (pack size allocated).raw.toNat = size.toNat + allocated.toNat := by
  have h := size.toNat_mod
  have hlt := size.toNat_lt
  cases allocated
  · simp [pack, Size.toNat]
  · simp only [pack, Size.toNat, if_true, UInt64.toNat_add, UInt64.reduceToNat,
      Bool.toNat_true, UInt64.size] at h hlt ⊢
    omega

/-- A packed tag holds its size. -/
@[simp]
theorem size_pack (size : Size) (allocated : Bool) : (pack size allocated).size = size := by
  apply Size.ext
  have h := size.toNat_mod
  have hraw := toNat_raw_pack size allocated
  rw [Tag.size, Size.toNat_floor, hraw]
  cases allocated <;> simp only [Bool.toNat_true, Bool.toNat_false] <;> omega

/-- A packed tag holds its flag. -/
@[simp]
theorem allocated_pack (size : Size) (allocated : Bool)
    : (pack size allocated).allocated = allocated := by
  have h := size.toNat_mod
  have hraw := toNat_raw_pack size allocated
  have hmod : ((pack size allocated).raw % 2).toNat = allocated.toNat := by
    rw [UInt64.toNat_mod, hraw]
    cases allocated <;> simp <;> omega
  have hiff : (pack size allocated).raw % 2 = 1 ↔ allocated.toNat = 1 := by
    rw [← UInt64.toNat_inj, hmod]
    rfl
  rw [Tag.allocated, decide_eq_decide.mpr hiff]
  cases allocated <;> rfl

end Tag

end BoundaryTag
