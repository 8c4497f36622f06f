import BoundaryTag.Fault

/-! Sizes of blocks. A block size is a multiple of the alignment, which leaves the low bits of
its word free for other use. The main statements carry sums, differences and rounding over to
the numbers that sizes stand for.
-/

namespace BoundaryTag

/-- Every block size, and the payload address of every block of an aligned heap, is a
multiple of this number.
-/
def alignment : Word := 16

/-- The alignment is sixteen bytes. -/
@[simp]
theorem toNat_alignment : alignment.toNat = 16 := rfl

/-- A number of bytes that is a multiple of the alignment. -/
structure Size where
  word : Word
  aligned : word % alignment = 0
deriving DecidableEq

namespace Size

/-- The number of bytes. -/
def toNat (s : Size) : Nat := s.word.toNat

/-- Sizes are told apart by their numbers. -/
@[ext]
theorem ext {s t : Size} (h : s.toNat = t.toNat) : s = t := by
  cases s
  cases t
  simpa [toNat, UInt64.toNat_inj] using h

/-- A word divides by the alignment exactly when the number does. -/
theorem word_mod_eq_zero_iff (w : Word) : w % alignment = 0 ↔ w.toNat % 16 = 0 := by
  rw [← UInt64.toNat_inj]
  simp

/-- The number of a size is a multiple of the alignment. -/
theorem toNat_mod (s : Size) : s.toNat % 16 = 0 :=
  (word_mod_eq_zero_iff _).mp s.aligned

/-- The number of a size fits in a word. -/
theorem toNat_lt (s : Size) : s.toNat < UInt64.size := s.word.toNat_lt

instance : LE Size := ⟨fun s t => s.word ≤ t.word⟩

instance : LT Size := ⟨fun s t => s.word < t.word⟩

instance (s t : Size) : Decidable (s ≤ t) := inferInstanceAs (Decidable (s.word ≤ t.word))

instance (s t : Size) : Decidable (s < t) := inferInstanceAs (Decidable (s.word < t.word))

instance : Max Size := maxOfLe

/-- Sizes compare as their numbers do. -/
theorem le_iff {s t : Size} : s ≤ t ↔ s.toNat ≤ t.toNat := UInt64.le_iff_toNat_le

/-- Sizes compare strictly as their numbers do. -/
theorem lt_iff {s t : Size} : s < t ↔ s.toNat < t.toNat := UInt64.lt_iff_toNat_lt

/-- The sum of two sizes is a size, because the word limit is a multiple of the alignment
too.
-/
instance : Add Size where
  add s t := ⟨s.word + t.word, by
    have hs := s.toNat_mod
    have ht := t.toNat_mod
    rw [word_mod_eq_zero_iff, UInt64.toNat_add]
    simp only [toNat] at hs ht
    omega⟩

/-- The difference of two sizes is a size; like all arithmetic on words it wraps. -/
instance : Sub Size where
  sub s t := ⟨s.word - t.word, by
    have hs := s.toNat_mod
    have ht := t.toNat_mod
    have := t.toNat_lt
    rw [word_mod_eq_zero_iff, UInt64.toNat_sub]
    simp only [toNat, UInt64.size] at hs ht this
    omega⟩

/-- The number of a sum, which wraps at the word limit. -/
theorem toNat_add (s t : Size) : (s + t).toNat = (s.toNat + t.toNat) % UInt64.size :=
  UInt64.toNat_add s.word t.word

/-- The number of a difference, which wraps at the word limit. -/
theorem toNat_sub (s t : Size)
    : (s - t).toNat = (UInt64.size - t.toNat + s.toNat) % UInt64.size :=
  UInt64.toNat_sub s.word t.word

/-- No bytes at all. -/
def zero : Size := ⟨0, by decide⟩

/-- The bytes that the two tags of a block take. -/
def overhead : Size := ⟨16, by decide⟩

/-- The smallest block, which holds two tags and the two links of a free block. -/
def minBlock : Size := ⟨32, by decide⟩

/-- The greatest size that a word can hold. -/
def greatest : Size := ⟨-16, by decide⟩

/-- The greatest size that is at most the given number. -/
def floor (w : Word) : Size where
  word := w - w % alignment
  aligned := by
    have := w.toNat_lt
    rw [word_mod_eq_zero_iff, UInt64.toNat_sub]
    simp
    omega

/-- The least size that is at least the given number. It wraps to zero for the numbers that
are too large to have one.
-/
def ceil (w : Word) : Size := floor (w + (alignment - 1))

/-- The least size that is at least the given number, if there is one. -/
def ceil? (w : Word) : Option Size :=
  (Word.add? w (alignment - 1)).map floor

/-- The given number as a size. Anything but a multiple of the alignment is a fault. -/
def ofWord (w : Word) : Except Fault Size :=
  if h : w % alignment = 0 then .ok ⟨w, h⟩ else .error .unalignedSize

/-- The size of the block that serves a request of n bytes: room for the tags is added, the
sum is rounded up, and no block is smaller than the smallest one. There is none where the
rounded sum does not fit.
-/
def forRequest? (n : Word) : Option Size := do
  let bytes ← Word.add? n overhead.word
  let size ← ceil? bytes
  return max minBlock size

/-- Rounding down drops the remainder. -/
theorem toNat_floor (w : Word) : (floor w).toNat = w.toNat - w.toNat % 16 := by
  have := w.toNat_lt
  simp only [floor, toNat, UInt64.toNat_sub, UInt64.toNat_mod, toNat_alignment]
  omega

/-- Rounding up gives the multiple of the alignment next above, as long as that fits. -/
theorem toNat_ceil {w : Word} (h : w.toNat ≤ UInt64.size - 16)
    : (ceil w).toNat = (w.toNat + 15) / 16 * 16 := by
  rw [ceil, toNat_floor]
  simp only [alignment, UInt64.toNat_add, UInt64.reduceSub, UInt64.reduceToNat,
    UInt64.size] at h ⊢
  omega

/-- The greater of two sizes has the greater of their numbers. -/
theorem toNat_max (s t : Size) : (max s t).toNat = max s.toNat t.toNat := by
  show (if s ≤ t then t else s).toNat = _
  simp only [le_iff, Nat.max_def]
  split <;> rfl

/-- A number has a size at or above it if the sum with what can be missing at most fits. -/
theorem ceil?_of_fits {w : Word} (fits : w.toNat + 15 < UInt64.size) : ceil? w = some (ceil w) := by
  have sum : Word.add? w (alignment - 1) = some (w + (alignment - 1)) := if_pos fits
  rw [ceil?, sum, Option.map_some, ceil]

/-- Otherwise it has none. -/
theorem ceil?_of_not_fits {w : Word} (large : ¬w.toNat + 15 < UInt64.size) : ceil? w = none := by
  have sum : Word.add? w (alignment - 1) = none := if_neg large
  rw [ceil?, sum, Option.map_none]

/-- Rounding up gives the next multiple of the alignment, if that is a word. -/
theorem map_toNat_ceil? (w : Word)
    : (ceil? w).map toNat
      = if (w.toNat + 15) / 16 * 16 < UInt64.size then
          some ((w.toNat + 15) / 16 * 16)
        else
          none := by
  by_cases fits : w.toNat + 15 < UInt64.size
  · rw [ceil?_of_fits fits, Option.map_some]
    simp only [UInt64.size] at fits
    rw [toNat_ceil (by simp only [UInt64.size]; omega), if_pos (by simp only [UInt64.size]; omega)]
  · rw [ceil?_of_not_fits fits, Option.map_none]
    simp only [UInt64.size] at fits
    rw [if_neg (by simp only [UInt64.size]; omega)]

/-- The checked sum with both tags is the sum of the numbers, if that is a word. -/
theorem add?_overhead_of_fits {n : Word} (fits : n.toNat + 16 < UInt64.size)
    : Word.add? n overhead.word = some (n + overhead.word)
      ∧ (n + overhead.word).toNat = n.toNat + 16 := by
  have tags : overhead.word.toNat = 16 := rfl
  refine ⟨if_pos fits, ?_⟩
  rw [UInt64.toNat_add, tags]
  exact Nat.mod_eq_of_lt fits

/-- The size for a request is rounded up from the sum with both tags, as long as both steps fit. -/
theorem forRequest?_of_fits {n : Word} (fits : n.toNat + 31 < UInt64.size)
    : (n + overhead.word).toNat = n.toNat + 16
      ∧ forRequest? n = some (max minBlock (ceil (n + overhead.word))) := by
  simp only [UInt64.size] at fits
  obtain ⟨sum, number⟩ := add?_overhead_of_fits (n := n) (by simp only [UInt64.size]; omega)
  have rounded := ceil?_of_fits (w := n + overhead.word) (by simp only [number, UInt64.size]; omega)
  refine ⟨number, ?_⟩
  simp only [forRequest?, sum, rounded, Option.bind_eq_bind, Option.bind_some, pure]

/-- A request has no size where one of the steps does not fit. -/
theorem forRequest?_of_not_fits {n : Word} (large : ¬n.toNat + 31 < UInt64.size)
    : forRequest? n = none := by
  simp only [UInt64.size] at large
  by_cases fits : n.toNat + 16 < UInt64.size
  · obtain ⟨sum, number⟩ := add?_overhead_of_fits fits
    have none_left := ceil?_of_not_fits (w := n + overhead.word)
      (by simp only [number, UInt64.size]; omega)
    simp only [forRequest?, sum, none_left, Option.bind_eq_bind, Option.bind_some, Option.bind_none]
  · have sum : Word.add? n overhead.word = none := if_neg fits
    simp only [forRequest?, sum, Option.bind_eq_bind, Option.bind_none]

/-- The size for a request is the next multiple of the alignment behind its bytes and both tags, if
that is a word, and at least that of the smallest block.
-/
theorem map_toNat_forRequest? (n : Word)
    : (forRequest? n).map toNat
      = if (max (n.toNat + 16) 32 + 15) / 16 * 16 < UInt64.size then
          some ((max (n.toNat + 16) 32 + 15) / 16 * 16)
        else
          none := by
  have least : minBlock.toNat = 32 := rfl
  by_cases fits : n.toNat + 31 < UInt64.size
  · obtain ⟨number, size⟩ := forRequest?_of_fits fits
    simp only [UInt64.size] at fits ⊢
    have rounded := toNat_ceil (w := n + overhead.word) (by simp only [number, UInt64.size]; omega)
    rw [size, Option.map_some, toNat_max, rounded, number, least, if_pos (by omega),
      Option.some_inj]
    omega
  · rw [forRequest?_of_not_fits fits, Option.map_none]
    simp only [UInt64.size] at fits ⊢
    rw [if_neg (by omega)]

end Size

end BoundaryTag
