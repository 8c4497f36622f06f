import Mathlib.Order.Bounds.Basic
import BoundaryTag.Proofs.Reallocation

/-! Rounding up to sizes, up to the greatest word. The size for a request is the least that has room
for it and for both tags, so a request fits a block exactly when it fits what the block has for its
user. A block that has to grow is therefore asked for more than that, and keeps all of its contents.
-/

namespace BoundaryTag

/-- The multiples of the alignment from a number on. -/
def multiplesFrom (n : Nat) : Set Nat := {k | k % 16 = 0 ∧ n ≤ k}

/-- The next multiple of the alignment comes before all others. -/
theorem isLeast_multiplesFrom (n : Nat) : IsLeast (multiplesFrom n) ((n + 15) / 16 * 16) := by
  constructor
  · refine ⟨Nat.mul_mod_left _ _, ?_⟩
    omega
  · rintro k ⟨whole, above⟩
    omega

namespace Size

-----------------------------------------------------------------------------------------
-- Least sizes
-----------------------------------------------------------------------------------------

/-- A number has no size at or above it exactly when the next multiple of the alignment is the one
behind the greatest word.
-/
theorem ceil?_eq_none_iff {n : Word}
    : ceil? n = none ↔ IsLeast (multiplesFrom n.toNat) UInt64.size := by
  have top := n.toNat_lt
  have least := isLeast_multiplesFrom n.toNat
  by_cases fits : n.toNat + 15 < UInt64.size
  · rw [ceil?_of_fits fits]
    simp only [UInt64.size, reduceCtorEq, false_iff] at *
    intro last
    have same := least.unique last
    omega
  · rw [ceil?_of_not_fits fits]
    simp only [UInt64.size, true_iff] at *
    have last : (n.toNat + 15) / 16 * 16 = 18446744073709551616 := by omega
    rwa [last] at least

-----------------------------------------------------------------------------------------
-- Requests that fit
-----------------------------------------------------------------------------------------

variable {b : Size}

/-- A request fits a block exactly when its bytes fit beside the tags. -/
theorem exists_forRequest?_le_iff (n : Word) (room : 32 ≤ b.toNat)
    : (∃ wanted, forRequest? n = some wanted ∧ wanted ≤ b) ↔ n.toNat ≤ b.toNat - 16 := by
  have top := b.toNat_lt
  have whole := b.toNat_mod
  simp only [UInt64.size] at top
  constructor
  · rintro ⟨wanted, request, enough⟩
    have needed := (room_of_forRequest? request).2
    rw [le_iff] at enough
    omega
  · intro fits
    obtain ⟨wanted, request⟩ := exists_forRequest? (n := n) (by simp only [UInt64.size]; omega)
    have number := toNat_of_forRequest? request
    refine ⟨wanted, request, ?_⟩
    rw [le_iff]
    omega

/-- A request for all that a block has beside its tags is one for that block. -/
theorem forRequest?_sub_overhead (room : 32 ≤ b.toNat)
    : forRequest? (b - overhead).word = some b := by
  have top := b.toNat_lt
  have whole := b.toNat_mod
  have rest : (b - overhead).word.toNat = b.toNat - 16 :=
    toNat_sub_of_le (by rw [le_iff, toNat_overhead]; omega)
  simp only [UInt64.size] at top
  obtain ⟨wanted, request⟩ := exists_forRequest? (n := (b - overhead).word)
    (by rw [rest]; simp only [UInt64.size]; omega)
  have number := toNat_of_forRequest? request
  rw [request]
  apply congrArg some
  apply ext
  omega

end Size

-----------------------------------------------------------------------------------------
-- Blocks that have to grow
-----------------------------------------------------------------------------------------

/-- A block stays exactly when it has the wanted size. -/
theorem Plan.choose_eq_stay_iff {m : Memory} {b : Block} {wanted : Size}
    : Plan.choose m b wanted = .stay ↔ wanted ≤ b.size m := by
  rw [Plan.choose]
  split_ifs <;> simp_all

namespace Heap

variable {h : Heap} {b : Block} {n : Word} {wanted : Size}

/-- A request fits a block exactly when its bytes fit what the block has for its user. -/
theorem exists_forRequest?_le_size_iff (n : Word) (room : 32 ≤ (b.size h.memory).toNat)
    : (∃ wanted, Size.forRequest? n = some wanted ∧ wanted ≤ b.size h.memory)
      ↔ n ≤ (h.usableSize b).word := by
  have usable := h.toNat_usableSize (b := b) (by omega)
  rw [Size.exists_forRequest?_le_iff n room, ← usable, UInt64.le_iff_toNat_le, Size.toNat]

/-- A block that has to grow for a request keeps all that it has for its user. -/
theorem kept_of_grows (room : 32 ≤ (b.size h.memory).toNat)
    (request : Size.forRequest? n = some wanted) (grows : Plan.choose h.memory b wanted ≠ .stay)
    : h.kept b n = (h.usableSize b).word := by
  have beyond : ¬n ≤ (h.usableSize b).word := by
    rw [← exists_forRequest?_le_size_iff n room]
    rintro ⟨wanted', request', enough⟩
    obtain rfl : wanted = wanted' := Option.some.inj (request.symm.trans request')
    exact grows (Plan.choose_eq_stay_iff.mpr enough)
  rw [UInt64.le_iff_toNat_le] at beyond
  apply UInt64.toNat_inj.mp
  rw [toNat_kept]
  exact Nat.min_eq_right (Nat.le_of_not_le beyond)

/-- A block that has to grow is resized with all of its contents. -/
theorem resize_of_grows (room : 32 ≤ (b.size h.memory).toNat) (nonzero : n ≠ 0)
    (request : Size.forRequest? n = some wanted) (grows : Plan.choose h.memory b wanted ≠ .stay)
    : h.resize (some b) n
      = let outcome := (h.note (.resizing b wanted (Plan.choose h.memory b wanted))).carryOut
          (Plan.choose h.memory b wanted) b wanted (h.usableSize b).word
        (outcome.1.map some, outcome.2) := by
  rw [resize_of_some nonzero request, kept_of_grows room request grows]

-----------------------------------------------------------------------------------------
-- Rounding and what depends on it
-----------------------------------------------------------------------------------------

/-- The size for a request of n bytes is the least multiple of the alignment that is at least n and
the bytes of both tags, and at least the smallest block, as long as that is a word; otherwise there
is none. Rounding up is exact in the same way. So a request fits a size exactly when it fits beside
the tags, and a block exactly when it fits what the block has for its user; a request for all that a
size has beside the tags is one for that size; and a block that has to grow for a request is resized
with all that it has for its user, whichever plan it takes.
-/
theorem rounding_adjoint (n : Word)
    : (∃ k, IsLeast (multiplesFrom (max (n.toNat + 16) 32)) k
        ∧ (Size.forRequest? n).map Size.toNat = if k < UInt64.size then some k else none)
      ∧ (Size.forRequest? n = none ↔ UInt64.size - 32 < n.toNat)
      ∧ (∃ k, IsLeast (multiplesFrom n.toNat) k
        ∧ (Size.ceil? n).map Size.toNat = if k < UInt64.size then some k else none)
      ∧ (Size.ceil? n = none ↔ IsLeast (multiplesFrom n.toNat) UInt64.size)
      ∧ (∀ size : Size, 32 ≤ size.toNat →
          ((∃ wanted, Size.forRequest? n = some wanted ∧ wanted ≤ size)
            ↔ n.toNat ≤ size.toNat - 16)
          ∧ Size.forRequest? (size - Size.overhead).word = some size)
      ∧ ∀ (h : Heap) (b : Block), 32 ≤ (b.size h.memory).toNat →
          ((∃ wanted, Size.forRequest? n = some wanted ∧ wanted ≤ b.size h.memory)
            ↔ n ≤ (h.usableSize b).word)
          ∧ ∀ wanted plan, n ≠ 0 → Size.forRequest? n = some wanted →
              Plan.choose h.memory b wanted = plan → plan ≠ .stay →
              h.resize (some b) n
                = let outcome := (h.note (.resizing b wanted plan)).carryOut plan b wanted
                    (h.usableSize b).word
                  (outcome.1.map some, outcome.2) := by
  refine ⟨⟨_, isLeast_multiplesFrom _, Size.map_toNat_forRequest? n⟩,
    Size.forRequest?_eq_none_iff,
    ⟨_, isLeast_multiplesFrom _, Size.map_toNat_ceil? n⟩, Size.ceil?_eq_none_iff, ?_, ?_⟩
  · intro size room
    exact ⟨Size.exists_forRequest?_le_iff n room, Size.forRequest?_sub_overhead room⟩
  · intro h b room
    refine ⟨exists_forRequest?_le_size_iff n room, ?_⟩
    rintro wanted plan nonzero request rfl grows
    exact resize_of_grows room nonzero request grows

/-- A heap with a block in use, of 48 bytes, above a free one as large. -/
def sampleHeap : Heap :=
  let h := (create (.ofChunkSize 256) ⟨0x1000, 0, 4096⟩ .zeros).2
  ((h.allocate 24).2.allocate 24).2.free ⟨0x1020⟩

/-- The block has 32 bytes for its user. A request for 33 makes it grow into the free block below,
and it keeps the 32.
-/
theorem rounding_sample
    : Size.forRequest? 33 = some ⟨64, by decide⟩
      ∧ 32 ≤ ((⟨0x1050⟩ : Block).size sampleHeap.memory).toNat
      ∧ Plan.choose sampleHeap.memory ⟨0x1050⟩ ⟨64, by decide⟩ = .growDown ⟨0x1020⟩
      ∧ Size.forRequest? 32 = some ⟨48, by decide⟩
      ∧ ¬(∃ wanted, Size.forRequest? 33 = some wanted
          ∧ wanted ≤ (⟨0x1050⟩ : Block).size sampleHeap.memory)
      ∧ sampleHeap.resize (some ⟨0x1050⟩) 33
        = let outcome := (sampleHeap.note (.resizing ⟨0x1050⟩ ⟨64, by decide⟩
              (.growDown ⟨0x1020⟩))).carryOut (.growDown ⟨0x1020⟩) ⟨0x1050⟩ ⟨64, by decide⟩ 32
          (outcome.1.map some, outcome.2) := by
  have request : Size.forRequest? 33 = some ⟨64, by decide⟩ := by decide
  have room : 32 ≤ ((⟨0x1050⟩ : Block).size sampleHeap.memory).toNat := by decide +kernel
  have planned : Plan.choose sampleHeap.memory ⟨0x1050⟩ ⟨64, by decide⟩ = .growDown ⟨0x1020⟩ := by
    decide +kernel
  have usable : (sampleHeap.usableSize ⟨0x1050⟩).word = 32 := by decide +kernel
  obtain ⟨-, -, -, -, sizes, blocks⟩ := rounding_adjoint 33
  obtain ⟨fits, resized⟩ := blocks sampleHeap ⟨0x1050⟩ room
  have grown := resized ⟨64, by decide⟩ _ (by decide) request planned (by simp)
  have whole := (sizes ⟨48, by decide⟩ (by decide)).2
  rw [usable] at fits grown
  exact ⟨request, room, planned, whole, fun small => absurd (fits.mp small) (by decide), grown⟩

end Heap

end BoundaryTag
