import BoundaryTag.Proofs.Inventory
import BoundaryTag.Proofs.Sessions
import BoundaryTag.Proofs.Verdicts

/-! What an audit finds in a heap that does not begin at a multiple of the alignment. Nothing keeps
such a heap from working, since sizes are multiples of the alignment wherever blocks begin. But each
block is found to be misaligned, and no member of the free list is taken for one: the walk along the
list stops at the first of them, so that every free block counts as missing from the list.
-/

namespace BoundaryTag

namespace Heap

variable {h : Heap} {es : List Extent} {xs : List Block}

section

variable (ord : h.InOrder es xs)

include ord

/-- The blocks of a heap in order are as a walk by address can follow them, wherever they begin. -/
theorem InOrder.ranged
    : Audit.Ranged h.memory (h.prologue.above h.memory).address.toNat es ⟨h.region.frontier⟩ := by
  have settled := ord.settled
  apply Audit.ranged_of_tagged _ settled.alternating settled.tagged settled.ceiling
  rw [settled.toNat_above_bottom]
  exact settled.tiles

/-- The walk by address over a heap in order comes to its blocks and then to the end. -/
theorem InOrder.auditedBlocks_eq
    : h.auditedBlocks = es.map (·.block) ++ [⟨h.region.frontier⟩] := by
  have room := ord.settled.tiles.length_le
  have limit := h.region.frontier.toNat_lt_size
  have low := ord.settled.toNat_above_bottom
  have steps : Pool.walkLimit = UInt64.size := rfl
  simp only at room
  rw [auditedBlocks, if_pos (prologueIntact_of_tagged ord.settled.bottom)]
  exact ord.ranged.blockTrail_eq (by omega) (by omega)

variable (shifted : h.prologue.address.toNat % 16 ≠ 0)

include shifted

/-- No block of the heap is aligned. -/
theorem InOrder.start_mod_ne (e : Extent) (he : e ∈ es) : e.start % 16 ≠ 0 := by
  have same := ord.settled.tiles.mod_eq.2 e he
  omega

/-- No listed block is taken for one. -/
theorem InOrder.not_holdsLinks : ∀ b ∈ xs, Audit.holdsLinks h.region b = false := by
  intro b hb
  obtain ⟨e, he, rfl, -⟩ := ord.settled.free b hb
  have misaligned : ¬ e.block.address % alignment = 0 := by
    rw [Size.word_mod_eq_zero_iff]
    exact ord.start_mod_ne shifted e he
  simp [Audit.holdsLinks, misaligned]

/-- The walk along the free list comes no further than to its first member. -/
theorem InOrder.auditedMembers_eq : h.auditedMembers = xs.head?.toList := by
  have astray := ord.not_holdsLinks shifted
  rw [auditedMembers, ord.settled.lists.head]
  exact Audit.listTrail_of_not_holds (fun b hb => astray b (List.mem_of_head? hb)) (by decide)

/-- An audit of a heap in order that is not aligned finds all of its blocks misaligned, the first
member of the free list out of bounds, and all free blocks missing from the list.
-/
theorem InOrder.violations_of_shifted
    : h.violations
      = (es.map fun e => .misaligned e.block) ++ xs.head?.toList.map .listedOutOfBounds
        ++ (gaps es).map .freeNotListed := by
  have low := ord.settled.toNat_above_bottom
  have astray := ord.not_holdsLinks shifted
  have first : ∀ b ∈ xs.head?.toList, Audit.holdsLinks h.region b = false :=
    fun b hb => astray b (List.mem_of_head? (Option.mem_toList.mp hb))
  have unheld : xs.head?.toList.filter (Audit.holdsLinks h.region) = [] := by
    simpa [List.filter_eq_nil_iff] using first
  have all : (es.filter fun e => e.start % 16 ≠ 0) = es := by
    simpa [List.filter_eq_self] using ord.start_mod_ne shifted
  have trail : Audit.trailFindings h.memory h.region.frontier none
      (es.map (·.block) ++ [⟨h.region.frontier⟩]) = es.map fun e => .misaligned e.block := by
    refine (ord.ranged.trailFindings_eq (by omega) (by simp)).trans ?_
    rw [all]
  have free : Audit.freeBlocks h.memory h.region.frontier
      (es.map (·.block) ++ [⟨h.region.frontier⟩]) = gaps es :=
    ord.ranged.freeBlocks_eq (by omega)
  -- Nothing that the walk along the list came to is held, so no free block is left out.
  have missing : (gaps es).filter (fun b => !([] : List Block).contains b) = gaps es :=
    List.filter_eq_self.mpr fun _ _ => rfl
  have ends := prologueIntact_of_tagged ord.settled.bottom
  simp only [violations, ends, if_true, ord.auditedBlocks_eq, ord.auditedMembers_eq shifted, trail,
    free, Audit.listFindings_of_not_holds first, unheld, List.nil_append, missing]

end

end Heap

namespace Session

variable {chunk : Word} {region : Region} {memory : Memory} {rs : List Request}

/-- In every heap that a session leads to, if the region of the heap begins at a multiple of the
alignment but had handed out an odd number of words before, an audit reports each block as
misaligned, by address, then the first member of the free list as out of bounds, if there is one,
and then each free block as not listed, by address again. It reports nothing else.
-/
theorem misaligned_of_legal (begins : Begins chunk region memory)
    (legal : (start chunk region memory).Legal rs) (aligned : region.start.toNat % 16 = 0)
    (odd : region.used.toNat % 16 = 8)
    : let h := ((start chunk region memory).run rs).heap
      h.violations
        = (h.blocks.map fun e => .misaligned e.block)
          ++ (h.freeBlocks.head?.toList.map fun e => .listedOutOfBounds e.block)
          ++ ((h.blocks.filter fun e => !e.allocated).map fun e => .freeNotListed e.block)
      ∧ h.blocks.Pairwise fun d e => d.start < e.start := by
  intro h
  obtain ⟨es, xs, coherent⟩ := begins.coherent_run legal
  have ord : h.InOrder es xs := coherent.order
  have shifted : h.prologue.address.toNat % 16 ≠ 0 := by
    have low : h.prologue.address.toNat = region.frontier.toNat + 16 := coherent.low
    rw [begins.sane.toNat_frontier] at low
    omega
  obtain ⟨-, order, -⟩ := ord.freeBlocks_spec
  have head : xs.head?.toList = h.freeBlocks.head?.toList.map (·.block) := by
    rw [← order, List.head?_map, Option.toList_map]
  rw [ord.violations_of_shifted shifted, ord.blocks_eq, head, gaps, List.map_map, List.map_map]
  exact ⟨rfl, ord.settled.tiles.sorted⟩

/-- The sample region has handed out three words before its heap is set up. -/
theorem misaligned_sample
    : let h := ((start 256 sampleRegion sampleMemory).run sampleRequests).heap
      Begins 256 sampleRegion sampleMemory
      ∧ (start 256 sampleRegion sampleMemory).Legal sampleRequests
      ∧ sampleRegion.start.toNat % 16 = 0
      ∧ sampleRegion.used.toNat % 16 = 8
      ∧ h.violations
        = [.misaligned ⟨4152⟩, .misaligned ⟨4296⟩, .misaligned ⟨4344⟩, .listedOutOfBounds ⟨4344⟩,
            .freeNotListed ⟨4344⟩] := by
  intro h
  have free : h.freeBlocks = [⟨⟨4344⟩, ⟨64, by decide⟩, false⟩] := by
    decide +kernel
  obtain ⟨found, -⟩ := misaligned_of_legal begins_sample legal_sample (by decide) (by decide)
  rw [blocks_sample, free] at found
  exact ⟨begins_sample, legal_sample, by decide, by decide, found⟩

end Session

end BoundaryTag
