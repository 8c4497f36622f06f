import BoundaryTag.Pool.Resize
import BoundaryTag.Proofs.Carving

/-! Giving bytes back: a whole block is freed, or the end of a block that is shortened. Either way
a free extent appears next to free ones and is merged with them, which settles the layout again.
-/

namespace BoundaryTag

namespace Site

variable {s : Site} {p : Pool} {low top : Block} {xs : List Block} {wanted : Size}

/-- The site of an extent after it has become free. -/
def release (s : Site) : Site where
  left := s.left
  lower := s.lower
  here := ⟨s.here.block, s.here.size, false⟩
  upper := s.upper
  right := s.right

/-- An extent joins with its neighbours into the same extent whether it is free yet or not. -/
@[simp]
theorem joined_release (s : Site) : s.release.joined = s.joined := by
  cases h : s.lower <;> simp [joined, release, h]

/-- The same members leave the list whether the extent is free yet or not. -/
@[simp]
theorem unlist_release (s : Site) (xs : List Block) : s.release.unlist xs = s.unlist xs := rfl

/-- A site stays enclosed when its extent becomes free. -/
theorem Enclosed.release (hs : s.Enclosed) : s.release.Enclosed :=
  ⟨⟨hs.lower_free, hs.upper_free⟩, hs.left_used, hs.right_used⟩

/-- The site of what is left over above an extent that is shortened. -/
def cut (s : Site) (wanted : Size) : Site where
  left := s.left ++ s.lower.toList ++ [⟨s.here.block, wanted, true⟩]
  lower := none
  here := ⟨s.here.block.offset wanted.word, s.here.size - wanted, false⟩
  upper := s.upper
  right := s.right

/-- What is left over of an enclosed extent is enclosed, because the part below it is allocated.
-/
theorem Enclosed.cut (hs : s.Enclosed) (wanted : Size) : (s.cut wanted).Enclosed :=
  ⟨⟨by simp [Site.cut], hs.upper_free⟩, by simp [Site.cut], hs.right_used⟩

/-- Merging the one free extent that is not listed settles a layout. It touches vacant bytes
only.
-/
theorem settle (laid : p.Laid low s.extents top xs) (hs : s.Enclosed)
    (free : s.here.allocated = false) (unlisted : s.here.block ∉ xs)
    (complete : xs.Perm (gaps s.left ++ s.lower.toList.map (·.block)
      ++ (s.upper.toList.map (·.block) ++ gaps s.right)))
    (sides : Alternating s.left ∧ Alternating s.right)
    : (p.merge s.here.block).1 = s.joined.block
      ∧ (p.merge s.here.block).2.Settled low (s.left ++ [s.joined] ++ s.right) top
          (s.joined.block :: s.unlist xs)
      ∧ p.memory.SameOff (vacant s.extents) (p.merge s.here.block).2.memory := by
  obtain ⟨merged, laid', same⟩ := merge_laid laid hs free unlisted
    (fun d hd => complete.mem_iff.mpr (by simp [Option.mem_def.mp hd]))
    (fun u hu => complete.mem_iff.mpr (by simp [Option.mem_def.mp hu]))
  refine ⟨merged, ⟨laid', ?_, hs.alternating sides (by simp [Alternating])⟩, same⟩
  have others := (unlist_perm complete).cons s.joined.block
  have free_joined : s.joined.allocated = false := rfl
  simpa [gaps_cons, free_joined] using others.trans List.perm_middle.symm

end Site

namespace Pool.Settled

variable {s : Site} {p : Pool} {low top : Block} {xs : List Block} {wanted : Size}

/-- No listed block lies within an allocated extent. -/
theorem notMem_within (h : p.Settled low s.extents top xs) (used : s.here.allocated = true)
    {b : Block} (above : s.here.start ≤ b.address.toNat) (below : b.address.toNat < s.here.stop)
    : b ∉ xs := by
  have unlisted := h.notMem_of_used s.here_mem used
  have laid := h.toLaid
  rw [s.extents_around] at laid
  obtain ⟨z, leftHere, rear⟩ := tiles_append.mp laid.tiles
  obtain ⟨y, front, rfl, room, rfl⟩ := tiles_append.mp leftHere
  exact laid.fresh_of_within front ⟨rfl, room, rfl⟩ (by simpa using unlisted) above below

/-- The range of an allocated extent can be tagged anew. Neither the new tags nor what is vacant
then are bytes of another allocated extent.
-/
theorem retag (h : p.Settled low s.extents top xs) (used : s.here.allocated = true)
    {mid : List Extent} (range : Tiles s.here.start mid s.here.stop)
    : (p.tagAll mid).Laid low
          (s.left ++ s.lower.toList ++ mid ++ (s.upper.toList ++ s.right)) top xs
      ∧ p.memory.SameOff (tagsOf mid) (p.tagAll mid).memory
      ∧ tagsOf mid ∪ vacant (s.left ++ s.lower.toList ++ mid ++ (s.upper.toList ++ s.right))
          ⊆ s.own := by
  have unlisted := h.notMem_of_used s.here_mem used
  have hfloor := h.floor
  have hbounds := h.bounds s.here_mem
  have high := top.address.toNat_lt_size
  have laid := h.toLaid
  rw [s.extents_around] at laid
  obtain ⟨z, leftHere, rear⟩ := tiles_append.mp laid.tiles
  obtain ⟨y, front, rfl, room, rfl⟩ := tiles_append.mp leftHere
  have written := p.sameOff_tagAll fun f hf => range.fits (by omega) (by omega) hf
  refine ⟨laid.retag front ⟨rfl, room, rfl⟩ (by simpa using unlisted) rfl (.refl _ _) range,
    written, Set.union_subset (range.tagsOf_subset.trans Set.subset_union_right) ?_⟩
  rw [Site.own, s.extents_around]
  exact vacant_replace [s.here] range

/-- An allocated extent that is tagged as free stands in a site next to the gaps that touch it. -/
theorem released (h : p.Settled low s.extents top xs) (used : s.here.allocated = true)
    : (p.tagAll [s.release.here]).Laid low s.release.extents top xs
      ∧ p.memory.SameOff (tagsOf [s.release.here]) (p.tagAll [s.release.here]).memory
      ∧ tagsOf [s.release.here] ∪ vacant s.release.extents ⊆ s.own := by
  have room := (h.bounds s.here_mem).2.1
  have range : Tiles s.here.start [s.release.here] s.here.stop := ⟨rfl, room, rfl⟩
  have extents : s.left ++ s.lower.toList ++ [s.release.here] ++ (s.upper.toList ++ s.right)
      = s.release.extents := by
    simp [Site.extents_eq, Site.release]
  have tagged := h.retag used range
  rwa [extents] at tagged

/-- Freeing an allocated extent joins it with the free extents that touch it. -/
theorem release (h : p.Settled low s.extents top xs) (hs : s.Enclosed)
    (used : s.here.allocated = true)
    : ((p.writeTags s.here.block s.here.size false).merge s.here.block).2.Settled low
          (s.left ++ [s.joined] ++ s.right) top (s.joined.block :: s.unlist xs)
      ∧ p.memory.SameOff s.own
          ((p.writeTags s.here.block s.here.size false).merge s.here.block).2.memory := by
  have unlisted := h.notMem_of_used s.here_mem used
  obtain ⟨released, written, within⟩ := h.released used
  have complete := h.complete
  rw [hs.gaps_extents used] at complete
  have sides : Alternating s.release.left ∧ Alternating s.release.right := by
    simpa only [Site.release] using Site.alternating_sides h.alternating
  obtain ⟨-, settled, same⟩ := Site.settle released hs.release rfl unlisted complete sides
  have free_eq : (p.writeTags s.here.block s.here.size false).merge s.here.block
      = (p.tagAll [s.release.here]).merge s.release.here.block := by
    simp only [tagAll_cons, tagAll_nil, Site.release]
  rw [Site.joined_release, Site.unlist_release] at settled
  rw [free_eq]
  exact ⟨settled, (written.trans_union same).mono within⟩

/-- Shortening an allocated extent by too little for a block changes nothing. -/
theorem trim_eq_self (h : p.Settled low s.extents top xs)
    (small : ¬Size.minBlock ≤ s.here.size - wanted)
    : p.trim s.here.block wanted = p := by
  have size := (h.tagged s.here s.here_mem).size_eq
  simp only [Pool.trim, size, small, if_false]

/-- An allocated extent that is tagged as shortened stands below what it gives up, which is found
above it.
-/
theorem shortened (h : p.Settled low s.extents top xs) (used : s.here.allocated = true)
    (room : 32 ≤ wanted.toNat) (enough : wanted ≤ s.here.size)
    (large : Size.minBlock ≤ s.here.size - wanted)
    : (p.tagAll (split s.here.block s.here.size wanted)).Laid low (s.cut wanted).extents top xs
      ∧ p.memory.SameOff (tagsOf (split s.here.block s.here.size wanted))
          (p.tagAll (split s.here.block s.here.size wanted)).memory
      ∧ tagsOf (split s.here.block s.here.size wanted) ∪ vacant (s.cut wanted).extents ⊆ s.own
      ∧ s.here.block.above (p.writeTags s.here.block wanted true).memory
          = s.here.block.offset wanted.word := by
  have hfloor := h.floor
  have hbounds := h.bounds s.here_mem
  have high := top.address.toNat_lt_size
  have range : Tiles s.here.start (split s.here.block s.here.size wanted) s.here.stop :=
    split_tiles room enough rfl (by omega)
  have kept := (Extent.Fits.tagged_writeTags (e := ⟨s.here.block, wanted, true⟩)
    (range.fits (by omega) (by omega) (by simp [split_of_le large]))) p.memory
  have extents : s.left ++ s.lower.toList ++ split s.here.block s.here.size wanted
      ++ (s.upper.toList ++ s.right) = (s.cut wanted).extents := by
    simp [split_of_le large, Site.extents_eq, Site.cut]
  obtain ⟨tagged, written, within⟩ := h.retag used range
  rw [extents] at tagged within
  refine ⟨tagged, written, within, ?_⟩
  rw [memory_writeTags]
  exact kept.above_eq

/-- Shortening an allocated extent frees what it gives up, and leaves the contents of the rest
alone.
-/
theorem trim (h : p.Settled low s.extents top xs) (hs : s.Enclosed)
    (used : s.here.allocated = true) (room : 32 ≤ wanted.toNat) (enough : wanted ≤ s.here.size)
    (large : Size.minBlock ≤ s.here.size - wanted)
    : (p.trim s.here.block wanted).Settled low
          ((s.cut wanted).left ++ [(s.cut wanted).joined] ++ s.right) top
          ((s.cut wanted).joined.block :: (s.cut wanted).unlist xs)
      ∧ p.memory.SameOff s.own (p.trim s.here.block wanted).memory
      ∧ ∀ n, n + 16 ≤ wanted.toNat
          → (p.trim s.here.block wanted).memory.readBytes s.here.block.address n
            = p.memory.readBytes s.here.block.address n := by
  have size := (h.tagged s.here s.here_mem).size_eq
  have high := (h.bounds s.here_mem).2.2.trans_lt top.address.toNat_lt_size
  have limit := Size.le_iff.mp enough
  have slack := Size.toNat_sub_of_le enough
  have rest := Size.le_iff.mp large
  obtain ⟨tagged, written, within, above⟩ := h.shortened used room enough large
  have fresh : (s.cut wanted).here.block ∉ xs := by
    have place : (s.cut wanted).here.block.address.toNat
        = s.here.block.address.toNat + wanted.toNat :=
      Block.toNat_offset (by simp only [Extent.stop, Extent.start] at high; omega)
    rw [Size.toNat_minBlock] at rest
    apply h.notMem_within used <;> simp only [Extent.stop, Extent.start] <;> omega
  have trim_eq : p.trim s.here.block wanted
      = ((p.tagAll (split s.here.block s.here.size wanted)).merge (s.cut wanted).here.block).2 := by
    simp only [Pool.trim, size, large, if_true, above, split_of_le, tagAll_cons, tagAll_nil,
      Site.cut]
  have complete := h.complete
  rw [hs.gaps_extents used] at complete
  have below : Alternating (s.cut wanted).left := by
    have lower : Alternating (s.left ++ s.lower.toList) := by
      have whole := h.alternating
      rw [Site.extents_eq] at whole
      exact (alternating_append.mp whole).1
    exact lower.append_used (by simp [Alternating]) rfl
  obtain ⟨-, settled, same⟩ := Site.settle tagged (hs.cut wanted) rfl fresh
    (by simpa [Site.cut, gaps_toList hs.lower_free, gaps_cons] using complete)
    ⟨below, (Site.alternating_sides h.alternating).2⟩
  rw [trim_eq]
  refine ⟨settled, (written.trans_union same).mono within, fun n hn => ?_⟩
  have parts : split s.here.block s.here.size wanted ⊆ (s.cut wanted).extents := by
    simp [split_of_le large, Site.extents_eq, Site.cut]
  exact tagged.readBytes_eq (e := ⟨s.here.block, wanted, true⟩)
    (by simp [Site.extents_eq, Site.cut]) rfl parts (written.trans_union same) hn

end Pool.Settled

end BoundaryTag
