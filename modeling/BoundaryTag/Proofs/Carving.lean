import BoundaryTag.Heap.Allocation
import BoundaryTag.Proofs.Settlement

/-! Serving a request from a free block: its low end is allocated, and what is left over is a free
extent if it can form a block, which takes over the place in the list. No heap need surround the
block for that: the list, and the room that the block takes, are all that carving depends on.
-/

namespace BoundaryTag

/-- The extents that a range becomes when its low end is allocated. A rest that is too small for
a block is allocated along.
-/
def split (b : Block) (total wanted : Size) : List Extent :=
  if Size.minBlock ≤ total - wanted then
    [⟨b, wanted, true⟩, ⟨b.offset wanted.word, total - wanted, false⟩]
  else
    [⟨b, total, true⟩]

/-- What is left over of a range when its low end is allocated. -/
def leftover (b : Block) (total wanted : Size) : Option Extent :=
  if Size.minBlock ≤ total - wanted then
    some ⟨b.offset wanted.word, total - wanted, false⟩
  else
    none

section

variable {b : Block} {total wanted : Size} {z : Nat}

/-- A rest that can form a block becomes a free extent of its own. -/
theorem split_of_le (h : Size.minBlock ≤ total - wanted)
    : split b total wanted
      = [⟨b, wanted, true⟩, ⟨b.offset wanted.word, total - wanted, false⟩] :=
  if_pos h

/-- A smaller rest stays with what is allocated. -/
theorem split_of_not_le (h : ¬Size.minBlock ≤ total - wanted)
    : split b total wanted = [⟨b, total, true⟩] :=
  if_neg h

/-- A split range is the same range. -/
theorem split_tiles (room : 32 ≤ wanted.toNat) (enough : wanted ≤ total)
    (hz : b.address.toNat + total.toNat = z) (high : z ≤ UInt64.size)
    : Tiles b.address.toNat (split b total wanted) z := by
  have rest := Size.toNat_sub_of_le enough
  rw [Size.le_iff] at enough
  by_cases h : Size.minBlock ≤ total - wanted
  · rw [split_of_le h]
    rw [Size.le_iff, Size.toNat_minBlock] at h
    have hoffset : (b.offset wanted.word).address.toNat = b.address.toNat + wanted.toNat :=
      Block.toNat_offset (by omega)
    simp only [Tiles, Extent.stop, Extent.start, hoffset, true_and]
    omega
  · rw [split_of_not_le h]
    simp only [Tiles, Extent.stop, Extent.start, true_and]
    omega

/-- Only the low end of a split range is allocated, and it has at least the wanted size. -/
theorem exists_split (b : Block) {total wanted : Size} (enough : wanted ≤ total)
    : ∃ size rest, split b total wanted = ⟨b, size, true⟩ :: rest ∧ wanted ≤ size
        ∧ ∀ e ∈ rest, e.allocated = false := by
  by_cases h : Size.minBlock ≤ total - wanted
  · refine ⟨wanted, _, split_of_le h, ?_, by simp⟩
    rw [Size.le_iff]
  · exact ⟨total, [], split_of_not_le h, enough, by simp⟩

/-- What is left over is one of the extents that the range becomes, and it is free. -/
theorem mem_split_of_mem_leftover {e : Extent} (he : e ∈ leftover b total wanted)
    : e ∈ split b total wanted ∧ e.allocated = false := by
  by_cases h : Size.minBlock ≤ total - wanted
  · simp only [leftover, if_pos h, Option.mem_some] at he
    simp [split_of_le h, ← he]
  · simp [leftover, if_neg h] at he

/-- The only free extent after a split is what is left over. -/
theorem gaps_split (b : Block) (total wanted : Size)
    : gaps (split b total wanted) = (leftover b total wanted).toList.map (·.block) := by
  by_cases h : Size.minBlock ≤ total - wanted
  · simp [split_of_le h, leftover, h, gaps_cons]
  · simp [split_of_not_le h, leftover, h, gaps_cons]

/-- The only allocated extent after a split begins where the range does. -/
theorem users_split (b : Block) (total wanted : Size) : users (split b total wanted) = [b] := by
  by_cases h : Size.minBlock ≤ total - wanted
  · simp [split_of_le h, users_cons]
  · simp [split_of_not_le h, users_cons]

/-- A split leaves no two free extents side by side. -/
theorem alternating_split (b : Block) (total wanted : Size)
    : Alternating (split b total wanted) := by
  by_cases h : Size.minBlock ≤ total - wanted
  · simp [split_of_le h, Alternating]
  · simp [split_of_not_le h, Alternating]

end

-----------------------------------------------------------------------------------------
-- A block that can be carved
-----------------------------------------------------------------------------------------

namespace Pool

/-- A listed block with the size in its header that can be carved, in a memory that need not hold a
heap, with the members of the list before and after it. Whether the block is free by its own tag
does not matter.
-/
structure Carvable (p : Pool) (e : Extent) (ys zs : List Block) : Prop where
  /-- The free list is well linked. -/
  lists : p.Lists (ys ++ e.block :: zs)
  size : e.block.size p.memory = e.size
  /-- The block does not wrap. -/
  floor : 8 ≤ e.block.address.toNat
  ceiling : e.block.address.toNat + e.size.toNat ≤ UInt64.size
  /-- No other member has its links there. -/
  clear : ∀ c ∈ ys ++ zs, ∀ x ∈ c.links, x ∉ e.covered

namespace Carvable

variable {p q : Pool} {ys zs : List Block} {e kept rest : Extent} {wanted : Size}

/-- The links of the other members lie below the header of the block or above its footer. -/
theorem beside (h : p.Carvable e ys zs) (room : 32 ≤ e.size.toNat) {c : Block}
    (hc : c ∈ ys ++ zs)
    : c.address.toNat + 24 ≤ e.start ∨ e.stop ≤ c.address.toNat + 8 := by
  have floor := h.floor
  have header := Block.toNat_header floor
  -- The lowest byte that both would share is the first one of either.
  have first := h.clear c hc c.address
  have first' := h.clear c hc e.block.header
  simp only [Block.links, Extent.covered, Extent.stop, Extent.start, Word.mem_span]
    at first first' ⊢
  omega

/-- Allocating a listed block as a whole takes it out of the list. -/
theorem takeWhole (h : p.Carvable e ys zs) (room : 32 ≤ e.size.toNat)
    : Extent.Tagged (p.takeWhole e.block).memory ⟨e.block, e.size, true⟩
      ∧ (p.takeWhole e.block).Lists (ys ++ zs)
      ∧ p.memory.SameOff (e.covered ∪ linkBytes (ys.getLast?.toList ++ zs.head?.toList))
          (p.takeWhole e.block).memory := by
  have fits : Extent.Fits ⟨e.block, e.size, true⟩ :=
    ⟨h.floor, le_trans (by decide) room, h.ceiling⟩
  have tags := fits.sameOff_writeTags (p.remove e.block).memory
  have tagged := fits.tagged_writeTags (p.remove e.block).memory
  rw [← memory_writeTags] at tags tagged
  have inside : Extent.tagBytes ⟨e.block, e.size, true⟩ ⊆ e.covered := by
    intro x hx
    simp only [Extent.tagBytes, Extent.covered, Extent.stop, Extent.start, Set.mem_union,
      Word.mem_span] at hx ⊢
    omega
  have takeWhole_eq : p.takeWhole e.block = (p.remove e.block).writeTags e.block e.size true := by
    simp only [Pool.takeWhole, h.size]
  rw [takeWhole_eq]
  refine ⟨tagged, h.lists.remove.sameOff (head_writeTags _ _ _ _) tags ?_, ?_⟩
  · exact fun c hc x hx links => h.clear c hc x links (inside hx)
  · exact (h.lists.sameOff_remove.mono Set.subset_union_right).trans
      (tags.mono (inside.trans Set.subset_union_left))

/-- The upper part of a listed block takes over its place in the list: the tags of the part lie
between the links of the block and its end, and so do its links.
-/
theorem passOn (h : p.Carvable e ys zs) (parts : Tiles e.start [kept, rest] e.stop)
    (hq : q = (p.writeTags rest.block rest.size rest.allocated).replace e.block rest.block)
    : q.Lists (ys ++ rest.block :: zs) ∧ rest.Tagged q.memory
      ∧ p.memory.SameOff (e.covered ∪ linkBytes (ys.getLast?.toList ++ zs.head?.toList))
          q.memory := by
  have floor := h.floor
  have ceiling := h.ceiling
  have fits : rest.Fits := parts.fits floor ceiling (by simp)
  have roomy : rest.block.HasLinks := parts.hasLinks floor ceiling (e := rest) (by simp)
  obtain ⟨hkept, keptRoom, hrest, restRoom, hstop⟩ := parts
  have hstop : rest.stop = e.stop := hstop
  simp only [Extent.stop, Extent.start] at hkept hrest hstop
  have beside {c : Block} (hc : c ∈ ys ++ zs) := h.beside (by omega) hc
  simp only [Extent.stop, Extent.start] at beside
  have tags := fits.sameOff_writeTags p.memory
  have tagged := fits.tagged_writeTags p.memory
  rw [← memory_writeTags] at tags tagged
  have lists := h.lists.sameOff (head_writeTags p rest.block rest.size rest.allocated) tags (by
    intro c hc x hx hlink
    simp only [Extent.tagBytes, Extent.stop, Extent.start, Block.links, Set.mem_union,
      Word.mem_span] at hx hlink
    rcases List.mem_cons.mp (List.perm_middle.mem_iff.mp hc) with rfl | hc
    · omega
    · have place := beside hc
      omega)
  have apart : ∀ c ∈ ys ++ zs, rest.block.Apart c := by
    intro c hc
    have place := beside hc
    simp only [Block.Apart]
    omega
  have replaced := lists.sameOff_replace roomy
  rw [hq]
  refine ⟨lists.replace roomy apart, ?_, (tags.mono ?_).trans (replaced.mono ?_)⟩
  · apply tagged.sameOff fits replaced
    rintro x ⟨c, hc, hx⟩ htag
    simp only [Extent.tagBytes, Extent.stop, Extent.start, Block.links, Set.mem_union,
      Word.mem_span] at hx htag
    rcases List.mem_cons.mp hc with rfl | hc
    · omega
    · have place := beside (around_subset ys zs hc)
      omega
  · intro x hx
    left
    simp only [Extent.tagBytes, Extent.covered, Extent.stop, Extent.start, Set.mem_union,
      Word.mem_span] at hx ⊢
    omega
  · rintro x ⟨c, hc, hx⟩
    rcases List.mem_cons.mp hc with rfl | hc
    · left
      simp only [Block.links, Extent.covered, Extent.stop, Extent.start, Word.mem_span] at hx ⊢
      omega
    · exact Or.inr ⟨c, hc, hx⟩

/-- Allocating the low end of a listed block puts the rest at its place in the list. -/
theorem splitOff (h : p.Carvable e ys zs) (room : 32 ≤ wanted.toNat) (enough : wanted ≤ e.size)
    (large : Size.minBlock ≤ e.size - wanted)
    : (∀ f ∈ split e.block e.size wanted,
          f.Tagged (p.splitOff e.block wanted (e.size - wanted)).memory)
      ∧ (p.splitOff e.block wanted (e.size - wanted)).Lists
          (ys ++ e.block.offset wanted.word :: zs)
      ∧ p.memory.SameOff (e.covered ∪ linkBytes (ys.getLast?.toList ++ zs.head?.toList))
          (p.splitOff e.block wanted (e.size - wanted)).memory := by
  have parts : Tiles e.start (split e.block e.size wanted) e.stop :=
    split_tiles room enough rfl h.ceiling
  rw [split_of_le large] at parts ⊢
  obtain ⟨q, hq⟩ : ∃ q, q = (p.writeTags (e.block.offset wanted.word) (e.size - wanted)
      false).replace e.block (e.block.offset wanted.word) :=
    ⟨_, rfl⟩
  obtain ⟨lists, restTagged, passed⟩ := h.passOn parts hq
  have lists : q.Lists (ys ++ e.block.offset wanted.word :: zs) := lists
  have splitOff_eq : p.splitOff e.block wanted (e.size - wanted)
      = q.writeTags e.block wanted true := by
    rw [hq]
    simp only [Pool.splitOff]
  have keptFits := parts.fits (e := ⟨e.block, wanted, true⟩) h.floor h.ceiling (by simp)
  have restFits := parts.fits (e := ⟨e.block.offset wanted.word, e.size - wanted, false⟩)
    h.floor h.ceiling (by simp)
  have ⟨_, _, hoffset, restRoom, hstop⟩ := parts
  simp only [Tiles, Extent.start, Extent.stop] at hoffset hstop restRoom
  have keptTags := keptFits.sameOff_writeTags q.memory
  have keptTagged := keptFits.tagged_writeTags q.memory
  rw [← memory_writeTags] at keptTags keptTagged
  rw [splitOff_eq]
  refine ⟨?_, lists.sameOff (head_writeTags q e.block wanted true) keptTags ?_,
    passed.trans (keptTags.mono ?_)⟩
  · refine List.forall_mem_cons.mpr ⟨keptTagged, List.forall_mem_singleton.mpr ?_⟩
    apply restTagged.sameOff restFits keptTags
    intro x hx htag
    simp only [Extent.tagBytes, Extent.stop, Extent.start, Set.mem_union, Word.mem_span]
      at hx htag
    omega
  · intro c hc x hx hlink
    simp only [Extent.tagBytes, Extent.stop, Extent.start, Block.links, Set.mem_union,
      Word.mem_span] at hx hlink
    rcases List.mem_cons.mp (List.perm_middle.mem_iff.mp hc) with rfl | hc
    · omega
    · have place := h.beside (by omega) hc
      simp only [Extent.stop, Extent.start] at place
      omega
  · intro x hx
    left
    simp only [Extent.tagBytes, Extent.covered, Extent.stop, Extent.start, Set.mem_union,
      Word.mem_span] at hx ⊢
    omega

/-- Carving splits a listed block, and puts what is left over at its place in the list. -/
theorem carve (h : p.Carvable e ys zs) (room : 32 ≤ wanted.toNat) (enough : wanted ≤ e.size)
    : (∀ f ∈ split e.block e.size wanted, f.Tagged (p.carve e.block wanted).2.memory)
      ∧ (p.carve e.block wanted).2.Lists (ys ++ gaps (split e.block e.size wanted) ++ zs)
      ∧ p.memory.SameOff (e.covered ∪ linkBytes (ys.getLast?.toList ++ zs.head?.toList))
          (p.carve e.block wanted).2.memory := by
  by_cases large : Size.minBlock ≤ e.size - wanted
  · have carve_eq : (p.carve e.block wanted).2 = p.splitOff e.block wanted (e.size - wanted) := by
      simp only [Pool.carve, h.size, large, if_true]
    have gap : gaps (split e.block e.size wanted) = [e.block.offset wanted.word] := by
      simp [split_of_le large, gaps_cons]
    rw [carve_eq, gap, ← List.append_cons]
    exact h.splitOff room enough large
  · have carve_eq : (p.carve e.block wanted).2 = p.takeWhole e.block := by
      simp only [Pool.carve, h.size, large, if_false]
    have gap : gaps (split e.block e.size wanted) = [] := by
      simp [split_of_not_le large, gaps_cons]
    obtain ⟨tagged, lists, same⟩ := h.takeWhole (room.trans (Size.le_iff.mp enough))
    rw [carve_eq, gap, List.append_nil, split_of_not_le large]
    exact ⟨fun f hf => List.mem_singleton.mp hf ▸ tagged, lists, same⟩

/-- Carving a listed block never faults, and returns the block itself: a request that finds it is
answered with it. If what is left over can form a block, the low end of the block has the
wanted size and the rest is a free block at the same place in the list; otherwise the block is
allocated as a whole and leaves the list. The tags are at both ends of each, and only bytes of the
block and links of the members on either side of it change.
-/
theorem carve_divides (h : p.Carvable e ys zs) (room : 32 ≤ wanted.toNat)
    (enough : wanted ≤ e.size)
    : let q := (p.carve e.block wanted).2
      (p.carve e.block wanted).1 = e.block
      ∧ p.carveBytes e.block wanted.word = .ok (e.block, q)
      ∧ (∀ heap : Heap, heap.toPool = p → heap.firstFit? wanted.word = some e.block →
          heap.serve wanted = (.ok e.block, heap.withPool q))
      ∧ (32 ≤ e.size.toNat - wanted.toNat →
          Extent.Tagged q.memory ⟨e.block, wanted, true⟩
          ∧ Extent.Tagged q.memory ⟨e.block.offset wanted.word, e.size - wanted, false⟩
          ∧ q.Lists (ys ++ e.block.offset wanted.word :: zs))
      ∧ (e.size.toNat - wanted.toNat < 32 →
          Extent.Tagged q.memory ⟨e.block, e.size, true⟩ ∧ q.Lists (ys ++ zs))
      ∧ p.memory.SameOff (e.covered ∪ linkBytes (ys.getLast?.toList ++ zs.head?.toList))
          q.memory := by
  intro q
  obtain ⟨tagged, lists, same⟩ := h.carve room enough
  have large_iff : Size.minBlock ≤ e.size - wanted ↔ 32 ≤ e.size.toNat - wanted.toNat := by
    rw [Size.le_iff, Size.toNat_sub_of_le enough, Size.toNat_minBlock]
  refine ⟨carve_fst .., ?_, ?_, ?_, ?_, same⟩
  · rw [carveBytes_word, carve_eq]
  · rintro heap rfl found
    simp only [Heap.serve, found, carve_fst, q]
  · intro large
    have parts := split_of_le (b := e.block) (large_iff.mpr large)
    rw [parts] at tagged lists
    refine ⟨tagged _ (by simp), tagged _ (by simp), ?_⟩
    simpa [gaps_cons, q] using lists
  · intro small
    have whole := split_of_not_le (b := e.block) (mt large_iff.mp (Nat.not_le.mpr small))
    rw [whole] at tagged lists
    refine ⟨tagged _ (by simp), ?_⟩
    simpa [gaps_cons, q] using lists

end Carvable

/-- A block of 96 bytes among zeros, listed between two others. -/
def sampleList : Pool :=
  let tagged := (⟨.zeros, none⟩ : Pool).writeTags ⟨4096⟩ (.floor 96) false
  ((tagged.insert ⟨8192⟩).insert ⟨4096⟩).insert ⟨12288⟩

/-- The block of 96 bytes can be carved. -/
theorem carvable_sampleList
    : sampleList.Carvable ⟨⟨4096⟩, ⟨96, by decide⟩, false⟩ [⟨12288⟩] [⟨8192⟩] where
  lists := by
    have empty : ((⟨.zeros, none⟩ : Pool).writeTags ⟨4096⟩ (.floor 96) false).Lists [] :=
      ⟨rfl, trivial, by simp, .nil⟩
    have last := empty.insert (b := ⟨8192⟩) (by decide) (by decide)
    have next := last.insert (b := ⟨4096⟩) (by decide) (by decide)
    exact next.insert (by decide) (by decide)
  size := by decide +kernel
  floor := by decide
  ceiling := by decide
  clear := by
    intro c hc x links covered
    simp only [List.cons_append, List.nil_append, List.mem_cons, List.not_mem_nil, or_false] at hc
    simp only [Extent.covered, Extent.stop, Extent.start, Size.toNat, Word.mem_span,
      UInt64.reduceToNat] at covered
    rcases hc with rfl | rfl <;>
      simp only [Block.links, Word.mem_span, UInt64.reduceToNat] at links <;> omega

/-- With 32 bytes carved out of it, the block leaves the rest in its place; with 80 bytes, it has
too little left and is allocated as a whole.
-/
theorem divides_sampleList
    : sampleList.Carvable ⟨⟨4096⟩, ⟨96, by decide⟩, false⟩ [⟨12288⟩] [⟨8192⟩]
      ∧ Extent.Tagged (sampleList.carve ⟨4096⟩ ⟨32, by decide⟩).2.memory
          ⟨⟨4128⟩, ⟨64, by decide⟩, false⟩
      ∧ (sampleList.carve ⟨4096⟩ ⟨32, by decide⟩).2.Lists [⟨12288⟩, ⟨4128⟩, ⟨8192⟩]
      ∧ Extent.Tagged (sampleList.carve ⟨4096⟩ ⟨80, by decide⟩).2.memory
          ⟨⟨4096⟩, ⟨96, by decide⟩, true⟩
      ∧ (sampleList.carve ⟨4096⟩ ⟨80, by decide⟩).2.Lists [⟨12288⟩, ⟨8192⟩] := by
  have little : (⟨32, by decide⟩ : Size) ≤ ⟨96, by decide⟩ := by decide
  have most : (⟨80, by decide⟩ : Size) ≤ ⟨96, by decide⟩ := by decide
  obtain ⟨-, -, -, divided, -, -⟩ := carvable_sampleList.carve_divides (by decide) little
  obtain ⟨-, -, -, -, whole, -⟩ := carvable_sampleList.carve_divides (by decide) most
  obtain ⟨-, rest, lists⟩ := divided (by decide)
  obtain ⟨all, others⟩ := whole (by decide)
  exact ⟨carvable_sampleList, rest, lists, all, others⟩

-----------------------------------------------------------------------------------------
-- A block of a layout
-----------------------------------------------------------------------------------------

namespace Laid

variable {p : Pool} {low top : Block} {l r : List Extent} {ys zs : List Block} {e : Extent}
  {wanted : Size}

/-- The other members of the list are free extents beside the one of a listed block. -/
theorem others (h : p.Laid low (l ++ [e] ++ r) top (ys ++ e.block :: zs))
    : ∀ c ∈ ys ++ zs, (∃ f ∈ l ++ r, f.block = c ∧ f.allocated = false)
      ∧ (c.address.toNat + 32 ≤ e.start ∨ e.stop ≤ c.address.toNat) := by
  obtain ⟨z, leftMiddle, rear⟩ := tiles_append.mp h.tiles
  obtain ⟨y, front, rfl, size, rfl⟩ := tiles_append.mp leftMiddle
  intro c hc
  have listed : c ∈ ys ++ e.block :: zs :=
    List.perm_middle.mem_iff.mpr (List.mem_cons_of_mem e.block hc)
  apply h.beside front ⟨rfl, size, rfl⟩ listed
  intro f hf hblock
  rw [List.mem_singleton.mp hf] at hblock
  exact h.lists.erase_member.1 (hblock ▸ hc)

/-- A listed block of a layout can be carved. -/
theorem carvable (h : p.Laid low (l ++ [e] ++ r) top (ys ++ e.block :: zs))
    : p.Carvable e ys zs := by
  have he : e ∈ l ++ [e] ++ r := by simp
  have bounds := h.bounds he
  have floor := h.floor
  have high := top.address.toNat_lt_size
  simp only [Extent.stop, Extent.start] at bounds
  refine ⟨h.lists, (h.tagged e he).size_eq, by omega, by omega, ?_⟩
  intro c hc x hlink covered
  have place := (h.others c hc).2
  simp only [Block.links, Extent.covered, Extent.stop, Extent.start, Word.mem_span]
    at hlink covered place
  omega

/-- Carving splits a listed block, and puts what is left over at its place in the list. It
touches vacant bytes only.
-/
theorem carve (h : p.Laid low (l ++ [e] ++ r) top (ys ++ e.block :: zs))
    (free : e.allocated = false) (room : 32 ≤ wanted.toNat) (enough : wanted ≤ e.size)
    : (p.carve e.block wanted).2.Laid low (l ++ split e.block e.size wanted ++ r) top
          (ys ++ gaps (split e.block e.size wanted) ++ zs)
      ∧ p.memory.SameOff (vacant (l ++ [e] ++ r)) (p.carve e.block wanted).2.memory := by
  have he : e ∈ l ++ [e] ++ r := by simp
  have high := (h.bounds he).2.2.trans top.address.toNat_lt_size.le
  have around : ys.getLast?.toList ++ zs.head?.toList ⊆ ys ++ e.block :: zs :=
    List.Subset.trans (around_subset ys zs) (List.Sublist.subset (by simp))
  obtain ⟨tagged, lists, same⟩ := h.carvable.carve room enough
  obtain ⟨z, leftMiddle, rear⟩ := tiles_append.mp h.tiles
  obtain ⟨y, front, rfl, least, rfl⟩ := tiles_append.mp leftMiddle
  constructor
  · apply h.rework (y := e.start) (z := e.stop) front ⟨rfl, least, rfl⟩
      (same.mono (Set.union_subset_union_right _ ?_)) (split_tiles room enough rfl high) tagged
      lists
    · intro c hc
      have either : c ∈ gaps (split e.block e.size wanted) ∨ c ∈ ys ++ zs := by
        simp only [List.mem_append] at hc ⊢
        tauto
      rcases either with hc | hc
      · obtain ⟨f, hf, hc⟩ := mem_gaps.mp hc
        exact ⟨f, by simp [hf], hc⟩
      · obtain ⟨f, hf, hc⟩ := (h.others c hc).1
        exact ⟨f, by simp only [List.mem_append] at hf ⊢; tauto, hc⟩
    · rintro x ⟨c, hc, hx⟩
      obtain ⟨f, hf, rfl, -⟩ := h.free c (around hc)
      exact ⟨f.block, List.mem_map_of_mem hf, hx⟩
  · apply same.mono
    rintro x (hx | ⟨c, hc, hx⟩)
    · exact ⟨e, he, free, hx⟩
    · exact h.linkBytes_subset_vacant ⟨c, around hc, hx⟩

end Laid

end Pool

/-- Two lists that agree up to order still do so after the same change to a common element. -/
theorem perm_change {as bs xs ys : List Block} {b : Block}
    (h : (xs ++ b :: ys).Perm (as ++ b :: bs)) (ms : List Block)
    : (xs ++ ms ++ ys).Perm (as ++ ms ++ bs) := by
  have others : (xs ++ ys).Perm (as ++ bs) :=
    (List.perm_middle.symm.trans (h.trans List.perm_middle)).cons_inv
  rw [List.append_assoc, List.append_assoc]
  exact (List.perm_append_comm_assoc xs ms ys).trans
    ((others.append_left ms).trans (List.perm_append_comm_assoc ms as bs))

namespace Pool.Settled

variable {p : Pool} {low top : Block} {s : Site} {xs ys zs : List Block} {wanted : Size}

/-- Carving a free block of a settled layout leaves a settled layout. -/
theorem carve (h : p.Settled low s.extents top (ys ++ s.here.block :: zs)) (hs : s.Enclosed)
    (free : s.here.allocated = false) (room : 32 ≤ wanted.toNat) (enough : wanted ≤ s.here.size)
    : (p.carve s.here.block wanted).2.Settled low
          (s.left ++ split s.here.block s.here.size wanted ++ s.right) top
          (ys ++ gaps (split s.here.block s.here.size wanted) ++ zs)
      ∧ p.memory.SameOff (vacant s.extents) (p.carve s.here.block wanted).2.memory := by
  obtain ⟨lower, upper⟩ := hs.alone h.alternating free
  have alone : s.extents = s.left ++ [s.here] ++ s.right := by
    simp [Site.extents, Site.middle, lower, upper]
  have laid := h.toLaid
  rw [alone] at laid
  obtain ⟨carved, same⟩ := laid.carve free room enough
  rw [← alone] at same
  refine ⟨h.rework hs carved (alternating_split _ _ _) ?_, same⟩
  apply perm_change (b := s.here.block)
  have complete := h.complete
  rw [alone] at complete
  simpa [gaps_cons, free] using complete

end Pool.Settled

end BoundaryTag
