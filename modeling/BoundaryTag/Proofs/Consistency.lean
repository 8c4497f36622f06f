import BoundaryTag.Proofs.Sessions
import BoundaryTag.Proofs.Walks

/-! What can be seen of a heap between two requests, by its own walks: the blocks fill the heap
from one end to the other with the same tags at both ends of each, no two free ones touch, the
free list has the free ones and clients hold the others.
-/

namespace BoundaryTag.Session

/-- The walks over a heap whose first byte is at the given address agree with one another, with
both ends of the heap and with what clients hold.
-/
structure Consistent (base : Nat) (s : Session) : Prop where
  /-- Behind a word of padding, the low end has its tags. -/
  low : s.heap.prologue.address.toNat = base + 16
  lowTags : s.heap.prologue.tag s.heap.memory = Tag.pack Heap.prologueSize true
    ∧ s.heap.prologue.footerTag s.heap.memory = Tag.pack Heap.prologueSize true
  /-- The blocks lie side by side, and stop where the region has handed out no more. -/
  tiles : Tiles (base + 32) s.heap.blocks s.heap.region.frontier.toNat
  highTag : (Block.mk s.heap.region.frontier).tag s.heap.memory = Tag.pack Size.zero true
  sizes : ∀ e ∈ s.heap.blocks, e.size.toNat % 16 = 0 ∧ 32 ≤ e.size.toNat
  footers : ∀ e ∈ s.heap.blocks,
    e.block.footerTag s.heap.memory = e.block.tag s.heap.memory
  /-- Going down by the footers leads back through all blocks to the low end. -/
  descends : descent s.heap.memory (s.heap.blocks.length + 1) ⟨s.heap.region.frontier⟩
    = (s.heap.blocks.map (·.block)).reverse ++ [s.heap.prologue]
  alternating : Alternating s.heap.blocks
  /-- The members of the free list know their neighbours, and are the free blocks. -/
  linked : s.heap.Lists s.heap.members
  listed : s.heap.members.Perm (gaps s.heap.blocks)
  held : s.live.Perm (users s.heap.blocks)

/-- A coherent session is consistent, because the walks visit its layout. -/
theorem Coherent.consistent {base : Nat} {s : Session} {es : List Extent} {xs : List Block}
    (h : s.Coherent base es xs)
    : s.Consistent base := by
  have settled := h.order.settled
  have blocks := h.order.blocks_eq
  have members := h.order.members_eq
  have tiles := settled.tiles
  rw [h.low] at tiles
  have low := settled.bottom.tag_eq
  have lowFooter := settled.bottom.footerTag_eq
  have descends := settled.descent_top
  constructor
  case low => exact h.low
  case lowTags => exact ⟨low, lowFooter⟩
  case tiles => rwa [blocks]
  case highTag => exact settled.ceiling
  case sizes =>
    intro e he
    rw [blocks] at he
    exact ⟨e.size.toNat_mod, (settled.bounds he).2.1⟩
  case footers =>
    intro e he
    rw [blocks] at he
    have tagged := settled.tagged e he
    rw [tagged.footerTag_eq, tagged.tag_eq]
  case descends => rwa [blocks]
  case alternating =>
    rw [blocks]
    exact settled.alternating
  case linked =>
    rw [members]
    exact settled.lists
  case listed =>
    rw [members, blocks]
    exact settled.complete
  case held =>
    rw [blocks]
    exact h.live

/-- Whatever clients ask for and write into their blocks, the heap stays consistent. -/
theorem consistent_run {chunk : Word} {region : Region} {memory : Memory}
    (begins : Begins chunk region memory) {rs : List Request}
    (legal : (start chunk region memory).Legal rs)
    : ((start chunk region memory).run rs).Consistent region.frontier.toNat := by
  obtain ⟨es, xs, first⟩ := begins.coherent
  obtain ⟨es', xs', last⟩ := first.run legal
  exact last.consistent

/-- The sample session ends in a consistent heap. -/
theorem consistent_sample
    : Begins 256 sampleRegion sampleMemory
      ∧ (start 256 sampleRegion sampleMemory).Legal sampleRequests
      ∧ ((start 256 sampleRegion sampleMemory).run sampleRequests).Consistent 4120 :=
  ⟨begins_sample, legal_sample, consistent_run begins_sample legal_sample⟩

end BoundaryTag.Session
