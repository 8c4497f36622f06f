import BoundaryTag.Proofs.Inventory
import BoundaryTag.Proofs.Refusals

/-! Clearing what is allocated. A request for some elements of a given size is one for as many bytes
as their product, which may exceed every word; nothing is ever handed out for less. The block is
cleared between its tags alone, so apart from these bytes the heap is the same as if they had been
allocated without clearing them, whatever the free blocks held before.
-/

namespace BoundaryTag

-----------------------------------------------------------------------------------------
-- Bytes that no heap depends on
-----------------------------------------------------------------------------------------

/-- What is left behind in the free extents: their bytes between the links and the footer. -/
def stale (es : List Extent) : Set Word :=
  {x | ∃ e ∈ es, e.allocated = false ∧ x ∈ Word.span (e.start + 16) (e.stop - 16)}

/-- What is left behind in free extents is part of their payload, but not of their links. -/
theorem exists_payload_of_mem_stale {es : List Extent} {x : Word} (member : x ∈ stale es)
    : ∃ e ∈ es, e.allocated = false ∧ x ∈ e.payload ∧ x ∉ e.block.links := by
  obtain ⟨e, he, free, hx⟩ := member
  refine ⟨e, he, free, ?_, fun link => ?_⟩
  · rw [Extent.payload, Word.mem_span]
    rw [Word.mem_span] at hx
    omega
  · rw [Block.links, Word.mem_span] at link
    rw [Word.mem_span, Extent.start] at hx
    omega

namespace Pool

variable {p q : Pool} {low top : Block} {es : List Extent} {xs : List Block}

/-- What is left behind in free extents is none of the bytes of a link. -/
theorem Laid.stale_notMem_links (h : p.Laid low es top xs) {b : Block} (hb : b ∈ xs)
    : ∀ x ∈ stale es, x ∉ b.links := by
  intro x member link
  obtain ⟨f, hf, rfl, -⟩ := h.free b hb
  obtain ⟨e, he, -, hx, notOwn⟩ := exists_payload_of_mem_stale member
  have inside := h.links_subset_payload hf link
  rcases h.tiles.apart he hf with rfl | apart
  · exact notOwn link
  · simp only [Extent.payload, Word.mem_span] at hx inside
    omega

/-- No layout depends on what is left behind in its free extents. -/
theorem Laid.of_stale (h : p.Laid low es top xs) (head : q.head = p.head)
    (same : p.memory.SameOff (stale es) q.memory)
    : q.Laid low es top xs := by
  have within : stale es ⊆ reach es (low.address.toNat + 16) top.address.toNat := by
    intro x member
    obtain ⟨e, he, -, hx, -⟩ := exists_payload_of_mem_stale member
    apply Or.inl (h.tiles.covered_subset he _)
    simp only [Extent.payload, Extent.covered, Word.mem_span] at hx ⊢
    omega
  obtain ⟨bottom, ceiling⟩ := h.ends_of_sameOff le_rfl le_rfl (same.mono within)
  refine ⟨h.floor, h.tiles, fun f hf => ?_, bottom, ceiling, ?_, h.free⟩
  · apply (h.tagged f hf).sameOff (h.fits hf) same
    intro x member
    obtain ⟨e, he, -, hx, -⟩ := exists_payload_of_mem_stale member
    exact h.payload_notMem_tagBytes he hf x hx
  · exact h.lists.sameOff head same fun b hb => h.stale_notMem_links hb

end Pool

namespace Heap

/-- Heaps that differ in nothing but what is left behind in their free blocks. -/
structure SameOffStale (h k : Heap) : Prop where
  parts : k = { h with memory := k.memory }
  memory : h.memory.SameOff (stale h.blocks) k.memory

/-- A heap in order is so whatever is left behind in its free blocks. -/
theorem InOrder.of_stale {h k : Heap} {es : List Extent} {xs : List Block} (ord : h.InOrder es xs)
    (same : h.SameOffStale k)
    : k.InOrder es xs := by
  obtain ⟨parts, memory⟩ := same
  rw [ord.blocks_eq] at memory
  have laid : Pool.Laid ⟨k.memory, h.head⟩ h.prologue es ⟨h.region.frontier⟩ xs :=
    ord.settled.toLaid.of_stale rfl memory
  rw [parts]
  exact ⟨⟨laid, ord.settled.complete, ord.settled.alternating⟩, ord.sane, ord.chunk⟩

end Heap

-----------------------------------------------------------------------------------------
-- Products of words
-----------------------------------------------------------------------------------------

namespace Word

variable {a b : Word}

/-- A product that fits is the word of the product of the numbers. -/
theorem mul?_of_lt (fits : a.toNat * b.toNat < UInt64.size)
    : mul? a b = some (.ofNat (a.toNat * b.toNat)) := by
  rw [mul?, if_pos fits, Option.some_inj]
  apply UInt64.toNat_inj.mp
  rw [UInt64.toNat_mul, UInt64.toNat_ofNat_of_lt' fits]
  exact Nat.mod_eq_of_lt fits

/-- Where the product of the numbers is no word, there is no checked product. -/
theorem mul?_of_le (large : UInt64.size ≤ a.toNat * b.toNat) : mul? a b = none := by
  rw [mul?, if_neg (Nat.not_lt.mpr large)]

/-- A product that some size is left for fits in a word. -/
theorem product_lt (small : a.toNat * b.toNat ≤ UInt64.size - 32)
    : a.toNat * b.toNat < UInt64.size :=
  Nat.lt_of_le_of_lt small (by decide)

end Word

/-- A product that fits wants the size for as many bytes. -/
theorem Request.wanted?_allocateZeroed {count size : Word}
    (fits : count.toNat * size.toNat < UInt64.size)
    : (allocateZeroed count size).wanted? = Size.forRequest? (.ofNat (count.toNat * size.toNat)) :=
  wanted?_eq (UInt64.toNat_ofNat_of_lt' fits).symm

-----------------------------------------------------------------------------------------
-- Requests for cleared blocks
-----------------------------------------------------------------------------------------

namespace Heap

/-- What becomes of a request for a cleared block, compared with one that is not cleared, for as
many bytes as the elements take together. This number need not fit in a word.
-/
structure Clears (h : Heap) (count size : Word) : Prop where
  /-- No block is needed for no bytes, and for no other number. -/
  nothing : (h.allocateZeroed count size).1 = .ok none ↔ count.toNat * size.toNat = 0
  /-- A request is too large exactly if no size is left for it and both tags. The refusal names the
  number of bytes, or the greatest word instead.
  -/
  tooLarge (n : Word)
    : (h.allocateZeroed count size).1 = .error (.tooLarge n)
      ↔ UInt64.size - 32 < count.toNat * size.toNat
        ∧ n.toNat = min (count.toNat * size.toNat) (UInt64.size - 1)
  /-- A request that is too large leaves all as it was. -/
  unchanged (large : UInt64.size - 32 < count.toNat * size.toNat)
    : (h.allocateZeroed count size).2 = h
  /-- Any other is answered as if the block were not to be cleared. -/
  reply (small : count.toNat * size.toNat ≤ UInt64.size - 32)
    : (h.allocateZeroed count size).1 = (h.allocate (.ofNat (count.toNat * size.toNat))).1
  /-- A block that is handed out has room for all of the bytes, which are zero, and is the one that
  would have been handed out otherwise. The walks show the same then, and all other bytes of memory
  are the same.
  -/
  granted (b : Block) (ok : (h.allocateZeroed count size).1 = .ok (some b))
    : let bytes := count.toNat * size.toNat
      let k := (h.allocate (.ofNat bytes)).2
      let k' := (h.allocateZeroed count size).2
      bytes ≤ (k'.usableSize b).toNat
        ∧ k'.memory.readBytes b.address bytes = List.replicate bytes 0
        ∧ (h.allocate (.ofNat bytes)).1 = .ok (some b)
        ∧ k'.Shows k.blocks k.freeBlocks
        ∧ k.memory.SameOff (Word.span b.address.toNat (b.address.toNat + bytes)) k'.memory

section

variable {h : Heap} {bytes count size n : Word}

/-- Only a request for no bytes is answered with no block. -/
theorem allocate_eq_none_iff : (h.allocate bytes).1 = .ok none ↔ bytes = 0 := by
  by_cases zero : bytes = 0
  · simp only [allocate, zero, if_true]
  · simp only [allocate, zero, if_false, iff_false]
    cases Size.forRequest? bytes with
    | none => simp
    | some wanted => cases outcome : (h.serve wanted).1 <;> simp [outcome, Except.map]

/-- A request that no size is left for is refused, and leaves all as it was. -/
theorem allocate_of_large (large : UInt64.size - 32 < bytes.toNat)
    : h.allocate bytes = (.error (.tooLarge bytes), h) := by
  have nonzero : bytes ≠ 0 := by
    rintro rfl
    cases large
  simp only [allocate, nonzero, if_false, Size.forRequest?_eq_none_iff.mpr large]

/-- A request is too large only if no size is left for it. -/
theorem allocate_eq_tooLarge_iff (sane : h.region.Sane)
    : (h.allocate bytes).1 = .error (.tooLarge n) ↔ UInt64.size - 32 < bytes.toNat ∧ n = bytes := by
  by_cases zero : bytes = 0
  · simp [allocate, zero]
  · simp [allocate_eq_error_iff sane zero, Refuses, shortage]

/-- A product that no size is left for is refused, and leaves all as it was. -/
theorem allocateZeroed_of_large (large : UInt64.size - 32 < count.toNat * size.toNat)
    : h.allocateZeroed count size
      = (.error (.tooLarge (.ofNat (min (count.toNat * size.toNat) (UInt64.size - 1)))), h) := by
  by_cases fits : count.toNat * size.toNat < UInt64.size
  · have least : min (count.toNat * size.toNat) (UInt64.size - 1) = count.toNat * size.toNat := by
      omega
    have refused : h.allocate (.ofNat (count.toNat * size.toNat)) = _ :=
      allocate_of_large (by rwa [UInt64.toNat_ofNat_of_lt' fits])
    simp only [allocateZeroed, Word.mul?_of_lt fits, refused, least]
  · have least : min (count.toNat * size.toNat) (UInt64.size - 1) = UInt64.size - 1 := by
      omega
    simp only [allocateZeroed, Word.mul?_of_le (Nat.not_lt.mp fits), least]
    rfl

variable (fits : count.toNat * size.toNat < UInt64.size)

include fits

/-- A product that fits is requested. -/
theorem reply_allocateZeroed
    : (h.allocateZeroed count size).1 = (h.allocate (.ofNat (count.toNat * size.toNat))).1 := by
  simp only [allocateZeroed, Word.mul?_of_lt fits]
  split
  · next outcome => rw [outcome]
  · rfl

/-- Clearing a block takes no bytes from the region. -/
theorem region_allocateZeroed
    : (h.allocateZeroed count size).2.region
      = (h.allocate (.ofNat (count.toNat * size.toNat))).2.region := by
  simp only [allocateZeroed, Word.mul?_of_lt fits]
  split
  · next outcome => rw [outcome]
  · rfl

/-- A block that is handed out for a product is cleared for as many bytes. -/
theorem allocateZeroed_of_ok {b : Block} {h' : Heap}
    (granted : h.allocate (.ofNat (count.toNat * size.toNat)) = (.ok (some b), h'))
    : h.allocateZeroed count size
      = (.ok (some b), { h' with
          memory := h'.memory.clear b.address (.ofNat (count.toNat * size.toNat)) }) := by
  simp only [allocateZeroed, Word.mul?_of_lt fits, granted]

end

namespace InOrder

variable {h : Heap} {es : List Extent} {xs : List Block} {e : Extent} {b : Block}
  {count size : Word}

/-- Clearing an allocated extent between its tags leaves the heap in order. -/
theorem clear (ord : h.InOrder es xs) (he : e ∈ es) (used : e.allocated = true) {bytes : Word}
    (room : bytes.toNat + 16 ≤ e.size.toNat)
    : Heap.InOrder { h with memory := h.memory.clear e.block.address bytes } es xs
      ∧ h.memory.SameOff
          (Word.span e.block.address.toNat (e.block.address.toNat + bytes.toNat))
          (h.memory.clear e.block.address bytes) := by
  obtain ⟨fits, inside⟩ := ord.span_subset_payload he room
  have same := h.memory.sameOff_clear fits
  exact ⟨(ord.scribble he used (same.mono inside)).1, same⟩

/-- A block that is handed out for a product is the same as without clearing, and holds zeros. -/
theorem clears_granted (ord : h.InOrder es xs) {bytes : Nat}
    (product : bytes = count.toNat * size.toNat) (fits : bytes < UInt64.size)
    (ok : (h.allocateZeroed count size).1 = .ok (some b))
    : bytes ≤ ((h.allocateZeroed count size).2.usableSize b).toNat
      ∧ (h.allocateZeroed count size).2.memory.readBytes b.address bytes = List.replicate bytes 0
      ∧ (h.allocate (.ofNat bytes)).1 = .ok (some b)
      ∧ (h.allocateZeroed count size).2.Shows (h.allocate (.ofNat bytes)).2.blocks
          (h.allocate (.ofNat bytes)).2.freeBlocks
      ∧ (h.allocate (.ofNat bytes)).2.memory.SameOff
          (Word.span b.address.toNat (b.address.toNat + bytes))
          (h.allocateZeroed count size).2.memory := by
  subst product
  have word := UInt64.toNat_ofNat_of_lt' fits
  rw [reply_allocateZeroed fits] at ok
  obtain ⟨k, outcome⟩ : ∃ k, h.allocate (.ofNat (count.toNat * size.toNat)) = (.ok (some b), k) :=
    ⟨_, Prod.ext ok rfl⟩
  obtain ⟨es', xs', grant⟩ := ord.allocate (.ofNat (count.toNat * size.toNat))
  rw [outcome] at grant
  obtain ⟨t, ht, rfl, used, room⟩ := grant.extent b (by simp [Heap.granted])
  obtain ⟨sub, order, -⟩ := grant.order.freeBlocks_spec
  obtain ⟨cleared, same⟩ := grant.order.clear ht used room
  have usable := cleared.toNat_usableSize ht
  have zeros := k.memory.readBytes_clear t.block.address (.ofNat (count.toNat * size.toNat))
  rw [word] at room same zeros
  rw [allocateZeroed_of_ok fits outcome, outcome, grant.order.blocks_eq]
  exact ⟨(Nat.le_sub_of_add_le room).trans_eq usable.symm, zeros, rfl, cleared.shows sub order,
    same⟩

/-- Every heap in order clears what is asked for. -/
theorem clears (ord : h.InOrder es xs) (count size : Word) : h.Clears count size := by
  by_cases small : count.toNat * size.toNat ≤ UInt64.size - 32
  · have fits := Word.product_lt small
    have word := UInt64.toNat_ofNat_of_lt' fits
    refine ⟨?_, fun n => ?_, fun large => absurd small (Nat.not_le.mpr large),
      fun _ => reply_allocateZeroed fits, fun b ok => ord.clears_granted rfl fits ok⟩
    · rw [reply_allocateZeroed fits, allocate_eq_none_iff, ← UInt64.toNat_inj, word,
        UInt64.toNat_zero]
    · rw [reply_allocateZeroed fits, allocate_eq_tooLarge_iff ord.sane, word]
      omega
  · have large : UInt64.size - 32 < count.toNat * size.toNat := Nat.not_le.mp small
    have word : (UInt64.ofNat (min (count.toNat * size.toNat) (UInt64.size - 1))).toNat
        = min (count.toNat * size.toNat) (UInt64.size - 1) :=
      UInt64.toNat_ofNat_of_lt' (Nat.lt_of_le_of_lt (Nat.min_le_right _ _) (by decide))
    have refused := allocateZeroed_of_large (h := h) large
    refine ⟨?_, fun n => ?_, fun _ => by rw [refused], fun le => absurd le small,
      fun b ok => ?_⟩ <;> rw [refused] at *
    · simp only [reduceCtorEq, false_iff]
      omega
    · simp only [Except.error.injEq, Refusal.tooLarge.injEq, ← UInt64.toNat_inj, word, large,
        true_and, eq_comm]
    · cases ok

end InOrder

end Heap

namespace Session

variable {chunk : Word} {region : Region} {memory : Memory} {rs : List Request}

/-- In every heap that a session leads to, whatever is left behind in its free blocks, a request for
a cleared block is one for the exact product of its numbers. It is refused where no block can hold
that many bytes, also where no word can. Otherwise it does the same as a request for a block that is
not cleared, but for the bytes that it clears.
-/
theorem clearing_of_legal (begins : Begins chunk region memory)
    (legal : (start chunk region memory).Legal rs) {h : Heap}
    (same : ((start chunk region memory).run rs).heap.SameOffStale h) (count size : Word)
    : h.Clears count size := by
  obtain ⟨es, xs, coherent⟩ := begins.coherent_run legal
  exact (coherent.order.of_stale same).clears count size

/-- After the sample session, the only free block is handed out for five elements of eight bytes.
What it held behind its links is gone then. A product beyond all words is refused.
-/
theorem clearing_sample
    : let h := ((start 256 sampleRegion sampleMemory).run sampleRequests).heap
      let k : Heap := { h with memory := h.memory.writeBytes 4360 (List.replicate 32 255) }
      Begins 256 sampleRegion sampleMemory
      ∧ (start 256 sampleRegion sampleMemory).Legal sampleRequests
      ∧ h.SameOffStale k
      ∧ (k.allocate 40).2.memory.readBytes 4360 24 = List.replicate 24 255
      ∧ (k.allocateZeroed 5 8).1 = .ok (some ⟨4344⟩)
      ∧ (k.allocateZeroed 5 8).2.memory.readBytes 4344 40 = List.replicate 40 0
      ∧ k.allocateZeroed 4294967296 4294967296 = (.error (.tooLarge Word.greatest), k) := by
  intro h k
  have figures : (k.allocate 40).2.memory.readBytes 4360 24 = List.replicate 24 255
      ∧ (k.allocate 40).1 = .ok (some ⟨4344⟩) := by
    decide +kernel
  obtain ⟨before, reply⟩ := figures
  have same : h.SameOffStale k := by
    refine ⟨rfl, (h.memory.sameOff_writeBytes 4360 _ (by simp [UInt64.size])).mono ?_⟩
    intro x hx
    exact ⟨⟨⟨4344⟩, ⟨64, by decide⟩, false⟩, by simp [h, blocks_sample], rfl, hx⟩
  have clears := clearing_of_legal begins_sample legal_sample same
  have ok : (k.allocateZeroed 5 8).1 = .ok (some ⟨4344⟩) :=
    ((clears 5 8).reply (by decide)).trans reply
  have zeros := ((clears 5 8).granted _ ok).2.1
  have exceeds := clears 4294967296 4294967296
  have refused := (exceeds.tooLarge Word.greatest).mpr ⟨by decide, by decide⟩
  exact ⟨begins_sample, legal_sample, same, before, ok, zeros,
    Prod.ext refused (exceeds.unchanged (by decide))⟩

end Session

end BoundaryTag
