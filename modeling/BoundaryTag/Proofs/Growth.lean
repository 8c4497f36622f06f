import BoundaryTag.Heap.Growth
import BoundaryTag.Proofs.Freeing
import BoundaryTag.Region.Lemmas

/-! Growing at the high end: the new bytes follow the last extent, and take over its header from
the end of the heap. Setting a heap up is growing one that has nothing but its two ends.
-/

namespace BoundaryTag

namespace Block

/-- Writing the header of a block touches nothing else. -/
theorem sameOff_writeHeader {b : Block} (h : 8 ≤ b.address.toNat) (m : Memory) (t : Tag)
    : m.SameOff (Word.span (b.address.toNat - 8) b.address.toNat) (b.writeHeader m t) := by
  have hb := b.address.toNat_lt_size
  have header := toNat_header h
  apply (m.sameOff_writeWord _ (by omega)).mono
  intro x hx
  rw [Word.mem_span] at hx ⊢
  omega

end Block

namespace Settings

/-- A chunk is as large as was asked for, and large enough for a block, if it can be rounded up.
Otherwise it is smaller than what was asked for, since no size is that large.
-/
theorem le_chunkSize_iff {chunk : Word}
    : max chunk.toNat 32 ≤ (ofChunkSize chunk).chunkSize.toNat ↔ chunk ≤ Size.greatest.word := by
  have least : Size.minBlock.word.toNat = 32 := rfl
  rw [UInt64.le_iff_toNat_le, Size.toNat_word_greatest]
  constructor
  · intro covered
    have whole := (ofChunkSize chunk).chunkSize.toNat_mod
    have top := (ofChunkSize chunk).chunkSize.toNat_lt
    simp only [UInt64.size] at top ⊢
    omega
  · intro rounds
    rw [ofChunkSize]
    by_cases small : chunk < Size.minBlock.word
    · rw [UInt64.lt_iff_toNat_lt, least] at small
      rw [if_pos (UInt64.lt_iff_toNat_lt.mpr small), Size.toNat_minBlock]
      omega
    · have large := UInt64.le_iff_toNat_le.mp (UInt64.not_lt.mp small)
      simp only [if_neg small, Size.toNat_ceil rounds]
      omega

/-- A chunk that can be rounded up has room for a block. -/
theorem toNat_ofChunkSize {chunk : Word} (h : chunk ≤ Size.greatest.word)
    : 32 ≤ (ofChunkSize chunk).chunkSize.toNat := by
  have covered := le_chunkSize_iff.mpr h
  omega

/-- A chunk that cannot be rounded up becomes none at all. -/
theorem chunkSize_eq_zero {chunk : Word} (wraps : Size.greatest.word < chunk)
    : (ofChunkSize chunk).chunkSize = Size.zero := by
  have least : Size.minBlock.word.toNat = 32 := rfl
  have step : (alignment - 1).toNat = 15 := rfl
  have top := chunk.toNat_lt_size
  rw [UInt64.lt_iff_toNat_lt, Size.toNat_word_greatest] at wraps
  simp only [UInt64.size] at wraps top
  have large : ¬ chunk < Size.minBlock.word := by
    rw [UInt64.lt_iff_toNat_lt, least]
    omega
  apply Size.ext
  simp only [ofChunkSize, if_neg large, Size.ceil, Size.toNat_floor, UInt64.toNat_add, step,
    Size.toNat_zero]
  omega

end Settings

namespace Pool.Laid

variable {p q : Pool} {low top top' : Block} {es : List Extent} {xs : List Block} {e : Extent}

/-- A new extent takes the place of the end of a layout, which moves up behind it. -/
theorem extend (h : p.Laid low es top xs) (hblock : e.block = top) (room : 32 ≤ e.size.toNat)
    (hstop : e.stop = top'.address.toNat) (head : q.head = p.head)
    (hq : q.memory = top'.writeHeader (e.block.writeTags p.memory e.size e.allocated)
      Heap.epilogueTag)
    : q.Laid low (es ++ [e]) top' xs
      ∧ p.memory.SameOff (Word.span (top.address.toNat - 8) top'.address.toNat) q.memory := by
  have hfloor := h.floor
  have hle := h.tiles.le
  have high := top'.address.toNat_lt_size
  have hstart : e.start = top.address.toNat := by rw [Extent.start, hblock]
  have hsize : e.start + e.size.toNat = top'.address.toNat := hstop
  have fits : e.Fits := ⟨by omega, by omega, by omega⟩
  have tags := fits.sameOff_writeTags p.memory
  have tagged := fits.tagged_writeTags p.memory
  have closed := Block.sameOff_writeHeader (b := top') (by omega)
    (e.block.writeTags p.memory e.size e.allocated) Heap.epilogueTag
  rw [← hq] at closed
  have same : p.memory.SameOff (Word.span (top.address.toNat - 8) top'.address.toNat)
      q.memory := by
    apply (tags.mono ?_).trans (closed.mono ?_)
    · intro x hx
      simp only [Extent.tagBytes, Set.mem_union, Word.mem_span] at hx ⊢
      omega
    · intro x hx
      rw [Word.mem_span] at hx ⊢
      omega
  refine ⟨⟨h.floor, ?_, ?_, ?_, ?_, ?_, ?_⟩, same⟩
  · exact tiles_append.mpr ⟨top.address.toNat, h.tiles, hstart, room, hstop⟩
  · intro f hf
    rcases List.mem_append.mp hf with hf | hf
    · have hbounds := h.bounds hf
      apply (h.tagged f hf).sameOff (h.fits hf) same
      intro x hx htag
      simp only [Extent.tagBytes, Extent.stop, Set.mem_union, Word.mem_span]
        at hx htag hbounds
      omega
    · rw [List.mem_singleton.mp hf]
      apply tagged.sameOff fits closed
      intro x hx htag
      simp only [Extent.tagBytes, Set.mem_union, Word.mem_span] at hx htag
      omega
  · apply h.bottom.sameOff h.bottom_fits same
    intro x hx htag
    rw [Extent.tagBytes, sentinel_stop, Set.mem_union, Word.mem_span, Word.mem_span] at htag
    simp only [Extent.start, sentinel, Word.mem_span] at htag hx
    omega
  · rw [hq, Block.tag_writeHeader]
  · apply h.lists.sameOff head same
    intro b hb x hx hlink
    obtain ⟨f, hf, rfl, -⟩ := h.free b hb
    have hbounds := h.bounds hf
    simp only [Block.links, Extent.stop, Extent.start, Word.mem_span] at hx hlink hbounds
    omega
  · intro b hb
    obtain ⟨f, hf, rest⟩ := h.free b hb
    exact ⟨f, List.mem_append_left _ hf, rest⟩

end Pool.Laid

/-- The site of a new extent at the high end of a layout. -/
def Site.atTop (left : List Extent) (lower : Option Extent) (b : Block) (size : Size) : Site where
  left := left
  lower := lower
  here := ⟨b, size, false⟩
  upper := none
  right := []

/-- The extents of a site at the high end are those to its left, the lower neighbour if there is
one, and a free one.
-/
theorem Site.extents_atTop (left : List Extent) (lower : Option Extent) (b : Block) (size : Size)
    : (Site.atTop left lower b size).extents = left ++ lower.toList ++ [⟨b, size, false⟩] := by
  simp [Site.extents_eq, Site.atTop]

namespace Pool.Settled

variable {p q : Pool} {low top top' : Block} {es : List Extent} {xs : List Block} {size : Size}

/-- New bytes at the high end of a settled layout stand above the gap below them, if there is one.
-/
theorem exists_atTop (h : p.Settled low es top xs) (room : 32 ≤ size.toNat)
    (hstop : top.address.toNat + size.toNat = top'.address.toNat) (head : q.head = p.head)
    (hq : q.memory = top'.writeHeader (top.writeTags p.memory size false) Heap.epilogueTag)
    : ∃ left lower, es = left ++ lower.toList
        ∧ (Site.atTop left lower top size).Enclosed
        ∧ q.Laid low (Site.atTop left lower top size).extents top' xs
        ∧ p.memory.SameOff (Word.span (top.address.toNat - 8) top'.address.toNat) q.memory := by
  obtain ⟨laid, same⟩ := h.toLaid.extend (e := ⟨top, size, false⟩) rfl room hstop head hq
  obtain ⟨left, lower, rfl, lower_free, left_used⟩ := h.alternating.exists_lower
  have enclosed : (Site.atTop left lower top size).Enclosed :=
    ⟨⟨lower_free, by simp [Site.atTop]⟩, left_used, by simp [Site.atTop]⟩
  rw [← Site.extents_atTop] at laid
  exact ⟨left, lower, rfl, enclosed, laid, same⟩

/-- New bytes at the high end of a settled layout are merged with the gap below them. -/
theorem extend (h : p.Settled low es top xs) (room : 32 ≤ size.toNat)
    (hstop : top.address.toNat + size.toNat = top'.address.toNat) (head : q.head = p.head)
    (hq : q.memory = top'.writeHeader (top.writeTags p.memory size false) Heap.epilogueTag)
    : ∃ left lower, es = left ++ lower.toList
        ∧ (Site.atTop left lower top size).Enclosed
        ∧ size ≤ (Site.atTop left lower top size).joined.size
        ∧ (q.merge top).1 = (Site.atTop left lower top size).joined.block
        ∧ (q.merge top).2.Settled low (left ++ [(Site.atTop left lower top size).joined]) top'
            ((Site.atTop left lower top size).joined.block :: eraseGap xs lower)
        ∧ p.memory.SameOff
            (vacant es ∪ Word.span (top.address.toNat - 8) top'.address.toNat)
            (q.merge top).2.memory := by
  obtain ⟨left, lower, rfl, enclosed, laid, same⟩ := h.exists_atTop room hstop head hq
  refine ⟨left, lower, rfl, enclosed, ?_⟩
  have unlisted : top ∉ xs := by
    intro hmem
    obtain ⟨f, hf, hblock, -⟩ := h.free top hmem
    have hbounds := h.bounds hf
    simp only [Extent.stop, Extent.start, hblock] at hbounds
    omega
  have complete := h.complete
  have lower_free : ∀ e ∈ lower, e.allocated = false := enclosed.lower_free
  rw [gaps_append, gaps_toList lower_free] at complete
  have grows := Site.here_le_joined laid
  obtain ⟨merged, settled, touched⟩ := Site.settle laid enclosed rfl unlisted
    (by simpa [Site.atTop] using complete)
    ⟨(alternating_append.mp h.alternating).1, by simp [Site.atTop, Alternating]⟩
  have here : (Site.atTop left lower top size).here.block = top := by simp only [Site.atTop]
  have parts : (Site.atTop left lower top size).left
        ++ [(Site.atTop left lower top size).joined] ++ (Site.atTop left lower top size).right
      = left ++ [(Site.atTop left lower top size).joined] := by
    simp only [Site.atTop, List.append_nil]
  have unlist : (Site.atTop left lower top size).unlist xs = eraseGap xs lower := by
    simp only [Site.unlist, Site.atTop, eraseGap, Option.elim]
  rw [here] at merged settled touched
  rw [parts, unlist] at settled
  refine ⟨grows, merged, settled, ?_⟩
  apply (same.mono Set.subset_union_right).trans (touched.mono ?_)
  intro x member
  obtain ⟨f, hf, free, hx⟩ := member
  rw [Site.extents_atTop] at hf
  rcases List.mem_append.mp hf with hf | hf
  · exact Or.inl ⟨f, hf, free, hx⟩
  · right
    rw [List.mem_singleton.mp hf] at hx
    simp only [Extent.covered, Extent.stop, Extent.start, Word.mem_span] at hx ⊢
    omega

end Pool.Settled

namespace Heap

/-- A heap in order: its layout is settled and reaches up to the frontier of its region, whose
addresses do not wrap, and a chunk has room for a block.
-/
structure InOrder (h : Heap) (es : List Extent) (xs : List Block) : Prop where
  settled : h.toPool.Settled h.prologue es ⟨h.region.frontier⟩ xs
  sane : h.region.Sane
  chunk : 32 ≤ h.settings.chunkSize.toNat

/-- A heap whose pool alone was changed, in its memory and list, is in order if the new pool is
settled.
-/
theorem InOrder.withPool {h : Heap} {es es' : List Extent} {xs xs' : List Block} {p : Pool}
    (ord : h.InOrder es xs) (settled : p.Settled h.prologue es' ⟨h.region.frontier⟩ xs')
    : (h.withPool p).InOrder es' xs' :=
  ⟨settled, ord.sane, ord.chunk⟩

/-- The journal does not matter. -/
theorem InOrder.note {h : Heap} {es : List Extent} {xs : List Block} (ord : h.InOrder es xs)
    (event : Event)
    : (h.note event).InOrder es xs :=
  ⟨ord.settled, ord.sane, ord.chunk⟩

/-- Noting an event leaves the memory. -/
theorem memory_note (h : Heap) (event : Event) : (h.note event).memory = h.memory := by
  simp only [note]

/-- Noting an event leaves the region. -/
theorem region_note (h : Heap) (event : Event) : (h.note event).region = h.region := by
  simp only [note]

/-- A heap that has grown, with the free block that holds the new bytes. -/
def grown (h : Heap) (size : Size) : Block × Heap :=
  let b : Block := ⟨h.region.frontier⟩
  let tagged := b.writeTags h.memory size false
  let region := h.region.advance size.word
  let pool : Pool := { h.toPool with memory := (b.above tagged).writeHeader tagged epilogueTag }
  ((pool.merge b).1,
    { h with region := region }.note (.grown size region.frontier) |>.withPool (pool.merge b).2)

/-- A heap cannot grow by more than its region has left. -/
theorem grow_eq_error (h : Heap) {size : Size} (short : h.region.available < size.word)
    : h.grow size = .error ⟨size.word, h.region.available⟩ := by
  have refused := Region.handOut_eq_error_iff.mpr ⟨short, rfl⟩
  simp only [grow, refused]
  rfl

/-- A heap can grow by what its region has left. -/
theorem grow_eq_ok (h : Heap) {size : Size} (enough : size.word ≤ h.region.available)
    : h.grow size = .ok (h.grown size) := by
  have served := Region.handOut_eq_ok_iff.mpr ⟨enough, rfl, rfl⟩
  simp only [grow, served]
  rfl

/-- A heap that grows takes just that from its region. -/
theorem region_grown (h : Heap) (size : Size)
    : (h.grown size).2.region = h.region.advance size.word := by
  simp only [grown, withPool, note]

/-- A heap that grows keeps its low end. -/
theorem prologue_grown (h : Heap) (size : Size) : (h.grown size).2.prologue = h.prologue := by
  simp only [grown, withPool, note]

/-- A heap that grows keeps its settings. -/
theorem settings_grown (h : Heap) (size : Size) : (h.grown size).2.settings = h.settings := by
  simp only [grown, withPool, note]

/-- There is room for the tags of new bytes, which reach from the old frontier up to the new one. -/
theorem InOrder.fits_grown {h : Heap} {es : List Extent} {xs : List Block} (ord : h.InOrder es xs)
    {size : Size} (room : 32 ≤ size.toNat) (enough : size.word ≤ h.region.available) {top : Block}
    (htop : top = ⟨h.region.frontier⟩)
    : Extent.Fits ⟨top, size, false⟩
      ∧ top.above (top.writeTags h.memory size false)
        = ⟨(h.region.advance size.word).frontier⟩ := by
  have moved := ord.sane.toNat_frontier_advance enough
  have limit := (h.region.advance size.word).frontier.toNat_lt_size
  have hfloor := ord.settled.floor
  have hle := ord.settled.tiles.le
  simp only [Size.toNat] at hle room
  have low : top.address.toNat = h.region.frontier.toNat := by rw [htop]
  have fits : Extent.Fits ⟨top, size, false⟩ := by
    constructor <;> simp only [Extent.stop, Extent.start, Size.toNat] <;> omega
  refine ⟨fits, ?_⟩
  rw [(fits.tagged_writeTags h.memory).above_eq]
  apply Block.ext_toNat
  rw [Block.toNat_offset (by simp only [Size.toNat]; omega), moved, low, Size.toNat]

/-- Growing a heap in order merges the new bytes with the gap below them. It touches vacant bytes
and those from the old end of the heap up.
-/
theorem InOrder.grown {h : Heap} {es : List Extent} {xs : List Block} (ord : h.InOrder es xs)
    {size : Size} (room : 32 ≤ size.toNat) (enough : size.word ≤ h.region.available)
    : ∃ left lower, es = left ++ lower.toList
        ∧ (Site.atTop left lower ⟨h.region.frontier⟩ size).Enclosed
        ∧ size ≤ (Site.atTop left lower ⟨h.region.frontier⟩ size).joined.size
        ∧ (h.grown size).1 = (Site.atTop left lower ⟨h.region.frontier⟩ size).joined.block
        ∧ (h.grown size).2.InOrder
            (left ++ [(Site.atTop left lower ⟨h.region.frontier⟩ size).joined])
            ((Site.atTop left lower ⟨h.region.frontier⟩ size).joined.block :: eraseGap xs lower)
        ∧ h.memory.SameOff
            (vacant es ∪ Word.span (h.region.frontier.toNat - 8)
              (h.grown size).2.region.frontier.toNat)
            (h.grown size).2.memory := by
  have moved := ord.sane.toNat_frontier_advance enough
  obtain ⟨top, htop⟩ : ∃ b : Block, b = ⟨h.region.frontier⟩ := ⟨_, rfl⟩
  obtain ⟨top', htop'⟩ : ∃ b : Block, b = ⟨(h.region.advance size.word).frontier⟩ := ⟨_, rfl⟩
  have hstop : top.address.toNat + size.toNat = top'.address.toNat := by
    rw [htop, htop', moved, Size.toNat]
  have low : top.address.toNat = h.region.frontier.toNat := by rw [htop]
  have high : top'.address.toNat = (h.region.advance size.word).frontier.toNat := by rw [htop']
  have above := (ord.fits_grown room enough htop).2
  rw [← htop'] at above
  obtain ⟨q, hq⟩ : ∃ q : Pool, q = { h.toPool with
      memory := (top.above (top.writeTags h.memory size false)).writeHeader
        (top.writeTags h.memory size false) epilogueTag } :=
    ⟨_, rfl⟩
  have settled := ord.settled
  rw [← htop] at settled
  obtain ⟨left, lower, hes, enclosed, grows, merged, laid, same⟩ :=
    settled.extend (q := q) room hstop (by simp only [hq]) (by simp only [hq, above])
  have merged_eq : (h.grown size).1 = (q.merge top).1 := by
    simp only [Heap.grown, hq, htop]
  have pool_eq : (h.grown size).2.toPool = (q.merge top).2 := by
    simp only [Heap.grown, Heap.withPool, Heap.note, hq, htop]
  rw [← htop, region_grown]
  refine ⟨left, lower, hes, enclosed, grows, merged_eq.trans merged, ⟨?_, ?_, ?_⟩, ?_⟩
  · rw [pool_eq, prologue_grown, region_grown, ← htop']
    exact laid
  · rw [region_grown]
    exact ord.sane.advance enough
  · rw [settings_grown]
    exact ord.chunk
  · rw [pool_eq, ← low, ← high]
    exact same

-----------------------------------------------------------------------------------------
-- Setting a heap up
-----------------------------------------------------------------------------------------

/-- Writing both ends changes nothing but the memory. -/
theorem parts_writeSentinels (h : Heap)
    : h.writeSentinels.head = h.head ∧ h.writeSentinels.region = h.region
      ∧ h.writeSentinels.prologue = h.prologue ∧ h.writeSentinels.settings = h.settings := by
  simp only [writeSentinels, and_self]

/-- With both of its ends written, an empty heap is in order. Nothing else is touched. -/
theorem inOrder_writeSentinels {h : Heap} (sane : h.region.Sane)
    (chunk : 32 ≤ h.settings.chunkSize.toNat) (head : h.head = none)
    (floor : 16 ≤ h.prologue.address.toNat)
    (top : h.prologue.address.toNat + 16 = h.region.frontier.toNat)
    : h.writeSentinels.InOrder [] []
      ∧ h.memory.SameOff
          (Word.span (h.prologue.address.toNat - 16) h.region.frontier.toNat)
          h.writeSentinels.memory := by
  have limit := h.region.frontier.toNat_lt_size
  have fits : (sentinel h.prologue).Fits := by
    constructor <;> simp only [sentinel, Extent.stop, Extent.start, prologueSize,
      Size.toNat_overhead] <;> omega
  have padding : (h.prologue.address - (Word.width + Word.width)).toNat
      = h.prologue.address.toNat - 16 :=
    UInt64.toNat_sub_of_le _ _ (UInt64.le_iff_toNat_le.mpr floor)
  obtain ⟨m, hm⟩ : ∃ m, m = h.memory.writeWord (h.prologue.address - (Word.width + Word.width)) 0 :=
    ⟨_, rfl⟩
  have padded := h.memory.sameOff_writeWord
    (a := h.prologue.address - (Word.width + Word.width)) 0 (by omega)
  have tags := fits.sameOff_writeTags m
  have tagged := fits.tagged_writeTags m
  have above : h.prologue.above (h.prologue.writeTags m prologueSize true)
      = ⟨h.region.frontier⟩ := by
    apply Block.ext_toNat
    have hoffset : (h.prologue.offset prologueSize.word).address.toNat
        = h.prologue.address.toNat + prologueSize.toNat :=
      Block.toNat_offset (by simp only [prologueSize, Size.toNat_overhead]; omega)
    have above_eq := tagged.above_eq
    simp only [sentinel] at above_eq
    rw [above_eq, hoffset]
    exact top
  have closed := Block.sameOff_writeHeader (b := ⟨h.region.frontier⟩) (by simp only; omega)
    (h.prologue.writeTags m prologueSize true) epilogueTag
  have memory_eq : h.writeSentinels.memory
      = Block.writeHeader ⟨h.region.frontier⟩ (h.prologue.writeTags m prologueSize true)
          epilogueTag := by
    simp only [writeSentinels, ← hm, above]
  rw [← hm] at padded
  simp only [sentinel] at tags tagged
  rw [← memory_eq] at closed
  obtain ⟨head_eq, region_eq, prologue_eq, settings_eq⟩ := h.parts_writeSentinels
  have laid : h.writeSentinels.toPool.Laid h.prologue [] ⟨h.region.frontier⟩ [] := by
    refine ⟨floor, top, by simp, ?_, ?_, ⟨?_, trivial, by simp, .nil⟩, by simp⟩
    · apply tagged.sameOff fits closed
      intro x hx htag
      simp only [Extent.tagBytes, Extent.stop, Extent.start, prologueSize, Size.toNat_overhead,
        Set.mem_union, Word.mem_span] at hx htag
      omega
    · rw [memory_eq, Block.tag_writeHeader]
    · rw [head_eq, head, List.head?_nil]
  constructor
  · refine ⟨?_, ?_, ?_⟩
    · rw [prologue_eq, region_eq]
      exact ⟨laid, .nil, by simp [Alternating]⟩
    · rwa [region_eq]
    · rwa [settings_eq]
  · apply (padded.mono ?_).trans ((tags.mono ?_).trans (closed.mono ?_)) <;> intro x hx <;>
      simp only [Extent.tagBytes, Extent.stop, Extent.start, prologueSize, Size.toNat_overhead,
        Set.mem_union, Word.mem_span] at hx ⊢ <;>
      omega

/-- A new heap of which both ends are written. -/
def bare (settings : Settings) (region : Region) (memory : Memory) : Heap :=
  writeSentinels { unformatted settings region memory with
    region := region.advance sentinelSize.word }

variable {settings : Settings} {region : Region} {memory : Memory}

/-- Both ends of a heap take 32 bytes. -/
theorem toNat_sentinelSize : sentinelSize.word.toNat = 32 := rfl

/-- The chunk of a new heap begins behind the bytes that its ends take. -/
theorem toNat_frontier_ends (sane : region.Sane) (enough : sentinelSize.word ≤ region.available)
    : (region.advance sentinelSize.word).frontier.toNat = region.frontier.toNat + 32 := by
  rw [sane.toNat_frontier_advance enough, toNat_sentinelSize]

/-- Without room for its ends, a heap is not set up at all. -/
theorem create_eq_of_short (short : region.available < sentinelSize.word)
    : create settings region memory
      = (.error (.noRoomToStart ⟨sentinelSize.word, region.available⟩),
          unformatted settings region memory) := by
  have refused := Region.handOut_eq_error_iff.mpr ⟨short, rfl⟩
  simp only [create, format, unformatted, refused]

/-- The ends of a new heap are all that its region has handed out for it. -/
theorem region_bare (settings : Settings) (region : Region) (memory : Memory)
    : (bare settings region memory).region = region.advance sentinelSize.word := by
  rw [bare, (parts_writeSentinels _).2.1]

/-- The low end of a new heap lies two words behind the old frontier. -/
theorem prologue_bare (settings : Settings) (region : Region) (memory : Memory)
    : (bare settings region memory).prologue
      = ⟨region.frontier + (Word.width + Word.width)⟩ := by
  rw [bare, (parts_writeSentinels _).2.2.1, unformatted]

/-- A new heap has the settings that it is given. -/
theorem settings_bare (settings : Settings) (region : Region) (memory : Memory)
    : (bare settings region memory).settings = settings := by
  rw [bare, (parts_writeSentinels _).2.2.2, unformatted]

/-- Without room for its first chunk, a heap keeps its ends. -/
theorem create_eq_of_cramped (enough : sentinelSize.word ≤ region.available)
    (cramped : (bare settings region memory).region.available < settings.chunkSize.word)
    : create settings region memory
      = (.error (.noRoomToStart
            ⟨settings.chunkSize.word, (bare settings region memory).region.available⟩),
          bare settings region memory) := by
  have served := Region.handOut_eq_ok_iff.mpr ⟨enough, rfl, rfl⟩
  have chunk := settings_bare settings region memory
  have refused := grow_eq_error _ cramped
  rw [bare, unformatted] at chunk refused
  simp only [create, format, unformatted, served, chunk, bare, refused]

/-- With room for its ends and its first chunk, a heap is set up. -/
theorem create_eq_of_room (enough : sentinelSize.word ≤ region.available)
    (room : settings.chunkSize.word ≤ (bare settings region memory).region.available)
    : create settings region memory
      = (.ok (), ((bare settings region memory).grown settings.chunkSize).2.note
          (.formatted ((bare settings region memory).grown settings.chunkSize).2.region.start
            ((bare settings region memory).grown settings.chunkSize).2.region.frontier)) := by
  have served := Region.handOut_eq_ok_iff.mpr ⟨enough, rfl, rfl⟩
  have chunk := settings_bare settings region memory
  have grows := grow_eq_ok _ room
  rw [bare, unformatted] at chunk grows
  simp only [create, format, unformatted, served, chunk, bare, grows]

/-- Setting a heap up stops before its ends, stops behind them, or goes through. -/
theorem create_cases (settings : Settings) (region : Region) (memory : Memory)
    : (region.available < sentinelSize.word
        ∧ create settings region memory
          = (.error (.noRoomToStart ⟨sentinelSize.word, region.available⟩),
              unformatted settings region memory))
      ∨ (sentinelSize.word ≤ region.available
        ∧ (bare settings region memory).region.available < settings.chunkSize.word
        ∧ create settings region memory
          = (.error (.noRoomToStart
                ⟨settings.chunkSize.word, (bare settings region memory).region.available⟩),
              bare settings region memory))
      ∨ (sentinelSize.word ≤ region.available
        ∧ settings.chunkSize.word ≤ (bare settings region memory).region.available
        ∧ create settings region memory
          = (.ok (), ((bare settings region memory).grown settings.chunkSize).2.note
              (.formatted
                ((bare settings region memory).grown settings.chunkSize).2.region.start
                ((bare settings region memory).grown settings.chunkSize).2.region.frontier))) := by
  by_cases enough : sentinelSize.word ≤ region.available
  · right
    by_cases room : settings.chunkSize.word ≤ (bare settings region memory).region.available
    · exact Or.inr ⟨enough, room, create_eq_of_room enough room⟩
    · have cramped := UInt64.not_le.mp room
      exact Or.inl ⟨enough, cramped, create_eq_of_cramped enough cramped⟩
  · have short := UInt64.not_le.mp enough
    exact Or.inl ⟨short, create_eq_of_short short⟩

/-- A heap that was set up has been handed out its ends and its first chunk. -/
theorem region_create (created : (create settings region memory).1 = .ok ())
    : (create settings region memory).2.region
      = (region.advance sentinelSize.word).advance settings.chunkSize.word := by
  rcases create_cases settings region memory with ⟨-, made⟩ | ⟨-, -, made⟩ | ⟨-, -, made⟩ <;>
    rw [made] at created ⊢
  · cases created
  · cases created
  · rw [region_note, region_grown, region_bare]

/-- A heap that was set up has taken its ends and its first chunk. -/
theorem used_create (sane : region.Sane) (created : (create settings region memory).1 = .ok ())
    : (create settings region memory).2.region.used.toNat
      = region.used.toNat + 32 + settings.chunkSize.toNat := by
  rcases create_cases settings region memory with
    ⟨-, made⟩ | ⟨-, -, made⟩ | ⟨enough, room, made⟩ <;>
    rw [made] at created
  · cases created
  · cases created
  · rw [region_bare] at room
    rw [made, region_note, region_grown, region_bare, (sane.advance enough).toNat_used_advance room,
      sane.toNat_used_advance enough, toNat_sentinelSize]
    rfl

/-- The two ends of a new heap are in order, and take up all that was handed out for them. -/
theorem inOrder_bare (memory : Memory) (sane : region.Sane) (chunk : 32 ≤ settings.chunkSize.toNat)
    (enough : sentinelSize.word ≤ region.available)
    : (bare settings region memory).InOrder [] []
      ∧ memory.SameOff
          (Word.span region.frontier.toNat (region.advance sentinelSize.word).frontier.toNat)
          (bare settings region memory).memory := by
  have moved := toNat_frontier_ends sane enough
  have limit := (region.advance sentinelSize.word).frontier.toNat_lt_size
  have low : (region.frontier + (Word.width + Word.width)).toNat
      = region.frontier.toNat + 16 := by
    rw [UInt64.toNat_add]
    simp only [UInt64.size] at limit
    exact Nat.mod_eq_of_lt (by simp only [Word.width, UInt64.reduceAdd, UInt64.reduceToNat]; omega)
  obtain ⟨h, hh⟩ : ∃ h : Heap, h = { unformatted settings region memory with
      region := region.advance sentinelSize.word } :=
    ⟨_, rfl⟩
  have region_eq : h.region = region.advance sentinelSize.word := by rw [hh]
  have prologue_eq : h.prologue.address.toNat = region.frontier.toNat + 16 := by
    rw [hh]
    exact low
  have advanced : h.region.Sane := by
    rw [region_eq]
    exact sane.advance enough
  obtain ⟨ord, same⟩ := inOrder_writeSentinels advanced
    (by rw [hh]; exact chunk) (by rw [hh]; rfl) (by omega) (by rw [region_eq]; omega)
  rw [prologue_eq, region_eq, Nat.add_sub_cancel] at same
  rw [hh] at ord same
  exact ⟨ord, same⟩

/-- A heap that was set up is in order: it consists of one free block, the first chunk. -/
theorem inOrder_create (sane : region.Sane) (chunk : 32 ≤ settings.chunkSize.toNat)
    (created : (create settings region memory).1 = .ok ())
    : (create settings region memory).2.InOrder
          [⟨⟨(region.advance sentinelSize.word).frontier⟩, settings.chunkSize, false⟩]
          [⟨(region.advance sentinelSize.word).frontier⟩]
      ∧ (create settings region memory).2.prologue
          = ⟨region.frontier + (Word.width + Word.width)⟩
      ∧ (create settings region memory).2.settings = settings := by
  rcases create_cases settings region memory with
    ⟨-, made⟩ | ⟨-, -, made⟩ | ⟨enough, room, made⟩ <;>
    rw [made] at created ⊢
  · cases created
  · cases created
  · obtain ⟨ord, -⟩ := inOrder_bare memory sane chunk enough
    obtain ⟨left, lower, empty, -, -, -, grown, -⟩ := ord.grown chunk room
    obtain ⟨rfl, hlower⟩ := List.append_eq_nil_iff.mp empty.symm
    obtain rfl := Option.toList_eq_nil_iff.mp hlower
    have joined : (Site.atTop [] none ⟨(bare settings region memory).region.frontier⟩
        settings.chunkSize).joined
        = ⟨⟨(region.advance sentinelSize.word).frontier⟩, settings.chunkSize, false⟩ := by
      simp [Site.joined, Site.atTop, region_bare]
    have noted := grown.note (.formatted
      ((bare settings region memory).grown settings.chunkSize).2.region.start
      ((bare settings region memory).grown settings.chunkSize).2.region.frontier)
    rw [joined] at noted
    refine ⟨noted, ?_, ?_⟩
    · simp only [note, prologue_grown, prologue_bare]
    · simp only [note, settings_grown, settings_bare]

/-- Setting a heap up touches nothing but what was handed out for it, also where it fails. -/
theorem sameOff_create (memory : Memory) (sane : region.Sane)
    (chunk : 32 ≤ settings.chunkSize.toNat)
    : memory.SameOff
        (Word.span region.frontier.toNat
          (create settings region memory).2.region.frontier.toNat)
        (create settings region memory).2.memory := by
  rcases create_cases settings region memory with
    ⟨-, made⟩ | ⟨enough, -, made⟩ | ⟨enough, room, made⟩ <;>
    rw [made]
  · exact .refl _ _
  · simp only
    rw [region_bare]
    exact (inOrder_bare memory sane chunk enough).2
  · obtain ⟨ord, same⟩ := inOrder_bare memory sane chunk enough
    obtain ⟨-, -, -, -, -, -, -, touched⟩ := ord.grown chunk room
    have ends := toNat_frontier_ends sane enough
    have left := room
    rw [region_bare] at left
    have moved := (sane.advance enough).toNat_frontier_advance left
    rw [region_grown, region_bare] at touched
    simp only [region_note, memory_note, region_grown, region_bare]
    apply (same.mono ?_).trans (touched.mono ?_)
    · intro x hx
      rw [Word.mem_span] at hx ⊢
      omega
    · intro x member
      rcases member with ⟨f, hf, -⟩ | hx
      · simp at hf
      · rw [Word.mem_span] at hx ⊢
        omega

end Heap

end BoundaryTag
