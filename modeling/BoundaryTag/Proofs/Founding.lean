import BoundaryTag.Proofs.Growth
import BoundaryTag.Proofs.Verdicts

/-! When a heap can be set up, and what an audit says of a new one. The chunk size is the one figure
that is rounded without a check. Where that has room to round up, a new heap has nothing wrong with
it; where it has not, no chunk is left and the heap is set up all the same.
-/

namespace BoundaryTag

namespace Heap

variable {chunk : Word} {settings : Settings} {region : Region} {memory : Memory}

/-- Setting a heap up fails only for want of room, and says so. -/
theorem create_ok_or_error (settings : Settings) (region : Region) (memory : Memory)
    : (create settings region memory).1 = .ok ()
      ∨ ∃ e, (create settings region memory).1 = .error (.noRoomToStart e) := by
  rcases create_cases settings region memory with ⟨-, made⟩ | ⟨-, -, made⟩ | ⟨-, -, made⟩ <;>
    rw [made]
  · exact Or.inr ⟨_, rfl⟩
  · exact Or.inr ⟨_, rfl⟩
  · exact Or.inl rfl

/-- The room that is left for the first chunk once a heap has its ends. -/
theorem toNat_available_bare (settings : Settings) (memory : Memory) (sane : region.Sane)
    (enough : sentinelSize.word ≤ region.available)
    : (bare settings region memory).region.available.toNat + 32 = region.available.toNat := by
  have within := UInt64.le_iff_toNat_le.mp enough
  rw [region_bare, (sane.advance enough).toNat_available, sane.toNat_used_advance enough]
  rw [sane.toNat_available, toNat_sentinelSize] at within ⊢
  simp only [Region.advance]
  omega

/-- A heap can be set up where there is room for both of its ends and a chunk between them. -/
theorem create_eq_ok_iff (sane : region.Sane)
    : (create settings region memory).1 = .ok ()
      ↔ 32 + settings.chunkSize.toNat ≤ region.available.toNat := by
  have ends := toNat_sentinelSize
  rcases create_cases settings region memory with
    ⟨short, made⟩ | ⟨enough, cramped, made⟩ | ⟨enough, room, made⟩ <;>
    rw [made]
  · rw [UInt64.lt_iff_toNat_lt] at short
    simp only [reduceCtorEq, false_iff]
    omega
  · have left := toNat_available_bare settings memory sane enough
    rw [UInt64.lt_iff_toNat_lt] at cramped
    simp only [reduceCtorEq, false_iff, Size.toNat]
    omega
  · have left := toNat_available_bare settings memory sane enough
    rw [UInt64.le_iff_toNat_le] at room
    simp only [true_iff, Size.toNat]
    omega

/-- A new heap goes on in the region that it was set up in. -/
theorem start_create (settings : Settings) (region : Region) (memory : Memory)
    : (create settings region memory).2.region.start = region.start := by
  rcases create_cases settings region memory with ⟨-, made⟩ | ⟨-, -, made⟩ | ⟨-, -, made⟩ <;>
    rw [made]
  · rw [unformatted]
  · simp only [region_bare, Region.advance]
  · simp only [region_note, region_grown, region_bare, Region.advance]

/-- An audit finds nothing wrong with a new heap whose chunk has room for a block. -/
theorem violations_create (sane : region.Sane) (aligned : region.frontier.toNat % 16 = 0)
    (chunk : 32 ≤ settings.chunkSize.toNat)
    (created : (create settings region memory).1 = .ok ())
    : (create settings region memory).2.violations = [] := by
  obtain ⟨ord, prologue, -⟩ := inOrder_create sane chunk created
  have start := start_create settings region memory
  have frontier := sane.toNat_frontier
  have floor := ord.settled.floor
  have room : (Word.width + Word.width).toNat = 16 := rfl
  have place := congrArg (fun b : Block => b.address.toNat) prologue
  simp only [UInt64.toNat_add, room] at place
  have top := region.frontier.toNat_lt_size
  simp only [UInt64.size] at top
  have low : (create settings region memory).2.region.start.toNat + 8
      ≤ (create settings region memory).2.prologue.address.toNat := by
    rw [start]
    omega
  have even : (create settings region memory).2.prologue.address.toNat % 16 = 0 := by
    omega
  exact (ord.intact low even).violations_eq (ord.placed low even)

-----------------------------------------------------------------------------------------
-- Safety of new heaps
-----------------------------------------------------------------------------------------

/-- Whatever the memory holds, a heap behind an aligned address with a chunk that can be rounded up
is set up with such a chunk and with nothing wrong, or fails for want of room. In either case only
those bytes have changed that were handed out for it.
-/
theorem clean_create (rounds : chunk ≤ Size.greatest.word) (sane : region.Sane)
    (aligned : region.frontier.toNat % 16 = 0)
    : ((region.available.toNat < 32 + (Settings.ofChunkSize chunk).chunkSize.toNat
          ∧ ∃ e, (create (.ofChunkSize chunk) region memory).1 = .error (.noRoomToStart e))
        ∨ ((create (.ofChunkSize chunk) region memory).1 = .ok ()
          ∧ (create (.ofChunkSize chunk) region memory).2.settings.chunkSize.toNat % 16 = 0
          ∧ max chunk.toNat 32
            ≤ (create (.ofChunkSize chunk) region memory).2.settings.chunkSize.toNat
          ∧ (create (.ofChunkSize chunk) region memory).2.violations = []))
      ∧ memory.SameOff
          (Word.span region.frontier.toNat
            (create (.ofChunkSize chunk) region memory).2.region.frontier.toNat)
          (create (.ofChunkSize chunk) region memory).2.memory := by
  have covered := Settings.le_chunkSize_iff.mpr rounds
  have room := Settings.toNat_ofChunkSize rounds
  refine ⟨?_, sameOff_create memory sane room⟩
  rcases create_ok_or_error (.ofChunkSize chunk) region memory with created | refused
  · right
    have settings := (inOrder_create sane room created).2.2
    refine ⟨created, Size.toNat_mod _, ?_, violations_create sane aligned room created⟩
    rw [settings]
    exact covered
  · left
    refine ⟨?_, refused⟩
    by_contra enough
    have created : (create (.ofChunkSize chunk) region memory).1 = .ok () :=
      (create_eq_ok_iff sane).mpr (Nat.le_of_not_lt enough)
    obtain ⟨e, failed⟩ := refused
    cases created.symm.trans failed

/-- A chunk of 100 bytes makes a new heap in which an audit finds nothing. -/
theorem clean_create_hundred
    : 100 ≤ Size.greatest.word ∧ (⟨0x1000, 16, 4096⟩ : Region).Sane
      ∧ (⟨0x1000, 16, 4096⟩ : Region).frontier.toNat % 16 = 0
      ∧ (create (.ofChunkSize 100) ⟨0x1000, 16, 4096⟩ .zeros).1 = .ok ()
      ∧ (create (.ofChunkSize 100) ⟨0x1000, 16, 4096⟩ .zeros).2.violations = [] := by
  have rounds : 100 ≤ Size.greatest.word := by decide
  have sane : (⟨0x1000, 16, 4096⟩ : Region).Sane := ⟨by decide, by decide⟩
  have aligned : (⟨0x1000, 16, 4096⟩ : Region).frontier.toNat % 16 = 0 := by decide
  have created : (create (.ofChunkSize 100) ⟨0x1000, 16, 4096⟩ .zeros).1 = .ok () := by
    decide +kernel
  refine ⟨rounds, sane, aligned, created, ?_⟩
  obtain ⟨⟨-, e, refused⟩ | ⟨-, -, -, clean⟩, -⟩ := clean_create rounds sane aligned
  · cases created.symm.trans refused
  · exact clean

end Heap

-----------------------------------------------------------------------------------------
-- Chunks that cannot be rounded up
-----------------------------------------------------------------------------------------

namespace Block

/-- A block of no size has its footer where a block below it has its own. -/
theorem footerFor_zero (b : Block)
    : b.footerFor Size.zero.word = b.address - Size.overhead.word := by
  show b.address + (0 - Size.overhead.word) = _
  rw [UInt64.zero_sub, ← UInt64.sub_eq_add_neg]

/-- The header of a block and the footer of a block below it share no byte. -/
theorem header_apart (b : Block)
    : 8 ≤ (b.header - (b.address - Size.overhead.word)).toNat
      ∧ 8 ≤ (b.address - Size.overhead.word - b.header).toNat := by
  have high := b.address.toNat_lt
  simp only [header, Word.width, Size.overhead, UInt64.toNat_sub, UInt64.reduceToNat]
  omega

/-- The tags of a block of no size hold their own words, and the footer that of a block below. -/
theorem writeTags_empty (b : Block) (m : Memory)
    : b.tag (b.writeTags m Size.zero false) = Tag.pack Size.zero false
      ∧ (b.writeTags m Size.zero false).readWord (b.address - Size.overhead.word) = 0 := by
  have apart := b.header_apart
  have written : (Tag.pack Size.zero false).raw = 0 := rfl
  rw [tag, writeTags, footerFor_zero, writeHeader, Memory.readWord_writeWord,
    Memory.readWord_writeWord_of_apart _ _ apart.1 apart.2, Memory.readWord_writeWord]
  exact ⟨rfl, written⟩

/-- From a header without a size the way up leads nowhere. -/
theorem above_eq_self {b : Block} {m : Memory} (none : b.size m = Size.zero) : b.above m = b := by
  rw [above, none, offset]
  exact congrArg Block.mk (UInt64.add_zero b.address)

end Block

namespace Pool

variable {p : Pool} {b : Block}

/-- Where the end of a heap stands above a footer of no size, it is taken for both neighbours of
itself, so that nothing is merged.
-/
theorem merge_empty (header : b.tag p.memory = Heap.epilogueTag)
    (footer : p.memory.readWord (b.address - Size.overhead.word) = 0)
    : (p.merge b).2 = (p.writeTags b Size.zero false).insert b := by
  have size : b.size p.memory = Size.zero := by
    rw [Block.size, header, Heap.epilogueTag, Tag.size_pack]
  have used : b.allocated p.memory = true := by
    rw [Block.allocated, header, Heap.epilogueTag, Tag.allocated_pack]
  have below : b.below p.memory = b := by
    rw [Block.below, footer]
    exact congrArg Block.mk (UInt64.sub_zero b.address)
  rw [merge, Block.above_eq_self size, below, used, size]

/-- Listing an empty block as the only one leaves a zero in place of the footer below it, and
another one for the link to its predecessor.
-/
theorem readWord_insert_empty (head : p.head = none) (roomy : b.HasLinks)
    (low : 16 ≤ b.address.toNat)
    : ((p.writeTags b Size.zero false).insert b).memory.readWord
          (b.address - Size.overhead.word) = 0
      ∧ ((p.writeTags b Size.zero false).insert b).memory.readWord b.address = 0 := by
  have unlisted : (p.writeTags b Size.zero false).head = none := by
    simp only [writeTags, head]
  have lists : (p.writeTags b Size.zero false).Lists [] := ⟨unlisted, trivial, by simp, .nil⟩
  have limit := roomy.2
  constructor
  · have below : (b.address - Size.overhead.word).toNat = b.address.toNat - 16 :=
      UInt64.toNat_sub_of_le _ _ (UInt64.le_iff_toNat_le.mpr low)
    rw [(lists.sameOff_insert roomy).readWord_eq (by omega) ?_]
    · exact (b.writeTags_empty p.memory).2
    · rintro x ⟨c, member, link⟩ here
      obtain rfl : c = b := by simpa using member
      rw [Block.links, Word.mem_span] at link
      rw [Word.mem_span] at here
      omega
  · have first := (lists.insert roomy (by simp)).linked.1
    by_contra other
    simp [Block.predecessor, Block.predecessorSlot, Link.ofWord, other] at first

end Pool

namespace Heap

variable {chunk : Word} {region : Region} {memory : Memory}

/-- Growing a heap by no bytes lists an empty block at its end. -/
theorem grown_zero (h : Heap)
    : ∃ p : Pool, p.head = h.head
        ∧ (h.grown Size.zero).2.toPool
          = (p.writeTags ⟨h.region.frontier⟩ Size.zero false).insert ⟨h.region.frontier⟩ := by
  obtain ⟨b, hb⟩ : ∃ b : Block, b = ⟨h.region.frontier⟩ := ⟨_, rfl⟩
  obtain ⟨header, footer⟩ := b.writeTags_empty h.memory
  have self : b.above (b.writeTags h.memory Size.zero false) = b := by
    apply Block.above_eq_self
    rw [Block.size, header, Tag.size_pack]
  have apart := b.header_apart
  have kept : (b.writeHeader (b.writeTags h.memory Size.zero false) epilogueTag).readWord
      (b.address - Size.overhead.word) = 0 := by
    rw [Block.writeHeader, Memory.readWord_writeWord_of_apart _ _ apart.2 apart.1, footer]
  obtain ⟨p, hp⟩ : ∃ p : Pool, p = { h.toPool with
      memory := b.writeHeader (b.writeTags h.memory Size.zero false) epilogueTag } :=
    ⟨_, rfl⟩
  have merged : (p.merge b).2 = (p.writeTags b Size.zero false).insert b := by
    apply Pool.merge_empty
    · rw [hp, Block.tag_writeHeader]
    · rw [hp, kept]
  refine ⟨p, by rw [hp], ?_⟩
  simp only [Heap.grown, Heap.withPool, ← hb, self, ← hp, merged]

/-- The block at the low end of a heap without any other lies right below the high end. -/
theorem prologue_bare_eq (settings : Settings) (memory : Memory) (sane : region.Sane)
    (enough : sentinelSize.word ≤ region.available)
    : (bare settings region memory).region.frontier.toNat = region.frontier.toNat + 32
      ∧ (bare settings region memory).prologue.address
        = (bare settings region memory).region.frontier - Size.overhead.word := by
  have two : (Word.width + Word.width).toNat = 16 := rfl
  have tags : Size.overhead.word.toNat = 16 := rfl
  have moved := toNat_frontier_ends sane enough
  have top := (region.advance sentinelSize.word).frontier.toNat_lt_size
  have below : ((region.advance sentinelSize.word).frontier - Size.overhead.word).toNat
      = (region.advance sentinelSize.word).frontier.toNat - 16 :=
    UInt64.toNat_sub_of_le _ _ (UInt64.le_iff_toNat_le.mpr (by omega))
  simp only [UInt64.size] at top
  rw [region_bare, prologue_bare, ← UInt64.toNat_inj, below, UInt64.toNat_add, two]
  omega

/-- With a chunk that cannot be rounded up, a heap is set up wherever its two ends have room. It has
no chunk, an audit finds it damaged, and it has written into bytes that nobody has handed out.
-/
theorem damaged_create (wraps : Size.greatest.word < chunk) (sane : region.Sane)
    (aligned : region.frontier.toNat % 16 = 0) (room : 32 ≤ region.available.toNat)
    : (create (.ofChunkSize chunk) region memory).1 = .ok ()
      ∧ (create (.ofChunkSize chunk) region memory).2.settings.chunkSize = Size.zero
      ∧ (create (.ofChunkSize chunk) region memory).2.violations ≠ []
      ∧ (create (.ofChunkSize chunk) region memory).2.memory.readWord
          (create (.ofChunkSize chunk) region memory).2.region.frontier = 0 := by
  have none_left := Settings.chunkSize_eq_zero wraps
  have enough : sentinelSize.word ≤ region.available := UInt64.le_iff_toNat_le.mpr room
  obtain ⟨frontier, prologue⟩ := prologue_bare_eq (.ofChunkSize chunk) memory sane enough
  obtain ⟨h, hh⟩ : ∃ h, h = bare (.ofChunkSize chunk) region memory := ⟨_, rfl⟩
  rw [← hh] at frontier prologue
  have head : h.head = none := by
    rw [hh, bare, (parts_writeSentinels _).1, unformatted]
  have roomy : Block.HasLinks ⟨h.region.frontier⟩ := by
    have top := h.region.frontier.toNat_lt_size
    simp only [Block.HasLinks, UInt64.size] at top ⊢
    omega
  obtain ⟨p, unlisted, grown⟩ := h.grown_zero
  obtain ⟨footer, beyond⟩ := Pool.readWord_insert_empty (unlisted.trans head) roomy
    (by simp only; omega)
  rw [← grown] at footer beyond
  rw [create_eq_of_room enough (by rw [none_left]; exact UInt64.zero_le), none_left, ← hh]
  refine ⟨rfl, ?_, ?_, ?_⟩
  · simp only [note, settings_grown]
    rw [hh, settings_bare, none_left]
  · intro clean
    have written := (prologueIntact_iff.mp (violations_eq_nil_iff_walks.mp clean).1).2
    simp only [note, prologue_grown] at written
    rw [prologue, footer] at written
    cases written
  · have still : (h.region.advance Size.zero.word).frontier = h.region.frontier := by
      rw [Region.frontier, Region.advance, Size.zero, UInt64.add_zero, Region.frontier]
    simp only [note, region_grown, still]
    exact beyond

/-- The greatest chunk makes a new heap with a chunk of no bytes and a damaged low end, and a byte
behind what the region has handed out changes.
-/
theorem damaged_create_greatest
    : (⟨0x1000, 0, 4096⟩ : Region).Sane ∧ (⟨0x1000, 0, 4096⟩ : Region).frontier.toNat % 16 = 0
      ∧ ∃ h, create (.ofChunkSize .greatest) ⟨0x1000, 0, 4096⟩ (.untouched fun _ => 255)
          = (.ok (), h)
        ∧ h.settings.chunkSize = Size.zero
        ∧ h.violations ≠ []
        ∧ h.region.frontier = 4128
        ∧ h.memory.byte 4128 ≠ 255 :=
  ⟨⟨by decide, by decide⟩, by decide, _, Prod.ext (by decide +kernel) rfl, by decide +kernel,
    by decide +kernel, by decide +kernel, by decide +kernel⟩

end Heap

end BoundaryTag
