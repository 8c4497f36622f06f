import BoundaryTag.Heap.Allocation
import BoundaryTag.Proofs.Trails
import BoundaryTag.Proofs.Walks

/-! What it says of a heap that an audit finds nothing, whatever its memory holds. The blocks then
lie side by side from one end of the heap to the other, with the same word at both ends of each, and
the free list is linked in both directions and has all the free ones. It need not be that the list
has no others: a member is looked at by itself, and words in the middle of a block can look like
one.
-/

namespace BoundaryTag

/-- Extents side by side begin and stop at numbers that leave the same remainder by the alignment.
-/
theorem Tiles.mod_eq {a z : Nat} {es : List Extent} (h : Tiles a es z)
    : z % 16 = a % 16 ∧ ∀ e ∈ es, e.start % 16 = a % 16 := by
  induction es generalizing a with
  | nil =>
      obtain rfl : a = z := h
      exact ⟨rfl, by simp⟩
  | cons e rest ih =>
      obtain ⟨rfl, -, tail⟩ := h
      have size := e.size.toNat_mod
      have same : e.stop % 16 = e.start % 16 := by
        simp only [Extent.stop]
        omega
      rw [← same]
      obtain ⟨last, others⟩ := ih tail
      exact ⟨last, List.forall_mem_cons.mpr ⟨same.symm, others⟩⟩

namespace Heap

/-- The block at the low end of a heap lies in the handed-out part of its region, which stops short
of the last addresses.
-/
structure Placed (h : Heap) : Prop where
  low : h.region.start.toNat + 8 ≤ h.prologue.address.toNat
  high : h.prologue.address.toNat + 8 ≤ h.region.frontier.toNat
  limit : h.region.frontier.toNat + 8 < UInt64.size

/-- A heap with the given blocks by address and the given members of its free list, as an undamaged
one has them. Members can be anything that looks free, not only blocks of the heap.
-/
structure Intact (h : Heap) (es : List Extent) (xs : List Block) : Prop where
  /-- Both tags of the block at the low end are as they were written. -/
  header : h.memory.readWord h.prologue.header = 17
  footer : h.memory.readWord h.prologue.address = 17
  /-- The blocks behind it lie side by side, and stop where the region has handed out no more. -/
  charted : Audit.Charted h.memory (h.prologue.address.toNat + 16) es ⟨h.region.frontier⟩
  /-- Each member leads to the next and back to the one before it, and none is there twice. -/
  head : h.head = xs.head?
  linked : Pool.Linked h.memory none xs none
  distinct : xs.Nodup
  /-- A member is aligned, its header and its links are in the region, and it is not allocated. -/
  held : ∀ b ∈ xs, b.address.toNat % 16 = 0 ∧ h.region.start.toNat + 8 ≤ b.address.toNat
    ∧ b.address.toNat + 16 ≤ h.region.frontier.toNat
  free : ∀ b ∈ xs, b.allocated h.memory = false
  /-- All free blocks are members. -/
  complete : gaps es ⊆ xs

variable {h : Heap} {es : List Extent} {xs : List Block}

/-- So the region begins short of the last addresses. -/
theorem Placed.toNat_start_add_lt (placed : h.Placed)
    : h.region.start.toNat + 8 < UInt64.size := by
  have low := placed.low
  have high := placed.high
  have limit := placed.limit
  omega

/-- The two tags of the block at the low end lie side by side. -/
theorem footerFor_prologueSize (b : Block) : b.footerFor prologueSize.word = b.address := by
  have nothing : prologueSize.word - Size.overhead.word = 0 := rfl
  rw [Block.footerFor, nothing, UInt64.add_zero]

/-- The header of the low end, as it was written, holds the size of two tags. -/
theorem size_prologue (header : h.memory.readWord h.prologue.header = 17)
    : h.prologue.size h.memory = prologueSize := by
  rw [Block.size, Block.tag, header]
  rfl

/-- Where its header is as it was written, the footer of the low end is the word behind it. -/
theorem footer_prologue (header : h.memory.readWord h.prologue.header = 17)
    : h.prologue.footer h.memory = h.prologue.address := by
  rw [Block.footer, size_prologue header, footerFor_prologueSize]

/-- The low end is as it was written if both of its words are. -/
theorem prologueIntact_iff
    : h.prologueIntact = true
      ↔ h.memory.readWord h.prologue.header = 17 ∧ h.memory.readWord h.prologue.address = 17 := by
  have written : Tag.pack prologueSize true = ⟨17⟩ := rfl
  simp only [prologueIntact, Bool.and_eq_true, decide_eq_true_eq, written, Block.tag,
    Block.footerTag, Tag.mk.injEq]
  apply and_congr_right
  intro header
  rw [footer_prologue header]

/-- The low end is as it was written where its tags are. -/
theorem prologueIntact_of_tagged (bottom : (sentinel h.prologue).Tagged h.memory)
    : h.prologueIntact = true := by
  have written : (Tag.pack prologueSize true).raw = 17 := rfl
  have footer := bottom.footer
  simp only [sentinel, footerFor_prologueSize] at footer
  exact prologueIntact_iff.mpr ⟨bottom.header.trans written, footer.trans written⟩

/-- The low end leads to the block behind its two tags. -/
theorem toNat_above_prologue (placed : h.Placed)
    (header : h.memory.readWord h.prologue.header = 17)
    : (h.prologue.above h.memory).address.toNat = h.prologue.address.toNat + 16 := by
  have high := placed.high
  have limit := placed.limit
  have size : prologueSize.toNat = 16 := rfl
  rw [Block.above, size_prologue header, Block.toNat_offset (by rw [size]; omega), size]

/-- An audit finds nothing if the low end is as it was written, neither walk finds anything, and the
second comes to all free blocks that the first comes to.
-/
theorem violations_eq_nil_iff_walks
    : h.violations = []
      ↔ h.prologueIntact = true
        ∧ Audit.trailFindings h.memory h.region.frontier none h.auditedBlocks = []
        ∧ Audit.listFindings h.memory h.region [] h.auditedMembers = []
        ∧ Audit.freeBlocks h.memory h.region.frontier h.auditedBlocks
            ⊆ h.auditedMembers.filter (Audit.holdsLinks h.region) := by
  simp only [violations, List.append_eq_nil_iff, List.map_eq_nil_iff, List.filter_eq_nil_iff,
    ite_eq_left_iff, List.cons_ne_nil, imp_false, not_not, and_assoc]
  simp only [Bool.not_eq_true', Bool.not_eq_false, List.contains_iff_mem, List.subset_def]

namespace Intact

/-- The low end of an intact heap is as it was written. -/
theorem prologueIntact (intact : h.Intact es xs) : h.prologueIntact = true :=
  prologueIntact_iff.mpr ⟨intact.header, intact.footer⟩

/-- The members of an intact heap are as a walk along the free list expects them. -/
theorem threaded (intact : h.Intact es xs) (placed : h.Placed)
    : Audit.Threaded h.memory h.region [] xs where
  linked := intact.linked
  distinct := by simpa using intact.distinct
  holds := fun b hb =>
    (Audit.holdsLinks_iff placed.toNat_start_add_lt placed.limit).mpr (intact.held b hb)
  free := intact.free

/-- The blocks of an intact heap are as a walk by address expects them. -/
theorem charted_above (intact : h.Intact es xs) (placed : h.Placed)
    : Audit.Charted h.memory (h.prologue.above h.memory).address.toNat es ⟨h.region.frontier⟩ := by
  rw [toNat_above_prologue placed intact.header]
  exact intact.charted

/-- An intact heap has fewer blocks than a walk has steps. -/
theorem length_lt_walkLimit (intact : h.Intact es xs) (placed : h.Placed)
    : es.length < Pool.walkLimit := by
  have room := intact.charted.tiles.length_le
  have limit := placed.limit
  simp only at room
  show es.length < UInt64.size
  omega

/-- The walk by address over an intact heap comes to its blocks and then to the end. -/
theorem auditedBlocks_eq (intact : h.Intact es xs) (placed : h.Placed)
    : h.auditedBlocks = es.map (·.block) ++ [⟨h.region.frontier⟩] := by
  have above := toNat_above_prologue placed intact.header
  rw [auditedBlocks, if_pos intact.prologueIntact]
  exact (intact.charted_above placed).ranged.blockTrail_eq (by omega)
    (intact.length_lt_walkLimit placed)

/-- The walk along the free list of an intact heap comes to its members. -/
theorem auditedMembers_eq (intact : h.Intact es xs) (placed : h.Placed)
    : h.auditedMembers = xs := by
  rw [auditedMembers, intact.head]
  exact (intact.threaded placed).listTrail_eq (Pool.length_le_walkLimit intact.distinct)

/-- An audit finds nothing wrong with an intact heap. -/
theorem violations_eq (intact : h.Intact es xs) (placed : h.Placed) : h.violations = [] := by
  have low : 8 ≤ h.prologue.address.toNat + 16 := by omega
  have threaded := intact.threaded placed
  rw [violations_eq_nil_iff_walks, intact.auditedBlocks_eq placed,
    intact.auditedMembers_eq placed]
  refine ⟨intact.prologueIntact, ?_, threaded.listFindings_eq, ?_⟩
  · exact intact.charted.trailFindings_eq low (by simp)
  · have gaps_eq := intact.charted.ranged.freeBlocks_eq low
    have all : xs.filter (Audit.holdsLinks h.region) = xs :=
      List.filter_eq_self.mpr threaded.holds
    rw [gaps_eq, all]
    exact intact.complete

/-- The blocks of an intact heap are those that its own walk visits. -/
theorem blocks_eq (intact : h.Intact es xs) (placed : h.Placed) : h.blocks = es :=
  (intact.charted_above placed).ranged.extentsFrom_eq (intact.length_lt_walkLimit placed).le

/-- The members of an intact heap are those that its own list has. -/
theorem members_eq (intact : h.Intact es xs) : h.members = xs := by
  rw [Pool.members, intact.head]
  exact Pool.chain_eq intact.linked (Pool.length_le_walkLimit intact.distinct)

end Intact

/-- A heap in which an audit finds nothing is intact. -/
theorem exists_intact (placed : h.Placed) (clean : h.violations = [])
    : ∃ es xs, h.Intact es xs := by
  obtain ⟨ends, trail, list, complete⟩ := violations_eq_nil_iff_walks.mp clean
  obtain ⟨header, footer⟩ := prologueIntact_iff.mp ends
  have above := toNat_above_prologue placed header
  have high := placed.high
  have limit := placed.limit
  have start := placed.toNat_start_add_lt
  have steps : Pool.walkLimit = UInt64.size := rfl
  rw [auditedBlocks, if_pos ends] at trail complete
  rw [auditedMembers] at list complete
  obtain ⟨es, charted, -⟩ := Audit.exists_charted (n := Pool.walkLimit) ⟨h.region.frontier⟩ limit
    (by omega) (by simp only; omega) (by simp only; omega) trail
  obtain ⟨xs, head, threaded⟩ := Audit.exists_threaded start limit (by simp) .nil
    (by simp) list
  have distinct : xs.Nodup := by simpa using threaded.distinct
  have room := charted.tiles.length_le
  have blocks := charted.ranged.blockTrail_eq (n := Pool.walkLimit) (by omega)
    (by simp only at room; omega)
  have members := threaded.listTrail_eq (Pool.length_le_walkLimit distinct)
  have free := charted.ranged.freeBlocks_eq (by omega)
  rw [head, members, blocks, free] at complete
  rw [above] at charted
  refine ⟨es, xs, header, footer, charted, head, threaded.linked, distinct, ?_, threaded.free, ?_⟩
  · exact fun b hb => (Audit.holdsLinks_iff start limit).mp (threaded.holds b hb)
  · exact fun b hb => (List.mem_filter.mp (complete hb)).1

-----------------------------------------------------------------------------------------
-- What an empty report means
-----------------------------------------------------------------------------------------

/-- An audit finds nothing exactly in intact heaps. -/
theorem violations_eq_nil_iff (placed : h.Placed)
    : h.violations = [] ↔ ∃ es xs, h.Intact es xs := by
  constructor
  · exact exists_intact placed
  · rintro ⟨es, xs, intact⟩
    exact intact.violations_eq placed

/-- A heap with one block in use and one free block. The free block leads on to a place within the
other one where the words look like those of a second free block.
-/
def strayHeap : Heap :=
  let h := ((create (.ofChunkSize 256) ⟨0x1000, 0, 4096⟩ .zeros).2.allocate 100).2
  let free : Block := ⟨4256⟩
  let stray : Block := ⟨4160⟩
  { h with memory := stray.setPredecessor (free.setSuccessor h.memory (some stray)) (some free) }

/-- The low end of the heap with a stray member lies in the handed-out part of its region. -/
theorem placed_stray : strayHeap.Placed :=
  ⟨by decide +kernel, by decide +kernel, by decide +kernel⟩

/-- An audit finds nothing in it. -/
theorem clean_stray : strayHeap.violations = [] := by
  decide +kernel

/-- It is intact, for some blocks and some members. -/
theorem intact_stray
    : strayHeap.Placed ∧ strayHeap.violations = [] ∧ ∃ es xs, strayHeap.Intact es xs :=
  ⟨placed_stray, clean_stray, (violations_eq_nil_iff placed_stray).mp clean_stray⟩

/-- If an audit finds nothing, the free list has the free ones among the blocks of the heap and none
of the others. All else that it has lies within blocks or below them, and there is nothing else
exactly if it is as long as there are free blocks.
-/
theorem mem_members_iff_of_clean (placed : h.Placed) (clean : h.violations = [])
    : (∀ e ∈ h.blocks, e.block ∈ h.members ↔ e.allocated = false)
      ∧ (∀ b ∈ h.members, b ∈ gaps h.blocks
          ∨ b.address.toNat < h.prologue.address.toNat + 16
          ∨ ∃ e ∈ h.blocks, e.start < b.address.toNat ∧ b.address.toNat < e.stop)
      ∧ (h.members ⊆ gaps h.blocks ↔ h.members.length = (gaps h.blocks).length) := by
  obtain ⟨es, xs, intact⟩ := exists_intact placed clean
  have listed : ∀ e ∈ es, e.block ∈ xs ↔ e.allocated = false := by
    intro e he
    obtain ⟨-, flag⟩ := Audit.eq_ofBlock_iff.mp (intact.charted.headers e he)
    rw [← flag]
    constructor
    · exact intact.free e.block
    · exact fun unused => intact.complete (mem_gaps.mpr ⟨e, he, rfl, flag ▸ unused⟩)
  rw [intact.blocks_eq placed, intact.members_eq]
  refine ⟨listed, ?_, ?_⟩
  · intro b hb
    by_cases below : b.address.toNat < h.prologue.address.toNat + 16
    · exact Or.inr (Or.inl below)
    · have high := (intact.held b hb).2.2
      obtain ⟨e, he, start, stop⟩ := intact.charted.tiles.exists_mem (n := b.address.toNat)
        (by omega) (by simp only; omega)
      rcases Nat.eq_or_lt_of_le start with same | inner
      · obtain rfl := Block.ext_toNat same
        exact Or.inl (mem_gaps.mpr ⟨e, he, rfl, (listed e he).mp hb⟩)
      · exact Or.inr (Or.inr ⟨e, he, inner, stop⟩)
  · have some := intact.charted.tiles.nodup_gaps.subperm intact.complete
    constructor
    · exact fun no_others => Nat.le_antisymm (intact.distinct.subperm no_others).length_le
        some.length_le
    · exact fun same => (some.perm_of_length_le same.le).symm.subset

/-- Its free list has the free ones among its blocks, and the stray member lies in the middle of one
of them.
-/
theorem within_stray
    : strayHeap.Placed ∧ strayHeap.violations = []
      ∧ (∀ e ∈ strayHeap.blocks, e.block ∈ strayHeap.members ↔ e.allocated = false)
      ∧ ∃ e ∈ strayHeap.blocks, e.start < 4160 ∧ 4160 < e.stop := by
  obtain ⟨listed, others, -⟩ := mem_members_iff_of_clean placed_stray clean_stray
  have member : (⟨4160⟩ : Block) ∈ strayHeap.members := by decide +kernel
  have no_gap : (⟨4160⟩ : Block) ∉ gaps strayHeap.blocks := by decide +kernel
  have above : ¬ 4160 < strayHeap.prologue.address.toNat + 16 := by decide +kernel
  refine ⟨placed_stray, clean_stray, listed, ?_⟩
  exact ((others _ member).resolve_left no_gap).resolve_left above

/-- The free list can have members within blocks in use that no audit finds. -/
theorem members_stray
    : strayHeap.Placed ∧ strayHeap.violations = [] ∧ ⟨4160⟩ ∈ strayHeap.members
      ∧ ⟨4160⟩ ∉ gaps strayHeap.blocks :=
  ⟨placed_stray, clean_stray, by decide +kernel, by decide +kernel⟩

-----------------------------------------------------------------------------------------
-- Heaps in order
-----------------------------------------------------------------------------------------

section

variable (ord : h.InOrder es xs) (low : h.region.start.toNat + 8 ≤ h.prologue.address.toNat)
  (aligned : h.prologue.address.toNat % 16 = 0)

include ord low aligned

/-- A heap in order ends at a multiple of the alignment, so no address near its end wraps. -/
theorem InOrder.placed : h.Placed := by
  have above := ord.settled.tiles.le
  have last := ord.settled.tiles.mod_eq.1
  have top := h.region.frontier.toNat_lt_size
  simp only [UInt64.size] at above last top ⊢
  exact ⟨low, by omega, by simp only [UInt64.size]; omega⟩

/-- A heap in order at a multiple of the alignment is intact. -/
theorem InOrder.intact : h.Intact es xs := by
  have settled := ord.settled
  have starts : ∀ e ∈ es, e.start % 16 = 0 := by
    intro e he
    rw [settled.tiles.mod_eq.2 e he]
    omega
  obtain ⟨header, footer⟩ := prologueIntact_iff.mp (prologueIntact_of_tagged settled.bottom)
  constructor
  case header => exact header
  case footer => exact footer
  case charted =>
    exact Audit.charted_of_tagged settled.tiles starts settled.alternating settled.tagged
      settled.ceiling
  case head => exact settled.lists.head
  case linked => exact settled.lists.linked
  case distinct => exact settled.lists.nodup
  case held =>
    intro b hb
    obtain ⟨e, he, rfl, -⟩ := settled.free b hb
    have bounds := settled.bounds he
    have start := starts e he
    simp only [Extent.stop, Extent.start] at bounds start
    omega
  case free =>
    intro b hb
    obtain ⟨e, he, rfl, unused⟩ := settled.free b hb
    rw [(settled.tagged e he).allocated_eq, unused]
  case complete => exact settled.complete.symm.subset

end

end Heap

end BoundaryTag
