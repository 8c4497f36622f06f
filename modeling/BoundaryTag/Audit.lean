import BoundaryTag.Heap.Growth

/-! The audit of a heap: two walks over memory that may be damaged in any way, and the list of
all that is wrong. The first walk goes through the blocks by address, and stops at the first
that leaves the heap; the second follows the free list, and stops where it leaves the heap or
comes back to a member.
-/

namespace BoundaryTag

namespace Audit

/-- Whether a block has a size and lies below the end of the heap, so that the walk by address
goes on behind it.
-/
def inside (m : Memory) (heapEnd : Word) (b : Block) : Bool :=
  b.address ≤ heapEnd && b.size m ≠ Size.zero
    && b.header.addSaturating (b.size m).word ≤ heapEnd

/-- The blocks that the walk by address comes to, for a number of steps. Only the last of them
may lie outside.
-/
def blockTrail (m : Memory) (heapEnd : Word) : Nat → Block → List Block
  | 0, _ => []
  | n + 1, b => b :: if inside m heapEnd b then blockTrail m heapEnd n (b.above m) else []

/-- What is wrong with a block inside the heap, given the one before it. -/
def blockFaults (m : Memory) (before : Link) (b : Block) : List Violation :=
  let header := b.tag m
  let footer := b.footerTag m
  (if b.address % alignment = 0 then [] else [.misaligned b])
    ++ (if header.size < Size.minBlock then [.undersized b header.size.word] else [])
    ++ (if footer = header then [] else [.tagMismatch b header footer])
    ++ match before with
      | some first =>
        if first.allocated m || b.allocated m then [] else [.adjacentFree first b]
      | none => []

/-- What is wrong with a block that the walk by address comes to, given the one before it. -/
def blockFindings (m : Memory) (heapEnd : Word) (before : Link) (b : Block) : List Violation :=
  if heapEnd < b.address then
    [.outOfBounds b 0 heapEnd]
  else if b.size m = Size.zero then
    if b.allocated m ∧ b.address = heapEnd then [] else [.badEpilogue b (b.tag m)]
  else if heapEnd < b.header.addSaturating (b.size m).word then
    [.outOfBounds b (b.size m).word heapEnd]
  else
    blockFaults m before b

/-- What is wrong with the blocks of a trail, given the one before its first. -/
def trailFindings (m : Memory) (heapEnd : Word) : Link → List Block → List Violation
  | _, [] => []
  | before, b :: rest => blockFindings m heapEnd before b ++ trailFindings m heapEnd (some b) rest

/-- The free blocks of a trail. -/
def freeBlocks (m : Memory) (heapEnd : Word) (trail : List Block) : List Block :=
  trail.filter fun b => inside m heapEnd b && !b.allocated m

/-- Whether an address can be that of a listed block: it is aligned, and the header and both
links lie in the handed-out part of the region.
-/
def holdsLinks (r : Region) (b : Block) : Bool :=
  b.address % alignment = 0 && r.start + Word.width ≤ b.address
    && b.address.addSaturating (Word.width + Word.width) ≤ r.frontier

/-- The members that the walk along the free list comes to, for a number of steps, given those
that it has passed, latest first. Only the last of them may lie outside or have been passed
before.
-/
def listTrail (m : Memory) (r : Region) : Nat → List Block → Link → List Block
  | 0, _, _ => []
  | _, _, none => []
  | n + 1, passed, some b =>
    b :: if holdsLinks r b && !passed.contains b
      then listTrail m r n (b :: passed) (b.successor m)
      else []

/-- What is wrong with a member of the free list, given those passed before it, latest first. -/
def memberFindings (m : Memory) (r : Region) (passed : List Block) (b : Block)
    : List Violation :=
  if !holdsLinks r b then
    [.listedOutOfBounds b]
  else if passed.contains b then
    [.freeListCycle b]
  else
    let predecessor := b.predecessor m
    (if b.allocated m then [.listedNotFree b] else [])
      ++ if predecessor = passed.head? then [] else [.brokenLink b predecessor passed.head?]

/-- What is wrong with the members of a trail along the free list. -/
def listFindings (m : Memory) (r : Region) : List Block → List Block → List Violation
  | _, [] => []
  | passed, b :: rest => memberFindings m r passed b ++ listFindings m r (b :: passed) rest

end Audit

namespace Heap

/-- Whether both tags of the block at the low end are as they were written. -/
def prologueIntact (h : Heap) : Bool :=
  let expected := Tag.pack prologueSize true
  h.prologue.tag h.memory = expected && h.prologue.footerTag h.memory = expected

/-- The blocks that an audit comes to by address. It does not set out from a damaged low end. -/
def auditedBlocks (h : Heap) : List Block :=
  if h.prologueIntact then
    Audit.blockTrail h.memory h.region.frontier Pool.walkLimit (h.prologue.above h.memory)
  else
    []

/-- The members that an audit comes to along the free list. -/
def auditedMembers (h : Heap) : List Block :=
  Audit.listTrail h.memory h.region Pool.walkLimit [] h.head

/-- All that is wrong with a heap: with its low end, with its blocks by address, with its free
list in list order, and then the free blocks that the list does not have, by address. Nothing is
wrong exactly when the list is empty. The memory counts as readable wherever its words lead.
-/
def violations (h : Heap) : List Violation :=
  let prologue := h.prologue
  let blocks := h.auditedBlocks
  let members := h.auditedMembers
  let listed := members.filter (Audit.holdsLinks h.region)
  let unlisted := (Audit.freeBlocks h.memory h.region.frontier blocks).filter fun b =>
    !listed.contains b
  (if h.prologueIntact then []
    else [.badPrologue (prologue.tag h.memory) (prologue.footerTag h.memory)])
    ++ Audit.trailFindings h.memory h.region.frontier none blocks
    ++ Audit.listFindings h.memory h.region [] members
    ++ unlisted.map .freeNotListed

/-- Audits a heap, and enters what is found in the journal. -/
def audit (h : Heap) : List Violation × Heap :=
  let violations := h.violations
  (violations, violations.foldl (fun h v => h.note (.found v)) h)

end Heap

end BoundaryTag
