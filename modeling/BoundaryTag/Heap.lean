import BoundaryTag.Heap.Refusal
import BoundaryTag.Heap.Event
import BoundaryTag.Heap.Settings

/-! The heap: blocks side by side in the handed-out part of a region, between a block of two tags
at the low end and a lone header at the high end. Both are allocated for good, so that a search
for a neighbour never runs out of the heap. Here are its state and the two walks over it.
-/

namespace BoundaryTag

/-- A heap: its memory and free list, the region that its bytes come from, the block below all
others, its settings and its journal, latest event first.
-/
structure Heap extends Pool where
  region : Region
  prologue : Block
  settings : Settings
  journal : List Event

/-- What a walk says about a block. -/
structure Extent where
  block : Block
  size : Size
  allocated : Bool
deriving DecidableEq

/-- A block as its header has it. -/
def Extent.ofBlock (m : Memory) (b : Block) : Extent :=
  ⟨b, b.size m, b.allocated m⟩

/-- How the bytes of a heap are used. -/
structure Usage where
  heapSize : Word
  allocatedBlocks : Nat
  allocatedBytes : Size
  freeBlocks : Nat
  freeBytes : Size
deriving DecidableEq

namespace Heap

/-- Adds an event to the journal. -/
def note (h : Heap) (e : Event) : Heap :=
  { h with journal := e :: h.journal }

/-- The heap with its memory and free list changed. -/
def withPool (h : Heap) (p : Pool) : Heap :=
  { h with toPool := p }

/-- The blocks from the given one upwards to the first without a size, for a number of steps. -/
def extentsFrom (m : Memory) : Nat → Block → List Extent
  | 0, _ => []
  | n + 1, b =>
    if b.size m = Size.zero then [] else Extent.ofBlock m b :: extentsFrom m n (b.above m)

/-- The blocks between the two ends of the heap, by address. -/
def blocks (h : Heap) : List Extent :=
  extentsFrom h.memory Pool.walkLimit (h.prologue.above h.memory)

/-- The free blocks in the order of the free list. -/
def freeBlocks (h : Heap) : List Extent :=
  h.members.map (Extent.ofBlock h.memory)

/-- The number of bytes in some blocks. -/
def totalSize (extents : List Extent) : Size :=
  extents.foldl (fun total e => total + e.size) Size.zero

/-- How the bytes of the heap are used. Tags count as part of their blocks, and the ends of the
heap only as part of the whole.
-/
def usage (h : Heap) : Usage :=
  let (allocated, free) := h.blocks.partition (·.allocated)
  {
    heapSize := h.region.used
    allocatedBlocks := allocated.length
    allocatedBytes := totalSize allocated
    freeBlocks := free.length
    freeBytes := totalSize free
  }

/-- The number of bytes in a block that are its user's. -/
def usableSize (h : Heap) (b : Block) : Size :=
  b.size h.memory - Size.overhead

end Heap

end BoundaryTag
