import BoundaryTag.Heap

/-! How a heap comes by its bytes: setting it up at the end of what its region has handed out,
and growing it there.
-/

namespace BoundaryTag.Heap

/-- The bytes that the ends of a heap take: a word of padding, the block at the low end and the
header at the high end.
-/
def sentinelSize : Size := Size.overhead + Size.overhead

/-- The size of the block at the low end, which consists of its tags. -/
def prologueSize : Size := Size.overhead

/-- The header at the high end: allocated, and of no size. -/
def epilogueTag : Tag := Tag.pack Size.zero true

/-- Grows the heap by some bytes at its end, and returns the free block that holds them; it is
listed and merged with a free block below. The header at the high end becomes that of the new
block, and a new one is written behind it.
-/
def grow (h : Heap) (size : Size) : Except Region.Exhausted (Block × Heap) := do
  let (address, region) ← h.region.handOut size.word
  let b : Block := ⟨address⟩
  let tagged := b.writeTags h.memory size false
  let grown := { h.toPool with memory := (b.above tagged).writeHeader tagged epilogueTag }
  let (merged, pool) := grown.merge b
  let h := { h with region := region }.note (.grown size region.frontier)
  return (merged, h.withPool pool)

/-- A heap that has nothing yet. Its low end will be where the region hands out its next bytes.
-/
def unformatted (settings : Settings) (region : Region) (memory : Memory) : Heap where
  memory := memory
  head := none
  region := region
  prologue := ⟨region.frontier + (Word.width + Word.width)⟩
  settings := settings
  journal := []

/-- Writes both ends of an empty heap. -/
def writeSentinels (h : Heap) : Heap :=
  let padding := h.prologue.address - (Word.width + Word.width)
  let memory := h.prologue.writeTags (h.memory.writeWord padding 0) prologueSize true
  { h with memory := (h.prologue.above memory).writeHeader memory epilogueTag }

/-- Sets the heap up: both ends first, then the first chunk between them. What was handed out
and written before a failure stays so.
-/
def format (h : Heap) : Except Refusal Unit × Heap :=
  match h.region.handOut sentinelSize.word with
  | .error e => (.error (.noRoomToStart e), h)
  | .ok (_, region) =>
    let h := { h with region := region }.writeSentinels
    match h.grow h.settings.chunkSize with
    | .error e => (.error (.noRoomToStart e), h)
    | .ok (_, h) => (.ok (), h.note (.formatted h.region.start h.region.frontier))

/-- A new heap at the end of what a region has handed out. -/
def create (settings : Settings) (region : Region) (memory : Memory)
    : Except Refusal Unit × Heap :=
  (unformatted settings region memory).format

/-- Hands out bytes of the heap's region to somebody else. The heap is not told. -/
def handOut (h : Heap) (bytes : Word) : Except Region.Exhausted (Word × Heap) := do
  let (address, region) ← h.region.handOut bytes
  return (address, { h with region := region })

end BoundaryTag.Heap
