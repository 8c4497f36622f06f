import BoundaryTag.Block

/-! What can be found wrong with a heap, and how it is put into words. -/

namespace BoundaryTag

/-- A broken rule of the heap's layout, with the block at which it shows. -/
inductive Violation
  /-- A tag of the block below all others has changed. -/
  | badPrologue (header footer : Tag)
  /-- A block without a size is not the allocated one at the end. -/
  | badEpilogue (block : Block) (header : Tag)
  /-- The two tags of a block differ. -/
  | tagMismatch (block : Block) (header footer : Tag)
  /-- A payload does not lie on a multiple of the alignment. -/
  | misaligned (block : Block)
  /-- A block has no room for its tags and links. -/
  | undersized (block : Block) (size : Word)
  /-- A block reaches beyond the end of the heap. -/
  | outOfBounds (block : Block) (size : Word) (heapEnd : Word)
  /-- Two free blocks lie side by side. -/
  | adjacentFree (first second : Block)
  /-- A free block is not on the free list. -/
  | freeNotListed (block : Block)
  /-- A block on the free list is allocated. -/
  | listedNotFree (block : Block)
  /-- A member of the free list is no block of the heap. -/
  | listedOutOfBounds (block : Block)
  /-- A member of the free list does not lead back to the one before it. -/
  | brokenLink (block : Block) (predecessor expected : Link)
  /-- The free list comes back to a member that it has passed. -/
  | freeListCycle (block : Block)
deriving DecidableEq

namespace Violation

/-- The name of the broken rule. -/
def name : Violation → String
  | badPrologue .. => "BadPrologue"
  | badEpilogue .. => "BadEpilogue"
  | tagMismatch .. => "TagMismatch"
  | misaligned .. => "Misaligned"
  | undersized .. => "Undersized"
  | outOfBounds .. => "OutOfBounds"
  | adjacentFree .. => "AdjacentFree"
  | freeNotListed .. => "FreeNotListed"
  | listedNotFree .. => "ListedNotFree"
  | listedOutOfBounds .. => "ListedOutOfBounds"
  | brokenLink .. => "BrokenLink"
  | freeListCycle .. => "FreeListCycle"

/-- The fields of a violation, with every number in decimal digits. -/
def fields : Violation → List (String × String)
  | badPrologue header footer => [("header", header.describe), ("footer", footer.describe)]
  | badEpilogue block header => [("block", block.decimal), ("header", header.describe)]
  | tagMismatch block header footer =>
    [("block", block.decimal), ("header", header.describe), ("footer", footer.describe)]
  | undersized block size => [("block", block.decimal), ("size", Text.decimal size)]
  | outOfBounds block size heapEnd =>
    [("block", block.decimal), ("size", Text.decimal size), ("heap_end", Text.decimal heapEnd)]
  | adjacentFree first second => [("first", first.decimal), ("second", second.decimal)]
  | brokenLink block predecessor expected =>
    [("block", block.decimal), ("pred", predecessor.decimal), ("expected", expected.decimal)]
  | misaligned block | freeNotListed block | listedNotFree block | listedOutOfBounds block
  | freeListCycle block => [("block", block.decimal)]

/-- A violation by its name and fields. -/
def describe (v : Violation) : String :=
  Text.record v.name v.fields

/-- What is said about a violation; addresses are in hexadecimal digits. -/
def message : Violation → String
  | badPrologue header footer =>
    "prologue block is damaged: header=" ++ header.describe ++ ", footer=" ++ footer.describe
  | badEpilogue block header =>
    "epilogue is damaged or misplaced: block=" ++ block.hex ++ ", header="
      ++ header.describe
  | tagMismatch block header footer =>
    "header and footer disagree: block=" ++ block.hex ++ ", header=" ++ header.describe
      ++ ", footer=" ++ footer.describe
  | misaligned block => "block payload is misaligned: block=" ++ block.hex
  | undersized block size =>
    "block is smaller than the minimum block size: block=" ++ block.hex ++ ", size="
      ++ Text.decimal size
  | outOfBounds block size heapEnd =>
    "block extends past the heap: block=" ++ block.hex ++ ", size=" ++ Text.decimal size
      ++ ", heap_end=" ++ Text.hex heapEnd
  | adjacentFree first second =>
    "adjacent blocks are both free: first=" ++ first.hex ++ ", second=" ++ second.hex
  | freeNotListed block => "free block is missing from the free list: block=" ++ block.hex
  | listedNotFree block => "free list member is marked allocated: block=" ++ block.hex
  | listedOutOfBounds block => "free list member lies outside the heap: block=" ++ block.hex
  | brokenLink block predecessor expected =>
    "free list back link is broken: block=" ++ block.hex ++ ", pred="
      ++ predecessor.decimal ++ ", expected=" ++ expected.decimal
  | freeListCycle block => "free list contains a cycle: block=" ++ block.hex

end Violation

end BoundaryTag
