import BoundaryTag.Memory
import BoundaryTag.Tag

/-! Blocks. A block is named by the address of its payload; its header lies one word below
the payload, its footer is its last word, and everything else about it is read from memory.
The payload of a free block starts with two links to other free blocks.
-/

namespace BoundaryTag

/-- A block, by the address of its payload. -/
structure Block where
  address : Word
deriving DecidableEq

/-- A reference to a block, or to none. -/
abbrev Link := Option Block

namespace Link

/-- The link that a word stands for: zero is the address of no block. -/
def ofWord (w : Word) : Link :=
  if w = 0 then none else some ⟨w⟩

/-- The word that stands for a link. -/
def toWord : Link → Word
  | none => 0
  | some b => b.address

end Link

namespace Block

/-- Blocks are ordered by their addresses. -/
instance : Ord Block := ⟨fun b c => compare b.address c.address⟩

/-- The address of a block in decimal digits. -/
def decimal (b : Block) : String :=
  Text.decimal b.address

/-- The address of a block in hexadecimal digits. -/
def hex (b : Block) : String :=
  Text.hex b.address

/-- A block by its address. -/
def describe (b : Block) : String :=
  "Block(" ++ b.hex ++ ")"

/-- Where the header of a block lies. -/
def header (b : Block) : Word := b.address - Word.width

/-- Where the footer of a block would lie if the block had the given size. -/
def footerFor (b : Block) (size : Word) : Word := b.address + (size - Size.overhead.word)

/-- The block that begins the given number of bytes above this one. -/
def offset (b : Block) (bytes : Word) : Block := ⟨b.address + bytes⟩

/-- The header tag of a block. -/
def tag (b : Block) (m : Memory) : Tag := ⟨m.readWord b.header⟩

/-- The size of a block, as its header has it. -/
def size (b : Block) (m : Memory) : Size := (b.tag m).size

/-- Whether a block is allocated, as its header has it. -/
def allocated (b : Block) (m : Memory) : Bool := (b.tag m).allocated

/-- Where the footer of a block lies, going by the size in its header. -/
def footer (b : Block) (m : Memory) : Word := b.footerFor (b.size m).word

/-- The footer tag of a block. -/
def footerTag (b : Block) (m : Memory) : Tag := ⟨m.readWord (b.footer m)⟩

/-- The block above, which begins where this one ends. -/
def above (b : Block) (m : Memory) : Block := b.offset (b.size m).word

/-- The block below. Its footer is the word below this block's header, and holds the
distance between the two.
-/
def below (b : Block) (m : Memory) : Block :=
  ⟨b.address - (Tag.mk (m.readWord (b.address - Size.overhead.word))).size.word⟩

/-- Writes the header of a block. -/
def writeHeader (b : Block) (m : Memory) (tag : Tag) : Memory :=
  m.writeWord b.header tag.raw

/-- Writes the same tag at both ends of a block of the given size. -/
def writeTags (b : Block) (m : Memory) (size : Size) (allocated : Bool) : Memory :=
  let tag := Tag.pack size allocated
  (b.writeHeader m tag).writeWord (b.footerFor size.word) tag.raw

/-- Where the link of a free block to its predecessor lies. -/
def predecessorSlot (b : Block) : Word := b.address

/-- Where the link of a free block to its successor lies. -/
def successorSlot (b : Block) : Word := b.address + Word.width

/-- The listed block before a listed block. -/
def predecessor (b : Block) (m : Memory) : Link := .ofWord (m.readWord b.predecessorSlot)

/-- The listed block after a listed block. -/
def successor (b : Block) (m : Memory) : Link := .ofWord (m.readWord b.successorSlot)

/-- Changes the link of a block to its predecessor. -/
def setPredecessor (b : Block) (m : Memory) (link : Link) : Memory :=
  m.writeWord b.predecessorSlot link.toWord

/-- Changes the link of a block to its successor. -/
def setSuccessor (b : Block) (m : Memory) (link : Link) : Memory :=
  m.writeWord b.successorSlot link.toWord

end Block

/-- The address that a link leads to, if any, in decimal digits. -/
def Link.decimal (link : Link) : String :=
  Text.optional (link.map Block.decimal)

end BoundaryTag
