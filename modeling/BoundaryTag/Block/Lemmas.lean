import BoundaryTag.Block
import BoundaryTag.Memory.Lemmas

/-! What a block reads after it was written: its tags are the ones written last at both ends, and
its two links do not disturb each other.
-/

namespace BoundaryTag

/-- A link survives being stored, unless it leads to address zero. -/
theorem Link.ofWord_toWord {link : Link} (h : link ≠ some ⟨0⟩)
    : Link.ofWord link.toWord = link := by
  cases link with
  | none => rfl
  | some b =>
    have hb : b.address ≠ 0 := fun hzero => h (by cases b; simp_all)
    simp [Link.ofWord, Link.toWord, hb]

/-- Different words stand for different links. -/
theorem Link.ofWord_injective : Function.Injective Link.ofWord := by
  intro v w same
  by_cases zero : v = 0 <;> by_cases zero' : w = 0 <;> simp_all [Link.ofWord]

namespace Block

/-- A stored header is read back. -/
@[simp]
theorem tag_writeHeader (b : Block) (m : Memory) (t : Tag) : b.tag (b.writeHeader m t) = t := by
  simp [tag, writeHeader]

/-- The header and the footer of a block share no byte, since a block with a size has room for
both.
-/
theorem header_footerFor_apart (b : Block) {size : Size} (h : size ≠ Size.zero)
    : 8 ≤ (b.header - b.footerFor size.word).toNat
      ∧ 8 ≤ (b.footerFor size.word - b.header).toNat := by
  have hmod := size.toNat_mod
  have hlt := size.word.toNat_lt
  have hb := b.address.toNat_lt
  have hpos : size.word.toNat ≠ 0 := fun hzero => h (Size.ext hzero)
  simp only [Size.toNat] at hmod
  simp only [header, footerFor, Word.width, Size.overhead, UInt64.toNat_sub, UInt64.toNat_add,
    UInt64.reduceToNat]
  omega

/-- After its tags are written, the header of a block holds them. -/
theorem tag_writeTags (b : Block) (m : Memory) {size : Size} (allocated : Bool)
    (h : size ≠ Size.zero)
    : b.tag (b.writeTags m size allocated) = Tag.pack size allocated := by
  have apart := b.header_footerFor_apart h
  simp only [tag, writeTags, writeHeader]
  rw [Memory.readWord_writeWord_of_apart _ _ apart.1 apart.2, Memory.readWord_writeWord]

/-- After its tags are written, the footer of a block holds them. -/
theorem footerTag_writeTags (b : Block) (m : Memory) {size : Size} (allocated : Bool)
    (h : size ≠ Size.zero)
    : b.footerTag (b.writeTags m size allocated) = Tag.pack size allocated := by
  have hsize : b.size (b.writeTags m size allocated) = size := by
    rw [Block.size, tag_writeTags b m allocated h, Tag.size_pack]
  rw [footerTag, footer, hsize]
  simp [writeTags]

/-- A stored link to the predecessor is read back. -/
theorem predecessor_setPredecessor (b : Block) (m : Memory) {link : Link}
    (h : link ≠ some ⟨0⟩)
    : b.predecessor (b.setPredecessor m link) = link := by
  simp [predecessor, setPredecessor, Link.ofWord_toWord h]

/-- A stored link to the successor is read back. -/
theorem successor_setSuccessor (b : Block) (m : Memory) {link : Link} (h : link ≠ some ⟨0⟩)
    : b.successor (b.setSuccessor m link) = link := by
  simp [successor, setSuccessor, Link.ofWord_toWord h]

/-- The two links of a block share no byte. -/
theorem slots_apart (b : Block)
    : 8 ≤ (b.predecessorSlot - b.successorSlot).toNat
      ∧ 8 ≤ (b.successorSlot - b.predecessorSlot).toNat := by
  have hb := b.address.toNat_lt
  simp only [predecessorSlot, successorSlot, Word.width, UInt64.toNat_sub, UInt64.toNat_add,
    UInt64.reduceToNat]
  omega

/-- Changing the link to the successor leaves the one to the predecessor alone. -/
@[simp]
theorem predecessor_setSuccessor (b : Block) (m : Memory) (link : Link)
    : b.predecessor (b.setSuccessor m link) = b.predecessor m := by
  have apart := b.slots_apart
  rw [predecessor, setSuccessor, Memory.readWord_writeWord_of_apart _ _ apart.1 apart.2,
    predecessor]

/-- Changing the link to the predecessor leaves the one to the successor alone. -/
@[simp]
theorem successor_setPredecessor (b : Block) (m : Memory) (link : Link)
    : b.successor (b.setPredecessor m link) = b.successor m := by
  have apart := b.slots_apart
  rw [successor, setPredecessor, Memory.readWord_writeWord_of_apart _ _ apart.2 apart.1,
    successor]

end Block

end BoundaryTag
