import BoundaryTag.Block.Lemmas
import BoundaryTag.Heap.Growth
import BoundaryTag.Proofs.Footprint

/-! Extents as ranges of numbers: where an extent begins and stops, which of its bytes are tags
and which are payload, and what holds of the tags once they are written.
-/

namespace BoundaryTag

namespace Size

/-- The number of a sum that fits. -/
theorem toNat_add_of_lt {s t : Size} (h : s.toNat + t.toNat < UInt64.size)
    : (s + t).toNat = s.toNat + t.toNat := by
  rw [toNat_add, Nat.mod_eq_of_lt h]

/-- The number of a difference that is not negative. -/
theorem toNat_sub_of_le {s t : Size} (h : t ≤ s) : (s - t).toNat = s.toNat - t.toNat := by
  have hs := s.toNat_lt
  rw [le_iff] at h
  rw [toNat_sub]
  simp only [UInt64.size] at hs ⊢
  omega

/-- The smallest block has 32 bytes. -/
@[simp]
theorem toNat_minBlock : minBlock.toNat = 32 := rfl

/-- Two tags have 16 bytes. -/
@[simp]
theorem toNat_overhead : overhead.toNat = 16 := rfl

/-- The size of nothing is the number zero. -/
@[simp]
theorem toNat_zero : zero.toNat = 0 := rfl

/-- A size other than zero has as many bytes as the alignment at least. -/
theorem le_toNat_of_ne_zero {s : Size} (sized : s ≠ zero) : 16 ≤ s.toNat := by
  have whole := s.toNat_mod
  have some : s.toNat ≠ 0 := fun none => sized (Size.ext none)
  omega

/-- No multiple of the alignment is left between the greatest size and the last word. -/
theorem toNat_word_greatest : greatest.word.toNat = UInt64.size - 16 := rfl

end Size

namespace Block

/-- Blocks are told apart by the numbers of their addresses. -/
theorem ext_toNat {b c : Block} (h : b.address.toNat = c.address.toNat) : b = c := by
  cases b
  cases c
  simpa [UInt64.toNat_inj] using h

/-- Where a block further up begins, as long as that does not wrap. -/
theorem toNat_offset {b : Block} {size : Size}
    (h : b.address.toNat + size.toNat < UInt64.size)
    : (b.offset size.word).address.toNat = b.address.toNat + size.toNat := by
  rw [offset, UInt64.toNat_add]
  exact Nat.mod_eq_of_lt h

/-- The header lies one word below the payload. -/
theorem toNat_header {b : Block} (h : 8 ≤ b.address.toNat)
    : b.header.toNat = b.address.toNat - 8 := by
  have hb := b.address.toNat_lt
  rw [header, UInt64.toNat_sub]
  simp only [Word.width, UInt64.reduceToNat]
  omega

/-- The footer is the last word of the given size. -/
theorem toNat_footerFor {b : Block} {size : Size} (h : 16 ≤ size.toNat)
    (fits : b.address.toNat + size.toNat ≤ UInt64.size)
    : (b.footerFor size.word).toNat = b.address.toNat + size.toNat - 16 := by
  have hlt := size.toNat_lt
  simp only [Size.toNat, UInt64.size] at h hlt fits
  simp only [footerFor, Size.overhead, Size.toNat, UInt64.toNat_add, UInt64.toNat_sub,
    UInt64.reduceToNat]
  omega

end Block

namespace Extent

/-- The number of the payload's address. -/
def start (e : Extent) : Nat := e.block.address.toNat

/-- The number of the payload address of what comes next. -/
def stop (e : Extent) : Nat := e.start + e.size.toNat

/-- All bytes of an extent, from its header to its footer. -/
def covered (e : Extent) : Set Word := Word.span (e.start - 8) (e.stop - 8)

/-- The bytes between the two tags of an extent. -/
def payload (e : Extent) : Set Word := Word.span e.start (e.stop - 16)

/-- The bytes of the two tags of an extent. -/
def tagBytes (e : Extent) : Set Word :=
  Word.span (e.start - 8) e.start ∪ Word.span (e.stop - 16) (e.stop - 8)

/-- The bytes of a tag are not those of the payload. -/
theorem tagBytes_notMem_payload {e : Extent} : ∀ x ∈ e.tagBytes, x ∉ e.payload := by
  intro x htag hpayload
  simp only [tagBytes, payload, Set.mem_union, Word.mem_span] at htag hpayload
  omega

/-- There is room for both tags of an extent, and neither wraps. -/
structure Fits (e : Extent) : Prop where
  header : 8 ≤ e.start
  room : 16 ≤ e.size.toNat
  stop_le : e.stop ≤ UInt64.size

/-- The header of an extent is the word before its start. -/
theorem Fits.toNat_header {e : Extent} (h : e.Fits) : e.block.header.toNat = e.start - 8 :=
  Block.toNat_header h.header

/-- The footer of an extent is the second word before its stop: the header of the next one comes
between.
-/
theorem Fits.toNat_footer {e : Extent} (h : e.Fits)
    : (e.block.footerFor e.size.word).toNat = e.stop - 16 :=
  Block.toNat_footerFor h.room h.stop_le

/-- Both words at the ends of an extent hold its tag. -/
structure Tagged (m : Memory) (e : Extent) : Prop where
  header : m.readWord e.block.header = (Tag.pack e.size e.allocated).raw
  footer : m.readWord (e.block.footerFor e.size.word) = (Tag.pack e.size e.allocated).raw

namespace Tagged

variable {m m' : Memory} {e : Extent}

/-- A tagged extent has the tag of its size and its flag at its low end. -/
theorem tag_eq (h : e.Tagged m) : e.block.tag m = Tag.pack e.size e.allocated := by
  rw [Block.tag, h.header]

/-- The header of a tagged extent has its size. -/
theorem size_eq (h : e.Tagged m) : e.block.size m = e.size := by
  rw [Block.size, h.tag_eq, Tag.size_pack]

/-- The header of a tagged extent has its flag. -/
theorem allocated_eq (h : e.Tagged m) : e.block.allocated m = e.allocated := by
  rw [Block.allocated, h.tag_eq, Tag.allocated_pack]

/-- A tagged extent has the same tag at its high end. -/
theorem footerTag_eq (h : e.Tagged m) : e.block.footerTag m = Tag.pack e.size e.allocated := by
  rw [Block.footerTag, Block.footer, h.size_eq, h.footer]

/-- The block above a tagged extent begins where the extent stops. -/
theorem above_eq (h : e.Tagged m) : e.block.above m = e.block.offset e.size.word := by
  rw [Block.above, h.size_eq]

/-- A tagged extent is what a walk says about its block. -/
theorem ofBlock_eq (h : e.Tagged m) : Extent.ofBlock m e.block = e := by
  rw [Extent.ofBlock, h.size_eq, h.allocated_eq]

/-- Tags survive a change away from them. -/
theorem sameOff {S : Set Word} (h : e.Tagged m) (fits : e.Fits) (same : m.SameOff S m')
    (apart : ∀ x ∈ S, x ∉ e.tagBytes)
    : e.Tagged m' := by
  have hheader := fits.header
  have hroom := fits.room
  have hstop := fits.stop_le
  simp only [stop] at hstop
  constructor
  · rw [same.readWord_eq, h.header]
    · rw [fits.toNat_header]
      omega
    · intro x hx member
      apply apart x hx
      rw [fits.toNat_header, Word.mem_span] at member
      left
      rw [Word.mem_span]
      omega
  · rw [same.readWord_eq, h.footer]
    · rw [fits.toNat_footer, stop]
      omega
    · intro x hx member
      apply apart x hx
      rw [fits.toNat_footer, Word.mem_span] at member
      right
      simp only [stop, Word.mem_span] at member ⊢
      omega

/-- The same tags consist of the same bytes. -/
theorem byte_eq (h : e.Tagged m) (fits : e.Fits) (h' : e.Tagged m')
    : ∀ x ∈ e.tagBytes, m'.byte x = m.byte x := by
  have hheader := fits.header
  have hroom := fits.room
  have hstop := fits.stop_le
  have header := fits.toNat_header
  have footer := fits.toNat_footer
  simp only [stop] at hstop footer
  intro x hx
  rcases hx with low | high
  · apply Memory.byte_eq_of_readWord_eq (h'.header.trans h.header.symm) (by omega)
    rw [Word.mem_span] at low ⊢
    omega
  · apply Memory.byte_eq_of_readWord_eq (h'.footer.trans h.footer.symm) (by omega)
    simp only [stop, Word.mem_span] at high ⊢
    omega

end Tagged

/-- Writing the tags of an extent touches nothing but their two words. -/
theorem Fits.sameOff_writeTags {e : Extent} (fits : e.Fits) (m : Memory)
    : m.SameOff e.tagBytes (e.block.writeTags m e.size e.allocated) := by
  have hheader := fits.header
  have hroom := fits.room
  have hstop := fits.stop_le
  have header := fits.toNat_header
  have footer := fits.toNat_footer
  simp only [stop] at hstop footer
  have first : m.SameOff e.tagBytes (e.block.writeHeader m (Tag.pack e.size e.allocated)) := by
    apply (m.sameOff_writeWord _ (by omega)).mono
    intro x hx
    left
    rw [Word.mem_span] at hx ⊢
    omega
  apply first.trans
  apply (Memory.sameOff_writeWord _ _ (by omega)).mono
  intro x hx
  right
  simp only [stop, Word.mem_span] at hx ⊢
  omega

/-- Written tags are there. -/
theorem Fits.tagged_writeTags {e : Extent} (fits : e.Fits) (m : Memory)
    : e.Tagged (e.block.writeTags m e.size e.allocated) := by
  have hne : e.size ≠ Size.zero := by
    intro hzero
    have hroom := fits.room
    simp [hzero] at hroom
  constructor
  · exact congrArg Tag.raw (Block.tag_writeTags e.block m e.allocated hne)
  · exact Memory.readWord_writeWord _ _ _

end Extent

end BoundaryTag
