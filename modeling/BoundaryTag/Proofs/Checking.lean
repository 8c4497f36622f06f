import BoundaryTag.Proofs.Sessions

/-! The operations of a heap on a machine that checks its steps: it stops where a sum or a
difference of words wraps, where a size that becomes a tag is not aligned, and where a size is
smaller than an operation counts on. Sizes that come out of arithmetic are plain words here, which
says nothing about their alignment. The headers of blocks and the links of free ones are found by
arithmetic that may wrap, and are left alone.
-/

namespace BoundaryTag

/-- Why a machine that checks its steps stops. -/
inductive Lapse
  /-- A sum does not fit in a word. -/
  | overflow (a b : Word)
  /-- A difference is negative. -/
  | underflow (a b : Word)
  /-- A size is smaller than another that it has to cover. -/
  | short (size least : Word)
  /-- The precondition of a call does not hold. -/
  | fault (reason : Fault)
deriving DecidableEq

namespace Word

/-- The sum of two words. One that does not fit is a lapse. -/
def addChecked (a b : Word) : Except Lapse Word :=
  if a.toNat + b.toNat < UInt64.size then .ok (a + b) else .error (.overflow a b)

/-- The difference of two words. A negative one is a lapse. -/
def subChecked (a b : Word) : Except Lapse Word :=
  if b ≤ a then .ok (a - b) else .error (.underflow a b)

/-- The sum of some words, added up one by one. -/
def sumChecked (ws : List Word) : Except Lapse Word :=
  ws.foldlM addChecked 0

/-- Asserts that a size is at least as large as another. -/
def covers (size least : Word) : Except Lapse Unit :=
  if least ≤ size then .ok () else .error (.short size least)

/-- Asserts that a number of bytes is aligned. -/
def alignedChecked (bytes : Word) : Except Lapse Size :=
  (Size.ofWord bytes).mapError .fault

end Word

/-- The tag for a block of a given size, which has to be aligned. -/
def Tag.packChecked (size : Word) (allocated : Bool) : Except Lapse Tag := do
  return Tag.pack (← Word.alignedChecked size) allocated

-----------------------------------------------------------------------------------------
-- Blocks and regions
-----------------------------------------------------------------------------------------

namespace Block

/-- Where the footer of a block would lie if the block had the given size. -/
def footerForChecked (b : Block) (size : Word) : Except Lapse Word := do
  Word.covers size Size.overhead.word
  Word.addChecked b.address (← Word.subChecked size Size.overhead.word)

/-- The block that begins the given number of bytes above this one. -/
def offsetChecked (b : Block) (bytes : Word) : Except Lapse Block := do
  return ⟨← Word.addChecked b.address bytes⟩

/-- The block above. -/
def aboveChecked (b : Block) (m : Memory) : Except Lapse Block :=
  b.offsetChecked (b.size m).word

/-- The block below, by the footer under the header of this one. -/
def belowChecked (b : Block) (m : Memory) : Except Lapse Block := do
  let footer ← Word.subChecked b.address Size.overhead.word
  return ⟨← Word.subChecked b.address (Tag.mk (m.readWord footer)).size.word⟩

/-- Writes the same tag at both ends of a block of the given size. -/
def writeTagsChecked (b : Block) (m : Memory) (size : Word) (allocated : Bool)
    : Except Lapse Memory := do
  let tag ← Tag.packChecked size allocated
  let footer ← b.footerForChecked size
  return (b.writeHeader m tag).writeWord footer tag.raw

end Block

namespace Region

/-- The first address that is not handed out yet. -/
def frontierChecked (r : Region) : Except Lapse Word :=
  Word.addChecked r.start r.used

/-- The number of bytes that are handed out, as the distance between both ends of them. -/
def usedChecked (r : Region) : Except Lapse Word := do
  Word.subChecked (← r.frontierChecked) r.start

/-- Hands out the next bytes, and says at which address they begin. -/
def handOutChecked (r : Region) (bytes : Word)
    : Except Lapse (Except Exhausted (Word × Region)) := do
  let available ← Word.subChecked r.capacity r.used
  if available < bytes then
    return .error ⟨bytes, available⟩
  else
    let address ← r.frontierChecked
    return .ok (address, { r with used := ← Word.addChecked r.used bytes })

end Region

-----------------------------------------------------------------------------------------
-- Carving, merging and resizing within reach
-----------------------------------------------------------------------------------------

namespace Pool

/-- Writes the same tag at both ends of a block. -/
def writeTagsChecked (p : Pool) (b : Block) (size : Word) (allocated : Bool)
    : Except Lapse Pool := do
  return { p with memory := ← b.writeTagsChecked p.memory size allocated }

/-- Allocates the wanted number of bytes at the low end of a listed block, which has to have them.
-/
def carveChecked (p : Pool) (b : Block) (wanted : Size) : Except Lapse (Block × Pool) := do
  let size := (b.size p.memory).word
  Word.covers size wanted.word
  let rest ← Word.subChecked size wanted.word
  if Size.minBlock.word ≤ rest then
    let remainder ← b.offsetChecked wanted.word
    let p ← p.writeTagsChecked remainder rest false
    return (b, ← (p.replace b remainder).writeTagsChecked b wanted.word true)
  else
    return (b, ← (p.remove b).writeTagsChecked b size true)

/-- Takes those neighbours of an unlisted free block that are free out of the list, and says which
range they make up with it.
-/
def gatherChecked (p : Pool) (b : Block) : Except Lapse (Block × Word × Pool) := do
  let below ← b.belowChecked p.memory
  let above ← b.aboveChecked p.memory
  let size := (b.size p.memory).word
  match below.allocated p.memory, above.allocated p.memory with
  | true, true => return (b, size, p)
  | true, false =>
    let p := p.remove above
    return (b, ← Word.addChecked size (above.size p.memory).word, p)
  | false, true =>
    let p := p.remove below
    return (below, ← Word.addChecked size (below.size p.memory).word, p)
  | false, false =>
    let p := (p.remove below).remove above
    let gaps ← Word.addChecked (below.size p.memory).word (above.size p.memory).word
    return (below, ← Word.addChecked size gaps, p)

/-- Joins an unlisted free block with those of its two neighbours that are free. -/
def mergeChecked (p : Pool) (b : Block) : Except Lapse (Block × Pool) := do
  let (merged, total, p) ← p.gatherChecked b
  let p ← p.writeTagsChecked merged total false
  return (merged, p.insert merged)

/-- Allocates the wanted number of bytes at the low end of an unlisted range. -/
def claimChecked (p : Pool) (b : Block) (total : Word) (wanted : Size) : Except Lapse Pool := do
  let slack ← Word.subChecked total wanted.word
  if Size.minBlock.word ≤ slack then
    let p ← p.writeTagsChecked b wanted.word true
    let remainder ← b.offsetChecked wanted.word
    let p ← p.writeTagsChecked remainder slack false
    return p.insert remainder
  else
    p.writeTagsChecked b total true

/-- Shortens a block to the wanted size. -/
def trimChecked (p : Pool) (b : Block) (wanted : Size) : Except Lapse Pool := do
  let slack ← Word.subChecked (b.size p.memory).word wanted.word
  if Size.minBlock.word ≤ slack then
    let p ← p.writeTagsChecked b wanted.word true
    let remainder ← b.aboveChecked p.memory
    let p ← p.writeTagsChecked remainder slack false
    return (← p.mergeChecked remainder).2
  else
    return p

/-- Grows a block into the free block below it. -/
def growDownChecked (p : Pool) (b below : Block) (wanted : Size) (kept : Word)
    : Except Lapse (Block × Pool) := do
  let total ← Word.addChecked (below.size p.memory).word (b.size p.memory).word
  let p := p.remove below
  let slack ← Word.subChecked total wanted.word
  if Size.minBlock.word ≤ slack then
    let target ← below.offsetChecked slack
    let p := p.movePayload b target kept
    let p ← p.writeTagsChecked below slack false
    let p ← p.writeTagsChecked target wanted.word true
    return (target, p.insert below)
  else
    return (below, ← (p.movePayload b below kept).writeTagsChecked below total true)

/-- Grows a block into the free block above it. -/
def growUpChecked (p : Pool) (b above : Block) (wanted : Size) : Except Lapse Pool := do
  let total ← Word.addChecked (b.size p.memory).word (above.size p.memory).word
  (p.remove above).claimChecked b total wanted

/-- Grows a block into the free blocks on both sides. -/
def growBothWaysChecked (p : Pool) (b below above : Block) (wanted : Size) (kept : Word)
    : Except Lapse Pool := do
  let low ← Word.addChecked (below.size p.memory).word (b.size p.memory).word
  let total ← Word.addChecked low (above.size p.memory).word
  (((p.remove below).remove above).movePayload b below kept).claimChecked below total wanted

end Pool

namespace Plan

/-- Whether blocks of some sizes have the wanted size together. Their sizes are added up only if
the blocks are to be had.
-/
def reachesChecked (wanted : Word) (free : Bool) (sizes : List Word) : Except Lapse Bool :=
  if free then
    return decide (wanted ≤ (← Word.sumChecked sizes))
  else
    return false

/-- Chooses how a block gets the wanted size. -/
def chooseChecked (m : Memory) (b : Block) (wanted : Size) : Except Lapse Plan := do
  let size := (b.size m).word
  if wanted.word ≤ size then
    return .stay
  else
    let below ← b.belowChecked m
    let above ← b.aboveChecked m
    let belowFree := !below.allocated m
    let aboveFree := !above.allocated m
    let belowSize := (below.size m).word
    let aboveSize := (above.size m).word
    if ← reachesChecked wanted.word belowFree [belowSize, size] then
      return .growDown below
    else if ← reachesChecked wanted.word aboveFree [size, aboveSize] then
      return .growUp above
    else if ← reachesChecked wanted.word (belowFree && aboveFree)
        [belowSize, size, aboveSize] then
      return .growBothWays below above
    else
      return .moveAway

end Plan

-----------------------------------------------------------------------------------------
-- Heaps
-----------------------------------------------------------------------------------------

namespace Heap

/-- The number of bytes in a block that are its user's. -/
def usableSizeChecked (h : Heap) (b : Block) : Except Lapse Word :=
  Word.subChecked (b.size h.memory).word Size.overhead.word

/-- The blocks from the given one upwards to the first without a size, for a number of steps. -/
def extentsFromChecked (m : Memory) : Nat → Block → Except Lapse (List Extent)
  | 0, _ => return []
  | n + 1, b => do
    if b.size m = Size.zero then
      return []
    else
      return Extent.ofBlock m b :: (← extentsFromChecked m n (← b.aboveChecked m))

/-- The blocks between the two ends of the heap, by address. -/
def blocksChecked (h : Heap) : Except Lapse (List Extent) := do
  extentsFromChecked h.memory Pool.walkLimit (← h.prologue.aboveChecked h.memory)

/-- The number of some blocks, counted one by one, and that of their bytes. -/
def tallyChecked (extents : List Extent) : Except Lapse (Nat × Size) := do
  let count ← Word.sumChecked (extents.map fun _ => 1)
  let bytes ← Word.sumChecked (extents.map (·.size.word))
  return (count.toNat, ← Word.alignedChecked bytes)

/-- How the bytes of the heap are used. -/
def usageChecked (h : Heap) : Except Lapse Usage := do
  let heapSize ← h.region.usedChecked
  let (allocated, free) := (← h.blocksChecked).partition (·.allocated)
  let (allocatedBlocks, allocatedBytes) ← tallyChecked allocated
  let (freeBlocks, freeBytes) ← tallyChecked free
  return { heapSize, allocatedBlocks, allocatedBytes, freeBlocks, freeBytes }

/-- Grows the heap by some bytes, which have to be aligned and enough for a block. -/
def growChecked (h : Heap) (bytes : Word)
    : Except Lapse (Except Region.Exhausted (Block × Heap)) := do
  let size ← Word.alignedChecked bytes
  Word.covers bytes Size.minBlock.word
  match ← h.region.handOutChecked bytes with
  | .error e => return .error e
  | .ok (address, region) =>
    let frontier ← region.frontierChecked
    let b : Block := ⟨address⟩
    let tagged ← b.writeTagsChecked h.memory bytes false
    let top ← b.aboveChecked tagged
    let epilogue ← Tag.packChecked Size.zero.word true
    let grown := { h.toPool with memory := top.writeHeader tagged epilogue }
    let (merged, pool) ← grown.mergeChecked b
    return .ok (merged, ({ h with region := region }.note (.grown size frontier)).withPool pool)

/-- Allocates a block of a given size. -/
def serveChecked (h : Heap) (wanted : Size) : Except Lapse (Except Refusal Block × Heap) := do
  match h.firstFit? wanted.word with
  | some b =>
    let (carved, pool) ← h.carveChecked b wanted
    return (.ok carved, h.withPool pool)
  | none =>
    let increment := max wanted h.settings.chunkSize
    match ← h.growChecked increment.word with
    | .error e => return (.error (.noRoomToGrow increment e), h.note (.growthRefused wanted e))
    | .ok (b, h) =>
      let (carved, pool) ← h.carveChecked b wanted
      return (.ok carved, h.withPool pool)

/-- Allocates a block for a number of bytes. -/
def allocateChecked (h : Heap) (bytes : Word)
    : Except Lapse (Except Refusal (Option Block) × Heap) := do
  if bytes = 0 then
    return (.ok none, h)
  else
    match Size.forRequest? bytes with
    | none => return (.error (.tooLarge bytes), h)
    | some wanted =>
      let (result, h) ← h.serveChecked wanted
      return (result.map some, h)

/-- Allocates a block for some elements of a given size, and clears it. -/
def allocateZeroedChecked (h : Heap) (count size : Word)
    : Except Lapse (Except Refusal (Option Block) × Heap) := do
  match Word.mul? count size with
  | none => return (.error (.tooLarge Word.greatest), h)
  | some total =>
    match ← h.allocateChecked total with
    | (.ok (some b), h) =>
      return (.ok (some b), { h with memory := h.memory.clear b.address total })
    | failedOrEmpty => return failedOrEmpty

/-- Frees an allocated block. -/
def freeChecked (h : Heap) (b : Block) : Except Lapse Heap := do
  let tagged ← h.toPool.writeTagsChecked b (b.size h.memory).word false
  return h.withPool (← tagged.mergeChecked b).2

/-- Moves the contents of a block to a newly allocated one, and frees the old. -/
def moveAwayChecked (h : Heap) (b : Block) (wanted : Size) (kept : Word)
    : Except Lapse (Except Refusal Block × Heap) := do
  match ← h.serveChecked wanted with
  | (.error e, h) => return (.error e, h)
  | (.ok target, h) =>
    let h := h.note (.moving b target kept)
    return (.ok target, ← (h.withPool (h.movePayload b target kept)).freeChecked b)

/-- Carries out a plan for a block. -/
def carryOutChecked (h : Heap) (plan : Plan) (b : Block) (wanted : Size) (kept : Word)
    : Except Lapse (Except Refusal Block × Heap) := do
  match plan with
  | .stay => return (.ok b, h.withPool (← h.trimChecked b wanted))
  | .growDown below =>
    let (target, pool) ← h.growDownChecked b below wanted kept
    return (.ok target, h.withPool pool)
  | .growUp above => return (.ok b, h.withPool (← h.growUpChecked b above wanted))
  | .growBothWays below above =>
    return (.ok below, h.withPool (← h.growBothWaysChecked b below above wanted kept))
  | .moveAway => h.moveAwayChecked b wanted kept

/-- Gives a block room for a number of bytes, and says where it is afterwards. -/
def resizeChecked (h : Heap) (b? : Option Block) (bytes : Word)
    : Except Lapse (Except Refusal (Option Block) × Heap) := do
  match b? with
  | none => h.allocateChecked bytes
  | some b =>
    if bytes = 0 then
      return (.ok (some b), ← h.freeChecked b)
    else
      match Size.forRequest? bytes with
      | none => return (.error (.tooLarge bytes), h)
      | some wanted =>
        let kept := min bytes (← h.usableSizeChecked b)
        let plan ← Plan.chooseChecked h.memory b wanted
        let (result, h) ← (h.note (.resizing b wanted plan)).carryOutChecked plan b wanted kept
        return (result.map some, h)

end Heap

/-- What comes of a request. What clients write into their blocks is theirs to check. -/
def Request.answerChecked (h : Heap)
    : Request → Except Lapse (Except Refusal (Option Block) × Heap)
  | allocate bytes => h.allocateChecked bytes
  | allocateZeroed count size => h.allocateZeroedChecked count size
  | free b => return (.ok none, ← h.freeChecked b)
  | resize b? bytes => h.resizeChecked b? bytes
  | write b offset bytes => return (write b offset bytes).answer h

-----------------------------------------------------------------------------------------
-- Steps that are in order
-----------------------------------------------------------------------------------------

/-- After a step that is in order, what follows goes on. -/
@[simp]
theorem Lapse.ok_bind {α β : Type} (a : α) (f : α → Except Lapse β) : (Except.ok a >>= f) = f a :=
  rfl

/-- Sizes compare as their words do. -/
@[simp]
theorem Size.word_le_word {s t : Size} : s.word ≤ t.word ↔ s ≤ t := Iff.rfl

namespace Word

/-- A sum that fits is the sum. -/
theorem addChecked_eq {a b : Word} (h : a.toNat + b.toNat < UInt64.size)
    : addChecked a b = .ok (a + b) :=
  if_pos h

/-- A difference that is not negative is the difference. -/
theorem subChecked_eq {a b : Word} (h : b.toNat ≤ a.toNat) : subChecked a b = .ok (a - b) :=
  if_pos (UInt64.le_iff_toNat_le.mpr h)

/-- A sum of sizes that fits is the size that it stands for. -/
theorem addChecked_word {s t : Size} (h : s.toNat + t.toNat < UInt64.size)
    : addChecked s.word t.word = .ok (s + t).word :=
  addChecked_eq h

/-- A difference of sizes that is not negative is the size that it stands for. -/
theorem subChecked_word {s t : Size} (h : t ≤ s) : subChecked s.word t.word = .ok (s - t).word :=
  if_pos h

/-- A size covers every size that is no greater. -/
theorem covers_word {s t : Size} (h : t ≤ s) : covers s.word t.word = .ok () := if_pos h

/-- The word of a size is aligned. -/
@[simp]
theorem alignedChecked_word (s : Size) : alignedChecked s.word = .ok s := by
  simp [alignedChecked, Size.ofWord, s.aligned, Except.mapError]

/-- The sum of the numbers that some words stand for. -/
def total : List Word → Nat
  | [] => 0
  | w :: ws => w.toNat + total ws

/-- Words whose sum fits are added up without a lapse, by induction from any partial sum on. -/
theorem foldlM_addChecked {ws : List Word} {a : Word} (fits : a.toNat + total ws < UInt64.size)
    : ws.foldlM addChecked a = .ok (ws.foldl (· + ·) a)
      ∧ (ws.foldl (· + ·) a).toNat = a.toNat + total ws := by
  induction ws generalizing a with
  | nil => exact ⟨rfl, rfl⟩
  | cons w rest ih =>
      rw [total, ← Nat.add_assoc] at fits
      have here : (a + w).toNat = a.toNat + w.toNat := by
        rw [UInt64.toNat_add]
        exact Nat.mod_eq_of_lt (by simp only [UInt64.size] at fits; omega)
      obtain ⟨rest_eq, number⟩ := ih (a := a + w) (by rwa [here])
      rw [List.foldlM_cons, addChecked_eq (by omega), Lapse.ok_bind, List.foldl_cons, number, here,
        total, Nat.add_assoc]
      exact ⟨rest_eq, rfl⟩

/-- Words whose sum fits have a sum. -/
theorem sumChecked_eq {ws : List Word} (fits : total ws < UInt64.size)
    : sumChecked ws = .ok (ws.foldl (· + ·) 0) ∧ (ws.foldl (· + ·) 0).toNat = total ws := by
  simpa [sumChecked] using foldlM_addChecked (a := 0) (by simpa using fits)

end Word

/-- The word of a size can be packed into a tag. -/
@[simp]
theorem Tag.packChecked_word (s : Size) (allocated : Bool)
    : packChecked s.word allocated = .ok (pack s allocated) := by
  simp [packChecked]

namespace Block

variable {b : Block} {m : Memory}

/-- Going up from a block does not lapse if the address does not wrap. -/
theorem offsetChecked_eq {bytes : Word} (h : b.address.toNat + bytes.toNat < UInt64.size)
    : b.offsetChecked bytes = .ok (b.offset bytes) := by
  rw [offsetChecked, Word.addChecked_eq h]
  rfl

/-- The block above is found without a lapse if it does lie above. -/
theorem aboveChecked_eq (h : b.address.toNat ≤ (b.above m).address.toNat)
    : b.aboveChecked m = .ok (b.above m) := by
  apply offsetChecked_eq
  have low := b.address.toNat_lt_size
  have size := (b.size m).word.toNat_lt_size
  rw [above, offset, UInt64.toNat_add] at h
  simp only [UInt64.size] at low size ⊢
  omega

/-- The block below is found without a lapse if it does lie below. -/
theorem belowChecked_eq (floor : 16 ≤ b.address.toNat)
    (h : (b.below m).address.toNat ≤ b.address.toNat)
    : b.belowChecked m = .ok (b.below m) := by
  have footer : Word.subChecked b.address Size.overhead.word
      = .ok (b.address - Size.overhead.word) :=
    Word.subChecked_eq floor
  rw [belowChecked, footer, Lapse.ok_bind, Word.subChecked_eq]
  · rfl
  · have low := b.address.toNat_lt_size
    rw [below, UInt64.toNat_sub] at h
    simp only [UInt64.size] at low
    generalize (Tag.mk (m.readWord (b.address - Size.overhead.word))).size.word = size at h ⊢
    have limit := size.toNat_lt_size
    simp only [UInt64.size] at limit
    omega

end Block

/-- Where there is room for the tags of an extent, they are written without a lapse. -/
theorem Extent.Fits.writeTagsChecked_eq {e : Extent} (fits : e.Fits) (m : Memory)
    : e.block.writeTagsChecked m e.size.word e.allocated
      = .ok (e.block.writeTags m e.size e.allocated) := by
  have room := fits.room
  have stop := fits.stop_le
  have covered : Size.overhead ≤ e.size := Size.le_iff.mpr room
  have payload := Size.toNat_sub_of_le covered
  rw [Size.toNat_overhead] at payload
  simp only [Extent.stop, Extent.start] at stop
  have limit : e.block.address.toNat + (e.size - Size.overhead).toNat < UInt64.size := by omega
  have footer : e.block.footerForChecked e.size.word = .ok (e.block.footerFor e.size.word) := by
    rw [Block.footerForChecked, Word.covers_word covered, Lapse.ok_bind,
      Word.subChecked_word covered, Lapse.ok_bind, Word.addChecked_eq limit]
    rfl
  rw [Block.writeTagsChecked, Tag.packChecked_word, Lapse.ok_bind, footer]
  rfl

namespace Region.Sane

variable {r : Region}

/-- The frontier of a sane region does not wrap. -/
theorem frontierChecked_eq (h : r.Sane) : r.frontierChecked = .ok r.frontier := by
  have within := h.within
  have limit := h.limit
  exact Word.addChecked_eq (by omega)

/-- What a sane region has handed out is the distance from its start to its frontier. -/
theorem usedChecked_eq (h : r.Sane) : r.usedChecked = .ok r.used := by
  have frontier := h.toNat_frontier
  have distance : r.frontier - r.start = r.used := by
    rw [Region.frontier]
    grind
  rw [usedChecked, h.frontierChecked_eq, Lapse.ok_bind, Word.subChecked_eq (by omega), distance]

/-- A sane region hands bytes out without a lapse, or refuses to. -/
theorem handOutChecked_eq (h : r.Sane) (bytes : Word)
    : r.handOutChecked bytes = .ok (r.handOut bytes) := by
  have within := h.within
  have limit := h.limit
  have left : Word.subChecked r.capacity r.used = .ok r.available := Word.subChecked_eq within
  rw [handOutChecked, left, Lapse.ok_bind, handOut]
  by_cases short : r.available < bytes
  · simp only [short, if_true]
    rfl
  · have enough := UInt64.not_lt.mp short
    rw [UInt64.le_iff_toNat_le, h.toNat_available] at enough
    rw [if_neg short, if_neg short, h.frontierChecked_eq, Lapse.ok_bind,
      Word.addChecked_eq (by omega)]
    rfl

end Region.Sane

namespace Pool

variable {p : Pool} {b : Block} {total wanted : Size}

/-- Writing the tags of an extent that fits in the address space goes without a lapse. -/
theorem writeTagsChecked_eq {e : Extent} (fits : e.Fits) (p : Pool)
    : p.writeTagsChecked e.block e.size.word e.allocated
      = .ok (p.writeTags e.block e.size e.allocated) := by
  rw [writeTagsChecked, fits.writeTagsChecked_eq]
  rfl

/-- A range that covers the wanted size has room for its tags. -/
theorem fits_of_covers (room : 32 ≤ wanted.toNat) (enough : wanted ≤ total)
    (low : 8 ≤ b.address.toNat) (high : b.address.toNat + total.toNat < UInt64.size)
    : Extent.Fits ⟨b, total, true⟩ := by
  have covered := Size.le_iff.mp enough
  constructor <;> simp only [Extent.stop, Extent.start] <;> omega

/-- Both parts of a range that is split have room for their tags, and the upper one is found without
a lapse.
-/
theorem parts_of_split (room : 32 ≤ wanted.toNat) (enough : wanted ≤ total)
    (low : 8 ≤ b.address.toNat) (high : b.address.toNat + total.toNat < UInt64.size)
    (large : Size.minBlock ≤ total - wanted)
    : Extent.Fits ⟨b, wanted, true⟩
      ∧ Extent.Fits ⟨b.offset wanted.word, total - wanted, false⟩
      ∧ b.offsetChecked wanted.word = .ok (b.offset wanted.word) := by
  have tiles := split_tiles room enough rfl high.le
  have limit := Size.le_iff.mp enough
  rw [split_of_le large] at tiles
  refine ⟨tiles.fits low high.le (by simp), tiles.fits low high.le (by simp), ?_⟩
  exact Block.offsetChecked_eq (lt_of_le_of_lt (Nat.add_le_add_left limit _) high)

/-- Carving a block that is large enough goes without a lapse. -/
theorem carveChecked_eq (size : b.size p.memory = total) (room : 32 ≤ wanted.toNat)
    (enough : wanted ≤ total) (low : 8 ≤ b.address.toNat)
    (high : b.address.toNat + total.toNat < UInt64.size)
    : p.carveChecked b wanted = .ok (p.carve b wanted) := by
  simp only [carveChecked, carve, size, Word.covers_word enough, Word.subChecked_word enough,
    Lapse.ok_bind, Size.word_le_word]
  by_cases large : Size.minBlock ≤ total - wanted
  · obtain ⟨kept, rest, offset⟩ := parts_of_split room enough low high large
    simp only [large, if_true, offset, Lapse.ok_bind, splitOff]
    rw [writeTagsChecked_eq rest, Lapse.ok_bind, writeTagsChecked_eq kept, Lapse.ok_bind]
    rfl
  · simp only [large, if_false, takeWhole, size]
    rw [writeTagsChecked_eq (fits_of_covers room enough low high), Lapse.ok_bind]
    rfl

/-- Claiming a range that is large enough goes without a lapse. -/
theorem claimChecked_eq (p : Pool) (room : 32 ≤ wanted.toNat) (enough : wanted ≤ total)
    (low : 8 ≤ b.address.toNat) (high : b.address.toNat + total.toNat < UInt64.size)
    : p.claimChecked b total.word wanted = .ok (p.claim b total wanted) := by
  simp only [claimChecked, claim, Word.subChecked_word enough, Lapse.ok_bind, Size.word_le_word]
  by_cases large : Size.minBlock ≤ total - wanted
  · obtain ⟨kept, rest, offset⟩ := parts_of_split room enough low high large
    simp only [large, if_true]
    rw [writeTagsChecked_eq kept, Lapse.ok_bind, offset, Lapse.ok_bind, writeTagsChecked_eq rest]
    rfl
  · simp only [large, if_false]
    rw [writeTagsChecked_eq (fits_of_covers room enough low high)]

/-- Growing down into the block right below goes without a lapse if both are large enough. -/
theorem growDownChecked_eq {below : Block} {size : Size} (belowSize : below.size p.memory = size)
    (hereSize : b.size p.memory = total) (kept : Word) (room : 32 ≤ wanted.toNat)
    (enough : wanted ≤ size + total) (low : 8 ≤ below.address.toNat)
    (high : below.address.toNat + (size.toNat + total.toNat) < UInt64.size)
    : p.growDownChecked b below wanted kept = .ok (p.growDown b below wanted kept) := by
  have sum : size.toNat + total.toNat < UInt64.size := by omega
  have whole := Size.toNat_add_of_lt sum
  rw [← whole] at high
  simp only [growDownChecked, growDown, belowSize, hereSize, Word.addChecked_word sum,
    Word.subChecked_word enough, Lapse.ok_bind, Size.word_le_word]
  by_cases large : Size.minBlock ≤ size + total - wanted
  · have tiles := splitHigh_tiles room enough rfl high
    have rest := Size.toNat_sub_of_le enough
    rw [splitHigh_of_le large] at tiles
    have slack := tiles.fits low high.le (e := ⟨below, size + total - wanted, false⟩) (by simp)
    have moved := tiles.fits low high.le
      (e := ⟨below.offset (size + total - wanted).word, wanted, true⟩) (by simp)
    have target : below.offsetChecked (size + total - wanted).word
        = .ok (below.offset (size + total - wanted).word) :=
      Block.offsetChecked_eq (by simp only [Size.toNat] at rest high ⊢; omega)
    simp only [large, if_true, target, Lapse.ok_bind]
    rw [writeTagsChecked_eq slack, Lapse.ok_bind, writeTagsChecked_eq moved]
    rfl
  · simp only [large, if_false]
    rw [writeTagsChecked_eq (fits_of_covers room enough low high)]
    rfl

end Pool

end BoundaryTag
