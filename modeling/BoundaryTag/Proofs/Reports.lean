import BoundaryTag.Proofs.Confinement

/-! Audits that can come to nothing. What a program reads in memory that nobody gave it cannot be
told: there may be no memory at all. So an audit is made here with reads that can fail, and the
first failure is the end of it. Both walks keep to the region, and none of their reads fails. The
footer of the low end is read where the header says, though, and there is a report only if that lies
in memory that the region has.
-/

namespace BoundaryTag

namespace Region

variable {r : Region} {m : Memory} {a : Word}

/-- Whether there is memory for a word at an address. There is for the whole capacity of a region,
whether it is handed out or not, and for nothing else.
-/
def owns (r : Region) (a : Word) : Bool :=
  r.start.toNat ≤ a.toNat && a.toNat + 8 ≤ r.start.toNat + r.capacity.toNat

/-- There is memory for a word whose eight bytes all lie within the capacity. -/
theorem owns_iff
    : r.owns a = true
      ↔ r.start.toNat ≤ a.toNat ∧ a.toNat + 8 ≤ r.start.toNat + r.capacity.toNat := by
  simp [owns]

/-- The word at an address, if there is memory for it. -/
def read? (r : Region) (m : Memory) (a : Word) : Option Word :=
  if r.owns a then some (m.readWord a) else none

end Region

-----------------------------------------------------------------------------------------
-- Audits by reads that can fail
-----------------------------------------------------------------------------------------

namespace Block

/-- The header tag of a block. -/
def tag? (b : Block) (read : Word → Option Word) : Option Tag :=
  (read b.header).map Tag.mk

/-- The footer tag of a block, where the header says that it is. -/
def footerTag? (b : Block) (read : Word → Option Word) : Option Tag := do
  let header ← b.tag? read
  (read (b.footerFor header.size.word)).map Tag.mk

/-- The listed block before a listed block. -/
def predecessor? (b : Block) (read : Word → Option Word) : Option Link :=
  (read b.predecessorSlot).map Link.ofWord

/-- The listed block after a listed block. -/
def successor? (b : Block) (read : Word → Option Word) : Option Link :=
  (read b.successorSlot).map Link.ofWord

end Block

namespace Audit

/-- Looks at a block that the walk by address comes to, given the one right below if that is free.
The header comes back if the walk goes on behind the block.
-/
def inspect? (read : Word → Option Word) (heapEnd : Word) (below : Link) (b : Block)
    : Option (List Violation × Option Tag) :=
  if heapEnd < b.address then
    some ([.outOfBounds b 0 heapEnd], none)
  else do
    let header ← b.tag? read
    if header.size = Size.zero then
      return (if header.allocated ∧ b.address = heapEnd then [] else [.badEpilogue b header], none)
    else if heapEnd < b.header.addSaturating header.size.word then
      return ([.outOfBounds b header.size.word heapEnd], none)
    else
      let footer ← b.footerTag? read
      let found := (if b.address % alignment = 0 then [] else [.misaligned b])
        ++ (if header.size < Size.minBlock then [.undersized b header.size.word] else [])
        ++ (if footer = header then [] else [.tagMismatch b header footer])
        ++ match below with
          | some first => if header.allocated then [] else [.adjacentFree first b]
          | none => []
      return (found, some header)

/-- Walks by address for a number of steps, given the block right below if that is free, and says
what is wrong and which blocks are free.
-/
def climb? (read : Word → Option Word) (heapEnd : Word)
    : Nat → Link → Block → Option (List Violation × List Block)
  | 0, _, _ => some ([], [])
  | n + 1, below, b => do
    let (found, header?) ← inspect? read heapEnd below b
    match header? with
    | none => return (found, [])
    | some header =>
      let free : Link := if header.allocated then none else some b
      let (later, others) ← climb? read heapEnd n free (b.offset header.size.word)
      return (found ++ later, free.toList ++ others)

/-- Walks along the free list for a number of steps, given the members that it has passed, latest
first, and says what is wrong and which members lie right.
-/
def follow? (read : Word → Option Word) (r : Region)
    : Nat → List Block → Link → Option (List Violation × List Block)
  | 0, _, _ => some ([], [])
  | _, _, none => some ([], [])
  | n + 1, passed, some b =>
    if !holdsLinks r b then
      some ([.listedOutOfBounds b], [])
    else if passed.contains b then
      -- The member is there twice then, which makes no difference to what is not listed.
      some ([.freeListCycle b], [b])
    else do
      let header ← b.tag? read
      let predecessor ← b.predecessor? read
      let next ← b.successor? read
      let found := (if header.allocated then [.listedNotFree b] else [])
        ++ if predecessor = passed.head? then [] else [.brokenLink b predecessor passed.head?]
      let (later, others) ← follow? read r n (b :: passed) next
      return (found ++ later, b :: others)

end Audit

namespace Heap

/-- What an audit makes of the blocks of a heap: what is wrong with the low end and the blocks above
it, and which of them are free. It does not set out from a damaged low end.
-/
def auditBlocks? (h : Heap) (read : Word → Option Word) : Option (List Violation × List Block) := do
  let header ← h.prologue.tag? read
  let footer ← h.prologue.footerTag? read
  let expected := Tag.pack prologueSize true
  if header = expected ∧ footer = expected then
    let first := h.prologue.offset header.size.word
    Audit.climb? read h.region.frontier Pool.walkLimit none first
  else
    return ([.badPrologue header footer], [])

/-- What an audit of a heap reports, if it comes to a report: there has to be memory for all that it
reads.
-/
def report? (h : Heap) : Option (List Violation) := do
  let read := h.region.read? h.memory
  let (found, free) ← h.auditBlocks? read
  let (foundInList, members) ← Audit.follow? read h.region Pool.walkLimit [] h.head
  let unlisted := free.filter fun b => !members.contains b
  return found ++ foundInList ++ unlisted.map .freeNotListed

end Heap

-----------------------------------------------------------------------------------------
-- Reads that do not fail in the region
-----------------------------------------------------------------------------------------

namespace Audit

variable {r : Region} {m : Memory} {read : Word → Option Word} {before : Link} {b : Block}

/-- Reads of what is handed out do not fail. -/
def Provides (r : Region) (m : Memory) (read : Word → Option Word) : Prop :=
  ∀ a : Word, r.start.toNat ≤ a.toNat → a.toNat + 8 ≤ r.frontier.toNat
    → read a = some (m.readWord a)

/-- There is memory for what is handed out. -/
theorem provides_read? (within : r.frontier.toNat ≤ r.start.toNat + r.capacity.toNat)
    : Provides r m (r.read? m) := by
  intro a low high
  rw [Region.read?, if_pos (Region.owns_iff.mpr ⟨low, by omega⟩)]

namespace Provides

variable (provides : Provides r m read)

include provides

/-- The header of a block below the end of the heap, behind the first word of the region, is read.
-/
theorem tag?_eq (low : r.start.toNat + 8 ≤ b.address.toNat)
    (high : b.address.toNat ≤ r.frontier.toNat)
    : b.tag? read = some (b.tag m) := by
  have header : b.header.toNat = b.address.toNat - 8 := Block.toNat_header (by omega)
  rw [Block.tag?, provides _ (by omega) (by omega), Option.map_some, Block.tag]

variable (limit : r.frontier.toNat + 8 < UInt64.size)

include limit

/-- The footer of a block inside the heap is read. -/
theorem footerTag?_eq (low : r.start.toNat + 8 ≤ b.address.toNat)
    (within : inside m r.frontier b = true)
    : b.footerTag? read = some (b.footerTag m) := by
  have high := ((inside_iff ⟨r.frontier⟩ limit (by omega)).mp within).1
  have footer := footer_bounds limit (by omega) within
  rw [Block.footerTag?, provides.tag?_eq low high, Option.bind_eq_bind, Option.bind_some,
    ← Block.size, ← Block.footer, provides _ (by omega) (by omega), Option.map_some,
    Block.footerTag]

/-- Looking at a block finds what is to be found, and the walk goes on behind a block inside. -/
theorem inspect?_eq (low : r.start.toNat + 8 ≤ b.address.toNat)
    : inspect? read r.frontier (before.filter (!·.allocated m)) b
      = some (blockFindings m r.frontier before b,
          if inside m r.frontier b then some (b.tag m) else none) := by
  -- There are four ways to look at a block, and only the last leads on: beyond the end, without a
  -- size, reaching too far, and inside.
  by_cases beyond : r.frontier < b.address
  · have outside : inside m r.frontier b = false := by simp [inside, beyond]
    simp [inspect?, blockFindings, outside, beyond]
  have near := UInt64.not_lt.mp beyond
  have header := provides.tag?_eq low (UInt64.le_iff_toNat_le.mp near)
  rw [inspect?, if_neg beyond, header, blockFindings, if_neg beyond, Option.bind_eq_bind,
    Option.bind_some, ← Block.size, ← Block.allocated]
  by_cases sized : b.size m = Size.zero
  · have outside : inside m r.frontier b = false := by simp [inside, sized]
    rw [if_pos sized, if_pos sized, outside]
    rfl
  by_cases long : r.frontier < b.header.addSaturating (b.size m).word
  · have outside : inside m r.frontier b = false := by
      simp only [inside, UInt64.not_le.mpr long, decide_false, Bool.and_false]
    rw [if_neg sized, if_pos long, if_neg sized, if_pos long, outside]
    rfl
  have within : inside m r.frontier b = true := by
    simp [inside, near, sized, UInt64.not_lt.mp long]
  rw [if_neg sized, if_neg long, if_neg sized, if_neg long, within,
    provides.footerTag?_eq limit low within]
  cases before with
  | none => rfl
  | some f =>
      cases beside : f.allocated m <;>
        simp only [blockFaults, Option.filter, beside, Bool.not_false, Bool.not_true,
          Bool.false_or, Bool.true_or, Bool.false_eq_true, if_true, if_false] <;>
        rfl

/-- The walk by address finds what is to be found, and comes to all free blocks of its trail. -/
theorem climb?_eq (n : Nat) (before : Link) (low : r.start.toNat + 8 ≤ b.address.toNat)
    : climb? read r.frontier n (before.filter (!·.allocated m)) b
      = some (trailFindings m r.frontier before (blockTrail m r.frontier n b),
          freeBlocks m r.frontier (blockTrail m r.frontier n b)) := by
  induction n generalizing b before with
  | zero => rfl
  | succ n ih =>
      rw [climb?, provides.inspect?_eq limit low, Option.bind_eq_bind, Option.bind_some, blockTrail,
        trailFindings]
      by_cases within : inside m r.frontier b = true
      · have free : (if b.allocated m then none else some b)
            = (some b : Link).filter (!·.allocated m) := by
          cases flag : b.allocated m <;> simp [Option.filter, flag]
        have above := low_above limit low within
        simp only [if_pos within]
        rw [← Block.allocated, ← Block.size, ← Block.above, free, ih _ above, Option.bind_eq_bind,
          Option.bind_some, freeBlocks, freeBlocks, List.filter_cons]
        cases flag : b.allocated m <;> simp [Option.filter, flag, within]
      · rw [if_neg within, if_neg within]
        simp [trailFindings, freeBlocks, within]

variable (start : r.start.toNat + 8 < UInt64.size)

include start

/-- The header and both links of a member that lies right are read. -/
theorem member?_eq (holds : holdsLinks r b = true)
    : b.tag? read = some (b.tag m) ∧ b.predecessor? read = some (b.predecessor m)
      ∧ b.successor? read = some (b.successor m) := by
  obtain ⟨-, low, high⟩ := (holdsLinks_iff start limit).mp holds
  have roomy : b.HasLinks := ⟨by omega, by omega⟩
  have back : b.predecessorSlot.toNat = b.address.toNat := rfl
  have on := roomy.toNat_successorSlot
  refine ⟨provides.tag?_eq low (by omega), ?_, ?_⟩
  · rw [Block.predecessor?, provides _ (by omega) (by omega), Option.map_some, Block.predecessor]
  · rw [Block.successor?, provides _ (by omega) (by omega), Option.map_some, Block.successor]

/-- The walk along the free list finds what is to be found, and comes to all members that lie right.
-/
theorem follow?_eq (n : Nat) (passed : List Block) (link : Link)
    : follow? read r n passed link
      = some (listFindings m r passed (listTrail m r n passed link),
          (listTrail m r n passed link).filter (holdsLinks r)) := by
  induction n generalizing passed link with
  | zero => rfl
  | succ n ih =>
      cases link with
      | none => rfl
      | some b =>
          by_cases holds : holdsLinks r b = true
          · by_cases again : b ∈ passed
            · simp [follow?, listTrail, listFindings, memberFindings, holds, again]
            · obtain ⟨header, back, on⟩ := provides.member?_eq limit start holds
              have flag : (b.tag m).allocated = b.allocated m := rfl
              simp [follow?, listTrail, listFindings, memberFindings, holds, again, header, back,
                on, ih, flag]
          · simp [follow?, listTrail, listFindings, memberFindings, holds]

end Provides

end Audit

namespace Heap

variable {h : Heap} (placed : h.Placed)
  (within : h.region.frontier.toNat ≤ h.region.start.toNat + h.region.capacity.toNat)

include placed within

/-- An audit gets through the blocks exactly if the header of the low end puts the footer where
there is memory.
-/
theorem auditBlocks?_eq
    : h.auditBlocks? (h.region.read? h.memory)
      = if h.region.owns (h.prologue.footer h.memory) then
          some ((if h.prologueIntact then []
              else [.badPrologue (h.prologue.tag h.memory) (h.prologue.footerTag h.memory)])
            ++ Audit.trailFindings h.memory h.region.frontier none h.auditedBlocks,
            Audit.freeBlocks h.memory h.region.frontier h.auditedBlocks)
        else none := by
  have high := placed.high
  have provides := Audit.provides_read? (m := h.memory) within
  have header := provides.tag?_eq placed.low (by omega)
  have footer : h.prologue.footerTag? (h.region.read? h.memory)
      = (h.region.read? h.memory (h.prologue.footer h.memory)).map Tag.mk := by
    rw [Block.footerTag?, header, Option.bind_eq_bind, Option.bind_some, ← Block.size,
      ← Block.footer]
  rw [auditBlocks?, header, footer, Region.read?, Option.bind_eq_bind, Option.bind_some]
  by_cases owned : h.region.owns (h.prologue.footer h.memory) = true
  · have ends_iff : h.prologueIntact = true ↔ h.prologue.tag h.memory = Tag.pack prologueSize true
        ∧ h.prologue.footerTag h.memory = Tag.pack prologueSize true := by
      simp [prologueIntact]
    rw [if_pos owned, if_pos owned, Option.map_some, ← Block.footerTag, Option.bind_some,
      auditedBlocks]
    by_cases ends : h.prologueIntact = true
    · have low : h.region.start.toNat + 8 ≤ (h.prologue.above h.memory).address.toNat := by
        have start := placed.low
        rw [toNat_above_prologue placed (prologueIntact_iff.mp ends).1]
        omega
      have walk := provides.climb?_eq placed.limit Pool.walkLimit none low
      rw [Option.filter_none] at walk
      rw [if_pos (ends_iff.mp ends), if_pos ends, if_pos ends, List.nil_append, ← Block.size,
        ← Block.above, walk]
    · rw [if_neg (mt ends_iff.mpr ends), if_neg ends, if_neg ends]
      rfl
  · rw [if_neg owned, if_neg owned]
    rfl

/-- An audit of a heap comes to a report exactly if the header of the low end puts the footer where
there is memory, and then it reports all that is wrong.
-/
theorem report?_eq
    : h.report?
      = if h.region.owns (h.prologue.footer h.memory) then some h.violations else none := by
  have provides := Audit.provides_read? (m := h.memory) within
  have members :=
    provides.follow?_eq placed.limit placed.toNat_start_add_lt Pool.walkLimit [] h.head
  rw [report?, auditBlocks?_eq placed within]
  by_cases owned : h.region.owns (h.prologue.footer h.memory) = true
  · rw [if_pos owned, if_pos owned, violations, auditedMembers]
    simp only [members, Option.bind_eq_bind, Option.bind_some, Option.pure_def]
  · rw [if_neg owned, if_neg owned]
    rfl

/-- The same goes for the heap over any other memory. -/
theorem report?_withMemory (m : Memory)
    : (h.withMemory m).report?
      = if h.region.owns (h.prologue.footer m) then some (h.withMemory m).violations else none :=
  report?_eq (h := h.withMemory m) ⟨placed.low, placed.high, placed.limit⟩ within

end Heap

end BoundaryTag
