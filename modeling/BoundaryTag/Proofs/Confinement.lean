import BoundaryTag.Proofs.Verdicts

/-! What an audit reads. Both walks compute addresses from words that may be damaged, and compare
each of them with the ends of the region before they read there; so what lies outside the region
does not matter to what they find. The footer of the low end is the exception. It is read where the
header of the low end says, before anything is compared.
-/

namespace BoundaryTag

namespace Block

section

variable {m m' : Memory} {b : Block} (tag : b.tag m' = b.tag m)

include tag

/-- A block with the same header has the same size. -/
theorem size_of_tag_eq : b.size m' = b.size m := by
  rw [size, size, tag]

/-- A block with the same header has the same flag. -/
theorem allocated_of_tag_eq : b.allocated m' = b.allocated m := by
  rw [allocated, allocated, tag]

/-- A block with the same header has the same place for its footer. -/
theorem footer_of_tag_eq : b.footer m' = b.footer m := by
  rw [footer, footer, size_of_tag_eq tag]

/-- A block with the same header has the same block above. -/
theorem above_of_tag_eq : b.above m' = b.above m := by
  rw [above, above, size_of_tag_eq tag]

end

end Block

namespace Audit

section

variable {r : Region} {m m' : Memory} {before link : Link} {b c : Block} {passed xs : List Block}
  {a : Word} {n : Nat}

/-- The second memory holds the bytes of the first in the handed-out part of a region. -/
def SameIn (r : Region) (m m' : Memory) : Prop :=
  m.SameOff (Word.span r.start.toNat r.frontier.toNat)ᶜ m'

/-- A word in the region reads the same. -/
theorem SameIn.readWord_eq (same : SameIn r m m') (low : r.start.toNat ≤ a.toNat)
    (high : a.toNat + 8 ≤ r.frontier.toNat)
    : m'.readWord a = m.readWord a := by
  have limit := r.frontier.toNat_lt_size
  apply Memory.SameOff.readWord_eq same (by omega)
  intro x outside member
  apply outside
  rw [Word.mem_span] at member ⊢
  omega

/-- The header of a block whose address is in the region, behind its first word, reads the same. -/
theorem SameIn.tag_eq (same : SameIn r m m') (low : r.start.toNat + 8 ≤ b.address.toNat)
    (high : b.address.toNat ≤ r.frontier.toNat)
    : b.tag m' = b.tag m := by
  have header : b.header.toNat = b.address.toNat - 8 := Block.toNat_header (by omega)
  rw [Block.tag, Block.tag, same.readWord_eq (by omega) (by omega)]

/-- The footer of a block inside lies between its payload address and the end of the heap. -/
theorem footer_bounds {heapEnd : Word} (limit : heapEnd.toNat + 8 < UInt64.size)
    (low : 8 ≤ b.address.toNat) (within : inside m heapEnd b = true)
    : b.address.toNat ≤ (b.footer m).toNat ∧ (b.footer m).toNat + 8 ≤ heapEnd.toNat := by
  obtain ⟨-, sized, reach⟩ := (inside_iff ⟨heapEnd⟩ limit low).mp within
  have room := Size.le_toNat_of_ne_zero sized
  simp only at reach
  have footer : (b.footer m).toNat = b.address.toNat + (b.size m).toNat - 16 :=
    Block.toNat_footerFor room (by omega)
  omega

/-- The walk by address stays behind the first word of the region. -/
theorem low_above (limit : r.frontier.toNat + 8 < UInt64.size)
    (low : r.start.toNat + 8 ≤ b.address.toNat) (within : inside m r.frontier b = true)
    : r.start.toNat + 8 ≤ (b.above m).address.toNat := by
  obtain ⟨-, -, reach⟩ := (inside_iff ⟨r.frontier⟩ limit (by omega)).mp within
  rw [toNat_above ⟨r.frontier⟩ limit reach]
  omega

/-- All blocks that the walk by address comes to lie behind the first word of the region. -/
theorem low_of_mem_blockTrail (limit : r.frontier.toNat + 8 < UInt64.size)
    (low : r.start.toNat + 8 ≤ b.address.toNat) (hc : c ∈ blockTrail m r.frontier n b)
    : r.start.toNat + 8 ≤ c.address.toNat := by
  induction n generalizing b with
  | zero => simp [blockTrail] at hc
  | succ n ih =>
      rw [blockTrail, List.mem_cons] at hc
      rcases hc with rfl | later
      · exact low
      · by_cases within : inside m r.frontier b = true
        · rw [if_pos within] at later
          exact ih (low_above limit low within) later
        · rw [if_neg within] at later
          simp at later

variable (same : SameIn r m m') (limit : r.frontier.toNat + 8 < UInt64.size)

include same

/-- Whether the walk by address goes on behind a block does not depend on other bytes: a block
beyond the end is not read.
-/
theorem inside_eq (low : r.start.toNat + 8 ≤ b.address.toNat)
    : inside m' r.frontier b = inside m r.frontier b := by
  by_cases beyond : b.address ≤ r.frontier
  · have tag := same.tag_eq low (UInt64.le_iff_toNat_le.mp beyond)
    rw [inside, inside, Block.size_of_tag_eq tag]
  · simp [inside, beyond]

include limit

/-- A block inside reads the same, with its header and its footer. -/
theorem tags_eq (low : r.start.toNat + 8 ≤ b.address.toNat)
    (within : inside m r.frontier b = true)
    : b.tag m' = b.tag m ∧ b.footerTag m' = b.footerTag m := by
  have high := ((inside_iff ⟨r.frontier⟩ limit (by omega)).mp within).1
  have tag := same.tag_eq low high
  have footer := footer_bounds limit (by omega) within
  refine ⟨tag, ?_⟩
  rw [Block.footerTag, Block.footerTag, Block.footer_of_tag_eq tag,
    same.readWord_eq (by omega) (by omega)]

/-- What is found at a block that the walk by address comes to does not depend on other bytes. -/
theorem blockFindings_eq (low : r.start.toNat + 8 ≤ b.address.toNat)
    (behind : ∀ f ∈ before, f.allocated m' = f.allocated m)
    : blockFindings m' r.frontier before b = blockFindings m r.frontier before b :=
  blockFindings_congr (fun near => same.tag_eq low (UInt64.le_iff_toNat_le.mp near))
    (fun within => (tags_eq same limit low within).2) behind

/-- The walk by address comes to the same blocks whatever lies outside the region. -/
theorem blockTrail_eq (low : r.start.toNat + 8 ≤ b.address.toNat)
    : blockTrail m' r.frontier n b = blockTrail m r.frontier n b := by
  apply blockTrail_congr
  intro c hc
  have above := low_of_mem_blockTrail limit low hc
  exact ⟨inside_eq same above,
    fun within => Block.size_of_tag_eq (tags_eq same limit above within).1⟩

/-- The walk by address finds the same whatever lies outside the region. -/
theorem trailFindings_eq (low : r.start.toNat + 8 ≤ b.address.toNat)
    (behind : ∀ f ∈ before, f.allocated m' = f.allocated m)
    : trailFindings m' r.frontier before (blockTrail m r.frontier n b)
      = trailFindings m r.frontier before (blockTrail m r.frontier n b) := by
  induction n generalizing b before with
  | zero => rfl
  | succ n ih =>
      rw [blockTrail, trailFindings, trailFindings, blockFindings_eq same limit low behind]
      by_cases within : inside m r.frontier b = true
      · rw [if_pos within, ih (low_above limit low within) ?_]
        intro f hf
        obtain rfl := Option.mem_some_iff.mp hf
        exact Block.allocated_of_tag_eq (tags_eq same limit low within).1
      · rw [if_neg within, trailFindings, trailFindings]

/-- The walk by address comes to the same free blocks whatever lies outside the region. -/
theorem freeBlocks_eq (low : r.start.toNat + 8 ≤ b.address.toNat)
    : freeBlocks m' r.frontier (blockTrail m r.frontier n b)
      = freeBlocks m r.frontier (blockTrail m r.frontier n b) := by
  apply List.filter_congr
  intro c hc
  have above := low_of_mem_blockTrail limit low hc
  rw [inside_eq same above]
  by_cases within : inside m r.frontier c = true
  · rw [Block.allocated_of_tag_eq (tags_eq same limit above within).1]
  · simp [within]

variable (start : r.start.toNat + 8 < UInt64.size)

include start

/-- A member of the free list that lies right reads the same, with its header and its links. -/
theorem member_eq (holds : holdsLinks r b = true)
    : b.allocated m' = b.allocated m ∧ b.predecessor m' = b.predecessor m
      ∧ b.successor m' = b.successor m := by
  obtain ⟨-, low, high⟩ := (holdsLinks_iff start limit).mp holds
  have roomy : b.HasLinks := ⟨by omega, by omega⟩
  constructor
  · exact Block.allocated_of_tag_eq (same.tag_eq low (by omega))
  · apply roomy.links_eq same
    intro x outside member
    apply outside
    rw [Block.links, Word.mem_span] at member
    rw [Word.mem_span]
    omega

/-- The walk along the free list comes to the same members whatever lies outside the region. -/
theorem listTrail_eq : listTrail m' r n passed link = listTrail m r n passed link :=
  listTrail_congr fun _ _ holds => (member_eq same limit start holds).2.2

/-- The walk along the free list finds the same whatever lies outside the region. -/
theorem listFindings_eq : listFindings m' r passed xs = listFindings m r passed xs :=
  listFindings_congr fun _ _ holds =>
    have kept := member_eq same limit start holds
    ⟨kept.1, kept.2.1⟩

end

end Audit

namespace Heap

variable {h : Heap} {m : Memory}

/-- The heap over another memory. -/
def withMemory (h : Heap) (m : Memory) : Heap := { h with memory := m }

/-- All that an audit finds, but for the low end. -/
def findings (h : Heap) : List Violation :=
  Audit.trailFindings h.memory h.region.frontier none h.auditedBlocks
    ++ Audit.listFindings h.memory h.region [] h.auditedMembers
    ++ ((Audit.freeBlocks h.memory h.region.frontier h.auditedBlocks).filter fun b =>
      !(h.auditedMembers.filter (Audit.holdsLinks h.region)).contains b).map .freeNotListed

/-- What an audit finds at the low end comes first. -/
theorem violations_eq_append
    : h.violations
      = (if h.prologueIntact then []
          else [.badPrologue (h.prologue.tag h.memory) (h.prologue.footerTag h.memory)])
        ++ h.findings := by
  simp only [violations, findings, List.append_assoc]

section

variable (placed : h.Placed) (same : Audit.SameIn h.region h.memory m)

include placed same

/-- The header of the low end reads the same. -/
theorem tag_prologue_eq : h.prologue.tag m = h.prologue.tag h.memory := by
  have high := placed.high
  exact same.tag_eq placed.low (by omega)

/-- Whether the low end is as it was written does not depend on other bytes. -/
theorem prologueIntact_withMemory : (h.withMemory m).prologueIntact = h.prologueIntact := by
  have low := placed.low
  have high := placed.high
  have header : h.prologue.header.toNat = h.prologue.address.toNat - 8 :=
    Block.toNat_header (by omega)
  rw [Bool.eq_iff_iff, prologueIntact_iff, prologueIntact_iff]
  simp only [withMemory]
  rw [same.readWord_eq (by omega) (by omega), same.readWord_eq (by omega) (by omega)]

/-- The walk along the free list comes to the same members. -/
theorem auditedMembers_withMemory : (h.withMemory m).auditedMembers = h.auditedMembers :=
  Audit.listTrail_eq same placed.limit placed.toNat_start_add_lt

/-- What an audit finds above the low end does not depend on other bytes. -/
theorem findings_withMemory : (h.withMemory m).findings = h.findings := by
  have limit := placed.limit
  have members := auditedMembers_withMemory placed same
  have list : Audit.listFindings m h.region [] h.auditedMembers
      = Audit.listFindings h.memory h.region [] h.auditedMembers :=
    Audit.listFindings_eq same limit placed.toNat_start_add_lt
  have intact := prologueIntact_withMemory placed same
  have above := Block.above_of_tag_eq (tag_prologue_eq placed same)
  have sides : Audit.trailFindings m h.region.frontier none (h.withMemory m).auditedBlocks
        = Audit.trailFindings h.memory h.region.frontier none h.auditedBlocks
      ∧ Audit.freeBlocks m h.region.frontier (h.withMemory m).auditedBlocks
        = Audit.freeBlocks h.memory h.region.frontier h.auditedBlocks := by
    rw [auditedBlocks, auditedBlocks, intact]
    by_cases ends : h.prologueIntact = true
    · have low : h.region.start.toNat + 8 ≤ (h.prologue.above h.memory).address.toNat := by
        have start := placed.low
        rw [toNat_above_prologue placed (prologueIntact_iff.mp ends).1]
        omega
      rw [if_pos ends, if_pos ends]
      simp only [withMemory, above]
      rw [Audit.blockTrail_eq same limit low]
      exact ⟨Audit.trailFindings_eq same limit low (by simp), Audit.freeBlocks_eq same limit low⟩
    · rw [if_neg ends, if_neg ends]
      simp [Audit.trailFindings, Audit.freeBlocks]
  rw [findings, findings, members]
  simp only [withMemory] at sides ⊢
  rw [sides.1, sides.2, list]

end

/-- An audit does not depend on what lies outside the region, as long as the footer of the low end
lies inside, where the header says. Otherwise the word in that place is part of the report, and
nothing else in the report depends on it.
-/
theorem violations_withMemory (placed : h.Placed)
    (same : h.memory.SameOff (Word.span h.region.start.toNat h.region.frontier.toNat)ᶜ m)
    : (h.region.start.toNat ≤ (h.prologue.footer h.memory).toNat
        → (h.prologue.footer h.memory).toNat + 8 ≤ h.region.frontier.toNat
        → (h.withMemory m).violations = h.violations)
      ∧ ((h.withMemory m).violations = h.violations
        ∨ ∃ header footer footer' rest,
            h.violations = .badPrologue header footer :: rest
            ∧ (h.withMemory m).violations = .badPrologue header footer' :: rest) := by
  have intact := prologueIntact_withMemory placed same
  have rest := findings_withMemory placed same
  have tag := tag_prologue_eq placed same
  have other : (h.withMemory m).violations
      = (if h.prologueIntact then []
          else [.badPrologue (h.prologue.tag h.memory) (h.prologue.footerTag m)])
        ++ h.findings := by
    rw [violations_eq_append, intact, rest]
    simp only [withMemory, tag]
  rw [other, violations_eq_append]
  constructor
  · intro low high
    have place := Block.footer_of_tag_eq tag
    have footer : h.prologue.footerTag m = h.prologue.footerTag h.memory := by
      rw [Block.footerTag, Block.footerTag, place, Audit.SameIn.readWord_eq same low high]
    rw [footer]
  · by_cases ends : h.prologueIntact = true
    · left
      rw [if_pos ends, if_pos ends]
    · right
      rw [if_neg ends, if_neg ends]
      exact ⟨_, _, _, _, rfl, rfl⟩

/-- A new heap with a damaged header at its low end, which places the footer beyond the region. -/
def tornHeap : Heap :=
  let h := (create (.ofChunkSize 256) ⟨0x1000, 0, 4096⟩ .zeros).2
  h.withMemory (h.memory.writeWord h.prologue.header 1009)

/-- The memory of the torn heap with another word in the place where the footer would be. -/
def tornMemory : Memory := tornHeap.memory.writeWord 5104 49

/-- The low end of the torn heap lies in the handed-out part of its region. -/
theorem placed_torn : tornHeap.Placed :=
  ⟨by decide +kernel, by decide +kernel, by decide +kernel⟩

/-- The two memories are the same in the region. -/
theorem same_torn
    : tornHeap.memory.SameOff
        (Word.span tornHeap.region.start.toNat tornHeap.region.frontier.toNat)ᶜ tornMemory := by
  have frontier : tornHeap.region.frontier.toNat = 4384 := by decide +kernel
  apply (tornHeap.memory.sameOff_writeWord (a := 5104) 49 (by decide)).mono
  intro x beyond within
  rw [Word.mem_span] at beyond within
  have place : (5104 : Word).toNat = 5104 := rfl
  omega

/-- A word outside the region can show in the report of an audit. -/
theorem violations_torn
    : tornHeap.Placed
      ∧ tornHeap.memory.SameOff
          (Word.span tornHeap.region.start.toNat tornHeap.region.frontier.toNat)ᶜ tornMemory
      ∧ tornHeap.violations = [.badPrologue ⟨1009⟩ ⟨0⟩]
      ∧ (tornHeap.withMemory tornMemory).violations = [.badPrologue ⟨1009⟩ ⟨49⟩] :=
  ⟨placed_torn, same_torn, by decide +kernel, by decide +kernel⟩

/-- The reports of the torn heap over the two memories differ in the footer of the low end only. -/
theorem report_torn
    : tornHeap.Placed
      ∧ tornHeap.memory.SameOff
          (Word.span tornHeap.region.start.toNat tornHeap.region.frontier.toNat)ᶜ tornMemory
      ∧ ∃ header footer footer' rest,
          tornHeap.violations = .badPrologue header footer :: rest
          ∧ (tornHeap.withMemory tornMemory).violations = .badPrologue header footer' :: rest := by
  have differ : (tornHeap.withMemory tornMemory).violations ≠ tornHeap.violations := by
    decide +kernel
  exact ⟨placed_torn, same_torn,
    (violations_withMemory placed_torn same_torn).2.resolve_left differ⟩

end Heap

end BoundaryTag
