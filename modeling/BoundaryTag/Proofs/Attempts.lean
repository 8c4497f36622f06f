import BoundaryTag.Proofs.Consistency
import BoundaryTag.Proofs.Founding

/-! Setting a heap up, also where that has failed before. The room that is left decides what comes
of it, whatever the memory holds: nothing happens at all, only the ends of the heap are written,
or there is a heap of one free block. A failure uses up no more than those ends, so that a later
attempt goes as if it were the first in what is left.
-/

namespace BoundaryTag.Heap

/-- A heap that has just been set up behind the first address of its region not handed out before.
-/
structure Founded (settings : Settings) (region : Region) (memory : Memory) (h : Heap) : Prop where
  frontier : h.region.frontier.toNat
    = region.frontier.toNat + 32 + settings.chunkSize.toNat
  /-- Its only block is the first chunk, which is free and listed. -/
  blocks : h.blocks = [⟨⟨region.frontier + 32⟩, settings.chunkSize, false⟩]
  freeBlocks : h.freeBlocks = [⟨⟨region.frontier + 32⟩, settings.chunkSize, false⟩]
  members : h.members = [⟨region.frontier + 32⟩]
  /-- An audit finds nothing wrong with it, and its walks agree with one another. -/
  clean : h.violations = []
  consistent : Session.Consistent region.frontier.toNat ⟨h, []⟩
  frame : memory.SameOff (Word.span region.frontier.toNat h.region.frontier.toNat) h.memory

/-- What comes of setting a heap up, by the room that is left for it. -/
structure Decided (settings : Settings) (region : Region) (memory : Memory)
    (reply : Except Refusal Unit) (h : Heap) : Prop where
  /-- Without room for its ends, nothing happens. -/
  short (few : region.available.toNat < 32)
    : reply = .error (.noRoomToStart ⟨32, region.available⟩)
      ∧ h.region = region ∧ h.memory = memory
  /-- Without room for its first chunk, the ends are written and stay handed out. -/
  cramped (ends : 32 ≤ region.available.toNat)
    (few : region.available.toNat < 32 + settings.chunkSize.toNat)
    : reply = .error (.noRoomToStart ⟨settings.chunkSize.word, region.available - 32⟩)
      ∧ h.region.frontier.toNat = region.frontier.toNat + 32
      ∧ memory.SameOff (Word.span region.frontier.toNat (region.frontier.toNat + 32)) h.memory
  /-- Otherwise the heap is there. -/
  roomy (room : 32 + settings.chunkSize.toNat ≤ region.available.toNat)
    : reply = .ok () ∧ h.Founded settings region memory

variable {chunk : Word} {settings : Settings} {region region' : Region} {memory memory' : Memory}

-----------------------------------------------------------------------------------------
-- One attempt
-----------------------------------------------------------------------------------------

/-- A heap that was set up consists of its first chunk. -/
theorem founded_create (rounds : chunk ≤ Size.greatest.word) (sane : region.Sane)
    (aligned : region.frontier.toNat % 16 = 0)
    (created : (create (.ofChunkSize chunk) region memory).1 = .ok ())
    : (create (.ofChunkSize chunk) region memory).2.Founded (.ofChunkSize chunk) region memory := by
  have room := Settings.toNat_ofChunkSize rounds
  obtain ⟨ord, -, -⟩ := inOrder_create sane room created
  have first : (region.advance sentinelSize.word).frontier = region.frontier + 32 :=
    region.frontier_advance sentinelSize.word
  rw [first] at ord
  have begins : Session.Begins chunk region memory := ⟨rounds, sane, created⟩
  obtain ⟨es, xs, coherent⟩ := begins.coherent
  have tagged := ord.settled.tagged _ (List.mem_singleton_self _)
  constructor
  case frontier =>
    have used := used_create sane created
    rw [ord.sane.toNat_frontier, start_create, used, sane.toNat_frontier]
    omega
  case blocks => exact ord.blocks_eq
  case freeBlocks =>
    rw [freeBlocks, ord.members_eq, List.map_singleton, tagged.ofBlock_eq]
  case members => exact ord.members_eq
  case clean => exact violations_create sane aligned room created
  case consistent => exact coherent.consistent
  case frame => exact sameOff_create memory sane room

/-- The room that is left in a region decides what comes of setting a heap up in it. -/
theorem decided_create (rounds : chunk ≤ Size.greatest.word) (sane : region.Sane)
    (aligned : region.frontier.toNat % 16 = 0)
    : Decided (.ofChunkSize chunk) region memory (create (.ofChunkSize chunk) region memory).1
        (create (.ofChunkSize chunk) region memory).2 := by
  constructor
  case short =>
    intro few
    have short : region.available < sentinelSize.word := UInt64.lt_iff_toNat_lt.mpr few
    rw [create_eq_of_short short]
    exact ⟨rfl, rfl, rfl⟩
  case cramped =>
    intro enough few
    have enough : sentinelSize.word ≤ region.available := UInt64.le_iff_toNat_le.mpr enough
    have left := toNat_available_bare (.ofChunkSize chunk) memory sane enough
    have cramped : (bare (.ofChunkSize chunk) region memory).region.available
        < (Settings.ofChunkSize chunk).chunkSize.word := by
      rw [UInt64.lt_iff_toNat_lt]
      simp only [Size.toNat] at few
      omega
    have same := (inOrder_bare memory sane (Settings.toNat_ofChunkSize rounds) enough).2
    have moved := toNat_frontier_ends sane enough
    rw [moved] at same
    rw [create_eq_of_cramped enough cramped, region_bare, Region.available_advance]
    exact ⟨rfl, moved, same⟩
  case roomy =>
    intro room
    have created : (create (.ofChunkSize chunk) region memory).1 = .ok () :=
      (create_eq_ok_iff sane).mpr room
    exact ⟨created, founded_create rounds sane aligned created⟩

-----------------------------------------------------------------------------------------
-- Attempts that fail
-----------------------------------------------------------------------------------------

/-- Attempts to set a heap up in a region, one after the other and each with its own chunk, that
have all failed, and the region and the memory that they leave.
-/
inductive Tried (region : Region) (memory : Memory) : Region → Memory → Prop
  | none : Tried region memory region memory
  | again {region' : Region} {memory' : Memory} (before : Tried region memory region' memory')
      (chunk : Word) (failed : (create (.ofChunkSize chunk) region' memory').1 ≠ .ok ())
    : Tried region memory (create (.ofChunkSize chunk) region' memory').2.region
        (create (.ofChunkSize chunk) region' memory').2.memory

/-- A region and a memory behind the ends of some heaps that there was no room for. -/
structure Spent (region : Region) (memory : Memory) (ends : Nat) (region' : Region)
    (memory' : Memory) : Prop where
  sane : region'.Sane
  frontier : region'.frontier.toNat = region.frontier.toNat + 32 * ends
  available : region'.available.toNat + 32 * ends = region.available.toNat
  frame : memory.SameOff (Word.span region.frontier.toNat region'.frontier.toNat) memory'

/-- A failed attempt uses up the ends of one heap at most. -/
theorem spent_create (sane : region.Sane)
    (failed : (create (.ofChunkSize chunk) region memory).1 ≠ .ok ())
    : ∃ ends, Spent region memory ends (create (.ofChunkSize chunk) region memory).2.region
        (create (.ofChunkSize chunk) region memory).2.memory := by
  rcases create_cases (.ofChunkSize chunk) region memory with
    ⟨-, made⟩ | ⟨enough, cramped, made⟩ | ⟨-, -, made⟩ <;>
    rw [made] at failed ⊢
  · exact ⟨0, sane, rfl, rfl, .refl _ _⟩
  · -- A chunk that cannot be rounded up is none, which there would have been room for.
    have rounds : chunk ≤ Size.greatest.word := by
      by_contra wraps
      rw [Settings.chunkSize_eq_zero (UInt64.not_le.mp wraps)] at cramped
      exact UInt64.not_lt_zero cramped
    have moved := toNat_frontier_ends sane enough
    have same := (inOrder_bare memory sane (Settings.toNat_ofChunkSize rounds) enough).2
    have left := toNat_available_bare (.ofChunkSize chunk) memory sane enough
    rw [region_bare] at left
    rw [region_bare]
    exact ⟨1, sane.advance enough, moved, left, same⟩
  · exact absurd rfl failed

/-- Failed attempts use up the ends of some heaps, by induction over the attempts. -/
theorem Tried.spent (tried : Tried region memory region' memory') (sane : region.Sane)
    : ∃ ends, Spent region memory ends region' memory' := by
  induction tried with
  | none => exact ⟨0, sane, rfl, rfl, .refl _ _⟩
  | again _ chunk failed ih =>
      obtain ⟨ends, before⟩ := ih
      obtain ⟨more, last⟩ := spent_create before.sane failed
      have frontier := before.frontier
      have frontier' := last.frontier
      have available := before.available
      have available' := last.available
      refine ⟨ends + more, last.sane, by omega, by omega, ?_⟩
      apply (before.frame.mono ?_).trans (last.frame.mono ?_) <;> intro x hx <;>
        rw [Word.mem_span] at hx ⊢ <;>
        omega

/-- Whatever the memory holds, the room that is left in a region decides what comes of setting a
heap up in it. It stays so however many attempts have failed there: they have used up the ends of
some heaps and touched nothing else, and where the ends and the chunk still fit, there is a heap
of one free block with nothing wrong.
-/
theorem decided_of_tried (rounds : chunk ≤ Size.greatest.word) (sane : region.Sane)
    (aligned : region.frontier.toNat % 16 = 0) (memory : Memory)
    : Decided (.ofChunkSize chunk) region memory (create (.ofChunkSize chunk) region memory).1
        (create (.ofChunkSize chunk) region memory).2
      ∧ ∀ region' memory', Tried region memory region' memory' →
          (∃ ends, Spent region memory ends region' memory')
          ∧ Decided (.ofChunkSize chunk) region' memory'
              (create (.ofChunkSize chunk) region' memory').1
              (create (.ofChunkSize chunk) region' memory').2 := by
  refine ⟨decided_create rounds sane aligned, ?_⟩
  intro region' memory' tried
  obtain ⟨ends, spent⟩ := tried.spent sane
  have frontier := spent.frontier
  exact ⟨⟨ends, spent⟩, decided_create rounds spent.sane (by omega)⟩

/-- In a region of 192 bytes, a chunk of 4096 bytes does not fit, nor one of 208 in the 160 bytes
that are left then. One of 96 bytes does, and is all that was left.
-/
theorem decided_of_two_failures
    : 96 ≤ Size.greatest.word ∧ (⟨0x1000, 0, 192⟩ : Region).Sane
      ∧ (⟨0x1000, 0, 192⟩ : Region).frontier.toNat % 16 = 0
      ∧ ∃ region' memory', Tried ⟨0x1000, 0, 192⟩ (.untouched fun _ => 255) region' memory'
        ∧ region'.available = 128
        ∧ (create (.ofChunkSize 96) region' memory').1 = .ok ()
        ∧ (create (.ofChunkSize 96) region' memory').2.blocks
          = [⟨⟨0x1060⟩, ⟨96, by decide⟩, false⟩]
        ∧ (create (.ofChunkSize 96) region' memory').2.violations = [] := by
  have rounds : 96 ≤ Size.greatest.word := by decide
  have sane : (⟨0x1000, 0, 192⟩ : Region).Sane := ⟨by decide, by decide⟩
  have aligned : (⟨0x1000, 0, 192⟩ : Region).frontier.toNat % 16 = 0 := by decide
  have fresh : Tried ⟨0x1000, 0, 192⟩ (.untouched fun _ => 255) ⟨0x1000, 0, 192⟩
      (.untouched fun _ => 255) :=
    .none
  have once := fresh.again 4096 (by decide +kernel)
  have twice := once.again 200 (by decide +kernel)
  obtain ⟨-, decided⟩ := (decided_of_tried rounds sane aligned _).2 _ _ twice
  obtain ⟨created, founded⟩ := decided.roomy (by decide +kernel)
  refine ⟨rounds, sane, aligned, _, _, twice, by decide +kernel, created, ?_, founded.clean⟩
  rw [founded.blocks]
  decide +kernel

end BoundaryTag.Heap
