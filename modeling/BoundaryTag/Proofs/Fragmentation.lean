import BoundaryTag.Proofs.Clearing
import BoundaryTag.Proofs.Recycling

/-! How much more than it needs a block is given. Wherever a range is divided, what is left over
becomes a block of its own if it can, so that only less than the smallest block is ever allocated
along. This holds for the first fit, for what the heap grows by, and for each way to get another
size; and a block with so little to spare remains as it is when it is asked to shrink to what it was
made for.
-/

namespace BoundaryTag

-----------------------------------------------------------------------------------------
-- Sizes with little to spare
-----------------------------------------------------------------------------------------

namespace Size

/-- A size is snug for a wanted one if it has no more to spare than the alignment is. -/
def Snug (wanted size : Size) : Prop :=
  size.toNat = wanted.toNat ∨ size.toNat = wanted.toNat + 16

variable {wanted size : Size}

/-- A size is snug for itself. -/
theorem Snug.refl (wanted : Size) : wanted.Snug wanted := Or.inl rfl

/-- What is left over of a size cannot form a block if and only if the size is snug. -/
theorem snug_iff (enough : wanted ≤ size) : wanted.Snug size ↔ ¬minBlock ≤ size - wanted := by
  have whole := size.toNat_mod
  have whole' := wanted.toNat_mod
  rw [le_iff, toNat_sub_of_le enough, toNat_minBlock, Snug]
  rw [le_iff] at enough
  omega

end Size

-----------------------------------------------------------------------------------------
-- Dividing a range
-----------------------------------------------------------------------------------------

section

variable {total wanted : Size}

/-- The low end of a divided range is snug. -/
theorem exists_snug_split (b : Block) (enough : wanted ≤ total)
    : ∃ e ∈ split b total wanted, e.block = b ∧ e.allocated = true ∧ wanted.Snug e.size := by
  by_cases large : Size.minBlock ≤ total - wanted
  · exact ⟨⟨b, wanted, true⟩, by simp [split_of_le large], rfl, rfl, .refl wanted⟩
  · exact ⟨⟨b, total, true⟩, by simp [split_of_not_le large], rfl, rfl,
      (Size.snug_iff enough).mpr large⟩

/-- The high end of a divided range is snug. -/
theorem exists_snug_splitHigh (b : Block) (enough : wanted ≤ total)
    : ∃ e ∈ splitHigh b total wanted, e.block = highEnd b total wanted ∧ e.allocated = true
        ∧ wanted.Snug e.size := by
  by_cases large : Size.minBlock ≤ total - wanted
  · exact ⟨⟨b.offset (total - wanted).word, wanted, true⟩, by simp [splitHigh_of_le large],
      by simp [highEnd, large], rfl, .refl wanted⟩
  · exact ⟨⟨b, total, true⟩, by simp [splitHigh_of_not_le large], by simp [highEnd, large], rfl,
      (Size.snug_iff enough).mpr large⟩

end

-----------------------------------------------------------------------------------------
-- Blocks that a heap hands out
-----------------------------------------------------------------------------------------

namespace Heap

/-- The walk by address shows a block in use whose size is snug for a wanted one. -/
def Suits (h : Heap) (wanted : Size) (b : Block) : Prop :=
  ∃ e ∈ h.blocks, e.block = b ∧ e.allocated = true ∧ wanted.Snug e.size

namespace InOrder

variable {h : Heap} {es : List Extent} {xs : List Block} {s : Site} {wanted : Size} {bytes : Word}
  {b target : Block}

/-- An allocated block is snug for its request, whether the heap has grown for it or not. -/
theorem suits_allocate (ord : h.InOrder es xs) (nonzero : bytes ≠ 0)
    (request : Size.forRequest? bytes = some wanted)
    (granted : (h.allocate bytes).1 = .ok (some b))
    : (h.allocate bytes).2.Suits wanted b := by
  rcases ord.granted_cases nonzero request granted with
    ⟨ys, f, zs, listed, small, enough⟩ | ⟨small, enough⟩
  · obtain ⟨reply, -, -, l, r, -, shows⟩ := ord.allocate_of_fit nonzero request listed small enough
    obtain rfl : f.block = b := by simpa [granted] using reply.symm
    obtain ⟨e, he, rest⟩ := exists_snug_split f.block enough
    exact ⟨e, by simp [shows.blocks, he], rest⟩
  · obtain ⟨reply, total, -, -, left, -, shows⟩ :=
      ord.allocate_of_growth nonzero request small enough
    have covers : wanted ≤ (h.extension (h.increment wanted)).size := by
      have large := Size.le_iff.mp (h.le_increment wanted)
      rw [Size.le_iff, total]
      omega
    obtain ⟨e, he, rest⟩ := exists_snug_split (h.extension (h.increment wanted)).block covers
    obtain rfl : (h.extension (h.increment wanted)).block = b := by
      simpa [granted] using reply.symm
    exact ⟨e, by simp [shows.blocks, he], rest⟩

/-- A block for cleared bytes is as snug as one that is not cleared. -/
theorem suits_allocateZeroed (ord : h.InOrder es xs) {count size : Word}
    (fits : count.toNat * size.toNat < UInt64.size) (nonzero : count.toNat * size.toNat ≠ 0)
    (request : Size.forRequest? (.ofNat (count.toNat * size.toNat)) = some wanted)
    (granted : (h.allocateZeroed count size).1 = .ok (some b))
    : (h.allocateZeroed count size).2.Suits wanted b := by
  obtain ⟨-, -, reply, shows, -⟩ := ord.clears_granted rfl fits granted
  have positive : UInt64.ofNat (count.toNat * size.toNat) ≠ 0 := by
    rwa [ne_eq, ← UInt64.toNat_inj, UInt64.toNat_ofNat_of_lt' fits]
  obtain ⟨e, he, rest⟩ := ord.suits_allocate positive request reply
  exact ⟨e, by rwa [shows.blocks], rest⟩

/-- What is newly allocated when a block moves away is still there after the block is freed. -/
theorem suits_moveAway (ord : h.InOrder s.extents xs) (hs : s.Enclosed)
    (used : s.here.allocated = true) (nonzero : bytes ≠ 0)
    (request : Size.forRequest? bytes = some wanted) (short : ¬wanted ≤ s.joined.size)
    (granted : (h.resize (some s.here.block) bytes).1 = .ok (some target))
    : (h.resize (some s.here.block) bytes).2.Suits wanted target := by
  obtain ⟨reply, moved⟩ := ord.reshapes_moveAway hs nonzero request used short
  rw [granted] at reply
  obtain ⟨-, t, situates, here, shows⟩ := moved target reply.symm
  obtain ⟨e, he, rfl, inUse, snug⟩ := ord.suits_allocate nonzero request reply.symm
  -- The new block was free before, or did not exist, so it is not the one that is freed.
  obtain ⟨es', xs', grant⟩ := ord.allocate bytes
  rw [← reply] at grant
  have fresh : e.block ∉ users s.extents := grant.order.fresh _ grant.users (by simp [Heap.granted])
  have other : e ≠ t.here := by
    rintro rfl
    exact fresh (mem_users.mpr ⟨s.here, s.here_mem, by rw [here], used⟩)
  rw [← situates.extents] at he
  have beyond : e ∈ t.left ++ t.right := by
    simp only [Site.extents, List.mem_append] at he ⊢
    rcases he with (he | he) | he
    · exact Or.inl he
    · rcases Site.mem_middle.mp he with hd | rfl | hu
      · simp [situates.enclosed.lower_free e hd] at inUse
      · exact absurd rfl other
      · simp [situates.enclosed.upper_free e hu] at inUse
    · exact Or.inr he
  refine ⟨e, ?_, rfl, inUse, snug⟩
  rw [shows.blocks]
  simp only [List.mem_append] at beyond ⊢
  tauto

/-- A block that gets another size is snug for it, whichever of the five ways it goes. -/
theorem suits_resize (ord : h.InOrder es xs) (hb : b ∈ users es) (nonzero : bytes ≠ 0)
    (request : Size.forRequest? bytes = some wanted)
    (granted : (h.resize (some b) bytes).1 = .ok (some target))
    : (h.resize (some b) bytes).2.Suits wanted target := by
  obtain ⟨e, he, rfl, used⟩ := mem_users.mp hb
  obtain ⟨s, rfl, rfl, hs⟩ := ord.settled.exists_site he
  have becomes := ord.reshaping hs nonzero request used
  -- Within reach, the reply names the block that the walk shows where the middle of the site was.
  have named {c : Block} {mid free : List Extent}
      (reshapes : h.Reshapes s.here.block bytes c (s.left ++ mid ++ s.right) free)
      (made : ∃ e ∈ mid, e.block = c ∧ e.allocated = true ∧ wanted.Snug e.size)
      : (h.resize (some s.here.block) bytes).2.Suits wanted target := by
    obtain ⟨f, hf, block, rest⟩ := made
    have same : c = target := by simpa [granted] using reshapes.reply.symm
    exact ⟨f, by simp [reshapes.shows.blocks, hf], block.trans same, rest⟩
  obtain ⟨plan, planned⟩ : ∃ plan, s.Planned wanted plan :=
    ⟨_, ord.settled.planned_choose hs wanted⟩
  cases planned with
  | stay enough =>
      by_cases large : Size.minBlock ≤ s.here.size - wanted
      · exact named (becomes.trim enough large) ⟨⟨s.here.block, wanted, true⟩, by simp, rfl, rfl,
          .refl wanted⟩
      · exact named (becomes.stay enough large).1 ⟨s.here, by simp [Site.middle], rfl, used,
          (Size.snug_iff enough).mpr large⟩
  | growDown short below enough =>
      obtain ⟨f, hf, rest⟩ := exists_snug_splitHigh _ enough
      exact named (becomes.growDown _ short below enough).1 ⟨f, List.mem_append_left _ hf, rest⟩
  | growUp short above low enough =>
      obtain ⟨f, hf, rest⟩ := exists_snug_split _ enough
      exact named (becomes.growUp _ short above low enough) ⟨f, List.mem_append_right _ hf, rest⟩
  | growBothWays short below above low high enough =>
      exact named (becomes.growBothWays _ _ short below above low high enough)
        (exists_snug_split _ enough)
  | moveAway short => exact ord.suits_moveAway hs used nonzero request short granted

/-- A block that has too little to give up remains as it is, and so does all but the journal. -/
theorem resize_of_little (ord : h.InOrder es xs) (hb : b ∈ users es) (nonzero : bytes ≠ 0)
    (request : Size.forRequest? bytes = some wanted) (enough : wanted ≤ b.size h.memory)
    (little : (b.size h.memory).toNat < wanted.toNat + 32)
    : (h.resize (some b) bytes).1 = .ok (some b) ∧ (h.resize (some b) bytes).2.Alike h := by
  obtain ⟨e, he, rfl, -⟩ := mem_users.mp hb
  obtain ⟨s, rfl, rfl, hs⟩ := ord.settled.exists_site he
  rw [(ord.settled.tagged s.here he).size_eq] at enough little
  have small : ¬Size.minBlock ≤ s.here.size - wanted := by
    rw [Size.le_iff, Size.toNat_sub_of_le enough, Size.toNat_minBlock]
    omega
  exact ord.alike_stay hs nonzero request enough small

/-- What the walk shows of a block is what its header says. -/
theorem size_of_suits (ord : h.InOrder es xs) (suits : h.Suits wanted b)
    : b ∈ users es ∧ wanted.Snug (b.size h.memory)
      ∧ (h.usableSize b).toNat = (b.size h.memory).toNat - 16 := by
  obtain ⟨e, he, rfl, used, snug⟩ := suits
  rw [ord.blocks_eq] at he
  rw [ord.toNat_usableSize he, (ord.settled.tagged e he).size_eq]
  exact ⟨mem_users.mpr ⟨e, he, rfl, used⟩, snug, rfl⟩

end InOrder

end Heap

-----------------------------------------------------------------------------------------
-- Every request for some bytes
-----------------------------------------------------------------------------------------

/-- A size that is snug for a request has room for it, and at most 31 bytes more. -/
theorem Request.bounds_of_snug {r : Request} {wanted size : Size}
    (request : r.wanted? = some wanted) (snug : wanted.Snug size) (asks : r.amount ≠ 0)
    : r.amount ≤ size.toNat - 16 ∧ size.toNat - 16 ≤ r.amount + 31 := by
  by_cases fits : r.amount < UInt64.size
  · have word : (UInt64.ofNat r.amount).toNat = r.amount := UInt64.toNat_ofNat_of_lt' fits
    rw [Request.wanted?, if_pos fits] at request
    have number := Size.toNat_of_forRequest? request
    rw [word] at number
    rcases snug with same | more <;> omega
  · rw [Request.wanted?, if_neg fits] at request
    cases request

namespace Session

variable {s : Session} {base : Nat} {es : List Extent} {xs : List Block} {r : Request}
  {b : Block} {bytes : Word}

/-- A block that is allocated is snug for what was asked for. -/
theorem Coherent.suits_allocate (h : s.Coherent base es xs) (nonzero : bytes ≠ 0)
    (granted : (s.heap.allocate bytes).1 = .ok (some b))
    : ∃ wanted, Size.forRequest? bytes = some wanted
        ∧ (s.heap.allocate bytes).2.Suits wanted b := by
  cases request : Size.forRequest? bytes with
  | none => simp [Heap.allocate, nonzero, request] at granted
  | some wanted => exact ⟨wanted, rfl, h.order.suits_allocate nonzero request granted⟩

/-- Every block that is handed out for some bytes is snug for them. -/
theorem Coherent.suits_next (h : s.Coherent base es xs) (permits : s.Permits r)
    (asks : r.amount ≠ 0) (granted : s.reply r = .ok (some b))
    : ∃ wanted, r.wanted? = some wanted ∧ (s.next r).heap.Suits wanted b := by
  have nonzero {n : Word} (positive : n.toNat ≠ 0) : n ≠ 0 := by
    rintro rfl
    exact positive rfl
  match r with
  | .allocate bytes =>
      rw [Request.wanted?_eq (n := bytes) rfl]
      exact h.suits_allocate (nonzero asks) granted
  | .resize none bytes =>
      rw [Request.wanted?_eq (n := bytes) rfl]
      exact h.suits_allocate (nonzero asks) granted
  | .resize (some c) bytes =>
      rw [Request.wanted?_eq (n := bytes) rfl]
      have granted : (s.heap.resize (some c) bytes).1 = .ok (some b) := granted
      cases request : Size.forRequest? bytes with
      | none =>
          rw [Heap.resize_of_none (nonzero asks) request] at granted
          cases granted
      | some wanted =>
          exact ⟨wanted, rfl, h.order.suits_resize (h.live.mem_iff.mp permits) (nonzero asks)
            request granted⟩
  | .allocateZeroed count size =>
      have granted : (s.heap.allocateZeroed count size).1 = .ok (some b) := granted
      by_cases small : count.toNat * size.toNat ≤ UInt64.size - 32
      · have fits := Word.product_lt small
        have word := UInt64.toNat_ofNat_of_lt' fits
        rw [Request.wanted?_allocateZeroed fits]
        obtain ⟨wanted, request⟩ := Size.exists_forRequest? (word.trans_le small)
        exact ⟨wanted, request, h.order.suits_allocateZeroed fits asks request granted⟩
      · rw [Heap.allocateZeroed_of_large (Nat.not_le.mp small)] at granted
        cases granted
  | .free _ => exact absurd rfl asks
  | .write _ _ _ => exact absurd rfl asks

/-- In every heap that a session leads to, each block that is handed out for some bytes has the size
that is wanted for them, or 16 bytes more. So it has room for them and for at most 31 bytes more;
and when it is resized to anything that would leave less than the smallest block over, it stays
where it is and nothing changes but the journal.
-/
theorem snugness_of_legal {chunk : Word} {region : Region} {memory : Memory} {rs : List Request}
    (begins : Begins chunk region memory) (legal : (start chunk region memory).Legal rs)
    (permits : ((start chunk region memory).run rs).Permits r) (asks : r.amount ≠ 0)
    (granted : ((start chunk region memory).run rs).reply r = .ok (some b))
    : let h := (((start chunk region memory).run rs).next r).heap
      ∃ wanted, r.wanted? = some wanted
        ∧ h.Suits wanted b
        ∧ ((b.size h.memory).toNat = wanted.toNat ∨ (b.size h.memory).toNat = wanted.toNat + 16)
        ∧ r.amount ≤ (h.usableSize b).toNat
        ∧ (h.usableSize b).toNat ≤ r.amount + 31
        ∧ ∀ bytes wanted', bytes ≠ 0 → Size.forRequest? bytes = some wanted'
          → wanted' ≤ b.size h.memory → (b.size h.memory).toNat < wanted'.toNat + 32
          → (h.resize (some b) bytes).1 = .ok (some b) ∧ (h.resize (some b) bytes).2.Alike h := by
  intro h
  obtain ⟨es, xs, coherent⟩ := begins.coherent_run legal
  obtain ⟨es', xs', taken⟩ := coherent.next permits
  have ord : h.InOrder es' xs' := taken.order
  obtain ⟨wanted, request, suits⟩ := coherent.suits_next permits asks granted
  obtain ⟨used, snug, usable⟩ := ord.size_of_suits suits
  obtain ⟨room, little⟩ := r.bounds_of_snug request snug asks
  rw [← usable] at room little
  exact ⟨wanted, request, suits, snug, room, little,
    fun _ _ nonzero request' enough little =>
      ord.resize_of_little used nonzero request' enough little⟩

/-- After the sample session, a block grows into the free one above it. What is left over could not
form a block, so it has 16 bytes to spare, and asking for some more bytes changes nothing.
-/
theorem snugness_sample
    : let s := (start 256 sampleRegion sampleMemory).run sampleRequests
      let h := (s.next (.resize (some ⟨4296⟩) 70)).heap
      Begins 256 sampleRegion sampleMemory
      ∧ (start 256 sampleRegion sampleMemory).Legal sampleRequests
      ∧ s.Permits (.resize (some ⟨4296⟩) 70)
      ∧ s.reply (.resize (some ⟨4296⟩) 70) = .ok (some ⟨4296⟩)
      ∧ Size.forRequest? 70 = some ⟨96, by decide⟩
      ∧ Block.size ⟨4296⟩ h.memory = ⟨112, by decide⟩
      ∧ 70 ≤ (h.usableSize ⟨4296⟩).toNat ∧ (h.usableSize ⟨4296⟩).toNat ≤ 101
      ∧ (h.resize (some ⟨4296⟩) 75).1 = .ok (some ⟨4296⟩)
      ∧ (h.resize (some ⟨4296⟩) 75).2.Alike h := by
  intro s h
  have figures : s.Permits (.resize (some ⟨4296⟩) 70)
      ∧ s.reply (.resize (some ⟨4296⟩) 70) = .ok (some ⟨4296⟩)
      ∧ Block.size ⟨4296⟩ h.memory = ⟨112, by decide⟩ := by
    decide +kernel
  obtain ⟨permits, granted, size⟩ := figures
  have request : Size.forRequest? 75 = some ⟨96, by decide⟩ := by decide
  obtain ⟨wanted, -, -, -, room, little, stays⟩ :=
    snugness_of_legal begins_sample legal_sample permits (by decide) granted
  obtain ⟨reply, same⟩ := stays 75 _ (by decide) request
    (by rw [size]; decide) (by rw [size]; decide)
  exact ⟨begins_sample, legal_sample, permits, granted, by decide, size, room, little, reply, same⟩

end Session

end BoundaryTag
