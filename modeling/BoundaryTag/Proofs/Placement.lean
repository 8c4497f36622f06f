import Mathlib.Data.List.Find
import BoundaryTag.Proofs.Inventory
import BoundaryTag.Proofs.Sessions

/-! Where an allocated block is placed, as a change of the two lists that the walks show. A free
extent that serves a request is divided where it stands in both lists. Without one, the heap grows
by one extent, which is merged with the last one if that is free, and is then divided.
-/

namespace BoundaryTag

/-- A free extent stands alone in its site, because nothing free touches it. -/
theorem Alternating.enclosed {l r : List Extent} {f : Extent} (h : Alternating (l ++ f :: r))
    (free : f.allocated = false)
    : (Site.mk l none f none r).extents = l ++ f :: r ∧ (Site.mk l none f none r).Enclosed := by
  obtain ⟨-, above, touching⟩ := alternating_append.mp h
  refine ⟨by simp [Site.extents_eq], ⟨by simp, by simp⟩, fun d hd => ?_, fun u hu => ?_⟩
  · simpa [free] using touching d hd f (by simp)
  · simpa [free] using (alternating_cons.mp above).1 u hu

namespace Heap

/-- The last extent of a heap, if it is free. -/
def lastGap (h : Heap) : Option Extent := h.blocks.getLast?.filter fun e => !e.allocated

/-- The free extent that holds the bytes which a heap grows by, along with those of the last extent
if that is free.
-/
def extension (h : Heap) (size : Size) : Extent where
  block := h.lastGap.elim ⟨h.region.frontier⟩ (·.block)
  size := h.lastGap.elim size (·.size + size)
  allocated := false

namespace InOrder

variable {h : Heap} {es l r ys zs : List Extent} {xs : List Block} {f : Extent}
  {wanted size : Size}

-----------------------------------------------------------------------------------------
-- Dividing a free extent
-----------------------------------------------------------------------------------------

/-- First fit finds the first of the free extents that is large enough. -/
theorem firstFit?_eq_find? (ord : h.InOrder es xs) (wanted : Size)
    : h.firstFit? wanted.word
      = (h.freeBlocks.find? fun e => wanted ≤ e.size).map (·.block) := by
  obtain ⟨sub, rfl, -, -⟩ := ord.freeBlocks_spec
  have fits : ∀ e ∈ h.freeBlocks, h.fits wanted.word e.block = decide (wanted ≤ e.size) := by
    intro e he
    rw [Pool.fits, (ord.settled.tagged e (sub he)).size_eq]
    rfl
  rw [ord.settled.lists.firstFit?_eq, List.find?_map]
  exact congrArg _ (List.find?_congr fits)

/-- A heap in which a listed extent is carved where it stands is in order. -/
theorem carve_listed (ord : h.InOrder (l ++ f :: r) xs) (listed : h.freeBlocks = ys ++ f :: zs)
    (room : 32 ≤ wanted.toNat) (enough : wanted ≤ f.size)
    : (h.withPool (h.carve f.block wanted).2).InOrder (l ++ split f.block f.size wanted ++ r)
        ((ys ++ (leftover f.block f.size wanted).toList ++ zs).map (·.block)) := by
  obtain ⟨-, order, free, -⟩ := ord.freeBlocks_spec
  rw [listed] at order free
  obtain ⟨extents, hs⟩ := ord.settled.alternating.enclosed (free f (by simp))
  rw [← extents] at ord
  rw [List.map_append, List.map_cons] at order
  rw [← order] at ord
  have carved := (ord.carve hs (free f (by simp)) room enough).order
  rwa [gaps_split, ← List.map_append, ← List.map_append] at carved

/-- A listed extent is carved where it stands, by address and in list order. -/
theorem shows_carve (ord : h.InOrder (l ++ f :: r) xs) (listed : h.freeBlocks = ys ++ f :: zs)
    (room : 32 ≤ wanted.toNat) (enough : wanted ≤ f.size)
    : (h.withPool (h.carve f.block wanted).2).Shows (l ++ split f.block f.size wanted ++ r)
        (ys ++ (leftover f.block f.size wanted).toList ++ zs) := by
  obtain ⟨sub, -, -, distinct⟩ := ord.freeBlocks_spec
  rw [listed] at sub distinct
  have others : f ∉ ys ++ zs := (List.nodup_cons.mp (List.nodup_middle.mp distinct)).1
  apply (ord.carve_listed listed room enough).shows _ rfl
  intro e he
  have place : e ∈ ys ++ zs ∨ e ∈ leftover f.block f.size wanted := by
    simp only [List.mem_append, Option.mem_toList] at he ⊢
    tauto
  rcases place with kept | rest
  · have member : e ∈ l ++ f :: r := by
      apply sub
      exact List.perm_middle.mem_iff.mpr (List.mem_cons_of_mem f kept)
    have different : e ≠ f := fun same => others (same ▸ kept)
    simp only [List.mem_append, List.mem_cons] at member ⊢
    tauto
  · simp [(mem_split_of_mem_leftover rest).1]

-----------------------------------------------------------------------------------------
-- Dividing what the heap grows by
-----------------------------------------------------------------------------------------

/-- The gap at the end of a layout is the one that the walk ends with. -/
theorem lastGap_eq {left : List Extent} {lower : Option Extent}
    (ord : h.InOrder (left ++ lower.toList) xs) (free : ∀ d ∈ lower, d.allocated = false)
    (used : ∀ d ∈ left.getLast?, d.allocated = true)
    : h.lastGap = lower := by
  rw [lastGap, ord.blocks_eq]
  cases lower with
  | none =>
      rw [Option.toList_none, List.append_nil]
      cases last : left.getLast? with
      | none => rfl
      | some d => simp [Option.filter, used d last]
  | some d => simp [Option.filter, free d rfl]

/-- The walks over a heap that has grown show the new bytes in the last extent, which is the first
of the free ones.
-/
theorem shows_grown (ord : h.InOrder es xs) (room : 32 ≤ size.toNat)
    (enough : size.word ≤ h.region.available)
    : ∃ left xs', es = left ++ h.lastGap.toList
        ∧ (h.grown size).1 = (h.extension size).block
        ∧ (h.grown size).2.InOrder (left ++ [h.extension size]) xs'
        ∧ (h.grown size).2.Shows (left ++ [h.extension size])
            (h.extension size :: dropGap h.freeBlocks h.lastGap)
        ∧ (h.extension size).size.toNat
            = h.lastGap.elim 0 (·.size.toNat) + size.toNat := by
  obtain ⟨sub, order, -, distinct⟩ := ord.freeBlocks_spec
  obtain ⟨left, lower, rfl, hs, grows, block, grown, -⟩ := ord.grown room enough
  have last : h.lastGap = lower := ord.lastGap_eq hs.lower_free hs.left_used
  have joined : (Site.atTop left lower ⟨h.region.frontier⟩ size).joined = h.extension size := by
    cases lower <;> simp [Site.joined, Site.atTop, extension, last]
  rw [joined] at block grown
  refine ⟨left, _, by rw [last], block, grown, ?_, ?_⟩
  · apply grown.shows
    · intro e he
      rcases List.mem_cons.mp he with rfl | kept
      · simp
      · obtain ⟨member, other⟩ := (mem_dropGap distinct).mp kept
        rcases List.mem_append.mp (sub member) with below | gap
        · exact List.mem_append_left _ below
        · exact absurd (Option.mem_toList.mp gap) (last ▸ other)
    · have ends : ∀ d ∈ lower, d ∈ left ++ lower.toList :=
        fun d hd => List.mem_append_right _ (Option.mem_toList.mpr hd)
      have dropped := ord.settled.tiles.map_dropGap sub ends
      rw [List.map_cons, last, dropped, order]
  · -- Both layouts reach up to the frontier, which has moved by the number of new bytes.
    have moved : (h.region.advance size.word).frontier.toNat
        = h.region.frontier.toNat + size.toNat :=
      ord.sane.toNat_frontier_advance enough
    have ends := ord.settled.tiles.stop_getLast?
    have ends' := grown.settled.tiles.stop_getLast?
    rw [List.getLast?_concat, region_grown] at ends'
    cases lower with
    | none =>
        simp only [Option.elim, Extent.stop, Extent.start, extension, last, moved] at ends' ⊢
        omega
    | some d =>
        rw [Option.toList_some, List.getLast?_concat] at ends
        simp only [Option.elim, Extent.stop, Extent.start, extension, last, moved] at ends ends' ⊢
        omega

/-- A heap that grows for a request divides the last extent. -/
theorem shows_growth (ord : h.InOrder es xs) (room : 32 ≤ wanted.toNat)
    (enough : (h.increment wanted).word ≤ h.region.available)
    : ∃ left, es = left ++ h.lastGap.toList
        ∧ (h.grown (h.increment wanted)).1 = (h.extension (h.increment wanted)).block
        ∧ (h.extension (h.increment wanted)).size.toNat
          = h.lastGap.elim 0 (·.size.toNat) + (h.increment wanted).toNat
        ∧ ((h.grown (h.increment wanted)).2.withPool ((h.grown (h.increment wanted)).2.carve
            (h.grown (h.increment wanted)).1 wanted).2).Shows
          (left ++ split (h.extension (h.increment wanted)).block
            (h.extension (h.increment wanted)).size wanted)
          ((leftover (h.extension (h.increment wanted)).block
            (h.extension (h.increment wanted)).size wanted).toList
            ++ dropGap h.freeBlocks h.lastGap) := by
  have large := Size.le_iff.mp (h.le_increment wanted)
  obtain ⟨left, xs', rfl, block, grown, shows, total⟩ :=
    ord.shows_grown (room.trans large) enough
  have covers : wanted ≤ (h.extension (h.increment wanted)).size := by
    rw [Size.le_iff, total]
    omega
  have first : (h.grown (h.increment wanted)).2.freeBlocks
      = [] ++ h.extension (h.increment wanted) :: dropGap h.freeBlocks h.lastGap :=
    shows.freeBlocks
  have carved := grown.shows_carve first room covers
  rw [List.append_nil, List.nil_append] at carved
  exact ⟨left, rfl, block, total, by rwa [block]⟩

-----------------------------------------------------------------------------------------
-- The request as a whole
-----------------------------------------------------------------------------------------

/-- Where a free extent is large enough, the first such one in list order is carved. -/
theorem allocate_eq_of_fit (ord : h.InOrder es xs) {bytes : Word} (nonzero : bytes ≠ 0)
    (request : Size.forRequest? bytes = some wanted) (listed : h.freeBlocks = ys ++ f :: zs)
    (small : ∀ e ∈ ys, ¬wanted ≤ e.size) (enough : wanted ≤ f.size)
    : h.allocate bytes = (.ok (some f.block), h.withPool (h.carve f.block wanted).2) := by
  have found : (h.freeBlocks.find? fun e => wanted ≤ e.size) = some f := by
    rw [listed, List.find?_append, List.find?_eq_none.mpr (by simpa using small)]
    simp [enough]
  have fit : h.firstFit? wanted.word = some f.block := by
    rw [ord.firstFit?_eq_find?, found, Option.map_some]
  simp only [allocate_of_some nonzero request, serve_eq_of_fit fit, Except.map]

/-- Where no free extent is large enough, the heap grows, and what it grows by is carved. -/
theorem allocate_eq_of_growth (ord : h.InOrder es xs) {bytes : Word} (nonzero : bytes ≠ 0)
    (request : Size.forRequest? bytes = some wanted)
    (small : ∀ e ∈ h.freeBlocks, ¬wanted ≤ e.size)
    (enough : (h.increment wanted).word ≤ h.region.available)
    : h.allocate bytes
      = (.ok (some (h.grown (h.increment wanted)).1),
          (h.grown (h.increment wanted)).2.withPool
            ((h.grown (h.increment wanted)).2.carve
              (h.grown (h.increment wanted)).1 wanted).2) := by
  have none : h.firstFit? wanted.word = none := by
    rw [ord.firstFit?_eq_find?, List.find?_eq_none.mpr (by simpa using small), Option.map_none]
  simp only [allocate_of_some nonzero request, serve_eq_of_growth none enough, Except.map]

/-- Where a free extent is large enough, the first such one in list order is divided. -/
theorem allocate_of_fit (ord : h.InOrder es xs) {bytes : Word} (nonzero : bytes ≠ 0)
    (request : Size.forRequest? bytes = some wanted) (listed : h.freeBlocks = ys ++ f :: zs)
    (small : ∀ e ∈ ys, ¬wanted ≤ e.size) (enough : wanted ≤ f.size)
    : (h.allocate bytes).1 = .ok (some f.block)
      ∧ (h.allocate bytes).2.region = h.region
      ∧ (h.allocate bytes).2.journal = h.journal
      ∧ ∃ l r, h.blocks = l ++ f :: r
        ∧ (h.allocate bytes).2.Shows (l ++ split f.block f.size wanted ++ r)
            (ys ++ (leftover f.block f.size wanted).toList ++ zs) := by
  have served := ord.allocate_eq_of_fit nonzero request listed small enough
  obtain ⟨l, r, rfl⟩ := List.append_of_mem (ord.freeBlocks_spec.1 (by simp [listed] : f ∈ _))
  have room := (Size.room_of_forRequest? request).1
  rw [served]
  refine ⟨rfl, ?_, ?_, l, r, ord.blocks_eq, ord.shows_carve listed room enough⟩ <;>
    simp only [Heap.withPool]

/-- Where no free extent is large enough, the heap grows once, and the last extent is divided. -/
theorem allocate_of_growth (ord : h.InOrder es xs) {bytes : Word} (nonzero : bytes ≠ 0)
    (request : Size.forRequest? bytes = some wanted)
    (small : ∀ e ∈ h.freeBlocks, ¬wanted ≤ e.size)
    (enough : (h.increment wanted).word ≤ h.region.available)
    : (h.allocate bytes).1 = .ok (some (h.extension (h.increment wanted)).block)
      ∧ (h.extension (h.increment wanted)).size.toNat
        = h.lastGap.elim 0 (·.size.toNat) + (h.increment wanted).toNat
      ∧ (h.allocate bytes).2.region = h.region.advance (h.increment wanted).word
      ∧ (h.allocate bytes).2.journal
        = .grown (h.increment wanted) (h.region.advance (h.increment wanted).word).frontier
          :: h.journal
      ∧ ∃ left, h.blocks = left ++ h.lastGap.toList
        ∧ (h.allocate bytes).2.Shows
            (left ++ split (h.extension (h.increment wanted)).block
              (h.extension (h.increment wanted)).size wanted)
            ((leftover (h.extension (h.increment wanted)).block
              (h.extension (h.increment wanted)).size wanted).toList
              ++ dropGap h.freeBlocks h.lastGap) := by
  have served := ord.allocate_eq_of_growth nonzero request small enough
  have room := (Size.room_of_forRequest? request).1
  obtain ⟨left, parts, block, total, shows⟩ := ord.shows_growth room enough
  rw [served]
  refine ⟨by rw [block], total, ?_, ?_, left, ord.blocks_eq.trans parts, shows⟩
  · simp only [Heap.withPool, region_grown]
  · simp only [Heap.withPool, Heap.grown, Heap.note]

end InOrder

end Heap

namespace Session

variable {chunk : Word} {region : Region} {memory : Memory} {rs : List Request} {bytes : Word}

/-- In every heap that a session leads to, a request is placed in the first free block that is large
enough, in list order, and what is left over takes over its place among all blocks and in the free
list. Where there is none, and the region has enough left, the heap grows once by the request or a
chunk. The new bytes begin at the last block if that is free, which leaves the list then, and at
the old end of the heap otherwise. What is left over of them is the first of the free list.
-/
theorem placement_of_legal (begins : Begins chunk region memory)
    (legal : (start chunk region memory).Legal rs) (nonzero : bytes ≠ 0)
    (small : bytes.toNat ≤ UInt64.size - 32)
    : let h := ((start chunk region memory).run rs).heap
      let h' := (h.allocate bytes).2
      ∃ wanted, Size.forRequest? bytes = some wanted
        ∧ (∀ ys f zs, h.freeBlocks = ys ++ f :: zs → (∀ e ∈ ys, ¬wanted ≤ e.size)
            → wanted ≤ f.size
            → (h.allocate bytes).1 = .ok (some f.block)
              ∧ h'.region = h.region
              ∧ h'.journal = h.journal
              ∧ ∃ l r, h.blocks = l ++ f :: r
                ∧ h'.Shows (l ++ split f.block f.size wanted ++ r)
                    (ys ++ (leftover f.block f.size wanted).toList ++ zs))
        ∧ ((∀ e ∈ h.freeBlocks, ¬wanted ≤ e.size)
            → (h.increment wanted).word ≤ h.region.available
            → let last := h.extension (h.increment wanted)
              (h.allocate bytes).1 = .ok (some last.block)
              ∧ last.size.toNat = h.lastGap.elim 0 (·.size.toNat) + (h.increment wanted).toNat
              ∧ h'.region = h.region.advance (h.increment wanted).word
              ∧ h'.journal
                = .grown (h.increment wanted) (h.region.advance (h.increment wanted).word).frontier
                  :: h.journal
              ∧ ∃ left, h.blocks = left ++ h.lastGap.toList
                ∧ h'.Shows (left ++ split last.block last.size wanted)
                    ((leftover last.block last.size wanted).toList
                      ++ dropGap h.freeBlocks h.lastGap)) := by
  intro h h'
  obtain ⟨es₀, xs₀, coherent₀⟩ := begins.coherent
  obtain ⟨es, xs, coherent⟩ := coherent₀.run legal
  obtain ⟨wanted, request⟩ := Size.exists_forRequest? small
  refine ⟨wanted, request, ?_, ?_⟩
  · intro ys f zs listed smaller enough
    exact coherent.order.allocate_of_fit nonzero request listed smaller enough
  · intro smaller enough
    exact coherent.order.allocate_of_growth nonzero request smaller enough

/-- After the sample session, a small request divides the only free block. A large one makes the
heap grow, and takes that block along with the new bytes.
-/
theorem placement_sample
    : let h := ((start 256 sampleRegion sampleMemory).run sampleRequests).heap
      Begins 256 sampleRegion sampleMemory
      ∧ (start 256 sampleRegion sampleMemory).Legal sampleRequests
      ∧ h.freeBlocks = [⟨⟨4344⟩, ⟨64, by decide⟩, false⟩]
      ∧ (h.allocate 16).1 = .ok (some ⟨4344⟩)
      ∧ (h.allocate 16).2.freeBlocks = [⟨⟨4376⟩, ⟨32, by decide⟩, false⟩]
      ∧ (h.allocate 500).1 = .ok (some ⟨4344⟩)
      ∧ (h.allocate 500).2.region = h.region.advance 528
      ∧ (h.allocate 500).2.freeBlocks = [⟨⟨4872⟩, ⟨64, by decide⟩, false⟩] := by
  intro h
  have figures : h.freeBlocks = [⟨⟨4344⟩, ⟨64, by decide⟩, false⟩]
      ∧ h.lastGap = some ⟨⟨4344⟩, ⟨64, by decide⟩, false⟩
      ∧ h.increment ⟨528, by decide⟩ = ⟨528, by decide⟩
      ∧ h.extension ⟨528, by decide⟩ = ⟨⟨4344⟩, ⟨592, by decide⟩, false⟩
      ∧ 528 ≤ h.region.available := by
    decide +kernel
  obtain ⟨free, gap, amount, last, available⟩ := figures
  have size : Size.forRequest? 16 = some ⟨32, by decide⟩ := by decide
  have size' : Size.forRequest? 500 = some ⟨528, by decide⟩ := by decide
  obtain ⟨wanted, request, fit, -⟩ :=
    placement_of_legal begins_sample legal_sample (by decide : (16 : Word) ≠ 0) (by decide)
  obtain ⟨wanted', request', -, growth⟩ :=
    placement_of_legal begins_sample legal_sample (by decide : (500 : Word) ≠ 0) (by decide)
  obtain rfl := Option.some.inj (request.symm.trans size)
  obtain rfl := Option.some.inj (request'.symm.trans size')
  obtain ⟨reply, -, -, l, r, -, shows⟩ := fit [] _ [] free (by simp) (by decide)
  obtain ⟨reply', -, region, -, left, -, shows'⟩ := growth (by rw [free]; decide)
    (by rw [amount]; exact available)
  rw [amount] at region shows' reply'
  rw [last] at shows' reply'
  rw [gap, free] at shows'
  exact ⟨begins_sample, legal_sample, free, reply, shows.freeBlocks.trans (by decide), reply',
    by simpa only [h] using region, shows'.freeBlocks.trans (by decide)⟩

end Session

end BoundaryTag
