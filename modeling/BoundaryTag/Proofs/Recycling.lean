import BoundaryTag.Proofs.Placement
import BoundaryTag.Proofs.Reshaping

/-! Freeing and allocating one after the other. A block that is freed right after it was allocated
leaves the extent that it was carved from, because nothing free touched that extent before. And what
was freed last is the first of the list, so that it serves the next request that it has room for.
-/

namespace BoundaryTag

/-- A split range begins with an allocated extent, which adds up to the whole with what is left
over.
-/
theorem split_eq_cons (b : Block) {total wanted : Size} (enough : wanted ≤ total)
    : ∃ size, split b total wanted = ⟨b, size, true⟩ :: (leftover b total wanted).toList
        ∧ size + (leftover b total wanted).elim Size.zero (·.size) = total := by
  by_cases large : Size.minBlock ≤ total - wanted
  · refine ⟨wanted, by simp [split_of_le large, leftover, large], ?_⟩
    have rest := Size.toNat_sub_of_le enough
    have limit := total.toNat_lt
    have whole := Size.le_iff.mp enough
    simp only [leftover, if_pos large, Option.elim]
    apply Size.ext
    rw [Size.toNat_add_of_lt (by omega), rest]
    omega
  · exact ⟨total, by simp [split_of_not_le large, leftover, large],
      by simp [leftover, large, Size.add_zero]⟩

/-- Taking the first member out of the list and tagging it changes its tags and the links of others.
-/
theorem Pool.Lists.sameOff_takeWhole {p : Pool} {xs : List Block} {e : Extent}
    (h : p.Lists (e.block :: xs)) (fits : e.Fits) (size : e.block.size p.memory = e.size)
    (used : e.allocated = true)
    : p.memory.SameOff (e.tagBytes ∪ linkBytes xs) (p.takeWhole e.block).memory := by
  have first : p.Lists ([] ++ e.block :: xs) := h
  have removed := first.sameOff_remove
  have tagged := fits.sameOff_writeTags (p.remove e.block).memory
  rw [Pool.takeWhole, size, Pool.memory_writeTags, ← used]
  apply ((removed.mono (linkBytes_mono _)).mono Set.subset_union_right).trans
    (tagged.mono Set.subset_union_left)
  intro c hc
  exact List.mem_of_head? (Option.mem_toList.mp (by simpa using hc))

namespace Heap

namespace InOrder

variable {h : Heap} {es l r ys zs : List Extent} {xs : List Block} {f : Extent}
  {wanted : Size} {bytes : Word} {b : Block}

-----------------------------------------------------------------------------------------
-- Freeing what was allocated last
-----------------------------------------------------------------------------------------

/-- Freeing what was carved out of a listed extent leaves that extent, now the first of the list. -/
theorem free_carved (ord : h.InOrder (l ++ f :: r) xs) (listed : h.freeBlocks = ys ++ f :: zs)
    (room : 32 ≤ wanted.toNat) (enough : wanted ≤ f.size)
    : ((h.withPool (h.carve f.block wanted).2).free f.block).Shows (l ++ f :: r)
        (f :: (ys ++ zs)) := by
  obtain ⟨-, -, free, -⟩ := ord.freeBlocks_spec
  have unused : f.allocated = false := free f (by simp [listed])
  have carved := ord.carve_listed listed room enough
  have list := (ord.shows_carve listed room enough).freeBlocks
  obtain ⟨size, parts, total⟩ := split_eq_cons f.block enough
  -- What is left over touches the carved block, and nothing else that is free does.
  let s : Site := ⟨l, none, ⟨f.block, size, true⟩, leftover f.block f.size wanted, r⟩
  have extents : s.extents = l ++ split f.block f.size wanted ++ r := by
    simp [s, Site.extents_eq, parts]
  obtain ⟨-, around⟩ := ord.settled.alternating.enclosed unused
  have hs : s.Enclosed :=
    ⟨⟨by simp [s], fun u hu => (mem_split_of_mem_leftover hu).2⟩, around.left_used,
      around.right_used⟩
  have joined : s.joined = f := by
    have bytes : Size.zero + size + (leftover f.block f.size wanted).elim Size.zero (·.size)
        = f.size := by
      rw [Size.zero_add, total]
    simp only [s, Site.joined, Option.getD_none, Option.elim_none, bytes]
    rw [← unused]
  rw [← extents] at carved
  have freed := (carved.free_at hs rfl).1
  have order : s.joined.block :: s.unlist ((ys ++ (leftover f.block f.size wanted).toList
      ++ zs).map (·.block)) = [s.joined].map (·.block) ++ s.unlist _ := rfl
  have shows := carved.shows_reworked rfl freed order (List.Subset.refl _)
  have rest : s.drop (h.withPool (h.carve f.block wanted).2).freeBlocks = ys ++ zs := by
    have distinct := carved.freeBlocks_spec.2.2.2
    rw [list] at distinct ⊢
    cases rest' : leftover f.block f.size wanted with
    | none => simp [s, Site.drop, dropGap, rest']
    | some u =>
        rw [rest', Option.toList_some, List.append_assoc, List.singleton_append] at distinct
        have once := (List.nodup_cons.mp (List.nodup_middle.mp distinct)).1
        have absent : u ∉ ys := fun member => once (List.mem_append_left zs member)
        simp [s, Site.drop, dropGap, rest', List.erase_append_right _ absent]
  rw [joined, rest] at shows
  simpa [s] using shows

/-- Where a block could be allocated, it was carved out of the first free extent that is large
enough, or out of what the heap has grown by.
-/
theorem granted_cases (ord : h.InOrder es xs) (nonzero : bytes ≠ 0)
    (request : Size.forRequest? bytes = some wanted)
    (granted : (h.allocate bytes).1 = .ok (some b))
    : (∃ ys f zs, h.freeBlocks = ys ++ f :: zs ∧ (∀ e ∈ ys, ¬wanted ≤ e.size) ∧ wanted ≤ f.size)
      ∨ ((∀ e ∈ h.freeBlocks, ¬wanted ≤ e.size)
        ∧ (h.increment wanted).word ≤ h.region.available) := by
  cases found : h.freeBlocks.find? fun e => wanted ≤ e.size with
  | some f =>
      obtain ⟨enough, ys, zs, listed, small⟩ := List.find?_eq_some_iff_append.mp found
      exact Or.inl ⟨ys, f, zs, listed, by simpa using small, by simpa using enough⟩
  | none =>
      have small : ∀ e ∈ h.freeBlocks, ¬wanted ≤ e.size := by
        simpa using List.find?_eq_none.mp found
      refine Or.inr ⟨small, ?_⟩
      by_contra short
      have fit : h.firstFit? wanted.word = none := by
        rw [ord.firstFit?_eq_find?, found, Option.map_none]
      have served := serve_eq_of_short fit (UInt64.not_le.mp short)
      simp [allocate_of_some nonzero request, served, Except.map] at granted

/-- Freeing what was just allocated out of a listed extent leaves that extent, now the first of the
list.
-/
theorem undone_of_fit (ord : h.InOrder es xs) (nonzero : bytes ≠ 0)
    (request : Size.forRequest? bytes = some wanted) (listed : h.freeBlocks = ys ++ f :: zs)
    (small : ∀ e ∈ ys, ¬wanted ≤ e.size) (enough : wanted ≤ f.size)
    (granted : (h.allocate bytes).1 = .ok (some b))
    : f.block = b ∧ (h.allocate bytes).2.region = h.region
      ∧ ((h.allocate bytes).2.free b).Shows h.blocks (f :: (ys ++ zs)) := by
  have served := ord.allocate_eq_of_fit nonzero request listed small enough
  rw [served] at granted ⊢
  obtain rfl : f.block = b := by simpa using granted
  obtain ⟨l, r, rfl⟩ := List.append_of_mem (ord.freeBlocks_spec.1 (by simp [listed] : f ∈ _))
  rw [ord.blocks_eq]
  exact ⟨rfl, by simp only [Heap.withPool],
    ord.free_carved listed (Size.room_of_forRequest? request).1 enough⟩

/-- Freeing what was just allocated out of what the heap has grown by leaves that, now the first of
the list, with the last extent in it if that was free.
-/
theorem undone_of_growth (ord : h.InOrder es xs) (nonzero : bytes ≠ 0)
    (request : Size.forRequest? bytes = some wanted)
    (small : ∀ e ∈ h.freeBlocks, ¬wanted ≤ e.size)
    (enough : (h.increment wanted).word ≤ h.region.available)
    (granted : (h.allocate bytes).1 = .ok (some b))
    : (h.extension (h.increment wanted)).block = b
      ∧ (h.extension (h.increment wanted)).size.toNat
        = h.lastGap.elim 0 (·.size.toNat) + (h.increment wanted).toNat
      ∧ (h.allocate bytes).2.region = h.region.advance (h.increment wanted).word
      ∧ ∃ left, h.blocks = left ++ h.lastGap.toList
        ∧ ((h.allocate bytes).2.free b).Shows (left ++ [h.extension (h.increment wanted)])
            (h.extension (h.increment wanted) :: dropGap h.freeBlocks h.lastGap) := by
  have room := (Size.room_of_forRequest? request).1
  have large := Size.le_iff.mp (h.le_increment wanted)
  obtain ⟨left, xs', rfl, block, grown, shows, total⟩ :=
    ord.shows_grown (room.trans large) enough
  have covers : wanted ≤ (h.extension (h.increment wanted)).size := by
    rw [Size.le_iff, total]
    omega
  have served := ord.allocate_eq_of_growth nonzero request small enough
  rw [served, block] at granted ⊢
  obtain rfl : (h.extension (h.increment wanted)).block = b := by simpa using granted
  have listed : (h.grown (h.increment wanted)).2.freeBlocks
      = [] ++ h.extension (h.increment wanted) :: dropGap h.freeBlocks h.lastGap :=
    shows.freeBlocks
  have freed := grown.free_carved listed room covers
  rw [List.nil_append] at freed
  have region : ((h.grown (h.increment wanted)).2.withPool
      ((h.grown (h.increment wanted)).2.carve (h.extension (h.increment wanted)).block
        wanted).2).region = h.region.advance (h.increment wanted).word := by
    simp only [Heap.withPool, region_grown]
  exact ⟨rfl, total, region, left, ord.blocks_eq, freed⟩

-----------------------------------------------------------------------------------------
-- Allocating what was freed last
-----------------------------------------------------------------------------------------

section

variable {s : Site} (ord : h.InOrder s.extents xs) (hs : s.Enclosed)
  (used : s.here.allocated = true)

include ord hs used

/-- A freed block is shown joined with its gaps, and as the first of the list. -/
theorem shows_free
    : (h.free s.here.block).Shows (s.left ++ [s.joined] ++ s.right)
        (s.joined :: s.drop h.freeBlocks) := by
  have order : s.joined.block :: s.unlist xs = [s.joined].map (·.block) ++ s.unlist xs := rfl
  exact ord.shows_reworked used (ord.free_at hs used).1 order (List.Subset.refl _)

/-- The next request that a freed block has room for, along with its gaps, is served there. -/
theorem reused (nonzero : bytes ≠ 0) (request : Size.forRequest? bytes = some wanted)
    (enough : wanted ≤ s.joined.size)
    : (h.free s.here.block).allocate bytes
      = (.ok (some s.joined.block),
          (h.free s.here.block).withPool
            ((h.free s.here.block).carve s.joined.block wanted).2) := by
  have listed : (h.free s.here.block).freeBlocks = [] ++ s.joined :: s.drop h.freeBlocks :=
    (ord.shows_free hs used).freeBlocks
  exact (ord.free_at hs used).1.allocate_eq_of_fit nonzero request listed (by simp) enough

variable (lower : s.lower = none) (upper : s.upper = none)

include lower upper

omit ord hs used in
/-- A block that nothing free touches is joined with nothing. -/
theorem joined_alone : s.joined = ⟨s.here.block, s.here.size, false⟩ := by
  simp [Site.joined, lower, upper, Size.zero_add, Size.add_zero]

/-- Freeing such a block changes its tags, its links, and those of members. -/
theorem sameOff_free
    : h.memory.SameOff (s.here.tagBytes ∪ linkBytes (s.here.block :: xs))
        (h.free s.here.block).memory := by
  have settled := ord.settled
  have fits := settled.fits s.here_mem
  have size := (settled.tagged s.here s.here_mem).size_eq
  have joined : s.release.joined = s.release.here := by
    rw [Site.joined_release, joined_alone lower upper, Site.release]
  have apart : s.release.detach (h.toPool.tagAll [s.release.here])
      = h.toPool.tagAll [s.release.here] := by
    simp [Site.detach, Site.release, Pool.removeGap, lower, upper]
  have merged := Site.merge_eq (settled.released used).1 hs.release
    (by simp [Site.release, lower]) (by simp [Site.release, upper])
  have block : s.release.here.block = s.here.block := rfl
  obtain ⟨q, hq⟩ : ∃ q, q = (h.toPool.tagAll [s.release.here]).tagAll [s.release.here] := ⟨_, rfl⟩
  rw [joined, apart, ← hq, block] at merged
  have free_eq : h.free s.here.block = h.withPool (q.insert s.here.block) := by
    have released : h.writeTags s.here.block s.here.size false
        = h.toPool.tagAll [s.release.here] := by
      simp only [Pool.tagAll_cons, Pool.tagAll_nil, Site.release]
    rw [Heap.free, size, released, merged]
  -- The tags are written twice, when the block is released and when it is merged.
  have tagged : h.memory.SameOff s.here.tagBytes q.memory := by
    have tags : ∀ p : Pool, p.memory.SameOff s.here.tagBytes
        (p.tagAll [s.release.here]).memory := by
      intro p
      have fits' : s.release.here.Fits := ⟨fits.header, fits.room, fits.stop_le⟩
      apply (p.sameOff_tagAll (by simpa using fits')).mono
      rintro x ⟨f, hf, hx⟩
      rwa [List.mem_singleton.mp hf] at hx
    rw [hq]
    exact (tags _).trans (tags _)
  have lists : q.Lists xs := by
    apply settled.lists.sameOff (by simp [hq]) tagged
    intro c hc x tag link
    obtain ⟨f, hf, rfl, -⟩ := settled.free c hc
    exact settled.payload_notMem_tagBytes hf s.here_mem x (settled.links_subset_payload hf link) tag
  have linked := lists.sameOff_insert (settled.hasLinks s.here_mem)
  rw [free_eq]
  simp only [Heap.withPool]
  apply tagged.trans_union (linked.mono (linkBytes_mono _))
  refine List.cons_subset_cons _ fun c hc => ?_
  exact List.mem_of_head? (Option.mem_toList.mp hc)

/-- Allocating such a block again as a whole carves it, which brings back the layout. -/
theorem inOrder_restored (room : 32 ≤ s.here.size.toNat)
    : let k := h.free s.here.block
      let k' := k.withPool (k.carve s.here.block s.here.size).2
      k'.InOrder s.extents xs ∧ k'.Shows s.extents h.freeBlocks
        ∧ k.memory.SameOff (s.here.tagBytes ∪ linkBytes xs) k'.memory := by
  intro k k'
  have settled := ord.settled
  have fits := settled.fits s.here_mem
  have joined := joined_alone lower upper
  obtain ⟨sub, order, -⟩ := ord.freeBlocks_spec
  have extents : s.left ++ [s.here] ++ s.right = s.extents := by
    simp [Site.extents_eq, lower, upper]
  have small : ¬Size.minBlock ≤ s.here.size - s.here.size := by
    rw [Size.le_iff, Size.toNat_sub_of_le (Size.le_iff.mpr le_rfl), Size.toNat_minBlock]
    omega
  have whole : split s.joined.block s.joined.size s.here.size = [s.here] := by
    rw [joined, split_of_not_le small, ← used]
  have nothing : leftover s.joined.block s.joined.size s.here.size = none := by
    rw [joined, leftover, if_neg small]
  have listed : k.freeBlocks = [] ++ s.joined :: h.freeBlocks := by
    have others : s.drop h.freeBlocks = h.freeBlocks := by simp [Site.drop, dropGap, lower, upper]
    rw [(ord.shows_free hs used).freeBlocks, others, List.nil_append]
  have freed : k.InOrder (s.left ++ s.joined :: s.right) (s.joined.block :: s.unlist xs) := by
    simpa using (ord.free_at hs used).1
  have enough : s.here.size ≤ s.joined.size := by rw [joined, Size.le_iff]
  have block : s.joined.block = s.here.block := by rw [joined]
  have carved := freed.carve_listed listed room enough
  rw [whole, nothing, block, extents, Option.toList_none, List.nil_append, List.nil_append, order]
    at carved
  have size : s.here.block.size k.memory = s.here.size := by
    have tagged := (freed.settled.tagged s.joined (by simp)).size_eq
    rwa [joined] at tagged
  have lists : k.toPool.Lists (s.here.block :: xs) := by
    have others : s.unlist xs = xs := by simp [Site.unlist, eraseGap, lower, upper]
    rw [← block, ← others]
    exact freed.settled.lists
  have taken : (k.carve s.here.block s.here.size).2 = k.takeWhole s.here.block := by
    simp only [Pool.carve, size, small, if_false]
  refine ⟨carved, carved.shows sub order, ?_⟩
  simp only [k', Heap.withPool, taken]
  exact lists.sameOff_takeWhole fits size used

/-- Allocating such a block again as a whole brings back what was there before it was freed, but for
what was in the block.
-/
theorem restored (nonzero : bytes ≠ 0) (request : Size.forRequest? bytes = some s.here.size)
    : ((h.free s.here.block).allocate bytes).2.Shows h.blocks h.freeBlocks
      ∧ h.memory.SameOff s.here.payload ((h.free s.here.block).allocate bytes).2.memory := by
  have settled := ord.settled
  have room := (Size.room_of_forRequest? request).1
  have joined := joined_alone lower upper
  have served := ord.reused hs used nonzero request (by rw [joined, Size.le_iff])
  have first := ord.sameOff_free hs used lower upper
  obtain ⟨order, shows, second⟩ := ord.inOrder_restored hs used lower upper room
  rw [served, joined, ord.blocks_eq]
  refine ⟨shows, fun x outside => ?_⟩
  by_cases tag : x ∈ s.here.tagBytes
  · exact (settled.tagged s.here s.here_mem).byte_eq (settled.fits s.here_mem)
      (order.settled.tagged s.here s.here_mem) x tag
  · by_cases link : x ∈ linkBytes xs
    · exact settled.lists.byte_eq order.settled.lists x link
    · have away : x ∉ linkBytes (s.here.block :: xs) := by
        rintro ⟨b, hb, hx⟩
        rcases List.mem_cons.mp hb with rfl | hb
        · exact outside (settled.links_subset_payload s.here_mem hx)
        · exact link ⟨b, hb, hx⟩
      exact (second x (by simp [tag, link])).trans (first x (by simp [tag, away]))

end

end InOrder

end Heap

namespace Session

variable {chunk : Word} {region : Region} {memory : Memory} {rs : List Request} {b : Block}
  {bytes : Word}

/-- In every heap that a session leads to, freeing a block right after it was allocated undoes the
allocation. Where the region has not handed out more bytes, the blocks are the same as before, and
the one that the block is in has become the first of the free list. Otherwise the heap has grown,
and the new bytes are added to the last block if that was free, and make up a new one if it was not;
this is the first of the free list then. All other members are in the order that they had.
-/
theorem undone_of_legal (begins : Begins chunk region memory)
    (legal : (start chunk region memory).Legal rs) (nonzero : bytes ≠ 0)
    (granted : (((start chunk region memory).run rs).heap.allocate bytes).1 = .ok (some b))
    : let h := ((start chunk region memory).run rs).heap
      let h' := (h.allocate bytes).2
      let h'' := h'.free b
      h''.region = h'.region
      ∧ h''.freeBlocks.Perm (h''.blocks.filter fun e => !e.allocated)
      ∧ (h'.region = h.region →
          ∃ ys f zs, h.freeBlocks = ys ++ f :: zs ∧ f.block = b
            ∧ h''.Shows h.blocks (f :: (ys ++ zs)))
      ∧ (h'.region ≠ h.region →
          ∃ wanted, Size.forRequest? bytes = some wanted
            ∧ h'.region = h.region.advance (h.increment wanted).word
            ∧ (h.extension (h.increment wanted)).block = b
            ∧ (h.extension (h.increment wanted)).size.toNat
              = h.lastGap.elim 0 (·.size.toNat) + (h.increment wanted).toNat
            ∧ ∃ left, h.blocks = left ++ h.lastGap.toList
              ∧ h''.Shows (left ++ [h.extension (h.increment wanted)])
                  (h.extension (h.increment wanted) :: dropGap h.freeBlocks h.lastGap)) := by
  intro h h' h''
  obtain ⟨es₀, xs₀, coherent₀⟩ := begins.coherent
  obtain ⟨es, xs, coherent⟩ := coherent₀.run legal
  have ord : h.InOrder es xs := coherent.order
  have granted : (h.allocate bytes).1 = .ok (some b) := granted
  obtain ⟨wanted, request⟩ : ∃ wanted, Size.forRequest? bytes = some wanted := by
    cases request : Size.forRequest? bytes with
    | some wanted => exact ⟨wanted, rfl⟩
    | none => simp [Heap.allocate, nonzero, request] at granted
  have whole : h''.freeBlocks.Perm (h''.blocks.filter fun e => !e.allocated) := by
    obtain ⟨es', xs', grant⟩ := ord.allocate bytes
    have held : b ∈ users es' := grant.users.mem_iff.mpr (by simp [granted, Heap.granted])
    obtain ⟨es'', xs'', freed, -⟩ := grant.order.free held
    rw [freed.blocks_eq]
    exact freed.freeBlocks_perm
  refine ⟨Heap.region_free _ _, whole, ?_⟩
  rcases ord.granted_cases nonzero request granted with
    ⟨ys, f, zs, listed, small, enough⟩ | ⟨small, enough⟩
  · obtain ⟨block, same, shows⟩ := ord.undone_of_fit nonzero request listed small enough granted
    exact ⟨fun _ => ⟨ys, f, zs, listed, block, shows⟩, fun moved => absurd same moved⟩
  · obtain ⟨block, total, moved, left, blocks, shows⟩ :=
      ord.undone_of_growth nonzero request small enough granted
    refine ⟨fun same => ?_, fun _ => ⟨wanted, request, moved, block, total, left, blocks, shows⟩⟩
    have further := ord.sane.toNat_frontier_advance enough
    have large := Size.le_iff.mp (h.le_increment wanted)
    have room := (Size.room_of_forRequest? request).1
    rw [← moved, same] at further
    simp only [Size.toNat] at large room
    omega

/-- After the sample session, a small block is freed into the only free block again. A large one,
for which the heap grows, leaves that block larger by the new bytes.
-/
theorem undone_sample
    : let h := ((start 256 sampleRegion sampleMemory).run sampleRequests).heap
      Begins 256 sampleRegion sampleMemory
      ∧ (start 256 sampleRegion sampleMemory).Legal sampleRequests
      ∧ (h.allocate 16).1 = .ok (some ⟨4344⟩)
      ∧ ((h.allocate 16).2.free ⟨4344⟩).blocks = h.blocks
      ∧ (h.allocate 500).1 = .ok (some ⟨4344⟩)
      ∧ (h.allocate 500).2.region ≠ h.region
      ∧ ∃ left, h.blocks = left ++ [⟨⟨4344⟩, ⟨64, by decide⟩, false⟩]
        ∧ ((h.allocate 500).2.free ⟨4344⟩).blocks
          = left ++ [⟨⟨4344⟩, ⟨592, by decide⟩, false⟩] := by
  dsimp only
  have figures : let h := ((start 256 sampleRegion sampleMemory).run sampleRequests).heap
      (h.allocate 16).1 = .ok (some ⟨4344⟩)
      ∧ (h.allocate 16).2.region = h.region
      ∧ (h.allocate 500).1 = .ok (some ⟨4344⟩)
      ∧ (h.allocate 500).2.region ≠ h.region
      ∧ h.lastGap = some ⟨⟨4344⟩, ⟨64, by decide⟩, false⟩
      ∧ h.extension (h.increment ⟨528, by decide⟩) = ⟨⟨4344⟩, ⟨592, by decide⟩, false⟩ := by
    decide +kernel
  obtain ⟨reply, same, reply', moved, gap, last⟩ := figures
  obtain ⟨-, -, carved, -⟩ := undone_of_legal begins_sample legal_sample (by decide) reply
  obtain ⟨-, -, -, grown⟩ := undone_of_legal begins_sample legal_sample (by decide) reply'
  generalize ((start 256 sampleRegion sampleMemory).run sampleRequests).heap = h
    at reply same reply' moved gap last carved grown
  have size : Size.forRequest? 500 = some ⟨528, by decide⟩ := by decide
  obtain ⟨ys, f, zs, -, -, shows⟩ := carved same
  obtain ⟨wanted, request, -, -, -, left, blocks, shows'⟩ := grown moved
  obtain rfl := Option.some.inj (request.symm.trans size)
  rw [last] at shows'
  rw [gap] at blocks
  exact ⟨begins_sample, legal_sample, reply, shows.blocks, reply', moved, left, blocks,
    shows'.blocks⟩

/-- In every heap that a session leads to, a block that is freed serves the next request that it has
room for along with the free blocks that touch it, and the region hands out nothing for that. Where
nothing free touched it, and the request takes the block as a whole, all is as before: the blocks,
the free list in its order, and every byte but for those that are the user's.
-/
theorem reused_of_legal (begins : Begins chunk region memory)
    (legal : (start chunk region memory).Legal rs)
    (held : b ∈ ((start chunk region memory).run rs).live)
    : let h := ((start chunk region memory).run rs).heap
      let h' := h.free b
      (∃ s, h.Situates s b)
      ∧ ∀ s, h.Situates s b → ∀ bytes wanted, bytes ≠ 0 → Size.forRequest? bytes = some wanted →
          (wanted.toNat ≤ s.lower.elim 0 (·.size.toNat) + s.here.size.toNat
              + s.upper.elim 0 (·.size.toNat)
            → (h'.allocate bytes).1 = .ok (some (s.lower.getD s.here).block)
              ∧ (h'.allocate bytes).2.region = h.region)
          ∧ (s.lower = none → s.upper = none → wanted = s.here.size
            → (h'.allocate bytes).2.Shows h.blocks h.freeBlocks
              ∧ h.memory.SameOff s.here.payload (h'.allocate bytes).2.memory) := by
  intro h h'
  obtain ⟨es₀, xs₀, coherent₀⟩ := begins.coherent
  obtain ⟨es, xs, coherent⟩ := coherent₀.run legal
  have ord : h.InOrder es xs := coherent.order
  obtain ⟨e, he, rfl, used⟩ := mem_users.mp (coherent.live.mem_iff.mp held)
  constructor
  · obtain ⟨s, rfl, rfl, hs⟩ := ord.settled.exists_site he
    exact ⟨s, ord.blocks_eq.symm, rfl, hs⟩
  · rintro s ⟨extents, block, hs⟩ bytes wanted nonzero request
    obtain rfl := extents.trans ord.blocks_eq
    obtain rfl := ord.settled.tiles.eq_of_block s.here_mem he block
    constructor
    · intro enough
      rw [← Site.toNat_joined ord.settled.toLaid, ← Size.le_iff] at enough
      have served := ord.reused hs used nonzero request enough
      rw [served]
      refine ⟨rfl, ?_⟩
      simp only [Heap.withPool]
      exact Heap.region_free _ _
    · rintro lower upper rfl
      exact ord.restored hs used lower upper nonzero request

/-- After the sample session, the upper block is freed along with the free one above it, and serves
a request for which it was too small. Nothing free touches the lower one, which is freed and
allocated again without a trace.
-/
theorem reused_sample
    : let s := (start 256 sampleRegion sampleMemory).run sampleRequests
      let h := s.heap
      let low := (h.free ⟨4152⟩).allocate 128
      let high := (h.free ⟨4296⟩).allocate 90
      Begins 256 sampleRegion sampleMemory
      ∧ (start 256 sampleRegion sampleMemory).Legal sampleRequests
      ∧ ⟨4152⟩ ∈ s.live
      ∧ ⟨4296⟩ ∈ s.live
      ∧ high.1 = .ok (some ⟨4296⟩)
      ∧ high.2.region = h.region
      ∧ low.1 = .ok (some ⟨4152⟩)
      ∧ low.2.Shows h.blocks h.freeBlocks
      ∧ h.memory.SameOff (Word.span 4152 4280) low.2.memory := by
  dsimp only
  obtain ⟨held, held'⟩ : ⟨4152⟩ ∈ ((start 256 sampleRegion sampleMemory).run sampleRequests).live
      ∧ ⟨4296⟩ ∈ ((start 256 sampleRegion sampleMemory).run sampleRequests).live := by
    simp [live_sample]
  obtain ⟨-, reuse⟩ := reused_of_legal begins_sample legal_sample held
  obtain ⟨-, reuse'⟩ := reused_of_legal begins_sample legal_sample held'
  generalize hs : (start 256 sampleRegion sampleMemory).run sampleRequests = s
    at held held' reuse reuse'
  have blocks : s.heap.blocks = [⟨⟨4152⟩, ⟨144, by decide⟩, true⟩,
      ⟨⟨4296⟩, ⟨48, by decide⟩, true⟩, ⟨⟨4344⟩, ⟨64, by decide⟩, false⟩] := by
    rw [← hs]
    decide +kernel
  have place : s.heap.Situates ⟨[], none, ⟨⟨4152⟩, ⟨144, by decide⟩, true⟩, none,
      [⟨⟨4296⟩, ⟨48, by decide⟩, true⟩, ⟨⟨4344⟩, ⟨64, by decide⟩, false⟩]⟩ ⟨4152⟩ :=
    ⟨blocks.symm, rfl, ⟨⟨by simp, by simp⟩, by simp, by simp⟩⟩
  have place' : s.heap.Situates ⟨[⟨⟨4152⟩, ⟨144, by decide⟩, true⟩], none,
      ⟨⟨4296⟩, ⟨48, by decide⟩, true⟩, some ⟨⟨4344⟩, ⟨64, by decide⟩, false⟩, []⟩ ⟨4296⟩ :=
    ⟨blocks.symm, rfl, ⟨⟨by simp, by simp⟩, by simp, by simp⟩⟩
  have size : Size.forRequest? 128 = some ⟨144, by decide⟩ := by decide
  have size' : Size.forRequest? 90 = some ⟨112, by decide⟩ := by decide
  obtain ⟨fits, whole⟩ := reuse _ place 128 _ (by decide) size
  obtain ⟨fits', -⟩ := reuse' _ place' 90 _ (by decide) size'
  obtain ⟨reply, -⟩ := fits (by decide)
  obtain ⟨reply', region⟩ := fits' (by decide)
  obtain ⟨shows, same⟩ := whole rfl rfl rfl
  exact ⟨begins_sample, legal_sample, held, held', reply', region, reply, shows, same⟩

end Session

end BoundaryTag
