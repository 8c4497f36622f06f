import BoundaryTag.Proofs.Placement
import BoundaryTag.Proofs.Refusals
import BoundaryTag.Proofs.Shifting

/-! What becomes of a block that gets another size, as a change of the two lists that the walks
show. A block that is large enough gives up what it does not need. Otherwise it grows into the free
extent below it, or into the one above, or into both, whichever is enough first. If nothing is, its
contents move to a newly allocated block, and it is freed.
-/

namespace BoundaryTag

namespace Site

variable {s : Site} {p : Pool} {low top : Block} {xs : List Block} {wanted : Size} {d : Extent}

/-- What an extent gives up is joined with the gap above it. -/
theorem joined_cut (s : Site) (wanted : Size)
    : (s.cut wanted).joined
      = ⟨s.here.block.offset wanted.word,
          s.here.size - wanted + s.upper.elim Size.zero (·.size), false⟩ := by
  simp [joined, cut]

/-- Where an extent grows downwards and leaves a rest, its end stays where it was. -/
theorem address_highEnd (h : p.Laid low s.extents top xs) (below : s.lower = some d)
    (rest : Size.minBlock ≤ d.size + s.here.size - wanted)
    : (highEnd d.block (d.size + s.here.size) wanted).address
      = s.here.block.address + s.here.size.word - wanted.word := by
  have start : s.here.block.address = d.block.address + d.size.word := by
    apply UInt64.toNat_inj.mp
    have limit := s.here.block.address.toNat_lt_size
    have touching := (touching h).1 d below
    simp only [Extent.start] at touching
    rw [UInt64.toNat_add, ← Size.toNat, touching]
    exact (Nat.mod_eq_of_lt limit).symm
  simp only [highEnd, rest, if_true, Block.offset, start]
  show d.block.address + (d.size.word + s.here.size.word - wanted.word) = _
  grind

end Site

namespace Heap

/-- A block gets room for a number of bytes without growth of the heap: the reply names the block
afterwards, and the walks show the given extents, and the given free ones in list order.
-/
structure Reshapes (h : Heap) (b : Block) (bytes : Word) (target : Block) (es free : List Extent)
    : Prop where
  reply : (h.resize (some b) bytes).1 = .ok (some target)
  region : (h.resize (some b) bytes).2.region = h.region
  shows : (h.resize (some b) bytes).2.Shows es free

/-- A site is where a block is in a heap, with the free extents that touch it. -/
structure Situates (h : Heap) (s : Site) (b : Block) : Prop where
  extents : s.extents = h.blocks
  block : s.here.block = b
  enclosed : s.Enclosed

/-- What becomes of the block in a site when it gets room for a number of bytes, which takes the
wanted size.
-/
structure Reshaping (h : Heap) (s : Site) (bytes : Word) (wanted : Size) : Prop where
  /-- A block that is large enough gives up what it does not need, if that can form a block. This
  is joined with the free extent above, and is the first in the list.
  -/
  trim (enough : wanted ≤ s.here.size) (large : Size.minBlock ≤ s.here.size - wanted)
    : let rest : Extent := ⟨s.here.block.offset wanted.word,
        s.here.size - wanted + s.upper.elim Size.zero (·.size), false⟩
      h.Reshapes s.here.block bytes s.here.block
        (s.left ++ (s.lower.toList ++ [⟨s.here.block, wanted, true⟩, rest]) ++ s.right)
        (rest :: dropGap h.freeBlocks s.upper)
  /-- If it cannot, all of the memory and the list remain as they are. -/
  stay (enough : wanted ≤ s.here.size) (small : ¬Size.minBlock ≤ s.here.size - wanted)
    : h.Reshapes s.here.block bytes s.here.block s.extents h.freeBlocks
      ∧ (h.resize (some s.here.block) bytes).2.toPool = h.toPool
  /-- A block grows into the free extent below it, which leaves the list, and ends where it has
  ended. What is left over stays below, and is the first in the list.
  -/
  growDown (d : Extent) (short : ¬wanted ≤ s.here.size) (below : s.lower = some d)
    (enough : wanted ≤ d.size + s.here.size)
    : h.Reshapes s.here.block bytes (highEnd d.block (d.size + s.here.size) wanted)
        (s.left ++ (splitHigh d.block (d.size + s.here.size) wanted ++ s.upper.toList) ++ s.right)
        ((leftoverLow d.block (d.size + s.here.size) wanted).toList ++ h.freeBlocks.erase d)
      ∧ (Size.minBlock ≤ d.size + s.here.size - wanted
        → (highEnd d.block (d.size + s.here.size) wanted).address
          = s.here.block.address + s.here.size.word - wanted.word)
  /-- If that is not enough, it grows into the free extent above it, which leaves the list. What is
  left over is the first in the list.
  -/
  growUp (u : Extent) (short : ¬wanted ≤ s.here.size) (above : s.upper = some u)
    (low : ∀ d ∈ s.lower, ¬wanted ≤ d.size + s.here.size)
    (enough : wanted ≤ s.here.size + u.size)
    : h.Reshapes s.here.block bytes s.here.block
        (s.left ++ (s.lower.toList ++ split s.here.block (s.here.size + u.size) wanted) ++ s.right)
        ((leftover s.here.block (s.here.size + u.size) wanted).toList ++ h.freeBlocks.erase u)
  /-- If neither is enough, it grows into both, which leave the list. What is left over is the first
  in the list.
  -/
  growBothWays (d u : Extent) (short : ¬wanted ≤ s.here.size) (below : s.lower = some d)
    (above : s.upper = some u) (low : ¬wanted ≤ d.size + s.here.size)
    (high : ¬wanted ≤ s.here.size + u.size) (enough : wanted ≤ d.size + s.here.size + u.size)
    : h.Reshapes s.here.block bytes d.block
        (s.left ++ split d.block (d.size + s.here.size + u.size) wanted ++ s.right)
        ((leftover d.block (d.size + s.here.size + u.size) wanted).toList
          ++ (h.freeBlocks.erase d).erase u)
  /-- Otherwise a block is allocated, as for any request. The old one joins the free extents around
  it then, and is the first in the list.
  -/
  moveAway (short : ¬wanted ≤ s.joined.size)
    : (h.resize (some s.here.block) bytes).1 = (h.allocate bytes).1
      ∧ ∀ target, (h.allocate bytes).1 = .ok (some target)
        → (h.resize (some s.here.block) bytes).2.region = (h.allocate bytes).2.region
          ∧ ∃ t : Site, (h.allocate bytes).2.Situates t s.here.block ∧ t.here = s.here
            ∧ (h.resize (some s.here.block) bytes).2.Shows (t.left ++ [t.joined] ++ t.right)
                (t.joined :: t.drop (h.allocate bytes).2.freeBlocks)
  /-- If none can be allocated, all but the journal remains as it is. -/
  refused (e : Refusal) (failed : (h.resize (some s.here.block) bytes).1 = .error e)
    : (h.resize (some s.here.block) bytes).2.Alike h

/-- Heaps that differ in their journals alone show the same. -/
theorem Alike.shows {h k : Heap} {es free : List Extent} (alike : h.Alike k)
    (shows : k.Shows es free)
    : h.Shows es free where
  blocks := by
    rw [Heap.blocks, alike.pool, alike.prologue]
    exact shows.blocks
  freeBlocks := by
    rw [Heap.freeBlocks, alike.pool]
    exact shows.freeBlocks

namespace InOrder

variable {h a : Heap} {es : List Extent} {xs : List Block} {s : Site} {wanted : Size}
  {bytes kept : Word} {plan : Plan} {target : Block} {d u e : Extent}

/-- Apart from the journal, resizing is to carry out the plan that suits the site of a block. -/
theorem resize_agree (ord : h.InOrder s.extents xs) (hs : s.Enclosed) (nonzero : bytes ≠ 0)
    (request : Size.forRequest? bytes = some wanted) (planned : s.Planned wanted plan)
    : (h.resize (some s.here.block) bytes).1
        = (h.carryOut plan s.here.block wanted (h.kept s.here.block bytes)).1.map some
      ∧ (h.resize (some s.here.block) bytes).2.Alike
          (h.carryOut plan s.here.block wanted (h.kept s.here.block bytes)).2 := by
  have chosen : Plan.choose h.memory s.here.block wanted = plan :=
    (ord.settled.planned_choose hs wanted).unique ord.settled.toLaid planned
  obtain ⟨same, after⟩ := (Alike.note_self h (.resizing s.here.block wanted plan)).carryOut plan
    s.here.block wanted (h.kept s.here.block bytes)
  rw [resize_of_some nonzero request, chosen]
  exact ⟨congrArg (Except.map some) same, after⟩

-----------------------------------------------------------------------------------------
-- Changes within reach, and away from it
-----------------------------------------------------------------------------------------

/-- A plan that changes the pool alone, and divides the middle of a site anew, shows what became of
it. The site can have fewer gaps than there are around the block, if only these are used up.
-/
theorem reshapes (ord : h.InOrder s.extents xs) (hs : s.Enclosed) (nonzero : bytes ≠ 0)
    (request : Size.forRequest? bytes = some wanted) (planned : s.Planned wanted plan)
    (used : s.here.allocated = true) {t : Site} (extents : t.extents = s.extents)
    (here : t.here = s.here) {p : Pool}
    (carried : h.carryOut plan s.here.block wanted (h.kept s.here.block bytes)
      = (.ok target, h.withPool p))
    {mid ms : List Extent} {xs' : List Block}
    (settled : p.Settled h.prologue (t.left ++ mid ++ t.right) ⟨h.region.frontier⟩ xs')
    (order : xs' = ms.map (·.block) ++ t.unlist xs) (sub : ms ⊆ mid)
    : h.Reshapes s.here.block bytes target (t.left ++ mid ++ t.right)
        (ms ++ t.drop h.freeBlocks) := by
  obtain ⟨reply, after⟩ := ord.resize_agree hs nonzero request planned
  rw [carried] at reply after
  rw [← extents] at ord
  rw [← here] at used
  refine ⟨reply, ?_, after.shows (ord.shows_reworked used (ord.withPool settled) order sub)⟩
  rw [after.region]
  simp only [Heap.withPool]

/-- Moving away allocates a block and frees the old one, which joins the free extents around it
then, and is the first in the list.
-/
theorem shows_moveAway (ord : h.InOrder es xs) (he : e ∈ es) (used : e.allocated = true)
    (room : 32 ≤ wanted.toNat) (needed : kept.toNat + 16 ≤ wanted.toNat)
    (served : h.serve wanted = (.ok target, a))
    : (h.moveAway e.block wanted kept).2.region = a.region
      ∧ ∃ t : Site, a.Situates t e.block ∧ t.here = e
        ∧ (h.moveAway e.block wanted kept).2.Shows (t.left ++ [t.joined] ++ t.right)
            (t.joined :: t.drop a.freeBlocks) := by
  obtain ⟨es₁, xs₁, serves⟩ := ord.serve room served
  obtain ⟨t, ht, rfl, tused, enough⟩ := serves.extent
  rw [Size.le_iff] at enough
  obtain ⟨moved, -⟩ := serves.order.receive ht tused (needed.trans enough) e.block
  obtain ⟨sub, order, -⟩ := serves.order.freeBlocks_spec
  obtain ⟨site, rfl, rfl, hs⟩ := serves.order.settled.exists_site
    (serves.step.kept e he used (by simp))
  rw [moveAway_eq served]
  generalize a.memory.copy site.here.block.address t.block.address kept = m at moved ⊢
  have freed := (moved.free_at hs used).1
  have order' : site.joined.block :: site.unlist xs₁
      = [site.joined].map (·.block) ++ site.unlist xs₁ := rfl
  have shows := moved.shows_reworked used freed order' (by simp)
  rw [(moved.shows sub order).freeBlocks] at shows
  refine ⟨?_, site, ⟨serves.order.blocks_eq.symm, rfl, hs⟩, rfl, shows⟩
  rw [region_free]
  exact region_note a (.moving site.here.block t.block kept)

-----------------------------------------------------------------------------------------
-- The ways to get another size
-----------------------------------------------------------------------------------------

section

variable (ord : h.InOrder s.extents xs) (hs : s.Enclosed) (nonzero : bytes ≠ 0)
  (request : Size.forRequest? bytes = some wanted)

include ord hs nonzero request

/-- A block with too little to give up remains as it is, and so does all but the journal. -/
theorem alike_stay (enough : wanted ≤ s.here.size) (small : ¬Size.minBlock ≤ s.here.size - wanted)
    : (h.resize (some s.here.block) bytes).1 = .ok (some s.here.block)
      ∧ (h.resize (some s.here.block) bytes).2.Alike h := by
  obtain ⟨reply, after⟩ := ord.resize_agree hs nonzero request (.stay enough)
  have carried : h.carryOut .stay s.here.block wanted (h.kept s.here.block bytes)
      = (.ok s.here.block, h.withPool h.toPool) := by
    simp only [Heap.carryOut, ord.settled.trim_eq_self small]
  rw [carried] at reply after
  exact ⟨reply, after⟩

/-- A block with too little to give up leaves what the walks show. -/
theorem reshapes_stay (enough : wanted ≤ s.here.size)
    (small : ¬Size.minBlock ≤ s.here.size - wanted)
    : h.Reshapes s.here.block bytes s.here.block s.extents h.freeBlocks
      ∧ (h.resize (some s.here.block) bytes).2.toPool = h.toPool := by
  obtain ⟨reply, same⟩ := ord.alike_stay hs nonzero request enough small
  exact ⟨⟨reply, same.region, same.shows ⟨ord.blocks_eq, rfl⟩⟩, same.pool⟩

variable (used : s.here.allocated = true)

include used

/-- A block with more than it needs gives up the rest. -/
theorem reshapes_trim (enough : wanted ≤ s.here.size)
    (large : Size.minBlock ≤ s.here.size - wanted)
    : h.Reshapes s.here.block bytes s.here.block
        (s.left ++ (s.lower.toList ++ [⟨s.here.block, wanted, true⟩, (s.cut wanted).joined])
          ++ s.right)
        ((s.cut wanted).joined :: dropGap h.freeBlocks s.upper) := by
  have room := (Size.room_of_forRequest? request).1
  have settled := (ord.settled.trim hs used room enough large).1
  have parts : (s.cut wanted).left ++ [(s.cut wanted).joined] ++ s.right
      = s.upward.left ++ [⟨s.here.block, wanted, true⟩, (s.cut wanted).joined]
        ++ s.upward.right := by
    simp [Site.cut, Site.upward]
  have order : (s.cut wanted).joined.block :: (s.cut wanted).unlist xs
      = [(s.cut wanted).joined].map (·.block) ++ s.upward.unlist xs := rfl
  rw [parts] at settled
  rw [← s.rework_upward]
  exact ord.reshapes hs nonzero request (.stay enough) used s.extents_upward rfl
    (by simp only [Heap.carryOut]) settled order (by simp)

/-- Growing downwards divides the range from the extent below up to the end of the block. -/
theorem reshapes_growDown (short : ¬wanted ≤ s.here.size) (below : s.lower = some d)
    (enough : wanted ≤ d.size + s.here.size)
    : h.Reshapes s.here.block bytes (highEnd d.block (d.size + s.here.size) wanted)
        (s.left ++ (splitHigh d.block (d.size + s.here.size) wanted ++ s.upper.toList) ++ s.right)
        ((leftoverLow d.block (d.size + s.here.size) wanted).toList ++ h.freeBlocks.erase d) := by
  have room := (Size.room_of_forRequest? request).1
  obtain ⟨held, needed⟩ := ord.kept_bounds s.here_mem request
  obtain ⟨target, settled, -⟩ := ord.settled.growDown hs used below room enough held needed
  obtain ⟨size, parts, -⟩ := exists_splitHigh d.block enough
  have dropped : s.downward.drop h.freeBlocks = h.freeBlocks.erase d := by
    simp only [Site.drop, Site.downward, below, dropGap, Option.elim]
  rw [← s.rework_downward] at settled ⊢
  rw [← dropped]
  exact ord.reshapes hs nonzero request (.growDown short below enough) used s.extents_downward rfl
    (by simp only [Heap.carryOut, target]) settled
    (by rw [gaps_splitHigh enough, s.unlist_downward below]) (by simp [parts])

/-- Growing upwards divides the range from the block up to the end of the extent above. -/
theorem reshapes_growUp (short : ¬wanted ≤ s.here.size) (above : s.upper = some u)
    (low : ∀ d ∈ s.lower, ¬wanted ≤ d.size + s.here.size)
    (enough : wanted ≤ s.here.size + u.size)
    : h.Reshapes s.here.block bytes s.here.block
        (s.left ++ (s.lower.toList ++ split s.here.block (s.here.size + u.size) wanted) ++ s.right)
        ((leftover s.here.block (s.here.size + u.size) wanted).toList
          ++ h.freeBlocks.erase u) := by
  have room := (Size.room_of_forRequest? request).1
  have settled := (ord.settled.growUp hs used above room enough).1
  have dropped : s.upward.drop h.freeBlocks = h.freeBlocks.erase u := by
    simp only [Site.drop, Site.upward, above, dropGap, Option.elim]
  rw [← s.rework_upward] at settled ⊢
  rw [← dropped]
  exact ord.reshapes hs nonzero request (.growUp short above low enough) used s.extents_upward rfl
    (by simp only [Heap.carryOut]) settled (by rw [gaps_split, s.unlist_upward above])
    fun e he => (mem_split_of_mem_leftover (Option.mem_toList.mp he)).1

/-- Growing both ways divides the range from the extent below up to the end of the one above. -/
theorem reshapes_growBothWays (short : ¬wanted ≤ s.here.size) (below : s.lower = some d)
    (above : s.upper = some u) (low : ¬wanted ≤ d.size + s.here.size)
    (high : ¬wanted ≤ s.here.size + u.size) (enough : wanted ≤ d.size + s.here.size + u.size)
    : h.Reshapes s.here.block bytes d.block
        (s.left ++ split d.block (d.size + s.here.size + u.size) wanted ++ s.right)
        ((leftover d.block (d.size + s.here.size + u.size) wanted).toList
          ++ (h.freeBlocks.erase d).erase u) := by
  have room := (Size.room_of_forRequest? request).1
  obtain ⟨held, needed⟩ := ord.kept_bounds s.here_mem request
  have settled := (ord.settled.growBothWays hs used below above room enough held needed).1
  have dropped : s.drop h.freeBlocks = (h.freeBlocks.erase d).erase u := by
    simp only [Site.drop, below, above, dropGap, Option.elim]
  rw [← dropped]
  exact ord.reshapes hs nonzero request (.growBothWays short below above low high enough) used rfl
    rfl (by simp only [Heap.carryOut]) settled
    (by simp only [gaps_split, Site.unlist, below, above, eraseGap, Option.elim])
    fun e he => (mem_split_of_mem_leftover (Option.mem_toList.mp he)).1

/-- A block that has too little room with the free extents around it is given up for a newly
allocated one.
-/
theorem reshapes_moveAway (short : ¬wanted ≤ s.joined.size)
    : (h.resize (some s.here.block) bytes).1 = (h.allocate bytes).1
      ∧ ∀ target, (h.allocate bytes).1 = .ok (some target)
        → (h.resize (some s.here.block) bytes).2.region = (h.allocate bytes).2.region
          ∧ ∃ t : Site, (h.allocate bytes).2.Situates t s.here.block ∧ t.here = s.here
            ∧ (h.resize (some s.here.block) bytes).2.Shows (t.left ++ [t.joined] ++ t.right)
                (t.joined :: t.drop (h.allocate bytes).2.freeBlocks) := by
  have room := (Size.room_of_forRequest? request).1
  have needed := (ord.kept_bounds s.here_mem request).2
  obtain ⟨reply, after⟩ := ord.resize_agree hs nonzero request (.moveAway short)
  rw [Heap.carryOut] at reply after
  rw [allocate_of_some nonzero request, reply, result_moveAway]
  refine ⟨rfl, fun target granted => ?_⟩
  obtain ⟨result, a, served⟩ : ∃ result a, h.serve wanted = (result, a) := ⟨_, _, rfl⟩
  rw [served] at granted ⊢
  cases result with
  | error e => cases granted
  | ok target =>
      obtain ⟨region, t, ht, here, shows⟩ :=
        ord.shows_moveAway s.here_mem used room needed served
      exact ⟨after.region.trans region, t, ht, here, after.shows shows⟩

/-- Whatever plan suits a site, its block becomes what it should. -/
theorem reshaping : h.Reshaping s bytes wanted where
  trim enough large := by
    rw [← s.joined_cut]
    exact ord.reshapes_trim hs nonzero request used enough large
  stay enough small := ord.reshapes_stay hs nonzero request enough small
  growDown _ short below enough :=
    ⟨ord.reshapes_growDown hs nonzero request used short below enough,
      Site.address_highEnd ord.settled.toLaid below⟩
  growUp _ short above low enough :=
    ord.reshapes_growUp hs nonzero request used short above low enough
  growBothWays _ _ short below above low high enough :=
    ord.reshapes_growBothWays hs nonzero request used short below above low high enough
  moveAway short := ord.reshapes_moveAway hs nonzero request used short
  refused _ failed := resize_of_error failed

end

end InOrder

end Heap

namespace Session

variable {chunk : Word} {region : Region} {memory : Memory} {rs : List Request} {b : Block}
  {bytes : Word}

/-- In every heap that a session leads to, each block that a client holds is in one place, and gets
another size by the first of five ways that is enough there: by giving up what it does not need, by
growing down, up or both ways, or by moving away. Each of them makes a definite change of the two
lists that the walks show.
-/
theorem reshaping_of_legal (begins : Begins chunk region memory)
    (legal : (start chunk region memory).Legal rs)
    (held : b ∈ ((start chunk region memory).run rs).live) (nonzero : bytes ≠ 0)
    (small : bytes.toNat ≤ UInt64.size - 32)
    : let h := ((start chunk region memory).run rs).heap
      ∃ wanted, Size.forRequest? bytes = some wanted
        ∧ (∃ s, h.Situates s b)
        ∧ ∀ s, h.Situates s b → s.here.allocated = true
          ∧ s.lower.elim 0 (·.size.toNat) + s.here.size.toNat + s.upper.elim 0 (·.size.toNat)
            < UInt64.size
          ∧ h.Reshaping s bytes wanted := by
  intro h
  obtain ⟨es₀, xs₀, coherent₀⟩ := begins.coherent
  obtain ⟨es, xs, coherent⟩ := coherent₀.run legal
  have ord : h.InOrder es xs := coherent.order
  obtain ⟨e, he, rfl, used⟩ := mem_users.mp (coherent.live.mem_iff.mp held)
  obtain ⟨wanted, request⟩ := Size.exists_forRequest? small
  refine ⟨wanted, request, ?_, ?_⟩
  · obtain ⟨s, rfl, rfl, hs⟩ := ord.settled.exists_site he
    exact ⟨s, ord.blocks_eq.symm, rfl, hs⟩
  · rintro s ⟨extents, block, hs⟩
    obtain rfl := extents.trans ord.blocks_eq
    obtain rfl := ord.settled.tiles.eq_of_block s.here_mem he block
    exact ⟨used, Site.sum_lt ord.settled.toLaid, ord.reshaping hs nonzero request used⟩

/-- After the sample session, when the lower of the two blocks is freed, the other lies between two
free ones. For a small request it grows into the lower one alone, and for a large one into both.
-/
theorem reshaping_sample
    : let rs := sampleRequests ++ [.free ⟨4152⟩]
      let h := ((start 256 sampleRegion sampleMemory).run rs).heap
      Begins 256 sampleRegion sampleMemory
      ∧ (start 256 sampleRegion sampleMemory).Legal rs
      ∧ ⟨4296⟩ ∈ ((start 256 sampleRegion sampleMemory).run rs).live
      ∧ h.freeBlocks = [⟨⟨4152⟩, ⟨144, by decide⟩, false⟩, ⟨⟨4344⟩, ⟨64, by decide⟩, false⟩]
      ∧ (h.resize (some ⟨4296⟩) 60).1 = .ok (some ⟨4264⟩)
      ∧ (h.resize (some ⟨4296⟩) 60).2.freeBlocks
        = [⟨⟨4152⟩, ⟨112, by decide⟩, false⟩, ⟨⟨4344⟩, ⟨64, by decide⟩, false⟩]
      ∧ (h.resize (some ⟨4296⟩) 230).1 = .ok (some ⟨4152⟩)
      ∧ (h.resize (some ⟨4296⟩) 230).2.freeBlocks = [] := by
  intro rs h
  have figures : (start 256 sampleRegion sampleMemory).Legal rs
      ∧ ⟨4296⟩ ∈ ((start 256 sampleRegion sampleMemory).run rs).live
      ∧ h.freeBlocks = [⟨⟨4152⟩, ⟨144, by decide⟩, false⟩, ⟨⟨4344⟩, ⟨64, by decide⟩, false⟩]
      ∧ h.blocks = [⟨⟨4152⟩, ⟨144, by decide⟩, false⟩, ⟨⟨4296⟩, ⟨48, by decide⟩, true⟩,
        ⟨⟨4344⟩, ⟨64, by decide⟩, false⟩] := by
    decide +kernel
  obtain ⟨legal, held, free, blocks⟩ := figures
  have size : Size.forRequest? 60 = some ⟨80, by decide⟩ := by decide
  have size' : Size.forRequest? 230 = some ⟨256, by decide⟩ := by decide
  obtain ⟨s, hs⟩ : ∃ s : Site, s = ⟨[], some ⟨⟨4152⟩, ⟨144, by decide⟩, false⟩,
    ⟨⟨4296⟩, ⟨48, by decide⟩, true⟩, some ⟨⟨4344⟩, ⟨64, by decide⟩, false⟩, []⟩ := ⟨_, rfl⟩
  have place : h.Situates s ⟨4296⟩ := by
    subst hs
    exact ⟨blocks.symm, rfl, ⟨⟨by simp, by simp⟩, by simp, by simp⟩⟩
  obtain ⟨wanted, request, -, small⟩ :=
    reshaping_of_legal begins_sample legal held (by decide : (60 : Word) ≠ 0) (by decide)
  obtain ⟨wanted', request', -, large⟩ :=
    reshaping_of_legal begins_sample legal held (by decide : (230 : Word) ≠ 0) (by decide)
  obtain rfl := Option.some.inj (request.symm.trans size)
  obtain rfl := Option.some.inj (request'.symm.trans size')
  obtain ⟨-, -, low⟩ := small s place
  obtain ⟨-, -, both⟩ := large s place
  subst hs
  obtain ⟨down, -⟩ := low.growDown _ (by decide) rfl (by decide)
  have ways := both.growBothWays _ _ (by decide) rfl rfl (by decide) (by decide) (by decide)
  have after := down.shows.freeBlocks
  have after' := ways.shows.freeBlocks
  rw [free] at after after'
  exact ⟨begins_sample, legal, held, free, down.reply, after, ways.reply, after'⟩

end Session

end BoundaryTag
