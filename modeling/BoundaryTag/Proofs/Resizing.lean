import BoundaryTag.Pool.Resize
import BoundaryTag.Proofs.Freeing

/-! Resizing within reach: the free extents that an allocated one grows into leave the list, the
contents move, and the range is divided anew between the extent and what is left over. The three
ways of growing differ only in which extents they use up and at which end the rest stays.
-/

namespace BoundaryTag

-----------------------------------------------------------------------------------------
-- Allocating the high end of a range
-----------------------------------------------------------------------------------------

/-- The extents that a range becomes when its high end is allocated. A rest that is too small for
a block is allocated along.
-/
def splitHigh (b : Block) (total wanted : Size) : List Extent :=
  if Size.minBlock ≤ total - wanted then
    [⟨b, total - wanted, false⟩, ⟨b.offset (total - wanted).word, wanted, true⟩]
  else
    [⟨b, total, true⟩]

/-- The block at the high end of a range, or the whole range. -/
def highEnd (b : Block) (total wanted : Size) : Block :=
  if Size.minBlock ≤ total - wanted then b.offset (total - wanted).word else b

/-- What is left over of a range when its high end is allocated. -/
def leftoverLow (b : Block) (total wanted : Size) : Option Extent :=
  if Size.minBlock ≤ total - wanted then some ⟨b, total - wanted, false⟩ else none

section

variable {b : Block} {total wanted : Size} {z : Nat}

/-- A rest that can form a block becomes a free extent at the low end. -/
theorem splitHigh_of_le (h : Size.minBlock ≤ total - wanted)
    : splitHigh b total wanted
      = [⟨b, total - wanted, false⟩, ⟨b.offset (total - wanted).word, wanted, true⟩] :=
  if_pos h

/-- A smaller rest stays with what is allocated. -/
theorem splitHigh_of_not_le (h : ¬Size.minBlock ≤ total - wanted)
    : splitHigh b total wanted = [⟨b, total, true⟩] :=
  if_neg h

/-- A range that is split at its high end is the same range. -/
theorem splitHigh_tiles (room : 32 ≤ wanted.toNat) (enough : wanted ≤ total)
    (hz : b.address.toNat + total.toNat = z) (high : z < UInt64.size)
    : Tiles b.address.toNat (splitHigh b total wanted) z := by
  have rest := Size.toNat_sub_of_le enough
  rw [Size.le_iff] at enough
  by_cases h : Size.minBlock ≤ total - wanted
  · rw [splitHigh_of_le h]
    rw [Size.le_iff, Size.toNat_minBlock] at h
    have hoffset : (b.offset (total - wanted).word).address.toNat
        = b.address.toNat + (total - wanted).toNat :=
      Block.toNat_offset (by omega)
    simp only [Tiles, Extent.stop, Extent.start, hoffset, true_and]
    omega
  · rw [splitHigh_of_not_le h]
    simp only [Tiles, Extent.stop, Extent.start, true_and]
    omega

/-- Only the high end of the range is allocated, and it has at least the wanted size. -/
theorem exists_splitHigh (b : Block) {total wanted : Size} (enough : wanted ≤ total)
    : ∃ size, splitHigh b total wanted
          = (leftoverLow b total wanted).toList ++ [⟨highEnd b total wanted, size, true⟩]
        ∧ wanted ≤ size := by
  by_cases h : Size.minBlock ≤ total - wanted
  · refine ⟨wanted, by simp [splitHigh, leftoverLow, highEnd, h], ?_⟩
    rw [Size.le_iff]
  · exact ⟨total, by simp [splitHigh, leftoverLow, highEnd, h], enough⟩

/-- What is left over is free. -/
theorem leftoverLow_free : ∀ e ∈ leftoverLow b total wanted, e.allocated = false := by
  intro e he
  by_cases h : Size.minBlock ≤ total - wanted
  · simp only [leftoverLow, if_pos h, Option.mem_some] at he
    simp [← he]
  · simp [leftoverLow, if_neg h] at he

/-- The only free extent after allocating the high end is what is left over. -/
theorem gaps_splitHigh (enough : wanted ≤ total)
    : gaps (splitHigh b total wanted) = (leftoverLow b total wanted).toList.map (·.block) := by
  obtain ⟨size, parts, -⟩ := exists_splitHigh b enough
  simp [parts, gaps_cons, gaps_toList leftoverLow_free]

/-- The only allocated extent is the one at the high end. -/
theorem users_splitHigh (enough : wanted ≤ total)
    : users (splitHigh b total wanted) = [highEnd b total wanted] := by
  obtain ⟨size, parts, -⟩ := exists_splitHigh b enough
  simp [parts, users_cons, users_toList leftoverLow_free]

/-- A gap above a range does not touch what is left over at its low end. -/
theorem alternating_splitHigh (enough : wanted ≤ total) (gap : Option Extent)
    : Alternating (splitHigh b total wanted ++ gap.toList) := by
  obtain ⟨size, parts, -⟩ := exists_splitHigh b enough
  have lower : Alternating ((leftoverLow b total wanted).toList
      ++ [⟨highEnd b total wanted, size, true⟩]) :=
    (alternating_toList _).append_used (by simp [Alternating]) rfl
  rw [parts]
  exact lower.used_append (alternating_toList gap) rfl

end

namespace Pool

/-- A pool after the block of a gap has joined the list, if there is a gap. -/
def insertGap (p : Pool) (gap : Option Extent) : Pool :=
  gap.elim p fun e => p.insert e.block

/-- Claiming a range writes the tags of its parts, and lists what is left over. -/
theorem claim_eq (p : Pool) (b : Block) (total wanted : Size)
    : p.claim b total wanted
      = (p.tagAll (split b total wanted)).insertGap (leftover b total wanted) := by
  by_cases h : Size.minBlock ≤ total - wanted
  · simp only [claim, insertGap, leftover, h, if_true, split_of_le, tagAll_cons, tagAll_nil,
      Option.elim]
  · simp only [claim, insertGap, leftover, h, if_false, split_of_not_le, tagAll_cons, tagAll_nil,
      Option.elim, not_false_eq_true]

/-- Growing down moves the contents to the high end of the range, and then writes the tags of its
parts and lists what is left over.
-/
theorem growDown_eq (p : Pool) (b below : Block) (wanted : Size) (kept : Word)
    : p.growDown b below wanted kept
      = let total := below.size p.memory + b.size p.memory
        let target := highEnd below total wanted
        (target, (((p.remove below).movePayload b target kept).tagAll
          (splitHigh below total wanted)).insertGap (leftoverLow below total wanted)) := by
  by_cases h : Size.minBlock ≤ below.size p.memory + b.size p.memory - wanted
  · simp only [growDown, h, if_true, highEnd, splitHigh_of_le, leftoverLow, tagAll_cons,
      tagAll_nil, insertGap, Option.elim]
  · simp only [growDown, h, if_false, highEnd, splitHigh_of_not_le, leftoverLow, tagAll_cons,
      tagAll_nil, insertGap, Option.elim, not_false_eq_true]

namespace Laid

variable {p q : Pool} {low top : Block} {l mid mid' r : List Extent} {xs : List Block} {y z : Nat}

/-- New extents take over an unlisted range, whose bytes may have changed before, and one of them
that is free is listed. Apart from new tags that touches vacant bytes only.
-/
theorem refit (h : p.Laid low (l ++ mid ++ r) top xs)
    (front : Tiles (low.address.toNat + 16) l y) (range : Tiles y mid z)
    (unlisted : ∀ e ∈ mid, e.block ∉ xs) (head : q.head = p.head)
    (same : p.memory.SameOff (Word.span (y - 8) (z - 8)) q.memory) (range' : Tiles y mid' z)
    {gap : Option Extent} (hgap : ∀ e ∈ gap, e ∈ mid' ∧ e.allocated = false)
    : ((q.tagAll mid').insertGap gap).Laid low (l ++ mid' ++ r) top
          (gap.toList.map (·.block) ++ xs)
      ∧ q.memory.SameOff (tagsOf mid' ∪ vacant (l ++ mid' ++ r))
          ((q.tagAll mid').insertGap gap).memory := by
  have tagged := h.retag front range unlisted head same range'
  have hfloor := h.floor
  have hfront := front.le
  have htop : z ≤ top.address.toNat := by
    obtain ⟨z', middle, rear⟩ := tiles_append.mp tagged.tiles
    obtain rfl := (tiles_append.mpr ⟨_, front, range'⟩ : Tiles _ _ z).unique middle
    exact rear.le
  have high := top.address.toNat_lt_size
  have written := (q.sameOff_tagAll fun e he => range'.fits (by omega) (by omega) he).mono
    (T := tagsOf mid' ∪ vacant (l ++ mid' ++ r)) Set.subset_union_left
  cases gap with
  | none => exact ⟨tagged, written⟩
  | some g =>
      obtain ⟨hmem, hfree⟩ := hgap g rfl
      have hmem' : g ∈ l ++ mid' ++ r := by simp [hmem]
      have inside := range'.bounds hmem
      have fresh : g.block ∉ xs := by
        simp only [Extent.stop, Extent.start] at inside
        exact h.fresh_of_within front range unlisted inside.1 (by omega)
      exact ⟨tagged.insert hmem' hfree fresh,
        written.trans ((tagged.sameOff_insert hmem' hfree).mono Set.subset_union_right)⟩

end Laid

end Pool

-----------------------------------------------------------------------------------------
-- An extent and the gaps that it grows into
-----------------------------------------------------------------------------------------

namespace Site

variable {s : Site} {p q : Pool} {low top : Block} {xs : List Block} {mid : List Extent}
  {y z : Nat}

/-- The middle of a site with an allocated extent is divided anew, after its gaps have left the
list and its bytes may have changed. What becomes free of it is listed.
-/
theorem refit (h : p.Settled low s.extents top xs) (hs : s.Flanked)
    (used : s.here.allocated = true) (range' : Tiles s.joined.start mid s.joined.stop)
    (alternating : Alternating (s.left ++ mid ++ s.right)) {gap : Option Extent}
    (hgap : ∀ e ∈ gap, e ∈ mid ∧ e.allocated = false)
    (hgaps : gaps mid = gap.toList.map (·.block)) (head : q.head = (s.detach p).head)
    (same : (s.detach p).memory.SameOff s.joined.covered q.memory)
    : ((q.tagAll mid).insertGap gap).Settled low (s.left ++ mid ++ s.right) top
          (gaps mid ++ s.unlist xs)
      ∧ p.memory.SameOff s.own ((q.tagAll mid).insertGap gap).memory
      ∧ q.memory.SameOff (tagsOf mid ∪ vacant (s.left ++ mid ++ s.right))
          ((q.tagAll mid).insertGap gap).memory := by
  obtain ⟨y, z, front, range, rear⟩ := exists_range h.toLaid
  have hfloor := h.floor
  have hfront := front.le
  have hz := rear.le.trans_lt top.address.toNat_lt_size
  obtain ⟨rfl, -, rfl⟩ := joined_tiles range (Nat.lt_add_left y hz)
  have unlisted := middle_unlisted h.lists.nodup (h.notMem_of_used s.here_mem used)
  have inRange : s.joined.covered ⊆ s.own := hs.span_subset_own range (by omega)
  obtain ⟨detached, freed⟩ := detach_laid h.toLaid (h.lower_listed hs) (h.upper_listed hs)
  obtain ⟨laid, tagged⟩ := detached.refit front range unlisted head same range' hgap
  rw [← hgaps] at laid
  refine ⟨⟨laid, ?_, alternating⟩, ?_, tagged⟩
  · simpa using hs.relist_perm used h.complete (gaps mid)
  · have first : p.memory.SameOff s.own q.memory :=
      (freed.mono Set.subset_union_left).trans (same.mono inRange)
    apply first.trans (tagged.mono (Set.union_subset (range'.tagsOf_subset.trans inRange) ?_))
    exact (vacant_replace _ range').trans (Set.union_subset Set.subset_union_left inRange)

/-- An extent with the gap above it alone. -/
def upward (s : Site) : Site where
  left := s.left ++ s.lower.toList
  lower := none
  here := s.here
  upper := s.upper
  right := s.right

/-- An extent with the gap below it alone. -/
def downward (s : Site) : Site where
  left := s.left
  lower := s.lower
  here := s.here
  upper := none
  right := s.upper.toList ++ s.right

/-- The layout is the same if the gap below an extent counts as lying to its left. -/
theorem extents_upward (s : Site) : s.upward.extents = s.extents := by
  simp [extents_eq, upward]

/-- The layout is the same if the gap above an extent counts as lying to its right. -/
theorem extents_downward (s : Site) : s.downward.extents = s.extents := by
  simp [extents_eq, downward]

/-- Replacing an extent and the gap above it leaves the gap below it. -/
theorem rework_upward (s : Site) (mid : List Extent)
    : s.upward.left ++ mid ++ s.upward.right = s.left ++ (s.lower.toList ++ mid) ++ s.right := by
  simp [upward]

/-- Replacing an extent and the gap below it leaves the gap above it. -/
theorem rework_downward (s : Site) (mid : List Extent)
    : s.downward.left ++ mid ++ s.downward.right
      = s.left ++ (mid ++ s.upper.toList) ++ s.right := by
  simp [downward]

/-- What belongs to the extent or to nobody is the same without the gap below it. -/
theorem own_upward (s : Site) : s.upward.own = s.own := by
  rw [own, own, extents_upward]
  simp only [upward]

/-- What belongs to the extent or to nobody is the same without the gap above it. -/
theorem own_downward (s : Site) : s.downward.own = s.own := by
  rw [own, own, extents_downward]
  simp only [downward]

/-- Without the gap below it, an extent joins with the one above it only. -/
theorem joined_upward (s : Site) {u : Extent} (hu : s.upper = some u)
    : s.upward.joined = ⟨s.here.block, s.here.size + u.size, false⟩ := by
  simp [joined, upward, hu]

/-- Without the gap above it, an extent joins with the one below it only. -/
theorem joined_downward (s : Site) {d : Extent} (hd : s.lower = some d)
    : s.downward.joined = ⟨d.block, d.size + s.here.size, false⟩ := by
  simp [joined, downward, hd]

/-- Only the gap above leaves the list then. -/
theorem detach_upward (s : Site) {u : Extent} (hu : s.upper = some u)
    : s.upward.detach p = p.remove u.block := by
  simp only [detach, upward, hu, Pool.removeGap, Option.elim]

/-- Only the gap below leaves the list then. -/
theorem detach_downward (s : Site) {d : Extent} (hd : s.lower = some d)
    : s.downward.detach p = p.remove d.block := by
  simp only [detach, downward, hd, Pool.removeGap, Option.elim]

/-- The list is without the gap above then. -/
theorem unlist_upward (s : Site) {u : Extent} (hu : s.upper = some u) (xs : List Block)
    : s.upward.unlist xs = xs.erase u.block := by
  simp only [unlist, upward, hu, eraseGap, Option.elim]

/-- The list is without the gap below then. -/
theorem unlist_downward (s : Site) {d : Extent} (hd : s.lower = some d) (xs : List Block)
    : s.downward.unlist xs = xs.erase d.block := by
  simp only [unlist, downward, hd, eraseGap, Option.elim]

/-- The contents of the extent survive while the gaps around it leave the list. -/
theorem readBytes_detach (h : p.Settled low s.extents top xs) (hs : s.Flanked)
    (used : s.here.allocated = true) {n : Nat} (room : n + 16 ≤ s.here.size.toNat)
    : (s.detach p).memory.readBytes s.here.block.address n
      = p.memory.readBytes s.here.block.address n := by
  have freed := (detach_laid h.toLaid (h.lower_listed hs) (h.upper_listed hs)).2
  exact h.readBytes_eq s.here_mem used (List.nil_subset _)
    (freed.mono Set.subset_union_right) room

/-- The range that an extent makes up with its gaps does not reach the word limit. -/
theorem joined_stop_lt (h : p.Laid low s.extents top xs) : s.joined.stop < UInt64.size := by
  obtain ⟨y, z, front, range, rear⟩ := exists_range h
  have hz := rear.le.trans_lt top.address.toNat_lt_size
  obtain ⟨-, -, rfl⟩ := joined_tiles range (Nat.lt_add_left y hz)
  exact hz

/-- The low end of the middle of a site is allocated, and holds what had been put there. -/
theorem claim (h : p.Settled low s.extents top xs) (hs : s.Flanked)
    (used : s.here.allocated = true) {wanted : Size} (room : 32 ≤ wanted.toNat)
    (enough : wanted ≤ s.joined.size)
    (alternating : Alternating (s.left ++ split s.joined.block s.joined.size wanted ++ s.right))
    (head : q.head = (s.detach p).head)
    (same : (s.detach p).memory.SameOff s.joined.covered q.memory)
    : (q.claim s.joined.block s.joined.size wanted).Settled low
          (s.left ++ split s.joined.block s.joined.size wanted ++ s.right) top
          (gaps (split s.joined.block s.joined.size wanted) ++ s.unlist xs)
      ∧ p.memory.SameOff s.own (q.claim s.joined.block s.joined.size wanted).memory
      ∧ ∀ n, n + 16 ≤ wanted.toNat
          → (q.claim s.joined.block s.joined.size wanted).memory.readBytes
                s.joined.block.address n
            = q.memory.readBytes s.joined.block.address n := by
  have range' := split_tiles room enough rfl (joined_stop_lt h.toLaid).le
  obtain ⟨settled, own, tagged⟩ := refit h hs used range' alternating
    (fun e he => mem_split_of_mem_leftover he) (gaps_split _ _ _) head same
  rw [Pool.claim_eq]
  refine ⟨settled, own, fun n hn => ?_⟩
  obtain ⟨size, rest, hsplit, hsize, -⟩ := exists_split s.joined.block enough
  rw [Size.le_iff] at hsize
  exact settled.readBytes_eq (e := ⟨s.joined.block, size, true⟩) (by simp [hsplit]) rfl
    (fun e he => by simp [he]) tagged (hn.trans hsize)

end Site

namespace Pool

/-- Moving contents leaves the head of the list. -/
theorem head_movePayload (p : Pool) (source target : Block) (count : Word)
    : (p.movePayload source target count).head = p.head := by
  simp only [movePayload]

/-- Moved contents are where they were moved to, also where both places overlap. -/
theorem readBytes_movePayload (p : Pool) (source target : Block) (count : Word)
    : (p.movePayload source target count).memory.readBytes target.address count.toNat
      = p.memory.readBytes source.address count.toNat := by
  simp only [movePayload]
  exact Memory.readBytes_copy _ _ _ _

/-- Moving contents into a range touches nothing else. -/
theorem sameOff_movePayload (p : Pool) (source target : Block) (count : Word) {y z : Nat}
    (low : y ≤ target.address.toNat) (high : target.address.toNat + count.toNat ≤ z)
    (limit : z ≤ UInt64.size)
    : p.memory.SameOff (Word.span y z) (p.movePayload source target count).memory := by
  simp only [movePayload]
  apply (p.memory.sameOff_copy source.address (high.trans limit)).mono
  intro x hx
  rw [Word.mem_span] at hx ⊢
  omega

namespace Settled

variable {s : Site} {p : Pool} {low top : Block} {xs : List Block} {wanted : Size} {d u : Extent}

/-- Growing upwards uses up the gap above, and leaves the contents where they are. -/
theorem growUp (h : p.Settled low s.extents top xs) (hs : s.Enclosed)
    (used : s.here.allocated = true) (hu : s.upper = some u) (room : 32 ≤ wanted.toNat)
    (enough : wanted ≤ s.here.size + u.size)
    : (p.growUp s.here.block u.block wanted).Settled low
          (s.left ++ (s.lower.toList ++ split s.here.block (s.here.size + u.size) wanted)
            ++ s.right) top
          (gaps (split s.here.block (s.here.size + u.size) wanted) ++ xs.erase u.block)
      ∧ p.memory.SameOff s.own (p.growUp s.here.block u.block wanted).memory
      ∧ ∀ n, n + 16 ≤ s.here.size.toNat → n + 16 ≤ wanted.toNat
          → (p.growUp s.here.block u.block wanted).memory.readBytes s.here.block.address n
            = p.memory.readBytes s.here.block.address n := by
  have size := (h.tagged s.here s.here_mem).size_eq
  have size' := (h.tagged u (Site.mem_of_mem_upper hu)).size_eq
  have joined := s.joined_upward hu
  have inner : Alternating (s.lower.toList
      ++ split s.here.block (s.here.size + u.size) wanted) := by
    have parts := alternating_split s.here.block (s.here.size + u.size) wanted
    obtain ⟨size, rest, hsplit, -⟩ := exists_split s.here.block enough
    rw [hsplit] at parts ⊢
    exact (alternating_toList s.lower).append_used parts rfl
  have alternating := hs.alternating (Site.alternating_sides h.alternating) inner
  have growUp_eq : p.growUp s.here.block u.block wanted
      = (s.upward.detach p).claim s.upward.joined.block s.upward.joined.size wanted := by
    simp only [Pool.growUp, size, size', joined, s.detach_upward hu]
  have unlist : s.upward.unlist xs = xs.erase u.block := s.unlist_upward hu xs
  have flanked : s.upward.Flanked := ⟨by simp [Site.upward], hs.upper_free⟩
  rw [← s.extents_upward] at h
  rw [← s.own_upward]
  have enough' : wanted ≤ s.upward.joined.size := by rwa [joined]
  obtain ⟨settled, own, contents⟩ := Site.claim h flanked used room enough'
    (by rwa [joined, s.rework_upward]) rfl (.refl _ _)
  rw [s.rework_upward, unlist] at settled
  rw [growUp_eq]
  rw [joined] at settled own contents ⊢
  refine ⟨settled, own, fun n hn hn' => ?_⟩
  exact (contents n hn').trans (Site.readBytes_detach h flanked used hn)

/-- Growing both ways uses up both gaps, and moves the contents to the low end of the range. -/
theorem growBothWays (h : p.Settled low s.extents top xs) (hs : s.Enclosed)
    (used : s.here.allocated = true) (hd : s.lower = some d) (hu : s.upper = some u)
    (room : 32 ≤ wanted.toNat) (enough : wanted ≤ d.size + s.here.size + u.size) {kept : Word}
    (held : kept.toNat + 16 ≤ s.here.size.toNat) (needed : kept.toNat + 16 ≤ wanted.toNat)
    : (p.growBothWays s.here.block d.block u.block wanted kept).Settled low
          (s.left ++ split d.block (d.size + s.here.size + u.size) wanted ++ s.right) top
          (gaps (split d.block (d.size + s.here.size + u.size) wanted)
            ++ (xs.erase d.block).erase u.block)
      ∧ p.memory.SameOff s.own (p.growBothWays s.here.block d.block u.block wanted kept).memory
      ∧ (p.growBothWays s.here.block d.block u.block wanted kept).memory.readBytes
            d.block.address kept.toNat
          = p.memory.readBytes s.here.block.address kept.toNat := by
  have size := (h.tagged d (Site.mem_of_mem_lower hd)).size_eq
  have size' := (h.tagged s.here s.here_mem).size_eq
  have size'' := (h.tagged u (Site.mem_of_mem_upper hu)).size_eq
  have joined : s.joined = ⟨d.block, d.size + s.here.size + u.size, false⟩ := by
    simp [Site.joined, hd, hu]
  have unlist : s.unlist xs = (xs.erase d.block).erase u.block := by
    simp only [Site.unlist, hd, hu, eraseGap, Option.elim]
  have grow_eq : p.growBothWays s.here.block d.block u.block wanted kept
      = ((s.detach p).movePayload s.here.block s.joined.block kept).claim s.joined.block
          s.joined.size wanted := by
    simp only [Pool.growBothWays, size, size', size'', joined, Site.detach, hd, hu,
      Pool.removeGap, Option.elim]
  have alternating := hs.alternating (Site.alternating_sides h.alternating)
    (alternating_split s.joined.block s.joined.size wanted)
  have limit := Site.joined_stop_lt h.toLaid
  have enough' : wanted ≤ s.joined.size := by rwa [joined]
  have fits := Size.le_iff.mp enough'
  have same := (s.detach p).sameOff_movePayload s.here.block s.joined.block kept
    (y := s.joined.start - 8) (z := s.joined.stop - 8) (Nat.sub_le _ _)
    (by simp only [Extent.stop, Extent.start]; omega) (by omega)
  obtain ⟨settled, own, contents⟩ := Site.claim h hs.toFlanked used room enough' alternating
    (head_movePayload _ _ _ _) same
  have moved := (contents kept.toNat needed).trans (readBytes_movePayload _ _ _ _)
  have detached := Site.readBytes_detach h hs.toFlanked used held
  rw [unlist] at settled
  rw [grow_eq]
  rw [joined] at settled own moved ⊢
  exact ⟨settled, own, moved.trans detached⟩

/-- Growing downwards uses up the gap below, and moves the contents to the high end of the range.
-/
theorem growDown (h : p.Settled low s.extents top xs) (hs : s.Enclosed)
    (used : s.here.allocated = true) (hd : s.lower = some d) (room : 32 ≤ wanted.toNat)
    (enough : wanted ≤ d.size + s.here.size) {kept : Word}
    (held : kept.toNat + 16 ≤ s.here.size.toNat) (needed : kept.toNat + 16 ≤ wanted.toNat)
    : (p.growDown s.here.block d.block wanted kept).1
          = highEnd d.block (d.size + s.here.size) wanted
      ∧ (p.growDown s.here.block d.block wanted kept).2.Settled low
          (s.left ++ (splitHigh d.block (d.size + s.here.size) wanted ++ s.upper.toList)
            ++ s.right) top
          (gaps (splitHigh d.block (d.size + s.here.size) wanted) ++ xs.erase d.block)
      ∧ p.memory.SameOff s.own (p.growDown s.here.block d.block wanted kept).2.memory
      ∧ (p.growDown s.here.block d.block wanted kept).2.memory.readBytes
            (highEnd d.block (d.size + s.here.size) wanted).address kept.toNat
          = p.memory.readBytes s.here.block.address kept.toNat := by
  have size := (h.tagged d (Site.mem_of_mem_lower hd)).size_eq
  have size' := (h.tagged s.here s.here_mem).size_eq
  have joined := s.joined_downward hd
  have unlist : s.downward.unlist xs = xs.erase d.block := s.unlist_downward hd xs
  have flanked : s.downward.Flanked := ⟨hs.lower_free, by simp [Site.downward]⟩
  have limit : s.downward.joined.stop < UInt64.size :=
    Site.joined_stop_lt (s := s.downward) (by rw [s.extents_downward]; exact h.toLaid)
  obtain ⟨target, htarget⟩ : ∃ b, b = highEnd d.block (d.size + s.here.size) wanted := ⟨_, rfl⟩
  have grow_eq : p.growDown s.here.block d.block wanted kept
      = (target, (((s.downward.detach p).movePayload s.here.block target kept).tagAll
          (splitHigh s.downward.joined.block s.downward.joined.size wanted)).insertGap
          (leftoverLow s.downward.joined.block s.downward.joined.size wanted)) := by
    rw [growDown_eq, size, size', htarget, joined, s.detach_downward hd]
  have enough' : wanted ≤ s.downward.joined.size := by rwa [joined]
  have range' := splitHigh_tiles room enough' rfl limit
  obtain ⟨size, parts, hsize⟩ := exists_splitHigh s.downward.joined.block enough'
  have htarget' : target = highEnd s.downward.joined.block s.downward.joined.size wanted := by
    rw [joined, htarget]
  rw [← htarget'] at parts
  have hmem : ⟨target, size, true⟩
      ∈ splitHigh s.downward.joined.block s.downward.joined.size wanted := by
    simp [parts]
  have alternating := hs.alternating (Site.alternating_sides h.alternating)
    (alternating_splitHigh (b := s.downward.joined.block) enough' s.upper)
  have hbounds := range'.bounds hmem
  rw [Size.le_iff] at hsize
  simp only [Extent.stop, Extent.start] at hbounds
  have same := (s.downward.detach p).sameOff_movePayload s.here.block target kept
    (y := s.downward.joined.start - 8) (z := s.downward.joined.stop - 8)
    (by simp only [Extent.start]; omega) (by simp only [Extent.stop, Extent.start]; omega)
    (by omega)
  rw [← s.extents_downward] at h
  rw [← s.rework_downward] at alternating
  obtain ⟨settled, own, tagged⟩ := Site.refit h flanked used range' alternating
    (fun e he => ⟨by simp [parts, Option.mem_def.mp he], leftoverLow_free e he⟩)
    (gaps_splitHigh enough') (head_movePayload _ _ _ _) same
  have written := settled.readBytes_eq (e := ⟨target, size, true⟩) (by simp [hmem]) rfl
    (fun e he => by simp [he]) tagged (needed.trans hsize)
  have moved := written.trans (readBytes_movePayload _ _ _ _)
  rw [s.rework_downward, unlist] at settled
  rw [grow_eq, ← htarget]
  rw [s.own_downward] at own
  rw [joined] at settled own moved ⊢
  exact ⟨rfl, settled, own, moved.trans (Site.readBytes_detach h flanked used held)⟩

end Settled

end Pool

end BoundaryTag
