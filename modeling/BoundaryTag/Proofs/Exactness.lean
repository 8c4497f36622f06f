import BoundaryTag.Proofs.Checking
import BoundaryTag.Proofs.Walks

/-! Operations on a heap in order have no lapses: the sizes side by side fill the range of the heap
and add up to less than the word limit, plans are only made where there are bytes enough, and the
heap only grows by what its region has left.
-/

namespace BoundaryTag

namespace Pool.Laid

variable {p : Pool} {low top : Block} {l r : List Extent} {xs : List Block} {e : Extent}

/-- A block of a layout finds the block below it without a lapse. -/
theorem belowChecked_eq (h : p.Laid low (l ++ e :: r) top xs)
    : e.block.belowChecked p.memory = .ok (e.block.below p.memory) := by
  have hfloor := h.floor
  have hbounds := h.bounds (e := e) (by simp)
  obtain ⟨y, front, start, -⟩ := tiles_append.mp h.tiles
  have start : e.block.address.toNat = y := start
  rw [← start] at front
  have lower : (l.getLast?.getD (sentinel low)).start ≤ e.block.address.toNat := by
    cases hlast : l.getLast? with
    | none => exact (Nat.le_add_right _ 16).trans front.le
    | some d =>
        have inside := front.bounds (List.mem_of_getLast? hlast)
        exact (Nat.le_add_right _ _).trans inside.2.2
  apply Block.belowChecked_eq
  · simp only [Extent.start] at hbounds
    omega
  · rw [h.below_eq front]
    exact lower

/-- A block of a layout finds what lies above it without a lapse. -/
theorem aboveChecked_eq (h : p.Laid low (l ++ e :: r) top xs)
    : e.block.aboveChecked p.memory = .ok (e.block.above p.memory) := by
  have hbounds := h.bounds (e := e) (by simp)
  have limit := top.address.toNat_lt_size
  simp only [Extent.stop, Extent.start] at hbounds
  apply Block.aboveChecked_eq
  rw [(h.tagged e (by simp)).above_eq, Block.toNat_offset (by omega)]
  exact Nat.le_add_right _ _

end Pool.Laid

namespace Site

variable {s : Site} {p : Pool} {low top : Block} {xs : List Block} {wanted : Size}

/-- The extent that a site joins into fits in the address space. -/
theorem joined_fits (h : p.Laid low s.extents top xs) : s.joined.Fits := by
  obtain ⟨y, z, front, range, rear⟩ := exists_range h
  have hfloor := h.floor
  have hfront := front.le
  have hz := rear.le.trans_lt top.address.toNat_lt_size
  exact (joined_tiles range (Nat.lt_add_left y hz)).fits (by omega) hz.le (by simp)

/-- An extent and the gaps that touch it are gathered without a lapse. -/
theorem gatherChecked_eq (h : p.Laid low s.extents top xs) (hs : s.Enclosed)
    (lower_listed : ∀ d ∈ s.lower, d.block ∈ xs) (upper_listed : ∀ u ∈ s.upper, u.block ∈ xs)
    : p.gatherChecked s.here.block = .ok (s.joined.block, s.joined.size.word, s.detach p) := by
  obtain ⟨hbelow, hbelowUsed⟩ := below_eq h hs
  obtain ⟨habove, haboveUsed⟩ := above_eq h hs
  have here := (h.tagged s.here s.here_mem).size_eq
  have detached := (detach_laid h lower_listed upper_listed).1
  have lower : ∀ d ∈ s.lower, d.block.size (s.detach p).memory = d.size :=
    fun d hd => (detached.tagged d (mem_of_mem_lower hd)).size_eq
  have upper : ∀ u ∈ s.upper, u.block.size (s.detach p).memory = u.size :=
    fun u hu => (detached.tagged u (mem_of_mem_upper hu)).size_eq
  have sum := sum_lt h
  rw [s.extents_eq] at h
  simp only [Pool.gatherChecked, h.belowChecked_eq, h.aboveChecked_eq, hbelowUsed, haboveUsed,
    here, Lapse.ok_bind]
  cases hlower : s.lower with
  | none =>
      cases hupper : s.upper with
      | none =>
          simp [joined, detach, Pool.removeGap, hlower, hupper, pure, Except.pure]
      | some u =>
          simp only [detach, hlower, hupper, Pool.removeGap, Option.elim] at upper sum
          have total : Word.addChecked s.here.size.word u.size.word
              = .ok (s.here.size + u.size).word :=
            Word.addChecked_word (by omega)
          simp [joined, detach, Pool.removeGap, hlower, hupper, habove u hupper, upper u rfl, total]
  | some d =>
      cases hupper : s.upper with
      | none =>
          simp only [detach, hlower, hupper, Pool.removeGap, Option.elim] at lower sum
          have total : Word.addChecked s.here.size.word d.size.word
              = .ok (d.size + s.here.size).word := by
            rw [Size.add_comm]
            exact Word.addChecked_word (by omega)
          simp [joined, detach, Pool.removeGap, hlower, hupper, hbelow d hlower, lower d rfl, total]
      | some u =>
          simp only [detach, hlower, hupper, Pool.removeGap, Option.elim] at lower upper sum
          have gaps : Word.addChecked d.size.word u.size.word = .ok (d.size + u.size).word :=
            Word.addChecked_word (by omega)
          have fits := Size.toNat_add_of_lt (s := d.size) (t := u.size) (by omega)
          have total : Word.addChecked s.here.size.word (d.size + u.size).word
              = .ok (d.size + s.here.size + u.size).word := by
            rw [Size.add_comm d.size s.here.size, Size.add_assoc]
            exact Word.addChecked_word (by omega)
          simp [joined, detach, Pool.removeGap, hlower, hupper, hbelow d hlower, habove u hupper,
            lower d rfl, upper u rfl, gaps, total]

/-- Merging an extent with the gaps that touch it goes without a lapse. -/
theorem mergeChecked_eq (h : p.Laid low s.extents top xs) (hs : s.Enclosed)
    (lower_listed : ∀ d ∈ s.lower, d.block ∈ xs) (upper_listed : ∀ u ∈ s.upper, u.block ∈ xs)
    : p.mergeChecked s.here.block = .ok (p.merge s.here.block) := by
  have gathered := gatherChecked_eq h hs lower_listed upper_listed
  have written : (s.detach p).writeTagsChecked s.joined.block s.joined.size.word false
      = .ok ((s.detach p).writeTags s.joined.block s.joined.size false) :=
    Pool.writeTagsChecked_eq (joined_fits h) (s.detach p)
  rw [merge_eq h hs lower_listed upper_listed, Pool.tagAll_cons, Pool.tagAll_nil,
    Pool.mergeChecked, gathered, Lapse.ok_bind]
  dsimp only
  rw [written]
  rfl

end Site

namespace Pool.Settled

variable {p : Pool} {low top : Block} {xs : List Block} {s : Site} {wanted : Size} {d u : Extent}

/-- Shortening an extent goes without a lapse. -/
theorem trimChecked_eq (h : p.Settled low s.extents top xs) (hs : s.Enclosed)
    (used : s.here.allocated = true) (room : 32 ≤ wanted.toNat) (enough : wanted ≤ s.here.size)
    : p.trimChecked s.here.block wanted = .ok (p.trim s.here.block wanted) := by
  have size := (h.tagged s.here s.here_mem).size_eq
  have hbounds := h.bounds s.here_mem
  have limit := top.address.toNat_lt_size
  simp only [Extent.stop, Extent.start] at hbounds
  simp only [Pool.trimChecked, Pool.trim, size, Word.subChecked_word enough, Lapse.ok_bind,
    Size.word_le_word]
  by_cases large : Size.minBlock ≤ s.here.size - wanted
  · obtain ⟨kept, rest, -⟩ := parts_of_split (b := s.here.block) room enough (by omega) (by omega)
      large
    obtain ⟨tagged, -, -, above⟩ := h.shortened used room enough large
    have merged := Site.mergeChecked_eq tagged (hs.cut wanted) (by simp [Site.cut])
      (h.upper_listed hs.toFlanked)
    simp only [split_of_le large, tagAll_cons, tagAll_nil, Site.cut] at merged
    have found : s.here.block.aboveChecked (p.writeTags s.here.block wanted true).memory
        = .ok (s.here.block.offset wanted.word) := by
      rw [← above]
      apply Block.aboveChecked_eq
      rw [above, Block.toNat_offset]
      · exact Nat.le_add_right _ _
      · have limit := Size.le_iff.mp enough
        omega
    simp only [large, if_true]
    rw [writeTagsChecked_eq kept, Lapse.ok_bind, found, Lapse.ok_bind, writeTagsChecked_eq rest,
      Lapse.ok_bind, merged, Lapse.ok_bind, above]
    rfl
  · simp only [large, if_false]
    rfl

/-- Growing into the gap above goes without a lapse. -/
theorem growUpChecked_eq (h : p.Settled low s.extents top xs) (hu : s.upper = some u)
    (room : 32 ≤ wanted.toNat) (enough : wanted ≤ s.here.size + u.size)
    : p.growUpChecked s.here.block u.block wanted
      = .ok (p.growUp s.here.block u.block wanted) := by
  have size := (h.tagged s.here s.here_mem).size_eq
  have size' := (h.tagged u (Site.mem_of_mem_upper hu)).size_eq
  have hbounds := h.bounds s.here_mem
  have hbounds' := h.bounds (Site.mem_of_mem_upper hu)
  have touching := (Site.touching h.toLaid).2 u hu
  have limit := top.address.toNat_lt_size
  simp only [Extent.stop, Extent.start] at hbounds hbounds' touching
  have fits : s.here.size.toNat + u.size.toNat < UInt64.size := by omega
  have total := Size.toNat_add_of_lt fits
  rw [Pool.growUpChecked, Pool.growUp, size, size', Word.addChecked_word fits, Lapse.ok_bind]
  exact claimChecked_eq _ room enough (by omega) (by omega)

/-- Growing into the gap below goes without a lapse. -/
theorem growDownChecked_eq (h : p.Settled low s.extents top xs) (hd : s.lower = some d)
    (room : 32 ≤ wanted.toNat) (enough : wanted ≤ d.size + s.here.size) (kept : Word)
    : p.growDownChecked s.here.block d.block wanted kept
      = .ok (p.growDown s.here.block d.block wanted kept) := by
  have hbounds := h.bounds s.here_mem
  have hbounds' := h.bounds (Site.mem_of_mem_lower hd)
  have touching := (Site.touching h.toLaid).1 d hd
  have limit := top.address.toNat_lt_size
  simp only [Extent.stop, Extent.start] at hbounds hbounds' touching
  exact Pool.growDownChecked_eq (h.tagged d (Site.mem_of_mem_lower hd)).size_eq
    (h.tagged s.here s.here_mem).size_eq kept room enough (by omega) (by omega)

/-- Growing into both gaps goes without a lapse. -/
theorem growBothWaysChecked_eq (h : p.Settled low s.extents top xs) (hd : s.lower = some d)
    (hu : s.upper = some u) (room : 32 ≤ wanted.toNat)
    (enough : wanted ≤ d.size + s.here.size + u.size) (kept : Word)
    : p.growBothWaysChecked s.here.block d.block u.block wanted kept
      = .ok (p.growBothWays s.here.block d.block u.block wanted kept) := by
  have size := (h.tagged d (Site.mem_of_mem_lower hd)).size_eq
  have size' := (h.tagged s.here s.here_mem).size_eq
  have size'' := (h.tagged u (Site.mem_of_mem_upper hu)).size_eq
  have hbounds := h.bounds (Site.mem_of_mem_lower hd)
  have hbounds' := h.bounds (Site.mem_of_mem_upper hu)
  obtain ⟨below, above⟩ := Site.touching h.toLaid
  have below := below d hd
  have above := above u hu
  have limit := top.address.toNat_lt_size
  simp only [Extent.stop, Extent.start] at hbounds hbounds' below above
  have first : d.size.toNat + s.here.size.toNat < UInt64.size := by omega
  have sum := Size.toNat_add_of_lt first
  have second : (d.size + s.here.size).toNat + u.size.toNat < UInt64.size := by omega
  have total := Size.toNat_add_of_lt second
  rw [Pool.growBothWaysChecked, Pool.growBothWays, size, size', size'',
    Word.addChecked_word first, Lapse.ok_bind, Word.addChecked_word second, Lapse.ok_bind]
  exact claimChecked_eq _ room enough (by omega) (by omega)

end Pool.Settled

/-- Whether sizes that can be added up reach the wanted one together. -/
theorem Plan.reachesChecked_eq {wanted : Word} {free : Bool} {sizes : List Word}
    (fits : free = true → Word.total sizes < UInt64.size)
    : reachesChecked wanted free sizes
      = .ok (free && decide (wanted ≤ sizes.foldl (· + ·) 0)) := by
  cases free with
  | false => rfl
  | true =>
      rw [reachesChecked, if_pos rfl, (Word.sumChecked_eq (fits rfl)).1]
      rfl

/-- Where the block below is free, its size is that of the gap there. -/
theorem Site.size_below {p : Pool} {low top : Block} {xs : List Block} {s : Site}
    (h : p.Laid low s.extents top xs) (hs : s.Enclosed)
    (free : (!(s.here.block.below p.memory).allocated p.memory) = true)
    : ((s.here.block.below p.memory).size p.memory).toNat = s.lower.elim 0 (·.size.toNat) := by
  obtain ⟨found, used⟩ := below_eq h hs
  rw [used] at free
  cases hlower : s.lower with
  | none => simp [hlower] at free
  | some d =>
      rw [found d hlower, (h.tagged d (mem_of_mem_lower hlower)).size_eq]
      rfl

/-- Where the block above is free, its size is that of the gap there. -/
theorem Site.size_above {p : Pool} {low top : Block} {xs : List Block} {s : Site}
    (h : p.Laid low s.extents top xs) (hs : s.Enclosed)
    (free : (!(s.here.block.above p.memory).allocated p.memory) = true)
    : ((s.here.block.above p.memory).size p.memory).toNat = s.upper.elim 0 (·.size.toNat) := by
  obtain ⟨found, used⟩ := above_eq h hs
  rw [used] at free
  cases hupper : s.upper with
  | none => simp [hupper] at free
  | some u =>
      rw [found u hupper, (h.tagged u (mem_of_mem_upper hupper)).size_eq]
      rfl

/-- A plan for a block of a settled layout is chosen without a lapse. -/
theorem Pool.Settled.chooseChecked_eq {p : Pool} {low top : Block} {xs : List Block} {s : Site}
    (h : p.Settled low s.extents top xs) (hs : s.Enclosed) (wanted : Size)
    : Plan.chooseChecked p.memory s.here.block wanted
      = .ok (Plan.choose p.memory s.here.block wanted) := by
  have size := (h.tagged s.here s.here_mem).size_eq
  have sum := Site.sum_lt h.toLaid
  have lowSize := Site.size_below h.toLaid hs
  have highSize := Site.size_above h.toLaid hs
  have laid := h.toLaid
  rw [s.extents_eq] at laid
  simp only [Plan.chooseChecked, Plan.choose, size, laid.belowChecked_eq, laid.aboveChecked_eq,
    Lapse.ok_bind, Size.word_le_word]
  generalize s.here.block.below p.memory = below at lowSize ⊢
  generalize s.here.block.above p.memory = above at highSize ⊢
  generalize (!below.allocated p.memory) = belowFree at lowSize ⊢
  generalize (!above.allocated p.memory) = aboveFree at highSize ⊢
  generalize below.size p.memory = belowSize at lowSize ⊢
  generalize above.size p.memory = aboveSize at highSize ⊢
  have down : belowFree = true → belowSize.toNat + s.here.size.toNat < UInt64.size := by
    intro free
    have := lowSize free
    omega
  have up : aboveFree = true → s.here.size.toNat + aboveSize.toNat < UInt64.size := by
    intro free
    have := highSize free
    omega
  have both : (belowFree && aboveFree) = true
      → belowSize.toNat + (s.here.size.toNat + aboveSize.toNat) < UInt64.size := by
    rw [Bool.and_eq_true]
    rintro ⟨free, free'⟩
    have := lowSize free
    have := highSize free'
    omega
  rw [Plan.reachesChecked_eq (by simpa [Word.total, Size.toNat] using down), Lapse.ok_bind,
    Plan.reachesChecked_eq (by simpa [Word.total, Size.toNat] using up), Lapse.ok_bind,
    Plan.reachesChecked_eq (by simpa [Word.total, Size.toNat] using both), Lapse.ok_bind]
  have two : ∀ a b : Size, [a.word, b.word].foldl (· + ·) 0 = (a + b).word := by
    intro a b
    simp
    rfl
  have three : ∀ a b c : Size, [a.word, b.word, c.word].foldl (· + ·) 0 = (a + b + c).word := by
    intro a b c
    simp
    rfl
  simp only [two, three, Size.word_le_word, Bool.and_eq_true, decide_eq_true_eq, and_assoc,
    apply_ite Except.ok]
  rfl

-----------------------------------------------------------------------------------------
-- Heaps in order
-----------------------------------------------------------------------------------------

namespace Heap.InOrder

variable {h : Heap} {es : List Extent} {xs : List Block} {e : Extent} {b : Block} {wanted : Size}
  {kept : Word}

/-- Asking for the usable size of a block of the heap goes without a lapse. -/
theorem usableSizeChecked_eq (ord : h.InOrder es xs) (he : e ∈ es)
    : h.usableSizeChecked e.block = .ok (h.usableSize e.block).word := by
  have room := (ord.bounds he).2.1
  apply Word.subChecked_word
  rw [(ord.settled.tagged e he).size_eq, Size.le_iff, Size.toNat_overhead]
  omega

/-- Carving a block of the heap that is large enough goes without a lapse. -/
theorem carveChecked_eq (ord : h.InOrder es xs) (he : e ∈ es) (room : 32 ≤ wanted.toNat)
    (enough : wanted ≤ e.size)
    : h.carveChecked e.block wanted = .ok (h.carve e.block wanted) := by
  have hbounds := ord.bounds he
  have limit := h.region.frontier.toNat_lt_size
  simp only [Extent.stop, Extent.start] at hbounds
  exact Pool.carveChecked_eq (ord.settled.tagged e he).size_eq room enough (by omega) (by omega)

/-- A heap grows without a lapse, or is refused to. -/
theorem growChecked_eq (ord : h.InOrder es xs) {size : Size} (room : 32 ≤ size.toNat)
    : h.growChecked size.word = .ok (h.grow size) := by
  have covered : Size.minBlock ≤ size := Size.le_iff.mpr room
  rw [growChecked, Word.alignedChecked_word, Lapse.ok_bind, Word.covers_word covered,
    Lapse.ok_bind, ord.sane.handOutChecked_eq, Lapse.ok_bind]
  by_cases short : h.region.available < size.word
  · rw [h.grow_eq_error short, Region.handOut_eq_error_iff.mpr ⟨short, rfl⟩]
    rfl
  · have enough := UInt64.not_lt.mp short
    have moved := ord.sane.toNat_frontier_advance enough
    have frontier := (ord.sane.advance enough).frontierChecked_eq
    have epilogue : Tag.packChecked Size.zero.word true = .ok epilogueTag :=
      Tag.packChecked_word _ _
    rw [h.grow_eq_ok enough, Region.handOut_eq_ok_iff.mpr ⟨enough, rfl, rfl⟩]
    obtain ⟨top, htop⟩ : ∃ b : Block, b = ⟨h.region.frontier⟩ := ⟨_, rfl⟩
    obtain ⟨fits, above⟩ := ord.fits_grown room enough htop
    have low : top.address.toNat = h.region.frontier.toNat := by rw [htop]
    have found := Block.aboveChecked_eq (b := top) (m := top.writeTags h.memory size false) (by
      rw [above, moved, low]
      exact Nat.le_add_right _ _)
    obtain ⟨q, hq⟩ : ∃ q : Pool, q = { h.toPool with
        memory := (top.above (top.writeTags h.memory size false)).writeHeader
          (top.writeTags h.memory size false) epilogueTag } :=
      ⟨_, rfl⟩
    have settled := ord.settled
    rw [← htop] at settled
    have hstop : top.address.toNat + size.toNat
        = (Block.mk (h.region.advance size.word).frontier).address.toNat := by
      rw [low, moved, Size.toNat]
    obtain ⟨left, lower, hes, enclosed, laid, -⟩ :=
      settled.exists_atTop (q := q) room hstop (by rw [hq]) (by rw [hq, above])
    have merged : q.mergeChecked top = .ok (q.merge top) :=
      Site.mergeChecked_eq laid enclosed
        (fun d hd => settled.listed (by simp [hes, Option.mem_def.mp (show d ∈ lower from hd)])
          (enclosed.lower_free d hd))
        (by simp [Site.atTop])
    have tagged : top.writeTagsChecked h.memory size.word false
        = .ok (top.writeTags h.memory size false) :=
      fits.writeTagsChecked_eq h.memory
    dsimp only
    rw [frontier, Lapse.ok_bind, ← htop, tagged, Lapse.ok_bind, found, Lapse.ok_bind, epilogue,
      Lapse.ok_bind, ← hq, merged, Lapse.ok_bind, Heap.grown]
    dsimp only
    rw [← htop, ← hq]
    rfl

/-- Whether a request for a block is served or not, that goes without a lapse. -/
theorem serveChecked_eq (ord : h.InOrder es xs) (room : 32 ≤ wanted.toNat)
    : h.serveChecked wanted = .ok (h.serve wanted) := by
  rw [serveChecked]
  cases fit : h.firstFit? wanted.word with
  | some b =>
      obtain ⟨e, he, rfl, -, -, enough⟩ := ord.firstFit_spec fit
      rw [serve_eq_of_fit fit]
      dsimp only
      rw [ord.carveChecked_eq he room enough]
      rfl
  | none =>
      have large := Size.le_iff.mp (h.le_increment wanted)
      have grows := ord.growChecked_eq (room.trans large)
      simp only [increment] at grows
      dsimp only
      rw [grows, Lapse.ok_bind]
      by_cases short : h.region.available < (h.increment wanted).word
      · have refused := h.grow_eq_error short
        rw [serve_eq_of_short fit short]
        simp only [increment] at refused ⊢
        rw [refused]
        rfl
      · have enough := UInt64.not_lt.mp short
        have served := h.grow_eq_ok enough
        obtain ⟨s, xs', merged, grown, -, -, fits, -⟩ := ord.grow (room.trans large) enough
        have fits := Size.le_iff.mpr (large.trans (Size.le_iff.mp fits))
        have carved := grown.carveChecked_eq s.here_mem room fits
        rw [serve_eq_of_growth fit enough, merged]
        simp only [increment] at served carved merged ⊢
        rw [served]
        dsimp only
        rw [merged, carved]
        rfl

/-- Allocating goes without a lapse. -/
theorem allocateChecked_eq (ord : h.InOrder es xs) (bytes : Word)
    : h.allocateChecked bytes = .ok (h.allocate bytes) := by
  rw [allocateChecked, Heap.allocate]
  by_cases zero : bytes = 0
  · rw [if_pos zero, if_pos zero]
    rfl
  · rw [if_neg zero, if_neg zero]
    cases size : Size.forRequest? bytes with
    | none => rfl
    | some wanted =>
        dsimp only
        rw [ord.serveChecked_eq (Size.room_of_forRequest? size).1]
        rfl

/-- Allocating and clearing goes without a lapse. -/
theorem allocateZeroedChecked_eq (ord : h.InOrder es xs) (count size : Word)
    : h.allocateZeroedChecked count size = .ok (h.allocateZeroed count size) := by
  rw [allocateZeroedChecked, Heap.allocateZeroed]
  cases Word.mul? count size with
  | none => rfl
  | some total =>
      dsimp only
      rw [ord.allocateChecked_eq, Lapse.ok_bind]
      obtain ⟨reply, h', outcome⟩ : ∃ reply h', h.allocate total = (reply, h') := ⟨_, _, rfl⟩
      rw [outcome]
      cases reply with
      | error e => rfl
      | ok b? => cases b? <;> rfl

/-- Freeing a block in use goes without a lapse. -/
theorem freeChecked_eq (ord : h.InOrder es xs) (hb : b ∈ users es)
    : h.freeChecked b = .ok (h.free b) := by
  obtain ⟨e, he, rfl, used⟩ := mem_users.mp hb
  obtain ⟨s, rfl, rfl, hs⟩ := ord.settled.exists_site he
  have size := (ord.settled.tagged s.here s.here_mem).size_eq
  have fits := ord.settled.fits s.here_mem
  have tagged : h.toPool.writeTagsChecked s.here.block s.here.size.word false
      = .ok (h.writeTags s.here.block s.here.size false) :=
    Pool.writeTagsChecked_eq (e := s.release.here) ⟨fits.header, fits.room, fits.stop_le⟩ h.toPool
  have merged := Site.mergeChecked_eq (ord.settled.released used).1 hs.release
    (ord.settled.lower_listed hs.toFlanked) (ord.settled.upper_listed hs.toFlanked)
  simp only [Pool.tagAll_cons, Pool.tagAll_nil, Site.release] at merged
  rw [freeChecked, Heap.free, size, tagged, Lapse.ok_bind, merged]
  rfl

/-- Moving the contents of a block away goes without a lapse. -/
theorem moveAwayChecked_eq (ord : h.InOrder es xs) (hb : b ∈ users es) (room : 32 ≤ wanted.toNat)
    (needed : kept.toNat + 16 ≤ wanted.toNat)
    : h.moveAwayChecked b wanted kept = .ok (h.moveAway b wanted kept) := by
  rw [moveAwayChecked, Heap.moveAway, ord.serveChecked_eq room, Lapse.ok_bind]
  obtain ⟨result, h', served⟩ : ∃ result h', h.serve wanted = (result, h') := ⟨_, _, rfl⟩
  rw [served]
  cases result with
  | error e => rfl
  | ok target =>
      obtain ⟨es₁, xs₁, serves⟩ := ord.serve room served
      obtain ⟨t, ht, rfl, used, enough⟩ := serves.extent
      have order := (serves.order.receive ht used (needed.trans (Size.le_iff.mp enough)) b).1
      have user : b ∈ users es₁ := serves.users.mem_iff.mpr (List.mem_cons_of_mem _ hb)
      obtain ⟨k, hk⟩ : ∃ k : Heap, k = (h'.note (.moving b t.block kept)).withPool
          ((h'.note (.moving b t.block kept)).movePayload b t.block kept) :=
        ⟨_, rfl⟩
      have moved : k.InOrder es₁ xs₁ := hk ▸ order
      dsimp only
      rw [← hk, moved.freeChecked_eq user]
      rfl

/-- Every plan that suits the site of a block is carried out without a lapse. -/
theorem carryOutChecked_eq {s : Site} (ord : h.InOrder s.extents xs) (hs : s.Enclosed)
    (used : s.here.allocated = true) (room : 32 ≤ wanted.toNat)
    (needed : kept.toNat + 16 ≤ wanted.toNat) {plan : Plan} (planned : s.Planned wanted plan)
    : h.carryOutChecked plan s.here.block wanted kept
      = .ok (h.carryOut plan s.here.block wanted kept) := by
  rw [Heap.carryOutChecked.eq_def, Heap.carryOut.eq_def]
  cases planned with
  | stay enough =>
      dsimp only
      rw [ord.settled.trimChecked_eq hs used room enough]
      rfl
  | growDown short below enough =>
      dsimp only
      rw [ord.settled.growDownChecked_eq below room enough]
      rfl
  | growUp short above low enough =>
      dsimp only
      rw [ord.settled.growUpChecked_eq above room enough]
      rfl
  | growBothWays short below above low high enough =>
      dsimp only
      rw [ord.settled.growBothWaysChecked_eq below above room enough]
      rfl
  | moveAway short =>
      exact ord.moveAwayChecked_eq (mem_users.mpr ⟨_, s.here_mem, rfl, used⟩) room needed

/-- Resizing a block in use goes without a lapse. -/
theorem resizeChecked_eq (ord : h.InOrder es xs) (hb : b ∈ users es) (bytes : Word)
    : h.resizeChecked (some b) bytes = .ok (h.resize (some b) bytes) := by
  by_cases zero : bytes = 0
  · simp only [resizeChecked, Heap.resize, if_pos zero, ord.freeChecked_eq hb, Lapse.ok_bind]
    rfl
  · cases size : Size.forRequest? bytes with
    | none =>
        simp only [resizeChecked, Heap.resize, if_neg zero, size]
        rfl
    | some wanted =>
        have room := (Size.room_of_forRequest? size).1
        obtain ⟨e, he, rfl, used⟩ := mem_users.mp hb
        obtain ⟨s, rfl, rfl, hs⟩ := ord.settled.exists_site he
        have needed := (ord.kept_bounds s.here_mem size).2
        have planned := ord.settled.planned_choose hs wanted
        have chosen := ord.settled.chooseChecked_eq hs wanted
        rw [resize_of_some zero size]
        simp only [resizeChecked, if_neg zero, size, ord.usableSizeChecked_eq s.here_mem, chosen,
          Lapse.ok_bind]
        generalize Plan.choose h.memory s.here.block wanted = plan at planned ⊢
        have carried := (ord.note (.resizing s.here.block wanted plan)).carryOutChecked_eq hs used
          room needed planned
        simp only [kept] at carried ⊢
        rw [carried]
        rfl

end Heap.InOrder

-----------------------------------------------------------------------------------------
-- Figures
-----------------------------------------------------------------------------------------

/-- Some of the extents in a range have no more bytes than there are in the range. -/
theorem Tiles.total_filter_le {a z : Nat} {es : List Extent} (h : Tiles a es z) (p : Extent → Bool)
    : a + Word.total ((es.filter p).map (·.size.word)) ≤ z := by
  induction es generalizing a with
  | nil => exact h.le
  | cons e rest ih =>
      obtain ⟨rfl, -, tail⟩ := h
      have beyond := ih tail
      rw [Extent.stop, Size.toNat] at beyond
      cases chosen : p e
      · rw [List.filter_cons_of_neg (by simp [chosen])]
        omega
      · rw [List.filter_cons_of_pos chosen, List.map_cons, Word.total]
        omega

namespace Heap

/-- The words of some sizes add up to the word of their total, from any partial total on. -/
theorem foldl_word (es : List Extent) (total : Size)
    : (es.map (·.size.word)).foldl (· + ·) total.word
      = (es.foldl (fun total e => total + e.size) total).word := by
  induction es generalizing total with
  | nil => rfl
  | cons e rest ih => exact ih (total + e.size)

/-- As many words as there are extents, each of them one, add up to the number of the extents. -/
theorem total_ones (es : List Extent) : Word.total (es.map fun _ => 1) = es.length := by
  induction es with
  | nil => rfl
  | cons e rest ih =>
      rw [List.map_cons, Word.total, ih, List.length_cons, Nat.add_comm]
      rfl

/-- Extents of which there are not too many bytes are counted without a lapse. -/
theorem tallyChecked_eq {es : List Extent}
    (bytes : Word.total (es.map (·.size.word)) < UInt64.size) (count : es.length < UInt64.size)
    : tallyChecked es = .ok (es.length, totalSize es) := by
  rw [← total_ones] at count
  obtain ⟨counted, number⟩ := Word.sumChecked_eq count
  obtain ⟨added, -⟩ := Word.sumChecked_eq bytes
  have bytes_eq : (es.map (·.size.word)).foldl (· + ·) 0 = (totalSize es).word :=
    foldl_word es Size.zero
  rw [tallyChecked, counted, Lapse.ok_bind, added, Lapse.ok_bind, bytes_eq,
    Word.alignedChecked_word, number, total_ones]
  rfl

end Heap

namespace Pool.Laid

variable {p : Pool} {low top : Block} {l r : List Extent} {xs : List Block}

/-- A walk upwards from inside a layout goes without a lapse, by induction on the extents that are
left.
-/
theorem extentsFromChecked_eq (h : p.Laid low (l ++ r) top xs) (n : Nat)
    : Heap.extentsFromChecked p.memory n (r.head?.elim top (·.block))
      = .ok (Heap.extentsFrom p.memory n (r.head?.elim top (·.block))) := by
  induction n generalizing l r with
  | zero => rfl
  | succ n ih =>
      cases r with
      | nil =>
          simp only [Heap.extentsFromChecked, Heap.extentsFrom, List.head?_nil, Option.elim,
            h.size_top, if_true]
          rfl
      | cons e rest =>
          have next := h.above_eq
          have found := h.aboveChecked_eq
          rw [next] at found
          have tail := h
          rw [List.append_cons] at tail
          have rest_eq := ih tail
          simp only [Heap.extentsFromChecked, Heap.extentsFrom, List.head?_cons, Option.elim_some,
            found, next, Lapse.ok_bind, rest_eq]
          by_cases none : e.block.size p.memory = Size.zero
          · simp only [none, if_true]
            rfl
          · simp only [none, if_false]
            rfl

end Pool.Laid

/-- The figures of a heap in order are made up without a lapse. -/
theorem Heap.InOrder.usageChecked_eq {h : Heap} {es : List Extent} {xs : List Block}
    (ord : h.InOrder es xs)
    : h.usageChecked = .ok h.usage := by
  have tiles := ord.settled.tiles
  have limit := h.region.frontier.toNat_lt_size
  have bottom : h.prologue.aboveChecked h.memory = .ok (h.prologue.above h.memory) := by
    apply Block.aboveChecked_eq
    have above := ord.settled.bottom.above_eq
    have hle := tiles.le
    simp only [sentinel] at above hle
    rw [above, Block.toNat_offset (by simp only [prologueSize, Size.toNat_overhead]; omega)]
    exact Nat.le_add_right _ _
  have walk : h.blocksChecked = .ok h.blocks := by
    rw [blocksChecked, bottom, Lapse.ok_bind, blocks, ord.settled.above_bottom]
    exact ord.settled.extentsFromChecked_eq (l := []) _
  have tally : ∀ p, tallyChecked (es.filter p)
      = .ok ((es.filter p).length, totalSize (es.filter p)) := by
    intro p
    have bytes := tiles.total_filter_le p
    have count := tiles.length_le
    have fewer := List.length_filter_le p es
    simp only at bytes count
    exact tallyChecked_eq (by omega) (by omega)
  rw [usageChecked, ord.sane.usedChecked_eq, Lapse.ok_bind, walk, Lapse.ok_bind, usage,
    ord.blocks_eq, List.partition_eq_filter_filter]
  dsimp only
  rw [tally, Lapse.ok_bind, tally, Lapse.ok_bind]
  rfl

-----------------------------------------------------------------------------------------
-- Sessions
-----------------------------------------------------------------------------------------

namespace Session

variable {base : Nat} {s : Session} {es : List Extent} {xs : List Block} {r : Request}

/-- Every legal request is answered without a lapse. -/
theorem Coherent.answerChecked_eq (h : s.Coherent base es xs) (permits : s.Permits r)
    : r.answerChecked s.heap = .ok (r.answer s.heap) := by
  have user : ∀ b, b ∈ s.live → b ∈ users es := fun b hb => h.live.mem_iff.mp hb
  match r with
  | .allocate bytes => exact h.order.allocateChecked_eq bytes
  | .allocateZeroed count size => exact h.order.allocateZeroedChecked_eq count size
  | .free b =>
      simp only [Request.answerChecked, h.order.freeChecked_eq (user b permits)]
      rfl
  | .resize none bytes => exact h.order.allocateChecked_eq bytes
  | .resize (some b) bytes => exact h.order.resizeChecked_eq (user b permits) bytes
  | .write b offset bytes => rfl

/-- After every legal run, whatever is asked of the heap next, a machine that checks all sums and
differences of words, the alignment of all sizes that become tags and all sizes that operations
count on has nothing to object to, and comes to the same result. Nor has it where the figures of the
heap or the bytes of a block that is held are asked for.
-/
theorem exact_of_legal {chunk : Word} {region : Region} {memory : Memory}
    (begins : Begins chunk region memory) {rs : List Request}
    (legal : (start chunk region memory).Legal rs)
    : let s := (start chunk region memory).run rs
      (∀ r, s.Permits r → r.answerChecked s.heap = .ok (r.answer s.heap))
      ∧ (∀ b ∈ s.live, s.heap.usableSizeChecked b = .ok (s.heap.usableSize b).word)
      ∧ s.heap.usageChecked = .ok s.heap.usage := by
  obtain ⟨es₀, xs₀, created⟩ := begins.coherent
  obtain ⟨es, xs, now⟩ := created.run legal
  refine ⟨fun r permits => now.answerChecked_eq permits, fun b hb => ?_, now.order.usageChecked_eq⟩
  obtain ⟨e, he, rfl, -⟩ := mem_users.mp (now.live.mem_iff.mp hb)
  exact now.order.usableSizeChecked_eq he

/-- A short session, the greatest request there is and one that comes near to it. -/
theorem exact_sample
    : let s := (start 256 sampleRegion sampleMemory).run sampleRequests
      Begins 256 sampleRegion sampleMemory
      ∧ (start 256 sampleRegion sampleMemory).Legal sampleRequests
      ∧ s.live = [⟨4152⟩, ⟨4296⟩]
      ∧ (Request.resize (some ⟨4152⟩) Word.greatest).answerChecked s.heap
          = .ok ((Request.resize (some ⟨4152⟩) Word.greatest).answer s.heap)
      ∧ (Request.resize (some ⟨4152⟩) (Word.greatest - 40)).answerChecked s.heap
          = .ok ((Request.resize (some ⟨4152⟩) (Word.greatest - 40)).answer s.heap)
      ∧ s.heap.usageChecked = .ok s.heap.usage := by
  obtain ⟨answers, -, figures⟩ := exact_of_legal begins_sample legal_sample
  have held : (⟨4152⟩ : Block)
      ∈ ((start 256 sampleRegion sampleMemory).run sampleRequests).live := by
    simp [live_sample]
  exact ⟨begins_sample, legal_sample, live_sample,
    answers (.resize (some ⟨4152⟩) Word.greatest) held,
    answers (.resize (some ⟨4152⟩) (Word.greatest - 40)) held, figures⟩

end Session

end BoundaryTag
