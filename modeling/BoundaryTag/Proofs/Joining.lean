import BoundaryTag.Proofs.Merging

/-! Merging wherever there is a block to merge. No heap need surround the block: what its two
neighbours say of themselves, the free list, and the room that the joined extent takes are all
that merging depends on. The second neighbour to leave the list may stand next to the first one
there, so its links are those that the first one has left behind.
-/

namespace BoundaryTag

-----------------------------------------------------------------------------------------
-- Members next to those that leave
-----------------------------------------------------------------------------------------

/-- The first member that is left was the first before, or stood next to the one that left. -/
theorem head?_erase_subset {xs : List Block} {d : Block} (hd : d ∈ xs)
    : (xs.erase d).head?.toList ⊆ xs.head?.toList ++ adjacent xs d := by
  obtain ⟨ys, zs, rfl, fresh⟩ := List.eq_append_cons_of_mem hd
  rw [List.erase_append_right _ fresh, List.erase_cons_head, adjacent_append fresh]
  cases ys with
  | nil => simp
  | cons y rest => simp

/-- Once a member has left, another one stands next to members that they both stood next to. -/
theorem adjacent_erase {xs : List Block} {d u : Block} (hd : d ∈ xs) (hu : u ∈ xs) (hne : u ≠ d)
    : adjacent (xs.erase d) u ⊆ adjacent xs d ++ adjacent xs u := by
  obtain ⟨ys, zs, rfl, fresh⟩ := List.eq_append_cons_of_mem hd
  rw [List.erase_append_right _ fresh, List.erase_cons_head, adjacent_append fresh]
  by_cases before : u ∈ ys
  · obtain ⟨front, rear, rfl, first⟩ := List.eq_append_cons_of_mem before
    have whole := adjacent_append first (rear ++ d :: zs)
    have rest := adjacent_append first (rear ++ zs)
    simp only [List.append_assoc, List.cons_append] at whole rest ⊢
    rw [whole, rest]
    cases rear <;> intro c hc <;> simp at hc ⊢ <;> tauto
  · have after : u ∈ zs := by simpa [before, hne] using hu
    obtain ⟨front, rear, rfl, first⟩ := List.eq_append_cons_of_mem after
    have unmet : u ∉ ys ++ d :: front := by simp [before, first, hne]
    have unmet' : u ∉ ys ++ front := by simp [before, first]
    have whole := adjacent_append unmet rear
    have rest := adjacent_append unmet' rear
    simp only [List.append_assoc, List.cons_append] at whole rest
    rw [whole, rest]
    rcases List.eq_nil_or_concat' front with rfl | ⟨front, c, rfl⟩ <;> intro a ha <;>
      simp [List.getLast?_cons] at ha ⊢ <;> tauto

/-- The members next to the block of a gap, if there is a gap. -/
def besideGap (xs : List Block) (gap : Option Extent) : List Block :=
  gap.elim [] fun e => adjacent xs e.block

/-- The members next to the extents that touch a site. -/
def Site.around (s : Site) (xs : List Block) : List Block :=
  besideGap xs s.lower ++ besideGap xs s.upper

/-- The block of a gap leaves the list, which writes links of members next to it only. -/
theorem Pool.Lists.removeGap {p : Pool} {xs : List Block} (h : p.Lists xs) {gap : Option Extent}
    (listed : ∀ e ∈ gap, e.block ∈ xs)
    : (p.removeGap gap).Lists (eraseGap xs gap)
      ∧ p.memory.SameOff (linkBytes (besideGap xs gap)) (p.removeGap gap).memory := by
  cases gap with
  | none => exact ⟨h, .refl _ _⟩
  | some e =>
      simp only [Pool.removeGap, eraseGap, besideGap, Option.elim]
      exact h.erase (listed e rfl)

namespace Site

variable {s : Site} {p : Pool} {xs : List Block}

/-- The upper gap is still listed once the lower one has left. -/
theorem listed_eraseGap (upper_listed : ∀ u ∈ s.upper, u.block ∈ xs)
    (distinct : ∀ d ∈ s.lower, ∀ u ∈ s.upper, u.block ≠ d.block)
    : ∀ u ∈ s.upper, u.block ∈ eraseGap xs s.lower := by
  intro u hu
  cases hlower : s.lower with
  | none => exact upper_listed u hu
  | some d =>
      exact (List.mem_erase_of_ne (distinct d hlower u hu)).mpr (upper_listed u hu)

/-- What stands next to the upper gap once the lower one has left stood next to one of them. -/
theorem besideGap_eraseGap (lower_listed : ∀ d ∈ s.lower, d.block ∈ xs)
    (upper_listed : ∀ u ∈ s.upper, u.block ∈ xs)
    (distinct : ∀ d ∈ s.lower, ∀ u ∈ s.upper, u.block ≠ d.block)
    : besideGap (eraseGap xs s.lower) s.upper ⊆ s.around xs := by
  rw [around]
  cases hlower : s.lower with
  | none => exact List.subset_append_right _ _
  | some d =>
      cases hupper : s.upper with
      | none => exact List.nil_subset _
      | some u =>
          simp only [besideGap, eraseGap, Option.elim]
          exact adjacent_erase (lower_listed d hlower) (upper_listed u hupper)
            (distinct d hlower u hupper)

/-- The gaps leave the list, which writes links of members next to them only. -/
theorem detach_lists (h : p.Lists xs) (lower_listed : ∀ d ∈ s.lower, d.block ∈ xs)
    (upper_listed : ∀ u ∈ s.upper, u.block ∈ xs)
    (distinct : ∀ d ∈ s.lower, ∀ u ∈ s.upper, u.block ≠ d.block)
    : (s.detach p).Lists (s.unlist xs)
      ∧ p.memory.SameOff (linkBytes (s.around xs)) (s.detach p).memory := by
  obtain ⟨first, same⟩ := h.removeGap lower_listed
  obtain ⟨second, same'⟩ := first.removeGap (listed_eraseGap upper_listed distinct)
  refine ⟨second, (same.mono (linkBytes_mono ?_)).trans (same'.mono (linkBytes_mono ?_))⟩
  · exact List.subset_append_left _ _
  · exact besideGap_eraseGap lower_listed upper_listed distinct

/-- What stands next to a listed gap is listed. -/
theorem around_subset (lower_listed : ∀ d ∈ s.lower, d.block ∈ xs)
    (upper_listed : ∀ u ∈ s.upper, u.block ∈ xs)
    : s.around xs ⊆ xs := by
  have beside {gap : Option Extent} (listed : ∀ e ∈ gap, e.block ∈ xs)
      : besideGap xs gap ⊆ xs := by
    cases gap with
    | none => exact List.nil_subset xs
    | some e => exact Pool.adjacent_subset (listed e rfl)
  exact List.append_subset.mpr ⟨beside lower_listed, beside upper_listed⟩

/-- The first member that is left was the first before, or stood next to one of the gaps. -/
theorem head?_unlist (lower_listed : ∀ d ∈ s.lower, d.block ∈ xs)
    (upper_listed : ∀ u ∈ s.upper, u.block ∈ xs)
    (distinct : ∀ d ∈ s.lower, ∀ u ∈ s.upper, u.block ≠ d.block)
    : (s.unlist xs).head?.toList ⊆ xs.head?.toList ++ s.around xs := by
  have step {ys : List Block} {gap : Option Extent} (listed : ∀ e ∈ gap, e.block ∈ ys)
      : (eraseGap ys gap).head?.toList ⊆ ys.head?.toList ++ besideGap ys gap := by
    cases gap with
    | none => simp [eraseGap, besideGap]
    | some e => exact head?_erase_subset (listed e rfl)
  have first := step lower_listed
  have second := step (listed_eraseGap upper_listed distinct)
  have moved := besideGap_eraseGap lower_listed upper_listed distinct
  intro b hb
  rcases List.mem_append.mp (second hb) with head | beside
  · rcases List.mem_append.mp (first head) with head | beside
    · exact List.mem_append_left _ head
    · exact List.mem_append_right _ (List.mem_append_left _ beside)
  · exact List.mem_append_right _ (moved beside)

end Site

-----------------------------------------------------------------------------------------
-- A block that can be merged
-----------------------------------------------------------------------------------------

/-- The extent that a block begins if it is free. -/
def Block.gap? (b : Block) (m : Memory) : Option Extent :=
  if b.allocated m then none else some (.ofBlock m b)

/-- A block with those of its two neighbours that are free, as its tags and theirs have them. -/
@[irreducible]
def Block.site (b : Block) (m : Memory) : Site where
  left := []
  lower := (b.below m).gap? m
  here := .ofBlock m b
  upper := (b.above m).gap? m
  right := []

/-- A gap is what a walk says about a free block. -/
theorem Block.mem_gap? {b : Block} {m : Memory} {e : Extent}
    : e ∈ b.gap? m ↔ b.allocated m = false ∧ e = .ofBlock m b := by
  cases used : b.allocated m <;> simp [Block.gap?, used, eq_comm]

/-- The middle of the site of a block is what a walk says about the block. -/
theorem Block.here_site (b : Block) (m : Memory) : (b.site m).here = .ofBlock m b := by
  rw [Block.site]

/-- The lower neighbour in a site is the block below, if that is free. -/
theorem Block.mem_lower {b : Block} {m : Memory} {d : Extent}
    : d ∈ (b.site m).lower
      ↔ (b.below m).allocated m = false ∧ d = .ofBlock m (b.below m) := by
  rw [Block.site, Block.mem_gap?]

/-- The upper neighbour in a site is the block above, if that is free. -/
theorem Block.mem_upper {b : Block} {m : Memory} {u : Extent}
    : u ∈ (b.site m).upper
      ↔ (b.above m).allocated m = false ∧ u = .ofBlock m (b.above m) := by
  rw [Block.site, Block.mem_gap?]

/-- Where a block is allocated, there is no gap. -/
theorem Block.isNone_gap? (b : Block) (m : Memory) : (b.gap? m).isNone = b.allocated m := by
  cases used : b.allocated m <;> simp [Block.gap?, used]

namespace Pool

/-- An unlisted block that can be merged, in a memory that need not hold a heap. Whether its own
tag says that it is free does not matter.
-/
structure Mergeable (p : Pool) (b : Block) (xs : List Block) : Prop where
  /-- The free list is well linked. -/
  lists : p.Lists xs
  /-- The block has room for tags and links. -/
  room : 32 ≤ (b.size p.memory).toNat
  /-- The word below the block's header, which leads to its lower neighbour, is the tag that the
  neighbour has in its header.
  -/
  footer : (b.below p.memory).tag p.memory
    = ⟨p.memory.readWord (b.address - Size.overhead.word)⟩
  /-- Free neighbours are listed, and have room for tags and links. -/
  lower_listed : ∀ d ∈ (b.site p.memory).lower, d.block ∈ xs ∧ 32 ≤ d.size.toNat
  upper_listed : ∀ u ∈ (b.site p.memory).upper, u.block ∈ xs ∧ 32 ≤ u.size.toNat
  /-- The block and its free neighbours do not wrap. -/
  floor : 8 + (b.site p.memory).lower.elim 0 (·.size.toNat) ≤ b.address.toNat
  ceiling : b.address.toNat + (b.size p.memory).toNat
    + (b.site p.memory).upper.elim 0 (·.size.toNat) ≤ UInt64.size
  /-- No other member has its links there. -/
  clear : ∀ c ∈ (b.site p.memory).unlist xs, ∀ x ∈ c.links, x ∉ (b.site p.memory).joined.covered

namespace Mergeable

variable {p : Pool} {b : Block} {xs : List Block}

/-- A free neighbour below stops where the block begins. -/
theorem stop_lower (h : p.Mergeable b xs) {d : Extent} (hd : d ∈ (b.site p.memory).lower)
    : d.stop = b.address.toNat := by
  have floor := h.floor
  rw [Option.mem_def.mp hd, Option.elim] at floor
  obtain ⟨-, rfl⟩ := Block.mem_lower.mp hd
  have size : (b.below p.memory).size p.memory
      = (Tag.mk (p.memory.readWord (b.address - Size.overhead.word))).size := by
    rw [Block.size, h.footer]
  have start : (b.below p.memory).address.toNat
      = (b.address - ((b.below p.memory).size p.memory).word).toNat := by
    rw [size, Block.below]
  have hlt := b.address.toNat_lt
  simp only [Extent.stop, Extent.start, Extent.ofBlock, start, UInt64.toNat_sub, Size.toNat]
    at floor ⊢
  omega

/-- A free neighbour above begins where the block stops. -/
theorem start_upper (h : p.Mergeable b xs) {u : Extent} (hu : u ∈ (b.site p.memory).upper)
    : u.start = b.address.toNat + (b.size p.memory).toNat := by
  have ceiling := h.ceiling
  have room := (h.upper_listed u hu).2
  rw [Option.mem_def.mp hu, Option.elim] at ceiling
  obtain ⟨-, rfl⟩ := Block.mem_upper.mp hu
  exact Block.toNat_offset (by omega)

/-- The block and its free neighbours lie side by side where the joined extent will be. -/
theorem tiles (h : p.Mergeable b xs)
    : 8 ≤ (b.site p.memory).joined.start
      ∧ Tiles (b.site p.memory).joined.start (b.site p.memory).middle
          (b.site p.memory).joined.stop
      ∧ (b.site p.memory).joined.stop ≤ UInt64.size := by
  have floor := h.floor
  have ceiling := h.ceiling
  have below : ∃ y, 8 ≤ y ∧ Tiles y (b.site p.memory).lower.toList b.address.toNat := by
    cases hlower : (b.site p.memory).lower with
    | none => exact ⟨b.address.toNat, by omega, rfl⟩
    | some d =>
        have stop := h.stop_lower hlower
        rw [hlower, Option.elim, ← stop, Extent.stop] at floor
        exact ⟨d.start, by omega, rfl, (h.lower_listed d hlower).2, stop⟩
  have above : ∃ z, z ≤ UInt64.size ∧ Tiles (b.address.toNat + (b.size p.memory).toNat)
      (b.site p.memory).upper.toList z := by
    cases hupper : (b.site p.memory).upper with
    | none =>
        rw [hupper, Option.elim, Nat.add_zero] at ceiling
        exact ⟨_, ceiling, rfl⟩
    | some u =>
        have start := h.start_upper hupper
        rw [hupper, Option.elim, ← start] at ceiling
        exact ⟨u.stop, ceiling, start, (h.upper_listed u hupper).2, rfl⟩
  obtain ⟨y, low, front⟩ := below
  obtain ⟨z, high, rear⟩ := above
  have range : Tiles y (b.site p.memory).middle z := by
    rw [Site.middle, Block.here_site]
    exact tiles_append.mpr ⟨b.address.toNat, front, rfl, h.room, rear⟩
  obtain ⟨rfl, -, rfl⟩ := Site.joined_tiles range (by omega)
  exact ⟨low, range, high⟩

/-- The gaps on either side of the block are different. -/
theorem distinct (h : p.Mergeable b xs)
    : ∀ d ∈ (b.site p.memory).lower, ∀ u ∈ (b.site p.memory).upper, u.block ≠ d.block := by
  intro d hd u hu same
  have stop := h.stop_lower hd
  have start := h.start_upper hu
  have room := h.room
  simp only [Extent.stop, Extent.start, same] at stop start
  omega

/-- The gaps are listed. -/
theorem listed (h : p.Mergeable b xs)
    : (∀ d ∈ (b.site p.memory).lower, d.block ∈ xs)
      ∧ ∀ u ∈ (b.site p.memory).upper, u.block ∈ xs :=
  ⟨fun d hd => (h.lower_listed d hd).1, fun u hu => (h.upper_listed u hu).1⟩

/-- The gaps leave the list, which writes links of members next to them only. -/
theorem detach (h : p.Mergeable b xs)
    : ((b.site p.memory).detach p).Lists ((b.site p.memory).unlist xs)
      ∧ p.memory.SameOff (linkBytes ((b.site p.memory).around xs))
          ((b.site p.memory).detach p).memory :=
  Site.detach_lists h.lists h.listed.1 h.listed.2 h.distinct

/-- No member of the list has its links where a free neighbour has its header. -/
theorem header_clear (h : p.Mergeable b xs) {e : Extent}
    (he : e ∈ (b.site p.memory).lower ∨ e ∈ (b.site p.memory).upper) {c : Block} (hc : c ∈ xs)
    : ∀ x ∈ c.links, x ∉ Word.span (e.start - 8) e.start := by
  obtain ⟨low, range, -⟩ := h.tiles
  have inside : e ∈ (b.site p.memory).middle := Site.mem_middle.mpr (by tauto)
  intro x hx header
  by_cases other : c ∈ (b.site p.memory).unlist xs
  · apply h.clear c other x hx
    apply range.covered_subset inside
    have room := (range.bounds inside).2.1
    simp only [Extent.covered, Extent.stop, Word.mem_span] at header ⊢
    omega
  · obtain ⟨f, hf, rfl⟩ : ∃ f ∈ (b.site p.memory).middle, c = f.block := by
      rw [Site.mem_unlist h.lists.nodup] at other
      by_contra none
      exact other ⟨hc, fun d hd same => none ⟨d, Site.mem_middle.mpr (Or.inl hd), same⟩,
        fun u hu same => none ⟨u, Site.mem_middle.mpr (Or.inr (Or.inr hu)), same⟩⟩
    have payload := range.links_subset_payload hf hx
    exact range.payload_notMem_tagBytes low hf inside x payload (Or.inl header)

/-- A free neighbour keeps its size when the gaps leave the list. -/
theorem size_detach (h : p.Mergeable b xs) (e : Extent)
    (he : e ∈ (b.site p.memory).lower ∨ e ∈ (b.site p.memory).upper)
    : e.block.size ((b.site p.memory).detach p).memory = e.size := by
  obtain ⟨low, range, high⟩ := h.tiles
  have fits : e.Fits := range.fits low high (Site.mem_middle.mpr (by tauto))
  have listed := Site.around_subset h.listed.1 h.listed.2
  have seen : e.block.size p.memory = e.size := by
    rcases he with lower | upper
    · rw [(Block.mem_lower.mp lower).2, Extent.ofBlock]
    · rw [(Block.mem_upper.mp upper).2, Extent.ofBlock]
  have header := fits.toNat_header
  have floor := fits.header
  have ceiling := fits.stop_le
  simp only [Extent.stop] at ceiling
  rw [← seen, Block.size, Block.size, Block.tag, Block.tag, h.detach.2.readWord_eq (by omega)]
  rintro x ⟨c, hc, hx⟩
  rw [header, Nat.sub_add_cancel floor]
  exact h.header_clear he (listed hc) x hx

/-- Merging lets the gaps leave the list, writes the tags of the joined extent and lists it. -/
theorem merge_eq (h : p.Mergeable b xs)
    : p.merge b = ((b.site p.memory).joined.block,
        (((b.site p.memory).detach p).tagAll [(b.site p.memory).joined]).insert
          (b.site p.memory).joined.block) := by
  have here : (b.site p.memory).here.block = b := by rw [Block.here_site, Extent.ofBlock]
  have size : b.size p.memory = (b.site p.memory).here.size := by
    rw [Block.here_site, Extent.ofBlock]
  have below : ∀ d ∈ (b.site p.memory).lower, b.below p.memory = d.block := by
    intro d hd
    rw [(Block.mem_lower.mp hd).2, Extent.ofBlock]
  have above : ∀ u ∈ (b.site p.memory).upper, b.above p.memory = u.block := by
    intro u hu
    rw [(Block.mem_upper.mp hu).2, Extent.ofBlock]
  have belowUsed : (b.below p.memory).allocated p.memory = (b.site p.memory).lower.isNone := by
    rw [Block.site, Block.isNone_gap?]
  have aboveUsed : (b.above p.memory).allocated p.memory = (b.site p.memory).upper.isNone := by
    rw [Block.site, Block.isNone_gap?]
  have seen := Site.merge_eq_of_seen (s := b.site p.memory) (p := p)
  rw [here] at seen
  exact seen ⟨below, belowUsed⟩ ⟨above, aboveUsed⟩ size h.size_detach

/-- The joined extent begins at the lower neighbour if that is free. -/
theorem block_joined (b : Block) (m : Memory)
    : (b.site m).joined.block = if (b.below m).allocated m then b else b.below m := by
  cases used : (b.below m).allocated m <;>
    simp [Block.site, Block.gap?, Site.joined, Extent.ofBlock, used]

/-- The joined extent alone takes the place of the block and its free neighbours. -/
theorem joined_tiles (h : p.Mergeable b xs)
    : Tiles (b.site p.memory).joined.start [(b.site p.memory).joined]
        (b.site p.memory).joined.stop := by
  obtain ⟨low, range, high⟩ := h.tiles
  exact Site.joined_tiles range (by omega)

/-- The tags of the joined extent are written without disturbing the members that are left. -/
theorem tagged (h : p.Mergeable b xs)
    : (((b.site p.memory).detach p).tagAll [(b.site p.memory).joined]).Lists
          ((b.site p.memory).unlist xs)
      ∧ (b.site p.memory).joined.Tagged
          (((b.site p.memory).detach p).tagAll [(b.site p.memory).joined]).memory
      ∧ ((b.site p.memory).detach p).memory.SameOff (b.site p.memory).joined.tagBytes
          (((b.site p.memory).detach p).tagAll [(b.site p.memory).joined]).memory := by
  obtain ⟨low, -, high⟩ := h.tiles
  have joined := h.joined_tiles
  have fits : (b.site p.memory).joined.Fits := joined.fits low high (by simp)
  have written : ((b.site p.memory).detach p).memory.SameOff
      (tagsOf [(b.site p.memory).joined]) _ :=
    Pool.sameOff_tagAll _ (by simpa using fits)
  refine ⟨?_, Pool.tagged_tagAll _ joined low high _ (by simp), written.mono ?_⟩
  · apply h.detach.1.sameOff (Pool.head_tagAll _ _) written
    exact fun c hc x hx links => h.clear c hc x links (joined.tagsOf_subset hx)
  · rintro x ⟨e, he, hx⟩
    rwa [List.mem_singleton.mp he] at hx

/-- Merging a block makes one free extent of it and its free neighbours, wherever these stand in
the list. The extent begins at the lower neighbour if that is free, has its tags at both ends, and
is the first of the list in place of the gaps, which leaves the others in their order. Only its tags
and links are written, and links of members that were the first or stood next to a gap.
-/
theorem merge_joins (h : p.Mergeable b xs)
    : let s := b.site p.memory
      (p.merge b).1 = s.joined.block
      ∧ s.joined.block = (if (b.below p.memory).allocated p.memory then b else b.below p.memory)
      ∧ s.joined.size.toNat
          = s.lower.elim 0 (·.size.toNat) + (b.size p.memory).toNat
            + s.upper.elim 0 (·.size.toNat)
      ∧ s.joined.Tagged (p.merge b).2.memory
      ∧ (p.merge b).2.Lists (s.joined.block :: s.unlist xs)
      ∧ p.memory.SameOff (s.joined.tagBytes
            ∪ linkBytes (s.joined.block :: (xs.head?.toList ++ s.around xs)))
          (p.merge b).2.memory := by
  intro s
  obtain ⟨low, range, high⟩ := h.tiles
  have joined := h.joined_tiles
  have alone : s.joined ∈ [s.joined] := List.mem_singleton_self _
  have fits : s.joined.Fits := joined.fits low high alone
  have roomy : s.joined.block.HasLinks := joined.hasLinks low high alone
  have inside : s.joined.block.links ⊆ s.joined.payload := joined.links_subset_payload alone
  obtain ⟨-, freed⟩ := h.detach
  obtain ⟨lists, tagged, written⟩ := h.tagged
  have placed := lists.sameOff_insert roomy
  have first := Site.head?_unlist h.listed.1 h.listed.2 h.distinct
  rw [h.merge_eq]
  refine ⟨rfl, block_joined b p.memory, ?_, ?_, ?_, ?_⟩
  · have total := Site.toNat_joined_of_tiles range (by omega)
    rwa [Block.here_site] at total
  · apply tagged.sameOff fits placed
    rintro x ⟨c, hc, hx⟩ tag
    rcases List.mem_cons.mp hc with rfl | head
    · exact Extent.tagBytes_notMem_payload x tag (inside hx)
    · have member := List.mem_of_head? (Option.mem_toList.mp head)
      exact h.clear c member x hx (joined.tagsOf_subset ⟨s.joined, alone, tag⟩)
  · apply lists.insert roomy
    intro c hc
    apply (Block.apart_of_links _).symm
    intro x hx links
    apply h.clear c hc x hx
    have payload := inside links
    simp only [s, Extent.payload, Extent.covered, Word.mem_span] at payload ⊢
    omega
  · -- The gaps leave, the tags are written, and the joined extent is listed.
    have around : linkBytes (s.around xs)
        ⊆ linkBytes (s.joined.block :: (xs.head?.toList ++ s.around xs)) :=
      linkBytes_mono fun c hc => List.mem_cons_of_mem _ (List.mem_append_right _ hc)
    have front : linkBytes (s.joined.block :: (s.unlist xs).head?.toList)
        ⊆ linkBytes (s.joined.block :: (xs.head?.toList ++ s.around xs)) :=
      linkBytes_mono (List.cons_subset_cons _ first)
    exact ((freed.mono (around.trans Set.subset_union_right)).trans
      (written.mono Set.subset_union_left)).trans
      (placed.mono (front.trans Set.subset_union_right))

end Mergeable

/-- Three free blocks side by side among zeros, none of them listed. -/
def sampleTags : Pool :=
  let first := (⟨.zeros, none⟩ : Pool).writeTags ⟨4096⟩ (.floor 64) false
  let second := first.writeTags ⟨4160⟩ (.floor 48) false
  second.writeTags ⟨4208⟩ (.floor 32) false

/-- The outer two of the three blocks are listed one after the other, in front of a block
elsewhere.
-/
def sampleRow : Pool := ((sampleTags.insert ⟨8192⟩).insert ⟨4096⟩).insert ⟨4208⟩

/-- The sample list has the outer two blocks in front of the one elsewhere. -/
theorem lists_sampleRow : sampleRow.Lists [⟨4208⟩, ⟨4096⟩, ⟨8192⟩] := by
  have empty : sampleTags.Lists [] := ⟨rfl, trivial, by simp, .nil⟩
  have last := empty.insert (b := ⟨8192⟩) (by decide) (by decide)
  have next := last.insert (b := ⟨4096⟩) (by decide) (by decide)
  exact next.insert (by decide) (by decide)

/-- The lowest block is free and touches the middle one. -/
theorem lower_sampleRow
    : ((⟨4160⟩ : Block).site sampleRow.memory).lower
      = some ⟨⟨4096⟩, ⟨64, by decide⟩, false⟩ := by
  decide +kernel

/-- The highest block is free and touches the middle one. -/
theorem upper_sampleRow
    : ((⟨4160⟩ : Block).site sampleRow.memory).upper
      = some ⟨⟨4208⟩, ⟨32, by decide⟩, false⟩ := by
  decide +kernel

/-- The middle block has 48 bytes. -/
theorem size_sampleRow : (⟨4160⟩ : Block).size sampleRow.memory = ⟨48, by decide⟩ := by
  decide +kernel

/-- All three join into 144 bytes. -/
theorem joined_sampleRow
    : ((⟨4160⟩ : Block).site sampleRow.memory).joined
      = ⟨⟨4096⟩, ⟨144, by decide⟩, false⟩ := by
  rw [Site.joined, lower_sampleRow, upper_sampleRow, Block.here_site, Extent.ofBlock,
    size_sampleRow]
  decide

/-- Only the block elsewhere stays in the list. -/
theorem unlist_sampleRow
    : ((⟨4160⟩ : Block).site sampleRow.memory).unlist [⟨4208⟩, ⟨4096⟩, ⟨8192⟩] = [⟨8192⟩] := by
  rw [Site.unlist, lower_sampleRow, upper_sampleRow]
  decide

/-- The middle block can be merged. -/
theorem mergeable_sampleRow : sampleRow.Mergeable ⟨4160⟩ [⟨4208⟩, ⟨4096⟩, ⟨8192⟩] where
  lists := lists_sampleRow
  room := by rw [size_sampleRow]; decide
  footer := by decide +kernel
  lower_listed := by simp [lower_sampleRow, Size.toNat]
  upper_listed := by simp [upper_sampleRow, Size.toNat]
  floor := by rw [lower_sampleRow]; decide
  ceiling := by rw [upper_sampleRow, size_sampleRow]; decide
  clear := by
    intro c hc x links covered
    rw [unlist_sampleRow, List.mem_singleton] at hc
    subst hc
    rw [joined_sampleRow] at covered
    simp only [Block.links, Extent.covered, Extent.stop, Extent.start, Size.toNat,
      Word.mem_span, UInt64.reduceToNat] at links covered
    omega

/-- The middle one of the three blocks takes up both of its neighbours, although one of them stood
next to the other in the list.
-/
theorem joins_sampleRow
    : sampleRow.Mergeable ⟨4160⟩ [⟨4208⟩, ⟨4096⟩, ⟨8192⟩]
      ∧ (sampleRow.merge ⟨4160⟩).1 = ⟨4096⟩
      ∧ Extent.Tagged (sampleRow.merge ⟨4160⟩).2.memory ⟨⟨4096⟩, ⟨144, by decide⟩, false⟩
      ∧ (sampleRow.merge ⟨4160⟩).2.Lists [⟨4096⟩, ⟨8192⟩] := by
  obtain ⟨block, -, -, tagged, lists, -⟩ := mergeable_sampleRow.merge_joins
  rw [joined_sampleRow] at block tagged lists
  rw [unlist_sampleRow] at lists
  exact ⟨mergeable_sampleRow, block, tagged, lists⟩

end Pool

end BoundaryTag
