import BoundaryTag.Pool.Merge
import BoundaryTag.Proofs.Layout

/-! Merging as one edit of a layout: a free extent and the free extents that touch it become one
extent, which is then the first member of the free list. What a block sees on either side of it
is read off the layout.
-/

namespace BoundaryTag

namespace Size

/-- Nothing and a size make that size. -/
@[simp]
theorem zero_add (s : Size) : zero + s = s := by
  apply ext
  have hs := s.toNat_lt
  rw [toNat_add, toNat_zero, Nat.zero_add, Nat.mod_eq_of_lt hs]

/-- Sizes add up in either order. -/
theorem add_comm (s t : Size) : s + t = t + s := by
  apply ext
  rw [toNat_add, toNat_add, Nat.add_comm]

/-- A size and nothing make that size. -/
@[simp]
theorem add_zero (s : Size) : s + zero = s := by
  rw [add_comm, zero_add]

/-- Sizes add up however they are grouped. -/
theorem add_assoc (s t u : Size) : s + t + u = s + (t + u) := by
  apply ext
  simp only [toNat_add, Nat.mod_add_mod, Nat.add_mod_mod, Nat.add_assoc]

end Size

-----------------------------------------------------------------------------------------
-- What lies on either side of a block
-----------------------------------------------------------------------------------------

/-- The last extent stops where all of them do. -/
theorem Tiles.stop_getLast? {a z : Nat} {es : List Extent} (h : Tiles a es z)
    : es.getLast?.elim a Extent.stop = z := by
  rcases List.eq_nil_or_concat' es with rfl | ⟨front, e, rfl⟩
  · exact h
  · obtain ⟨y, -, -, -, hz⟩ := tiles_append.mp h
    rw [List.getLast?_concat]
    exact hz

/-- Two extents side by side make one of both sizes, which does not overflow. -/
theorem Tiles.join {y z : Nat} {e f : Extent} {es : List Extent} (h : Tiles y (e :: f :: es) z)
    (hz : z < y + UInt64.size) (allocated : Bool)
    : Tiles y (⟨e.block, e.size + f.size, allocated⟩ :: es) z := by
  obtain ⟨hy, hroom, hf, hroom', rest⟩ := h
  have hle := rest.le
  simp only [Extent.stop, Extent.start] at hy hf hle rest
  have total : (e.size + f.size).toNat = e.size.toNat + f.size.toNat :=
    Size.toNat_add_of_lt (by omega)
  refine ⟨hy, by simp only [total]; omega, ?_⟩
  simp only [Extent.stop, Extent.start, total]
  rwa [← Nat.add_assoc, ← hf]

namespace Pool.Laid

variable {p : Pool} {low top : Block} {l r : List Extent} {xs : List Block} {e : Extent}

/-- The last of the lower extents, or the end below them all, has its tags in memory. -/
theorem tagged_below (h : p.Laid low (l ++ r) top xs)
    : (l.getLast?.getD (sentinel low)).Tagged p.memory := by
  cases hlast : l.getLast? with
  | none => exact h.bottom
  | some d => exact h.tagged d (by simp [List.mem_of_getLast? hlast])

/-- A block finds the extent below it through the footer of that extent. -/
theorem below_eq (h : p.Laid low (l ++ r) top xs) {b : Block}
    (front : Tiles (low.address.toNat + 16) l b.address.toNat)
    : b.below p.memory = (l.getLast?.getD (sentinel low)).block := by
  have tagged := h.tagged_below
  have fits : (l.getLast?.getD (sentinel low)).Fits
      ∧ (l.getLast?.getD (sentinel low)).stop = b.address.toNat := by
    have hstop := front.stop_getLast?
    cases hlast : l.getLast? with
    | none =>
        rw [hlast] at hstop
        exact ⟨h.bottom_fits, hstop⟩
    | some d =>
        rw [hlast] at hstop
        exact ⟨h.fits (by simp [List.mem_of_getLast? hlast]), hstop⟩
  generalize l.getLast?.getD (sentinel low) = d at tagged fits
  obtain ⟨fits, stop⟩ := fits
  have hheader := fits.header
  have hroom := fits.room
  have hlt := b.address.toNat_lt
  simp only [Extent.stop, Extent.start, Size.toNat] at stop hheader hroom
  have footer : b.address - Size.overhead.word = d.block.footerFor d.size.word := by
    apply UInt64.toNat_inj.mp
    rw [fits.toNat_footer, UInt64.toNat_sub]
    simp only [Size.overhead, Extent.stop, Extent.start, Size.toNat, UInt64.reduceToNat]
    omega
  have tag : (Tag.mk (p.memory.readWord (b.address - Size.overhead.word))).size = d.size := by
    rw [footer, tagged.footer, Tag.size_pack]
  apply Block.ext_toNat
  rw [Block.below, tag, UInt64.toNat_sub]
  omega

/-- A block finds what lies above it through its own size. -/
theorem above_eq (h : p.Laid low (l ++ e :: r) top xs)
    : e.block.above p.memory = r.head?.elim top (·.block) := by
  obtain ⟨y, -, -, -, rear⟩ := tiles_append.mp h.tiles
  have hbounds := h.bounds (e := e) (by simp)
  have htop := top.address.toNat_lt_size
  apply Block.ext_toNat
  rw [(h.tagged e (by simp)).above_eq, Block.toNat_offset]
  · cases r with
    | nil => exact rear
    | cons f rest => exact rear.1.symm
  · simp only [Extent.stop, Extent.start] at hbounds
    omega

/-- What lies above a block is allocated if the extent there is, or if the layout ends. -/
theorem allocated_above (h : p.Laid low (l ++ e :: r) top xs)
    : (e.block.above p.memory).allocated p.memory = r.head?.elim true (·.allocated) := by
  rw [h.above_eq]
  cases r with
  | nil =>
      show top.allocated p.memory = true
      rw [Block.allocated, h.ceiling]
      exact Tag.allocated_pack _ _
  | cons f rest => exact (h.tagged f (by simp)).allocated_eq

end Pool.Laid

-----------------------------------------------------------------------------------------
-- An extent in its surroundings
-----------------------------------------------------------------------------------------

/-- A list without the block of a gap, if there is a gap. -/
def eraseGap (xs : List Block) (gap : Option Extent) : List Block :=
  gap.elim xs fun e => xs.erase e.block

/-- A pool after the block of a gap has left the list, if there is a gap. -/
def Pool.removeGap (p : Pool) (gap : Option Extent) : Pool :=
  gap.elim p fun e => p.remove e.block

/-- A block is still a member when a gap has left the list if it is not that gap. -/
theorem mem_eraseGap {xs : List Block} (h : xs.Nodup) {gap : Option Extent} {b : Block}
    : b ∈ eraseGap xs gap ↔ b ∈ xs ∧ ∀ e ∈ gap, b ≠ e.block := by
  cases gap with
  | none => simp [eraseGap]
  | some e => simp [eraseGap, h.mem_erase_iff, and_comm]

/-- No block is there twice after a gap has left the list. -/
theorem nodup_eraseGap {xs : List Block} (h : xs.Nodup) (gap : Option Extent)
    : (eraseGap xs gap).Nodup := by
  cases gap with
  | none => exact h
  | some e => exact h.erase e.block

/-- A gap leaves the list, and nothing else changes about a layout. -/
theorem Pool.Laid.removeGap {p : Pool} {low top : Block} {es : List Extent} {xs : List Block}
    (h : p.Laid low es top xs) {gap : Option Extent} (listed : ∀ e ∈ gap, e.block ∈ xs)
    : (p.removeGap gap).Laid low es top (eraseGap xs gap)
      ∧ p.memory.SameOff (vacant es) (p.removeGap gap).memory := by
  cases gap with
  | none => exact ⟨h, .refl _ _⟩
  | some e =>
      simp only [Pool.removeGap, eraseGap, Option.elim]
      exact ⟨h.remove (listed e rfl), h.sameOff_remove (listed e rfl)⟩

/-- An extent of a layout with the free extents that touch it, if there are any, and with all
other extents below and above.
-/
structure Site where
  left : List Extent
  lower : Option Extent
  here : Extent
  upper : Option Extent
  right : List Extent

namespace Site

/-- The extent and those that touch it and are free. -/
def middle (s : Site) : List Extent := s.lower.toList ++ s.here :: s.upper.toList

/-- All extents of the layout. -/
def extents (s : Site) : List Extent := s.left ++ s.middle ++ s.right

/-- The extents next to the one in a site are free. -/
structure Flanked (s : Site) : Prop where
  lower_free : ∀ e ∈ s.lower, e.allocated = false
  upper_free : ∀ e ∈ s.upper, e.allocated = false

/-- What touches the extent is free, and what lies beyond is not. -/
structure Enclosed (s : Site) : Prop extends s.Flanked where
  left_used : ∀ e ∈ s.left.getLast?, e.allocated = true
  right_used : ∀ e ∈ s.right.head?, e.allocated = true

/-- The free extent that the middle of a site can become. -/
def joined (s : Site) : Extent where
  block := (s.lower.getD s.here).block
  size := s.lower.elim Size.zero (·.size) + s.here.size + s.upper.elim Size.zero (·.size)
  allocated := false

/-- The list without the extents that touch a site. -/
def unlist (s : Site) (xs : List Block) : List Block :=
  eraseGap (eraseGap xs s.lower) s.upper

/-- The pool after the extents that touch a site have left the list, the lower one first. -/
def detach (s : Site) (p : Pool) : Pool :=
  (p.removeGap s.lower).removeGap s.upper

variable {s : Site} {p : Pool} {low top : Block} {xs : List Block} {y z : Nat}

/-- A block is still a member when both neighbours have left the list if it is neither of them. -/
theorem mem_unlist (h : xs.Nodup) {b : Block}
    : b ∈ s.unlist xs
      ↔ b ∈ xs ∧ (∀ d ∈ s.lower, b ≠ d.block) ∧ ∀ u ∈ s.upper, b ≠ u.block := by
  rw [unlist, mem_eraseGap (nodup_eraseGap h _), mem_eraseGap h, and_assoc]

/-- The middle of a site is the extent and its neighbours. -/
theorem mem_middle {e : Extent}
    : e ∈ s.middle ↔ e ∈ s.lower ∨ e = s.here ∨ e ∈ s.upper := by
  simp [middle]

/-- The extents of a site are those below the extent, the extent, and those above it. -/
theorem extents_eq (s : Site)
    : s.extents = (s.left ++ s.lower.toList) ++ s.here :: (s.upper.toList ++ s.right) := by
  simp [extents, middle]

/-- The same with the extent as a list of one. -/
theorem extents_around (s : Site)
    : s.extents = s.left ++ s.lower.toList ++ [s.here] ++ (s.upper.toList ++ s.right) := by
  simp [extents, middle]

/-- The extent of a site is one of the layout. -/
theorem here_mem (s : Site) : s.here ∈ s.extents := by simp [extents, middle]

/-- So is its lower neighbour. -/
theorem mem_of_mem_lower {e : Extent} (h : e ∈ s.lower) : e ∈ s.extents := by
  simp [extents, middle, Option.mem_def.mp h]

/-- So is its upper neighbour. -/
theorem mem_of_mem_upper {e : Extent} (h : e ∈ s.upper) : e ∈ s.extents := by
  simp [extents, middle, Option.mem_def.mp h]

/-- A block sees the free extent below it, and sees an allocated one where there is none. -/
theorem below_eq (h : p.Laid low s.extents top xs) (hs : s.Enclosed)
    : (∀ d ∈ s.lower, s.here.block.below p.memory = d.block)
      ∧ (s.here.block.below p.memory).allocated p.memory = s.lower.isNone := by
  rw [extents_eq] at h
  have tagged := h.tagged_below
  have front : Tiles (low.address.toNat + 16) (s.left ++ s.lower.toList) s.here.start := by
    obtain ⟨y, front, rfl, -⟩ := tiles_append.mp h.tiles
    exact front
  rw [h.below_eq front, tagged.allocated_eq]
  cases hlower : s.lower with
  | none =>
      refine ⟨by simp, ?_⟩
      simp only [Option.toList_none, List.append_nil, Option.isNone_none]
      cases hlast : s.left.getLast? with
      | none => rfl
      | some d => exact hs.left_used d hlast
  | some d => simpa [hlower] using hs.lower_free d hlower

/-- A block sees the free extent above it, and sees an allocated one where there is none. -/
theorem above_eq (h : p.Laid low s.extents top xs) (hs : s.Enclosed)
    : (∀ u ∈ s.upper, s.here.block.above p.memory = u.block)
      ∧ (s.here.block.above p.memory).allocated p.memory = s.upper.isNone := by
  rw [extents_eq] at h
  rw [h.allocated_above, h.above_eq]
  cases hupper : s.upper with
  | none =>
      refine ⟨by simp, ?_⟩
      simp only [Option.toList_none, List.nil_append, Option.isNone_none]
      cases hfirst : s.right.head? with
      | none => rfl
      | some u => exact hs.right_used u hfirst
  | some u => simpa using hs.upper_free u hupper

/-- The middle of a site has a start and a stop. -/
theorem exists_range (h : p.Laid low s.extents top xs)
    : ∃ y z, Tiles (low.address.toNat + 16) s.left y ∧ Tiles y s.middle z
        ∧ Tiles z s.right top.address.toNat := by
  obtain ⟨z, leftMiddle, right⟩ := tiles_append.mp h.tiles
  obtain ⟨y, left, middle⟩ := tiles_append.mp leftMiddle
  exact ⟨y, z, left, middle, right⟩

/-- The gaps on either side of an extent are different. -/
theorem lower_ne_upper (h : p.Laid low s.extents top xs) {d u : Extent} (hd : d ∈ s.lower)
    (hu : u ∈ s.upper)
    : u.block ≠ d.block := by
  obtain ⟨y, z, -, range, -⟩ := exists_range h
  rw [middle, Option.mem_def.mp hd, Option.mem_def.mp hu] at range
  obtain ⟨hdstart, hdroom, hstart, hroom, hustart, -⟩ := range
  intro same
  simp only [Extent.stop, Extent.start, same] at hdstart hstart hustart
  omega

/-- The free extents that touch a site leave the list. -/
theorem detach_laid (h : p.Laid low s.extents top xs) (lower_listed : ∀ d ∈ s.lower, d.block ∈ xs)
    (upper_listed : ∀ u ∈ s.upper, u.block ∈ xs)
    : (s.detach p).Laid low s.extents top (s.unlist xs)
      ∧ p.memory.SameOff (vacant s.extents) (s.detach p).memory := by
  obtain ⟨laid, same⟩ := h.removeGap lower_listed
  have still : ∀ u ∈ s.upper, u.block ∈ eraseGap xs s.lower := by
    intro u hu
    cases hlower : s.lower with
    | none => exact upper_listed u hu
    | some d =>
        exact (List.mem_erase_of_ne (lower_ne_upper h hlower hu)).mpr (upper_listed u hu)
  obtain ⟨laid', same'⟩ := laid.removeGap still
  exact ⟨laid', same.trans same'⟩

/-- The joined extent fills the middle of its site. -/
theorem joined_tiles (range : Tiles y s.middle z) (hz : z < y + UInt64.size)
    : Tiles y [s.joined] z := by
  rw [middle] at range
  rw [joined]
  cases hlower : s.lower with
  | none =>
      rw [hlower] at range
      cases hupper : s.upper with
      | none =>
          rw [hupper] at range
          simpa [Tiles, Extent.stop, Extent.start] using range
      | some u =>
          rw [hupper] at range
          simpa using range.join hz false
  | some d =>
      rw [hlower] at range
      cases hupper : s.upper with
      | none =>
          rw [hupper] at range
          simpa using range.join hz false
      | some u =>
          rw [hupper] at range
          exact (range.join hz false).join hz false

/-- The size of the joined extent is the sum of the sizes, which does not wrap. -/
theorem toNat_joined_of_tiles (range : Tiles y s.middle z) (hz : z < y + UInt64.size)
    : s.joined.size.toNat
      = s.lower.elim 0 (·.size.toNat) + s.here.size.toNat + s.upper.elim 0 (·.size.toNat) := by
  obtain ⟨hstart, -, hstop⟩ := joined_tiles range hz
  have hstop : s.joined.start + s.joined.size.toNat = z := hstop
  rw [middle] at range
  cases hlower : s.lower <;> cases hupper : s.upper <;> rw [hlower, hupper] at range <;>
    simp only [Option.toList_none, Option.toList_some, List.nil_append, List.cons_append, Tiles,
      Extent.stop] at range <;>
    simp only [Option.elim] <;>
    omega

/-- The sizes of an extent and the gaps that touch it add up to that of the joined extent. -/
theorem toNat_joined (h : p.Laid low s.extents top xs)
    : s.joined.size.toNat
      = s.lower.elim 0 (·.size.toNat) + s.here.size.toNat + s.upper.elim 0 (·.size.toNat) := by
  obtain ⟨y, z, -, range, rear⟩ := exists_range h
  exact toNat_joined_of_tiles range
    (Nat.lt_add_left y (rear.le.trans_lt top.address.toNat_lt_size))

/-- The sizes of an extent and its gaps can be added up. -/
theorem sum_lt (h : p.Laid low s.extents top xs)
    : s.lower.elim 0 (·.size.toNat) + s.here.size.toNat + s.upper.elim 0 (·.size.toNat)
      < UInt64.size := by
  rw [← toNat_joined h]
  exact s.joined.size.toNat_lt

/-- The gaps of a site touch the extent in it. -/
theorem touching (h : p.Laid low s.extents top xs)
    : (∀ d ∈ s.lower, d.start + d.size.toNat = s.here.start)
      ∧ ∀ u ∈ s.upper, s.here.start + s.here.size.toNat = u.start := by
  obtain ⟨y, z, -, range, -⟩ := exists_range h
  rw [middle] at range
  cases hlower : s.lower <;> cases hupper : s.upper <;> rw [hlower, hupper] at range <;>
    simp only [Option.toList_none, Option.toList_some, List.nil_append, List.cons_append, Tiles,
      Extent.stop] at range <;>
    simp [range]

/-- The joined extent is as large as the one in the middle at least. -/
theorem here_le_joined (h : p.Laid low s.extents top xs) : s.here.size ≤ s.joined.size := by
  rw [Size.le_iff, toNat_joined h]
  omega

/-- Merging lets the gaps leave the list, writes the tags of the joined extent and lists it, as
long as a block sees its gaps, and the gaps keep their sizes when they leave.
-/
theorem merge_eq_of_seen
    (below : (∀ d ∈ s.lower, s.here.block.below p.memory = d.block)
      ∧ (s.here.block.below p.memory).allocated p.memory = s.lower.isNone)
    (above : (∀ u ∈ s.upper, s.here.block.above p.memory = u.block)
      ∧ (s.here.block.above p.memory).allocated p.memory = s.upper.isNone)
    (here : s.here.block.size p.memory = s.here.size)
    (kept : ∀ e, e ∈ s.lower ∨ e ∈ s.upper → e.block.size (s.detach p).memory = e.size)
    : p.merge s.here.block
      = (s.joined.block, ((s.detach p).tagAll [s.joined]).insert s.joined.block) := by
  obtain ⟨hbelow, hbelowUsed⟩ := below
  obtain ⟨habove, haboveUsed⟩ := above
  simp only [Pool.merge, hbelowUsed, haboveUsed, here, Pool.tagAll_cons, Pool.tagAll_nil]
  cases hlower : s.lower with
  | none =>
      cases hupper : s.upper with
      | none => simp [joined, detach, Pool.removeGap, hlower, hupper]
      | some u =>
          have size := kept u (Or.inr hupper)
          simp only [detach, hlower, hupper, Pool.removeGap, Option.elim] at size
          simp [joined, detach, Pool.removeGap, hlower, hupper, habove u hupper, size]
  | some d =>
      cases hupper : s.upper with
      | none =>
          have size := kept d (Or.inl hlower)
          simp only [detach, hlower, hupper, Pool.removeGap, Option.elim] at size
          simp [joined, detach, Pool.removeGap, hlower, hupper, hbelow d hlower, size,
            Size.add_comm]
      | some u =>
          have size := kept d (Or.inl hlower)
          have size' := kept u (Or.inr hupper)
          have total : s.here.size + (d.size + u.size) = d.size + s.here.size + u.size := by
            rw [← Size.add_assoc, Size.add_comm s.here.size]
          simp only [detach, hlower, hupper, Pool.removeGap, Option.elim] at size size'
          simp [joined, detach, Pool.removeGap, hlower, hupper, hbelow d hlower,
            habove u hupper, size, size', total]

/-- Merging in a layout joins an extent with its gaps. -/
theorem merge_eq (h : p.Laid low s.extents top xs) (hs : s.Enclosed)
    (lower_listed : ∀ d ∈ s.lower, d.block ∈ xs) (upper_listed : ∀ u ∈ s.upper, u.block ∈ xs)
    : p.merge s.here.block
      = (s.joined.block, ((s.detach p).tagAll [s.joined]).insert s.joined.block) := by
  have detached := (detach_laid h lower_listed upper_listed).1
  apply merge_eq_of_seen (below_eq h hs) (above_eq h hs) (h.tagged s.here s.here_mem).size_eq
  rintro e (lower | upper)
  · exact (detached.tagged e (mem_of_mem_lower lower)).size_eq
  · exact (detached.tagged e (mem_of_mem_upper upper)).size_eq

/-- A site whose middle is free throughout. -/
theorem middle_free (hs : s.Enclosed) (free : s.here.allocated = false)
    : ∀ e ∈ s.middle, e.allocated = false := by
  intro e he
  rcases mem_middle.mp he with hlower | rfl | hupper
  · exact hs.lower_free e hlower
  · exact free
  · exact hs.upper_free e hupper

/-- Around an unlisted extent, nothing in the middle of a site is left on the list. -/
theorem middle_unlisted (h : xs.Nodup) (unlisted : s.here.block ∉ xs)
    : ∀ e ∈ s.middle, e.block ∉ s.unlist xs := by
  intro e he hmem
  obtain ⟨hxs, hlower, hupper⟩ := (mem_unlist h).mp hmem
  rcases mem_middle.mp he with hd | rfl | hu
  · exact hlower e hd rfl
  · exact unlisted hxs
  · exact hupper e hu rfl

/-- Merging an unlisted free extent turns the middle of its site into one free extent, which is
the first of the list in place of the gaps. It touches vacant bytes only.
-/
theorem merge_laid (h : p.Laid low s.extents top xs) (hs : s.Enclosed)
    (free : s.here.allocated = false) (unlisted : s.here.block ∉ xs)
    (lower_listed : ∀ d ∈ s.lower, d.block ∈ xs) (upper_listed : ∀ u ∈ s.upper, u.block ∈ xs)
    : (p.merge s.here.block).1 = s.joined.block
      ∧ (p.merge s.here.block).2.Laid low (s.left ++ [s.joined] ++ s.right) top
          (s.joined.block :: s.unlist xs)
      ∧ p.memory.SameOff (vacant s.extents) (p.merge s.here.block).2.memory := by
  obtain ⟨y, z, front, range, rear⟩ := exists_range h
  obtain ⟨detached, same⟩ := detach_laid h lower_listed upper_listed
  have hfloor := h.floor
  have hfront := front.le
  have hz : z < UInt64.size := rear.le.trans_lt top.address.toNat_lt_size
  have joined := joined_tiles range (Nat.lt_add_left y hz)
  have gone := middle_unlisted h.lists.nodup unlisted
  have fresh : s.joined.block ∉ s.unlist xs := by
    rw [Site.joined]
    cases hlower : s.lower with
    | none => exact gone s.here (mem_middle.mpr (Or.inr (Or.inl rfl)))
    | some d => exact gone d (mem_middle.mpr (Or.inl hlower))
  have inRange : Word.span (y - 8) (z - 8) ⊆ vacant s.extents := by
    intro x hx
    obtain ⟨e, he, hcovered⟩ := range.span_subset (by omega) x hx
    exact ⟨e, by simp [extents, he], middle_free hs free e he, hcovered⟩
  have tagged := detached.retag front range gone rfl (.refl _ _) joined
  have listed := tagged.insert (e := s.joined) (by simp) rfl fresh
  rw [merge_eq h hs lower_listed upper_listed]
  have written := ((s.detach p).sameOff_tagAll fun e he => joined.fits (by omega) hz.le he).mono
    fun x hx => inRange (joined.tagsOf_subset hx)
  have placed := (tagged.sameOff_insert (e := s.joined) (by simp) rfl).mono
    ((vacant_replace _ joined).trans (Set.union_subset subset_rfl inRange))
  exact ⟨rfl, listed, (same.trans written).trans placed⟩

end Site

end BoundaryTag
