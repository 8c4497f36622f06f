import BoundaryTag.Proofs.Reallocation

/-! Layouts that differ in their place alone. Whatever the operations make of extents and lists is
made from sizes and from where the first of some extents begins, and so it comes out moved by the
same distance where the extents are. Addresses wrap, so a distance can lead upwards or downwards.
-/

namespace BoundaryTag

variable {d : Word}

-----------------------------------------------------------------------------------------
-- Moving blocks, extents, sites and plans
-----------------------------------------------------------------------------------------

namespace Block

/-- The order in which a block is moved by two distances does not matter. -/
theorem offset_comm (b : Block) (m n : Word) : (b.offset m).offset n = (b.offset n).offset m := by
  simp only [offset, UInt64.add_assoc, UInt64.add_comm m n]

/-- Blocks that are moved by the same distance remain different. -/
theorem offset_injective (d : Word) : Function.Injective (Block.offset · d) := by
  intro b c same
  have addresses : b.address + d = c.address + d := congrArg Block.address same
  cases b
  cases c
  simpa [UInt64.add_right_inj] using addresses

end Block

namespace Extent

/-- An extent moved by a distance. -/
def shift (d : Word) (e : Extent) : Extent := ⟨e.block.offset d, e.size, e.allocated⟩

/-- The block of an extent that is moved is moved. -/
@[simp]
theorem block_shift (d : Word) (e : Extent) : (e.shift d).block = e.block.offset d := rfl

/-- An extent that is moved keeps its size. -/
@[simp]
theorem size_shift (d : Word) (e : Extent) : (e.shift d).size = e.size := rfl

/-- An extent that is moved keeps its flag. -/
@[simp]
theorem allocated_shift (d : Word) (e : Extent) : (e.shift d).allocated = e.allocated := rfl

end Extent

/-- The free blocks of a layout are moved along with it. -/
@[simp]
theorem gaps_shift (d : Word) (es : List Extent)
    : gaps (es.map (.shift d)) = (gaps es).map (·.offset d) := by
  induction es with
  | nil => rfl
  | cons e rest ih => cases h : e.allocated <;> simp [gaps_cons, h, ih]

/-- The allocated blocks of a layout are moved along with it. -/
@[simp]
theorem users_shift (d : Word) (es : List Extent)
    : users (es.map (.shift d)) = (users es).map (·.offset d) := by
  induction es with
  | nil => rfl
  | cons e rest ih => cases h : e.allocated <;> simp [users_cons, h, ih]

/-- A range that is allocated at its low end, somewhere else. -/
theorem split_shift (d : Word) (b : Block) (total wanted : Size)
    : split (b.offset d) total wanted = (split b total wanted).map (.shift d) := by
  by_cases h : Size.minBlock ≤ total - wanted
  · simp [split_of_le h, Extent.shift, b.offset_comm d]
  · simp [split_of_not_le h, Extent.shift]

/-- A range that is allocated at its high end, somewhere else. -/
theorem splitHigh_shift (d : Word) (b : Block) (total wanted : Size)
    : splitHigh (b.offset d) total wanted = (splitHigh b total wanted).map (.shift d) := by
  by_cases h : Size.minBlock ≤ total - wanted
  · simp [splitHigh_of_le h, Extent.shift, b.offset_comm d]
  · simp [splitHigh_of_not_le h, Extent.shift]

/-- The high end of a range is moved along with it. -/
theorem highEnd_shift (d : Word) (b : Block) (total wanted : Size)
    : highEnd (b.offset d) total wanted = (highEnd b total wanted).offset d := by
  by_cases h : Size.minBlock ≤ total - wanted
  · simp [highEnd, h, b.offset_comm d]
  · simp [highEnd, h]

/-- A list of moved blocks loses the moved block. -/
theorem map_offset_erase (d : Word) (xs : List Block) (b : Block)
    : (xs.map (·.offset d)).erase (b.offset d) = (xs.erase b).map (·.offset d) :=
  (List.map_erase (Block.offset_injective d) xs).symm

/-- Leaving a list comes to the same before and after it is moved. -/
theorem eraseGap_shift (d : Word) (xs : List Block) (gap : Option Extent)
    : eraseGap (xs.map (·.offset d)) (gap.map (.shift d)) = (eraseGap xs gap).map (·.offset d) := by
  cases gap with
  | none => rfl
  | some e => exact map_offset_erase d xs e.block

/-- A plan with the blocks that it uses up moved by a distance. -/
def Plan.shift (d : Word) : Plan → Plan
  | stay => stay
  | growDown below => growDown (below.offset d)
  | growUp above => growUp (above.offset d)
  | growBothWays below above => growBothWays (below.offset d) (above.offset d)
  | moveAway => moveAway

namespace Site

/-- A site moved by a distance. -/
def shift (d : Word) (s : Site) : Site where
  left := s.left.map (.shift d)
  lower := s.lower.map (.shift d)
  here := s.here.shift d
  upper := s.upper.map (.shift d)
  right := s.right.map (.shift d)

/-- An optional extent is moved like a list of one or none. -/
theorem toList_shift (gap : Option Extent)
    : (gap.map (Extent.shift d)).toList = gap.toList.map (.shift d) := by
  cases gap <;> rfl

/-- The extents of a site are moved along with it. -/
@[simp]
theorem extents_shift (s : Site) : (s.shift d).extents = s.extents.map (.shift d) := by
  simp [extents_eq, shift, toList_shift]

/-- What the middle of a site can become is moved along with it. -/
theorem joined_shift (s : Site) : (s.shift d).joined = s.joined.shift d := by
  cases hl : s.lower <;> cases hu : s.upper <;> simp [joined, shift, Extent.shift, hl, hu]

/-- The members that are left beside a site are moved along with it. -/
theorem unlist_shift (s : Site) (xs : List Block)
    : (s.shift d).unlist (xs.map (·.offset d)) = (s.unlist xs).map (·.offset d) := by
  simp only [unlist, shift, eraseGap_shift]

/-- Shortening an extent comes to the same before and after it is moved. -/
theorem cut_shift (s : Site) (wanted : Size) : (s.shift d).cut wanted = (s.cut wanted).shift d := by
  simp [cut, shift, Extent.shift, toList_shift, s.here.block.offset_comm d]

/-- A site at the high end of a layout, somewhere else. -/
theorem atTop_shift (left : List Extent) (lower : Option Extent) (b : Block) (size : Size)
    : atTop (left.map (.shift d)) (lower.map (.shift d)) (b.offset d) size
      = (atTop left lower b size).shift d := by
  simp [atTop, shift, Extent.shift]

/-- A site that is moved is enclosed as before. -/
theorem Enclosed.shift {s : Site} (hs : s.Enclosed) (d : Word) : (s.shift d).Enclosed where
  lower_free := by simpa [Site.shift] using hs.lower_free
  upper_free := by simpa [Site.shift] using hs.upper_free
  left_used := by simpa [Site.shift] using hs.left_used
  right_used := by simpa [Site.shift] using hs.right_used

/-- What suits a site suits it somewhere else. -/
theorem Planned.shift {s : Site} {wanted : Size} {plan : Plan} (planned : s.Planned wanted plan)
    (d : Word)
    : (s.shift d).Planned wanted (plan.shift d) := by
  cases planned with
  | stay enough => exact .stay enough
  | @growDown e short below enough =>
      exact .growDown (d := e.shift d) short (by simp [Site.shift, below]) enough
  | @growUp f short above low enough =>
      refine .growUp (u := f.shift d) short (by simp [Site.shift, above]) ?_ enough
      simpa [Site.shift] using low
  | @growBothWays e f short below above low high enough =>
      exact .growBothWays (d := e.shift d) (u := f.shift d) short (by simp [Site.shift, below])
        (by simp [Site.shift, above]) low high enough
  | moveAway short =>
      refine .moveAway ?_
      rwa [joined_shift]

/-- No two plans suit the same site, because each rules out those that are tried before it. -/
theorem Planned.unique {s : Site} {wanted : Size} {plan plan' : Plan} {p : Pool} {low top : Block}
    {xs : List Block} (h : p.Laid low s.extents top xs) (planned : s.Planned wanted plan)
    (planned' : s.Planned wanted plan')
    : plan = plan' := by
  by_cases near : plan = .moveAway
  · by_contra other
    subst near
    cases planned with
    | moveAway short => exact short (planned'.enough h fun away => other away.symm)
  · have enough := planned.enough h near
    cases planned' with
    | moveAway short => exact absurd enough short
    | stay fits => cases planned <;> first | rfl | contradiction
    | growDown short below fits => cases planned <;> simp_all
    | growUp short above low fits => cases planned <;> simp_all
    | growBothWays short below above low high fits => cases planned <;> simp_all

end Site

/-- Only one of the extents at the end of a layout can be a gap behind which an allocated one lies.
-/
theorem lower_unique {left left' : List Extent} {lower lower' : Option Extent}
    (same : left ++ lower.toList = left' ++ lower'.toList)
    (free : ∀ e ∈ lower, e.allocated = false) (free' : ∀ e ∈ lower', e.allocated = false)
    (used : ∀ e ∈ left.getLast?, e.allocated = true)
    (used' : ∀ e ∈ left'.getLast?, e.allocated = true)
    : left = left' ∧ lower = lower' := by
  cases lower with
  | none =>
      cases lower' with
      | none => simpa using same
      | some e =>
          have last : left = left' ++ [e] := by simpa using same
          have both := used e (by simp [last])
          simp [free' e rfl] at both
  | some e =>
      cases lower' with
      | none =>
          have last : left ++ [e] = left' := by simpa using same
          have both := used' e (by simp [← last])
          simp [free e rfl] at both
      | some f => simpa using same

end BoundaryTag
