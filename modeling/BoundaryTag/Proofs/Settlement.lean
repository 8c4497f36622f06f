import Mathlib.Data.List.Chain
import BoundaryTag.Proofs.Merging

/-! Settled layouts: every free extent is listed, and no two of them touch. This is how every
operation finds the heap and leaves it. An operation only rewrites the middle of a site, where
one extent stands with the free ones that touch it; what lies beyond is allocated on both sides,
so it is enough that the new middle is in order by itself.
-/

namespace BoundaryTag

-----------------------------------------------------------------------------------------
-- Free and allocated blocks of a layout
-----------------------------------------------------------------------------------------

/-- The blocks of the free extents, by address. -/
def gaps (es : List Extent) : List Block := (es.filter fun e => !e.allocated).map (·.block)

/-- The blocks of the allocated extents, by address. -/
def users (es : List Extent) : List Block := (es.filter (·.allocated)).map (·.block)

/-- An empty layout has no free blocks. -/
@[simp]
theorem gaps_nil : gaps [] = [] := rfl

/-- An empty layout has no allocated blocks. -/
@[simp]
theorem users_nil : users [] = [] := rfl

/-- The free blocks of two layouts together are those of each. -/
@[simp]
theorem gaps_append (xs ys : List Extent) : gaps (xs ++ ys) = gaps xs ++ gaps ys := by
  simp [gaps]

/-- The allocated blocks of two layouts together are those of each. -/
@[simp]
theorem users_append (xs ys : List Extent) : users (xs ++ ys) = users xs ++ users ys := by
  simp [users]

/-- An extent in front is one more free block, unless it is allocated. -/
theorem gaps_cons (e : Extent) (es : List Extent)
    : gaps (e :: es) = if e.allocated then gaps es else e.block :: gaps es := by
  cases h : e.allocated <;> simp [gaps, h]

/-- An extent in front is one more allocated block, if it is allocated. -/
theorem users_cons (e : Extent) (es : List Extent)
    : users (e :: es) = if e.allocated then e.block :: users es else users es := by
  cases h : e.allocated <;> simp [users, h]

/-- The free blocks are those of the extents that are free. -/
theorem mem_gaps {b : Block} {es : List Extent}
    : b ∈ gaps es ↔ ∃ e ∈ es, e.block = b ∧ e.allocated = false := by
  simp only [gaps, List.mem_map, List.mem_filter, Bool.not_eq_eq_eq_not, Bool.not_true]
  exact exists_congr fun e => ⟨fun h => ⟨h.1.1, h.2, h.1.2⟩, fun h => ⟨⟨h.1, h.2.2⟩, h.2.1⟩⟩

/-- The allocated blocks are those of the extents that are allocated. -/
theorem mem_users {b : Block} {es : List Extent}
    : b ∈ users es ↔ ∃ e ∈ es, e.block = b ∧ e.allocated = true := by
  simp only [users, List.mem_map, List.mem_filter]
  exact exists_congr fun e => ⟨fun h => ⟨h.1.1, h.2, h.1.2⟩, fun h => ⟨⟨h.1, h.2.2⟩, h.2.1⟩⟩

/-- No block is used twice. -/
theorem Tiles.nodup_users {a z : Nat} {es : List Extent} (h : Tiles a es z) : (users es).Nodup :=
  (List.filter_sublist.map _).nodup h.nodup_blocks

/-- No block is free twice. -/
theorem Tiles.nodup_gaps {a z : Nat} {es : List Extent} (h : Tiles a es z) : (gaps es).Nodup :=
  (List.filter_sublist.map _).nodup h.nodup_blocks

/-- The blocks of optional free extents. -/
theorem gaps_toList {gap : Option Extent} (free : ∀ e ∈ gap, e.allocated = false)
    : gaps gap.toList = gap.toList.map (·.block) := by
  cases gap with
  | none => rfl
  | some e => simp [gaps_cons, free e rfl]

/-- Free extents have no users. -/
theorem users_toList {gap : Option Extent} (free : ∀ e ∈ gap, e.allocated = false)
    : users gap.toList = [] := by
  cases gap with
  | none => rfl
  | some e => simp [users_cons, free e rfl]

-----------------------------------------------------------------------------------------
-- No two free extents side by side
-----------------------------------------------------------------------------------------

/-- Of two extents side by side at least one is allocated. -/
def Alternating (es : List Extent) : Prop :=
  es.IsChain fun d e => d.allocated = true ∨ e.allocated = true

/-- In two layouts together no two free extents lie side by side if it is so in each and where they
meet.
-/
theorem alternating_append {xs ys : List Extent}
    : Alternating (xs ++ ys)
      ↔ Alternating xs ∧ Alternating ys
        ∧ ∀ d ∈ xs.getLast?, ∀ e ∈ ys.head?, d.allocated = true ∨ e.allocated = true :=
  List.isChain_append

/-- With an extent in front no two free extents lie side by side if it is so without it, and the
first two are not both free.
-/
theorem alternating_cons {e : Extent} {es : List Extent}
    : Alternating (e :: es)
      ↔ (∀ f ∈ es.head?, e.allocated = true ∨ f.allocated = true) ∧ Alternating es :=
  List.isChain_cons

/-- A single extent touches no other. -/
theorem alternating_toList (gap : Option Extent) : Alternating gap.toList := by
  cases gap <;> simp [Alternating]

namespace Alternating

variable {l r : List Extent} {e : Extent}

/-- Anything can lie below an allocated extent. -/
theorem append_used (below : Alternating l) (h : Alternating (e :: r)) (used : e.allocated = true)
    : Alternating (l ++ e :: r) := by
  refine alternating_append.mpr ⟨below, h, ?_⟩
  rintro d - f ⟨⟩
  exact Or.inr used

/-- Anything can lie above an allocated extent. -/
theorem used_append (h : Alternating (l ++ [e])) (above : Alternating r)
    (used : e.allocated = true)
    : Alternating (l ++ [e] ++ r) := by
  refine alternating_append.mpr ⟨h, above, ?_⟩
  rintro d hd f -
  rw [List.getLast?_concat] at hd
  exact Or.inl (Option.some.inj hd ▸ used)

/-- Below an extent lies at most one free extent, and what lies below that is allocated. -/
theorem exists_lower (h : Alternating l)
    : ∃ left, ∃ lower : Option Extent, l = left ++ lower.toList
        ∧ (∀ d ∈ lower, d.allocated = false) ∧ ∀ d ∈ left.getLast?, d.allocated = true := by
  rcases List.eq_nil_or_concat' l with rfl | ⟨front, d, rfl⟩
  · exact ⟨[], none, rfl, by simp, by simp⟩
  · by_cases used : d.allocated
    · exact ⟨front ++ [d], none, by simp, by simp, by simpa using used⟩
    · refine ⟨front, some d, rfl, by simpa using used, ?_⟩
      intro c hc
      have touching := (alternating_append.mp h).2.2 c hc d (by simp)
      simpa [used] using touching

/-- Above an extent lies at most one free extent, and what lies above that is allocated. -/
theorem exists_upper (h : Alternating r)
    : ∃ right, ∃ upper : Option Extent, r = upper.toList ++ right
        ∧ (∀ u ∈ upper, u.allocated = false) ∧ ∀ u ∈ right.head?, u.allocated = true := by
  cases r with
  | nil => exact ⟨[], none, rfl, by simp, by simp⟩
  | cons u rest =>
      by_cases used : u.allocated
      · exact ⟨u :: rest, none, by simp, by simp, by simpa using used⟩
      · refine ⟨rest, some u, rfl, by simpa using used, ?_⟩
        intro v hv
        have touching := (alternating_cons.mp h).1 v hv
        simpa [used] using touching

/-- Every extent of a layout without touching free extents has a site. -/
theorem exists_site (h : Alternating (l ++ e :: r))
    : ∃ s : Site, s.here = e ∧ s.extents = l ++ e :: r ∧ s.Enclosed := by
  obtain ⟨below, above, -⟩ := alternating_append.mp h
  obtain ⟨left, lower, rfl, lower_free, left_used⟩ := below.exists_lower
  obtain ⟨right, upper, rfl, upper_free, right_used⟩ :=
    (alternating_cons.mp above).2.exists_upper
  refine ⟨⟨left, lower, e, upper, right⟩, rfl, ?_,
    ⟨⟨lower_free, upper_free⟩, left_used, right_used⟩⟩
  simp [Site.extents_eq]

end Alternating

namespace Site

variable {s : Site} {mid : List Extent} {y z : Nat}

/-- The bytes that belong to the extent of a site or to nobody. -/
def own (s : Site) : Set Word := vacant s.extents ∪ s.here.covered

/-- The middle of a site lies within its own bytes. -/
theorem Flanked.span_subset_own (hs : s.Flanked) (range : Tiles y s.middle z) (low : 8 ≤ y)
    : Word.span (y - 8) (z - 8) ⊆ s.own := by
  intro x hx
  obtain ⟨e, he, hcovered⟩ := range.span_subset low x hx
  have hmem : e ∈ s.extents := by simp [extents, he]
  rcases mem_middle.mp he with hd | rfl | hu
  · exact Or.inl ⟨e, hmem, hs.lower_free e hd, hcovered⟩
  · exact Or.inr hcovered
  · exact Or.inl ⟨e, hmem, hs.upper_free e hu, hcovered⟩

/-- A free extent without touching free extents stands alone in its site. -/
theorem Enclosed.alone (hs : s.Enclosed) (h : Alternating s.extents)
    (free : s.here.allocated = false)
    : s.lower = none ∧ s.upper = none := by
  rw [extents_eq] at h
  obtain ⟨-, above, touching⟩ := alternating_append.mp h
  constructor
  · cases hlower : s.lower with
    | none => rfl
    | some d =>
        have := touching d (by simp [hlower]) s.here (by simp)
        simp [free, hs.lower_free d hlower] at this
  · cases hupper : s.upper with
    | none => rfl
    | some u =>
        have := (alternating_cons.mp above).1 u (by simp [hupper])
        simp [free, hs.upper_free u hupper] at this

/-- What lies below the middle of a site and what lies above it. -/
theorem alternating_sides (h : Alternating s.extents)
    : Alternating s.left ∧ Alternating s.right := by
  obtain ⟨leftMiddle, right, -⟩ := alternating_append.mp h
  exact ⟨(alternating_append.mp leftMiddle).1, right⟩

/-- The middle of a site can be rewritten to anything that is in order by itself. -/
theorem Enclosed.alternating (hs : s.Enclosed) (sides : Alternating s.left ∧ Alternating s.right)
    (inner : Alternating mid)
    : Alternating (s.left ++ mid ++ s.right) := by
  refine alternating_append.mpr ⟨alternating_append.mpr ⟨sides.1, inner, ?_⟩, sides.2, ?_⟩
  · exact fun d hd _ _ => Or.inl (hs.left_used d hd)
  · exact fun _ _ e he => Or.inr (hs.right_used e he)

/-- The free blocks around an allocated extent. -/
theorem Flanked.gaps_extents (hs : s.Flanked) (used : s.here.allocated = true)
    : gaps s.extents
      = gaps s.left ++ s.lower.toList.map (·.block) ++ (s.upper.toList.map (·.block)
          ++ gaps s.right) := by
  simp [extents_eq, gaps_cons, used, gaps_toList hs.lower_free, gaps_toList hs.upper_free]

/-- The users of a site are those beyond it and the one in it. -/
theorem Flanked.users_extents (hs : s.Flanked) (used : s.here.allocated = true)
    : users s.extents = users s.left ++ s.here.block :: users s.right := by
  simp [extents_eq, users_cons, used, users_toList hs.lower_free, users_toList hs.upper_free]

end Site

/-- Without the one in a site, the users are those beyond it. -/
theorem Site.Flanked.users_erase {s : Site} (hs : s.Flanked) (used : s.here.allocated = true)
    : ((users s.extents).erase s.here.block).Perm (users s.left ++ users s.right) := by
  rw [hs.users_extents used]
  have front : (users s.left ++ s.here.block :: users s.right).Perm
      (s.here.block :: (users s.left ++ users s.right)) :=
    List.perm_middle
  simpa using front.erase s.here.block

/-- Without the block of a gap, a list of the blocks around it is left. -/
theorem eraseGap_perm {xs as bs : List Block} {gap : Option Extent}
    (h : xs.Perm (as ++ (gap.toList.map (·.block) ++ bs)))
    : (eraseGap xs gap).Perm (as ++ bs) := by
  cases gap with
  | none => simpa [eraseGap] using h
  | some e =>
      have front : xs.Perm (e.block :: (as ++ bs)) := by
        simpa using h.trans List.perm_middle
      simpa [eraseGap] using front.erase e.block

/-- Without the gaps around an extent, the list holds the free blocks beyond them. -/
theorem Site.unlist_perm {s : Site} {xs : List Block}
    (h : xs.Perm (gaps s.left ++ s.lower.toList.map (·.block)
      ++ (s.upper.toList.map (·.block) ++ gaps s.right)))
    : (s.unlist xs).Perm (gaps s.left ++ gaps s.right) := by
  rw [List.append_assoc] at h
  exact eraseGap_perm (eraseGap_perm h)

/-- Listing new free blocks instead of the gaps around an allocated extent lists all that is free.
-/
theorem Site.Flanked.relist_perm {s : Site} {xs : List Block} (hs : s.Flanked)
    (used : s.here.allocated = true) (h : xs.Perm (gaps s.extents)) (ms : List Block)
    : (ms ++ s.unlist xs).Perm (gaps s.left ++ ms ++ gaps s.right) := by
  rw [hs.gaps_extents used] at h
  rw [List.append_assoc]
  exact ((unlist_perm h).append_left ms).trans (List.perm_append_comm_assoc _ _ _)

-----------------------------------------------------------------------------------------
-- Settled layouts
-----------------------------------------------------------------------------------------

namespace Pool

/-- A layout as operations find and leave it: the free list holds exactly the free extents, and
no two of them touch.
-/
structure Settled (p : Pool) (low : Block) (es : List Extent) (top : Block) (xs : List Block)
    : Prop extends p.Laid low es top xs where
  complete : xs.Perm (gaps es)
  alternating : Alternating es

namespace Settled

variable {p q : Pool} {low top : Block} {es mid : List Extent} {xs xs' : List Block}
  {s : Site} {e : Extent} {b : Block}

/-- In a settled layout the free extents are listed. -/
theorem listed (h : p.Settled low es top xs) (he : e ∈ es) (free : e.allocated = false)
    : e.block ∈ xs :=
  h.complete.mem_iff.mpr (mem_gaps.mpr ⟨e, he, rfl, free⟩)

/-- An allocated extent is not listed. -/
theorem notMem_of_used (h : p.Settled low es top xs) (he : e ∈ es) (used : e.allocated = true)
    : e.block ∉ xs := by
  intro hmem
  obtain ⟨f, hf, hblock, free⟩ := h.free e.block hmem
  rw [h.eq_of_block hf he hblock, used] at free
  cases free

/-- Every extent of a settled layout has a site. -/
theorem exists_site (h : p.Settled low es top xs) (he : e ∈ es)
    : ∃ s : Site, s.here = e ∧ s.extents = es ∧ s.Enclosed := by
  obtain ⟨l, r, rfl⟩ := List.append_of_mem he
  exact h.alternating.exists_site

/-- So a free lower neighbour is listed. -/
theorem lower_listed (h : p.Settled low s.extents top xs) (hs : s.Flanked)
    : ∀ d ∈ s.lower, d.block ∈ xs :=
  fun d hd => h.listed (Site.mem_of_mem_lower hd) (hs.lower_free d hd)

/-- So a free upper neighbour is listed. -/
theorem upper_listed (h : p.Settled low s.extents top xs) (hs : s.Flanked)
    : ∀ u ∈ s.upper, u.block ∈ xs :=
  fun u hu => h.listed (Site.mem_of_mem_upper hu) (hs.upper_free u hu)

/-- A settled layout is still so after the middle of a site is rewritten. -/
theorem rework (h : p.Settled low s.extents top xs) (hs : s.Enclosed)
    (laid : q.Laid low (s.left ++ mid ++ s.right) top xs') (inner : Alternating mid)
    (complete : xs'.Perm (gaps s.left ++ gaps mid ++ gaps s.right))
    : q.Settled low (s.left ++ mid ++ s.right) top xs' where
  toLaid := laid
  complete := by simpa using complete
  alternating := hs.alternating (Site.alternating_sides h.alternating) inner

end Settled

end Pool

end BoundaryTag
