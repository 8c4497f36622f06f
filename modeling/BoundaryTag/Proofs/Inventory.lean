import BoundaryTag.Proofs.Walks

/-! What the two walks over a heap show: its extents by address, and the free ones among them in
list order. Sizes go with the blocks there, so both are lists of extents, and a change of the heap
is a change of these two lists.
-/

namespace BoundaryTag

-----------------------------------------------------------------------------------------
-- Free extents that are not listed any more
-----------------------------------------------------------------------------------------

/-- A list of extents without a gap, if there is a gap. -/
def dropGap (free : List Extent) (gap : Option Extent) : List Extent :=
  gap.elim free free.erase

/-- The listed extents that are left when the gaps of a site have left the list. -/
def Site.drop (s : Site) (free : List Extent) : List Extent :=
  dropGap (dropGap free s.lower) s.upper

section

variable {es free : List Extent} {a z : Nat} {e : Extent} {gap : Option Extent}

/-- Erasing an extent erases its block, since no other extent has that block. -/
theorem Tiles.map_erase (h : Tiles a es z) (sub : free ⊆ es) (he : e ∈ es)
    : (free.erase e).map (·.block) = (free.map (·.block)).erase e.block := by
  induction free with
  | nil => rfl
  | cons f rest ih =>
      obtain ⟨hf, subRest⟩ := List.cons_subset.mp sub
      by_cases same : f = e
      · simp [same]
      · have different : f.block ≠ e.block := fun hblock => same (h.eq_of_block hf he hblock)
        rw [List.erase_cons_tail (by simpa using same), List.map_cons, List.map_cons,
          List.erase_cons_tail (by simpa using different), ih subRest]

/-- Dropping a gap erases its block. -/
theorem Tiles.map_dropGap (h : Tiles a es z) (sub : free ⊆ es) (hgap : ∀ e ∈ gap, e ∈ es)
    : (dropGap free gap).map (·.block) = eraseGap (free.map (·.block)) gap := by
  cases gap with
  | none => rfl
  | some e => exact h.map_erase sub (hgap e rfl)

/-- An extent is still listed when a gap is dropped if it is not that gap. -/
theorem mem_dropGap (distinct : free.Nodup)
    : e ∈ dropGap free gap ↔ e ∈ free ∧ gap ≠ some e := by
  cases gap with
  | none => simp [dropGap]
  | some f => simp [dropGap, distinct.mem_erase_iff, and_comm, eq_comm]

/-- Dropping a gap leaves no extent listed twice. -/
theorem nodup_dropGap (distinct : free.Nodup) (gap : Option Extent)
    : (dropGap free gap).Nodup := by
  cases gap with
  | none => exact distinct
  | some e => exact distinct.erase e

end

namespace Heap

/-- The walks over a heap show the given extents, and the given free ones in list order. -/
structure Shows (h : Heap) (es free : List Extent) : Prop where
  blocks : h.blocks = es
  freeBlocks : h.freeBlocks = free

namespace InOrder

variable {h h' : Heap} {es free : List Extent} {xs xs' : List Block} {s : Site}

/-- The walks over a heap in order show its layout, and the extents of the listed blocks. -/
theorem shows (ord : h.InOrder es xs) (sub : free ⊆ es) (order : free.map (·.block) = xs)
    : h.Shows es free where
  blocks := ord.blocks_eq
  freeBlocks := by
    have same : ∀ e ∈ free, Extent.ofBlock h.memory e.block = e :=
      fun e he => (ord.settled.tagged e (sub he)).ofBlock_eq
    rw [Heap.freeBlocks, ord.members_eq, ← order, List.map_map]
    exact (List.map_congr_left same).trans (List.map_id' free)

/-- The walk over the free list visits free extents of the layout, each of them once. -/
theorem freeBlocks_spec (ord : h.InOrder es xs)
    : h.freeBlocks ⊆ es ∧ h.freeBlocks.map (·.block) = xs
      ∧ (∀ e ∈ h.freeBlocks, e.allocated = false) ∧ h.freeBlocks.Nodup := by
  have listed : ∀ e ∈ h.freeBlocks, e ∈ es ∧ e.allocated = false := by
    intro e he
    rw [Heap.freeBlocks, ord.members_eq] at he
    obtain ⟨b, hb, rfl⟩ := List.mem_map.mp he
    obtain ⟨f, hf, rfl, free⟩ := ord.settled.free b hb
    rw [(ord.settled.tagged f hf).ofBlock_eq]
    exact ⟨hf, free⟩
  have order : h.freeBlocks.map (·.block) = xs := by
    rw [Heap.freeBlocks, ord.members_eq, List.map_map]
    exact List.map_id' xs
  refine ⟨fun e he => (listed e he).1, order, fun e he => (listed e he).2, ?_⟩
  apply List.Nodup.of_map (·.block)
  rw [order]
  exact ord.settled.lists.nodup

/-- The walk over the free list visits all free extents of the layout. -/
theorem freeBlocks_perm (ord : h.InOrder es xs)
    : h.freeBlocks.Perm (es.filter fun e => !e.allocated) := by
  obtain ⟨sub, order, free, distinct⟩ := ord.freeBlocks_spec
  have distinct' : (es.filter fun e => !e.allocated).Nodup :=
    (List.Nodup.of_map _ ord.settled.tiles.nodup_blocks).filter _
  refine (List.perm_ext_iff_of_nodup distinct distinct').mpr fun e => ?_
  rw [List.mem_filter, Bool.not_eq_true']
  constructor
  · exact fun he => ⟨sub he, free e he⟩
  · rintro ⟨he, unused⟩
    have listed := ord.settled.listed he unused
    rw [← order] at listed
    obtain ⟨f, hf, block⟩ := List.mem_map.mp listed
    rwa [← ord.settled.tiles.eq_of_block (sub hf) he block]

/-- Without its gaps, the free list holds extents beyond the middle of a site. -/
theorem drop_spec (ord : h.InOrder s.extents xs) (used : s.here.allocated = true)
    : (s.drop h.freeBlocks).map (·.block) = s.unlist xs
      ∧ s.drop h.freeBlocks ⊆ s.left ++ s.right := by
  obtain ⟨sub, rfl, free, distinct⟩ := ord.freeBlocks_spec
  have first := ord.settled.tiles.map_dropGap sub fun d hd => Site.mem_of_mem_lower hd
  have subLower : dropGap h.freeBlocks s.lower ⊆ s.extents :=
    fun e he => sub ((mem_dropGap distinct).mp he).1
  have second := ord.settled.tiles.map_dropGap subLower fun u hu => Site.mem_of_mem_upper hu
  constructor
  · rw [Site.drop, Site.unlist, second, first]
  · intro e he
    obtain ⟨listed, notUpper⟩ := (mem_dropGap (nodup_dropGap distinct _)).mp he
    obtain ⟨member, notLower⟩ := (mem_dropGap distinct).mp listed
    have notHere : e ≠ s.here := by
      rintro rfl
      rw [free _ member] at used
      cases used
    have place := sub member
    simp only [Site.extents, Site.middle, List.mem_append, List.mem_cons, Option.mem_toList]
      at place ⊢
    tauto

/-- Where the middle of a site with an allocated extent is divided anew and the list keeps what lies
beyond, the walks show so.
-/
theorem shows_reworked (ord : h.InOrder s.extents xs) (used : s.here.allocated = true)
    {mid ms : List Extent} (ord' : h'.InOrder (s.left ++ mid ++ s.right) xs')
    (order : xs' = ms.map (·.block) ++ s.unlist xs) (sub : ms ⊆ mid)
    : h'.Shows (s.left ++ mid ++ s.right) (ms ++ s.drop h.freeBlocks) := by
  obtain ⟨dropped, beyond⟩ := ord.drop_spec used
  apply ord'.shows
  · intro e he
    rcases List.mem_append.mp he with he | he
    · simp [sub he]
    · have sides := beyond he
      simp only [List.mem_append] at sides ⊢
      tauto
  · rw [List.map_append, dropped, order]

end InOrder

end Heap

end BoundaryTag
