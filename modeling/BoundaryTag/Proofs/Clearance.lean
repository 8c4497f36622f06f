import BoundaryTag.Proofs.Founding
import BoundaryTag.Proofs.Sessions

/-! Giving blocks back in any order. The free extents of a settled layout are the gaps between the
allocated ones, so that a layout is known by its ends and its allocated extents. Freeing takes one
of these away and moves no other; what is left when some blocks are free does not tell in which
order they became so.
-/

namespace BoundaryTag

-----------------------------------------------------------------------------------------
-- A layout is known by its allocated extents
-----------------------------------------------------------------------------------------

/-- The allocated extents of a layout, by address. -/
def occupied (es : List Extent) : List Extent := es.filter (·.allocated)

/-- The allocated extents of two layouts together are those of each. -/
theorem occupied_append (xs ys : List Extent)
    : occupied (xs ++ ys) = occupied xs ++ occupied ys := by
  simp [occupied]

/-- An allocated extent in front is one more. -/
theorem occupied_cons_of_used {e : Extent} (es : List Extent) (used : e.allocated = true)
    : occupied (e :: es) = e :: occupied es := by
  simp [occupied, used]

/-- A free extent in front does not count. -/
theorem occupied_cons_of_free {e : Extent} (es : List Extent) (free : e.allocated = false)
    : occupied (e :: es) = occupied es := by
  simp [occupied, free]

/-- Optional free extents take up nothing. -/
theorem occupied_toList {gap : Option Extent} (free : ∀ e ∈ gap, e.allocated = false)
    : occupied gap.toList = [] := by
  cases gap with
  | none => rfl
  | some e => simp [occupied, free e rfl]

namespace Tiles

variable {a z : Nat} {es fs : List Extent} {e f : Extent}

/-- The first allocated extent begins where the layout does, unless that begins with a free one. -/
theorem start_occupied (h : Tiles a es z) (used : ∀ e ∈ es.head?, e.allocated = true)
    : (occupied es).head?.elim z Extent.start = a := by
  cases es with
  | nil => exact h.symm
  | cons e rest =>
      rw [occupied_cons_of_used rest (used e rfl)]
      exact h.1

/-- A free extent stops where the next allocated one begins, or where the layout ends. -/
theorem stop_of_free (h : Tiles a (e :: es) z) (apart : Alternating (e :: es))
    (free : e.allocated = false)
    : e.stop = (occupied es).head?.elim z Extent.start := by
  have touching := (alternating_cons.mp apart).1
  exact (h.2.2.start_occupied fun f hf => (touching f hf).resolve_left (by simp [free])).symm

/-- An extent does not begin where an earlier one does. -/
theorem notMem_occupied (h : Tiles a (e :: es) z) (same : f.start = a) : f ∉ occupied es := by
  intro member
  obtain ⟨start, room, tail⟩ := h
  have bounds := tail.bounds (List.mem_of_mem_filter member)
  simp only [Extent.stop] at bounds
  omega

/-- Two layouts of the same range without touching free extents are the same if their allocated
extents are, because the free ones fill what lies between those. The induction is on both layouts at
once: where they agree so far, their next extents begin at the same number.
-/
theorem eq_of_occupied (h : Tiles a es z) (h' : Tiles a fs z) (apart : Alternating es)
    (apart' : Alternating fs) (same : occupied es = occupied fs)
    : es = fs := by
  induction es generalizing a fs with
  | nil =>
      cases fs with
      | nil => rfl
      | cons f rest =>
          obtain rfl : a = z := h
          have bounds := h'.bounds (e := f) (by simp)
          simp only [Extent.stop] at bounds
          omega
  | cons e es ih =>
      cases fs with
      | nil =>
          obtain rfl : a = z := h'
          have bounds := h.bounds (e := e) (by simp)
          simp only [Extent.stop] at bounds
          omega
      | cons f fs =>
          have start : e.start = f.start := h.1.trans h'.1.symm
          have rest : e = f → occupied es = occupied fs → e :: es = f :: fs := by
            rintro rfl others
            rw [ih h.2.2 h'.2.2 (alternating_cons.mp apart).2 (alternating_cons.mp apart').2 others]
          cases used : e.allocated <;> cases used' : f.allocated
          case false.false =>
            rw [occupied_cons_of_free es used, occupied_cons_of_free fs used'] at same
            have stop := h.stop_of_free apart used
            rw [same, ← h'.stop_of_free apart' used'] at stop
            apply rest _ same
            have block : e.block = f.block := Block.ext_toNat start
            have size : e.size = f.size := by
              apply Size.ext
              simp only [Extent.stop] at stop
              omega
            cases e
            cases f
            simp_all
          case false.true =>
            rw [occupied_cons_of_free es used, occupied_cons_of_used fs used'] at same
            exact absurd (same ▸ List.mem_cons_self) (h.notMem_occupied h'.1)
          case true.false =>
            rw [occupied_cons_of_used es used, occupied_cons_of_free fs used'] at same
            exact absurd (same ▸ List.mem_cons_self) (h'.notMem_occupied h.1)
          case true.true =>
            rw [occupied_cons_of_used es used, occupied_cons_of_used fs used'] at same
            obtain ⟨first, others⟩ := List.cons.inj same
            exact rest first others

end Tiles

/-- A layout without touching free extents in which nothing is allocated is one free extent, or
empty.
-/
theorem Alternating.eq_of_vacant {es : List Extent} (apart : Alternating es)
    (vacant : occupied es = [])
    : es = [] ∨ ∃ e, es = [e] ∧ e.allocated = false := by
  have free : ∀ e ∈ es, e.allocated = false := by simpa [occupied] using vacant
  match es with
  | [] => exact Or.inl rfl
  | [e] => exact Or.inr ⟨e, rfl, free e (by simp)⟩
  | e :: f :: rest =>
      have touching := (alternating_cons.mp apart).1 f rfl
      simp [free e (by simp), free f (by simp)] at touching

/-- Joining an allocated extent with the gaps that touch it takes this one away from those that are
allocated.
-/
theorem Site.Flanked.occupied_joined {s : Site} (hs : s.Flanked) (used : s.here.allocated = true)
    (distinct : (users s.extents).Nodup)
    : occupied (s.left ++ [s.joined] ++ s.right)
      = (occupied s.extents).filter fun e => e.block ≠ s.here.block := by
  have joined : s.joined.allocated = false := rfl
  rw [hs.users_extents used, List.nodup_middle, List.nodup_cons] at distinct
  have elsewhere : ∀ es, users es ⊆ users s.left ++ users s.right →
      (occupied es).filter (fun e => e.block ≠ s.here.block) = occupied es := by
    intro es inside
    rw [List.filter_eq_self]
    intro e he
    have member : e.block ∈ users es := List.mem_map_of_mem he
    have other : e.block ≠ s.here.block := fun same => distinct.1 (inside (same ▸ member))
    exact decide_eq_true other
  simp only [Site.extents_eq, occupied_append, occupied_cons_of_used _ used,
    occupied_cons_of_free _ joined, occupied_toList hs.lower_free, occupied_toList hs.upper_free,
    List.filter_append, List.filter_cons, elsewhere s.left (by simp), elsewhere s.right (by simp)]
  simp [occupied]

-----------------------------------------------------------------------------------------
-- Freeing block after block
-----------------------------------------------------------------------------------------

namespace Heap

variable {h k : Heap} {es : List Extent} {xs : List Block} {b : Block}

/-- Freeing a block in use takes its extent away from the allocated ones, and nothing else. -/
theorem InOrder.occupied_free (ord : h.InOrder es xs) (hb : b ∈ users es)
    : ∃ es' xs', (h.free b).InOrder es' xs'
        ∧ occupied es' = (occupied es).filter fun e => e.block ≠ b := by
  obtain ⟨e, he, rfl, used⟩ := mem_users.mp hb
  obtain ⟨s, rfl, rfl, hs⟩ := ord.settled.exists_site he
  exact ⟨_, _, (ord.free_at hs used).1,
    hs.occupied_joined used ord.settled.tiles.nodup_users⟩

/-- Heaps in order with the same ends and the same allocated extents have the same extents. -/
theorem InOrder.eq_of_occupied {fs : List Extent} {ys : List Block} (ord : h.InOrder es xs)
    (ord' : k.InOrder fs ys) (region : h.region = k.region) (prologue : h.prologue = k.prologue)
    (same : occupied es = occupied fs)
    : es = fs := by
  have tiles' := ord'.settled.tiles
  rw [← region, ← prologue] at tiles'
  exact ord.settled.tiles.eq_of_occupied tiles' ord.settled.alternating ord'.settled.alternating
    same

/-- A heap in order that has room between its ends and in which nothing is allocated has a single
block. This one is free and reaches from one end of the heap to the other.
-/
theorem InOrder.single_of_vacant (ord : h.InOrder es xs) (vacant : occupied es = [])
    (room : h.prologue.address.toNat + 16 < h.region.frontier.toNat)
    : ∃ e, h.blocks = [e] ∧ h.members = [e.block] ∧ e.allocated = false
        ∧ e.start = h.prologue.address.toNat + 16
        ∧ e.start + e.size.toNat = h.region.frontier.toNat := by
  have tiles := ord.settled.tiles
  rcases ord.settled.alternating.eq_of_vacant vacant with rfl | ⟨e, rfl, free⟩
  · have nothing : h.prologue.address.toNat + 16 = h.region.frontier.toNat := tiles
    omega
  · obtain ⟨first, -, last⟩ := tiles
    have listed : xs = [e.block] := by
      have only := ord.settled.complete
      rw [gaps_cons, free] at only
      exact List.perm_singleton.mp only
    exact ⟨e, ord.blocks_eq, listed ▸ ord.members_eq, free, first, last⟩

/-- What is counted is told by the blocks and the region. -/
theorem usage_congr (blocks : h.blocks = k.blocks) (region : h.region = k.region)
    : h.usage = k.usage := by
  rw [usage, usage, blocks, region]

end Heap

namespace Session

variable {base : Nat} {s : Session} {es : List Extent} {xs bs cs : List Block}

/-- Blocks that are held can be given back one after the other. That takes their extents away from
the allocated ones, by induction over the blocks, and leaves both ends of the heap where they are.
-/
theorem Coherent.run_free (h : s.Coherent base es xs) (distinct : bs.Nodup) (held : bs ⊆ s.live)
    : s.Legal (bs.map .free)
      ∧ (s.run (bs.map .free)).heap.region = s.heap.region
      ∧ (s.run (bs.map .free)).heap.prologue = s.heap.prologue
      ∧ ∃ es' xs', (s.run (bs.map .free)).heap.InOrder es' xs'
          ∧ occupied es' = (occupied es).filter fun e => e.block ∉ bs := by
  induction bs generalizing s es xs with
  | nil => exact ⟨trivial, rfl, rfl, es, xs, h.order, by simp⟩
  | cons b rest ih =>
      obtain ⟨fresh, distinct⟩ := List.nodup_cons.mp distinct
      obtain ⟨hb, held⟩ := List.cons_subset.mp held
      obtain ⟨es₁, xs₁, order, occupied₁⟩ := h.order.occupied_free (h.live.mem_iff.mp hb)
      obtain ⟨es₂, xs₂, taken⟩ := h.next (r := .free b) hb
      have same : es₂ = es₁ := taken.order.blocks_eq.symm.trans order.blocks_eq
      have still : rest ⊆ (s.next (.free b)).live := by
        intro c hc
        have other : c ≠ b := fun same => fresh (same ▸ hc)
        exact (List.mem_erase_of_ne other).mpr (held hc)
      obtain ⟨legal, region, prologue, es', xs', last, occupied'⟩ :=
        ih (taken.coherent h) distinct still
      have freed : (s.next (.free b)).heap = s.heap.free b := rfl
      rw [freed, Heap.region_free] at region
      rw [freed, Heap.prologue_free] at prologue
      simp only [List.map_cons, Session.run, Legal]
      refine ⟨⟨hb, legal⟩, region, prologue, es', xs', last, ?_⟩
      rw [occupied', same, occupied₁, List.filter_filter]
      apply List.filter_congr
      intro e _
      simp [Bool.and_comm]

/-- A new heap has room for at least one block between its ends. -/
theorem Begins.lt_frontier {chunk : Word} {region : Region} {memory : Memory}
    (begins : Begins chunk region memory)
    : region.frontier.toNat + 32
      < (start chunk region memory).heap.region.frontier.toNat := by
  have room := Settings.toNat_ofChunkSize begins.chunk_le
  obtain ⟨order, -, -⟩ := Heap.inOrder_create begins.sane room begins.created
  obtain ⟨_, _, coherent⟩ := begins.coherent
  have low := coherent.low
  obtain ⟨first, large, last⟩ := order.settled.tiles
  simp only [Tiles, Extent.stop] at first large last
  rw [start] at low ⊢
  simp only at low ⊢
  omega

/-- After every legal run, blocks that are held can be given back in any order: the blocks of the
heap, the members of its free list and its figures come out the same. Once all of them are given
back, a single free block is left, which has all bytes that the heap ever got but those of its ends.
-/
theorem clearance_of_legal {chunk : Word} {region : Region} {memory : Memory}
    (begins : Begins chunk region memory) {rs : List Request}
    (legal : (start chunk region memory).Legal rs) (distinct : bs.Nodup)
    (held : bs ⊆ ((start chunk region memory).run rs).live) (order : bs.Perm cs)
    : let s := (start chunk region memory).run rs
      let t := s.run (bs.map .free)
      let u := s.run (cs.map .free)
      s.Legal (bs.map .free)
      ∧ t.heap.blocks = u.heap.blocks
      ∧ t.heap.members.Perm u.heap.members
      ∧ t.heap.usage = u.heap.usage
      ∧ (s.live ⊆ bs → ∃ e, t.heap.blocks = [e] ∧ t.heap.members = [e.block]
          ∧ e.allocated = false
          ∧ e.start = region.frontier.toNat + 32
          ∧ region.used.toNat + 32 + e.size.toNat = t.heap.region.used.toNat) := by
  intro s t u
  obtain ⟨es₀, xs₀, created⟩ := begins.coherent
  obtain ⟨es, xs, now⟩ : ∃ es xs, s.Coherent region.frontier.toNat es xs := created.run legal
  obtain ⟨start_eq, grows⟩ : s.heap.region.start = (start chunk region memory).heap.region.start
      ∧ (start chunk region memory).heap.region.frontier.toNat ≤ s.heap.region.frontier.toNat :=
    created.region_run legal
  obtain ⟨legal', region₁, prologue₁, es₁, xs₁, order₁, occupied₁⟩ := now.run_free distinct held
  obtain ⟨-, region₂, prologue₂, es₂, xs₂, order₂, occupied₂⟩ :=
    now.run_free (order.nodup_iff.mp distinct) fun b hb => held (order.mem_iff.mpr hb)
  have same : es₁ = es₂ := by
    apply order₁.eq_of_occupied order₂ (region₁.trans region₂.symm)
      (prologue₁.trans prologue₂.symm)
    rw [occupied₁, occupied₂]
    simp only [order.mem_iff]
  have blocks : t.heap.blocks = u.heap.blocks := by
    rw [order₁.blocks_eq, order₂.blocks_eq, same]
  refine ⟨legal', blocks, ?_, Heap.usage_congr blocks (region₁.trans region₂.symm), ?_⟩
  · have listed := order₂.settled.complete
    rw [← same] at listed
    rw [order₁.members_eq, order₂.members_eq]
    exact order₁.settled.complete.trans listed.symm
  · intro all
    have none : occupied es₁ = [] := by
      rw [occupied₁, List.filter_eq_nil_iff]
      intro e he
      have user : e.block ∈ users es := List.mem_map_of_mem he
      simpa using all (now.live.mem_iff.mpr user)
    have low := now.low
    have reached := begins.lt_frontier
    have frontier := order₁.sane.toNat_frontier
    have frontier₀ := begins.sane.toNat_frontier
    have start_region : s.heap.region.start = region.start :=
      start_eq.trans (Heap.start_create _ _ _)
    have room : t.heap.prologue.address.toNat + 16 < t.heap.region.frontier.toNat := by
      rw [prologue₁, region₁]
      omega
    obtain ⟨e, single, listed, free, first, last⟩ := order₁.single_of_vacant none room
    rw [prologue₁] at first
    rw [region₁] at last frontier
    rw [start_region] at frontier
    refine ⟨e, single, listed, free, by omega, ?_⟩
    rw [region₁]
    omega

/-- The two blocks of a short session can be given back from below or from above. -/
theorem clearance_sample
    : let s := (start 256 sampleRegion sampleMemory).run sampleRequests
      let t := s.run ([⟨4152⟩, ⟨4296⟩].map .free)
      let u := s.run ([⟨4296⟩, ⟨4152⟩].map .free)
      Begins 256 sampleRegion sampleMemory
      ∧ (start 256 sampleRegion sampleMemory).Legal sampleRequests
      ∧ s.live = [⟨4152⟩, ⟨4296⟩]
      ∧ t.heap.blocks = u.heap.blocks
      ∧ ∃ e, t.heap.blocks = [e] ∧ e.start = 4152
        ∧ 24 + 32 + e.size.toNat = t.heap.region.used.toNat := by
  dsimp only
  have order : List.Perm [⟨4152⟩, ⟨4296⟩] [⟨4296⟩, (⟨4152⟩ : Block)] := List.Perm.swap _ _ _
  obtain ⟨-, blocks, -, -, all⟩ := clearance_of_legal begins_sample legal_sample (by decide)
    (by simp [live_sample]) order
  obtain ⟨e, single, -, -, first, size⟩ := all (by simp [live_sample])
  have base : sampleRegion.frontier.toNat = 4120 := rfl
  have used : sampleRegion.used.toNat = 24 := rfl
  rw [base] at first
  rw [used] at size
  exact ⟨begins_sample, legal_sample, live_sample, blocks, e, single, first, size⟩

end Session

end BoundaryTag
