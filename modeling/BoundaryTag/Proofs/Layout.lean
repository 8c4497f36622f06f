import BoundaryTag.Proofs.Extents
import BoundaryTag.Proofs.Linking

/-! Layouts: extents side by side between the two ends of a heap, with their tags in memory and
some of the free ones on the free list. A layout tells the tags, the links and the payloads apart
by arithmetic alone, so that every change of memory inside one range, or of links alone, leaves
the rest of the layout as it was.
-/

namespace BoundaryTag

/-- The extents lie side by side from one number up to another, and each has room for the tags
and links of a free block.
-/
def Tiles : Nat → List Extent → Nat → Prop
  | a, [], z => a = z
  | a, e :: rest, z => e.start = a ∧ 32 ≤ e.size.toNat ∧ Tiles e.stop rest z

/-- The bytes of the free extents. -/
def vacant (es : List Extent) : Set Word := {x | ∃ e ∈ es, e.allocated = false ∧ x ∈ e.covered}

/-- The bytes of the tags of some extents. -/
def tagsOf (es : List Extent) : Set Word := {x | ∃ e ∈ es, x ∈ e.tagBytes}

/-- Two runs of extents lie side by side if each does and the second begins where the first stops.
-/
theorem tiles_append {a z : Nat} {xs ys : List Extent}
    : Tiles a (xs ++ ys) z ↔ ∃ y, Tiles a xs y ∧ Tiles y ys z := by
  induction xs generalizing a with
  | nil => simp [Tiles]
  | cons x rest ih => simp only [List.cons_append, Tiles, ih, exists_and_left, and_assoc]

namespace Tiles

variable {a y z : Nat} {es : List Extent} {e f : Extent}

/-- Extents side by side do not stop before they begin. -/
theorem le (h : Tiles a es z) : a ≤ z := by
  induction es generalizing a with
  | nil => exact h.le
  | cons e rest ih =>
      obtain ⟨rfl, -, tail⟩ := h
      exact (Nat.le_add_right _ _).trans (ih tail)

/-- Extents from the same number on stop at the same number. -/
theorem unique (h : Tiles a es y) (h' : Tiles a es z) : y = z := by
  induction es generalizing a with
  | nil => exact h.symm.trans h'
  | cons e rest ih => exact ih h.2.2 h'.2.2

/-- Each of some extents side by side lies within their range and is large enough for a block. -/
theorem bounds (h : Tiles a es z) (he : e ∈ es)
    : a ≤ e.start ∧ 32 ≤ e.size.toNat ∧ e.stop ≤ z := by
  induction es generalizing a with
  | nil => simp at he
  | cons f rest ih =>
      obtain ⟨rfl, room, tail⟩ := h
      rcases List.mem_cons.mp he with rfl | inner
      · exact ⟨le_rfl, room, tail.le⟩
      · have hinner := ih tail inner
        simp only [Extent.stop] at hinner ⊢
        omega

/-- Extents side by side are at most as many as the smallest blocks that fit in their range. -/
theorem length_le (h : Tiles a es z) : a + 32 * es.length ≤ z := by
  induction es generalizing a with
  | nil => exact Nat.le_of_eq h
  | cons e rest ih =>
      obtain ⟨rfl, room, tail⟩ := h
      have beyond := ih tail
      simp only [Extent.stop] at beyond
      rw [List.length_cons]
      omega

/-- Two extents are the same, or one stops before the other starts. -/
theorem apart (h : Tiles a es z) (he : e ∈ es) (hf : f ∈ es)
    : e = f ∨ e.stop ≤ f.start ∨ f.stop ≤ e.start := by
  induction es generalizing a with
  | nil => simp at he
  | cons g rest ih =>
      obtain ⟨rfl, -, tail⟩ := h
      rcases List.mem_cons.mp he with rfl | inner <;>
        rcases List.mem_cons.mp hf with rfl | inner'
      · exact Or.inl rfl
      · exact Or.inr (Or.inl (tail.bounds inner').1)
      · exact Or.inr (Or.inr (tail.bounds inner).1)
      · exact ih tail inner inner'

/-- Every number in between belongs to an extent. -/
theorem exists_mem (h : Tiles a es z) {n : Nat} (low : a ≤ n) (high : n < z)
    : ∃ e ∈ es, e.start ≤ n ∧ n < e.stop := by
  induction es generalizing a with
  | nil =>
      have : a = z := h
      omega
  | cons e rest ih =>
      obtain ⟨rfl, -, tail⟩ := h
      by_cases inside : n < e.stop
      · exact ⟨e, by simp, low, inside⟩
      · obtain ⟨f, hf, within⟩ := ih tail (by omega)
        exact ⟨f, by simp [hf], within⟩

/-- Extents side by side in the address space, with a word below them, fit in it. -/
theorem fits (h : Tiles a es z) (low : 8 ≤ a) (high : z ≤ UInt64.size) (he : e ∈ es)
    : e.Fits := by
  have hbounds := h.bounds he
  exact ⟨by omega, by omega, by omega⟩

/-- So there is room for their links. -/
theorem hasLinks (h : Tiles a es z) (low : 8 ≤ a) (high : z ≤ UInt64.size) (he : e ∈ es)
    : e.block.HasLinks := by
  have hbounds := h.bounds he
  simp only [Extent.stop, Extent.start] at hbounds
  constructor <;> omega

/-- Side by side extents are known by their blocks. -/
theorem eq_of_block (h : Tiles a es z) (he : e ∈ es) (hf : f ∈ es)
    (hblock : e.block = f.block)
    : e = f := by
  have hbounds := h.bounds he
  have hbounds' := h.bounds hf
  rcases h.apart he hf with same | apart
  · exact same
  · simp only [Extent.stop, Extent.start, hblock] at apart hbounds hbounds'
    omega

/-- No block begins two of the extents. -/
theorem nodup_blocks (h : Tiles a es z) : (es.map (·.block)).Nodup := by
  induction es generalizing a with
  | nil => exact .nil
  | cons e rest ih =>
      obtain ⟨rfl, room, tail⟩ := h
      refine List.nodup_cons.mpr ⟨?_, ih tail⟩
      intro hmem
      obtain ⟨f, hf, hblock⟩ := List.mem_map.mp hmem
      have hbounds := tail.bounds hf
      simp only [Extent.stop, Extent.start, hblock] at hbounds
      omega

/-- Extents side by side are sorted by where they begin. -/
theorem sorted (h : Tiles a es z) : es.Pairwise fun d e => d.start < e.start := by
  induction es generalizing a with
  | nil => exact .nil
  | cons e rest ih =>
      obtain ⟨rfl, room, tail⟩ := h
      refine List.pairwise_cons.mpr ⟨fun f hf => ?_, ih tail⟩
      have beyond := (tail.bounds hf).1
      simp only [Extent.stop] at beyond
      omega

/-- The links of different extents share no byte. -/
theorem links_apart (h : Tiles a es z) (he : e ∈ es) (hf : f ∈ es)
    (hblock : e.block ≠ f.block)
    : e.block.Apart f.block := by
  have hbounds := h.bounds he
  have hbounds' := h.bounds hf
  rcases h.apart he hf with rfl | apart
  · exact absurd rfl hblock
  · simp only [Extent.stop, Extent.start, Block.Apart] at apart hbounds hbounds' ⊢
    omega

/-- The links that a block would have lie between its tags. -/
theorem links_subset_payload (h : Tiles a es z) (he : e ∈ es) : e.block.links ⊆ e.payload := by
  have hbounds := h.bounds he
  intro x hx
  simp only [Block.links, Extent.payload, Extent.stop, Extent.start, Word.mem_span]
    at hx hbounds ⊢
  omega

/-- The payload of one extent holds no tag of another, nor its own. -/
theorem payload_notMem_tagBytes (h : Tiles a es z) (low : 8 ≤ a) (he : e ∈ es) (hf : f ∈ es)
    : ∀ x ∈ e.payload, x ∉ f.tagBytes := by
  have hbounds := h.bounds he
  have hbounds' := h.bounds hf
  intro x hx htag
  rcases h.apart he hf with rfl | apart
  · exact Extent.tagBytes_notMem_payload x htag hx
  · simp only [Extent.payload, Extent.tagBytes, Extent.stop, Set.mem_union, Word.mem_span]
      at hx htag apart hbounds hbounds'
    omega

/-- The tags of side by side extents lie between the first header and the last footer. -/
theorem tagsOf_subset (h : Tiles a es z) : tagsOf es ⊆ Word.span (a - 8) (z - 8) := by
  intro x member
  obtain ⟨e, he, hx⟩ := member
  have hbounds := h.bounds he
  simp only [Extent.tagBytes, Extent.stop, Set.mem_union, Word.mem_span] at hx hbounds ⊢
  omega

/-- Side by side extents lie in their range. -/
theorem covered_subset (h : Tiles a es z) (he : e ∈ es)
    : e.covered ⊆ Word.span (a - 8) (z - 8) := by
  have hbounds := h.bounds he
  intro x hx
  simp only [Extent.covered, Word.mem_span] at hx ⊢
  omega

/-- A range is covered by the extents in it. -/
theorem span_subset (h : Tiles a es z) (low : 8 ≤ a)
    : ∀ x ∈ Word.span (a - 8) (z - 8), ∃ e ∈ es, x ∈ e.covered := by
  intro x hx
  rw [Word.mem_span] at hx
  obtain ⟨e, he, within⟩ := h.exists_mem (n := x.toNat + 8) (by omega) (by omega)
  refine ⟨e, he, ?_⟩
  rw [Extent.covered, Word.mem_span]
  omega

end Tiles

/-- Where the extents of a range are replaced, no byte beyond the range becomes vacant. -/
theorem vacant_replace (mid : List Extent) {l mid' r : List Extent} {y z : Nat}
    (range' : Tiles y mid' z)
    : vacant (l ++ mid' ++ r) ⊆ vacant (l ++ mid ++ r) ∪ Word.span (y - 8) (z - 8) := by
  intro x member
  obtain ⟨e, he, free, hx⟩ := member
  rcases List.mem_append.mp he with he | he
  · rcases List.mem_append.mp he with he | he
    · exact Or.inl ⟨e, by simp [he], free, hx⟩
    · exact Or.inr (range'.covered_subset he hx)
  · exact Or.inl ⟨e, by simp [he], free, hx⟩

/-- The block of two tags below all others, as an extent. -/
def sentinel (low : Block) : Extent := ⟨low, Heap.prologueSize, true⟩

namespace Pool

/-- Writing tags leaves the head of the list. -/
@[simp]
theorem head_writeTags (p : Pool) (b : Block) (size : Size) (allocated : Bool)
    : (p.writeTags b size allocated).head = p.head := by
  simp only [writeTags]

/-- Writing the tags of a block of a pool is writing them to the memory. -/
theorem memory_writeTags (p : Pool) (b : Block) (size : Size) (allocated : Bool)
    : (p.writeTags b size allocated).memory = b.writeTags p.memory size allocated := by
  simp only [writeTags]

/-- A pool with the tags of some extents written in their order. -/
def tagAll (p : Pool) (es : List Extent) : Pool :=
  es.foldl (fun p e => p.writeTags e.block e.size e.allocated) p

/-- No extents have no tags to write. -/
theorem tagAll_nil (p : Pool) : p.tagAll [] = p := by
  simp only [tagAll, List.foldl_nil]

/-- The tags of the first extent are written first. -/
theorem tagAll_cons (p : Pool) (e : Extent) (rest : List Extent)
    : p.tagAll (e :: rest) = (p.writeTags e.block e.size e.allocated).tagAll rest := by
  simp only [tagAll, List.foldl_cons]

/-- Writing the tags of some extents leaves the head of the list. -/
@[simp]
theorem head_tagAll (p : Pool) (es : List Extent) : (p.tagAll es).head = p.head := by
  induction es generalizing p with
  | nil => rw [tagAll_nil]
  | cons e rest ih => rw [tagAll_cons, ih, head_writeTags]

/-- Writing the tags of some extents touches nothing else, wherever they are. -/
theorem sameOff_tagAll (p : Pool) {es : List Extent} (fits : ∀ e ∈ es, e.Fits)
    : p.memory.SameOff (tagsOf es) (p.tagAll es).memory := by
  induction es generalizing p with
  | nil =>
      rw [tagAll_nil]
      exact .refl _ _
  | cons e rest ih =>
      have first := ((fits e (by simp)).sameOff_writeTags p.memory).mono
        (T := tagsOf (e :: rest)) fun x hx => ⟨e, by simp, hx⟩
      have others := ih (p.writeTags e.block e.size e.allocated)
        fun f hf => fits f (List.mem_cons_of_mem e hf)
      rw [← memory_writeTags] at first
      rw [tagAll_cons]
      exact first.trans (others.mono fun x ⟨f, hf, hx⟩ => ⟨f, List.mem_cons_of_mem e hf, hx⟩)

/-- Tags written side by side are all there: no later ones overwrite earlier ones. -/
theorem tagged_tagAll (p : Pool) {a z : Nat} {es : List Extent} (h : Tiles a es z)
    (low : 8 ≤ a) (high : z ≤ UInt64.size)
    : ∀ e ∈ es, e.Tagged (p.tagAll es).memory := by
  induction es generalizing p a with
  | nil => simp
  | cons e rest ih =>
      have fits := h.fits low high (e := e) (by simp)
      have hbounds := h.bounds (e := e) (by simp)
      obtain ⟨hstart, hroom, tail⟩ := h
      have tail' : 8 ≤ e.stop := by
        simp only [Extent.stop]
        omega
      intro f hf
      rw [tagAll_cons]
      rcases List.mem_cons.mp hf with rfl | hf
      · have first := fits.tagged_writeTags p.memory
        rw [← memory_writeTags] at first
        apply first.sameOff fits (sameOff_tagAll _ fun g hg => tail.fits tail' high hg)
        intro x hx htag
        have beyond := tail.tagsOf_subset hx
        simp only [Extent.tagBytes, Extent.stop, Set.mem_union, Word.mem_span] at htag beyond
        omega
      · exact ih _ tail tail' f hf

/-- The memory of a pool holds the given extents between a low and a top end, and its free list
holds the given blocks, all of them free extents. Free extents need not be listed, and may lie
side by side: between its steps an operation leaves such layouts behind.
-/
structure Laid (p : Pool) (low : Block) (es : List Extent) (top : Block) (xs : List Block)
    : Prop where
  floor : 16 ≤ low.address.toNat
  tiles : Tiles (low.address.toNat + 16) es top.address.toNat
  tagged : ∀ e ∈ es, e.Tagged p.memory
  bottom : (sentinel low).Tagged p.memory
  ceiling : top.tag p.memory = Heap.epilogueTag
  lists : p.Lists xs
  free : ∀ b ∈ xs, ∃ e ∈ es, e.block = b ∧ e.allocated = false

namespace Laid

variable {p q : Pool} {low top : Block} {es l mid mid' r : List Extent}
  {xs xs' : List Block} {e f : Extent} {y z : Nat}

-----------------------------------------------------------------------------------------
-- Where the extents of a layout are
-----------------------------------------------------------------------------------------

/-- The extents of a layout lie between its two ends, and none is too small for a block. -/
theorem bounds (h : p.Laid low es top xs) (he : e ∈ es)
    : low.address.toNat + 16 ≤ e.start ∧ 32 ≤ e.size.toNat ∧ e.stop ≤ top.address.toNat :=
  h.tiles.bounds he

/-- The extents of a layout fit in the address space. -/
theorem fits (h : p.Laid low es top xs) (he : e ∈ es) : e.Fits := by
  have hbounds := h.bounds he
  have hfloor := h.floor
  have htop := top.address.toNat_lt_size
  exact ⟨by omega, by omega, by omega⟩

/-- The block at the low end stops two tags above its payload address. -/
theorem sentinel_stop (low : Block) : (sentinel low).stop = low.address.toNat + 16 := rfl

/-- The block at the low end of a layout fits in the address space. -/
theorem bottom_fits (h : p.Laid low es top xs) : (sentinel low).Fits := by
  have hfloor := h.floor
  have hle := h.tiles.le
  have htop := top.address.toNat_lt_size
  refine ⟨?_, le_rfl, ?_⟩
  · simp only [sentinel, Extent.start]
    omega
  · rw [sentinel_stop]
    omega

/-- The extents of a layout have room for links. -/
theorem hasLinks (h : p.Laid low es top xs) (he : e ∈ es) : e.block.HasLinks :=
  h.tiles.hasLinks (Nat.le_add_left_of_le (by omega)) top.address.toNat_lt_size.le he

/-- An extent of a layout is known by its block. -/
theorem eq_of_block (h : p.Laid low es top xs) (he : e ∈ es) (hf : f ∈ es)
    (hblock : e.block = f.block)
    : e = f :=
  h.tiles.eq_of_block he hf hblock

/-- The links of different extents share no byte. -/
theorem links_apart (h : p.Laid low es top xs) (he : e ∈ es) (hf : f ∈ es)
    (hblock : e.block ≠ f.block)
    : e.block.Apart f.block :=
  h.tiles.links_apart he hf hblock

/-- The links that a block would have lie between its tags. -/
theorem links_subset_payload (h : p.Laid low es top xs) (he : e ∈ es)
    : e.block.links ⊆ e.payload :=
  h.tiles.links_subset_payload he

/-- The payload of one extent holds no tag of another, nor its own. -/
theorem payload_notMem_tagBytes (h : p.Laid low es top xs) (he : e ∈ es) (hf : f ∈ es)
    : ∀ x ∈ e.payload, x ∉ f.tagBytes :=
  h.tiles.payload_notMem_tagBytes (Nat.le_add_left_of_le (by omega)) he hf

/-- The links of a free extent are vacant bytes. -/
theorem links_subset_vacant (h : p.Laid low es top xs) (he : e ∈ es)
    (free : e.allocated = false)
    : e.block.links ⊆ vacant es := by
  intro x hx
  refine ⟨e, he, free, ?_⟩
  have inside := h.links_subset_payload he hx
  simp only [Extent.payload, Extent.covered, Word.mem_span] at inside ⊢
  omega

/-- The links of listed blocks are vacant bytes. -/
theorem linkBytes_subset_vacant (h : p.Laid low es top xs) : linkBytes xs ⊆ vacant es := by
  intro x member
  obtain ⟨b, hb, hx⟩ := member
  obtain ⟨e, he, rfl, free⟩ := h.free b hb
  exact h.links_subset_vacant he free hx

/-- No byte of an allocated extent is vacant. -/
theorem vacant_notMem_covered (h : p.Laid low es top xs) (he : e ∈ es)
    (used : e.allocated = true)
    : ∀ x ∈ vacant es, x ∉ e.covered := by
  intro x member hcovered
  obtain ⟨f, hf, free, hx⟩ := member
  have hbounds := h.bounds he
  have hbounds' := h.bounds hf
  rcases h.tiles.apart he hf with rfl | apart
  · simp [used] at free
  · simp only [Extent.covered, Word.mem_span] at hx hcovered
    omega

/-- Neither new tags nor changes of vacant bytes reach the contents of an allocated extent. -/
theorem readBytes_eq {m m' : Memory} (h : p.Laid low es top xs) (he : e ∈ es)
    (used : e.allocated = true) (hmid : mid ⊆ es)
    (same : m.SameOff (tagsOf mid ∪ vacant es) m') {n : Nat} (room : n + 16 ≤ e.size.toNat)
    : m'.readBytes e.block.address n = m.readBytes e.block.address n := by
  have hbounds := h.bounds he
  have hfloor := h.floor
  have htop := top.address.toNat_lt_size
  simp only [Extent.stop, Extent.start] at hbounds
  apply same.readBytes_eq (by omega)
  intro x hx hread
  have hpayload : x ∈ e.payload := by
    simp only [Extent.payload, Extent.stop, Extent.start, Word.mem_span] at hread ⊢
    omega
  rcases hx with ⟨f, hf, htag⟩ | hvacant
  · exact h.payload_notMem_tagBytes he (hmid hf) x hpayload htag
  · apply h.vacant_notMem_covered he used x hvacant
    simp only [Extent.payload, Extent.covered, Extent.stop, Extent.start, Word.mem_span]
      at hpayload ⊢
    omega

-----------------------------------------------------------------------------------------
-- What a change of memory leaves of a layout
-----------------------------------------------------------------------------------------

/-- The bytes that a change within a range of a layout may touch: the range itself, and the links
of any extent.
-/
def reach (es : List Extent) (y z : Nat) : Set Word :=
  Word.span (y - 8) (z - 8) ∪ linkBytes (es.map (·.block))

/-- A change within a range leaves the tags of the extents on either side alone. -/
theorem tagged_of_sameOff (h : p.Laid low es top xs) (he : e ∈ es)
    (outside : e.stop ≤ y ∨ z ≤ e.start) (same : p.memory.SameOff (reach es y z) q.memory)
    : e.Tagged q.memory := by
  have hbounds := h.bounds he
  apply (h.tagged e he).sameOff (h.fits he) same
  intro x member
  rcases member with hx | ⟨b, hb, hx⟩
  · intro htag
    simp only [Extent.tagBytes, Extent.stop, Set.mem_union, Word.mem_span]
      at hx htag outside hbounds
    omega
  · obtain ⟨f, hf, rfl⟩ := List.mem_map.mp hb
    exact h.payload_notMem_tagBytes hf he x (h.links_subset_payload hf hx)

/-- A change within a range leaves both ends of the layout alone. -/
theorem ends_of_sameOff (h : p.Laid low es top xs) (hy : low.address.toNat + 16 ≤ y)
    (hz : z ≤ top.address.toNat) (same : p.memory.SameOff (reach es y z) q.memory)
    : (sentinel low).Tagged q.memory ∧ top.tag q.memory = Heap.epilogueTag := by
  have hfloor := h.floor
  have hle := h.tiles.le
  constructor
  · apply h.bottom.sameOff h.bottom_fits same
    intro x member htag
    rcases member with hx | ⟨b, hb, hx⟩ <;>
      rw [Extent.tagBytes, sentinel_stop, Set.mem_union, Word.mem_span, Word.mem_span] at htag <;>
      simp only [Extent.start, sentinel] at htag
    · rw [Word.mem_span] at hx
      omega
    · obtain ⟨f, hf, rfl⟩ := List.mem_map.mp hb
      have hbounds := h.bounds hf
      simp only [Block.links, Extent.start, Word.mem_span] at hx hbounds
      omega
  · have header : top.header.toNat = top.address.toNat - 8 := Block.toNat_header (by omega)
    have htop := top.address.toNat_lt_size
    rw [← h.ceiling, Block.tag, Block.tag, same.readWord_eq (by omega)]
    intro x touched member
    rcases touched with hx | ⟨b, hb, hx⟩ <;> rw [header, Word.mem_span] at member
    · rw [Word.mem_span] at hx
      omega
    · obtain ⟨f, hf, rfl⟩ := List.mem_map.mp hb
      have hbounds := h.bounds hf
      simp only [Block.links, Extent.stop, Extent.start, Word.mem_span] at hx hbounds
      omega

/-- The extents of one range of a layout are replaced by others, and the list along with them:
it is enough that the new extents are tagged and the new list is linked.
-/
theorem rework (h : p.Laid low (l ++ mid ++ r) top xs)
    (front : Tiles (low.address.toNat + 16) l y) (range : Tiles y mid z)
    (same : p.memory.SameOff (reach (l ++ mid ++ r) y z) q.memory)
    (range' : Tiles y mid' z) (tagged : ∀ e ∈ mid', e.Tagged q.memory) (lists : q.Lists xs')
    (free : ∀ b ∈ xs', ∃ e ∈ l ++ mid' ++ r, e.block = b ∧ e.allocated = false)
    : q.Laid low (l ++ mid' ++ r) top xs' := by
  have middle : Tiles (low.address.toNat + 16) (l ++ mid) z := tiles_append.mpr ⟨y, front, range⟩
  obtain ⟨z', middle', rear⟩ := tiles_append.mp h.tiles
  obtain rfl := middle.unique middle'
  obtain ⟨bottom, ceiling⟩ := h.ends_of_sameOff front.le rear.le same
  refine ⟨h.floor, ?_, ?_, bottom, ceiling, lists, free⟩
  · exact tiles_append.mpr ⟨z, tiles_append.mpr ⟨y, front, range'⟩, rear⟩
  · intro e he
    rcases List.mem_append.mp he with he | he
    · rcases List.mem_append.mp he with he | he
      · exact h.tagged_of_sameOff (by simp [he]) (Or.inl (front.bounds he).2.2) same
      · exact tagged e he
    · exact h.tagged_of_sameOff (by simp [he]) (Or.inr (rear.bounds he).1) same

/-- The list of a layout is replaced by another, by changing links alone. -/
theorem relist (h : p.Laid low es top xs)
    (same : p.memory.SameOff (linkBytes (es.map (·.block))) q.memory) (lists : q.Lists xs')
    (free : ∀ b ∈ xs', ∃ e ∈ es, e.block = b ∧ e.allocated = false)
    : q.Laid low es top xs' := by
  have whole : p.Laid low (es ++ [] ++ []) top xs := by simpa using h
  have reworked := whole.rework h.tiles rfl (same.mono (by simp [reach]))
    (show Tiles top.address.toNat [] top.address.toNat from rfl) (by simp) lists
    (by simpa using free)
  simpa using reworked

/-- A listed block that is none of a range lies beside it. -/
theorem beside (h : p.Laid low (l ++ mid ++ r) top xs)
    (front : Tiles (low.address.toNat + 16) l y) (range : Tiles y mid z) {b : Block}
    (hb : b ∈ xs) (elsewhere : ∀ e ∈ mid, e.block ≠ b)
    : (∃ e ∈ l ++ r, e.block = b ∧ e.allocated = false)
      ∧ (b.address.toNat + 32 ≤ y ∨ z ≤ b.address.toNat) := by
  have middle : Tiles (low.address.toNat + 16) (l ++ mid) z := tiles_append.mpr ⟨y, front, range⟩
  obtain ⟨z', middle', rear⟩ := tiles_append.mp h.tiles
  obtain rfl := middle.unique middle'
  obtain ⟨e, he, rfl, free⟩ := h.free b hb
  have hmid : e ∉ mid := fun hmid => elsewhere e hmid rfl
  refine ⟨⟨e, by simpa [hmid] using he, rfl, free⟩, ?_⟩
  rcases List.mem_append.mp he with he | he
  · rcases List.mem_append.mp he with he | he
    · have hbounds := front.bounds he
      simp only [Extent.stop, Extent.start] at hbounds
      omega
    · exact absurd he hmid
  · exact Or.inr (rear.bounds he).1

/-- No block inside an unlisted range is listed. -/
theorem fresh_of_within (h : p.Laid low (l ++ mid ++ r) top xs)
    (front : Tiles (low.address.toNat + 16) l y) (range : Tiles y mid z)
    (unlisted : ∀ e ∈ mid, e.block ∉ xs) {b : Block} (above : y ≤ b.address.toNat)
    (below : b.address.toNat < z)
    : b ∉ xs := by
  intro hb
  have beside := (h.beside front range hb fun e he hblock => unlisted e he (hblock ▸ hb)).2
  omega

/-- The extents of one range of a layout, none of them listed, are replaced by others: it is
enough to stay within the range and to tag the new extents.
-/
theorem retile (h : p.Laid low (l ++ mid ++ r) top xs)
    (front : Tiles (low.address.toNat + 16) l y) (range : Tiles y mid z)
    (unlisted : ∀ e ∈ mid, e.block ∉ xs) (head : q.head = p.head)
    (same : p.memory.SameOff (Word.span (y - 8) (z - 8)) q.memory)
    (range' : Tiles y mid' z) (tagged : ∀ e ∈ mid', e.Tagged q.memory)
    : q.Laid low (l ++ mid' ++ r) top xs := by
  have beside : ∀ b ∈ xs, (∃ e ∈ l ++ r, e.block = b ∧ e.allocated = false)
      ∧ (b.address.toNat + 32 ≤ y ∨ z ≤ b.address.toNat) :=
    fun b hb => h.beside front range hb fun e he hblock => unlisted e he (hblock ▸ hb)
  apply h.rework front range (same.mono Set.subset_union_left) range' tagged
  · apply h.lists.sameOff head same
    intro b hb x hx hlink
    have outside := (beside b hb).2
    simp only [Block.links, Word.mem_span] at hx hlink
    omega
  · intro b hb
    obtain ⟨⟨e, he, rest⟩, -⟩ := beside b hb
    refine ⟨e, ?_, rest⟩
    rcases List.mem_append.mp he with he | he <;> simp [he]

/-- Writing the tags of new extents over an unlisted range replaces the old extents there. The
bytes of the range may have changed before.
-/
theorem retag (h : p.Laid low (l ++ mid ++ r) top xs)
    (front : Tiles (low.address.toNat + 16) l y) (range : Tiles y mid z)
    (unlisted : ∀ e ∈ mid, e.block ∉ xs) (head : q.head = p.head)
    (same : p.memory.SameOff (Word.span (y - 8) (z - 8)) q.memory) (range' : Tiles y mid' z)
    : (q.tagAll mid').Laid low (l ++ mid' ++ r) top xs := by
  have hfloor := h.floor
  have hfront := front.le
  have hrear : z ≤ top.address.toNat := by
    obtain ⟨z', middle, rear⟩ := tiles_append.mp h.tiles
    obtain rfl := (tiles_append.mpr ⟨y, front, range⟩ : Tiles _ (l ++ mid) z).unique middle
    exact rear.le
  have htop := top.address.toNat_lt_size
  have fits : ∀ e ∈ mid', e.Fits := fun e he => range'.fits (by omega) (by omega) he
  apply h.retile front range unlisted ((head_tagAll q mid').trans head) _ range'
  · exact q.tagged_tagAll range' (by omega) (by omega)
  · exact same.trans ((sameOff_tagAll q fits).mono range'.tagsOf_subset)

-----------------------------------------------------------------------------------------
-- The free list of a layout
-----------------------------------------------------------------------------------------

/-- Listing an unlisted free extent puts it in front of the list. -/
theorem insert (h : p.Laid low es top xs) (he : e ∈ es) (free : e.allocated = false)
    (unlisted : e.block ∉ xs)
    : (p.insert e.block).Laid low es top (e.block :: xs) := by
  have members : xs ⊆ es.map (·.block) := by
    intro b hb
    obtain ⟨f, hf, rfl, -⟩ := h.free b hb
    exact List.mem_map_of_mem hf
  have first : e.block :: xs.head?.toList ⊆ es.map (·.block) := by
    refine List.cons_subset.mpr ⟨List.mem_map_of_mem he, ?_⟩
    exact fun c hc => members (List.mem_of_head? (Option.mem_toList.mp hc))
  apply h.relist ((h.lists.sameOff_insert (h.hasLinks he)).mono (linkBytes_mono first))
  · apply h.lists.insert (h.hasLinks he)
    intro c hc
    obtain ⟨f, hf, rfl, -⟩ := h.free c hc
    exact h.links_apart he hf fun same => unlisted (same ▸ hc)
  · exact List.forall_mem_cons.mpr ⟨⟨e, he, rfl, free⟩, h.free⟩

/-- Listing a free extent touches vacant bytes only. -/
theorem sameOff_insert (h : p.Laid low es top xs) (he : e ∈ es) (free : e.allocated = false)
    : p.memory.SameOff (vacant es) (p.insert e.block).memory := by
  apply (h.lists.sameOff_insert (h.hasLinks he)).mono
  intro x member
  obtain ⟨b, hb, hx⟩ := member
  rcases List.mem_cons.mp hb with rfl | hb
  · exact h.links_subset_vacant he free hx
  · exact h.linkBytes_subset_vacant ⟨b, List.mem_of_head? (Option.mem_toList.mp hb), hx⟩

/-- Taking a member out of the list leaves its extent where it is. -/
theorem remove (h : p.Laid low es top xs) {b : Block} (hb : b ∈ xs)
    : (p.remove b).Laid low es top (xs.erase b) := by
  obtain ⟨ys, zs, rfl⟩ := List.append_of_mem hb
  rw [h.lists.erase_member.2]
  have others : ys ++ zs ⊆ ys ++ b :: zs :=
    List.Sublist.subset (by simp)
  apply h.relist _ h.lists.remove fun c hc => h.free c (others hc)
  apply h.lists.sameOff_remove.mono
  intro x member
  obtain ⟨c, hc, hx⟩ := member
  obtain ⟨f, hf, rfl, -⟩ := h.free c (others (around_subset ys zs hc))
  exact ⟨f.block, List.mem_map_of_mem hf, hx⟩

/-- Taking a member out of the list touches vacant bytes only. -/
theorem sameOff_remove (h : p.Laid low es top xs) {b : Block} (hb : b ∈ xs)
    : p.memory.SameOff (vacant es) (p.remove b).memory := by
  obtain ⟨ys, zs, rfl⟩ := List.append_of_mem hb
  have others : ys ++ zs ⊆ ys ++ b :: zs :=
    List.Sublist.subset (by simp)
  apply h.lists.sameOff_remove.mono
  intro x member
  obtain ⟨c, hc, hx⟩ := member
  exact h.linkBytes_subset_vacant ⟨c, others (around_subset ys zs hc), hx⟩

end Laid

end Pool

end BoundaryTag
