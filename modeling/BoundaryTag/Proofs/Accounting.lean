import Mathlib.Algebra.BigOperators.Group.List.Basic
import Mathlib.Algebra.GroupWithZero.Nat
import BoundaryTag.Proofs.Clearing

/-! Where the bytes of a heap are. The two walks over it, by address and along the free list, come
to the same figures: the blocks fill the heap up between its ends, each of them is a client's or
free, and not two free ones touch. Whatever clients ask for, the heap grows by one increment at a
time and never shrinks, so that its size is known from the requests for which it has grown.
-/

namespace BoundaryTag

-----------------------------------------------------------------------------------------
-- The bytes of some extents
-----------------------------------------------------------------------------------------

/-- The number of bytes in some extents. -/
def bytesIn (es : List Extent) : Nat := (es.map (·.size.toNat)).sum

section

variable {es : List Extent} {a z : Nat}

/-- Extents side by side fill their range up. -/
theorem Tiles.bytesIn_eq (h : Tiles a es z) : a + bytesIn es = z := by
  induction es generalizing a with
  | nil => exact h
  | cons e rest ih =>
      obtain ⟨rfl, -, tail⟩ := h
      have beyond := ih tail
      simp only [bytesIn, List.map_cons, List.sum_cons, Extent.stop] at beyond ⊢
      omega

/-- Every extent is counted as allocated or as free. -/
theorem bytesIn_filter (es : List Extent)
    : bytesIn (es.filter (·.allocated)) + bytesIn (es.filter fun e => !e.allocated)
      = bytesIn es := by
  have parts := (List.filter_append_perm (fun e : Extent => e.allocated) es).map (·.size.toNat)
  simpa [bytesIn] using parts.sum_eq

/-- Sizes are added to others without wrapping where all of their bytes fit, by induction on the
extents from any partial total on.
-/
theorem Heap.toNat_foldl_size {total : Size} (fits : total.toNat + bytesIn es < UInt64.size)
    : (es.foldl (fun total e => total + e.size) total).toNat = total.toNat + bytesIn es := by
  induction es generalizing total with
  | nil => rfl
  | cons e rest ih =>
      simp only [bytesIn, List.map_cons, List.sum_cons] at fits ih ⊢
      have sum : (total + e.size).toNat = total.toNat + e.size.toNat :=
        Size.toNat_add_of_lt (by omega)
      rw [List.foldl_cons, ih (by omega), sum, Nat.add_assoc]

/-- The total size is the number of bytes in the extents, as long as a word can count them. -/
theorem Heap.toNat_totalSize (fits : bytesIn es < UInt64.size)
    : (totalSize es).toNat = bytesIn es := by
  rw [totalSize, toNat_foldl_size (by simpa using fits), Size.toNat_zero, Nat.zero_add]

/-- Between free extents lie allocated ones, so there is at most one free extent more, and not
even that if the first extent is allocated.
-/
theorem Alternating.length_gaps_le (h : Alternating es)
    : (gaps es).length ≤ (users es).length + 1
      ∧ ((∀ e ∈ es.head?, e.allocated = true) → (gaps es).length ≤ (users es).length) := by
  induction es with
  | nil => simp
  | cons e rest ih =>
      obtain ⟨touching, apart⟩ := alternating_cons.mp h
      obtain ⟨fewer, least⟩ := ih apart
      rw [gaps_cons, users_cons]
      cases used : e.allocated with
      | true =>
          simp only [if_true, List.length_cons]
          omega
      | false =>
          have next := least fun f hf => (touching f hf).resolve_left (by simp [used])
          simp only [Bool.false_eq_true, if_false, List.length_cons]
          exact ⟨by omega, fun first => absurd (first e rfl) (by simp [used])⟩

end

-----------------------------------------------------------------------------------------
-- The figures of a heap in order
-----------------------------------------------------------------------------------------

namespace Heap

/-- The figures of a walk are counts and sums over its extents by their flag. -/
theorem usage_eq_filter (h : Heap)
    : h.usage = {
        heapSize := h.region.used
        allocatedBlocks := (h.blocks.filter (·.allocated)).length
        allocatedBytes := totalSize (h.blocks.filter (·.allocated))
        freeBlocks := (h.blocks.filter fun e => !e.allocated).length
        freeBytes := totalSize (h.blocks.filter fun e => !e.allocated) } := by
  rw [usage, List.partition_eq_filter_filter]
  rfl

/-- The heap size among the figures is what the region has handed out. -/
theorem heapSize_usage (h : Heap) : h.usage.heapSize = h.region.used := by
  rw [usage_eq_filter]

namespace InOrder

variable {h : Heap} {es : List Extent} {xs : List Block}

/-- The bytes of the blocks are those from the low end of the heap up to its high end. -/
theorem bytesIn_blocks (ord : h.InOrder es xs)
    : h.prologue.address.toNat + 16 + bytesIn h.blocks
      = h.region.start.toNat + h.region.used.toNat := by
  have filled := ord.settled.tiles.bytesIn_eq
  rw [ord.blocks_eq, filled, ord.sane.toNat_frontier]

/-- The sums over the blocks do not wrap, and those over the free ones are sums along the list. -/
theorem usage_eq (ord : h.InOrder es xs)
    : h.usage.allocatedBytes.toNat = bytesIn (h.blocks.filter (·.allocated))
      ∧ h.usage.freeBytes.toNat = bytesIn h.freeBlocks
      ∧ h.usage.allocatedBytes.toNat + h.usage.freeBytes.toNat = bytesIn h.blocks
      ∧ h.usage.freeBlocks = h.freeBlocks.length := by
  have filled := ord.bytesIn_blocks
  have limit := ord.sane.limit
  have within := ord.sane.within
  have parts := bytesIn_filter h.blocks
  have listed := ord.freeBlocks_perm
  rw [← ord.blocks_eq] at listed
  have amount : bytesIn h.freeBlocks = bytesIn (h.blocks.filter fun e => !e.allocated) := by
    rw [bytesIn, bytesIn, (listed.map _).sum_eq]
  have used : (totalSize (h.blocks.filter (·.allocated))).toNat
      = bytesIn (h.blocks.filter (·.allocated)) :=
    toNat_totalSize (by omega)
  have free : (totalSize (h.blocks.filter fun e => !e.allocated)).toNat
      = bytesIn (h.blocks.filter fun e => !e.allocated) :=
    toNat_totalSize (by omega)
  rw [usage_eq_filter]
  dsimp only
  rw [used, free, amount]
  exact ⟨rfl, rfl, parts, listed.length_eq.symm⟩

end InOrder

-----------------------------------------------------------------------------------------
-- What a heap takes from its region
-----------------------------------------------------------------------------------------

/-- Serving a size, if there is one, leaves the region alone, or takes what the heap grows by. -/
def Takes (h : Heap) (wanted? : Option Size) (h' : Heap) : Prop :=
  h'.region = h.region
  ∨ ∃ wanted ∈ wanted?, (h.increment wanted).word ≤ h.region.available
      ∧ h'.region = h.region.advance (h.increment wanted).word

section

variable {h h' k : Heap} {wanted : Size} {wanted? : Option Size}

/-- It depends on nothing but the region what was taken. -/
theorem Takes.of_region (takes : h.Takes wanted? h') (same : k.region = h'.region)
    : h.Takes wanted? k := by
  rwa [Takes, same]

/-- Serving a size takes at most what the heap grows by. -/
theorem takes_serve (h : Heap) (wanted : Size) : h.Takes (some wanted) (h.serve wanted).2 := by
  cases fit : h.firstFit? wanted.word with
  | some b =>
      left
      simp only [serve_eq_of_fit fit, withPool]
  | none =>
      by_cases short : h.region.available < (h.increment wanted).word
      · left
        simp only [serve_eq_of_short fit short, note]
      · have enough := UInt64.not_lt.mp short
        refine Or.inr ⟨wanted, rfl, enough, ?_⟩
        simp only [serve_eq_of_growth fit enough, withPool, region_grown]

/-- So does allocating, for the size of the request. -/
theorem takes_allocate (h : Heap) (bytes : Word)
    : h.Takes (Size.forRequest? bytes) (h.allocate bytes).2 := by
  by_cases zero : bytes = 0
  · simp only [allocate, zero, if_true]
    exact Or.inl rfl
  · cases request : Size.forRequest? bytes with
    | none =>
        simp only [allocate, zero, if_false, request]
        exact Or.inl rfl
    | some wanted =>
        rw [allocate_of_some zero request]
        exact h.takes_serve wanted

/-- Clearing a block takes nothing beyond the request. -/
theorem takes_allocateZeroed (h : Heap) (count size : Word)
    : h.Takes (Request.allocateZeroed count size).wanted? (h.allocateZeroed count size).2 := by
  by_cases small : count.toNat * size.toNat ≤ UInt64.size - 32
  · have fits := Word.product_lt small
    rw [Request.wanted?_allocateZeroed fits]
    exact (h.takes_allocate _).of_region (region_allocateZeroed fits)
  · rw [allocateZeroed_of_large (Nat.not_le.mp small)]
    exact Or.inl rfl

/-- Moving a block away takes at most what the heap grows by for the new one. -/
theorem takes_moveAway (h : Heap) (b : Block) (wanted : Size) (kept : Word)
    : h.Takes (some wanted) (h.moveAway b wanted kept).2 := by
  have takes := h.takes_serve wanted
  obtain ⟨result, h', served⟩ : ∃ result h', h.serve wanted = (result, h') := ⟨_, _, rfl⟩
  rw [served] at takes
  simp only [moveAway, served]
  cases result with
  | error e => exact takes
  | ok target => exact takes.of_region (region_free _ b)

/-- Carrying out a plan takes at most as much: no plan but moving away takes anything. -/
theorem takes_carryOut (h : Heap) (plan : Plan) (b : Block) (wanted : Size) (kept : Word)
    : h.Takes (some wanted) (h.carryOut plan b wanted kept).2 := by
  cases plan with
  | moveAway => exact h.takes_moveAway b wanted kept
  | stay | growDown below | growUp above | growBothWays below above =>
      left
      simp only [carryOut, withPool]

/-- Resizing takes at most what the heap grows by for the size of the request. -/
theorem takes_resize (h : Heap) (b? : Option Block) (bytes : Word)
    : h.Takes (Size.forRequest? bytes) (h.resize b? bytes).2 := by
  cases b? with
  | none => exact h.takes_allocate bytes
  | some b =>
      by_cases zero : bytes = 0
      · simp only [resize, zero, if_true]
        exact Or.inl (h.region_free b)
      · cases request : Size.forRequest? bytes with
        | none =>
            rw [resize_of_none zero request]
            exact Or.inl rfl
        | some wanted =>
            rw [resize_of_some zero request]
            exact (h.note _).takes_carryOut _ b wanted _

/-- No request takes more than one increment. -/
theorem takes_answer (h : Heap) (r : Request) : h.Takes r.wanted? (r.answer h).2 := by
  cases r with
  | allocate bytes =>
      rw [Request.wanted?_eq (n := bytes) rfl]
      exact h.takes_allocate bytes
  | allocateZeroed count size => exact h.takes_allocateZeroed count size
  | free b => exact Or.inl (h.region_free b)
  | resize b? bytes =>
      rw [Request.wanted?_eq (n := bytes) rfl]
      exact h.takes_resize b? bytes
  | write b offset bytes => exact Or.inl rfl

end

end Heap

-----------------------------------------------------------------------------------------
-- Sessions
-----------------------------------------------------------------------------------------

/-- The size of the block that serves a request, as a number. -/
def Request.demand (r : Request) : Nat := r.wanted?.elim 0 (·.toNat)

namespace Session

/-- Those of some requests for which the heap grows. -/
def growers (s : Session) : List Request → List Request
  | [] => []
  | r :: rs =>
    if (s.next r).heap.region = s.heap.region then
      (s.next r).growers rs
    else
      r :: (s.next r).growers rs

/-- The figures of a session's heap, given the number of bytes that its region had handed out before
the heap was set up.
-/
structure Balanced (s : Session) (before : Nat) : Prop where
  /-- The walk over the blocks ends by itself. -/
  visits : Visits s.heap.memory (s.heap.prologue.above s.heap.memory) s.heap.blocks
  /-- So does the walk over the free blocks, which are linked to one another in both directions. -/
  lists : s.heap.Lists s.heap.members
  /-- The size of the heap is what its region has handed out. -/
  heapSize : s.heap.usage.heapSize = s.heap.region.used
  /-- No more is handed out than there is. -/
  within : s.heap.usage.heapSize.toNat ≤ s.heap.region.capacity.toNat
  /-- The sizes of the allocated blocks add up without wrapping. -/
  allocatedBytes : s.heap.usage.allocatedBytes.toNat = bytesIn (s.heap.blocks.filter (·.allocated))
  /-- So do those of the free ones, which come to the same along the free list. -/
  freeBytes : s.heap.usage.freeBytes.toNat = bytesIn s.heap.freeBlocks
  /-- Every byte of the heap is a client's, free, at an end of the heap, or from before. -/
  total : s.heap.usage.allocatedBytes.toNat + s.heap.usage.freeBytes.toNat + 32 + before
    = s.heap.usage.heapSize.toNat
  /-- The allocated blocks are those that clients hold. -/
  allocatedBlocks : s.heap.usage.allocatedBlocks = s.live.length
  /-- The free blocks are those on the list. -/
  freeBlocks : s.heap.usage.freeBlocks = s.heap.freeBlocks.length
  /-- There is at most one free block more than there are allocated ones. -/
  sparse : s.heap.usage.freeBlocks ≤ s.heap.usage.allocatedBlocks + 1

section

variable {s : Session} {base : Nat} {es : List Extent} {xs : List Block} {r : Request}
  {rs : List Request}

/-- The figures of a coherent session are balanced. -/
theorem Coherent.balanced (h : s.Coherent base es xs) {before : Nat}
    (start : base = s.heap.region.start.toNat + before)
    : s.Balanced before := by
  have low := h.low
  have filled := h.order.bytesIn_blocks
  obtain ⟨allocated, free, both, listed⟩ := h.order.usage_eq
  have held : s.heap.usage.allocatedBlocks = s.live.length := by
    rw [Heap.usage_eq_filter, h.live.length_eq, users, h.order.blocks_eq, List.length_map]
  have whole := s.heap.heapSize_usage
  refine ⟨?_, ?_, whole, ?_, allocated, free, ?_, held, listed, ?_⟩
  · rw [h.order.blocks_eq]
    exact h.order.visits
  · rw [h.order.members_eq]
    exact h.order.settled.lists
  · rw [whole]
    exact h.order.sane.within
  · rw [both, whole]
    omega
  · have fewer := h.order.settled.alternating.length_gaps_le.1
    rw [held, h.live.length_eq, listed, h.order.freeBlocks_perm.length_eq]
    simpa [gaps] using fewer

/-- A request for which the heap grows makes it larger by the block for it, or by a chunk. -/
theorem Coherent.used_next (h : s.Coherent base es xs)
    (grows : (s.next r).heap.region ≠ s.heap.region)
    : (∃ wanted, r.wanted? = some wanted)
      ∧ (s.next r).heap.region.used.toNat
        = s.heap.region.used.toNat + max r.demand s.heap.settings.chunkSize.toNat := by
  rcases s.heap.takes_answer r with same | ⟨wanted, request, enough, further⟩
  · exact absurd same grows
  · have amount : (s.heap.increment wanted).toNat
        = max r.demand s.heap.settings.chunkSize.toNat := by
      rw [Heap.increment, Size.toNat_max, Request.demand, request]
      rfl
    have moved := h.order.sane.toNat_used_advance enough
    rw [← further, ← Size.toNat, amount] at moved
    exact ⟨⟨wanted, request⟩, moved⟩

/-- The heap of a legal run grows by what the requests demand for which it grows, by induction over
the requests.
-/
theorem Coherent.used_run (h : s.Coherent base es xs) (legal : s.Legal rs)
    : (∀ r ∈ s.growers rs, ∃ wanted, r.wanted? = some wanted)
      ∧ (s.run rs).heap.region.used.toNat
        = s.heap.region.used.toNat
          + ((s.growers rs).map fun r => max r.demand s.heap.settings.chunkSize.toNat).sum := by
  induction rs generalizing s es xs with
  | nil => simp [growers, Session.run]
  | cons r rest ih =>
      obtain ⟨es', xs', taken⟩ := h.next legal.1
      obtain ⟨demanding, total⟩ := ih (taken.coherent h) legal.2
      rw [taken.settings] at total
      by_cases same : (s.next r).heap.region = s.heap.region
      · rw [growers, if_pos same]
        rw [same] at total
        exact ⟨demanding, total⟩
      · obtain ⟨request, further⟩ := h.used_next same
        rw [growers, if_neg same]
        refine ⟨List.forall_mem_cons.mpr ⟨request, demanding⟩, ?_⟩
        rw [Session.run, total, further, List.map_cons, List.sum_cons, Nat.add_assoc]

end

variable {chunk : Word} {region : Region} {memory : Memory} {rs : List Request}

/-- In every heap that a session leads to, both walks end, and their figures are balanced: no byte
is lost or counted twice. And the heap is as large as it was when it was set up, with its ends and
one chunk, and by the block or the chunk larger for each request that it has grown for.
-/
theorem balanced_of_legal (begins : Begins chunk region memory)
    (legal : (start chunk region memory).Legal rs)
    : let first := start chunk region memory
      let chunkSize := (Settings.ofChunkSize chunk).chunkSize.toNat
      (first.run rs).Balanced region.used.toNat
      ∧ (∀ r ∈ first.growers rs, ∃ wanted, r.wanted? = some wanted)
      ∧ (first.run rs).heap.usage.heapSize.toNat
        = region.used.toNat + 32 + chunkSize
          + ((first.growers rs).map fun r => max r.demand chunkSize).sum := by
  intro first chunkSize
  obtain ⟨es₀, xs₀, coherent₀⟩ := begins.coherent
  obtain ⟨es, xs, coherent⟩ := coherent₀.run legal
  have room := Settings.toNat_ofChunkSize begins.chunk_le
  have settings : first.heap.settings = .ofChunkSize chunk :=
    (Heap.inOrder_create begins.sane room begins.created).2.2
  have ends : first.heap.region.used.toNat = region.used.toNat + 32 + chunkSize :=
    Heap.used_create begins.sane begins.created
  have place : (first.run rs).heap.region.start = region.start := by
    rw [(coherent₀.region_run legal).1, start]
    simp only [Heap.region_create begins.created, Region.advance]
  obtain ⟨demanding, total⟩ := coherent₀.used_run legal
  rw [ends, settings] at total
  refine ⟨coherent.balanced ?_, demanding, ?_⟩
  · rw [place, begins.sane.toNat_frontier]
  · rw [Heap.heapSize_usage]
    exact total

/-- Of some further requests after the sample session, the first needs the heap to grow. -/
theorem balanced_sample
    : let first := start 256 sampleRegion sampleMemory
      let rs := sampleRequests ++ [.allocate 500, .free ⟨4152⟩, .allocate 16]
      Begins 256 sampleRegion sampleMemory
      ∧ first.Legal rs
      ∧ first.growers rs = [.allocate 500]
      ∧ (first.run rs).Balanced 24
      ∧ (first.run rs).heap.usage.heapSize.toNat = 24 + 32 + 256 + 528 := by
  intro first rs
  have figures : first.Legal rs ∧ first.growers rs = [.allocate 500] := by
    decide +kernel
  obtain ⟨legal, grower⟩ := figures
  obtain ⟨balanced, -, size⟩ := balanced_of_legal begins_sample legal
  rw [grower] at size
  exact ⟨begins_sample, legal, grower, balanced, size⟩

end Session

end BoundaryTag
