import BoundaryTag.Heap.Allocation
import BoundaryTag.Proofs.Growth

/-! Allocating and freeing as steps from one heap in order to the next. A step says which allocated
extents it may give up; all others stay where they are, and no byte of theirs changes.
-/

namespace BoundaryTag

-----------------------------------------------------------------------------------------
-- Sizes for requests
-----------------------------------------------------------------------------------------

namespace Size

/-- There is a size for every request but the very largest. -/
theorem forRequest?_eq_none_iff {n : Word}
    : forRequest? n = none ↔ UInt64.size - 32 < n.toNat := by
  by_cases fits : n.toNat + 31 < UInt64.size
  · rw [(forRequest?_of_fits fits).2]
    simp only [UInt64.size, reduceCtorEq, false_iff] at fits ⊢
    omega
  · rw [forRequest?_of_not_fits fits]
    simp only [UInt64.size, true_iff] at fits ⊢
    omega

/-- Every other request has a size. -/
theorem exists_forRequest? {n : Word} (small : n.toNat ≤ UInt64.size - 32)
    : ∃ wanted, forRequest? n = some wanted := by
  rw [← Option.ne_none_iff_exists', ne_eq, forRequest?_eq_none_iff]
  exact Nat.not_lt.mpr small

/-- A request that has a size is not one of the very largest. -/
theorem le_of_forRequest? {n : Word} {wanted : Size} (h : forRequest? n = some wanted)
    : n.toNat ≤ UInt64.size - 32 := by
  by_contra large
  rw [forRequest?_eq_none_iff.mpr (Nat.lt_of_not_le large)] at h
  cases h

/-- The size for a request is the least multiple of the alignment that has room for it and for both
tags, but not less than that of the smallest block.
-/
theorem toNat_of_forRequest? {n : Word} {wanted : Size} (h : forRequest? n = some wanted)
    : wanted.toNat = max 32 ((n.toNat + 31) / 16 * 16) := by
  have number := map_toNat_forRequest? n
  rw [h, Option.map_some] at number
  split at number
  · have same := Option.some.inj number
    omega
  · cases number

/-- The size for a request has room for it, for both tags and for the links of a free block. -/
theorem room_of_forRequest? {n : Word} {wanted : Size} (h : forRequest? n = some wanted)
    : 32 ≤ wanted.toNat ∧ n.toNat + 16 ≤ wanted.toNat := by
  have number := toNat_of_forRequest? h
  omega

end Size

-----------------------------------------------------------------------------------------
-- Steps between heaps in order
-----------------------------------------------------------------------------------------

namespace Heap

/-- The bytes that a step may change: they lie above the low end of the heap and below the new
frontier, and outside all allocated extents that the step does not give up.
-/
def openTo (h : Heap) (es : List Extent) (gone : List Block) (h' : Heap) : Set Word :=
  {x | h.prologue.address.toNat + 8 ≤ x.toNat ∧ x.toNat < h'.region.frontier.toNat
    ∧ ∀ e ∈ es, e.allocated = true → e.block ∉ gone → x ∉ e.covered}

/-- A heap becomes another by a step that gives up the given blocks at most. -/
structure Advances (h : Heap) (es : List Extent) (gone : List Block) (h' : Heap)
    (es' : List Extent)
    : Prop where
  prologue : h'.prologue = h.prologue
  settings : h'.settings = h.settings
  start : h'.region.start = h.region.start
  capacity : h'.region.capacity = h.region.capacity
  frontier : h.region.frontier.toNat ≤ h'.region.frontier.toNat
  kept : ∀ e ∈ es, e.allocated = true → e.block ∉ gone → e ∈ es'
  frame : h.memory.SameOff (h.openTo es gone h') h'.memory

namespace Advances

variable {h h' h'' : Heap} {es es' es'' : List Extent} {gone gone' : List Block}

/-- Two steps make one that gives up what either does. -/
theorem trans (first : h.Advances es gone h' es') (second : h'.Advances es' gone' h'' es'')
    : h.Advances es (gone ++ gone') h'' es'' where
  prologue := second.prologue.trans first.prologue
  settings := second.settings.trans first.settings
  start := second.start.trans first.start
  capacity := second.capacity.trans first.capacity
  frontier := first.frontier.trans second.frontier
  kept := by
    intro e he used hgone
    rw [List.mem_append, not_or] at hgone
    exact second.kept e (first.kept e he used hgone.1) used hgone.2
  frame := by
    have hfrontier := second.frontier
    apply (first.frame.mono ?_).trans (second.frame.mono ?_)
    · intro x member
      obtain ⟨low, high, outside⟩ := member
      refine ⟨low, by omega, fun e he used hgone => outside e he used fun hmem => ?_⟩
      exact hgone (List.mem_append_left _ hmem)
    · intro x member
      obtain ⟨low, high, outside⟩ := member
      rw [first.prologue] at low
      refine ⟨low, high, fun e he used hgone => ?_⟩
      rw [List.mem_append, not_or] at hgone
      exact outside e (first.kept e he used hgone.1) used hgone.2

/-- Standing still is a step. -/
theorem refl (h : Heap) (es : List Extent) (gone : List Block) : h.Advances es gone h es :=
  ⟨rfl, rfl, rfl, rfl, le_rfl, fun _ he _ _ => he, .refl _ _⟩

/-- A note in the journal is a step that changes nothing else. -/
theorem note (h : Heap) (es : List Extent) (gone : List Block) (event : Event)
    : h.Advances es gone (h.note event) es :=
  ⟨rfl, rfl, rfl, rfl, le_rfl, fun _ he _ _ => he, .refl _ _⟩

/-- It does not matter which blocks are given up that no allocated extent has. -/
theorem narrow (step : h.Advances es gone h' es')
    (stays : ∀ e ∈ es, e.allocated = true → e.block ∈ gone → e.block ∈ gone')
    : h.Advances es gone' h' es' where
  prologue := step.prologue
  settings := step.settings
  start := step.start
  capacity := step.capacity
  frontier := step.frontier
  kept := fun e he used hgone => step.kept e he used fun hmem => hgone (stays e he used hmem)
  frame := by
    apply step.frame.mono
    intro x member
    obtain ⟨low, high, outside⟩ := member
    exact ⟨low, high, fun e he used hgone =>
      outside e he used fun hmem => hgone (stays e he used hmem)⟩

end Advances

namespace InOrder

variable {h h' : Heap} {es : List Extent} {xs : List Block} {gone : List Block} {s : Site}
  {e : Extent}

/-- The extents of a heap in order lie between its two ends, and none is too small for a block. -/
theorem bounds (ord : h.InOrder es xs) (he : e ∈ es)
    : h.prologue.address.toNat + 16 ≤ e.start ∧ 32 ≤ e.size.toNat
      ∧ e.stop ≤ h.region.frontier.toNat :=
  ord.settled.bounds he

/-- A run of bytes at the start of an extent lies between its tags if there is room for a tag behind
it.
-/
theorem span_subset_payload (ord : h.InOrder es xs) (he : e ∈ es) {n : Nat}
    (room : n + 16 ≤ e.size.toNat)
    : e.block.address.toNat + n ≤ UInt64.size
      ∧ Word.span e.block.address.toNat (e.block.address.toNat + n) ⊆ e.payload := by
  have hbounds := ord.bounds he
  have limit := h.region.frontier.toNat_lt_size
  simp only [Extent.stop, Extent.start] at hbounds
  refine ⟨by omega, fun x hx => ?_⟩
  simp only [Extent.payload, Extent.stop, Extent.start, Word.mem_span] at hx ⊢
  omega

/-- Vacant bytes are open to every step. -/
theorem vacant_subset (ord : h.InOrder es xs)
    (frontier : h.region.frontier.toNat ≤ h'.region.frontier.toNat)
    : vacant es ⊆ h.openTo es gone h' := by
  intro x member
  obtain ⟨f, hf, free, hx⟩ := member
  have hbounds := ord.bounds hf
  simp only [Extent.covered, Word.mem_span] at hx
  refine ⟨by omega, by omega, fun e he used _ => ?_⟩
  refine ord.settled.vacant_notMem_covered he used x ⟨f, hf, free, ?_⟩
  simpa only [Extent.covered, Word.mem_span] using hx

/-- The bytes of an extent are open to the steps that give it up. -/
theorem covered_subset (ord : h.InOrder es xs) (he : e ∈ es) (given : e.block ∈ gone)
    (frontier : h.region.frontier.toNat ≤ h'.region.frontier.toNat)
    : e.covered ⊆ h.openTo es gone h' := by
  intro x hx
  have hbounds := ord.bounds he
  simp only [Extent.covered, Word.mem_span] at hx
  refine ⟨by omega, by omega, fun f hf used hgone hcovered => ?_⟩
  have hbounds' := ord.bounds hf
  rcases ord.settled.tiles.apart he hf with rfl | apart
  · exact hgone given
  · simp only [Extent.covered, Word.mem_span] at hcovered
    omega

/-- The bytes from the old end of the heap up are open to every step. -/
theorem above_subset (ord : h.InOrder es xs)
    : Word.span (h.region.frontier.toNat - 8) h'.region.frontier.toNat
      ⊆ h.openTo es gone h' := by
  intro x hx
  have hfloor := ord.settled.floor
  have hle := ord.settled.tiles.le
  simp only at hle
  rw [Word.mem_span] at hx
  refine ⟨by omega, by omega, fun e he _ _ hcovered => ?_⟩
  have hbounds := ord.bounds he
  simp only [Extent.covered, Word.mem_span] at hcovered
  omega

/-- Rewriting the middle of a site is a step that gives up the extent in it at most. -/
theorem advances (ord : h.InOrder s.extents xs) (hs : s.Flanked) {p : Pool}
    (same : h.memory.SameOff s.own p.memory) (mid : List Extent)
    : h.Advances s.extents [s.here.block] (h.withPool p) (s.left ++ mid ++ s.right) where
  prologue := rfl
  settings := rfl
  start := rfl
  capacity := rfl
  frontier := le_rfl
  kept := by
    intro e he used hgone
    have outside : e ∉ s.middle := by
      intro hmiddle
      rcases Site.mem_middle.mp hmiddle with hd | rfl | hu
      · simp [hs.lower_free e hd] at used
      · simp at hgone
      · simp [hs.upper_free e hu] at used
    simp only [Site.extents, List.mem_append] at he ⊢
    rcases he with (he | he) | he
    · exact Or.inl (Or.inl he)
    · exact absurd he outside
    · exact Or.inr he
  frame := by
    apply same.mono
    exact Set.union_subset (ord.vacant_subset le_rfl)
      (ord.covered_subset s.here_mem (List.mem_singleton.mpr rfl) le_rfl)

end InOrder

/-- The contents of an allocated extent that a step does not give up are the same after it. -/
theorem Advances.readBytes_eq {h h' : Heap} {es es' : List Extent} {xs gone : List Block}
    {e : Extent} (step : h.Advances es gone h' es') (ord : h.InOrder es xs) (he : e ∈ es)
    (used : e.allocated = true) (hgone : e.block ∉ gone) {n : Nat}
    (room : n + 16 ≤ e.size.toNat)
    : h'.memory.readBytes e.block.address n = h.memory.readBytes e.block.address n := by
  have hbounds := ord.bounds he
  have limit := h.region.frontier.toNat_lt_size
  simp only [Extent.stop, Extent.start] at hbounds
  apply step.frame.readBytes_eq (by omega)
  intro x member hread
  obtain ⟨-, -, outside⟩ := member
  apply outside e he used hgone
  simp only [Extent.covered, Extent.stop, Extent.start, Word.mem_span] at hread ⊢
  omega

/-- Blocks that users get in addition had none before. -/
theorem InOrder.fresh {h' : Heap} {es es' : List Extent} {xs' : List Block} {b : Block}
    (ord : h'.InOrder es' xs') (bs : List Block) (users : (users es').Perm (bs ++ users es))
    (hb : b ∈ bs)
    : b ∉ BoundaryTag.users es := by
  have distinct := users.nodup_iff.mp ord.settled.tiles.nodup_users
  exact fun hmem => (List.nodup_append.mp distinct).2.2 b hb b hmem rfl

-----------------------------------------------------------------------------------------
-- Serving a request
-----------------------------------------------------------------------------------------

/-- A step that allocates a block of at least the wanted size, and gives up no other. -/
structure Serves (h : Heap) (es : List Extent) (wanted : Size) (b : Block) (h' : Heap)
    (es' : List Extent) (xs' : List Block)
    : Prop where
  order : h'.InOrder es' xs'
  step : h.Advances es [] h' es'
  extent : ∃ t ∈ es', t.block = b ∧ t.allocated = true ∧ wanted ≤ t.size
  users : (users es').Perm (b :: users es)

namespace InOrder

variable {h : Heap} {es : List Extent} {xs ys zs : List Block} {s : Site} {wanted size : Size}
  {b : Block}

/-- Carving a listed block serves a request that it has room for. -/
theorem carve (ord : h.InOrder s.extents (ys ++ s.here.block :: zs)) (hs : s.Enclosed)
    (free : s.here.allocated = false) (room : 32 ≤ wanted.toNat) (enough : wanted ≤ s.here.size)
    : h.Serves s.extents wanted s.here.block (h.withPool (h.carve s.here.block wanted).2)
        (s.left ++ split s.here.block s.here.size wanted ++ s.right)
        (ys ++ gaps (split s.here.block s.here.size wanted) ++ zs) := by
  obtain ⟨settled, same⟩ := ord.settled.carve hs free room enough
  refine ⟨ord.withPool settled, ?_, ?_, ?_⟩
  · apply (ord.advances hs.toFlanked (same.mono Set.subset_union_left) _).narrow
    intro e he used hgone
    rw [ord.settled.eq_of_block he s.here_mem (List.mem_singleton.mp hgone), free] at used
    cases used
  · obtain ⟨size, rest, hsplit, hsize, -⟩ := exists_split s.here.block enough
    exact ⟨⟨s.here.block, size, true⟩, by simp [hsplit], rfl, rfl, hsize⟩
  · obtain ⟨lower, upper⟩ := hs.alone ord.settled.alternating free
    simp [users_split, Site.extents_eq, lower, upper, users_cons, free]

/-- Growing is a step that gives up nothing, and leaves the new bytes in a free block that is the
first of the list.
-/
theorem grow (ord : h.InOrder es xs) (room : 32 ≤ size.toNat)
    (enough : size.word ≤ h.region.available)
    : ∃ (s : Site) (xs' : List Block), (h.grown size).1 = s.here.block
        ∧ (h.grown size).2.InOrder s.extents (s.here.block :: xs')
        ∧ s.Enclosed ∧ s.here.allocated = false ∧ size ≤ s.here.size
        ∧ h.Advances es [] (h.grown size).2 s.extents
        ∧ users s.extents = users es := by
  obtain ⟨left, lower, rfl, enclosed, grows, merged, grown, same⟩ := ord.grown room enough
  obtain ⟨e, he⟩ : ∃ e, e = (Site.atTop left lower ⟨h.region.frontier⟩ size).joined := ⟨_, rfl⟩
  have free : e.allocated = false := by rw [he]; rfl
  have lower_free : ∀ d ∈ lower, d.allocated = false := enclosed.lower_free
  have extents : (Site.mk left none e none []).extents = left ++ [e] := by
    simp [Site.extents_eq]
  rw [← he] at grows merged grown
  have frontier : h.region.frontier.toNat ≤ (h.grown size).2.region.frontier.toNat := by
    rw [region_grown, ord.sane.toNat_frontier_advance enough]
    exact Nat.le_add_right _ _
  refine ⟨⟨left, none, e, none, []⟩, eraseGap xs lower, merged, by rwa [extents],
    ⟨⟨by simp, by simp⟩, enclosed.left_used, by simp⟩, free, grows, ?_, ?_⟩
  · rw [extents]
    refine ⟨prologue_grown h size, settings_grown h size, ?_, ?_, frontier, ?_, ?_⟩
    · rw [region_grown, Region.advance]
    · rw [region_grown, Region.advance]
    · intro f hf used _
      rcases List.mem_append.mp hf with hf | hf
      · exact List.mem_append_left _ hf
      · simp [lower_free f (Option.mem_toList.mp hf)] at used
    · exact same.mono (Set.union_subset (ord.vacant_subset frontier) ord.above_subset)
  · rw [extents]
    simp [users_cons, free, users_toList lower_free]

end InOrder

section

variable {h : Heap} {wanted : Size} {b : Block}

/-- The number of bytes that a heap grows by for a request: the request or a chunk. -/
def increment (h : Heap) (wanted : Size) : Size := max wanted h.settings.chunkSize

/-- A heap grows by the request at least. -/
theorem le_increment (h : Heap) (wanted : Size) : wanted ≤ h.increment wanted := by
  rw [Size.le_iff, increment, Size.toNat_max]
  exact Nat.le_max_left _ _

/-- The first listed block that has room for a request is carved. -/
theorem serve_eq_of_fit (fit : h.firstFit? wanted.word = some b)
    : h.serve wanted = (.ok b, h.withPool (h.carve b wanted).2) := by
  simp only [serve, fit, Pool.carve_fst]

/-- A request fails where no listed block has room for it and the region has not enough left. -/
theorem serve_eq_of_short (none : h.firstFit? wanted.word = none)
    (short : h.region.available < (h.increment wanted).word)
    : h.serve wanted
      = (.error (.noRoomToGrow (h.increment wanted)
            ⟨(h.increment wanted).word, h.region.available⟩),
          h.note (.growthRefused wanted ⟨(h.increment wanted).word, h.region.available⟩)) := by
  have refused := h.grow_eq_error short
  simp only [increment] at refused ⊢
  simp only [serve, none, refused]

/-- Where no listed block has room for a request and the region has enough left, the heap grows, and
what it grows by is carved.
-/
theorem serve_eq_of_growth (none : h.firstFit? wanted.word = none)
    (enough : (h.increment wanted).word ≤ h.region.available)
    : h.serve wanted
      = (.ok (h.grown (h.increment wanted)).1,
          (h.grown (h.increment wanted)).2.withPool
            ((h.grown (h.increment wanted)).2.carve
              (h.grown (h.increment wanted)).1 wanted).2) := by
  have served := h.grow_eq_ok enough
  simp only [increment] at served ⊢
  simp only [serve, none, served, Pool.carve_fst]

/-- A failure to serve a request says what it lacked, and changes nothing but the journal. -/
theorem serve_error {h' : Heap} {e : Refusal} (failed : h.serve wanted = (.error e, h'))
    : h.firstFit? wanted.word = none
      ∧ h.region.available < (h.increment wanted).word
      ∧ e = .noRoomToGrow (h.increment wanted) ⟨(h.increment wanted).word, h.region.available⟩
      ∧ h' = h.note
          (.growthRefused wanted ⟨(h.increment wanted).word, h.region.available⟩) := by
  cases fit : h.firstFit? wanted.word with
  | some c =>
      rw [serve_eq_of_fit fit] at failed
      simp at failed
  | none =>
      by_cases short : h.region.available < (h.increment wanted).word
      · rw [serve_eq_of_short fit short] at failed
        obtain ⟨hresult, hheap⟩ := Prod.mk.inj failed
        exact ⟨rfl, short, (Except.error.inj hresult).symm, hheap.symm⟩
      · rw [serve_eq_of_growth fit (UInt64.not_lt.mp short)] at failed
        simp at failed

end

/-- The first fit is a listed block with room for the request. -/
theorem InOrder.firstFit_spec {h : Heap} {es : List Extent} {xs : List Block} {wanted : Size}
    {b : Block} (ord : h.InOrder es xs) (fit : h.firstFit? wanted.word = some b)
    : ∃ e ∈ es, e.block = b ∧ e.allocated = false ∧ b ∈ xs ∧ wanted ≤ e.size := by
  rw [ord.settled.lists.firstFit?_eq] at fit
  have hb := List.mem_of_find?_eq_some fit
  obtain ⟨e, he, rfl, free⟩ := ord.settled.free b hb
  have roomy := List.find?_some fit
  rw [Pool.fits, (ord.settled.tagged e he).size_eq] at roomy
  exact ⟨e, he, rfl, free, hb, of_decide_eq_true roomy⟩

/-- A served request is a step that allocates the block which is returned. -/
theorem InOrder.serve {h h' : Heap} {es : List Extent} {xs : List Block} {wanted : Size}
    {b : Block} (ord : h.InOrder es xs) (room : 32 ≤ wanted.toNat)
    (ok : h.serve wanted = (.ok b, h'))
    : ∃ es' xs', h.Serves es wanted b h' es' xs' := by
  cases fit : h.firstFit? wanted.word with
  | some c =>
      rw [serve_eq_of_fit fit] at ok
      obtain ⟨rfl, rfl⟩ : c = b ∧ h.withPool (h.carve c wanted).2 = h' := by simpa using ok
      obtain ⟨e, he, rfl, free, listed, enough⟩ := ord.firstFit_spec fit
      obtain ⟨s, rfl, rfl, hs⟩ := ord.settled.exists_site he
      obtain ⟨ys, zs, rfl⟩ := List.append_of_mem listed
      exact ⟨_, _, ord.carve hs free room enough⟩
  | none =>
      by_cases short : h.region.available < (h.increment wanted).word
      · rw [serve_eq_of_short fit short] at ok
        simp at ok
      · rw [serve_eq_of_growth fit (UInt64.not_lt.mp short)] at ok
        have large := h.le_increment wanted
        obtain ⟨s, xs', merged, grown, hs, free, enough, step, same⟩ :=
          ord.grow (room.trans (Size.le_iff.mp large)) (UInt64.not_lt.mp short)
        rw [merged] at ok
        obtain ⟨rfl, rfl⟩ : s.here.block = b
            ∧ (h.grown (h.increment wanted)).2.withPool
                ((h.grown (h.increment wanted)).2.carve s.here.block wanted).2 = h' := by
          simpa using ok
        rw [← List.nil_append (s.here.block :: xs')] at grown
        have served := grown.carve hs free room
          (Size.le_iff.mpr ((Size.le_iff.mp large).trans (Size.le_iff.mp enough)))
        refine ⟨_, _, served.order, step.trans served.step, served.extent, ?_⟩
        rw [← same]
        exact served.users

-----------------------------------------------------------------------------------------
-- Writing between the tags of an allocated extent
-----------------------------------------------------------------------------------------

/-- What is written between the tags of an allocated extent leaves the heap in order. -/
theorem InOrder.scribble {h : Heap} {es : List Extent} {xs : List Block} {e : Extent}
    (ord : h.InOrder es xs) (he : e ∈ es) (used : e.allocated = true) {m : Memory}
    (same : h.memory.SameOff e.payload m)
    : Heap.InOrder { h with memory := m } es xs
      ∧ h.Advances es [e.block] { h with memory := m } es := by
  obtain ⟨l, r, rfl⟩ := List.append_of_mem he
  have inside : e.payload ⊆ e.covered := by
    intro x hx
    simp only [Extent.payload, Extent.covered, Word.mem_span] at hx ⊢
    omega
  have laid := ord.settled.toLaid
  rw [List.append_cons] at laid
  obtain ⟨z, leftHere, rear⟩ := tiles_append.mp laid.tiles
  obtain ⟨y, front, rfl, room, rfl⟩ := tiles_append.mp leftHere
  have tagged : e.Tagged m :=
    (laid.tagged e (by simp)).sameOff (laid.fits (by simp)) same
      fun x hx htag => Extent.tagBytes_notMem_payload x htag hx
  have unlisted := ord.settled.notMem_of_used he used
  have kept : Pool.Laid ⟨m, h.head⟩ h.prologue (l ++ [e] ++ r) ⟨h.region.frontier⟩ xs :=
    laid.retile front ⟨rfl, room, rfl⟩ (by simpa using unlisted) rfl (same.mono inside)
      ⟨rfl, room, rfl⟩ (by simpa using tagged)
  rw [← List.append_cons] at kept
  have settled : Pool.Settled ⟨m, h.head⟩ h.prologue (l ++ e :: r) ⟨h.region.frontier⟩ xs :=
    ⟨kept, ord.settled.complete, ord.settled.alternating⟩
  refine ⟨⟨settled, ord.sane, ord.chunk⟩, rfl, rfl, rfl, rfl, le_rfl, fun f hf _ _ => hf, ?_⟩
  exact same.mono (inside.trans (ord.covered_subset he (by simp) le_rfl))

-----------------------------------------------------------------------------------------
-- Allocating and freeing
-----------------------------------------------------------------------------------------

/-- A product that fits is the product of the numbers. -/
theorem toNat_of_mul? {a b c : Word} (h : Word.mul? a b = some c)
    : c.toNat = a.toNat * b.toNat := by
  by_cases fits : a.toNat * b.toNat < UInt64.size
  · rw [Word.mul?, if_pos fits] at h
    rw [← Option.some.inj h, UInt64.toNat_mul]
    exact Nat.mod_eq_of_lt fits
  · rw [Word.mul?, if_neg fits] at h
    cases h

/-- The blocks that a reply hands out. -/
def granted : Except Refusal (Option Block) → List Block
  | .ok (some b) => [b]
  | _ => []

/-- A step that hands out what its reply says, with room for a number of bytes, and gives up no
other block.
-/
structure Grants (h : Heap) (es : List Extent) (bytes : Nat)
    (reply : Except Refusal (Option Block)) (h' : Heap) (es' : List Extent) (xs' : List Block)
    : Prop where
  order : h'.InOrder es' xs'
  step : h.Advances es [] h' es'
  users : (users es').Perm (granted reply ++ users es)
  extent : ∀ b ∈ granted reply,
    ∃ t ∈ es', t.block = b ∧ t.allocated = true ∧ bytes + 16 ≤ t.size.toNat

/-- Freeing gives nothing back to the region. -/
theorem region_free (h : Heap) (b : Block) : (h.free b).region = h.region := by
  simp only [free, withPool]

/-- Freeing leaves the low end where it is. -/
theorem prologue_free (h : Heap) (b : Block) : (h.free b).prologue = h.prologue := by
  simp only [free, withPool]

/-- Freeing leaves the settings. -/
theorem settings_free (h : Heap) (b : Block) : (h.free b).settings = h.settings := by
  simp only [free, withPool]

/-- A request that has a size is served with that. -/
theorem allocate_of_some {h : Heap} {bytes : Word} {wanted : Size} (hbytes : bytes ≠ 0)
    (size : Size.forRequest? bytes = some wanted)
    : h.allocate bytes = ((h.serve wanted).1.map some, (h.serve wanted).2) := by
  simp only [allocate, hbytes, if_false, size]

namespace InOrder

variable {h : Heap} {es : List Extent} {xs : List Block} {b : Block}

/-- Allocating is a step, whether it succeeds or not. -/
theorem allocate (ord : h.InOrder es xs) (bytes : Word)
    : ∃ es' xs', h.Grants es bytes.toNat (h.allocate bytes).1 (h.allocate bytes).2 es' xs' := by
  by_cases zero : bytes = 0
  · simp only [Heap.allocate, zero, if_true]
    exact ⟨es, xs, ord, Advances.refl h es [], .refl _, by simp [granted]⟩
  · cases size : Size.forRequest? bytes with
    | none =>
        simp only [Heap.allocate, zero, if_false, size]
        exact ⟨es, xs, ord, Advances.refl h es [], .refl _, by simp [granted]⟩
    | some wanted =>
        simp only [Heap.allocate, zero, if_false, size]
        obtain ⟨room, fits⟩ := Size.room_of_forRequest? size
        obtain ⟨result, h', served⟩ : ∃ result h', h.serve wanted = (result, h') := ⟨_, _, rfl⟩
        cases result with
        | ok b =>
            rw [served]
            obtain ⟨es', xs', hserves⟩ := ord.serve room served
            obtain ⟨t, ht, hblock, used, enough⟩ := hserves.extent
            rw [Size.le_iff] at enough
            refine ⟨es', xs', hserves.order, hserves.step, hserves.users, ?_⟩
            intro c hc
            obtain rfl : c = b := by simpa [granted, Except.map] using hc
            exact ⟨t, ht, hblock, used, fits.trans enough⟩
        | error e =>
            rw [served]
            obtain ⟨-, -, -, rfl⟩ := serve_error served
            exact ⟨es, xs, ord.note _, Advances.note h es [] _, .refl _,
              by simp [granted, Except.map]⟩

/-- Allocating and clearing is a step, whether it succeeds or not. -/
theorem allocateZeroed (ord : h.InOrder es xs) (count size : Word)
    : ∃ es' xs', h.Grants es (count.toNat * size.toNat) (h.allocateZeroed count size).1
        (h.allocateZeroed count size).2 es' xs' := by
  cases product : Word.mul? count size with
  | none =>
      simp only [Heap.allocateZeroed, product]
      exact ⟨es, xs, ord, Advances.refl h es [], .refl _, by simp [granted]⟩
  | some total =>
      have htotal := toNat_of_mul? product
      obtain ⟨es', xs', grant⟩ := ord.allocate total
      obtain ⟨reply, h', outcome⟩ : ∃ reply h', h.allocate total = (reply, h') := ⟨_, _, rfl⟩
      simp only [Heap.allocateZeroed, product]
      rw [outcome] at grant ⊢
      rw [htotal] at grant
      match reply with
      | .error e => exact ⟨es', xs', grant⟩
      | .ok none => exact ⟨es', xs', grant⟩
      | .ok (some b) =>
          have fresh := grant.order.fresh _ grant.users (b := b) (by simp [granted])
          obtain ⟨t, ht, rfl, used, room⟩ := grant.extent b (by simp [granted])
          have written : total.toNat + 16 ≤ t.size.toNat := by rwa [htotal]
          obtain ⟨fits, inside⟩ := grant.order.span_subset_payload ht written
          obtain ⟨ord', step⟩ := grant.order.scribble ht used
            ((h'.memory.sameOff_clear fits).mono inside)
          refine ⟨es', xs', ord', (grant.step.trans step).narrow ?_, grant.users, grant.extent⟩
          intro e he hused hgone
          have same : e.block = t.block := by simpa using hgone
          exact absurd (mem_users.mpr ⟨e, he, same, hused⟩) fresh

/-- Freeing a block in use joins its extent with the gaps that touch it into one free extent, which
is then the first of the list.
-/
theorem free_at {s : Site} (ord : h.InOrder s.extents xs) (hs : s.Enclosed)
    (used : s.here.allocated = true)
    : (h.free s.here.block).InOrder (s.left ++ [s.joined] ++ s.right)
          (s.joined.block :: s.unlist xs)
      ∧ h.Advances s.extents [s.here.block] (h.free s.here.block)
          (s.left ++ [s.joined] ++ s.right) := by
  obtain ⟨settled, same⟩ := ord.settled.release hs used
  have size := (ord.settled.tagged s.here s.here_mem).size_eq
  have free_eq : h.free s.here.block
      = h.withPool ((h.writeTags s.here.block s.here.size false).merge s.here.block).2 := by
    simp only [Heap.free, size]
  rw [free_eq]
  exact ⟨ord.withPool settled, ord.advances hs.toFlanked same _⟩

/-- Freeing a block in use is a step that gives it up. -/
theorem free (ord : h.InOrder es xs) (hb : b ∈ users es)
    : ∃ es' xs', (h.free b).InOrder es' xs' ∧ h.Advances es [b] (h.free b) es'
        ∧ (users es').Perm ((users es).erase b) := by
  obtain ⟨e, he, rfl, used⟩ := mem_users.mp hb
  obtain ⟨s, rfl, rfl, hs⟩ := ord.settled.exists_site he
  obtain ⟨freed, step⟩ := ord.free_at hs used
  refine ⟨_, _, freed, step, ?_⟩
  have joined_free : s.joined.allocated = false := rfl
  simpa [users_cons, joined_free] using (hs.users_erase used).symm

end InOrder

end Heap

end BoundaryTag
