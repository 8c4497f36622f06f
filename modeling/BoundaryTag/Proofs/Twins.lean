import BoundaryTag.Proofs.Shifting
import BoundaryTag.Proofs.Walks

/-! Twins: two heaps whose layouts and free lists are the same up to their place, with as much left
in their regions. Their memories need not agree anywhere else. Whatever the one is asked, the other
one replies the same when it is asked the same about its own blocks, and both stay twins: what a
heap reads in order to decide is tags and links, which the layout determines.
-/

namespace BoundaryTag.Heap

/-- The second heap has the extents and the free list of the first one, moved by a distance, and its
region has as much left.
-/
structure Twins (d : Word) (h k : Heap) (es : List Extent) (xs : List Block) : Prop where
  order : h.InOrder es xs
  order' : k.InOrder (es.map (.shift d)) (xs.map (·.offset d))
  frontier : k.region.frontier = h.region.frontier + d
  available : k.region.available = h.region.available
  settings : k.settings = h.settings

/-- The second outcome has the same reply as the first, up to the place of blocks, and leaves twins.
-/
structure Echoes {α : Type} (move : α → α) (d : Word) (outcome outcome' : Except Refusal α × Heap)
    : Prop where
  reply : outcome'.1 = outcome.1.map move
  twins : ∃ es xs, Twins d outcome.2 outcome'.2 es xs

/-- The layout and the free list of a heap in order are read off its own walks. -/
theorem InOrder.unique {h : Heap} {es es' : List Extent} {xs xs' : List Block}
    (ord : h.InOrder es xs) (ord' : h.InOrder es' xs')
    : es = es' ∧ xs = xs' :=
  ⟨ord.blocks_eq.symm.trans ord'.blocks_eq, ord.members_eq.symm.trans ord'.members_eq⟩

namespace Twins

variable {d : Word} {h k h' k' : Heap} {es es' : List Extent} {xs xs' ys zs : List Block}
  {s : Site} {e : Extent} {b : Block} {wanted size : Size} {kept bytes : Word} {plan : Plan}

-----------------------------------------------------------------------------------------
-- What twins read alike
-----------------------------------------------------------------------------------------

/-- Blocks of twins have the same size. -/
theorem size_eq (twins : Twins d h k es xs) (he : e ∈ es)
    : (e.block.offset d).size k.memory = e.block.size h.memory := by
  have tagged := twins.order.settled.tagged e he
  have tagged' := twins.order'.settled.tagged (e.shift d) (List.mem_map_of_mem he)
  rw [tagged.size_eq]
  exact tagged'.size_eq

/-- The layout of the second twin around a site. -/
theorem order_shift (twins : Twins d h k s.extents xs)
    : k.InOrder (s.shift d).extents (xs.map (·.offset d)) := by
  rw [Site.extents_shift]
  exact twins.order'

/-- Twins find the same first fit. -/
theorem firstFit?_eq (twins : Twins d h k es xs) (bytes : Word)
    : k.firstFit? bytes = (h.firstFit? bytes).map (·.offset d) := by
  have alike : xs.filter (k.fits bytes ∘ (·.offset d)) = xs.filter (h.fits bytes) := by
    apply List.filter_congr
    intro b hb
    obtain ⟨e, he, rfl, -⟩ := twins.order.settled.free b hb
    simp only [Function.comp, Pool.fits, twins.size_eq he]
  rw [twins.order.settled.lists.firstFit?_eq, twins.order'.settled.lists.firstFit?_eq,
    List.find?_map, ← List.head?_filter, ← List.head?_filter, alike]

/-- Twins grow by the same number of bytes. -/
theorem increment_eq (twins : Twins d h k es xs) (wanted : Size)
    : k.increment wanted = h.increment wanted := by
  rw [Heap.increment, Heap.increment, twins.settings]

/-- Twins choose the same plan for a block in use. -/
theorem choose_eq (twins : Twins d h k s.extents xs) (hs : s.Enclosed) (wanted : Size)
    : Plan.choose k.memory (s.here.block.offset d) wanted
      = (Plan.choose h.memory s.here.block wanted).shift d := by
  have planned := (twins.order.settled.planned_choose hs wanted).shift d
  have planned' := twins.order_shift.settled.planned_choose (hs.shift d) wanted
  exact planned'.unique twins.order_shift.settled.toLaid planned

/-- The blocks of twins, by address. -/
theorem blocks_eq (twins : Twins d h k es xs) : k.blocks = h.blocks.map (.shift d) := by
  rw [twins.order.blocks_eq, twins.order'.blocks_eq]

/-- The free blocks of twins, in list order. -/
theorem freeBlocks_eq (twins : Twins d h k es xs)
    : k.freeBlocks = h.freeBlocks.map (.shift d) := by
  rw [freeBlocks, freeBlocks, twins.order.members_eq, twins.order'.members_eq, List.map_map,
    List.map_map]
  apply List.map_congr_left
  intro b hb
  obtain ⟨e, he, rfl, -⟩ := twins.order.settled.free b hb
  have tagged := twins.order.settled.tagged e he
  have tagged' := twins.order'.settled.tagged (e.shift d) (List.mem_map_of_mem he)
  simp only [Function.comp, tagged.ofBlock_eq]
  exact tagged'.ofBlock_eq

-----------------------------------------------------------------------------------------
-- What keeps twins
-----------------------------------------------------------------------------------------

/-- Twins remain so if both are changed alike within what they have. -/
theorem within (twins : Twins d h k es xs) (region : h'.region = h.region)
    (region' : k'.region = k.region) (settings : h'.settings = h.settings)
    (settings' : k'.settings = k.settings) (order : h'.InOrder es' xs')
    (order' : k'.InOrder (es'.map (.shift d)) (xs'.map (·.offset d)))
    : Twins d h' k' es' xs' where
  order := order
  order' := order'
  frontier := by rw [region, region', twins.frontier]
  available := by rw [region, region', twins.available]
  settings := by rw [settings, settings', twins.settings]

/-- Twins stay twins whatever they note. -/
theorem note (twins : Twins d h k es xs) (event event' : Event)
    : Twins d (h.note event) (k.note event') es xs :=
  twins.within rfl rfl rfl rfl (twins.order.note event) (twins.order'.note event')

/-- Changing the pools of twins alike leaves twins. -/
theorem withPool (twins : Twins d h k es xs) {p q : Pool}
    (settled : p.Settled h.prologue es' ⟨h.region.frontier⟩ xs')
    (settled' : q.Settled k.prologue (es'.map (.shift d)) ⟨k.region.frontier⟩
      (xs'.map (·.offset d)))
    : Twins d (h.withPool p) (k.withPool q) es' xs' :=
  twins.within rfl rfl rfl rfl (twins.order.withPool settled) (twins.order'.withPool settled')

/-- Twins remain so whatever is written between the tags of their allocated extents. -/
theorem scribble (twins : Twins d h k es xs) (he : e ∈ es) (used : e.allocated = true)
    {m m' : Memory} (same : h.memory.SameOff e.payload m)
    (same' : k.memory.SameOff (e.shift d).payload m')
    : Twins d { h with memory := m } { k with memory := m' } es xs :=
  twins.within rfl rfl rfl rfl (twins.order.scribble he used same).1
    (twins.order'.scribble (List.mem_map_of_mem he) used same').1

/-- Freeing a block in use leaves twins. -/
theorem free (twins : Twins d h k es xs) (hb : b ∈ users es)
    : ∃ es' xs', Twins d (h.free b) (k.free (b.offset d)) es' xs' := by
  obtain ⟨e, he, rfl, used⟩ := mem_users.mp hb
  obtain ⟨s, rfl, rfl, hs⟩ := twins.order.settled.exists_site he
  have order := (twins.order.free_at hs used).1
  have order' := (twins.order_shift.free_at (hs.shift d) used).1
  rw [Site.joined_shift, Site.unlist_shift] at order'
  exact ⟨_, _, twins.within (region_free h _) (region_free k _) (settings_free h _)
    (settings_free k _) order (by simpa [Site.shift] using order')⟩

/-- Carving a listed block leaves twins. -/
theorem carve (twins : Twins d h k s.extents (ys ++ s.here.block :: zs)) (hs : s.Enclosed)
    (free : s.here.allocated = false) (room : 32 ≤ wanted.toNat) (enough : wanted ≤ s.here.size)
    : ∃ es' xs', Twins d (h.withPool (h.carve s.here.block wanted).2)
        (k.withPool (k.carve (s.here.block.offset d) wanted).2) es' xs' := by
  have listed := twins.order_shift
  rw [List.map_append, List.map_cons] at listed
  obtain ⟨after, -⟩ := twins.order.settled.carve hs free room enough
  obtain ⟨after', -⟩ := listed.settled.carve (s := s.shift d) (hs.shift d) free room enough
  exact ⟨_, _, twins.withPool after (by simpa [Site.shift, split_shift] using after')⟩

/-- Growing by what is left leaves twins, with the new bytes in the first free block of each. -/
theorem grown (twins : Twins d h k es xs) (room : 32 ≤ size.toNat)
    (enough : size.word ≤ h.region.available)
    : ∃ (s : Site) (xs' : List Block), (h.grown size).1 = s.here.block
        ∧ (k.grown size).1 = s.here.block.offset d ∧ s.Enclosed
        ∧ s.here.allocated = false ∧ size ≤ s.here.size
        ∧ Twins d (h.grown size).2 (k.grown size).2 s.extents (s.here.block :: xs') := by
  obtain ⟨left, lower, rfl, enclosed, grows, merged, order, -⟩ := twins.order.grown room enough
  obtain ⟨left', lower', parts, enclosed', -, merged', order', -⟩ :=
    twins.order'.grown room (twins.available ▸ enough)
  have lower_free : ∀ e ∈ lower, e.allocated = false := enclosed.lower_free
  have left_used : ∀ e ∈ left.getLast?, e.allocated = true := enclosed.left_used
  rw [List.map_append, ← Site.toList_shift] at parts
  obtain ⟨rfl, rfl⟩ := lower_unique parts (by simpa using lower_free) enclosed'.lower_free
    (by simpa using left_used) enclosed'.left_used
  have top : (⟨k.region.frontier⟩ : Block) = Block.offset ⟨h.region.frontier⟩ d := by
    rw [Block.offset, twins.frontier]
  rw [top, Site.atTop_shift, Site.joined_shift] at merged' order'
  rw [eraseGap_shift] at order'
  obtain ⟨e, he⟩ : ∃ e, e = (Site.atTop left lower ⟨h.region.frontier⟩ size).joined := ⟨_, rfl⟩
  have free : e.allocated = false := by rw [he]; rfl
  rw [← he] at grows merged order merged' order'
  have extents : (Site.mk left none e none []).extents = left ++ [e] := by
    simp [Site.extents_eq]
  have alone : (Site.mk left none e none []).Enclosed :=
    ⟨⟨by simp, by simp⟩, left_used, by simp⟩
  refine ⟨⟨left, none, e, none, []⟩, eraseGap xs lower, merged, merged', alone, free, grows, ?_⟩
  rw [extents]
  refine ⟨order, by simpa using order', ?_, ?_, ?_⟩
  · rw [region_grown, region_grown, Region.frontier_advance, Region.frontier_advance,
      twins.frontier, UInt64.add_assoc, UInt64.add_assoc, UInt64.add_comm d]
  · rw [region_grown, region_grown, Region.available_advance, Region.available_advance,
      twins.available]
  · rw [settings_grown, settings_grown, twins.settings]

-----------------------------------------------------------------------------------------
-- Allocating
-----------------------------------------------------------------------------------------

/-- Twins serve a request alike. -/
theorem serve (twins : Twins d h k es xs) (room : 32 ≤ wanted.toNat)
    : Echoes (·.offset d) d (h.serve wanted) (k.serve wanted) := by
  have more := twins.increment_eq wanted
  have found := twins.firstFit?_eq wanted.word
  cases fit : h.firstFit? wanted.word with
  | some c =>
      rw [fit, Option.map_some] at found
      rw [serve_eq_of_fit fit, serve_eq_of_fit found]
      obtain ⟨e, he, rfl, free, listed, enough⟩ := twins.order.firstFit_spec fit
      obtain ⟨s, rfl, rfl, hs⟩ := twins.order.settled.exists_site he
      obtain ⟨ys, zs, rfl⟩ := List.append_of_mem listed
      exact ⟨rfl, twins.carve hs free room enough⟩
  | none =>
      rw [fit, Option.map_none] at found
      by_cases short : h.region.available < (h.increment wanted).word
      · have short' := short
        rw [← twins.available, ← more] at short'
        rw [serve_eq_of_short fit short, serve_eq_of_short found short', more, twins.available]
        exact ⟨rfl, es, xs, twins.note _ _⟩
      · have enough := UInt64.not_lt.mp short
        have enough' := enough
        rw [← twins.available, ← more] at enough'
        rw [serve_eq_of_growth fit enough, serve_eq_of_growth found enough', more]
        have large := Size.le_iff.mp (h.le_increment wanted)
        obtain ⟨s, xs', merged, merged', hs, free, roomy, grown⟩ :=
          twins.grown (room.trans large) enough
        rw [Size.le_iff] at roomy
        rw [← List.nil_append (s.here.block :: xs')] at grown
        have carved := grown.carve hs free room (Size.le_iff.mpr (large.trans roomy))
        rw [merged, merged']
        exact ⟨rfl, carved⟩

/-- Twins allocate alike. -/
theorem allocate (twins : Twins d h k es xs) (bytes : Word)
    : Echoes (Option.map (·.offset d)) d (h.allocate bytes) (k.allocate bytes) := by
  by_cases zero : bytes = 0
  · simp only [Heap.allocate, zero, if_true]
    exact ⟨rfl, es, xs, twins⟩
  · cases size : Size.forRequest? bytes with
    | none =>
        simp only [Heap.allocate, zero, if_false, size]
        exact ⟨rfl, es, xs, twins⟩
    | some wanted =>
        simp only [Heap.allocate, zero, if_false, size]
        obtain ⟨reply, after⟩ := twins.serve (Size.room_of_forRequest? size).1
        refine ⟨?_, after⟩
        rw [reply]
        cases (h.serve wanted).1 <;> rfl

/-- Twins allocate and clear alike. -/
theorem allocateZeroed (twins : Twins d h k es xs) (count size : Word)
    : Echoes (Option.map (·.offset d)) d (h.allocateZeroed count size)
        (k.allocateZeroed count size) := by
  cases product : Word.mul? count size with
  | none =>
      simp only [Heap.allocateZeroed, product]
      exact ⟨rfl, es, xs, twins⟩
  | some total =>
      obtain ⟨es₁, xs₁, grant⟩ := twins.order.allocate total
      obtain ⟨same, es₂, xs₂, after⟩ := twins.allocate total
      obtain ⟨reply, h', outcome⟩ : ∃ reply h', h.allocate total = (reply, h') := ⟨_, _, rfl⟩
      obtain ⟨reply', k', outcome'⟩ : ∃ reply' k', k.allocate total = (reply', k') := ⟨_, _, rfl⟩
      simp only [Heap.allocateZeroed, product, outcome, outcome']
      rw [outcome] at grant same after
      rw [outcome'] at same after
      obtain rfl : reply' = _ := same
      cases reply with
      | error e => exact ⟨rfl, es₂, xs₂, after⟩
      | ok b? =>
          cases b? with
          | none => exact ⟨rfl, es₂, xs₂, after⟩
          | some b =>
              obtain ⟨rfl, rfl⟩ := grant.order.unique after.order
              obtain ⟨t, ht, rfl, used, room⟩ := grant.extent b (by simp [granted])
              obtain ⟨fits, inside⟩ := after.order.span_subset_payload ht room
              obtain ⟨fits', inside'⟩ :=
                after.order'.span_subset_payload (List.mem_map_of_mem ht) room
              exact ⟨rfl, _, _, after.scribble ht used
                ((h'.memory.sameOff_clear fits).mono inside)
                ((k'.memory.sameOff_clear fits').mono inside')⟩

-----------------------------------------------------------------------------------------
-- Resizing
-----------------------------------------------------------------------------------------

/-- Twins move the contents of a block away alike. -/
theorem moveAway (twins : Twins d h k es xs) (he : e ∈ es) (used : e.allocated = true)
    (room : 32 ≤ wanted.toNat) (needed : kept.toNat + 16 ≤ wanted.toNat)
    : Echoes (·.offset d) d (h.moveAway e.block wanted kept)
        (k.moveAway (e.block.offset d) wanted kept) := by
  obtain ⟨same, es₁, xs₁, after⟩ := twins.serve room
  obtain ⟨result, h', served⟩ : ∃ result h', h.serve wanted = (result, h') := ⟨_, _, rfl⟩
  obtain ⟨result', k', served'⟩ : ∃ result' k', k.serve wanted = (result', k') := ⟨_, _, rfl⟩
  rw [served, served'] at same after
  obtain rfl : result' = _ := same
  cases result with
  | error reason =>
      simp only [Heap.moveAway, served, served', Except.map]
      exact ⟨rfl, es₁, xs₁, after⟩
  | ok target =>
      obtain ⟨es₂, xs₂, serves⟩ := twins.order.serve room served
      obtain ⟨rfl, rfl⟩ := serves.order.unique after.order
      obtain ⟨t, ht, rfl, tused, enough⟩ := serves.extent
      rw [Size.le_iff] at enough
      obtain ⟨fits, inside⟩ := after.order.span_subset_payload ht (needed.trans enough)
      obtain ⟨fits', inside'⟩ :=
        after.order'.span_subset_payload (List.mem_map_of_mem ht) (needed.trans enough)
      have copied := (after.note (.moving e.block t.block kept)
          (.moving (e.block.offset d) (t.block.offset d) kept)).scribble ht tused
        ((h'.memory.sameOff_copy e.block.address fits).mono inside)
        ((k'.memory.sameOff_copy (e.block.offset d).address fits').mono inside')
      have user : e.block ∈ users es₂ := by
        rw [serves.users.mem_iff]
        exact List.mem_cons_of_mem _ (mem_users.mpr ⟨e, he, rfl, used⟩)
      rw [moveAway_eq served, moveAway_eq served']
      exact ⟨rfl, copied.free user⟩

/-- Twins carry out the same plan alike where that can be done in place. -/
theorem carryOut_near (twins : Twins d h k s.extents xs) (hs : s.Enclosed)
    (used : s.here.allocated = true) (room : 32 ≤ wanted.toNat)
    (held : kept.toNat + 16 ≤ s.here.size.toNat) (needed : kept.toNat + 16 ≤ wanted.toNat)
    (planned : s.Planned wanted plan) (near : plan ≠ .moveAway)
    : Echoes (·.offset d) d (h.carryOut plan s.here.block wanted kept)
        (k.carryOut (plan.shift d) (s.here.block.offset d) wanted kept) := by
  have settled := twins.order.settled
  have settled' := twins.order_shift.settled
  have hs' := hs.shift d
  cases planned with
  | stay enough =>
      simp only [Heap.carryOut, Plan.shift]
      by_cases large : Size.minBlock ≤ s.here.size - wanted
      · obtain ⟨after, -⟩ := settled.trim hs used room enough large
        obtain ⟨after', -⟩ := settled'.trim hs' used room enough large
        rw [Site.cut_shift, Site.joined_shift, Site.unlist_shift] at after'
        exact ⟨rfl, _, _, twins.withPool after (by simpa [Site.shift] using after')⟩
      · have same := settled.trim_eq_self large
        have same' : k.trim (s.here.block.offset d) wanted = k.toPool :=
          settled'.trim_eq_self (s := s.shift d) large
        rw [same, same']
        exact ⟨rfl, _, _, twins.withPool settled twins.order'.settled⟩
  | @growDown f short below enough =>
      simp only [Heap.carryOut, Plan.shift]
      obtain ⟨target, after, -⟩ := settled.growDown hs used below room enough held needed
      obtain ⟨target', after', -⟩ := settled'.growDown (d := f.shift d) hs' used
        (by simp [Site.shift, below]) room enough held needed
      refine ⟨?_, _, _, twins.withPool after ?_⟩
      · rw [target]
        exact congrArg Except.ok (target'.trans (highEnd_shift _ _ _ _))
      · simpa [Site.shift, splitHigh_shift, Site.toList_shift, map_offset_erase] using after'
  | @growUp f short above low enough =>
      simp only [Heap.carryOut, Plan.shift]
      obtain ⟨after, -⟩ := settled.growUp hs used above room enough
      obtain ⟨after', -⟩ := settled'.growUp (u := f.shift d) hs' used
        (by simp [Site.shift, above]) room enough
      refine ⟨rfl, _, _, twins.withPool after ?_⟩
      simpa [Site.shift, split_shift, Site.toList_shift, map_offset_erase] using after'
  | @growBothWays f g short below above low high enough =>
      simp only [Heap.carryOut, Plan.shift]
      obtain ⟨after, -⟩ := settled.growBothWays hs used below above room enough held needed
      obtain ⟨after', -⟩ := settled'.growBothWays (d := f.shift d) (u := g.shift d) hs' used
        (by simp [Site.shift, below]) (by simp [Site.shift, above]) room enough held needed
      refine ⟨rfl, _, _, twins.withPool after ?_⟩
      simpa [Site.shift, split_shift, map_offset_erase] using after'
  | moveAway => exact absurd rfl near

/-- Twins carry out the same plan alike. -/
theorem carryOut (twins : Twins d h k s.extents xs) (hs : s.Enclosed)
    (used : s.here.allocated = true) (room : 32 ≤ wanted.toNat)
    (held : kept.toNat + 16 ≤ s.here.size.toNat) (needed : kept.toNat + 16 ≤ wanted.toNat)
    (planned : s.Planned wanted plan)
    : Echoes (·.offset d) d (h.carryOut plan s.here.block wanted kept)
        (k.carryOut (plan.shift d) (s.here.block.offset d) wanted kept) := by
  by_cases away : plan = .moveAway
  · subst away
    exact twins.moveAway s.here_mem used room needed
  · exact twins.carryOut_near hs used room held needed planned away

/-- Twins resize a block in use alike. -/
theorem resize (twins : Twins d h k es xs) (hb : b ∈ users es) (bytes : Word)
    : Echoes (Option.map (·.offset d)) d (h.resize (some b) bytes)
        (k.resize (some (b.offset d)) bytes) := by
  by_cases zero : bytes = 0
  · simp only [Heap.resize, zero, if_true]
    exact ⟨rfl, twins.free hb⟩
  · cases size : Size.forRequest? bytes with
    | none =>
        rw [resize_of_none zero size, resize_of_none zero size]
        exact ⟨rfl, es, xs, twins⟩
    | some wanted =>
        have room := (Size.room_of_forRequest? size).1
        obtain ⟨e, he, rfl, used⟩ := mem_users.mp hb
        obtain ⟨s, rfl, rfl, hs⟩ := twins.order.settled.exists_site he
        obtain ⟨held, needed⟩ := twins.order.kept_bounds s.here_mem size
        have kept : k.kept (s.here.block.offset d) bytes = h.kept s.here.block bytes := by
          rw [Heap.kept, Heap.kept, usableSize, usableSize, twins.size_eq s.here_mem]
        have planned := twins.order.settled.planned_choose hs wanted
        rw [resize_of_some zero size, resize_of_some zero size, kept, twins.choose_eq hs]
        generalize Plan.choose h.memory s.here.block wanted = plan at planned ⊢
        obtain ⟨reply, after⟩ := (twins.note (.resizing s.here.block wanted plan)
          (.resizing (s.here.block.offset d) wanted (plan.shift d))).carryOut hs used room held
            needed planned
        refine ⟨?_, after⟩
        simp only [reply]
        cases ((h.note (.resizing s.here.block wanted plan)).carryOut plan s.here.block wanted
          (h.kept s.here.block bytes)).1 <;> rfl

end Twins

end BoundaryTag.Heap
