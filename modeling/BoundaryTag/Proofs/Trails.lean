import BoundaryTag.Audit
import BoundaryTag.Proofs.Settlement

/-! What the two walks of an audit come to. An audit trusts no word that it reads, so each walk is
described from both sides: where nothing is wrong, the blocks that it comes to are laid out and
linked as an undamaged heap has them; and where they are laid out and linked so, it comes to
these and finds nothing.
-/

namespace BoundaryTag

/-- A saturating sum is the sum, or the greatest word where that is less. -/
theorem Word.toNat_addSaturating (a b : Word)
    : (a.addSaturating b).toNat = min (a.toNat + b.toNat) (UInt64.size - 1) := by
  have ha := a.toNat_lt
  have hb := b.toNat_lt
  have most : greatest.toNat = UInt64.size - 1 := rfl
  by_cases wraps : a + b < a
  · rw [addSaturating, if_pos wraps, most]
    rw [UInt64.lt_iff_toNat_lt, UInt64.toNat_add] at wraps
    simp only [UInt64.size]
    omega
  · rw [addSaturating, if_neg wraps]
    rw [UInt64.lt_iff_toNat_lt, UInt64.toNat_add] at wraps
    simp only [UInt64.toNat_add, UInt64.size]
    omega

namespace Audit

variable {m : Memory} {r : Region} {top b : Block} {before link : Link} {es : List Extent}
  {e : Extent} {xs passed : List Block} {a n : Nat}

-----------------------------------------------------------------------------------------
-- What is found at one block
-----------------------------------------------------------------------------------------

/-- The walk by address goes on behind a block that has a size and stops at most a word behind the
end of the heap.
-/
theorem inside_iff (top : Block) (limit : top.address.toNat + 8 < UInt64.size)
    (low : 8 ≤ b.address.toNat)
    : inside m top.address b = true
      ↔ b.address.toNat ≤ top.address.toNat ∧ b.size m ≠ Size.zero
        ∧ b.address.toNat + (b.size m).toNat ≤ top.address.toNat + 8 := by
  have header := Block.toNat_header low
  have reach : b.header.addSaturating (b.size m).word ≤ top.address
      ↔ b.address.toNat + (b.size m).toNat ≤ top.address.toNat + 8 := by
    rw [UInt64.le_iff_toNat_le, Word.toNat_addSaturating, header, Size.toNat]
    omega
  simp only [inside, Bool.and_eq_true, decide_eq_true_eq, reach, UInt64.le_iff_toNat_le, and_assoc]

/-- A block with a size at which the walk by address stops reaches beyond the end of the heap. -/
theorem lt_of_not_inside {heapEnd : Word} (low : ¬ heapEnd < b.address)
    (sized : b.size m ≠ Size.zero) (outside : inside m heapEnd b ≠ true)
    : heapEnd < b.header.addSaturating (b.size m).word := by
  by_contra reaches
  apply outside
  simp only [inside, Bool.and_eq_true, decide_eq_true_eq]
  exact ⟨⟨UInt64.not_lt.mp low, sized⟩, UInt64.not_lt.mp reaches⟩

/-- Behind a block that lies inside there is only its shape to look at. -/
theorem blockFindings_of_inside (within : inside m top.address b = true)
    : blockFindings m top.address before b = blockFaults m before b := by
  simp only [inside, Bool.and_eq_true, decide_eq_true_eq] at within
  obtain ⟨⟨low, sized⟩, high⟩ := within
  rw [blockFindings, if_neg (UInt64.not_lt.mpr low), if_neg sized, if_neg (UInt64.not_lt.mpr high)]

/-- A block at which the walk by address stops is right if it is the one at the end. -/
theorem blockFindings_eq_nil_of_outside (outside : inside m top.address b ≠ true)
    : blockFindings m top.address before b = []
      ↔ b = top ∧ top.size m = Size.zero ∧ top.allocated m = true := by
  by_cases beyond : top.address < b.address
  · have elsewhere : b ≠ top := by
      rintro rfl
      exact UInt64.lt_irrefl _ beyond
    simp [blockFindings, beyond, elsewhere]
  · by_cases sized : b.size m = Size.zero
    · have same : b.address = top.address ↔ b = top := by
        cases b
        cases top
        simp
      simp only [blockFindings, if_neg beyond, if_pos sized, ite_eq_left_iff, same]
      simp only [List.cons_ne_nil, imp_false, not_not]
      constructor
      · rintro ⟨used, rfl⟩
        exact ⟨rfl, sized, used⟩
      · rintro ⟨rfl, -, used⟩
        exact ⟨used, rfl⟩
    · have short := lt_of_not_inside beyond sized outside
      have elsewhere : ¬ (b = top ∧ top.size m = Size.zero ∧ top.allocated m = true) := by
        rintro ⟨rfl, none, -⟩
        exact sized none
      simp [blockFindings, beyond, sized, short, elsewhere]

/-- A block inside is right if it is aligned, has room for its tags and links, and the same word at
both ends, and if not both it and the one before it are free.
-/
theorem blockFaults_eq_nil_iff
    : blockFaults m before b = []
      ↔ b.address.toNat % 16 = 0 ∧ 32 ≤ (b.size m).toNat ∧ b.footerTag m = b.tag m
        ∧ ∀ f ∈ before, f.allocated m = true ∨ b.allocated m = true := by
  have aligned : b.address % alignment = 0 ↔ b.address.toNat % 16 = 0 :=
    Size.word_mod_eq_zero_iff b.address
  have room : ¬ (b.tag m).size < Size.minBlock ↔ 32 ≤ (b.size m).toNat := by
    rw [Size.lt_iff, Nat.not_lt, Size.toNat_minBlock, Block.size]
  simp only [blockFaults, List.append_eq_nil_iff, ite_eq_left_iff, ite_eq_right_iff,
    List.cons_ne_nil, imp_false, not_not, aligned, room, and_assoc]
  cases before with
  | none => simp
  | some f => cases hf : f.allocated m <;> simp [hf]

-----------------------------------------------------------------------------------------
-- The walk by address
-----------------------------------------------------------------------------------------

/-- Extents side by side from a number up to the end of the heap: each is the one that its header
describes and has the same word at both ends, no two free ones touch, and the block at the end is
allocated and has no size. They can begin anywhere.
-/
structure Ranged (m : Memory) (a : Nat) (es : List Extent) (top : Block) : Prop where
  tiles : Tiles a es top.address.toNat
  headers : ∀ e ∈ es, Extent.ofBlock m e.block = e
  footers : ∀ e ∈ es, e.block.footerTag m = e.block.tag m
  alternating : Alternating es
  size_top : top.size m = Size.zero
  allocated_top : top.allocated m = true

/-- The first of some ranged extents is right by itself and beside the next, and the others are
ranged behind it.
-/
theorem ranged_cons
    : Ranged m a (e :: es) top
      ↔ (e.start = a ∧ 32 ≤ e.size.toNat ∧ Extent.ofBlock m e.block = e
          ∧ e.block.footerTag m = e.block.tag m)
        ∧ (∀ f ∈ es.head?, e.allocated = true ∨ f.allocated = true)
        ∧ Ranged m e.stop es top := by
  constructor
  · rintro ⟨⟨start, room, tail⟩, headers, footers, alternating, sized, used⟩
    rw [List.forall_mem_cons] at headers footers
    obtain ⟨beside, others⟩ := alternating_cons.mp alternating
    exact ⟨⟨start, room, headers.1, footers.1⟩, beside, tail, headers.2, footers.2, others, sized,
      used⟩
  · rintro ⟨⟨start, room, header, footer⟩, beside, tail⟩
    exact ⟨⟨start, room, tail.tiles⟩, List.forall_mem_cons.mpr ⟨header, tail.headers⟩,
      List.forall_mem_cons.mpr ⟨footer, tail.footers⟩,
      alternating_cons.mpr ⟨beside, tail.alternating⟩, tail.size_top, tail.allocated_top⟩

/-- Extents side by side from a number up to the end of the heap, as an undamaged heap has them:
each is the one that its header describes, begins at a multiple of the alignment and has the same
word at both ends, no two free ones touch, and the block at the end is allocated and has no size.
-/
structure Charted (m : Memory) (a : Nat) (es : List Extent) (top : Block) : Prop where
  tiles : Tiles a es top.address.toNat
  headers : ∀ e ∈ es, Extent.ofBlock m e.block = e
  aligned : ∀ e ∈ es, e.start % 16 = 0
  footers : ∀ e ∈ es, e.block.footerTag m = e.block.tag m
  alternating : Alternating es
  size_top : top.size m = Size.zero
  allocated_top : top.allocated m = true

/-- Extents are charted if they are ranged and each begins at a multiple of the alignment. -/
theorem charted_iff : Charted m a es top ↔ Ranged m a es top ∧ ∀ e ∈ es, e.start % 16 = 0 := by
  constructor
  · rintro ⟨tiles, headers, aligned, footers, alternating, sized, used⟩
    exact ⟨⟨tiles, headers, footers, alternating, sized, used⟩, aligned⟩
  · rintro ⟨⟨tiles, headers, footers, alternating, sized, used⟩, aligned⟩
    exact ⟨tiles, headers, aligned, footers, alternating, sized, used⟩

/-- Extents that are charted are ranged. -/
theorem Charted.ranged (h : Charted m a es top) : Ranged m a es top := (charted_iff.mp h).1

/-- The first of some charted extents is right by itself and beside the next, and the others are
charted behind it.
-/
theorem charted_cons
    : Charted m a (e :: es) top
      ↔ (e.start = a ∧ 32 ≤ e.size.toNat ∧ Extent.ofBlock m e.block = e ∧ e.start % 16 = 0
          ∧ e.block.footerTag m = e.block.tag m)
        ∧ (∀ f ∈ es.head?, e.allocated = true ∨ f.allocated = true)
        ∧ Charted m e.stop es top := by
  rw [charted_iff, charted_iff, ranged_cons, List.forall_mem_cons]
  tauto

/-- An extent that its header describes has the size and the flag in it. -/
theorem eq_ofBlock_iff : Extent.ofBlock m e.block = e
    ↔ e.block.size m = e.size ∧ e.block.allocated m = e.allocated := by
  cases e
  simp [Extent.ofBlock]

/-- Where the next block begins, as long as this one lies inside. -/
theorem toNat_above (top : Block) (limit : top.address.toNat + 8 < UInt64.size)
    (reach : b.address.toNat + (b.size m).toNat ≤ top.address.toNat + 8)
    : (b.above m).address.toNat = b.address.toNat + (b.size m).toNat :=
  Block.toNat_offset (by omega)

/-- Where a walk by address finds nothing, it comes to charted extents. The induction is on the
steps; they cannot run out, since each of them leads upwards by more than its share of what is left
below the end.
-/
theorem exists_charted (top : Block) (limit : top.address.toNat + 8 < UInt64.size)
    (low : 8 ≤ b.address.toNat) (near : b.address.toNat ≤ top.address.toNat + 8)
    (enough : top.address.toNat + 8 < b.address.toNat + 16 * n)
    (none : trailFindings m top.address before (blockTrail m top.address n b) = [])
    : ∃ es, Charted m b.address.toNat es top
        ∧ ∀ f ∈ before, ∀ e ∈ es.head?, f.allocated m = true ∨ e.allocated = true := by
  induction n generalizing b before with
  | zero => omega
  | succ n ih =>
      rw [blockTrail, trailFindings, List.append_eq_nil_iff] at none
      obtain ⟨here, rest⟩ := none
      by_cases within : inside m top.address b = true
      · rw [blockFindings_of_inside within, blockFaults_eq_nil_iff] at here
        obtain ⟨aligned, room, footer, beside⟩ := here
        obtain ⟨-, -, reach⟩ := (inside_iff top limit low).mp within
        have next := toNat_above top limit reach
        rw [if_pos within] at rest
        obtain ⟨es, charted, behind⟩ := ih (by omega) (by omega) (by omega) rest
        rw [next] at charted
        refine ⟨Extent.ofBlock m b :: es, charted_cons.mpr ⟨?_, ?_, charted⟩, ?_⟩
        · exact ⟨rfl, room, rfl, aligned, footer⟩
        · simpa only [Extent.ofBlock] using behind b rfl
        · intro f hf e he
          rw [List.head?_cons, Option.mem_some_iff] at he
          simpa only [← he, Extent.ofBlock] using beside f hf
      · rw [blockFindings_eq_nil_of_outside within] at here
        obtain ⟨rfl, sized, used⟩ := here
        exact ⟨[], ⟨rfl, by simp, by simp, by simp, .nil, sized, used⟩, by simp⟩

/-- Extents with their tags in memory are ranged, if they lie side by side as they should. -/
theorem ranged_of_tagged (tiles : Tiles a es top.address.toNat) (alternating : Alternating es)
    (tagged : ∀ e ∈ es, e.Tagged m) (ceiling : top.tag m = Heap.epilogueTag)
    : Ranged m a es top where
  tiles := tiles
  headers := fun e he => (tagged e he).ofBlock_eq
  footers := fun e he => (tagged e he).footerTag_eq.trans (tagged e he).tag_eq.symm
  alternating := alternating
  size_top := by rw [Block.size, ceiling, Heap.epilogueTag, Tag.size_pack]
  allocated_top := by rw [Block.allocated, ceiling, Heap.epilogueTag, Tag.allocated_pack]

/-- They are charted if they are aligned as well. -/
theorem charted_of_tagged (tiles : Tiles a es top.address.toNat)
    (aligned : ∀ e ∈ es, e.start % 16 = 0) (alternating : Alternating es)
    (tagged : ∀ e ∈ es, e.Tagged m) (ceiling : top.tag m = Heap.epilogueTag)
    : Charted m a es top :=
  charted_iff.mpr ⟨ranged_of_tagged tiles alternating tagged ceiling, aligned⟩

namespace Ranged

/-- The walk by address goes on behind every ranged extent, and not behind the end. -/
theorem inside (h : Ranged m a es top) (low : 8 ≤ a) (he : e ∈ es)
    : inside m top.address e.block = true := by
  obtain ⟨above, room, below⟩ := h.tiles.bounds he
  obtain ⟨size, -⟩ := eq_ofBlock_iff.mp (h.headers e he)
  simp only [Extent.stop, Extent.start] at above below
  have header := Block.toNat_header (b := e.block) (by omega)
  have sized : e.block.size m ≠ Size.zero := by
    intro none
    rw [← size, none, Size.toNat_zero] at room
    omega
  simp only [Audit.inside, Bool.and_eq_true, decide_eq_true_eq, UInt64.le_iff_toNat_le,
    Word.toNat_addSaturating, header, size]
  rw [← Size.toNat]
  exact ⟨⟨by omega, by rwa [size] at sized⟩, by omega⟩

/-- The block at the end of a range does not lie inside. -/
theorem outside_top (h : Ranged m a es top) : Audit.inside m top.address top = false := by
  simp [Audit.inside, h.size_top]

/-- Ranged extents begin where the block of the first of them does, or else where the end does. -/
theorem head_eq (h : Ranged m b.address.toNat es top) : b = es.head?.elim top (·.block) := by
  apply Block.ext_toNat
  cases es with
  | nil => exact h.tiles
  | cons e rest => exact h.tiles.1.symm

/-- The block above a ranged extent begins where that stops. -/
theorem toNat_above (h : Ranged m a es top) (he : e ∈ es)
    : (e.block.above m).address.toNat = e.stop := by
  obtain ⟨-, -, below⟩ := h.tiles.bounds he
  obtain ⟨size, -⟩ := eq_ofBlock_iff.mp (h.headers e he)
  have limit := top.address.toNat_lt_size
  simp only [Extent.stop, Extent.start] at below ⊢
  rw [Block.above, size, Block.toNat_offset (by omega)]

/-- A walk by address over ranged extents comes to these and then to the end. -/
theorem blockTrail_eq (h : Ranged m b.address.toNat es top) (low : 8 ≤ b.address.toNat)
    (enough : es.length < n)
    : blockTrail m top.address n b = es.map (·.block) ++ [top] := by
  induction es generalizing b n with
  | nil =>
      obtain ⟨n, rfl⟩ := Nat.exists_eq_add_one.mpr enough
      obtain rfl := h.head_eq
      simp [blockTrail, h.outside_top]
  | cons e rest ih =>
      obtain ⟨n, rfl⟩ := Nat.exists_eq_add_one.mpr (Nat.zero_lt_of_lt enough)
      obtain rfl := h.head_eq
      rw [List.head?_cons, Option.elim_some] at h low ⊢
      have within := h.inside low (e := e) (by simp)
      have next := h.toNat_above (e := e) (by simp)
      obtain ⟨-, -, others⟩ := ranged_cons.mp h
      rw [← next] at others
      have behind := ih others (by simp only [next, Extent.stop, Extent.start]; omega)
        (by simpa using enough)
      rw [blockTrail, if_pos within, behind, List.map_cons, List.cons_append]

/-- All that is wrong with a ranged extent is where it begins. -/
theorem blockFaults_eq (h : Ranged m a (e :: es) top)
    (beside : ∀ f ∈ before, f.allocated m = true ∨ e.allocated = true)
    : blockFaults m before e.block = if e.start % 16 = 0 then [] else [.misaligned e.block] := by
  obtain ⟨⟨-, room, header, footer⟩, -⟩ := ranged_cons.mp h
  obtain ⟨size, flag⟩ := eq_ofBlock_iff.mp header
  have aligned : e.block.address % alignment = 0 ↔ e.start % 16 = 0 :=
    Size.word_mod_eq_zero_iff e.block.address
  have large : ¬ (e.block.tag m).size < Size.minBlock := by
    rw [← Block.size, size, Size.lt_iff, Size.toNat_minBlock]
    omega
  cases before with
  | none => simp [blockFaults, aligned, large, footer]
  | some f => simp [blockFaults, aligned, large, footer, flag, beside f rfl]

/-- A walk by address over ranged extents finds those that are not aligned, by induction on the
extents.
-/
theorem trailFindings_eq (h : Ranged m a es top) (low : 8 ≤ a)
    (beside : ∀ f ∈ before, ∀ e ∈ es.head?, f.allocated m = true ∨ e.allocated = true)
    : trailFindings m top.address before (es.map (·.block) ++ [top])
      = (es.filter fun e => e.start % 16 ≠ 0).map fun e => .misaligned e.block := by
  induction es generalizing a before with
  | nil =>
      have right : blockFindings m top.address before top = [] :=
        (blockFindings_eq_nil_of_outside (ne_true_of_eq_false h.outside_top)).mpr
          ⟨rfl, h.size_top, h.allocated_top⟩
      simp [trailFindings, right]
  | cons e rest ih =>
      have within := h.inside low (e := e) (by simp)
      have here : blockFaults m before e.block = _ :=
        h.blockFaults_eq fun f hf => beside f hf e rfl
      obtain ⟨⟨rfl, room, header, -⟩, touching, others⟩ := ranged_cons.mp h
      obtain ⟨-, flag⟩ := eq_ofBlock_iff.mp header
      have later : ∀ f ∈ some e.block, ∀ g ∈ rest.head?,
          f.allocated m = true ∨ g.allocated = true := by
        intro f hf
        rw [Option.mem_some_iff] at hf
        rw [← hf, flag]
        exact touching
      have behind := ih others (by simp only [Extent.stop]; omega) later
      rw [List.map_cons, List.cons_append, trailFindings, blockFindings_of_inside within, here,
        behind]
      by_cases aligned : e.start % 16 = 0 <;> simp [aligned]

/-- The free blocks of a walk over ranged extents are the gaps among these. -/
theorem freeBlocks_eq (h : Ranged m a es top) (low : 8 ≤ a)
    : freeBlocks m top.address (es.map (·.block) ++ [top]) = gaps es := by
  have same : ∀ e ∈ es, (Audit.inside m top.address e.block && !e.block.allocated m)
      = !e.allocated := by
    intro e he
    obtain ⟨-, flag⟩ := eq_ofBlock_iff.mp (h.headers e he)
    rw [h.inside low he, flag, Bool.true_and]
  have last : freeBlocks m top.address [top] = [] := by
    simp [freeBlocks, h.outside_top]
  rw [freeBlocks] at last
  rw [freeBlocks, List.filter_append, last, List.append_nil, List.filter_map, gaps]
  exact congrArg _ (List.filter_congr same)

/-- The walk from which a heap's own list of blocks is read visits ranged extents. -/
theorem extentsFrom_eq (h : Ranged m b.address.toNat es top) (enough : es.length ≤ n)
    : Heap.extentsFrom m n b = es := by
  induction es generalizing b n with
  | nil =>
      obtain rfl := h.head_eq
      cases n with
      | zero => rfl
      | succ n => simp [Heap.extentsFrom, h.size_top]
  | cons e rest ih =>
      obtain ⟨n, rfl⟩ := Nat.exists_eq_add_one.mpr (Nat.zero_lt_of_lt enough)
      obtain rfl := h.head_eq
      rw [List.head?_cons, Option.elim_some] at h ⊢
      have next := h.toNat_above (e := e) (by simp)
      obtain ⟨⟨-, room, header, -⟩, -, others⟩ := ranged_cons.mp h
      obtain ⟨size, -⟩ := eq_ofBlock_iff.mp header
      have sized : e.block.size m ≠ Size.zero := by
        intro none
        rw [← size, none, Size.toNat_zero] at room
        omega
      rw [← next] at others
      rw [Heap.extentsFrom, if_neg sized, header, ih others (by simpa using enough)]

end Ranged

/-- A walk by address over charted extents finds nothing. -/
theorem Charted.trailFindings_eq (h : Charted m a es top) (low : 8 ≤ a)
    (beside : ∀ f ∈ before, ∀ e ∈ es.head?, f.allocated m = true ∨ e.allocated = true)
    : trailFindings m top.address before (es.map (·.block) ++ [top]) = [] := by
  have straight : (es.filter fun e => e.start % 16 ≠ 0) = [] := by
    simpa [List.filter_eq_nil_iff] using h.aligned
  rw [h.ranged.trailFindings_eq low beside, straight, List.map_nil]

-----------------------------------------------------------------------------------------
-- What the walk by address depends on
-----------------------------------------------------------------------------------------

section

variable {m' : Memory} {heapEnd : Word} {bs cs : List Block}

/-- The walk by address comes to the same blocks over another memory, if it goes on behind the same
ones, and these have the same sizes.
-/
theorem blockTrail_congr
    (same : ∀ c ∈ blockTrail m heapEnd n b, Audit.inside m' heapEnd c = Audit.inside m heapEnd c
      ∧ (Audit.inside m heapEnd c = true → c.size m' = c.size m))
    : blockTrail m' heapEnd n b = blockTrail m heapEnd n b := by
  induction n generalizing b with
  | zero => rfl
  | succ n ih =>
      rw [blockTrail] at same
      obtain ⟨⟨goesOn, sized⟩, later⟩ := List.forall_mem_cons.mp same
      rw [blockTrail, blockTrail, goesOn]
      by_cases within : Audit.inside m heapEnd b = true
      · have next : b.above m' = b.above m := by rw [Block.above, Block.above, sized within]
        rw [if_pos within] at later
        rw [if_pos within, if_pos within, next, ih later]
      · rw [if_neg within, if_neg within]

/-- What is wrong with a block inside depends on its two tags and on whether the one before it is
free.
-/
theorem blockFaults_congr (tag : b.tag m' = b.tag m) (footer : b.footerTag m' = b.footerTag m)
    (behind : ∀ f ∈ before, f.allocated m' = f.allocated m)
    : blockFaults m' before b = blockFaults m before b := by
  have flag : b.allocated m' = b.allocated m := by rw [Block.allocated, Block.allocated, tag]
  cases before with
  | none => simp only [blockFaults, tag, footer]
  | some f => simp only [blockFaults, tag, footer, flag, behind f rfl]

/-- What is found at a block beyond the end does not depend on its header, and what is found at one
that does not lie inside does not depend on its footer.
-/
theorem blockFindings_congr (tag : b.address ≤ heapEnd → b.tag m' = b.tag m)
    (footer : Audit.inside m heapEnd b = true → b.footerTag m' = b.footerTag m)
    (behind : ∀ f ∈ before, f.allocated m' = f.allocated m)
    : blockFindings m' heapEnd before b = blockFindings m heapEnd before b := by
  by_cases beyond : heapEnd < b.address
  · simp only [blockFindings, if_pos beyond]
  · have header := tag (UInt64.not_lt.mp beyond)
    have size : b.size m' = b.size m := by rw [Block.size, Block.size, header]
    have flag : b.allocated m' = b.allocated m := by rw [Block.allocated, Block.allocated, header]
    by_cases within : Audit.inside m heapEnd b = true
    · have faults := blockFaults_congr header (footer within) behind
      simp only [blockFindings, header, size, flag, faults]
    · by_cases sized : b.size m = Size.zero
      · simp only [blockFindings, header, size, flag, if_pos sized]
      · have short := lt_of_not_inside beyond sized within
        simp only [blockFindings, header, size, flag, if_pos short]

/-- What is found along a trail depends on the headers of its blocks, and on the footers of those
that lie inside.
-/
theorem trailFindings_congr
    (tags : ∀ c ∈ bs, c.tag m' = c.tag m
      ∧ (Audit.inside m heapEnd c = true → c.footerTag m' = c.footerTag m))
    (behind : ∀ f ∈ before, f.allocated m' = f.allocated m)
    : trailFindings m' heapEnd before bs = trailFindings m heapEnd before bs := by
  induction bs generalizing before with
  | nil => rfl
  | cons b rest ih =>
      obtain ⟨⟨tag, footer⟩, later⟩ := List.forall_mem_cons.mp tags
      rw [trailFindings, trailFindings, blockFindings_congr (fun _ => tag) footer behind, ih later]
      intro f hf
      rw [← Option.mem_some_iff.mp hf, Block.allocated, Block.allocated, tag]

/-- What is found along a trail is found along its first part and then along the second. -/
theorem trailFindings_append
    : trailFindings m heapEnd before (bs ++ cs)
      = trailFindings m heapEnd before bs
        ++ trailFindings m heapEnd (bs.getLast?.or before) cs := by
  induction bs generalizing before with
  | nil => rfl
  | cons b rest ih =>
      have last : (b :: rest).getLast?.or before = rest.getLast?.or (some b) := by
        rw [List.getLast?_cons, Option.or_some]
        cases rest.getLast? <;> rfl
      rw [List.cons_append, trailFindings, trailFindings, ih, last, List.append_assoc]

end

-----------------------------------------------------------------------------------------
-- The walk along the free list
-----------------------------------------------------------------------------------------

/-- A member of the free list lies right if it is aligned, and its header and its links are in the
handed-out part of the region.
-/
theorem holdsLinks_iff (low : r.start.toNat + 8 < UInt64.size)
    (limit : r.frontier.toNat + 8 < UInt64.size)
    : holdsLinks r b = true
      ↔ b.address.toNat % 16 = 0 ∧ r.start.toNat + 8 ≤ b.address.toNat
        ∧ b.address.toNat + 16 ≤ r.frontier.toNat := by
  have aligned : b.address % alignment = 0 ↔ b.address.toNat % 16 = 0 :=
    Size.word_mod_eq_zero_iff b.address
  have links : (Word.width + Word.width).toNat = 16 := rfl
  have first : (r.start + Word.width).toNat = r.start.toNat + 8 := by
    rw [UInt64.toNat_add]
    exact Nat.mod_eq_of_lt low
  have reach : b.address.addSaturating (Word.width + Word.width) ≤ r.frontier
      ↔ b.address.toNat + 16 ≤ r.frontier.toNat := by
    rw [UInt64.le_iff_toNat_le, Word.toNat_addSaturating, links]
    omega
  simp only [holdsLinks, Bool.and_eq_true, decide_eq_true_eq, aligned, reach,
    UInt64.le_iff_toNat_le, first, and_assoc]

/-- Nothing is wrong with a member that lies right, was not passed before, is free and leads back to
the one before it.
-/
theorem memberFindings_eq_nil_iff
    : memberFindings m r passed b = []
      ↔ holdsLinks r b = true ∧ b ∉ passed ∧ b.allocated m = false
        ∧ b.predecessor m = passed.head? := by
  by_cases holds : holdsLinks r b = true
  · by_cases again : b ∈ passed
    · simp [memberFindings, holds, again]
    · simp [memberFindings, holds, again]
  · simp [memberFindings, holds]

/-- The walk along the free list goes on behind a member with which nothing is wrong. -/
theorem goesOn_of_right (right : memberFindings m r passed b = [])
    : (holdsLinks r b && !passed.contains b) = true := by
  obtain ⟨holds, fresh, -⟩ := memberFindings_eq_nil_iff.mp right
  simp [holds, fresh]

/-- Members of the free list as an undamaged heap has them, behind those that a walk has passed
already: linked in both directions, each of them only once, free, and where a member can lie.
-/
structure Threaded (m : Memory) (r : Region) (passed xs : List Block) : Prop where
  linked : Pool.Linked m passed.head? xs none
  distinct : (xs ++ passed).Nodup
  holds : ∀ b ∈ xs, holdsLinks r b = true
  free : ∀ b ∈ xs, b.allocated m = false

/-- The first of some members is right by itself, and the others are so once it is passed. -/
theorem threaded_cons
    : Threaded m r passed (b :: xs)
      ↔ memberFindings m r passed b = [] ∧ b.successor m = xs.head?
        ∧ Threaded m r (b :: passed) xs := by
  rw [memberFindings_eq_nil_iff]
  have moved : (b :: xs ++ passed).Nodup ↔ (xs ++ b :: passed).Nodup := by
    rw [List.cons_append]
    exact List.perm_middle.symm.nodup_iff
  constructor
  · rintro ⟨⟨back, on, linked⟩, distinct, holds, free⟩
    rw [List.forall_mem_cons] at holds free
    rw [Option.or_none] at on
    have fresh : b ∉ passed := by
      rw [List.cons_append, List.nodup_cons] at distinct
      exact fun again => distinct.1 (List.mem_append_right xs again)
    exact ⟨⟨holds.1, fresh, free.1, back⟩, on, linked, moved.mp distinct, holds.2, free.2⟩
  · rintro ⟨⟨holds, fresh, free, back⟩, on, ⟨linked, distinct, others, unused⟩⟩
    refine ⟨⟨back, ?_, linked⟩, moved.mpr distinct, ?_, ?_⟩
    · rwa [Option.or_none]
    · exact List.forall_mem_cons.mpr ⟨holds, others⟩
    · exact List.forall_mem_cons.mpr ⟨free, unused⟩

/-- Not every block has a place where it could be listed, so a walk has steps left after any number
of distinct members.
-/
theorem length_lt_walkLimit (low : r.start.toNat + 8 < UInt64.size)
    (limit : r.frontier.toNat + 8 < UInt64.size) (held : ∀ b ∈ passed, holdsLinks r b = true)
    (distinct : passed.Nodup)
    : passed.length < Pool.walkLimit := by
  have absent : (⟨0⟩ : Block) ∉ passed := by
    intro listed
    obtain ⟨-, above, -⟩ := (holdsLinks_iff low limit).mp (held _ listed)
    simp at above
  exact Pool.length_le_walkLimit (List.nodup_cons.mpr ⟨absent, distinct⟩)

/-- Where a walk along the free list finds nothing, it comes to members as they should be, by
induction over its steps.
-/
theorem exists_threaded (low : r.start.toNat + 8 < UInt64.size)
    (limit : r.frontier.toNat + 8 < UInt64.size) (held : ∀ b ∈ passed, holdsLinks r b = true)
    (distinct : passed.Nodup) (enough : passed.length + n = Pool.walkLimit)
    (none : listFindings m r passed (listTrail m r n passed link) = [])
    : ∃ xs, link = xs.head? ∧ Threaded m r passed xs := by
  induction n generalizing passed link with
  | zero =>
      have less := length_lt_walkLimit low limit held distinct
      omega
  | succ n ih =>
      cases link with
      | none => exact ⟨[], rfl, trivial, distinct, by simp, by simp⟩
      | some b =>
          rw [listTrail, listFindings, List.append_eq_nil_iff] at none
          obtain ⟨here, rest⟩ := none
          obtain ⟨holds, fresh, -⟩ := memberFindings_eq_nil_iff.mp here
          rw [if_pos (goesOn_of_right here)] at rest
          obtain ⟨xs, next, threaded⟩ := ih (List.forall_mem_cons.mpr ⟨holds, held⟩)
            (List.nodup_cons.mpr ⟨fresh, distinct⟩) (by rw [List.length_cons]; omega) rest
          exact ⟨b :: xs, rfl, threaded_cons.mpr ⟨here, next, threaded⟩⟩

/-- A walk along the free list stops at the first member that does not lie right. -/
theorem listTrail_of_not_holds (astray : ∀ b ∈ link, holdsLinks r b = false) (some_steps : 0 < n)
    : listTrail m r n passed link = link.toList := by
  obtain ⟨n, rfl⟩ := Nat.exists_eq_add_one.mpr some_steps
  cases link with
  | none => rfl
  | some b => simp [listTrail, astray b rfl]

/-- Of members that do not lie right, nothing else is looked at. -/
theorem listFindings_of_not_holds (astray : ∀ b ∈ xs, holdsLinks r b = false)
    : listFindings m r passed xs = xs.map .listedOutOfBounds := by
  induction xs generalizing passed with
  | nil => rfl
  | cons b rest ih =>
      obtain ⟨here, others⟩ := List.forall_mem_cons.mp astray
      rw [listFindings, memberFindings, here, ih others]
      rfl

namespace Threaded

/-- A walk along the free list comes to its members. -/
theorem listTrail_eq (h : Threaded m r passed xs) (enough : xs.length ≤ n)
    : listTrail m r n passed xs.head? = xs := by
  induction xs generalizing passed n with
  | nil => cases n <;> rfl
  | cons b rest ih =>
      obtain ⟨n, rfl⟩ := Nat.exists_eq_add_one.mpr (Nat.zero_lt_of_lt enough)
      obtain ⟨here, on, others⟩ := threaded_cons.mp h
      rw [List.head?_cons, listTrail, if_pos (goesOn_of_right here), on,
        ih others (by simpa using enough)]

/-- A walk along the free list finds nothing wrong with its members. -/
theorem listFindings_eq (h : Threaded m r passed xs) : listFindings m r passed xs = [] := by
  induction xs generalizing passed with
  | nil => rfl
  | cons b rest ih =>
      obtain ⟨here, -, others⟩ := threaded_cons.mp h
      rw [listFindings, here, ih others, List.append_nil]

end Threaded

-----------------------------------------------------------------------------------------
-- What the walk along the free list depends on
-----------------------------------------------------------------------------------------

section

variable {m' : Memory} {ys : List Block}

/-- The walk along the free list comes to the same members over another memory, if those that lie
right lead on to the same ones.
-/
theorem listTrail_congr
    (same : ∀ c ∈ listTrail m r n passed link, holdsLinks r c = true
      → c.successor m' = c.successor m)
    : listTrail m' r n passed link = listTrail m r n passed link := by
  induction n generalizing passed link with
  | zero => rfl
  | succ n ih =>
      cases link with
      | none => rfl
      | some b =>
          rw [listTrail] at same
          obtain ⟨next, later⟩ := List.forall_mem_cons.mp same
          rw [listTrail, listTrail]
          by_cases goesOn : (holdsLinks r b && !passed.contains b) = true
          · rw [if_pos goesOn] at later
            rw [if_pos goesOn, if_pos goesOn, next (Bool.and_eq_true_iff.mp goesOn).1, ih later]
          · rw [if_neg goesOn, if_neg goesOn]

/-- What is found along the free list depends on the flags of the members that lie right, and on the
members that these lead back to.
-/
theorem listFindings_congr
    (same : ∀ c ∈ xs, holdsLinks r c = true
      → c.allocated m' = c.allocated m ∧ c.predecessor m' = c.predecessor m)
    : listFindings m' r passed xs = listFindings m r passed xs := by
  induction xs generalizing passed with
  | nil => rfl
  | cons b rest ih =>
      obtain ⟨here, later⟩ := List.forall_mem_cons.mp same
      have member : memberFindings m' r passed b = memberFindings m r passed b := by
        by_cases holds : holdsLinks r b = true
        · obtain ⟨flag, back⟩ := here holds
          simp only [memberFindings, flag, back]
        · simp [memberFindings, holds]
      rw [listFindings, listFindings, member, ih later]

/-- What is found along the free list is found along its first part and then along the second. -/
theorem listFindings_append
    : listFindings m r passed (xs ++ ys)
      = listFindings m r passed xs ++ listFindings m r (xs.reverse ++ passed) ys := by
  induction xs generalizing passed with
  | nil => rfl
  | cons b rest ih =>
      rw [List.cons_append, listFindings, listFindings, ih, List.append_assoc,
        List.reverse_cons, List.append_assoc, List.singleton_append]

end

end Audit

end BoundaryTag
