import BoundaryTag.Proofs.Growth

/-! Walking over a layout: going up by the sizes in the headers visits its extents one by one, and
going down by those in the footers visits the same blocks in reverse.
-/

namespace BoundaryTag

/-- The blocks below the given one, nearest first, for a number of steps. -/
def descent (m : Memory) : Nat → Block → List Block
  | 0, _ => []
  | n + 1, b => b.below m :: descent m n (b.below m)

/-- The walk upwards from a block shows the given extents, and ends by itself at a block without a
size.
-/
inductive Visits (m : Memory) : Block → List Extent → Prop
  | stop {b : Block} (empty : b.size m = Size.zero) : Visits m b []
  | goOn {b : Block} {rest : List Extent} (sized : b.size m ≠ Size.zero)
    (further : Visits m (b.above m) rest) : Visits m b (Extent.ofBlock m b :: rest)

/-- As many steps as there are extents are enough to walk over them, and more do not matter. -/
theorem Visits.extentsFrom_eq {m : Memory} {b : Block} {es : List Extent} (visits : Visits m b es)
    {n : Nat} (enough : es.length ≤ n)
    : Heap.extentsFrom m n b = es := by
  induction visits generalizing n with
  | stop empty => cases n <;> simp [Heap.extentsFrom, empty]
  | goOn sized further ih =>
      cases n with
      | zero => simp at enough
      | succ n => rw [Heap.extentsFrom, if_neg sized, ih (by simpa using enough)]

namespace Pool.Laid

variable {p : Pool} {low top : Block} {es l r : List Extent} {xs : List Block}

/-- The end of a layout has no size. -/
theorem size_top (h : p.Laid low es top xs) : top.size p.memory = Size.zero := by
  rw [Block.size, h.ceiling, Heap.epilogueTag, Tag.size_pack]

/-- The low end of a layout leads to its first extent. -/
theorem above_bottom (h : p.Laid low es top xs)
    : low.above p.memory = es.head?.elim top (·.block) := by
  have hle := h.tiles.le
  have htop := top.address.toNat_lt_size
  have hsize : Heap.prologueSize.toNat = 16 := rfl
  have above := h.bottom.above_eq
  simp only [sentinel] at above
  apply Block.ext_toNat
  rw [above, Block.toNat_offset (by omega), hsize]
  cases es with
  | nil => exact h.tiles
  | cons e rest => exact h.tiles.1.symm

/-- The low end of a layout leads to where its first extent begins. -/
theorem toNat_above_bottom (h : p.Laid low es top xs)
    : (low.above p.memory).address.toNat = low.address.toNat + 16 := by
  rw [h.above_bottom]
  cases es with
  | nil => exact h.tiles.symm
  | cons e rest => exact h.tiles.1

/-- A walk upwards from inside a layout visits the extents that are left, by induction on them.
-/
theorem visits (h : p.Laid low (l ++ r) top xs)
    : Visits p.memory (r.head?.elim top (·.block)) r := by
  induction r generalizing l with
  | nil => exact .stop h.size_top
  | cons e rest ih =>
      have he : e ∈ l ++ e :: rest := by simp
      have tagged := h.tagged e he
      have sized : e.block.size p.memory ≠ Size.zero := by
        intro none
        have room := (h.bounds he).2.1
        rw [← tagged.size_eq, none, Size.toNat_zero] at room
        omega
      have next := h.above_eq
      rw [List.append_cons] at h
      have further := ih h
      rw [← next] at further
      have visited := Visits.goOn sized further
      rwa [tagged.ofBlock_eq] at visited

/-- A walk downwards from the end of some lower extents visits these and then the low end, by
induction from the highest of them.
-/
theorem descent_eq (h : p.Laid low (l ++ r) top xs) {b : Block}
    (front : Tiles (low.address.toNat + 16) l b.address.toNat)
    : descent p.memory (l.length + 1) b = (l.map (·.block)).reverse ++ [low] := by
  induction l using List.reverseRecOn generalizing r b with
  | nil => simp [descent, h.below_eq front, sentinel]
  | append_singleton l e ih =>
      obtain ⟨y, lower, rfl, -, -⟩ := tiles_append.mp front
      have below : b.below p.memory = e.block := by
        rw [h.below_eq front, List.getLast?_concat, Option.getD_some]
      rw [← List.append_cons] at h
      have rest := ih h lower
      rw [List.length_append, List.length_singleton, descent, below, rest]
      simp

/-- A walk downwards from the end of a layout visits all of it in reverse. -/
theorem descent_top (h : p.Laid low es top xs)
    : descent p.memory (es.length + 1) top = (es.map (·.block)).reverse ++ [low] := by
  rw [← List.append_nil es] at h
  have front := h.tiles
  rw [List.append_nil] at front
  exact h.descent_eq front

end Pool.Laid

namespace Heap.InOrder

variable {h : Heap} {es : List Extent} {xs : List Block}

/-- The walk over a heap in order visits its layout, and ends by itself. -/
theorem visits (ord : h.InOrder es xs) : Visits h.memory (h.prologue.above h.memory) es := by
  rw [ord.settled.above_bottom]
  exact ord.settled.visits (l := [])

/-- So the walk shows this layout. -/
theorem blocks_eq (ord : h.InOrder es xs) : h.blocks = es := by
  have enough := Pool.length_le_walkLimit ord.settled.tiles.nodup_blocks
  rw [List.length_map] at enough
  exact ord.visits.extentsFrom_eq enough

/-- The walk over the free list of a heap in order visits the listed blocks. -/
theorem members_eq (ord : h.InOrder es xs) : h.members = xs := ord.settled.lists.members_eq

end Heap.InOrder

end BoundaryTag
