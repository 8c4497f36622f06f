import BoundaryTag.Pool

/-! Merging: a block that has become free is joined with the free blocks that touch it, so that
no two free blocks ever lie side by side.
-/

namespace BoundaryTag.Pool

/-- Joins an unlisted free block with those of its two neighbours that are free, and lists the
result at the head. The result begins at the lower neighbour if that is free. Neighbours leave
the list before their sizes are read.
-/
def merge (p : Pool) (b : Block) : Block × Pool :=
  let below := b.below p.memory
  let above := b.above p.memory
  let size := b.size p.memory
  let (merged, total, p) :=
    match below.allocated p.memory, above.allocated p.memory with
    | true, true => (b, size, p)
    | true, false =>
      let p := p.remove above
      (b, size + above.size p.memory, p)
    | false, true =>
      let p := p.remove below
      (below, size + below.size p.memory, p)
    | false, false =>
      let p := (p.remove below).remove above
      (below, size + (below.size p.memory + above.size p.memory), p)
  (merged, (p.writeTags merged total false).insert merged)

end BoundaryTag.Pool
