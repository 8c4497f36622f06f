import BoundaryTag.Pool

/-! Carving: a request is served from the low end of a free block. What is left over stays free
if it can form a block of its own.
-/

namespace BoundaryTag.Pool

/-- Allocates a listed block as a whole. -/
def takeWhole (p : Pool) (b : Block) : Pool :=
  let size := b.size p.memory
  (p.remove b).writeTags b size true

/-- Allocates the low end of a listed block. The rest takes over the place of the block in the
list; the tags of the rest come first, because its links are written over the block's payload.
-/
def splitOff (p : Pool) (b : Block) (wanted rest : Size) : Pool :=
  let remainder := b.offset wanted.word
  ((p.writeTags remainder rest false).replace b remainder).writeTags b wanted true

/-- Allocates the wanted number of bytes at the low end of a listed block. A rest that is too
small for a block of its own is allocated along with them. The allocated block, which begins where
the listed one did, comes back along with the pool.
-/
def carve (p : Pool) (b : Block) (wanted : Size) : Block × Pool :=
  let rest := b.size p.memory - wanted
  (b, if Size.minBlock ≤ rest then p.splitOff b wanted rest else p.takeWhole b)

/-- What is carved out of a block begins where the block does. -/
@[simp]
theorem carve_fst (p : Pool) (b : Block) (wanted : Size) : (p.carve b wanted).1 = b := rfl

/-- The block that carving returns is known beforehand, whatever it makes of the pool. -/
theorem carve_eq (p : Pool) (b : Block) (wanted : Size)
    : p.carve b wanted = (b, (p.carve b wanted).2) :=
  (Prod.eta (p.carve b wanted)).symm

/-- Carving any number of bytes out of a listed block. Only a split needs them to be a size, so
elsewhere an unaligned number is no fault.
-/
def carveBytes (p : Pool) (b : Block) (wanted : Word) : Except Fault (Block × Pool) :=
  match Size.ofWord wanted with
  | .ok wanted => .ok (p.carve b wanted)
  | .error fault =>
    if Size.minBlock.word ≤ (b.size p.memory).word - wanted then
      .error fault
    else
      .ok (b, p.takeWhole b)

/-- Carving as many bytes as a size has is carving that size, and never a fault. -/
theorem carveBytes_word (p : Pool) (b : Block) (wanted : Size)
    : p.carveBytes b wanted.word = .ok (p.carve b wanted) := by
  simp only [carveBytes, Size.ofWord, wanted.aligned, dif_pos]

end BoundaryTag.Pool
