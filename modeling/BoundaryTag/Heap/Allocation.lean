import BoundaryTag.Heap.Growth
import BoundaryTag.Pool.Carve

/-! Allocating and freeing blocks. A failed request changes nothing but the journal. -/

namespace BoundaryTag.Heap

/-- Allocates a block of a given size: out of the first free block that has room, or else out of
what the heap grows by, which is the size or a chunk, whichever is more.
-/
def serve (h : Heap) (wanted : Size) : Except Refusal Block × Heap :=
  match h.firstFit? wanted.word with
  | some b =>
    let (carved, pool) := h.carve b wanted
    (.ok carved, h.withPool pool)
  | none =>
    let increment := max wanted h.settings.chunkSize
    match h.grow increment with
    | .error e => (.error (.noRoomToGrow increment e), h.note (.growthRefused wanted e))
    | .ok (b, h) =>
      let (carved, pool) := h.carve b wanted
      (.ok carved, h.withPool pool)

/-- Allocates a block for a number of bytes. No bytes need no block. -/
def allocate (h : Heap) (bytes : Word) : Except Refusal (Option Block) × Heap :=
  if bytes = 0 then
    (.ok none, h)
  else
    match Size.forRequest? bytes with
    | none => (.error (.tooLarge bytes), h)
    | some wanted =>
      let (result, h) := h.serve wanted
      (result.map some, h)

/-- Allocates a block for some elements of a given size, and clears it. A product that does not
fit counts as the greatest request there is.
-/
def allocateZeroed (h : Heap) (count size : Word) : Except Refusal (Option Block) × Heap :=
  match Word.mul? count size with
  | none => (.error (.tooLarge Word.greatest), h)
  | some total =>
    match h.allocate total with
    | (.ok (some b), h) => (.ok (some b), { h with memory := h.memory.clear b.address total })
    | failedOrEmpty => failedOrEmpty

/-- Frees an allocated block. -/
def free (h : Heap) (b : Block) : Heap :=
  h.withPool ((h.writeTags b (b.size h.memory) false).merge b).2

end BoundaryTag.Heap
