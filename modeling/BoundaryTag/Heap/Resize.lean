import BoundaryTag.Heap.Allocation

/-! Changing the size of an allocated block while keeping its contents, up to the smaller of both
sizes.
-/

namespace BoundaryTag.Heap

/-- Moves the contents of a block to a newly allocated one, and frees the old. -/
def moveAway (h : Heap) (b : Block) (wanted : Size) (kept : Word)
    : Except Refusal Block × Heap :=
  match h.serve wanted with
  | (.error e, h) => (.error e, h)
  | (.ok target, h) =>
    let h := h.note (.moving b target kept)
    (.ok target, (h.withPool (h.movePayload b target kept)).free b)

/-- Carries out a plan for a block. -/
def carryOut (h : Heap) (plan : Plan) (b : Block) (wanted : Size) (kept : Word)
    : Except Refusal Block × Heap :=
  match plan with
  | .stay => (.ok b, h.withPool (h.trim b wanted))
  | .growDown below =>
    let (target, pool) := h.growDown b below wanted kept
    (.ok target, h.withPool pool)
  | .growUp above => (.ok b, h.withPool (h.growUp b above wanted))
  | .growBothWays below above => (.ok below, h.withPool (h.growBothWays b below above wanted kept))
  | .moveAway => h.moveAway b wanted kept

/-- Gives a block room for a number of bytes, and says where it is afterwards. Without a block
this allocates one; for no bytes it frees the block, whose address is returned but is no longer
good for anything. A failure leaves the block as it was.
-/
def resize (h : Heap) (b? : Option Block) (bytes : Word)
    : Except Refusal (Option Block) × Heap :=
  match b? with
  | none => h.allocate bytes
  | some b =>
    if bytes = 0 then
      (.ok (some b), h.free b)
    else
      match Size.forRequest? bytes with
      | none => (.error (.tooLarge bytes), h)
      | some wanted =>
        let kept := min bytes (h.usableSize b).word
        let plan := Plan.choose h.memory b wanted
        let (result, h) := (h.note (.resizing b wanted plan)).carryOut plan b wanted kept
        (result.map some, h)

end BoundaryTag.Heap
