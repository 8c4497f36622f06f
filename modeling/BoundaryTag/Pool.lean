import BoundaryTag.Block

/-! The free list: blocks linked to one another through the first two words of their payloads.
The list lives in the memory that it describes, so its operations change both together.
-/

namespace BoundaryTag

/-- A memory together with the first member of a list of free blocks threaded through it. -/
structure Pool where
  memory : Memory
  head : Link

namespace Pool

/-- Changes the link of a block to its predecessor. -/
def setPredecessor (p : Pool) (b : Block) (link : Link) : Pool :=
  { p with memory := b.setPredecessor p.memory link }

/-- Changes the link of a block to its successor. -/
def setSuccessor (p : Pool) (b : Block) (link : Link) : Pool :=
  { p with memory := b.setSuccessor p.memory link }

/-- Writes the same tag at both ends of a block. -/
def writeTags (p : Pool) (b : Block) (size : Size) (allocated : Bool) : Pool :=
  { p with memory := b.writeTags p.memory size allocated }

/-- Lets whatever stands before a place in the list, a member or the head, lead to the given
link.
-/
def relinkBefore (p : Pool) (predecessor link : Link) : Pool :=
  match predecessor with
  | some b => p.setSuccessor b link
  | none => { p with head := link }

/-- Lets whatever stands after a place in the list, a member or nothing, lead back to the given
link.
-/
def relinkAfter (p : Pool) (successor link : Link) : Pool :=
  match successor with
  | some b => p.setPredecessor b link
  | none => p

/-- Lists a block at the head. -/
def insert (p : Pool) (b : Block) : Pool :=
  let p' := ((p.setPredecessor b none).setSuccessor b p.head).relinkAfter p.head (some b)
  { p' with head := some b }

/-- Takes a listed block out of the list. Its own links stay behind in its payload. -/
def remove (p : Pool) (b : Block) : Pool :=
  let predecessor := b.predecessor p.memory
  let successor := b.successor p.memory
  (p.relinkBefore predecessor successor).relinkAfter successor predecessor

/-- Puts another block at the place of a listed one. -/
def replace (p : Pool) (old new : Block) : Pool :=
  let predecessor := old.predecessor p.memory
  let successor := old.successor p.memory
  let p := (p.setPredecessor new predecessor).setSuccessor new successor
  (p.relinkBefore predecessor (some new)).relinkAfter successor (some new)

/-- More steps than a walk through distinct addresses can take. -/
def walkLimit : Nat := UInt64.size

/-- The blocks met by following successors from a link, for a number of steps. -/
def chain (m : Memory) : Nat → Link → List Block
  | 0, _ => []
  | _, none => []
  | n + 1, some b => b :: chain m n (b.successor m)

/-- The first block with a property that is met by following successors from a link. -/
def chainFind? (m : Memory) (found : Block → Bool) : Nat → Link → Option Block
  | 0, _ => none
  | _, none => none
  | n + 1, some b => if found b then some b else chainFind? m found n (b.successor m)

/-- The members of the list in list order. -/
def members (p : Pool) : List Block :=
  chain p.memory walkLimit p.head

/-- Whether a block has room for a number of bytes, by its header. -/
def fits (p : Pool) (bytes : Word) (b : Block) : Bool :=
  bytes ≤ (b.size p.memory).word

/-- The first member, in list order, that has at least the given size. -/
def firstFit? (p : Pool) (bytes : Word) : Option Block :=
  chainFind? p.memory (p.fits bytes) walkLimit p.head

/-- Searching while following the links finds what searching the whole chain finds. -/
theorem chainFind?_eq_find? (m : Memory) (found : Block → Bool) (n : Nat) (link : Link)
    : chainFind? m found n link = (chain m n link).find? found := by
  induction n generalizing link with
  | zero => simp [chainFind?, chain]
  | succ n ih =>
    cases link with
    | none => simp [chainFind?, chain]
    | some b => by_cases h : found b <;> simp [chainFind?, chain, h, ih]

/-- First fit is the first fitting member of the list. -/
theorem firstFit?_eq_find? (p : Pool) (bytes : Word)
    : p.firstFit? bytes = p.members.find? (p.fits bytes) :=
  chainFind?_eq_find? ..

end Pool

end BoundaryTag
