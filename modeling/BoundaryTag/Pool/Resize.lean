import BoundaryTag.Pool.Merge

/-! Resizing within reach: how a block can change its size where it is, or by growing into the
free blocks that touch it. The plan is chosen from the headers alone; carrying one out moves the
payload before any tag inside the range is rewritten.
-/

namespace BoundaryTag

/-- The ways to give a block another size. -/
inductive Plan
  /-- The block is large enough where it is. -/
  | stay
  /-- The block grows into the free block below it. -/
  | growDown (below : Block)
  /-- The block grows into the free block above it. -/
  | growUp (above : Block)
  /-- The block grows into both. -/
  | growBothWays (below above : Block)
  /-- The contents have to go elsewhere. -/
  | moveAway
deriving DecidableEq

namespace Plan

/-- Chooses how a block gets the wanted size: what is large enough stays, the free block below
is tried before the one above, and the two together come last.
-/
def choose (m : Memory) (b : Block) (wanted : Size) : Plan :=
  let size := b.size m
  let below := b.below m
  let above := b.above m
  let belowFree := !below.allocated m
  let aboveFree := !above.allocated m
  if wanted ≤ size then
    .stay
  else if belowFree ∧ wanted ≤ below.size m + size then
    .growDown below
  else if aboveFree ∧ wanted ≤ size + above.size m then
    .growUp above
  else if belowFree ∧ aboveFree ∧ wanted ≤ below.size m + size + above.size m then
    .growBothWays below above
  else
    .moveAway

/-- A plan with the blocks that it uses up. -/
def describe : Plan → String
  | .stay => "InPlace"
  | .growDown below => Text.record "GrowLeft" [("prev", below.describe)]
  | .growUp above => Text.record "GrowRight" [("next", above.describe)]
  | .growBothWays below above =>
    Text.record "GrowBoth" [("prev", below.describe), ("next", above.describe)]
  | .moveAway => "Relocate"

end Plan

namespace Pool

/-- Copies a run of bytes from the payload of one block to that of another. -/
def movePayload (p : Pool) (source target : Block) (count : Word) : Pool :=
  { p with memory := p.memory.copy source.address target.address count }

/-- Allocates the wanted number of bytes at the low end of an unlisted range of the given size,
and lists the rest if it can form a block. What lies above the range is allocated, so the rest
has nothing to merge with.
-/
def claim (p : Pool) (b : Block) (total wanted : Size) : Pool :=
  let slack := total - wanted
  if Size.minBlock ≤ slack then
    let remainder := b.offset wanted.word
    ((p.writeTags b wanted true).writeTags remainder slack false).insert remainder
  else
    p.writeTags b total true

/-- Shortens a block to the wanted size if what it gives up can form a block of its own, which
is then free.
-/
def trim (p : Pool) (b : Block) (wanted : Size) : Pool :=
  let slack := b.size p.memory - wanted
  if Size.minBlock ≤ slack then
    let p := p.writeTags b wanted true
    let remainder := b.above p.memory
    ((p.writeTags remainder slack false).merge remainder).2
  else
    p

/-- Grows a block into the free block below it, and says where it is afterwards. It moves only
as far down as it has to, to the top of the joined range; the slack stays behind as a smaller
free block if it can form one.
-/
def growDown (p : Pool) (b below : Block) (wanted : Size) (kept : Word) : Block × Pool :=
  let total := below.size p.memory + b.size p.memory
  let p := p.remove below
  let slack := total - wanted
  if Size.minBlock ≤ slack then
    let target := below.offset slack.word
    let p := p.movePayload b target kept
    (target, ((p.writeTags below slack false).writeTags target wanted true).insert below)
  else
    (below, (p.movePayload b below kept).writeTags below total true)

/-- Grows a block into the free block above it. -/
def growUp (p : Pool) (b above : Block) (wanted : Size) : Pool :=
  let total := b.size p.memory + above.size p.memory
  (p.remove above).claim b total wanted

/-- Grows a block into the free blocks on both sides, which puts it where the lower one began.
-/
def growBothWays (p : Pool) (b below above : Block) (wanted : Size) (kept : Word) : Pool :=
  let total := below.size p.memory + b.size p.memory + above.size p.memory
  (((p.remove below).remove above).movePayload b below kept).claim below total wanted

end Pool

end BoundaryTag
