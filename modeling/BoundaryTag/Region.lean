import BoundaryTag.Size

/-! Regions: ranges of addresses that are handed out from the low end upwards and never taken
back. A region knows nothing of the memory behind its addresses.
-/

namespace BoundaryTag

/-- A range of addresses of which the lowest part is handed out. -/
structure Region where
  start : Word
  used : Word
  capacity : Word
deriving DecidableEq

namespace Region

/-- Why a region handed nothing out: more was asked for than is left. -/
structure Exhausted where
  requested : Word
  available : Word
deriving DecidableEq

/-- What is said about an exhausted region. -/
def Exhausted.message (e : Exhausted) : String :=
  "heap region exhausted: requested=" ++ Text.decimal e.requested ++ ", available="
    ++ Text.decimal e.available

/-- An exhausted region by its figures. -/
def Exhausted.describe (e : Exhausted) : String :=
  Text.record "ExtendError"
    [("requested", Text.decimal e.requested), ("available", Text.decimal e.available)]

/-- The largest capacity that a fresh region may have: what rounds up to half of the address
space or more is too large.
-/
def largestCapacity : Word := 0x7ffffffffffffff0

/-- A fresh region of at least the given capacity behind an aligned address. The capacity is
rounded up; none at all, or more than half of the address space, is a fault.
-/
def ofCapacity (start capacity : Word) : Except Fault Region :=
  if capacity = 0 then
    .error .zeroCapacity
  else if largestCapacity < capacity then
    .error (.capacityTooLarge capacity)
  else
    .ok ⟨start, 0, (Size.ceil capacity).word⟩

/-- The aligned part of a given range: the start is rounded up and the capacity down. The gap
that rounding leaves at the start may use up the whole range. No range begins at zero.
-/
def ofRange? (start size : Word) : Option Region :=
  if start = 0 then
    none
  else
    let gap := min ((Size.ceil start).word - start) size
    some ⟨start + gap, 0, (Size.floor (size - gap)).word⟩

/-- The first address that is not handed out yet. -/
def frontier (r : Region) : Word := r.start + r.used

/-- Whether nothing is handed out yet. -/
def isEmpty (r : Region) : Bool := r.used = 0

/-- The number of bytes that can still be handed out. -/
def available (r : Region) : Word := r.capacity - r.used

/-- Hands out the next bytes, and says at which address they begin. A request for more than
is left is refused as a whole.
-/
def handOut (r : Region) (bytes : Word) : Except Exhausted (Word × Region) :=
  if r.available < bytes then
    .error ⟨bytes, r.available⟩
  else
    .ok (r.frontier, { r with used := r.used + bytes })

end Region

end BoundaryTag
