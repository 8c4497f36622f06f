import BoundaryTag.Text

/-! Calls that break a stated precondition end in a fault instead of an answer. -/

namespace BoundaryTag

/-- The ways in which a call can break its precondition. -/
inductive Fault
  /-- A block size that is not a multiple of the alignment. -/
  | unalignedSize
  /-- A region without any room. -/
  | zeroCapacity
  /-- A region larger than half of the address space. -/
  | capacityTooLarge (capacity : Word)
deriving DecidableEq

/-- What is said about a fault. -/
def Fault.message : Fault → String
  | .unalignedSize => "block size must be aligned"
  | .zeroCapacity => "region capacity must not be zero"
  | .capacityTooLarge capacity => "region capacity too large: " ++ Text.decimal capacity

end BoundaryTag
