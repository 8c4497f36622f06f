import BoundaryTag.Audit.Violation
import BoundaryTag.Pool.Resize
import BoundaryTag.Region

/-! The journal of a heap: what it tells about its work, one line an event. -/

namespace BoundaryTag

/-- How much an event matters. -/
inductive Event.Level
  /-- Steps of an operation. -/
  | trace
  /-- Changes of the heap as a whole. -/
  | debug
  /-- Damage. -/
  | warn
deriving DecidableEq

/-- What a heap tells about. -/
inductive Event
  /-- The region handed out more bytes, up to a new end. -/
  | grown (size : Size) (frontier : Word)
  /-- The heap is set up. -/
  | formatted (start frontier : Word)
  /-- No free block served a request, and the region had no room to grow. -/
  | growthRefused (wanted : Size) (reason : Region.Exhausted)
  /-- A block is about to get another size. -/
  | resizing (block : Block) (wanted : Size) (plan : Plan)
  /-- Contents are about to be copied to another block. -/
  | moving (source target : Block) (count : Word)
  /-- An audit found something wrong. -/
  | found (violation : Violation)
deriving DecidableEq

namespace Event

/-- The mark of a level at the beginning of a line. -/
def Level.name : Level → String
  | .trace => "TRACE"
  | .debug => "DEBUG"
  | .warn => "WARN"

/-- How much an event matters. -/
def level : Event → Level
  | .grown .. | .formatted .. | .growthRefused .. => .debug
  | .resizing .. | .moving .. => .trace
  | .found .. => .warn

/-- What is said about an event. -/
def message : Event → String
  | .grown size frontier =>
    "heap extended by " ++ Text.decimal size.word ++ " bytes: end=" ++ Text.hex frontier
  | .formatted start frontier =>
    "heap initialized: start=" ++ Text.hex start ++ ", end=" ++ Text.hex frontier
  | .growthRefused wanted reason =>
    "allocation of " ++ Text.decimal wanted.word ++ " bytes failed: " ++ reason.message
  | .resizing block wanted plan =>
    "resize " ++ block.describe ++ " to " ++ Text.decimal wanted.word ++ " bytes: "
      ++ plan.describe
  | .moving source target count =>
    "relocating " ++ source.describe ++ " to " ++ target.describe ++ ", copying "
      ++ Text.decimal count ++ " bytes"
  | .found violation => "heap check: " ++ violation.message

/-- The line that the journal has for an event. -/
def line (e : Event) : String :=
  e.level.name ++ " " ++ e.message

end Event

end BoundaryTag
