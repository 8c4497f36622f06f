import BoundaryTag.Region

/-! Why a heap refuses a request. -/

namespace BoundaryTag

/-- The reasons for which setting up a heap or serving a request fails. From where in a program it
was requested is no part of the reason.
-/
inductive Refusal
  /-- The region has no room for both ends of the heap and the first chunk. -/
  | noRoomToStart (source : Region.Exhausted)
  /-- The region has no room for the bytes that the heap has to grow by. -/
  | noRoomToGrow (increment : Size) (source : Region.Exhausted)
  /-- No block size can hold the request. -/
  | tooLarge (requested : Word)
deriving DecidableEq

namespace Refusal

/-- What the region said, if it is behind the refusal. -/
def source? : Refusal → Option Region.Exhausted
  | .noRoomToStart source => some source
  | .noRoomToGrow _ source => some source
  | .tooLarge _ => none

/-- What is said about a refusal. -/
def message : Refusal → String
  | .noRoomToStart source => "failed to set up the initial heap: " ++ source.message
  | .noRoomToGrow increment source =>
    "failed to grow the heap by " ++ Text.decimal increment.word ++ " bytes: "
      ++ source.message
  | .tooLarge requested =>
    "requested size overflows the block size: requested=" ++ Text.decimal requested

end Refusal

end BoundaryTag
