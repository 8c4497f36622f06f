import BoundaryTag.Size

/-! How a heap is set up: the number of bytes by which it grows. -/

namespace BoundaryTag

/-- The growth quantum of a heap. A heap begins with one chunk of free bytes, and grows by at
least this much whenever no free block serves a request.
-/
structure Settings where
  chunkSize : Size
deriving DecidableEq

namespace Settings

/-- The chunk size of a heap that is set up without a choice. -/
def standardChunk : Word := 4096

/-- Settings for a chunk of at least the given number of bytes: a chunk can form a block, and is
rounded up to the alignment.
-/
def ofChunkSize (bytes : Word) : Settings :=
  ⟨if bytes < Size.minBlock.word then Size.minBlock else Size.ceil bytes⟩

/-- The settings of a heap that is set up without a choice. -/
def standard : Settings := ofChunkSize standardChunk

/-- Settings by their fields. -/
def describe (s : Settings) : String :=
  Text.record "HeapConfig" [("chunk_size", Text.decimal s.chunkSize.word)]

end Settings

end BoundaryTag
