import Std.Data.TreeMap
import BoundaryTag.Word

/-! A byte-addressed memory over the whole range of words. What it held to begin with is an
arbitrary function of the address; what was written since is kept in a finite map.
-/

namespace BoundaryTag

/-- The contents of all addresses: a byte that was never written is the initial one. -/
structure Memory where
  initial : Word → UInt8
  written : Std.TreeMap Word UInt8

namespace Memory

/-- A memory that nobody has written to yet. -/
def untouched (initial : Word → UInt8) : Memory :=
  ⟨initial, ∅⟩

/-- A memory full of zeros. -/
def zeros : Memory :=
  untouched fun _ => 0

/-- The byte at an address. -/
def byte (m : Memory) (a : Word) : UInt8 :=
  m.written.getD a (m.initial a)

/-- Changes the byte at one address. -/
def setByte (m : Memory) (a : Word) (b : UInt8) : Memory :=
  { m with written := m.written.insert a b }

/-- The n bytes from an address upwards. -/
def readBytes (m : Memory) (a : Word) (n : Nat) : List UInt8 :=
  (List.range n).map fun i => m.byte (a + .ofNat i)

/-- Puts the given bytes at an address and the ones above it. -/
def writeBytes (m : Memory) (a : Word) : List UInt8 → Memory
  | [] => m
  | b :: bs => (m.setByte a b).writeBytes (a + 1) bs

/-- The word whose lowest byte is at an address. -/
def readWord (m : Memory) (a : Word) : Word :=
  .ofBytes (m.readBytes a 8)

/-- Stores a word with its lowest byte at an address. -/
def writeWord (m : Memory) (a w : Word) : Memory :=
  m.writeBytes a (w.toBytes 8)

/-- Copies a run of bytes. All of it is read before any of it is written, so the two runs
may overlap.
-/
def copy (m : Memory) (source target count : Word) : Memory :=
  m.writeBytes target (m.readBytes source count.toNat)

/-- Sets a run of bytes to zero. -/
def clear (m : Memory) (a count : Word) : Memory :=
  m.writeBytes a (List.replicate count.toNat 0)

end Memory

end BoundaryTag
