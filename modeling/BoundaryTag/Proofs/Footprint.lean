import Mathlib.Data.Set.Basic
import BoundaryTag.Memory.Lemmas

/-! Footprints: the addresses that a change of memory stays within. Whatever is read away from
the footprint of a change reads as before; footprints of single words, runs and copies are spans
of addresses that do not wrap.
-/

namespace BoundaryTag

/-- The addresses from one number up to another, the latter left out. -/
def Word.span (low high : Nat) : Set Word := {a | low ≤ a.toNat ∧ a.toNat < high}

/-- An address is in a span if its number is between the bounds, the upper one excluded. -/
@[simp]
theorem Word.mem_span {low high : Nat} {a : Word}
    : a ∈ Word.span low high ↔ low ≤ a.toNat ∧ a.toNat < high :=
  Iff.rfl

namespace Memory

/-- The second memory holds the bytes of the first at every address outside the given set. -/
def SameOff (changed : Set Word) (m m' : Memory) : Prop :=
  ∀ a, a ∉ changed → m'.byte a = m.byte a

namespace SameOff

variable {S T : Set Word} {m m' m'' : Memory}

/-- No change stays within any set. -/
theorem refl (S : Set Word) (m : Memory) : SameOff S m m := fun _ _ => rfl

/-- Two changes within a set make one. -/
theorem trans (h : SameOff S m m') (h' : SameOff S m' m'') : SameOff S m m'' :=
  fun a ha => (h' a ha).trans (h a ha)

/-- A change within a set is one within every larger set. -/
theorem mono (h : SameOff S m m') (hST : S ⊆ T) : SameOff T m m' :=
  fun a ha => h a fun hS => ha (hST hS)

/-- A change within one set and then one within another. -/
theorem trans_union (h : SameOff S m m') (h' : SameOff T m' m'') : SameOff (S ∪ T) m m'' :=
  (h.mono Set.subset_union_left).trans (h'.mono Set.subset_union_right)

/-- A run apart from a change reads as before. -/
theorem readBytes_eq (h : SameOff S m m') {a : Word} {n : Nat}
    (fits : a.toNat + n ≤ UInt64.size) (apart : ∀ x ∈ S, x ∉ Word.span a.toNat (a.toNat + n))
    : m'.readBytes a n = m.readBytes a n := by
  apply readBytes_congr
  intro i hi
  apply h
  intro member
  apply apart _ member
  simp only [UInt64.size] at fits
  have hof : (a + UInt64.ofNat i).toNat = a.toNat + i := by
    rw [UInt64.toNat_add, UInt64.toNat_ofNat_of_lt' (by simp only [UInt64.size]; omega)]
    exact Nat.mod_eq_of_lt (by omega)
  constructor <;> omega

/-- A word apart from a change reads as before. -/
theorem readWord_eq (h : SameOff S m m') {a : Word} (fits : a.toNat + 8 ≤ UInt64.size)
    (apart : ∀ x ∈ S, x ∉ Word.span a.toNat (a.toNat + 8))
    : m'.readWord a = m.readWord a := by
  rw [readWord, readWord, h.readBytes_eq fits apart]

/-- A word below or above all changes reads as before. -/
theorem readWord_eq_of_apart {start stop : Nat} (h : SameOff (Word.span start stop) m m')
    {a : Word} (fits : a.toNat + 8 ≤ UInt64.size) (apart : a.toNat + 8 ≤ start ∨ stop ≤ a.toNat)
    : m'.readWord a = m.readWord a := by
  apply h.readWord_eq fits
  intro x hx member
  rw [Word.mem_span] at hx member
  omega

end SameOff

/-- Where a word reads the same, it consists of the same bytes. -/
theorem byte_eq_of_readWord_eq {m m' : Memory} {a : Word} (same : m'.readWord a = m.readWord a)
    (fits : a.toNat + 8 ≤ UInt64.size)
    : ∀ x ∈ Word.span a.toNat (a.toNat + 8), m'.byte x = m.byte x := by
  intro x hx
  rw [Word.mem_span] at hx
  simp only [UInt64.size] at fits
  obtain ⟨i, hi⟩ : ∃ i, x.toNat = a.toNat + i := Nat.exists_eq_add_of_le hx.1
  have place : a + UInt64.ofNat i = x := by
    apply UInt64.toNat_inj.mp
    rw [UInt64.toNat_add, UInt64.toNat_ofNat_of_lt' (by simp only [UInt64.size]; omega)]
    omega
  have bytes : (m'.readBytes a 8)[i]? = (m.readBytes a 8)[i]? := by
    rw [readBytes_eq_toBytes, same, ← readBytes_eq_toBytes]
  rw [getElem?_readBytes _ _ _ _ (by omega), getElem?_readBytes _ _ _ _ (by omega), place] at bytes
  exact Option.some.inj bytes

/-- A written run changes only the addresses that it covers. -/
theorem sameOff_writeBytes (m : Memory) (a : Word) (bs : List UInt8)
    (fits : a.toNat + bs.length ≤ UInt64.size)
    : SameOff (Word.span a.toNat (a.toNat + bs.length)) m (m.writeBytes a bs) := by
  intro x outside
  have hx := x.toNat_lt
  have ha := a.toNat_lt
  have beyond : bs.length ≤ (x - a).toNat := by
    by_contra short
    apply outside
    simp only [UInt64.size] at fits
    simp only [UInt64.toNat_sub] at short
    constructor <;> omega
  rw [byte_writeBytes _ _ _ _ (by omega), List.getD_eq_getElem?_getD,
    List.getElem?_eq_none beyond, Option.getD_none]

/-- A stored word changes only its eight bytes. -/
theorem sameOff_writeWord (m : Memory) {a : Word} (w : Word) (fits : a.toNat + 8 ≤ UInt64.size)
    : SameOff (Word.span a.toNat (a.toNat + 8)) m (m.writeWord a w) := by
  have h := sameOff_writeBytes m a (w.toBytes 8) (by simpa using fits)
  rwa [Word.length_toBytes] at h

/-- A copied run changes only the addresses that it is copied to. -/
theorem sameOff_copy (m : Memory) (source : Word) {target count : Word}
    (fits : target.toNat + count.toNat ≤ UInt64.size)
    : SameOff (Word.span target.toNat (target.toNat + count.toNat)) m
        (m.copy source target count) := by
  have h := sameOff_writeBytes m target (m.readBytes source count.toNat)
    (by simpa using fits)
  rwa [length_readBytes] at h

/-- A cleared run changes only the addresses that it covers. -/
theorem sameOff_clear (m : Memory) {a count : Word}
    (fits : a.toNat + count.toNat ≤ UInt64.size)
    : SameOff (Word.span a.toNat (a.toNat + count.toNat)) m (m.clear a count) := by
  have h := sameOff_writeBytes m a (List.replicate count.toNat 0)
    (by simpa using fits)
  rwa [List.length_replicate] at h

/-- A copied run holds what its source held, also where the two overlap. -/
theorem readBytes_copy (m : Memory) (source target count : Word)
    : (m.copy source target count).readBytes target count.toNat
      = m.readBytes source count.toNat := by
  have h := readBytes_writeBytes m target (m.readBytes source count.toNat)
    (by simpa using count.toNat_lt.le)
  rwa [length_readBytes] at h

/-- A cleared run holds zeros. -/
theorem readBytes_clear (m : Memory) (a count : Word)
    : (m.clear a count).readBytes a count.toNat = List.replicate count.toNat 0 := by
  have h := readBytes_writeBytes m a (List.replicate count.toNat 0)
    (by simpa using count.toNat_lt.le)
  rwa [List.length_replicate] at h

end Memory

end BoundaryTag
