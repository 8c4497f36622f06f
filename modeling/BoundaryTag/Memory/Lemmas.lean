import BoundaryTag.Memory

/-! Reading a memory after a write. Distances between addresses are taken upwards, with
wrapping: a run of bytes at a covers x exactly when x - a is below the length of the run.
-/

namespace BoundaryTag.Memory

/-- A memory that nobody has written to holds its initial bytes. -/
@[simp]
theorem byte_untouched (initial : Word → UInt8) (a : Word)
    : (untouched initial).byte a = initial a := by
  simp [untouched, byte]

/-- A changed byte reads as the new one and every other byte as before. -/
theorem byte_setByte (m : Memory) (a x : Word) (b : UInt8)
    : (m.setByte a b).byte x = if x = a then b else m.byte x := by
  by_cases h : x = a
  · simp [setByte, byte, h]
  · have hne : ¬ compare a x = .eq := fun heq => h (Std.LawfulEqOrd.eq_of_compare heq).symm
    simp [setByte, byte, Std.TreeMap.getD_insert, h, hne]

/-- A written run answers for the addresses it covers, counted from its first; all others
keep their byte.
-/
theorem byte_writeBytes (m : Memory) (a x : Word) (bs : List UInt8)
    (h : bs.length ≤ UInt64.size)
    : (m.writeBytes a bs).byte x = bs.getD (x - a).toNat (m.byte x) := by
  induction bs generalizing m a with
  | nil => simp [writeBytes]
  | cons b bs ih =>
    have hx := x.toNat_lt
    have ha := a.toNat_lt
    simp only [List.length_cons, UInt64.size] at h
    rw [writeBytes, ih _ _ (by simp only [UInt64.size]; omega), byte_setByte]
    by_cases heq : x = a
    · subst heq
      have hd : (x - (x + 1)).toNat = 2 ^ 64 - 1 := by
        have : x - (x + 1) = -1 := by grind
        rw [this]
        rfl
      rw [hd, List.getD_eq_getElem?_getD, List.getElem?_eq_none (by omega)]
      simp
    · have hd : (x - a).toNat = (x - (a + 1)).toNat + 1 := by
        have hne : x.toNat ≠ a.toNat := fun hc => heq (UInt64.toNat_inj.mp hc)
        simp only [UInt64.toNat_sub, UInt64.toNat_add, UInt64.reduceToNat]
        omega
      rw [hd, List.getD_cons_succ, if_neg heq]

/-- A run has as many bytes as were asked for. -/
@[simp]
theorem length_readBytes (m : Memory) (a : Word) (n : Nat) : (m.readBytes a n).length = n := by
  simp [readBytes]

/-- The i-th byte of a run lies i addresses above its first. -/
theorem getElem?_readBytes (m : Memory) (a : Word) (n i : Nat) (h : i < n)
    : (m.readBytes a n)[i]? = some (m.byte (a + .ofNat i)) := by
  simp [readBytes, h]

/-- The eight bytes at an address are those of the word there. -/
theorem readBytes_eq_toBytes (m : Memory) (a : Word)
    : m.readBytes a 8 = (m.readWord a).toBytes 8 := by
  have whole : Word.toBytes (m.readBytes a 8).length (.ofBytes (m.readBytes a 8))
      = m.readBytes a 8 :=
    Word.toBytes_ofBytes (Nat.le_of_eq (length_readBytes m a 8))
  rw [length_readBytes] at whole
  exact whole.symm

/-- Two memories with the same bytes in a run read alike there. -/
theorem readBytes_congr {m m' : Memory} {a : Word} {n : Nat}
    (h : ∀ i < n, m.byte (a + .ofNat i) = m'.byte (a + .ofNat i))
    : m.readBytes a n = m'.readBytes a n :=
  List.map_congr_left fun i hi => h i (List.mem_range.mp hi)

/-- Two memories with the same eight bytes hold the same word there. -/
theorem readWord_congr {m m' : Memory} {a : Word}
    (h : ∀ i < 8, m.byte (a + .ofNat i) = m'.byte (a + .ofNat i))
    : m.readWord a = m'.readWord a := by
  rw [readWord, readWord, readBytes_congr h]

/-- A run that was just written reads back. -/
theorem readBytes_writeBytes (m : Memory) (a : Word) (bs : List UInt8)
    (h : bs.length ≤ UInt64.size)
    : (m.writeBytes a bs).readBytes a bs.length = bs := by
  apply List.ext_getElem?
  intro i
  by_cases hi : i < bs.length
  · have hd : (a + .ofNat i - a).toNat = i := by
      have : a + .ofNat i - a = .ofNat i := by grind
      rw [this]
      exact UInt64.toNat_ofNat_of_lt' (by omega)
    rw [getElem?_readBytes _ _ _ _ hi, byte_writeBytes _ _ _ _ h, hd,
      List.getElem?_eq_getElem hi]
    simp [hi]
  · rw [List.getElem?_eq_none (by simp; omega), List.getElem?_eq_none (by omega)]

/-- A stored word reads back. -/
@[simp]
theorem readWord_writeWord (m : Memory) (a w : Word) : (m.writeWord a w).readWord a = w := by
  have := readBytes_writeBytes m a (w.toBytes 8) (by simp [UInt64.size])
  rw [Word.length_toBytes] at this
  rw [readWord, writeWord, this, Word.ofBytes_toBytes_eight]

/-- Storing a word changes no byte outside its eight. -/
theorem byte_writeWord_of_apart (m : Memory) {a x : Word} (w : Word) (h : 8 ≤ (x - a).toNat)
    : (m.writeWord a w).byte x = m.byte x := by
  rw [writeWord, byte_writeBytes _ _ _ _ (by simp [UInt64.size]),
    List.getD_eq_getElem?_getD, List.getElem?_eq_none (by simpa using h), Option.getD_none]

/-- Two words that share no byte do not disturb each other. -/
theorem readWord_writeWord_of_apart (m : Memory) {a x : Word} (w : Word)
    (hab : 8 ≤ (x - a).toNat) (hba : 8 ≤ (a - x).toNat)
    : (m.writeWord a w).readWord x = m.readWord x := by
  apply readWord_congr
  intro i hi
  apply byte_writeWord_of_apart
  have hx := x.toNat_lt
  have ha := a.toNat_lt
  have hof : (UInt64.ofNat i).toNat = i := UInt64.toNat_ofNat_of_lt' (by simp [UInt64.size]; omega)
  simp only [UInt64.toNat_sub, UInt64.toNat_add, hof] at hab hba ⊢
  omega

end BoundaryTag.Memory
