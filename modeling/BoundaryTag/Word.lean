/-! Machine words and the bytes they are made of. A word is stored with its lowest byte first;
the main statements are that reading back the eight bytes of a word returns the word, and that no
two runs of so many bytes read as the same one.
-/

namespace BoundaryTag

/-- A machine word of 64 bits: an address, a number of bytes, or the contents of eight
bytes of memory. Arithmetic on words wraps.
-/
abbrev Word := UInt64

namespace Word

/-- The number of bytes in a word. -/
def width : Word := 8

/-- The greatest word. -/
def greatest : Word := -1

/-- The sum of two words, or the greatest word where the sum does not fit. -/
def addSaturating (a b : Word) : Word :=
  if a + b < a then greatest else a + b

/-- The sum of two words, or none where it does not fit. -/
def add? (a b : Word) : Option Word :=
  if a.toNat + b.toNat < UInt64.size then some (a + b) else none

/-- The product of two words, or none where it does not fit. -/
def mul? (a b : Word) : Option Word :=
  if a.toNat * b.toNat < UInt64.size then some (a * b) else none

/-- The lowest n bytes of a word, lowest first. -/
def toBytes : Nat → Word → List UInt8
  | 0, _ => []
  | n + 1, w => w.toUInt8 :: toBytes n (w / 256)

/-- The word whose bytes are the given ones, lowest first. -/
def ofBytes : List UInt8 → Word
  | [] => 0
  | b :: bs => b.toUInt64 + 256 * ofBytes bs

/-- The lowest n bytes of a word are n bytes. -/
@[simp]
theorem length_toBytes (n : Nat) (w : Word) : (toBytes n w).length = n := by
  induction n generalizing w with
  | zero => rfl
  | succ n ih => simp [toBytes, ih]

/-- The eight bytes of a word are the word again, because each step splits off the remainder
of a division by 256 and puts it back.
-/
@[simp]
theorem ofBytes_toBytes_eight (w : Word) : ofBytes (toBytes 8 w) = w := by
  apply UInt64.toNat_inj.mp
  have hw := w.toNat_lt
  simp only [toBytes, ofBytes, UInt64.toNat_add, UInt64.toNat_mul, UInt64.toNat_div,
    UInt8.toNat_toUInt64, UInt64.toNat_toUInt8, UInt64.reduceToNat]
  omega

/-- The word of a few bytes is below a one that is shifted past all of them. -/
theorem toNat_ofBytes_lt {bs : List UInt8} (few : bs.length ≤ 8)
    : (ofBytes bs).toNat < 1 <<< (8 * bs.length) := by
  induction bs with
  | nil => simp [ofBytes]
  | cons b rest ih =>
      rw [List.length_cons] at few ⊢
      have high := ih (by omega)
      have low := b.toNat_lt
      have sum := Nat.mod_le (b.toNat + 256 * (ofBytes rest).toNat % 2 ^ 64) (2 ^ 64)
      have product := Nat.mod_le (256 * (ofBytes rest).toNat) (2 ^ 64)
      have shifted : 1 <<< (8 * (rest.length + 1)) = 1 <<< (8 * rest.length) * 256 := by
        rw [Nat.mul_succ, Nat.shiftLeft_add, Nat.shiftLeft_eq _ 8]
      simp only [ofBytes, UInt64.toNat_add, UInt64.toNat_mul, UInt8.toNat_toUInt64,
        UInt64.reduceToNat]
      omega

/-- The bytes of the word of a few bytes are these again, because each step splits off the lowest of
them.
-/
theorem toBytes_ofBytes {bs : List UInt8} (few : bs.length ≤ 8)
    : toBytes bs.length (ofBytes bs) = bs := by
  induction bs with
  | nil => rfl
  | cons b rest ih =>
      rw [List.length_cons] at few ⊢
      have high : (ofBytes rest).toNat < 1 <<< (8 * rest.length) := toNat_ofBytes_lt (by omega)
      have most : 1 <<< (8 * rest.length) ≤ 1 <<< 56 := by
        rw [Nat.one_shiftLeft, Nat.one_shiftLeft]
        exact Nat.pow_le_pow_right (by decide) (by omega)
      have low := b.toNat_lt
      have whole : (ofBytes (b :: rest)).toNat = b.toNat + 256 * (ofBytes rest).toNat := by
        simp only [ofBytes, UInt64.toNat_add, UInt64.toNat_mul, UInt8.toNat_toUInt64,
          UInt64.reduceToNat]
        omega
      have first : (ofBytes (b :: rest)).toUInt8 = b := by
        apply UInt8.toNat_inj.mp
        rw [UInt64.toNat_toUInt8, whole]
        omega
      have others : ofBytes (b :: rest) / 256 = ofBytes rest := by
        apply UInt64.toNat_inj.mp
        simp only [UInt64.toNat_div, whole, UInt64.reduceToNat]
        omega
      rw [toBytes, first, others, ih (by omega)]

end Word

end BoundaryTag
