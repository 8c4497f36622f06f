import BoundaryTag.Proofs.Rounding

/-! What a region hands out over time, request after request. It serves a request exactly when
what is left has room for it; the pieces that it hands out follow one another from its start, none
of them meets another, and none leaves the region. A fresh region is as large as the alignment
allows.
-/

namespace BoundaryTag

/-- A run of addresses that a region has handed out. -/
structure Piece where
  address : Word
  bytes : Word
deriving DecidableEq

/-- The addresses of a piece. -/
def Piece.span (p : Piece) : Set Word :=
  Word.span p.address.toNat (p.address.toNat + p.bytes.toNat)

/-- No address belongs to both pieces. -/
def Piece.Apart (p p' : Piece) : Prop := ∀ a ∈ p.span, a ∉ p'.span

/-- Each piece begins where the one before it ends, from the first address to the last. -/
def Consecutive : Word → List Piece → Word → Prop
  | low, [], high => low = high
  | low, p :: rest, high => p.address = low ∧ Consecutive (p.address + p.bytes) rest high

namespace Region

variable {r q : Region} {bytes : Word} {asked : List Word} {p : Piece}

-----------------------------------------------------------------------------------------
-- Request after request
-----------------------------------------------------------------------------------------

/-- The region after a request. One that is refused leaves it as it is. -/
def next (r : Region) (bytes : Word) : Region :=
  match r.handOut bytes with
  | .ok (_, r') => r'
  | .error _ => r

/-- The piece that is handed out for a request, if it is not refused. -/
def piece? (r : Region) (bytes : Word) : Option Piece :=
  match r.handOut bytes with
  | .ok (address, _) => some ⟨address, bytes⟩
  | .error _ => none

/-- The region after all requests of a list. -/
def run (r : Region) (asked : List Word) : Region := asked.foldl next r

/-- The pieces that are handed out for the requests of a list. -/
def pieces (r : Region) : List Word → List Piece
  | [] => []
  | bytes :: rest => (r.piece? bytes).toList ++ (r.next bytes).pieces rest

/-- Requests are made one by one, the first one first. -/
theorem run_cons (r : Region) (bytes : Word) (asked : List Word)
    : r.run (bytes :: asked) = (r.next bytes).run asked :=
  rfl

/-- The last request is made of the region that the others lead to. -/
theorem run_concat (r : Region) (asked : List Word) (bytes : Word)
    : r.run (asked ++ [bytes]) = (r.run asked).next bytes := by
  rw [run, List.foldl_append]
  rfl

/-- A request that fits moves the frontier up. -/
theorem next_of_le (enough : bytes ≤ r.available) : r.next bytes = r.advance bytes := by
  rw [next, handOut_eq_ok_iff.mpr ⟨enough, rfl, rfl⟩]

/-- A request for no more than is left gets the bytes from the frontier on. -/
theorem piece?_of_le (enough : bytes ≤ r.available)
    : r.piece? bytes = some ⟨r.frontier, bytes⟩ := by
  rw [piece?, handOut_eq_ok_iff.mpr ⟨enough, rfl, rfl⟩]

/-- A request that does not fit changes nothing. -/
theorem next_of_not_le (short : ¬bytes ≤ r.available) : r.next bytes = r := by
  rw [next, handOut_eq_error_iff.mpr ⟨UInt64.not_le.mp short, rfl⟩]

/-- A request for more gets nothing. -/
theorem piece?_of_not_le (short : ¬bytes ≤ r.available) : r.piece? bytes = none := by
  rw [piece?, handOut_eq_error_iff.mpr ⟨UInt64.not_le.mp short, rfl⟩]

-----------------------------------------------------------------------------------------
-- What stays and what grows
-----------------------------------------------------------------------------------------

/-- A region that has come from another by handing out more of it. -/
structure Later (r q : Region) : Prop where
  start : q.start = r.start
  capacity : q.capacity = r.capacity
  grows : r.used.toNat ≤ q.used.toNat
  within : q.used.toNat ≤ q.capacity.toNat

namespace Later

/-- A region is later than itself. -/
theorem refl (within : r.used.toNat ≤ r.capacity.toNat) : r.Later r := ⟨rfl, rfl, le_rfl, within⟩

/-- What is later than a later region is later than the first. -/
theorem trans {r' : Region} (h : r.Later q) (h' : q.Later r') : r.Later r' :=
  ⟨h'.start.trans h.start, h'.capacity.trans h.capacity, h.grows.trans h'.grows, h'.within⟩

/-- A region that hands out no more than is left leads to a later one. -/
theorem advance (within : r.used.toNat ≤ r.capacity.toNat) (enough : bytes ≤ r.available)
    : r.Later (r.advance bytes) := by
  have used := toNat_used_advance within enough
  rw [UInt64.le_iff_toNat_le, toNat_available within] at enough
  refine ⟨rfl, rfl, by omega, ?_⟩
  simp only [Region.advance] at used ⊢
  omega

/-- A region keeps within its capacity with each request. -/
theorem next (within : r.used.toNat ≤ r.capacity.toNat) (bytes : Word)
    : r.Later (r.next bytes) := by
  by_cases enough : bytes ≤ r.available
  · rw [next_of_le enough]
    exact advance within enough
  · rw [next_of_not_le enough]
    exact refl within

/-- A region keeps within its capacity, by induction over the requests. -/
theorem run (within : r.used.toNat ≤ r.capacity.toNat) (asked : List Word)
    : r.Later (r.run asked) := by
  induction asked generalizing r with
  | nil => exact refl within
  | cons bytes rest ih =>
      have step := next within bytes
      exact step.trans (ih step.within)

/-- What a region hands out next lies behind all that it has handed out, and inside. -/
theorem span_subset (h : r.Later q) (limit : r.start.toNat + r.capacity.toNat ≤ UInt64.size)
    (enough : bytes ≤ q.available)
    : q.frontier.toNat + bytes.toNat ≤ UInt64.size
      ∧ Piece.span ⟨q.frontier, bytes⟩
        ⊆ Word.span (r.start.toNat + q.used.toNat)
            (r.start.toNat + q.used.toNat + bytes.toNat) := by
  have within := h.within
  rw [UInt64.le_iff_toNat_le, toNat_available within] at enough
  rw [h.capacity] at within enough
  -- The frontier wraps only behind the greatest word, where nothing is left to hand out.
  have place : q.frontier.toNat = (r.start.toNat + q.used.toNat) % UInt64.size := by
    rw [frontier, h.start, UInt64.toNat_add]
  simp only [UInt64.size] at limit place ⊢
  refine ⟨by omega, ?_⟩
  intro x hx
  simp only [Piece.span, Word.mem_span] at hx ⊢
  omega

end Later

-----------------------------------------------------------------------------------------
-- The pieces
-----------------------------------------------------------------------------------------

/-- The pieces follow one another from the frontier before the requests to the one behind them. -/
theorem consecutive_pieces (r : Region) (asked : List Word)
    : Consecutive r.frontier (r.pieces asked) (r.run asked).frontier := by
  induction asked generalizing r with
  | nil => rfl
  | cons bytes rest ih =>
      have tail := ih (r.next bytes)
      rw [run_cons, pieces]
      by_cases enough : bytes ≤ r.available
      · rw [next_of_le enough, frontier_advance] at tail
        rw [piece?_of_le enough, next_of_le enough]
        exact ⟨rfl, tail⟩
      · rw [next_of_not_le enough] at tail ⊢
        rw [piece?_of_not_le enough]
        exact tail

/-- Each piece is what the region hands out next at some time. -/
theorem exists_later (within : r.used.toNat ≤ r.capacity.toNat) (hp : p ∈ r.pieces asked)
    : ∃ q, r.Later q ∧ p.bytes ≤ q.available ∧ p = ⟨q.frontier, p.bytes⟩ := by
  induction asked generalizing r with
  | nil => simp [pieces] at hp
  | cons bytes rest ih =>
      rw [pieces, List.mem_append, Option.mem_toList] at hp
      rcases hp with first | hp
      · by_cases enough : bytes ≤ r.available
        · rw [piece?_of_le enough] at first
          obtain rfl := Option.mem_some.mp first
          exact ⟨r, .refl within, enough, rfl⟩
        · simp [piece?_of_not_le enough] at first
      · have step := Later.next within bytes
        obtain ⟨q, later, room⟩ := ih step.within hp
        exact ⟨q, step.trans later, room⟩

/-- No piece wraps, and all lie in what the region had left. -/
theorem bounds_pieces (within : r.used.toNat ≤ r.capacity.toNat)
    (limit : r.start.toNat + r.capacity.toNat ≤ UInt64.size) (hp : p ∈ r.pieces asked)
    : p.address.toNat + p.bytes.toNat ≤ UInt64.size
      ∧ p.span ⊆ Word.span (r.start.toNat + r.used.toNat)
          (r.start.toNat + r.capacity.toNat) := by
  obtain ⟨q, later, room, whole⟩ := exists_later within hp
  obtain ⟨unwrapped, inside⟩ := later.span_subset limit room
  have grows := later.grows
  have fits := later.within
  rw [UInt64.le_iff_toNat_le, toNat_available fits] at room
  rw [later.capacity] at fits room
  rw [whole]
  refine ⟨unwrapped, inside.trans ?_⟩
  intro x hx
  simp only [Word.mem_span] at hx ⊢
  omega

/-- No two pieces meet: what is handed out later lies behind what was handed out before. -/
theorem apart_pieces (within : r.used.toNat ≤ r.capacity.toNat)
    (limit : r.start.toNat + r.capacity.toNat ≤ UInt64.size) (asked : List Word)
    : (r.pieces asked).Pairwise Piece.Apart := by
  induction asked generalizing r with
  | nil => exact .nil
  | cons bytes rest ih =>
      have step := Later.next within bytes
      have limit' : (r.next bytes).start.toNat + (r.next bytes).capacity.toNat ≤ UInt64.size := by
        rw [step.start, step.capacity]
        exact limit
      have tail := ih step.within limit'
      rw [pieces]
      by_cases enough : bytes ≤ r.available
      · rw [piece?_of_le enough]
        refine List.pairwise_cons.mpr ⟨?_, tail⟩
        intro p hp
        have first := (Later.refl within).span_subset limit enough
        have above := (bounds_pieces step.within limit' hp).2
        rw [next_of_le enough, toNat_used_advance within enough] at above
        intro x low high
        have low := first.2 low
        have high := above high
        simp only [advance, Word.mem_span] at low high
        omega
      · rw [piece?_of_not_le enough]
        exact tail

-----------------------------------------------------------------------------------------
-- Fresh regions
-----------------------------------------------------------------------------------------

/-- What a region does for a list of requests, and for one more. -/
structure Serves (r : Region) (asked : List Word) : Prop where
  /-- It stays where it is and as large as it is. -/
  start : (r.run asked).start = r.start
  capacity : (r.run asked).capacity = r.capacity
  /-- It never hands out more than it has. -/
  within : (r.run asked).used.toNat ≤ r.capacity.toNat
  length : (r.run asked).frontier - r.start = (r.run asked).used
  /-- A request for no more than is left is served from the frontier, and uses up what it asked
  for.
  -/
  served (bytes : Word)
    (enough : bytes.toNat ≤ r.capacity.toNat - (r.run asked).used.toNat)
    : (r.run asked).handOut bytes
        = .ok (r.start + (r.run asked).used, r.run (asked ++ [bytes]))
      ∧ (r.run (asked ++ [bytes])).used.toNat = (r.run asked).used.toNat + bytes.toNat
  /-- A request for more is refused, with both figures, and changes nothing. -/
  refused (bytes : Word)
    (short : r.capacity.toNat - (r.run asked).used.toNat < bytes.toNat)
    : (r.run asked).handOut bytes = .error ⟨bytes, r.capacity - (r.run asked).used⟩
      ∧ r.run (asked ++ [bytes]) = r.run asked
  /-- The pieces cover what is handed out without a gap. -/
  consecutive : Consecutive r.start (r.pieces asked) (r.run asked).frontier
  apart : (r.pieces asked).Pairwise Piece.Apart
  inside : ∀ p ∈ r.pieces asked,
    p.address.toNat + p.bytes.toNat ≤ UInt64.size
    ∧ p.span ⊆ Word.span r.start.toNat (r.start.toNat + r.capacity.toNat)

/-- A region of which nothing is handed out yet serves all requests that it has room for. -/
theorem serves_of_fresh (fresh : r.used = 0)
    (limit : r.start.toNat + r.capacity.toNat ≤ UInt64.size) (asked : List Word)
    : r.Serves asked := by
  have unused : r.used.toNat = 0 := by
    rw [fresh]
    rfl
  have frontier_eq : r.frontier = r.start := by
    rw [frontier, fresh, UInt64.add_zero]
  have within : r.used.toNat ≤ r.capacity.toNat := by omega
  have later := Later.run within asked
  have fits := later.within
  have left := toNat_available fits
  have place : (r.run asked).frontier = r.start + (r.run asked).used := by
    rw [frontier, later.start]
  rw [later.capacity] at fits left
  constructor
  case start => exact later.start
  case capacity => exact later.capacity
  case within => exact fits
  case length =>
    rw [place]
    grind
  case served =>
    intro bytes enough
    have enough : bytes ≤ (r.run asked).available := by
      rw [UInt64.le_iff_toNat_le, left]
      exact enough
    rw [run_concat, next_of_le enough]
    exact ⟨handOut_eq_ok_iff.mpr ⟨enough, place.symm, rfl⟩, toNat_used_advance later.within enough⟩
  case refused =>
    intro bytes short
    have short : (r.run asked).available < bytes := by
      rw [UInt64.lt_iff_toNat_lt, left]
      exact short
    rw [run_concat, next_of_not_le (UInt64.not_le.mpr short)]
    refine ⟨handOut_eq_error_iff.mpr ⟨short, ?_⟩, rfl⟩
    rw [available, later.capacity]
  case consecutive =>
    have all := consecutive_pieces r asked
    rwa [frontier_eq] at all
  case apart => exact apart_pieces within limit asked
  case inside =>
    intro p hp
    have bounds := bounds_pieces within limit hp
    rwa [unused, Nat.add_zero] at bounds

/-- The multiples of the alignment that fit between two numbers. -/
def multiplesWithin (low high : Nat) : Set Nat := {k | k % 16 = 0 ∧ low + k ≤ high}

/-- The distance from an address to the next multiple of the alignment. -/
theorem toNat_gap (start : Word)
    : ((Size.ceil start).word - start).toNat = (16 - start.toNat % 16) % 16 := by
  have top := start.toNat_lt
  have up : (Size.ceil start).word.toNat = _ := Size.toNat_floor _
  rw [UInt64.toNat_sub, up]
  simp only [alignment, UInt64.toNat_add, UInt64.reduceSub, UInt64.reduceToNat]
  omega

/-- The aligned part of a range lies inside it, and is as large as the alignment allows. -/
theorem ofRange?_spec {start size : Word} (nonzero : start ≠ 0)
    (limit : start.toNat + size.toNat < UInt64.size)
    : ∃ r, ofRange? start size = some r ∧ r.used = 0
        ∧ start.toNat ≤ r.start.toNat
        ∧ r.start.toNat + r.capacity.toNat ≤ start.toNat + size.toNat
        ∧ (r.capacity ≠ 0 →
            IsLeast (multiplesFrom start.toNat) r.start.toNat
            ∧ IsGreatest (multiplesWithin r.start.toNat (start.toNat + size.toNat))
                r.capacity.toNat) := by
  obtain ⟨gap, gap_eq⟩ : ∃ gap, gap = min ((Size.ceil start).word - start) size := ⟨_, rfl⟩
  have skipped : gap.toNat = min ((16 - start.toNat % 16) % 16) size.toNat := by
    rw [gap_eq, ← toNat_gap start]
    exact apply_ite UInt64.toNat _ _ _
  have first : (start + gap).toNat = start.toNat + gap.toNat := by
    rw [UInt64.toNat_add]
    simp only [UInt64.size] at limit
    exact Nat.mod_eq_of_lt (by omega)
  have rest : (size - gap).toNat = size.toNat - gap.toNat :=
    UInt64.toNat_sub_of_le size gap (UInt64.le_iff_toNat_le.mpr (by omega))
  have whole : (Size.floor (size - gap)).word.toNat = _ := Size.toNat_floor _
  rw [rest] at whole
  refine ⟨⟨start + gap, 0, (Size.floor (size - gap)).word⟩, ?_, rfl, ?_, ?_, ?_⟩
  · rw [ofRange?, if_neg nonzero, gap_eq]
  · rw [first]
    omega
  · rw [first, whole]
    omega
  · intro nonempty
    have positive := mt UInt64.toNat_inj.mp nonempty
    simp only [UInt64.toNat_zero] at positive
    rw [first, whole]
    rw [whole] at positive
    refine ⟨⟨⟨by omega, by omega⟩, ?_⟩, ⟨by omega, by omega⟩, ?_⟩
    · rintro k ⟨aligned, above⟩
      omega
    · rintro k ⟨aligned, fits⟩
      omega

/-- The capacity of a region is the least that the alignment allows for what was asked. -/
theorem ofCapacity_spec (start : Word) {bytes : Word} (nonzero : bytes ≠ 0)
    (most : bytes ≤ largestCapacity)
    : ofCapacity start bytes = .ok ⟨start, 0, (Size.ceil bytes).word⟩
      ∧ IsLeast (multiplesFrom bytes.toNat) (Size.ceil bytes).toNat := by
  have small := UInt64.le_iff_toNat_le.mp most
  have top : largestCapacity.toNat = 0x7ffffffffffffff0 := rfl
  constructor
  · rw [ofCapacity, if_neg nonzero, if_neg (UInt64.not_lt.mpr most)]
  · rw [Size.toNat_ceil (by simp only [UInt64.size]; omega)]
    exact isLeast_multiplesFrom bytes.toNat

/-- A fresh region of a given capacity, at most half of the address space, has the least multiple of
the alignment that is large enough; one made of a given range lies in that range, and unless it is
empty, begins at the first multiple of the alignment and has the greatest one that fits. Both hand
out what they have piece by piece, whatever is asked of them: no more than there is, with no gap and
no overlap, and not a byte from outside.
-/
theorem fresh_serves (asked : List Word)
    : (∀ start bytes : Word, bytes ≠ 0 → bytes ≤ largestCapacity →
        start.toNat + (Size.ceil bytes).toNat ≤ UInt64.size →
        ∃ r, ofCapacity start bytes = .ok r ∧ r.start = start ∧ r.used = 0
          ∧ IsLeast (multiplesFrom bytes.toNat) r.capacity.toNat ∧ r.Serves asked)
      ∧ ∀ start size : Word, start ≠ 0 → start.toNat + size.toNat < UInt64.size →
        ∃ r, ofRange? start size = some r ∧ r.used = 0
          ∧ start.toNat ≤ r.start.toNat
          ∧ r.start.toNat + r.capacity.toNat ≤ start.toNat + size.toNat
          ∧ (r.capacity ≠ 0 →
              IsLeast (multiplesFrom start.toNat) r.start.toNat
              ∧ IsGreatest (multiplesWithin r.start.toNat (start.toNat + size.toNat))
                  r.capacity.toNat)
          ∧ r.Serves asked := by
  constructor
  · intro start bytes nonzero most limit
    obtain ⟨made, least⟩ := ofCapacity_spec start nonzero most
    exact ⟨_, made, rfl, rfl, least, serves_of_fresh rfl limit asked⟩
  · intro start size nonzero limit
    obtain ⟨r, made, fresh, low, high, tight⟩ := ofRange?_spec nonzero limit
    have limit : r.start.toNat + r.capacity.toNat ≤ UInt64.size := by omega
    exact ⟨r, made, fresh, low, high, tight, serves_of_fresh fresh limit asked⟩

/-- Of a hundred bytes asked for, a region has 112: it serves a request for 48, refuses one for
100, and serves one for the 64 that are left. One in an unaligned range of 107 bytes has 80 from
the first multiple of the alignment on.
-/
theorem fresh_serves_hundred
    : (∃ r, ofCapacity 4096 100 = .ok r ∧ r.capacity = 112
        ∧ r.pieces [48, 100, 64] = [⟨4096, 48⟩, ⟨4144, 64⟩] ∧ r.Serves [48, 100, 64])
      ∧ ∃ r, ofRange? 4100 107 = some r ∧ r.start = 4112 ∧ r.capacity = 80
        ∧ IsLeast (multiplesFrom 4100) 4112 ∧ IsGreatest (multiplesWithin 4112 4207) 80
        ∧ r.pieces [48, 100, 64] = [⟨4112, 48⟩] ∧ r.Serves [48, 100, 64] := by
  obtain ⟨owned, given⟩ := fresh_serves [48, 100, 64]
  obtain ⟨r, made, -, -, -, serves⟩ := owned 4096 100 (by decide) (by decide) (by decide)
  obtain ⟨q, found, -, -, -, tight, serves'⟩ := given 4100 107 (by decide) (by decide)
  obtain rfl : (⟨4096, 0, 112⟩ : Region) = r := Except.ok.inj made
  obtain rfl : (⟨4112, 0, 80⟩ : Region) = q := Option.some.inj found
  obtain ⟨least, greatest⟩ := tight (by decide)
  exact ⟨⟨_, made, rfl, by decide, serves⟩, _, found, rfl, rfl, least, greatest, by decide, serves'⟩

end Region

end BoundaryTag
