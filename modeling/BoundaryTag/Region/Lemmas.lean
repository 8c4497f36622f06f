import BoundaryTag.Region

/-! When a region hands bytes out, and what it is afterwards. As long as its addresses do not wrap,
its figures are those of plain numbers.
-/

namespace BoundaryTag.Region

/-- A region after it has handed out more bytes. -/
def advance (r : Region) (bytes : Word) : Region := { r with used := r.used + bytes }

/-- What is handed out moves the frontier up, as words go. -/
theorem frontier_advance (r : Region) (bytes : Word)
    : (r.advance bytes).frontier = r.frontier + bytes := by
  rw [frontier, frontier, advance, UInt64.add_assoc]

/-- What is handed out is no longer left, as words go. -/
theorem available_advance (r : Region) (bytes : Word)
    : (r.advance bytes).available = r.available - bytes := by
  simp only [available, advance]
  grind

/-- A request is refused exactly when it exceeds what is left, and the refusal says both
figures.
-/
theorem handOut_eq_error_iff {r : Region} {bytes : Word} {e : Exhausted}
    : r.handOut bytes = .error e ↔ r.available < bytes ∧ e = ⟨bytes, r.available⟩ := by
  by_cases h : r.available < bytes <;> simp [handOut, h, eq_comm]

/-- A request that fits is served from the first address not handed out yet. -/
theorem handOut_eq_ok_iff {r r' : Region} {bytes address : Word}
    : r.handOut bytes = .ok (address, r')
      ↔ bytes ≤ r.available ∧ address = r.frontier
        ∧ r' = r.advance bytes := by
  by_cases h : r.available < bytes
  · simp [handOut, h, UInt64.not_le.mpr h, advance]
  · simp [handOut, h, UInt64.not_lt.mp h, advance, eq_comm]

section

variable {r : Region} {bytes : Word}

/-- What is left, as long as no more is handed out than there is. -/
theorem toNat_available (within : r.used.toNat ≤ r.capacity.toNat)
    : r.available.toNat = r.capacity.toNat - r.used.toNat :=
  UInt64.toNat_sub_of_le r.capacity r.used (UInt64.le_iff_toNat_le.mpr within)

/-- Handing out what is left adds up, because there is no more of it than a word can count. -/
theorem toNat_used_advance (within : r.used.toNat ≤ r.capacity.toNat)
    (enough : bytes ≤ r.available)
    : (r.advance bytes).used.toNat = r.used.toNat + bytes.toNat := by
  have most := r.capacity.toNat_lt
  rw [UInt64.le_iff_toNat_le, toNat_available within] at enough
  rw [advance, UInt64.toNat_add]
  exact Nat.mod_eq_of_lt (by omega)

end

/-- No more is handed out than there is, and the addresses do not wrap. -/
structure Sane (r : Region) : Prop where
  within : r.used.toNat ≤ r.capacity.toNat
  limit : r.start.toNat + r.capacity.toNat < UInt64.size

namespace Sane

variable {r : Region} {bytes : Word}

/-- The frontier of a sane region is as far from its start as it has handed out bytes. -/
theorem toNat_frontier (h : r.Sane) : r.frontier.toNat = r.start.toNat + r.used.toNat := by
  have hwithin := h.within
  have hlimit := h.limit
  rw [frontier, UInt64.toNat_add]
  simp only [UInt64.size] at hlimit
  exact Nat.mod_eq_of_lt (by omega)

/-- The frontier of a sane region does not pass the end of its capacity. -/
theorem frontier_le (h : r.Sane) : r.frontier.toNat ≤ r.start.toNat + r.capacity.toNat := by
  rw [h.toNat_frontier]
  exact Nat.add_le_add_left h.within _

/-- What a sane region has left is its capacity without what it has handed out. -/
theorem toNat_available (h : r.Sane)
    : r.available.toNat = r.capacity.toNat - r.used.toNat :=
  Region.toNat_available h.within

/-- What a sane region hands out adds up. -/
theorem toNat_used_advance (h : r.Sane) (enough : bytes ≤ r.available)
    : (r.advance bytes).used.toNat = r.used.toNat + bytes.toNat :=
  Region.toNat_used_advance h.within enough

/-- Handing out what is left keeps a region sane. -/
theorem advance (h : r.Sane) (enough : bytes ≤ r.available) : (r.advance bytes).Sane := by
  have hwithin := h.within
  refine ⟨?_, h.limit⟩
  rw [h.toNat_used_advance enough]
  rw [UInt64.le_iff_toNat_le, h.toNat_available] at enough
  simp only [Region.advance]
  omega

/-- The frontier moves up by the bytes handed out. -/
theorem toNat_frontier_advance (h : r.Sane) (enough : bytes ≤ r.available)
    : (r.advance bytes).frontier.toNat = r.frontier.toNat + bytes.toNat := by
  rw [(h.advance enough).toNat_frontier, h.toNat_frontier, h.toNat_used_advance enough]
  simp only [Region.advance, Nat.add_assoc]

end Sane

end BoundaryTag.Region
