import BoundaryTag.Proofs.Verdicts

/-! Both walks of an audit stop, whatever the memory holds, although neither of them counts its
steps. Each step by address that leads on leads up by the alignment at least, and none leads further
than a word behind the end of the heap. Each member of the free list that leads on is a new multiple
of the alignment in the region. So either walk comes to few blocks, and the steps that it is given
here are always more than it takes.
-/

namespace BoundaryTag

namespace Audit

variable {m : Memory} {r : Region} {heapEnd : Word} {b : Block} {bs passed : List Block}
  {link : Link} {n : Nat}

-----------------------------------------------------------------------------------------
-- The walk by address
-----------------------------------------------------------------------------------------

/-- The walk by address without a number of steps: from a block it comes to the given ones, and it
stops at the last of them.
-/
inductive Climbs (m : Memory) (heapEnd : Word) : Block → List Block → Prop
  | stop {b : Block} (outside : inside m heapEnd b = false) : Climbs m heapEnd b [b]
  | goOn {b : Block} {bs : List Block} (within : inside m heapEnd b = true)
    (rest : Climbs m heapEnd (b.above m) bs)
    : Climbs m heapEnd b (b :: bs)

/-- A step by address does not wrap. It leads up by the alignment at least, and to a word behind the
end of the heap at most.
-/
theorem above_bounds (limit : heapEnd.toNat + 8 < UInt64.size) (low : 8 ≤ b.address.toNat)
    (within : inside m heapEnd b = true)
    : (b.above m).address.toNat = b.address.toNat + (b.size m).toNat
      ∧ b.address.toNat + 16 ≤ (b.above m).address.toNat
      ∧ (b.above m).address.toNat ≤ heapEnd.toNat + 8 := by
  obtain ⟨-, sized, reach⟩ := (inside_iff ⟨heapEnd⟩ limit low).mp within
  have next := toNat_above ⟨heapEnd⟩ limit reach
  have room := Size.le_toNat_of_ne_zero sized
  simp only at reach
  exact ⟨next, by omega, by omega⟩

/-- The walk by address stops within any number of steps that lead beyond the end of the heap, by
induction on these.
-/
theorem exists_climbs (limit : heapEnd.toNat + 8 < UInt64.size) (low : 8 ≤ b.address.toNat)
    (near : b.address.toNat ≤ heapEnd.toNat + 8)
    (enough : heapEnd.toNat + 8 < b.address.toNat + 16 * n)
    : ∃ bs, Climbs m heapEnd b bs := by
  induction n generalizing b with
  | zero => omega
  | succ n ih =>
      by_cases within : inside m heapEnd b = true
      · obtain ⟨-, rise, high⟩ := above_bounds limit low within
        obtain ⟨bs, rest⟩ := ih (by omega) high (by omega)
        exact ⟨b :: bs, .goOn within rest⟩
      · exact ⟨[b], .stop (Bool.eq_false_of_not_eq_true within)⟩

namespace Climbs

/-- A walk by address comes to the block that it begins with first. -/
theorem head?_eq (h : Climbs m heapEnd b bs) : bs.head? = some b := by
  cases h <;> rfl

/-- A walk that is given enough steps comes to the blocks at which it stops by itself. -/
theorem blockTrail_eq (h : Climbs m heapEnd b bs) (enough : bs.length ≤ n)
    : blockTrail m heapEnd n b = bs := by
  induction h generalizing n with
  | stop outside =>
      obtain ⟨n, rfl⟩ := Nat.exists_eq_add_one.mpr (Nat.zero_lt_of_lt enough)
      simp [blockTrail, outside]
  | goOn within _ ih =>
      obtain ⟨n, rfl⟩ := Nat.exists_eq_add_one.mpr (Nat.zero_lt_of_lt enough)
      rw [blockTrail, if_pos within, ih (by simpa using enough)]

/-- Every block of the walk is the one above the block before it, and lies higher by the alignment
at least.
-/
theorem isChain (h : Climbs m heapEnd b bs) (limit : heapEnd.toNat + 8 < UInt64.size)
    (low : 8 ≤ b.address.toNat)
    : bs.IsChain fun c d => d = c.above m
        ∧ d.address.toNat = c.address.toNat + (c.size m).toNat
        ∧ c.address.toNat + 16 ≤ d.address.toNat := by
  induction h with
  | stop _ => exact .singleton _
  | goOn within rest ih =>
      obtain ⟨next, rise, -⟩ := above_bounds limit low within
      refine List.isChain_cons.mpr ⟨?_, ih (by omega)⟩
      intro d hd
      obtain rfl : d = _ := (Option.some.inj (rest.head?_eq.symm.trans hd)).symm
      exact ⟨rfl, next, rise⟩

/-- The walk stays near the heap, and comes to one block more than fit there at most. -/
theorem bounds (h : Climbs m heapEnd b bs) (limit : heapEnd.toNat + 8 < UInt64.size)
    (low : 8 ≤ b.address.toNat) (near : b.address.toNat ≤ heapEnd.toNat + 8)
    : (∀ c ∈ bs, c.address.toNat ≤ heapEnd.toNat + 8)
      ∧ b.address.toNat + 16 * bs.length ≤ heapEnd.toNat + 24 := by
  induction h with
  | stop _ => exact ⟨by simpa using near, by simp only [List.length_singleton]; omega⟩
  | goOn within _ ih =>
      obtain ⟨-, rise, high⟩ := above_bounds limit low within
      obtain ⟨below, few⟩ := ih (by omega) high
      refine ⟨List.forall_mem_cons.mpr ⟨near, below⟩, ?_⟩
      rw [List.length_cons]
      omega

end Climbs

-----------------------------------------------------------------------------------------
-- The walk along the free list
-----------------------------------------------------------------------------------------

/-- The walk along the free list without a number of steps: behind the members that it has passed,
latest first, it comes from a link to the given ones. It stops at the end of the list, or else at
the last of them, which cannot be a member or was passed before.
-/
inductive Follows (m : Memory) (r : Region) : List Block → Link → List Block → Prop
  | finish {passed : List Block} : Follows m r passed none []
  | stop {passed : List Block} {b : Block} (wrong : holdsLinks r b = false ∨ b ∈ passed)
    : Follows m r passed (some b) [b]
  | goOn {passed bs : List Block} {b : Block} (holds : holdsLinks r b = true)
    (fresh : b ∉ passed) (rest : Follows m r (b :: passed) (b.successor m) bs)
    : Follows m r passed (some b) (b :: bs)

/-- Blocks that can be listed are at most as many as multiples of the alignment fit in the region,
by counting these multiples.
-/
theorem length_le_of_holds (start : r.start.toNat + 8 < UInt64.size)
    (limit : r.frontier.toNat + 8 < UInt64.size) (held : ∀ b ∈ passed, holdsLinks r b = true)
    (distinct : passed.Nodup)
    : passed.length ≤ (r.frontier.toNat - r.start.toNat) / 16 := by
  have places := fun b hb => (holdsLinks_iff start limit).mp (held b hb)
  have apart : (passed.map fun b => b.address.toNat / 16).Nodup := by
    apply distinct.map_on
    intro b hb c hc same
    have place := (places b hb).1
    have place' := (places c hc).1
    exact Block.ext_toNat (by omega)
  have within : (passed.map fun b => b.address.toNat / 16) ⊆ List.range'
      ((r.start.toNat + 23) / 16) (r.frontier.toNat / 16 - (r.start.toNat + 23) / 16) := by
    intro k hk
    obtain ⟨b, hb, rfl⟩ := List.mem_map.mp hk
    have place := places b hb
    rw [List.mem_range'_1]
    omega
  have few := (apart.subperm within).length_le
  rw [List.length_map, List.length_range'] at few
  omega

/-- The walk along the free list stops within any number of steps for which there are not enough new
places, by induction on these.
-/
theorem exists_follows (start : r.start.toNat + 8 < UInt64.size)
    (limit : r.frontier.toNat + 8 < UInt64.size) (held : ∀ b ∈ passed, holdsLinks r b = true)
    (distinct : passed.Nodup)
    (enough : (r.frontier.toNat - r.start.toNat) / 16 < passed.length + n)
    : ∃ bs, Follows m r passed link bs := by
  induction n generalizing passed link with
  | zero =>
      have few := length_le_of_holds start limit held distinct
      omega
  | succ n ih =>
      cases link with
      | none => exact ⟨[], .finish⟩
      | some b =>
          by_cases holds : holdsLinks r b = true
          · by_cases again : b ∈ passed
            · exact ⟨[b], .stop (Or.inr again)⟩
            · obtain ⟨bs, rest⟩ : ∃ bs, Follows m r (b :: passed) (b.successor m) bs :=
                ih (List.forall_mem_cons.mpr ⟨holds, held⟩) (List.nodup_cons.mpr ⟨again, distinct⟩)
                  (by rw [List.length_cons]; omega)
              exact ⟨b :: bs, .goOn holds again rest⟩
          · exact ⟨[b], .stop (Or.inl (Bool.eq_false_of_not_eq_true holds))⟩

namespace Follows

/-- A walk that is given enough steps comes to the members at which it stops by itself. -/
theorem listTrail_eq (h : Follows m r passed link bs) (enough : bs.length ≤ n)
    : listTrail m r n passed link = bs := by
  induction h generalizing n with
  | finish => cases n <;> rfl
  | stop wrong =>
      obtain ⟨n, rfl⟩ := Nat.exists_eq_add_one.mpr (Nat.zero_lt_of_lt enough)
      rcases wrong with outside | again
      · simp [listTrail, outside]
      · simp [listTrail, again]
  | goOn holds fresh _ ih =>
      obtain ⟨n, rfl⟩ := Nat.exists_eq_add_one.mpr (Nat.zero_lt_of_lt enough)
      rw [listTrail, ih (by simpa using enough)]
      simp [holds, fresh]

/-- All members that the walk goes on from are new, and lie where members can. There may be a last
one behind them, which does not, or is one of them again.
-/
theorem exists_passed (h : Follows m r passed link bs) (distinct : passed.Nodup)
    : ∃ on, ∃ last : Link, bs = on ++ last.toList ∧ (on ++ passed).Nodup
        ∧ (∀ b ∈ on, holdsLinks r b = true)
        ∧ ∀ b ∈ last, holdsLinks r b = false ∨ b ∈ on ++ passed := by
  induction h with
  | finish => exact ⟨[], none, rfl, distinct, by simp, by simp⟩
  | @stop passed b wrong => exact ⟨[], some b, rfl, distinct, by simp, by simpa using wrong⟩
  | @goOn passed bs b holds fresh _ ih =>
      obtain ⟨on, last, rfl, new, right, wrong⟩ := ih (List.nodup_cons.mpr ⟨fresh, distinct⟩)
      have moved : (on ++ b :: passed).Perm (b :: on ++ passed) := List.perm_middle
      refine ⟨b :: on, last, rfl, moved.nodup_iff.mp new,
        List.forall_mem_cons.mpr ⟨holds, right⟩, ?_⟩
      exact fun c hc => (wrong c hc).imp_right moved.mem_iff.mp

/-- The walk comes to one member more than can be new at most. -/
theorem length_le (h : Follows m r passed link bs) (start : r.start.toNat + 8 < UInt64.size)
    (limit : r.frontier.toNat + 8 < UInt64.size) (held : ∀ b ∈ passed, holdsLinks r b = true)
    (distinct : passed.Nodup)
    : passed.length + bs.length ≤ (r.frontier.toNat - r.start.toNat) / 16 + 1 := by
  obtain ⟨on, last, rfl, new, right, -⟩ := h.exists_passed distinct
  have few := length_le_of_holds start limit (List.forall_mem_append.mpr ⟨right, held⟩) new
  have one : last.toList.length ≤ 1 := by cases last <;> simp
  simp only [List.length_append] at few ⊢
  omega

end Follows

end Audit

namespace Heap

variable {h : Heap}

/-- The walk by address that an audit makes from the low end is the whole walk. -/
theorem climbs_auditedBlocks (placed : h.Placed) (ends : h.prologueIntact = true)
    : Audit.Climbs h.memory h.region.frontier (h.prologue.above h.memory) h.auditedBlocks := by
  have limit := placed.limit
  have high := placed.high
  have above := toNat_above_prologue placed (prologueIntact_iff.mp ends).1
  have steps : Pool.walkLimit = UInt64.size := rfl
  obtain ⟨bs, climbs⟩ := Audit.exists_climbs (m := h.memory) (n := Pool.walkLimit) limit
    (b := h.prologue.above h.memory) (by omega) (by omega) (by omega)
  have few := (climbs.bounds limit (by omega) (by omega)).2
  rw [auditedBlocks, if_pos ends, climbs.blockTrail_eq (by omega)]
  exact climbs

/-- The walk along the free list that an audit makes is the whole walk. -/
theorem follows_auditedMembers (placed : h.Placed)
    : Audit.Follows h.memory h.region [] h.head h.auditedMembers := by
  have limit := placed.limit
  have start := placed.toNat_start_add_lt
  have steps : Pool.walkLimit = UInt64.size := rfl
  have nothing : ∀ b ∈ ([] : List Block), Audit.holdsLinks h.region b = true := by simp
  obtain ⟨bs, follows⟩ : ∃ bs, Audit.Follows h.memory h.region [] h.head bs :=
    Audit.exists_follows (n := Pool.walkLimit) start limit nothing .nil
      (by rw [List.length_nil]; omega)
  have few := follows.length_le start limit nothing .nil
  rw [List.length_nil] at few
  rw [auditedMembers, follows.listTrail_eq (by omega)]
  exact follows

/-- Both walks of an audit stop in every heap whose low end lies in its region, whatever else is
damaged. Either comes to one block more than multiples of the alignment fit in the region at most.
Each block of the walk by address is the one above the block before it, which does not wrap and lies
higher by the alignment at least, and the walk stays below the first word behind the end of the
heap. The walk along the free list goes on only from new multiples of the alignment in the region.
-/
theorem walks_stop (placed : h.Placed)
    : let most := (h.region.frontier.toNat - h.region.start.toNat) / 16 + 1
      (h.prologueIntact = true
        → Audit.Climbs h.memory h.region.frontier (h.prologue.above h.memory) h.auditedBlocks)
      ∧ (h.auditedBlocks.IsChain fun b c => c = b.above h.memory
          ∧ c.address.toNat = b.address.toNat + (b.size h.memory).toNat
          ∧ b.address.toNat + 16 ≤ c.address.toNat)
      ∧ (∀ b ∈ h.auditedBlocks, b.address.toNat ≤ h.region.frontier.toNat + 8)
      ∧ h.auditedBlocks.length ≤ most
      ∧ Audit.Follows h.memory h.region [] h.head h.auditedMembers
      ∧ (∃ on, ∃ last : Link, h.auditedMembers = on ++ last.toList ∧ on.Nodup
          ∧ (∀ b ∈ on, b.address.toNat % 16 = 0 ∧ h.region.start.toNat + 8 ≤ b.address.toNat
            ∧ b.address.toNat + 16 ≤ h.region.frontier.toNat)
          ∧ ∀ b ∈ last, Audit.holdsLinks h.region b = false ∨ b ∈ on)
      ∧ h.auditedMembers.length ≤ most := by
  intro most
  have limit := placed.limit
  have low := placed.low
  have high := placed.high
  have start := placed.toNat_start_add_lt
  have follows := follows_auditedMembers placed
  have members := follows.length_le start limit (by simp) .nil
  obtain ⟨on, last, parts, new, right, wrong⟩ := follows.exists_passed .nil
  rw [List.append_nil] at new wrong
  rw [List.length_nil, Nat.zero_add] at members
  have listed : ∃ on, ∃ last : Link, h.auditedMembers = on ++ last.toList ∧ on.Nodup
      ∧ (∀ b ∈ on, b.address.toNat % 16 = 0 ∧ h.region.start.toNat + 8 ≤ b.address.toNat
        ∧ b.address.toNat + 16 ≤ h.region.frontier.toNat)
      ∧ ∀ b ∈ last, Audit.holdsLinks h.region b = false ∨ b ∈ on :=
    ⟨on, last, parts, new, fun b hb => (Audit.holdsLinks_iff start limit).mp (right b hb), wrong⟩
  by_cases ends : h.prologueIntact = true
  · have climbs := climbs_auditedBlocks placed ends
    have above := toNat_above_prologue placed (prologueIntact_iff.mp ends).1
    obtain ⟨near, few⟩ := climbs.bounds limit (by omega) (by omega)
    exact ⟨fun _ => climbs, climbs.isChain limit (by omega), near, by omega, follows, listed,
      members⟩
  · have none : h.auditedBlocks = [] := if_neg ends
    rw [none]
    exact ⟨fun intact => absurd intact ends, .nil, by simp, by simp, follows, listed, members⟩

/-- A new heap whose only free block leads on to itself. -/
def circularHeap : Heap :=
  let h := (create (.ofChunkSize 256) ⟨0x1000, 0, 4096⟩ .zeros).2
  { h with memory := Block.setSuccessor ⟨4128⟩ h.memory (some ⟨4128⟩) }

/-- The low end of the circular heap lies in the handed-out part of its region. -/
theorem placed_circular : circularHeap.Placed :=
  ⟨by decide +kernel, by decide +kernel, by decide +kernel⟩

/-- The walk along a circle stops when it comes back to where it began. -/
theorem walks_stop_circular
    : circularHeap.Placed
      ∧ circularHeap.auditedMembers = [⟨4128⟩, ⟨4128⟩]
      ∧ Audit.Follows circularHeap.memory circularHeap.region [] circularHeap.head
          [⟨4128⟩, ⟨4128⟩]
      ∧ circularHeap.auditedBlocks.length ≤ 19 := by
  have members : circularHeap.auditedMembers = [⟨4128⟩, ⟨4128⟩] := by decide +kernel
  have most : (circularHeap.region.frontier.toNat - circularHeap.region.start.toNat) / 16 + 1
      = 19 := by
    decide +kernel
  obtain ⟨-, -, -, few, follows, -⟩ := walks_stop placed_circular
  rw [most] at few
  rw [members] at follows
  exact ⟨placed_circular, members, follows, few⟩

end Heap

end BoundaryTag
