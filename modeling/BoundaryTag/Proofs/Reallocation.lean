import BoundaryTag.Heap.Resize
import BoundaryTag.Proofs.Allocation
import BoundaryTag.Proofs.Resizing

/-! Resizing as a step: the plan that is chosen is one that can be carried out, and whichever it is,
the block ends up with room for the request and with its old contents.
-/

namespace BoundaryTag

-----------------------------------------------------------------------------------------
-- What the choice of a plan says
-----------------------------------------------------------------------------------------

/-- A plan suits a site: what it uses up is there and enough, and no earlier plan would do. -/
inductive Site.Planned (s : Site) (wanted : Size) : Plan → Prop
  | stay (enough : wanted ≤ s.here.size) : s.Planned wanted .stay
  | growDown {d : Extent} (short : ¬wanted ≤ s.here.size) (below : s.lower = some d)
    (enough : wanted ≤ d.size + s.here.size) : s.Planned wanted (.growDown d.block)
  | growUp {u : Extent} (short : ¬wanted ≤ s.here.size) (above : s.upper = some u)
    (low : ∀ d ∈ s.lower, ¬wanted ≤ d.size + s.here.size)
    (enough : wanted ≤ s.here.size + u.size) : s.Planned wanted (.growUp u.block)
  | growBothWays {d u : Extent} (short : ¬wanted ≤ s.here.size) (below : s.lower = some d)
    (above : s.upper = some u) (low : ¬wanted ≤ d.size + s.here.size)
    (high : ¬wanted ≤ s.here.size + u.size) (enough : wanted ≤ d.size + s.here.size + u.size)
    : s.Planned wanted (.growBothWays d.block u.block)
  | moveAway (short : ¬wanted ≤ s.joined.size) : s.Planned wanted .moveAway

/-- The plan that is chosen for an allocated block suits its site. -/
theorem Pool.Settled.planned_choose {p : Pool} {low top : Block} {xs : List Block} {s : Site}
    (h : p.Settled low s.extents top xs) (hs : s.Enclosed) (wanted : Size)
    : s.Planned wanted (Plan.choose p.memory s.here.block wanted) := by
  obtain ⟨hbelow, belowUsed⟩ := Site.below_eq h.toLaid hs
  obtain ⟨habove, aboveUsed⟩ := Site.above_eq h.toLaid hs
  have size := (h.tagged s.here s.here_mem).size_eq
  have below : ∀ d ∈ s.lower, d.block.size p.memory = d.size :=
    fun d hd => (h.tagged d (Site.mem_of_mem_lower hd)).size_eq
  have above : ∀ u ∈ s.upper, u.block.size p.memory = u.size :=
    fun u hu => (h.tagged u (Site.mem_of_mem_upper hu)).size_eq
  simp only [Plan.choose, belowUsed, aboveUsed, size]
  by_cases fits : wanted ≤ s.here.size
  · simpa only [fits, if_true] using Site.Planned.stay fits
  · cases hlower : s.lower with
    | none =>
        cases hupper : s.upper with
        | none =>
            have short : ¬wanted ≤ s.joined.size := by
              simpa [Site.joined, hlower, hupper] using fits
            simpa [fits] using Site.Planned.moveAway short
        | some u =>
            rw [habove u hupper, above u hupper]
            by_cases up : wanted ≤ s.here.size + u.size
            · simpa [fits, up] using Site.Planned.growUp fits hupper (by simp [hlower]) up
            · have short : ¬wanted ≤ s.joined.size := by
                simpa [Site.joined, hlower, hupper] using up
              simpa [fits, up] using Site.Planned.moveAway short
    | some d =>
        rw [hbelow d hlower, below d hlower]
        by_cases down : wanted ≤ d.size + s.here.size
        · simpa [fits, down] using Site.Planned.growDown fits hlower down
        · cases hupper : s.upper with
          | none =>
              have short : ¬wanted ≤ s.joined.size := by
                simpa [Site.joined, hlower, hupper] using down
              simpa [fits, down] using Site.Planned.moveAway short
          | some u =>
              rw [habove u hupper, above u hupper]
              by_cases up : wanted ≤ s.here.size + u.size
              · simpa [fits, down, up] using
                  Site.Planned.growUp fits hupper (by simpa [hlower] using down) up
              · by_cases both : wanted ≤ d.size + s.here.size + u.size
                · simpa [fits, down, up, both] using
                    Site.Planned.growBothWays fits hlower hupper down up both
                · have short : ¬wanted ≤ s.joined.size := by
                    simpa [Site.joined, hlower, hupper] using both
                  simpa [fits, down, up, both] using Site.Planned.moveAway short

/-- Unless the contents have to move away, the block and its gaps are enough together. -/
theorem Site.Planned.enough {s : Site} {wanted : Size} {plan : Plan} {p : Pool}
    {low top : Block} {xs : List Block} (planned : s.Planned wanted plan)
    (h : p.Laid low s.extents top xs) (near : plan ≠ .moveAway)
    : wanted ≤ s.joined.size := by
  have total := toNat_joined h
  have limit := s.joined.size.toNat_lt
  cases planned with
  | stay enough =>
      rw [Size.le_iff] at enough ⊢
      omega
  | growDown short below enough =>
      simp only [below, Option.elim] at total
      rw [Size.le_iff, Size.toNat_add_of_lt (by omega)] at enough
      rw [Size.le_iff]
      omega
  | growUp short above low enough =>
      simp only [above, Option.elim] at total
      rw [Size.le_iff, Size.toNat_add_of_lt (by omega)] at enough
      rw [Size.le_iff]
      omega
  | growBothWays short below above low high enough =>
      simpa only [joined, below, above, Option.elim] using enough
  | moveAway => exact absurd rfl near

namespace Heap

-----------------------------------------------------------------------------------------
-- Carrying a plan out
-----------------------------------------------------------------------------------------

/-- A step that gives up one block for another of at least the wanted size, which holds the first
bytes of the old contents.
-/
structure Resizes (h : Heap) (es : List Extent) (b : Block) (wanted : Size) (kept : Word)
    (target : Block) (h' : Heap) (es' : List Extent) (xs' : List Block)
    : Prop where
  order : h'.InOrder es' xs'
  step : h.Advances es [b] h' es'
  users : (users es').Perm (target :: (users es).erase b)
  extent : ∃ t ∈ es', t.block = target ∧ t.allocated = true ∧ wanted ≤ t.size
  contents : h'.memory.readBytes target.address kept.toNat
    = h.memory.readBytes b.address kept.toNat

namespace InOrder

variable {h : Heap} {xs : List Block} {s : Site} {wanted : Size} {kept : Word}

/-- Rewriting the middle of a site resizes the extent in it. -/
theorem resizes (ord : h.InOrder s.extents xs) (hs : s.Flanked) (used : s.here.allocated = true)
    {p : Pool} {mid : List Extent} {xs' : List Block} {t : Extent}
    (settled : p.Settled h.prologue (s.left ++ mid ++ s.right) ⟨h.region.frontier⟩ xs')
    (same : h.memory.SameOff s.own p.memory) (ht : t ∈ mid) (tused : t.allocated = true)
    (enough : wanted ≤ t.size) (hmid : BoundaryTag.users mid = [t.block])
    (contents : p.memory.readBytes t.block.address kept.toNat
      = h.memory.readBytes s.here.block.address kept.toNat)
    : h.Resizes s.extents s.here.block wanted kept t.block (h.withPool p)
        (s.left ++ mid ++ s.right) xs' where
  order := ord.withPool settled
  step := ord.advances hs same mid
  users := by
    have others := (hs.users_erase used).symm.cons t.block
    rw [users_append, users_append, hmid, List.append_assoc]
    exact List.perm_middle.trans others
  extent := ⟨t, by simp [ht], rfl, tused, enough⟩
  contents := contents

/-- Every plan but moving away can be carried out where the block is. -/
theorem carryOut_near (ord : h.InOrder s.extents xs) (hs : s.Enclosed)
    (used : s.here.allocated = true) (room : 32 ≤ wanted.toNat)
    (held : kept.toNat + 16 ≤ s.here.size.toNat) (needed : kept.toNat + 16 ≤ wanted.toNat)
    {plan : Plan} (planned : s.Planned wanted plan) (near : plan ≠ .moveAway)
    : ∃ target h' es' xs', h.carryOut plan s.here.block wanted kept = (.ok target, h')
        ∧ h.Resizes s.extents s.here.block wanted kept target h' es' xs' := by
  cases planned with
  | stay enough =>
      by_cases large : Size.minBlock ≤ s.here.size - wanted
      · obtain ⟨settled, same, contents⟩ := ord.settled.trim hs used room enough large
        have parts : (s.cut wanted).left ++ [(s.cut wanted).joined] ++ s.right
            = s.left ++ (s.lower.toList ++ [⟨s.here.block, wanted, true⟩, (s.cut wanted).joined])
              ++ s.right := by
          simp [Site.cut]
        have joined_free : (s.cut wanted).joined.allocated = false := rfl
        rw [parts] at settled
        have resized := ord.resizes hs.toFlanked used settled same
          (t := ⟨s.here.block, wanted, true⟩) (by simp) rfl (by rw [Size.le_iff])
          (by simp [users_cons, users_toList hs.lower_free, joined_free]) (contents _ needed)
        exact ⟨_, _, _, _, by simp only [Heap.carryOut], resized⟩
      · have unchanged := ord.settled.trim_eq_self large
        have here : s.here ∈ s.middle := Site.mem_middle.mpr (Or.inr (Or.inl rfl))
        have alone : BoundaryTag.users s.middle = [s.here.block] := by
          simp [Site.middle, users_cons, used, users_toList hs.lower_free,
            users_toList hs.upper_free]
        have contents : h.memory.readBytes s.here.block.address kept.toNat
            = h.memory.readBytes s.here.block.address kept.toNat := rfl
        have resized := ord.resizes hs.toFlanked used ord.settled (.refl _ _) here used enough alone
          contents
        exact ⟨_, _, _, _, by simp only [Heap.carryOut, unchanged], resized⟩
  | @growDown d short below enough =>
      obtain ⟨target, settled, same, contents⟩ :=
        ord.settled.growDown hs used below room enough held needed
      obtain ⟨size, parts, hsize⟩ := exists_splitHigh d.block enough
      have resized := ord.resizes hs.toFlanked used settled same
        (t := ⟨highEnd d.block (d.size + s.here.size) wanted, size, true⟩) (by simp [parts]) rfl
        hsize (by simp [users_splitHigh enough, users_toList hs.upper_free]) contents
      refine ⟨_, _, _, _, ?_, resized⟩
      simp only [Heap.carryOut, target]
  | @growUp u short above low enough =>
      obtain ⟨settled, same, contents⟩ := ord.settled.growUp hs used above room enough
      obtain ⟨size, rest, hsplit, hsize, -⟩ := exists_split s.here.block enough
      have resized := ord.resizes hs.toFlanked used settled same
        (t := ⟨s.here.block, size, true⟩) (by simp [hsplit]) rfl hsize
        (by simp [users_split, users_toList hs.lower_free]) (contents _ held needed)
      exact ⟨_, _, _, _, by simp only [Heap.carryOut], resized⟩
  | @growBothWays d u short below above low high enough =>
      obtain ⟨settled, same, contents⟩ :=
        ord.settled.growBothWays hs used below above room enough held needed
      obtain ⟨size, rest, hsplit, hsize, -⟩ := exists_split d.block enough
      have resized := ord.resizes hs.toFlanked used settled same (t := ⟨d.block, size, true⟩)
        (by simp [hsplit]) rfl hsize (users_split _ _ _) contents
      exact ⟨_, _, _, _, by simp only [Heap.carryOut], resized⟩
  | moveAway => exact absurd rfl near

end InOrder

/-- Moving away allocates a block, copies the contents there and frees the old block. -/
theorem moveAway_eq {h h' : Heap} {b target : Block} {wanted : Size} {kept : Word}
    (served : h.serve wanted = (.ok target, h'))
    : h.moveAway b wanted kept
      = (.ok target,
          Heap.free { h'.note (.moving b target kept) with
            memory := h'.memory.copy b.address target.address kept } b) := by
  simp only [moveAway, served, withPool, note, Pool.movePayload]

namespace InOrder

variable {h : Heap} {es : List Extent} {xs : List Block} {e : Extent} {wanted : Size} {kept : Word}

/-- An allocated extent with room for some contents takes them from anywhere. -/
theorem receive (ord : h.InOrder es xs) {t : Extent} (ht : t ∈ es) (used : t.allocated = true)
    (room : kept.toNat + 16 ≤ t.size.toNat) (b : Block)
    : Heap.InOrder { h.note (.moving b t.block kept) with
          memory := h.memory.copy b.address t.block.address kept } es xs
      ∧ (h.note (.moving b t.block kept)).Advances es [t.block]
          { h.note (.moving b t.block kept) with
            memory := h.memory.copy b.address t.block.address kept } es := by
  obtain ⟨fits, inside⟩ := ord.span_subset_payload ht room
  have copied := (h.memory.sameOff_copy b.address fits).mono inside
  exact (ord.note (.moving b t.block kept)).scribble ht used copied

/-- Moving away resizes a block, wherever its contents go. -/
theorem moveAway (ord : h.InOrder es xs) (he : e ∈ es) (used : e.allocated = true)
    (room : 32 ≤ wanted.toNat) (held : kept.toNat + 16 ≤ e.size.toNat)
    (needed : kept.toNat + 16 ≤ wanted.toNat) {target : Block} {h' : Heap}
    (served : h.serve wanted = (.ok target, h'))
    : ∃ es' xs', h.Resizes es e.block wanted kept target (h.moveAway e.block wanted kept).2
        es' xs' := by
  obtain ⟨es₁, xs₁, serves⟩ := ord.serve room served
  obtain ⟨t, ht, rfl, tused, enough⟩ := serves.extent
  have fresh : t.block ∉ users es := serves.order.fresh [t.block] serves.users (by simp)
  have apart : e.block ≠ t.block :=
    fun same => fresh (same ▸ mem_users.mpr ⟨e, he, rfl, used⟩)
  rw [Size.le_iff] at enough
  obtain ⟨ord₂, step₂⟩ := serves.order.receive ht tused (needed.trans enough) e.block
  have moved := Memory.readBytes_copy h'.memory e.block.address t.block.address kept
  rw [moveAway_eq served]
  generalize h'.memory.copy e.block.address t.block.address kept = m at ord₂ step₂ moved ⊢
  have user : e.block ∈ users es₁ := by
    rw [serves.users.mem_iff]
    exact List.mem_cons_of_mem _ (mem_users.mpr ⟨e, he, rfl, used⟩)
  obtain ⟨es₃, xs₃, ord₃, step₃, users₃⟩ := ord₂.free user
  have noted := Advances.note h' es₁ [] (.moving e.block t.block kept)
  refine ⟨es₃, xs₃, ord₃, ?_, ?_, ?_, ?_⟩
  · apply (((serves.step.trans noted).trans step₂).trans step₃).narrow
    intro f hf fused hgone
    have either : f.block = t.block ∨ f.block = e.block := by simpa using hgone
    rcases either with same | same
    · exact absurd (mem_users.mpr ⟨f, hf, same, fused⟩) fresh
    · exact List.mem_singleton.mpr same
  · have others := serves.users.erase e.block
    rw [List.erase_cons_tail (by simpa using apart.symm)] at others
    exact users₃.trans others
  · refine ⟨t, step₃.kept t ht tused ?_, rfl, tused, Size.le_iff.mpr enough⟩
    simpa using apart.symm
  · have last := step₃.readBytes_eq ord₂ ht tused (by simpa using apart.symm) (n := kept.toNat)
      (by omega)
    have first := serves.step.readBytes_eq ord he used (by simp) held
    dsimp only at last ⊢
    rw [last, moved, first]

/-- Every plan that suits the site of a block can be carried out, unless the contents have to move
away and no other block is served, which leaves the layout as it was.
-/
theorem carryOut {s : Site} (ord : h.InOrder s.extents xs) (hs : s.Enclosed)
    (used : s.here.allocated = true) (room : 32 ≤ wanted.toNat)
    (held : kept.toNat + 16 ≤ s.here.size.toNat) (needed : kept.toNat + 16 ≤ wanted.toNat)
    {plan : Plan} (planned : s.Planned wanted plan)
    : (∃ e, (h.carryOut plan s.here.block wanted kept).1 = .error e
          ∧ (h.carryOut plan s.here.block wanted kept).2.InOrder s.extents xs
          ∧ h.Advances s.extents [] (h.carryOut plan s.here.block wanted kept).2 s.extents)
      ∨ ∃ target es' xs', (h.carryOut plan s.here.block wanted kept).1 = .ok target
          ∧ h.Resizes s.extents s.here.block wanted kept target
              (h.carryOut plan s.here.block wanted kept).2 es' xs' := by
  by_cases away : plan = .moveAway
  · subst away
    obtain ⟨result, h', served⟩ : ∃ result h', h.serve wanted = (result, h') := ⟨_, _, rfl⟩
    cases result with
    | error e =>
        obtain ⟨-, -, -, rfl⟩ := serve_error served
        simp only [Heap.carryOut, Heap.moveAway, served]
        exact Or.inl ⟨e, rfl, ord.note _, Advances.note h s.extents [] _⟩
    | ok target =>
        obtain ⟨es', xs', resizes⟩ := ord.moveAway s.here_mem used room held needed served
        refine Or.inr ⟨target, es', xs', ?_, resizes⟩
        simp only [Heap.carryOut, Heap.moveAway, served]
  · obtain ⟨target, h', es', xs', carried, resizes⟩ :=
      ord.carryOut_near hs used room held needed planned away
    rw [carried]
    exact Or.inr ⟨target, es', xs', rfl, resizes⟩

end InOrder

-----------------------------------------------------------------------------------------
-- The request as a whole
-----------------------------------------------------------------------------------------

/-- The number of bytes that a resized block keeps of its contents. -/
def kept (h : Heap) (b : Block) (bytes : Word) : Word := min bytes (h.usableSize b).word

/-- The number of bytes kept is the smaller of the old and the new number. -/
theorem toNat_kept (h : Heap) (b : Block) (bytes : Word)
    : (h.kept b bytes).toNat = min bytes.toNat (h.usableSize b).toNat := by
  show (if bytes ≤ (h.usableSize b).word then bytes else (h.usableSize b).word).toNat = _
  rw [Nat.min_def, Size.toNat]
  by_cases less : bytes ≤ (h.usableSize b).word
  · rw [if_pos less, if_pos (UInt64.le_iff_toNat_le.mp less)]
  · rw [if_neg less, if_neg (fun le => less (UInt64.le_iff_toNat_le.mpr le))]

/-- What a block has for its user is all of it but its tags. -/
theorem toNat_usableSize {h : Heap} {b : Block} (room : 16 ≤ (b.size h.memory).toNat)
    : (h.usableSize b).toNat = (b.size h.memory).toNat - 16 :=
  Size.toNat_sub_of_le (by rw [Size.le_iff, Size.toNat_overhead]; exact room)

/-- All of an extent but its tags is for its user. -/
theorem InOrder.toNat_usableSize {h : Heap} {es : List Extent} {xs : List Block} {e : Extent}
    (ord : h.InOrder es xs) (he : e ∈ es)
    : (h.usableSize e.block).toNat = e.size.toNat - 16 := by
  have room := (ord.bounds he).2.1
  have size := (ord.settled.tagged e he).size_eq
  rw [Heap.toNat_usableSize (by rw [size]; omega), size]

/-- What a resized block keeps has room in the old extent and in the new one. -/
theorem InOrder.kept_bounds {h : Heap} {es : List Extent} {xs : List Block} {e : Extent}
    {bytes : Word} {wanted : Size} (ord : h.InOrder es xs) (he : e ∈ es)
    (request : Size.forRequest? bytes = some wanted)
    : (h.kept e.block bytes).toNat + 16 ≤ e.size.toNat
      ∧ (h.kept e.block bytes).toNat + 16 ≤ wanted.toNat := by
  have usable := ord.toNat_usableSize he
  have least := (ord.bounds he).2.1
  have fits := (Size.room_of_forRequest? request).2
  rw [toNat_kept]
  omega

/-- A request for another size that has none itself is refused as too large. -/
theorem resize_of_none {h : Heap} {b : Block} {bytes : Word} (hbytes : bytes ≠ 0)
    (size : Size.forRequest? bytes = none)
    : h.resize (some b) bytes = (.error (.tooLarge bytes), h) := by
  simp only [resize, hbytes, if_false, size]

/-- A request for another size carries out the plan that is chosen for it, and notes which one it
is.
-/
theorem resize_of_some {h : Heap} {b : Block} {bytes : Word} {wanted : Size}
    (hbytes : bytes ≠ 0) (size : Size.forRequest? bytes = some wanted)
    : h.resize (some b) bytes
      = let outcome := (h.note (.resizing b wanted (Plan.choose h.memory b wanted))).carryOut
          (Plan.choose h.memory b wanted) b wanted (h.kept b bytes)
        (outcome.1.map some, outcome.2) := by
  simp only [resize, hbytes, if_false, size, kept]

/-- A note before a block is resized does not matter. -/
theorem Resizes.of_note {h h' : Heap} {es es' : List Extent} {xs' : List Block} {event : Event}
    {b target : Block} {wanted : Size} {kept : Word}
    (resizes : (h.note event).Resizes es b wanted kept target h' es' xs')
    : h.Resizes es b wanted kept target h' es' xs' where
  order := resizes.order
  step := (Advances.note h es [] event).trans resizes.step
  users := resizes.users
  extent := resizes.extent
  contents := by
    rw [resizes.contents, memory_note]

/-- Resizing a block in use either fails, which leaves the layout as it was, or is a step to a
block with room for the request and with the old contents.
-/
theorem InOrder.resize {h : Heap} {es : List Extent} {xs : List Block} {b : Block} {bytes : Word}
    (ord : h.InOrder es xs) (hb : b ∈ users es) (hbytes : bytes ≠ 0)
    : (∃ e, (h.resize (some b) bytes).1 = .error e
          ∧ (h.resize (some b) bytes).2.InOrder es xs
          ∧ h.Advances es [] (h.resize (some b) bytes).2 es)
      ∨ ∃ target wanted es' xs', (h.resize (some b) bytes).1 = .ok (some target)
          ∧ bytes.toNat + 16 ≤ wanted.toNat
          ∧ h.Resizes es b wanted (h.kept b bytes) target (h.resize (some b) bytes).2
              es' xs' := by
  cases size : Size.forRequest? bytes with
  | none =>
      rw [resize_of_none hbytes size]
      exact Or.inl ⟨_, rfl, ord, Advances.refl h es []⟩
  | some wanted =>
      obtain ⟨room, fits⟩ := Size.room_of_forRequest? size
      obtain ⟨e, he, rfl, used⟩ := mem_users.mp hb
      obtain ⟨s, rfl, rfl, hs⟩ := ord.settled.exists_site he
      obtain ⟨held, needed⟩ := ord.kept_bounds s.here_mem size
      have planned := ord.settled.planned_choose hs wanted
      rw [resize_of_some hbytes size]
      generalize Plan.choose h.memory s.here.block wanted = plan at planned ⊢
      rcases (ord.note (.resizing s.here.block wanted plan)).carryOut hs used room held needed
        planned with ⟨e, failed, order, step⟩ | ⟨target, es', xs', succeeded, resizes⟩
      · simp only [failed]
        exact Or.inl ⟨e, rfl, order, (Advances.note h s.extents [] _).trans step⟩
      · simp only [succeeded]
        exact Or.inr ⟨target, wanted, es', xs', rfl, fits, resizes.of_note⟩

end Heap

end BoundaryTag
