import BoundaryTag.Proofs.Founding
import BoundaryTag.Proofs.Reports
import BoundaryTag.Proofs.Sessions

/-! What an audit makes of a single damaged word in a heap in order. Most words of a heap's own are
there twice: a tag stands at both ends of its block, and a link of the free list has one that leads
back. The one that is damaged no longer matches the other, whatever it is damaged to, and an audit
that goes on past it finds nothing else to report. A link onwards is different. The walk follows
it to wherever it leads, and what is found there cannot be told; but then either the walk never
comes to the member behind, or it does not come to it from the one that this leads back to. And with
a damaged header at the low end an audit may not come to a report at all, because it reads the
footer where that header says.
-/

namespace BoundaryTag

namespace Audit

variable {m m' : Memory} {r : Region} {heapEnd : Word} {before : Link} {b : Block}
  {bs cs ys zs passed : List Block}

-----------------------------------------------------------------------------------------
-- What is found where one word differs
-----------------------------------------------------------------------------------------

/-- The walk by address goes on behind a block of the same size. -/
theorem inside_of_size_eq (size : b.size m' = b.size m)
    : inside m' heapEnd b = inside m heapEnd b := by
  rw [inside, inside, size]

/-- The walk by address does not go on behind the end of the heap, whatever its header says: there
is room for a header only.
-/
theorem inside_end (low : 8 ≤ heapEnd.toNat) (limit : heapEnd.toNat + 8 < UInt64.size)
    : inside m heapEnd ⟨heapEnd⟩ = false := by
  apply Bool.eq_false_of_not_eq_true
  rw [inside_iff ⟨heapEnd⟩ limit low]
  rintro ⟨-, sized, reach⟩
  have room := Size.le_toNat_of_ne_zero sized
  simp only at reach
  omega

/-- Of a block that was right, and has another word at its high end now, no more is found than that.
-/
theorem blockFaults_of_footer (right : blockFaults m before b = []) (tag : b.tag m' = b.tag m)
    (behind : ∀ f ∈ before, f.allocated m' = f.allocated m) (differs : b.footerTag m' ≠ b.tag m)
    : blockFaults m' before b = [.tagMismatch b (b.tag m) (b.footerTag m')] := by
  have flag := Block.allocated_of_tag_eq tag
  simp only [blockFaults, List.append_eq_nil_iff] at right
  obtain ⟨⟨⟨aligned, room⟩, -⟩, beside⟩ := right
  cases before with
  | none =>
      simp only [blockFaults, tag, aligned, room, if_neg differs, List.nil_append,
        List.append_nil]
  | some f =>
      simp only [blockFaults, tag, flag, behind f rfl, aligned, room, beside, if_neg differs,
        List.nil_append, List.append_nil]

/-- An end with a size reaches too far, and no more is found there. -/
theorem blockFindings_end_of_sized (low : 8 ≤ heapEnd.toNat)
    (limit : heapEnd.toNat + 8 < UInt64.size) (sized : (Block.mk heapEnd).size m ≠ Size.zero)
    : blockFindings m heapEnd before ⟨heapEnd⟩
      = [.outOfBounds ⟨heapEnd⟩ ((Block.mk heapEnd).size m).word heapEnd] := by
  have above : ¬ heapEnd < (Block.mk heapEnd).address := UInt64.lt_irrefl heapEnd
  have beyond := lt_of_not_inside above sized (ne_true_of_eq_false (inside_end low limit))
  rw [blockFindings, if_neg above, if_neg sized, if_pos beyond]

/-- An end without a size that is not allocated is not the one that was written, and no more is
found there.
-/
theorem blockFindings_end_of_free (sized : (Block.mk heapEnd).size m = Size.zero)
    (unused : (Block.mk heapEnd).allocated m = false)
    : blockFindings m heapEnd before ⟨heapEnd⟩
      = [.badEpilogue ⟨heapEnd⟩ ((Block.mk heapEnd).tag m)] := by
  have above : ¬ heapEnd < (Block.mk heapEnd).address := UInt64.lt_irrefl heapEnd
  simp [blockFindings, above, sized, unused]

/-- Of a member that was right, and leads back elsewhere now, no more is found than that. -/
theorem memberFindings_of_predecessor (right : memberFindings m r passed b = [])
    (flag : b.allocated m' = b.allocated m) (differs : b.predecessor m' ≠ passed.head?)
    : memberFindings m' r passed b = [.brokenLink b (b.predecessor m') passed.head?] := by
  obtain ⟨holds, fresh, unused, -⟩ := memberFindings_eq_nil_iff.mp right
  simp [memberFindings, holds, fresh, flag, unused, differs]

/-- Along a trail that was right, and of which one block has changed, only what is wrong with that
is found. The flag of the block must be the same if there are others behind it.
-/
theorem trailFindings_of_one (right : trailFindings m heapEnd none (bs ++ b :: cs) = [])
    (others : ∀ c ∈ bs ++ cs, c.tag m' = c.tag m
      ∧ (inside m heapEnd c = true → c.footerTag m' = c.footerTag m))
    (flag : cs = [] ∨ b.allocated m' = b.allocated m)
    : blockFindings m heapEnd bs.getLast? b = []
      ∧ trailFindings m' heapEnd none (bs ++ b :: cs) = blockFindings m' heapEnd bs.getLast? b := by
  rw [trailFindings_append, Option.or_none, trailFindings] at right ⊢
  simp only [List.append_eq_nil_iff] at right
  obtain ⟨low, here, high⟩ := right
  have same := List.forall_mem_append.mp others
  have low' : trailFindings m' heapEnd none bs = [] := by
    rw [trailFindings_congr same.1 (by simp), low]
  have high' : trailFindings m' heapEnd (some b) cs = [] := by
    rcases flag with rfl | flag
    · rfl
    · rw [trailFindings_congr same.2 (by simpa using flag), high]
  exact ⟨here, by rw [low', high', List.nil_append, List.append_nil]⟩

/-- Along a free list that was right, and of which one member has changed, only what is wrong with
that is found.
-/
theorem listFindings_of_one (right : listFindings m r [] (ys ++ b :: zs) = [])
    (others : ∀ c ∈ ys ++ zs, c.allocated m' = c.allocated m ∧ c.predecessor m' = c.predecessor m)
    : memberFindings m r ys.reverse b = []
      ∧ listFindings m' r [] (ys ++ b :: zs) = memberFindings m' r ys.reverse b := by
  rw [listFindings_append, List.append_nil, listFindings] at right ⊢
  simp only [List.append_eq_nil_iff] at right
  obtain ⟨front, here, rear⟩ := right
  have same := List.forall_mem_append.mp others
  rw [listFindings_congr fun c hc _ => same.1 c hc, listFindings_congr fun c hc _ => same.2 c hc,
    front, rear, List.nil_append, List.append_nil]
  exact ⟨here, rfl⟩

end Audit

namespace Heap

/-- The heap with another word at an address. -/
def overwrite (h : Heap) (a w : Word) : Heap := h.withMemory (h.memory.writeWord a w)

variable {h : Heap} {es : List Extent} {xs ys zs : List Block} {e : Extent} {b c : Block}
  {m : Memory} {S : Set Word} {w : Word}

/-- An overwritten word is there, and no other byte has changed. -/
theorem exists_overwrite (h : Heap) (w : Word) {a : Word} (fits : a.toNat + 8 ≤ UInt64.size)
    : ∃ m, h.overwrite a w = h.withMemory m ∧ m.readWord a = w
        ∧ h.memory.SameOff (Word.span a.toNat (a.toNat + 8)) m :=
  ⟨_, rfl, Memory.readWord_writeWord _ _ _, h.memory.sameOff_writeWord w fits⟩

/-- The tags of a block lie above the header of the low end. -/
theorem InOrder.tags_above (ord : h.InOrder es xs) (he : e ∈ es)
    : (h.prologue.address.toNat ≤ e.block.header.toNat
        ∧ e.block.header.toNat + 8 ≤ UInt64.size)
      ∧ h.prologue.address.toNat ≤ (e.block.footer h.memory).toNat
      ∧ (e.block.footer h.memory).toNat + 8 ≤ UInt64.size := by
  have settled := ord.settled
  have fits := settled.fits he
  have stop : e.stop = e.start + e.size.toNat := rfl
  have header := fits.toNat_header
  have limit := fits.stop_le
  obtain ⟨above, room, -⟩ := settled.bounds he
  have footer : (e.block.footer h.memory).toNat = e.stop - 16 := by
    rw [Block.footer, (settled.tagged e he).size_eq, fits.toNat_footer]
  omega

/-- The links of a member lie above the header of the low end. -/
theorem InOrder.links_above (ord : h.InOrder es xs) (hb : b ∈ xs)
    : (h.prologue.address.toNat ≤ b.predecessorSlot.toNat
        ∧ b.predecessorSlot.toNat + 8 ≤ UInt64.size)
      ∧ h.prologue.address.toNat ≤ b.successorSlot.toNat
      ∧ b.successorSlot.toNat + 8 ≤ UInt64.size := by
  have settled := ord.settled
  have roomy := settled.lists.roomy b hb
  have fits := roomy.2
  have back : b.predecessorSlot.toNat = b.address.toNat := rfl
  have on := roomy.toNat_successorSlot
  obtain ⟨e, he, rfl, -⟩ := settled.free b hb
  have bounds := settled.bounds he
  have start : e.start = e.block.address.toNat := rfl
  omega

-----------------------------------------------------------------------------------------
-- What a change leaves as it was
-----------------------------------------------------------------------------------------

section

variable (ord : h.InOrder es xs)

include ord

/-- Where all blocks have their tags, their headers are as they were. -/
theorem InOrder.headers_of_tagged (tagged : ∀ f ∈ es, f.Tagged m)
    : ∀ f ∈ es, f.block.tag m = f.block.tag h.memory := by
  intro f hf
  rw [(tagged f hf).tag_eq, (ord.settled.tagged f hf).tag_eq]

/-- Where headers are as they were, so are the flags of all members. -/
theorem InOrder.flags_of_headers (headers : ∀ f ∈ es, f.block.tag m = f.block.tag h.memory)
    : ∀ b ∈ xs, b.allocated m = b.allocated h.memory := by
  intro b hb
  obtain ⟨f, hf, rfl, -⟩ := ord.settled.free b hb
  exact Block.allocated_of_tag_eq (headers f hf)

variable (same : h.memory.SameOff S m)

include same

/-- The links of members away from a change are as they were. -/
theorem InOrder.links_of_sameOff (hb : b ∈ xs) (apart : ∀ x ∈ S, x ∉ b.links)
    : b.predecessor m = b.predecessor h.memory ∧ b.successor m = b.successor h.memory :=
  (ord.settled.lists.roomy b hb).links_eq same apart

/-- A change of the tags of one block leaves those of the others, both ends and all links. -/
theorem InOrder.kept_of_tags (he : e ∈ es) (within : S ⊆ e.tagBytes)
    : (∀ f ∈ es, f ≠ e → f.Tagged m)
      ∧ (h.withMemory m).prologueIntact = true
      ∧ (Block.mk h.region.frontier).tag m = epilogueTag
      ∧ ∀ b ∈ xs, b.predecessor m = b.predecessor h.memory
          ∧ b.successor m = b.successor h.memory := by
  have settled := ord.settled
  obtain ⟨above, room, below⟩ := settled.bounds he
  have reach : h.memory.SameOff (Pool.Laid.reach es e.start e.stop) m := by
    apply same.mono
    intro x hx
    have tag := within hx
    simp only [Extent.tagBytes, Extent.stop, Set.mem_union, Word.mem_span] at tag
    exact Or.inl (by simp only [Extent.stop, Word.mem_span]; omega)
  have change : h.toPool.memory.SameOff (Pool.Laid.reach es e.start e.stop)
      (h.withMemory m).toPool.memory := reach
  obtain ⟨bottom, ceiling⟩ := settled.ends_of_sameOff above below change
  refine ⟨?_, prologueIntact_of_tagged bottom, ceiling, ?_⟩
  · intro f hf other
    exact settled.tagged_of_sameOff hf ((settled.tiles.apart hf he).resolve_left other) change
  · intro b hb
    obtain ⟨f, hf, rfl, -⟩ := settled.free b hb
    apply ord.links_of_sameOff same hb
    intro x hx link
    exact settled.payload_notMem_tagBytes hf he x (settled.links_subset_payload hf link) (within hx)

/-- A change of the links of one block leaves all tags, both ends and the links of the others. -/
theorem InOrder.kept_of_links (he : e ∈ es) (within : S ⊆ e.block.links)
    : (∀ f ∈ es, f.Tagged m)
      ∧ (h.withMemory m).prologueIntact = true
      ∧ (Block.mk h.region.frontier).tag m = epilogueTag
      ∧ ∀ b ∈ xs, b ≠ e.block → b.predecessor m = b.predecessor h.memory
          ∧ b.successor m = b.successor h.memory := by
  have settled := ord.settled
  have bottom_le := settled.tiles.le
  let y := h.prologue.address.toNat + 16
  have change : h.toPool.memory.SameOff (Pool.Laid.reach es y y)
      (h.withMemory m).toPool.memory :=
    same.mono fun x hx => Or.inr ⟨e.block, List.mem_map_of_mem he, within hx⟩
  obtain ⟨bottom, ceiling⟩ := settled.ends_of_sameOff le_rfl bottom_le change
  refine ⟨?_, prologueIntact_of_tagged bottom, ceiling, ?_⟩
  · intro f hf
    exact settled.tagged_of_sameOff hf (Or.inr (settled.bounds hf).1) change
  · intro b hb other
    obtain ⟨f, hf, rfl, -⟩ := settled.free b hb
    apply ord.links_of_sameOff same hb
    intro x hx
    exact (settled.links_apart he hf other.symm).notMem x (within hx)

/-- A change at an end of the heap leaves all blocks between the two and their links. -/
theorem InOrder.kept_of_ends
    (outside : ∀ x ∈ S, x ∉ Word.span (h.prologue.address.toNat + 8) (h.region.frontier.toNat - 8))
    : (∀ f ∈ es, f.Tagged m)
      ∧ ∀ b ∈ xs, b.predecessor m = b.predecessor h.memory
          ∧ b.successor m = b.successor h.memory := by
  have settled := ord.settled
  constructor
  · intro f hf
    apply (settled.tagged f hf).sameOff (settled.fits hf) same
    intro x hx tag
    exact outside x hx (settled.tiles.tagsOf_subset ⟨f, hf, tag⟩)
  · intro b hb
    obtain ⟨f, hf, rfl, -⟩ := settled.free b hb
    apply ord.links_of_sameOff same hb
    intro x hx link
    have inner := settled.links_subset_payload hf link
    have bounds := settled.bounds hf
    apply outside x hx
    simp only [Extent.payload, Extent.stop, Word.mem_span] at inner bounds ⊢
    omega

end

-----------------------------------------------------------------------------------------
-- What an audit comes to over another memory
-----------------------------------------------------------------------------------------

section

variable (ord : h.InOrder es xs) (low : h.region.start.toNat + 8 ≤ h.prologue.address.toNat)
  (aligned : h.prologue.address.toNat % 16 = 0)

include ord low aligned

/-- Over any memory in which the low end is there and the blocks have their sizes, an audit comes to
the blocks of the heap and then to the end.
-/
theorem InOrder.auditedBlocks_of_sizes (ends : (h.withMemory m).prologueIntact = true)
    (sizes : ∀ f ∈ es, f.block.size m = f.block.size h.memory)
    : (h.withMemory m).auditedBlocks = es.map (·.block) ++ [⟨h.region.frontier⟩] := by
  have placed := ord.placed low aligned
  have intact := ord.intact low aligned
  have limit := placed.limit
  have high := placed.high
  have above := toNat_above_prologue placed intact.header
  have trail := (intact.charted_above placed).ranged.blockTrail_eq (by omega)
    (intact.length_lt_walkLimit placed)
  have header : h.prologue.tag m = h.prologue.tag h.memory := by
    rw [Block.tag, Block.tag, intact.header]
    exact congrArg Tag.mk (prologueIntact_iff.mp ends).1
  rw [auditedBlocks, if_pos ends]
  simp only [withMemory]
  rw [Block.above_of_tag_eq header, Audit.blockTrail_congr, trail]
  intro c hc
  rw [trail] at hc
  rcases List.mem_append.mp hc with block | last
  · obtain ⟨f, hf, rfl⟩ := List.mem_map.mp block
    exact ⟨Audit.inside_of_size_eq (sizes f hf), fun _ => sizes f hf⟩
  · obtain rfl := List.mem_singleton.mp last
    have stops : ∀ m, Audit.inside m h.region.frontier ⟨h.region.frontier⟩ = false :=
      fun _ => Audit.inside_end (by omega) limit
    simp [stops]

/-- Over any memory in which members lead on as they did, an audit comes to the same members. -/
theorem InOrder.auditedMembers_of_successors
    (forward : ∀ b ∈ xs, b.successor m = b.successor h.memory)
    : (h.withMemory m).auditedMembers = xs := by
  have members := (ord.intact low aligned).auditedMembers_eq (ord.placed low aligned)
  rw [auditedMembers] at members ⊢
  exact (Audit.listTrail_congr fun c hc _ => forward c (members ▸ hc)).trans members

/-- Over any memory in which headers are as they were and members lead back as they did, nothing is
found along the free list.
-/
theorem InOrder.listFindings_of_headers
    (headers : ∀ f ∈ es, f.block.tag m = f.block.tag h.memory)
    (back : ∀ b ∈ xs, b.predecessor m = b.predecessor h.memory)
    : Audit.listFindings m h.region [] xs = [] := by
  have threaded := (ord.intact low aligned).threaded (ord.placed low aligned)
  rw [Audit.listFindings_congr, threaded.listFindings_eq]
  exact fun b hb _ => ⟨ord.flags_of_headers headers b hb, back b hb⟩

/-- Over any memory in which headers are as they were and members lead on as they did, an audit
finds no more than the two walks find at the blocks and the members of the heap.
-/
theorem InOrder.violations_of_headers (ends : (h.withMemory m).prologueIntact = true)
    (headers : ∀ f ∈ es, f.block.tag m = f.block.tag h.memory)
    (forward : ∀ b ∈ xs, b.successor m = b.successor h.memory)
    : (h.withMemory m).violations
      = Audit.trailFindings m h.region.frontier none (es.map (·.block) ++ [⟨h.region.frontier⟩])
        ++ Audit.listFindings m h.region [] xs := by
  have placed := ord.placed low aligned
  have intact := ord.intact low aligned
  have limit := placed.limit
  have high := placed.high
  have blocks := ord.auditedBlocks_of_sizes low aligned ends
    fun f hf => Block.size_of_tag_eq (headers f hf)
  have members := ord.auditedMembers_of_successors low aligned forward
  have listed : xs.filter (Audit.holdsLinks h.region) = xs :=
    List.filter_eq_self.mpr (intact.threaded placed).holds
  have free : Audit.freeBlocks m h.region.frontier (es.map (·.block) ++ [⟨h.region.frontier⟩])
      = gaps es := by
    rw [← intact.charted.ranged.freeBlocks_eq (by omega)]
    apply List.filter_congr
    intro c hc
    rcases List.mem_append.mp hc with block | last
    · obtain ⟨f, hf, rfl⟩ := List.mem_map.mp block
      have header := headers f hf
      rw [Audit.inside_of_size_eq (Block.size_of_tag_eq header), Block.allocated_of_tag_eq header]
    · obtain rfl := List.mem_singleton.mp last
      rw [Audit.inside_end (by omega) limit, Audit.inside_end (by omega) limit]
      simp
  have unlisted : (gaps es).filter (fun b => !xs.contains b) = [] := by
    rw [List.filter_eq_nil_iff]
    intro b hb
    simpa using intact.complete hb
  rw [violations_eq_append, if_pos ends, List.nil_append, findings, blocks, members]
  simp only [withMemory]
  rw [listed, free, unlisted, List.map_nil, List.append_nil]

/-- If members also lead back as they did, an audit finds no more than the walk by address finds. -/
theorem InOrder.violations_of_links (ends : (h.withMemory m).prologueIntact = true)
    (headers : ∀ f ∈ es, f.block.tag m = f.block.tag h.memory)
    (links : ∀ b ∈ xs, b.predecessor m = b.predecessor h.memory
      ∧ b.successor m = b.successor h.memory)
    : (h.withMemory m).violations
      = Audit.trailFindings m h.region.frontier none
          (es.map (·.block) ++ [⟨h.region.frontier⟩]) := by
  rw [ord.violations_of_headers low aligned ends headers fun b hb => (links b hb).2,
    ord.listFindings_of_headers low aligned headers fun b hb => (links b hb).1, List.append_nil]

/-- Over any memory in which the blocks and the end have their tags, they are charted. -/
theorem InOrder.charted_of_tagged (tagged : ∀ f ∈ es, f.Tagged m)
    (ceiling : (Block.mk h.region.frontier).tag m = epilogueTag)
    : Audit.Charted m (h.prologue.address.toNat + 16) es ⟨h.region.frontier⟩ := by
  have charted := (ord.intact low aligned).charted
  exact Audit.charted_of_tagged charted.tiles charted.aligned charted.alternating tagged ceiling

/-- Over any memory in which the blocks and the end have their tags, the walk by address finds
nothing.
-/
theorem InOrder.trailFindings_of_tagged (tagged : ∀ f ∈ es, f.Tagged m)
    (ceiling : (Block.mk h.region.frontier).tag m = epilogueTag)
    : Audit.trailFindings m h.region.frontier none (es.map (·.block) ++ [⟨h.region.frontier⟩])
      = [] :=
  (ord.charted_of_tagged low aligned tagged ceiling).trailFindings_eq (by omega) (by simp)

/-- Over any memory in which headers are as they were and only one footer is not, the walk by
address finds that.
-/
theorem InOrder.trailFindings_of_footer (he : e ∈ es)
    (headers : ∀ f ∈ es, f.block.tag m = f.block.tag h.memory)
    (others : ∀ f ∈ es, f ≠ e → f.Tagged m)
    (ceiling : (Block.mk h.region.frontier).tag m = epilogueTag)
    (differs : e.block.footerTag m ≠ e.block.tag h.memory)
    : Audit.trailFindings m h.region.frontier none (es.map (·.block) ++ [⟨h.region.frontier⟩])
      = [.tagMismatch e.block (e.block.tag h.memory) (e.block.footerTag m)] := by
  have placed := ord.placed low aligned
  have charted := (ord.intact low aligned).charted
  have limit := placed.limit
  have high := placed.high
  have settled := ord.settled
  have right := ord.trailFindings_of_tagged low aligned settled.tagged settled.ceiling
  have within := charted.ranged.inside (by omega) he
  have within' : Audit.inside m (Block.mk h.region.frontier).address e.block = true := by
    rw [Audit.inside_of_size_eq (Block.size_of_tag_eq (headers e he)), within]
  obtain ⟨l, r, rfl⟩ := List.append_of_mem he
  have once : e ∉ l ++ r :=
    (List.nodup_cons.mp (List.nodup_middle.mp (List.Nodup.of_map _ settled.tiles.nodup_blocks))).1
  have around : (l ++ e :: r).map (·.block) ++ [Block.mk h.region.frontier]
      = l.map (·.block) ++ e.block :: (r.map (·.block) ++ [⟨h.region.frontier⟩]) := by
    simp
  have same : ∀ c ∈ l.map (·.block) ++ (r.map (·.block) ++ [Block.mk h.region.frontier]),
      c.tag m = c.tag h.memory
        ∧ (Audit.inside h.memory h.region.frontier c = true
          → c.footerTag m = c.footerTag h.memory) := by
    intro c hc
    rw [← List.append_assoc, ← List.map_append] at hc
    rcases List.mem_append.mp hc with block | last
    · obtain ⟨f, hf, rfl⟩ := List.mem_map.mp block
      have here : f ∈ l ++ e :: r := List.perm_middle.symm.subset (List.mem_cons_of_mem e hf)
      have other : f ≠ e := fun same => once (same ▸ hf)
      refine ⟨headers f here, fun _ => ?_⟩
      rw [(others f here other).footerTag_eq, (settled.tagged f here).footerTag_eq]
    · obtain rfl := List.mem_singleton.mp last
      refine ⟨ceiling.trans settled.ceiling.symm, ?_⟩
      rw [Audit.inside_end (by omega) limit]
      simp
  rw [around] at right ⊢
  have flag := Block.allocated_of_tag_eq (headers e he)
  obtain ⟨here, found⟩ := Audit.trailFindings_of_one right same (Or.inr flag)
  rw [Audit.blockFindings_of_inside within] at here
  rw [found, Audit.blockFindings_of_inside within']
  apply Audit.blockFaults_of_footer here (headers e he) _ differs
  intro c hc
  exact Block.allocated_of_tag_eq (same c (by simp [List.mem_of_getLast? hc])).1

-----------------------------------------------------------------------------------------
-- What is found where one word is overwritten
-----------------------------------------------------------------------------------------

/-- Where a footer is overwritten, no more is found than that it does not match its header. -/
theorem InOrder.violations_footer (he : e ∈ es) (differs : Tag.mk w ≠ e.block.tag h.memory)
    : (h.overwrite (e.block.footer h.memory) w).violations
      = [.tagMismatch e.block (e.block.tag h.memory) ⟨w⟩] := by
  have settled := ord.settled
  have fits := settled.fits he
  have stop : e.stop = e.start + e.size.toNat := rfl
  have header := fits.toNat_header
  obtain ⟨above, room, -⟩ := settled.bounds he
  have limit := fits.stop_le
  have place : (e.block.footer h.memory).toNat = e.stop - 16 := by
    rw [Block.footer, (settled.tagged e he).size_eq, fits.toNat_footer]
  obtain ⟨m, overwritten, written, same⟩ :=
    h.exists_overwrite w (a := e.block.footer h.memory) (by omega)
  obtain ⟨others, ends, ceiling, links⟩ := ord.kept_of_tags same he (by
    intro x hx
    right
    rw [Word.mem_span] at hx ⊢
    omega)
  have headers : ∀ f ∈ es, f.block.tag m = f.block.tag h.memory := by
    intro f hf
    by_cases this : f = e
    · rw [this, Block.tag, Block.tag, same.readWord_eq_of_apart (by omega) (by omega)]
    · rw [(others f hf this).tag_eq, (settled.tagged f hf).tag_eq]
  have footer : e.block.footerTag m = ⟨w⟩ := by
    rw [Block.footerTag, Block.footer_of_tag_eq (headers e he), written]
  rw [overwritten, ord.violations_of_links low aligned ends headers links,
    ord.trailFindings_of_footer low aligned he headers others ceiling (by rwa [footer]), footer]

/-- Where a header is overwritten by one with the same size, the walk by address comes to it and
finds that it does not match its footer.
-/
theorem InOrder.violations_header_ne_nil (he : e ∈ es) (differs : Tag.mk w ≠ e.block.tag h.memory)
    (sized : (Tag.mk w).size = e.block.size h.memory)
    : (h.overwrite e.block.header w).violations ≠ [] := by
  have placed := ord.placed low aligned
  have intact := ord.intact low aligned
  have settled := ord.settled
  have fits := settled.fits he
  have stop : e.stop = e.start + e.size.toNat := rfl
  have header := fits.toNat_header
  have footer := fits.toNat_footer
  obtain ⟨above, room, -⟩ := settled.bounds he
  have limit := fits.stop_le
  obtain ⟨m, overwritten, written, same⟩ := h.exists_overwrite w (a := e.block.header) (by omega)
  obtain ⟨others, ends, -⟩ := ord.kept_of_tags same he (by
    intro x hx
    left
    rw [Word.mem_span] at hx ⊢
    omega)
  have tag : e.block.tag m = ⟨w⟩ := by rw [Block.tag, written]
  have size : e.block.size m = e.block.size h.memory := by rw [Block.size, tag, sized]
  have sizes : ∀ f ∈ es, f.block.size m = f.block.size h.memory := by
    intro f hf
    by_cases this : f = e
    · rw [this, size]
    · rw [(others f hf this).size_eq, (settled.tagged f hf).size_eq]
  have footerTag : e.block.footerTag m = e.block.tag h.memory := by
    rw [Block.footerTag, Block.footer, size, (settled.tagged e he).size_eq,
      same.readWord_eq_of_apart (by omega) (by omega), (settled.tagged e he).footer,
      (settled.tagged e he).tag_eq]
  have within := intact.charted.ranged.inside (by omega) he
  rw [← Audit.inside_of_size_eq size] at within
  intro clean
  rw [overwritten] at clean
  have trail := (violations_eq_nil_iff_walks.mp clean).2.1
  rw [ord.auditedBlocks_of_sizes low aligned ends sizes] at trail
  obtain ⟨l, r, rfl⟩ := List.append_of_mem he
  rw [List.map_append, List.append_assoc, List.map_cons, List.cons_append,
    Audit.trailFindings_append, Audit.trailFindings, List.append_eq_nil_iff,
    List.append_eq_nil_iff] at trail
  have faults := (Audit.blockFindings_of_inside within).symm.trans trail.2.1
  rw [Audit.blockFaults_eq_nil_iff, footerTag, tag] at faults
  exact differs faults.2.2.1.symm

/-- Where the low end is damaged, the walk by address does not set out, and no more is found than
the damage.
-/
theorem InOrder.violations_of_prologue (ends : (h.withMemory m).prologueIntact = false)
    (tagged : ∀ f ∈ es, f.Tagged m)
    (links : ∀ b ∈ xs, b.predecessor m = b.predecessor h.memory
      ∧ b.successor m = b.successor h.memory)
    : (h.withMemory m).violations = [.badPrologue (h.prologue.tag m) (h.prologue.footerTag m)] := by
  have headers := ord.headers_of_tagged tagged
  have members := ord.auditedMembers_of_successors low aligned fun b hb => (links b hb).2
  have list := ord.listFindings_of_headers low aligned headers fun b hb => (links b hb).1
  have blocks : (h.withMemory m).auditedBlocks = [] := by simp [auditedBlocks, ends]
  rw [violations_eq_append, findings, blocks, members, ends]
  simp only [withMemory]
  rw [list]
  simp [Audit.trailFindings, Audit.freeBlocks]

/-- Where the header of the low end is overwritten, no more is found than that. -/
theorem InOrder.violations_prologue_header (differs : Tag.mk w ≠ h.prologue.tag h.memory)
    : (h.overwrite h.prologue.header w).violations
      = [.badPrologue ⟨w⟩ (h.prologue.footerTag (h.overwrite h.prologue.header w).memory)] := by
  have placed := ord.placed low aligned
  have limit := placed.limit
  have high := placed.high
  have place : h.prologue.header.toNat = h.prologue.address.toNat - 8 :=
    Block.toNat_header (by omega)
  obtain ⟨m, overwritten, written, same⟩ := h.exists_overwrite w (a := h.prologue.header) (by omega)
  obtain ⟨tagged, links⟩ := ord.kept_of_ends same (by
    intro x hx
    rw [Word.mem_span] at hx ⊢
    omega)
  have tag : h.prologue.tag m = ⟨w⟩ := by rw [Block.tag, written]
  have ends : (h.withMemory m).prologueIntact = false := by
    apply Bool.eq_false_of_not_eq_true
    rw [prologueIntact_iff]
    rintro ⟨header, -⟩
    apply differs
    rw [Block.tag, (ord.intact low aligned).header, ← header]
    exact congrArg Tag.mk written.symm
  rw [overwritten, ord.violations_of_prologue low aligned ends tagged links, tag]
  rfl

/-- Where the footer of the low end is overwritten, no more is found than that. -/
theorem InOrder.violations_prologue_footer
    (differs : Tag.mk w ≠ h.prologue.footerTag h.memory)
    : (h.overwrite (h.prologue.footer h.memory) w).violations
      = [.badPrologue (h.prologue.tag h.memory) ⟨w⟩] := by
  have placed := ord.placed low aligned
  have intact := ord.intact low aligned
  have limit := placed.limit
  have high := placed.high
  have place := footer_prologue intact.header
  rw [Block.footerTag, place] at differs
  rw [place]
  have header : h.prologue.header.toNat = h.prologue.address.toNat - 8 :=
    Block.toNat_header (by omega)
  obtain ⟨m, overwritten, written, same⟩ :=
    h.exists_overwrite w (a := h.prologue.address) (by omega)
  obtain ⟨tagged, links⟩ := ord.kept_of_ends same (by
    intro x hx
    rw [Word.mem_span] at hx ⊢
    omega)
  have tag : h.prologue.tag m = h.prologue.tag h.memory := by
    rw [Block.tag, Block.tag, same.readWord_eq_of_apart (by omega) (by omega)]
  have footer : h.prologue.footerTag m = ⟨w⟩ := by
    rw [Block.footerTag, Block.footer_of_tag_eq tag, place, written]
  have ends : (h.withMemory m).prologueIntact = false := by
    apply Bool.eq_false_of_not_eq_true
    rw [prologueIntact_iff]
    rintro ⟨-, same⟩
    apply differs
    rw [intact.footer, ← same]
    exact congrArg Tag.mk written.symm
  rw [overwritten, ord.violations_of_prologue low aligned ends tagged links, tag, footer]

/-- Where the header at the high end is overwritten, no more is found than what is wrong there now.
-/
theorem InOrder.violations_of_epilogue
    : ∃ m, h.overwrite (Block.mk h.region.frontier).header w = h.withMemory m
        ∧ (Block.mk h.region.frontier).tag m = ⟨w⟩
        ∧ (h.withMemory m).violations
          = Audit.blockFindings m h.region.frontier (es.map (·.block)).getLast?
              ⟨h.region.frontier⟩ := by
  have placed := ord.placed low aligned
  have intact := ord.intact low aligned
  have limit := placed.limit
  have high := placed.high
  have settled := ord.settled
  have above := settled.tiles.le
  simp only at above
  have place : (Block.mk h.region.frontier).header.toNat = h.region.frontier.toNat - 8 :=
    Block.toNat_header (by simp only; omega)
  obtain ⟨m, overwritten, written, same⟩ :=
    h.exists_overwrite w (a := (Block.mk h.region.frontier).header) (by omega)
  obtain ⟨tagged, links⟩ := ord.kept_of_ends same (by
    intro x hx
    rw [Word.mem_span] at hx ⊢
    omega)
  have ends : (h.withMemory m).prologueIntact = true := by
    apply prologueIntact_of_tagged
    apply settled.bottom.sameOff settled.bottom_fits same
    intro x hx tag
    rw [Extent.tagBytes, Pool.Laid.sentinel_stop, Set.mem_union, Word.mem_span, Word.mem_span]
      at tag
    simp only [Extent.start, sentinel] at tag
    rw [Word.mem_span] at hx
    omega
  have headers := ord.headers_of_tagged tagged
  have right := ord.trailFindings_of_tagged low aligned settled.tagged settled.ceiling
  have footers : ∀ c ∈ es.map (·.block) ++ [], c.tag m = c.tag h.memory
      ∧ (Audit.inside h.memory h.region.frontier c = true
        → c.footerTag m = c.footerTag h.memory) := by
    intro c hc
    rw [List.append_nil] at hc
    obtain ⟨f, hf, rfl⟩ := List.mem_map.mp hc
    refine ⟨headers f hf, fun _ => ?_⟩
    rw [(tagged f hf).footerTag_eq, (settled.tagged f hf).footerTag_eq]
  obtain ⟨-, found⟩ := Audit.trailFindings_of_one right footers (Or.inl rfl)
  refine ⟨m, overwritten, by rw [Block.tag, written], ?_⟩
  rw [ord.violations_of_links low aligned ends headers links, found]

/-- Where the link of a member back is overwritten, no more is found than that. -/
theorem InOrder.violations_predecessor (listed : xs = ys ++ b :: zs)
    (differs : w ≠ h.memory.readWord b.predecessorSlot)
    : (h.overwrite b.predecessorSlot w).violations
      = [.brokenLink b (.ofWord w) ys.getLast?] := by
  have placed := ord.placed low aligned
  have intact := ord.intact low aligned
  have settled := ord.settled
  have member : b ∈ xs := by simp [listed]
  have roomy := settled.lists.roomy b member
  have fits := roomy.2
  obtain ⟨e, he, rfl, -⟩ := settled.free b member
  obtain ⟨m, overwritten, written, same⟩ :=
    h.exists_overwrite w (a := e.block.predecessorSlot)
      (by simp only [Block.predecessorSlot]; omega)
  obtain ⟨tagged, ends, ceiling, links⟩ := ord.kept_of_links same he (by
    intro x hx
    simp only [Block.predecessorSlot, Block.links, Word.mem_span] at hx ⊢
    omega)
  have headers := ord.headers_of_tagged tagged
  have forward : ∀ c ∈ xs, c.successor m = c.successor h.memory := by
    intro c hc
    by_cases this : c = e.block
    · have slot := roomy.toNat_successorSlot
      have before : e.block.predecessorSlot.toNat + 8 ≤ e.block.successorSlot.toNat := slot.ge
      rw [this, Block.successor, Block.successor, same.readWord_eq_of_apart (by omega)
        (Or.inr before)]
    · exact (links c hc this).2
  have threaded := intact.threaded placed
  have once := settled.lists.nodup
  rw [listed] at threaded once
  have flags := ord.flags_of_headers headers
  obtain ⟨here, found⟩ := Audit.listFindings_of_one threaded.listFindings_eq (by
    intro c hc
    have other : c ≠ e.block := fun same =>
      (List.nodup_cons.mp (List.nodup_middle.mp once)).1 (same ▸ hc)
    have listed' : c ∈ xs := listed ▸ List.perm_middle.symm.subset (List.mem_cons_of_mem _ hc)
    exact ⟨flags c listed', (links c listed' other).1⟩)
  have back : e.block.predecessor m = .ofWord w := by rw [Block.predecessor, written]
  have elsewhere : e.block.predecessor m ≠ ys.reverse.head? := by
    obtain ⟨-, -, -, before⟩ := Audit.memberFindings_eq_nil_iff.mp here
    rw [← before, back, Block.predecessor]
    exact Link.ofWord_injective.ne differs
  rw [overwritten, ord.violations_of_headers low aligned ends headers forward,
    ord.trailFindings_of_tagged low aligned tagged ceiling, List.nil_append, listed, found,
    Audit.memberFindings_of_predecessor here (flags e.block member) elsewhere, back,
    List.head?_reverse]

/-- Where the link of a member on to another is overwritten, an audit finds something, wherever the
walk is led. It would find nothing only if some list had all members, each of which leads back to
the one before it. In that list the other member would still lead back to the first, which would
therefore stand before it and lead on to it.
-/
theorem InOrder.violations_successor_ne_nil (listed : xs = ys ++ b :: c :: zs)
    (differs : w ≠ h.memory.readWord b.successorSlot)
    : (h.overwrite b.successorSlot w).violations ≠ [] := by
  have placed := ord.placed low aligned
  have intact := ord.intact low aligned
  have settled := ord.settled
  have member : b ∈ xs := by simp [listed]
  have member' : c ∈ xs := by simp [listed]
  have roomy := settled.lists.roomy b member
  have fits := roomy.2
  have slot := roomy.toNat_successorSlot
  obtain ⟨e, he, rfl, -⟩ := settled.free b member
  obtain ⟨m, overwritten, written, same⟩ :=
    h.exists_overwrite w (a := e.block.successorSlot) (by omega)
  obtain ⟨tagged, ends, ceiling, links⟩ := ord.kept_of_links same he (by
    intro x hx
    simp only [Block.links, Word.mem_span] at hx ⊢
    omega)
  have once := settled.lists.nodup
  have linked := settled.lists.linked
  rw [listed] at once linked
  have other : c ≠ e.block := by
    have split := (List.nodup_append.mp once).2.1
    exact fun same => (List.nodup_cons.mp split).1 (by simp [same])
  obtain ⟨-, -, on, back, -⟩ := Pool.linked_append.mp linked
  rw [List.head?_cons, Option.some_or] at on
  have back' : c.predecessor m = some e.block := (links c member' other).1.trans back
  intro clean
  rw [overwritten] at clean
  have placed' : (h.withMemory m).Placed := ⟨placed.low, placed.high, placed.limit⟩
  obtain ⟨es', xs', intact'⟩ := exists_intact placed' clean
  have blocks : es = es' := by
    have charted := ord.charted_of_tagged low aligned tagged ceiling
    have above := toNat_above_prologue placed' intact'.header
    rw [← intact'.blocks_eq placed', Heap.blocks]
    simp only [withMemory] at above ⊢
    rw [← above] at charted
    exact (charted.ranged.extentsFrom_eq (intact.length_lt_walkLimit placed).le).symm
  have still : c ∈ xs' := intact'.complete (blocks ▸ settled.complete.subset member')
  obtain ⟨ys', zs', rfl⟩ := List.append_of_mem still
  obtain ⟨front, before, -⟩ := Pool.linked_append.mp intact'.linked
  rw [Option.or_none] at before
  obtain ⟨ys'', rfl⟩ := List.getLast?_eq_some_iff.mp (before.symm.trans back')
  obtain ⟨-, -, on', -⟩ := Pool.linked_append.mp front
  rw [List.head?_nil, List.head?_cons, Option.none_or, Option.some_or] at on'
  apply differs
  apply Link.ofWord_injective
  rw [← written]
  exact on'.trans on.symm

-----------------------------------------------------------------------------------------
-- What is reported where one word is overwritten
-----------------------------------------------------------------------------------------

/-- Where a word above the header of the low end is overwritten, an audit comes to a report: it
still reads the footer of the low end in its place.
-/
theorem InOrder.report?_overwrite {a : Word} (above : h.prologue.address.toNat ≤ a.toNat)
    (fits : a.toNat + 8 ≤ UInt64.size)
    : (h.overwrite a w).report? = some (h.overwrite a w).violations := by
  have placed := ord.placed low aligned
  have high := placed.high
  have within := ord.sane.frontier_le
  have header : h.prologue.header.toNat = h.prologue.address.toNat - 8 :=
    Block.toNat_header (by omega)
  obtain ⟨m, overwritten, -, same⟩ := h.exists_overwrite w fits
  have kept : m.readWord h.prologue.header = 17 := by
    rw [same.readWord_eq_of_apart (by omega) (by omega), (ord.intact low aligned).header]
  have place : h.prologue.footer m = h.prologue.address :=
    footer_prologue (h := h.withMemory m) kept
  have owned : h.region.owns h.prologue.address = true :=
    Region.owns_iff.mpr ⟨by omega, by omega⟩
  rw [overwritten, report?_withMemory placed within, place, if_pos owned]

/-- Where the header of the low end is overwritten, an audit reports that and no more if there is
memory for the footer where the header puts it now, and comes to no report otherwise.
-/
theorem InOrder.report?_prologue_header (differs : Tag.mk w ≠ h.prologue.tag h.memory)
    : (h.overwrite h.prologue.header w).report?
      = if h.region.owns (h.prologue.footerFor (Tag.mk w).size.word) then
          some [.badPrologue ⟨w⟩ (h.prologue.footerTag (h.overwrite h.prologue.header w).memory)]
        else none := by
  have placed := ord.placed low aligned
  have high := placed.high
  have limit := placed.limit
  have header : h.prologue.header.toNat = h.prologue.address.toNat - 8 :=
    Block.toNat_header (by omega)
  have found := ord.violations_prologue_header low aligned differs
  obtain ⟨m, overwritten, written, -⟩ := h.exists_overwrite w (a := h.prologue.header) (by omega)
  have place : h.prologue.footer m = h.prologue.footerFor (Tag.mk w).size.word := by
    rw [Block.footer, Block.size, Block.tag, written]
  rw [overwritten] at found ⊢
  rw [report?_withMemory placed ord.sane.frontier_le, place, found]

end

-----------------------------------------------------------------------------------------
-- Heaps in which damage shows
-----------------------------------------------------------------------------------------

/-- What an audit reports of a heap in which one word has become another, for each word of the
heap's own. A link onwards of the last member and the rest of the header at the high end are left
out, as is a header that gets another size: these can look as if nothing was wrong.
-/
structure Vigilant (h : Heap) : Prop where
  /-- A footer is found not to match its header. -/
  footer : ∀ e ∈ h.blocks, ∀ w ≠ h.memory.readWord (e.block.footer h.memory),
    (h.overwrite (e.block.footer h.memory) w).report?
      = some [.tagMismatch e.block (e.block.tag h.memory) ⟨w⟩]
  /-- A header with the same size is found not to match its footer, if nothing else is found. -/
  header : ∀ e ∈ h.blocks, ∀ w ≠ h.memory.readWord e.block.header,
    (Tag.mk w).size = e.block.size h.memory →
      ∃ found, (h.overwrite e.block.header w).report? = some found ∧ found ≠ []
  /-- A link back is found to lead elsewhere than to the member before. -/
  predecessor : ∀ ys b zs, h.members = ys ++ b :: zs → ∀ w ≠ h.memory.readWord b.predecessorSlot,
    (h.overwrite b.predecessorSlot w).report? = some [.brokenLink b (.ofWord w) ys.getLast?]
  /-- A link to another member is found not to be there, in one way or another. -/
  successor : ∀ ys b c zs, h.members = ys ++ b :: c :: zs →
    ∀ w ≠ h.memory.readWord b.successorSlot,
      ∃ found, (h.overwrite b.successorSlot w).report? = some found ∧ found ≠ []
  /-- The header of the low end is found not to be as it was written, along with the footer where
  this header puts it. If there is no memory in that place, there is no report.
  -/
  lowHeader : ∀ w ≠ h.memory.readWord h.prologue.header,
    (h.overwrite h.prologue.header w).report?
      = if h.region.owns (h.prologue.footerFor (Tag.mk w).size.word) then
          some [.badPrologue ⟨w⟩ (h.prologue.footerTag (h.overwrite h.prologue.header w).memory)]
        else none
  /-- The footer of the low end is found not to be as it was written. -/
  lowFooter : ∀ w ≠ h.memory.readWord (h.prologue.footer h.memory),
    (h.overwrite (h.prologue.footer h.memory) w).report?
      = some [.badPrologue (h.prologue.tag h.memory) ⟨w⟩]
  /-- A size in the header at the high end is found to reach beyond it. -/
  highSize : ∀ w, (Tag.mk w).size ≠ Size.zero →
    (h.overwrite (Block.mk h.region.frontier).header w).report?
      = some [.outOfBounds ⟨h.region.frontier⟩ (Tag.mk w).size.word h.region.frontier]
  /-- Without one, a flag that is not set there is found not to be as it was written. -/
  highFlag : ∀ w, (Tag.mk w).size = Size.zero → (Tag.mk w).allocated = false →
    (h.overwrite (Block.mk h.region.frontier).header w).report?
      = some [.badEpilogue ⟨h.region.frontier⟩ ⟨w⟩]

/-- Damage shows in a heap in order at a multiple of the alignment. -/
theorem InOrder.vigilant (ord : h.InOrder es xs)
    (low : h.region.start.toNat + 8 ≤ h.prologue.address.toNat)
    (aligned : h.prologue.address.toNat % 16 = 0)
    : h.Vigilant := by
  have placed := ord.placed low aligned
  have limit := placed.limit
  have high := placed.high
  have blocks := ord.blocks_eq
  have members := ord.members_eq
  have end_above := ord.settled.tiles.le
  have end_header : (Block.mk h.region.frontier).header.toNat = h.region.frontier.toNat - 8 :=
    Block.toNat_header (by simp only; omega)
  simp only at end_above
  have another : ∀ {w stored : Word}, w ≠ stored → Tag.mk w ≠ ⟨stored⟩ :=
    fun differs same => differs (congrArg Tag.raw same)
  constructor
  case footer =>
    intro e he w differs
    rw [blocks] at he
    have tagged := ord.settled.tagged e he
    obtain ⟨-, above, fits⟩ := ord.tags_above he
    rw [ord.report?_overwrite low aligned above fits, ord.violations_footer low aligned he]
    rw [tagged.tag_eq, ← tagged.footerTag_eq]
    exact another differs
  case header =>
    intro e he w differs sized
    rw [blocks] at he
    obtain ⟨⟨above, fits⟩, -⟩ := ord.tags_above he
    exact ⟨_, ord.report?_overwrite low aligned above fits,
      ord.violations_header_ne_nil low aligned he (another differs) sized⟩
  case predecessor =>
    intro ys b zs listed w differs
    rw [members] at listed
    obtain ⟨⟨above, fits⟩, -⟩ := ord.links_above (b := b) (by simp [listed])
    rw [ord.report?_overwrite low aligned above fits,
      ord.violations_predecessor low aligned listed differs]
  case successor =>
    intro ys b c zs listed w differs
    rw [members] at listed
    obtain ⟨-, above, fits⟩ := ord.links_above (b := b) (by simp [listed])
    exact ⟨_, ord.report?_overwrite low aligned above fits,
      ord.violations_successor_ne_nil low aligned listed differs⟩
  case lowHeader =>
    exact fun w differs => ord.report?_prologue_header low aligned (another differs)
  case lowFooter =>
    intro w differs
    have place := footer_prologue (ord.intact low aligned).header
    rw [ord.report?_overwrite low aligned (by rw [place]) (by rw [place]; omega),
      ord.violations_prologue_footer low aligned (another differs)]
  case highSize =>
    intro w sized
    rw [ord.report?_overwrite low aligned (by omega) (by omega)]
    obtain ⟨m, overwritten, tag, found⟩ := ord.violations_of_epilogue low aligned (w := w)
    have size : (Block.mk h.region.frontier).size m = (Tag.mk w).size := by rw [Block.size, tag]
    rw [overwritten, found, Audit.blockFindings_end_of_sized (by omega) limit (by rwa [size]), size]
  case highFlag =>
    intro w sized unused
    rw [ord.report?_overwrite low aligned (by omega) (by omega)]
    obtain ⟨m, overwritten, tag, found⟩ := ord.violations_of_epilogue low aligned (w := w)
    have size : (Block.mk h.region.frontier).size m = Size.zero := by rw [Block.size, tag, sized]
    have flag : (Block.mk h.region.frontier).allocated m = false := by
      rw [Block.allocated, tag, unused]
    rw [overwritten, found, Audit.blockFindings_end_of_free size flag, tag]

end Heap

namespace Session

end Session

end BoundaryTag
