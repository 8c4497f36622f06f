import Mathlib.Data.List.Nodup
import Mathlib.Data.List.Perm.Subperm
import BoundaryTag.Block.Lemmas
import BoundaryTag.Pool
import BoundaryTag.Proofs.Footprint

/-! The free list as a list: which blocks a pool lists, and in which order. Each operation on the
links is one edit of that list, and stays within the link words of the given blocks and of their
neighbours in the list.
-/

namespace BoundaryTag

namespace Block

/-- The addresses of a block's two links. -/
def links (b : Block) : Set Word := Word.span b.address.toNat (b.address.toNat + 16)

/-- A block can be listed: its address is not the one of no block, and its links do not wrap. -/
def HasLinks (b : Block) : Prop :=
  0 < b.address.toNat ∧ b.address.toNat + 16 ≤ UInt64.size

/-- The links of two blocks share no byte. -/
def Apart (b c : Block) : Prop :=
  b.address.toNat + 16 ≤ c.address.toNat ∨ c.address.toNat + 16 ≤ b.address.toNat

instance (b : Block) : Decidable b.HasLinks := inferInstanceAs (Decidable (_ ∧ _))

instance (b c : Block) : Decidable (b.Apart c) := inferInstanceAs (Decidable (_ ∨ _))

/-- Blocks are apart in either order. -/
theorem Apart.symm {b c : Block} (h : b.Apart c) : c.Apart b := Or.symm h

instance : Std.Symm Apart := ⟨fun _ _ => Apart.symm⟩

/-- Blocks that are apart are two. -/
theorem Apart.ne {b c : Block} (h : b.Apart c) : b ≠ c := by
  rintro rfl
  simp only [Apart] at h
  omega

/-- No address belongs to the links of two blocks that are apart. -/
theorem Apart.notMem {b c : Block} (h : b.Apart c) : ∀ x ∈ b.links, x ∉ c.links := by
  intro x hb hc
  simp only [Apart, links, Word.mem_span] at h hb hc
  omega

/-- Blocks whose links share no byte are apart. Otherwise the first link of the upper one would
begin within the links of the lower one.
-/
theorem apart_of_links {b c : Block} (h : ∀ x ∈ b.links, x ∉ c.links) : b.Apart c := by
  have first := h b.address
  have first' := h c.address
  simp only [links, Word.mem_span] at first first'
  simp only [Apart]
  omega

/-- A listed block is a link to some block, since its address is not zero. -/
theorem HasLinks.some_ne {b : Block} (h : b.HasLinks) : some b ≠ (some ⟨0⟩ : Link) := by
  intro heq
  have hzero : b.address = 0 := congrArg Block.address (Option.some.inj heq)
  simp [HasLinks, hzero] at h

/-- The link to the successor is the second word of a block. -/
theorem HasLinks.toNat_successorSlot {b : Block} (h : b.HasLinks)
    : b.successorSlot.toNat = b.address.toNat + 8 := by
  have hb := h.2
  simp only [UInt64.size] at hb
  rw [successorSlot, UInt64.toNat_add]
  simp only [Word.width, UInt64.reduceToNat]
  omega

/-- A change away from the links of a block leaves both as they were. -/
theorem HasLinks.links_eq {S : Set Word} {m m' : Memory} {b : Block} (h : b.HasLinks)
    (same : m.SameOff S m') (apart : ∀ x ∈ S, x ∉ b.links)
    : b.predecessor m' = b.predecessor m ∧ b.successor m' = b.successor m := by
  have hb := h.2
  have slot := h.toNat_successorSlot
  constructor
  · rw [predecessor, predecessor, same.readWord_eq (by simp only [predecessorSlot]; omega)]
    intro x hx member
    apply apart x hx
    simp only [links, predecessorSlot, Word.mem_span] at member ⊢
    omega
  · rw [successor, successor, same.readWord_eq (by omega)]
    intro x hx member
    apply apart x hx
    simp only [links, slot, Word.mem_span] at member ⊢
    omega

/-- The same links consist of the same bytes. -/
theorem HasLinks.byte_eq {m m' : Memory} {b : Block} (h : b.HasLinks)
    (back : b.predecessor m' = b.predecessor m) (on : b.successor m' = b.successor m)
    : ∀ x ∈ b.links, m'.byte x = m.byte x := by
  have hb := h.2
  have slot := h.toNat_successorSlot
  intro x hx
  rw [links, Word.mem_span] at hx
  by_cases first : x.toNat < b.address.toNat + 8
  · apply Memory.byte_eq_of_readWord_eq (Link.ofWord_injective back) <;>
      simp only [predecessorSlot, Word.mem_span] <;> omega
  · apply Memory.byte_eq_of_readWord_eq (Link.ofWord_injective on) <;>
      simp only [slot, Word.mem_span] <;> omega

/-- Setting the link to the predecessor changes bytes of the links only. -/
theorem HasLinks.sameOff_setPredecessor {b : Block} (h : b.HasLinks) (m : Memory) (link : Link)
    : m.SameOff b.links (b.setPredecessor m link) := by
  have hb := h.2
  apply (m.sameOff_writeWord _ (by simp only [predecessorSlot]; omega)).mono
  intro x hx
  simp only [links, predecessorSlot, Word.mem_span] at hx ⊢
  omega

/-- Setting the link to the successor changes bytes of the links only. -/
theorem HasLinks.sameOff_setSuccessor {b : Block} (h : b.HasLinks) (m : Memory) (link : Link)
    : m.SameOff b.links (b.setSuccessor m link) := by
  have hb := h.2
  have slot := h.toNat_successorSlot
  apply (m.sameOff_writeWord _ (by omega)).mono
  intro x hx
  simp only [links, slot, Word.mem_span] at hx ⊢
  omega

end Block

/-- The addresses of all links of some blocks. -/
def linkBytes (bs : List Block) : Set Word := {a | ∃ b ∈ bs, a ∈ b.links}

/-- More blocks have more link bytes. -/
theorem linkBytes_mono {bs cs : List Block} (h : bs ⊆ cs) : linkBytes bs ⊆ linkBytes cs :=
  fun _ ⟨b, hb, ha⟩ => ⟨b, h hb, ha⟩

/-- The members of a list on either side of a block. -/
def adjacent (xs : List Block) (b : Block) : List Block :=
  (xs.takeWhile (· ≠ b)).getLast?.toList ++ (xs.dropWhile (· ≠ b)).tail.head?.toList

/-- The members on either side of a block are those that touch its first place. -/
theorem adjacent_append {ys : List Block} {b : Block} (fresh : b ∉ ys) (zs : List Block)
    : adjacent (ys ++ b :: zs) b = ys.getLast?.toList ++ zs.head?.toList := by
  have others : ∀ c ∈ ys, decide (c ≠ b) = true :=
    fun c hc => decide_eq_true fun same => fresh (same ▸ hc)
  rw [adjacent, List.takeWhile_append_of_pos others, List.dropWhile_append_of_pos others]
  simp

namespace Pool

-----------------------------------------------------------------------------------------
-- Blocks linked in order
-----------------------------------------------------------------------------------------

/-- The given blocks are linked to one another in their order, the first of them back to one
link and the last of them on to another.
-/
def Linked (m : Memory) : Link → List Block → Link → Prop
  | _, [], _ => True
  | before, b :: rest, after =>
      b.predecessor m = before
      ∧ b.successor m = rest.head?.or after
      ∧ Linked m (some b) rest after

/-- Linked blocks split at any place, where each part has the other's end for its own. -/
theorem linked_append {m : Memory} {before after : Link} {xs ys : List Block}
    : Linked m before (xs ++ ys) after
      ↔ Linked m before xs (ys.head?.or after)
        ∧ Linked m (xs.getLast?.or before) ys after := by
  induction xs generalizing before with
  | nil => simp [Linked]
  | cons x rest ih =>
      have last : ((x :: rest).getLast?).or before = rest.getLast?.or (some x) := by
        rw [List.getLast?_cons, Option.or_some]
        cases rest.getLast? <;> rfl
      simp only [List.cons_append, Linked, ih, last, List.head?_append, Option.or_assoc, and_assoc]

/-- Linked blocks stay so where their links do not change. -/
theorem Linked.sameOff {S : Set Word} {m m' : Memory} {before after : Link} {xs : List Block}
    (h : Linked m before xs after) (same : m.SameOff S m') (roomy : ∀ b ∈ xs, b.HasLinks)
    (apart : ∀ b ∈ xs, ∀ x ∈ S, x ∉ b.links)
    : Linked m' before xs after := by
  induction xs generalizing before with
  | nil => trivial
  | cons b rest ih =>
      obtain ⟨back, on, tail⟩ := h
      have kept := (roomy b (by simp)).links_eq same (apart b (by simp))
      refine ⟨kept.1.trans back, kept.2.trans on, ih tail ?_ ?_⟩
      · exact fun c hc => roomy c (List.mem_cons_of_mem b hc)
      · exact fun c hc => apart c (List.mem_cons_of_mem b hc)

/-- Relinking what stands before a place touches nothing but the links of that block. -/
theorem sameOff_relinkBefore (p : Pool) (predecessor link : Link)
    (roomy : ∀ b ∈ predecessor, b.HasLinks)
    : p.memory.SameOff (linkBytes predecessor.toList)
        (p.relinkBefore predecessor link).memory := by
  cases predecessor with
  | none => exact .refl _ _
  | some b =>
      exact ((roomy b rfl).sameOff_setSuccessor p.memory link).mono
        fun _ hx => ⟨b, by simp, hx⟩

/-- Relinking what stands after a place touches nothing but the links of that block. -/
theorem sameOff_relinkAfter (p : Pool) (successor link : Link)
    (roomy : ∀ b ∈ successor, b.HasLinks)
    : p.memory.SameOff (linkBytes successor.toList) (p.relinkAfter successor link).memory := by
  cases successor with
  | none => exact .refl _ _
  | some b =>
      exact ((roomy b rfl).sameOff_setPredecessor p.memory link).mono
        fun _ hx => ⟨b, by simp, hx⟩

/-- Relinking before a place leads the blocks in front of it to the new link. -/
theorem Linked.relinkBefore {p : Pool} {before old new : Link} {ys : List Block}
    (h : Linked p.memory before ys old) (roomy : ∀ b ∈ ys, b.HasLinks)
    (apart : ys.Pairwise Block.Apart) (hnew : new ≠ some ⟨0⟩)
    : Linked (p.relinkBefore ys.getLast? new).memory before ys new := by
  rcases List.eq_nil_or_concat' ys with rfl | ⟨front, c, rfl⟩
  · trivial
  · have hc := roomy c (by simp)
    have same := hc.sameOff_setSuccessor p.memory new
    obtain ⟨hfront, back, -, -⟩ := linked_append.mp h
    rw [List.getLast?_concat]
    refine linked_append.mpr ⟨hfront.sameOff same ?_ ?_, ?_, ?_, trivial⟩
    · exact fun b hb => roomy b (by simp [hb])
    · intro b hb
      exact ((List.pairwise_append.mp apart).2.2 b hb c (by simp)).symm.notMem
    · exact (Block.predecessor_setSuccessor c p.memory new).trans back
    · exact Block.successor_setSuccessor c p.memory hnew

/-- Relinking after a place leads the blocks behind it back to the new link. -/
theorem Linked.relinkAfter {p : Pool} {old new after : Link} {zs : List Block}
    (h : Linked p.memory old zs after) (roomy : ∀ b ∈ zs, b.HasLinks)
    (apart : zs.Pairwise Block.Apart) (hnew : new ≠ some ⟨0⟩)
    : Linked (p.relinkAfter zs.head? new).memory new zs after := by
  cases zs with
  | nil => trivial
  | cons c rest =>
      have same := (roomy c (by simp)).sameOff_setPredecessor p.memory new
      obtain ⟨-, on, tail⟩ := h
      refine ⟨?_, ?_, tail.sameOff same ?_ ?_⟩
      · exact Block.predecessor_setPredecessor c p.memory hnew
      · exact (Block.successor_setPredecessor c p.memory new).trans on
      · exact fun b hb => roomy b (by simp [hb])
      · exact fun b hb => ((List.pairwise_cons.mp apart).1 b hb).notMem

-----------------------------------------------------------------------------------------
-- The list of a pool
-----------------------------------------------------------------------------------------

/-- The free list of a pool holds exactly the given blocks, in their order: the head leads to
the first, every member knows both of its neighbours, and no two members share link bytes.
-/
structure Lists (p : Pool) (xs : List Block) : Prop where
  head : p.head = xs.head?
  linked : Linked p.memory none xs none
  roomy : ∀ b ∈ xs, b.HasLinks
  apart : xs.Pairwise Block.Apart

/-- No block is listed twice, because a block is not apart from itself. -/
theorem Lists.nodup {p : Pool} {xs : List Block} (h : p.Lists xs) : xs.Nodup :=
  h.apart.imp Block.Apart.ne

/-- A member stands at one place only, and leaves the others when it is erased. -/
theorem Lists.erase_member {p : Pool} {ys zs : List Block} {b : Block}
    (h : p.Lists (ys ++ b :: zs))
    : b ∉ ys ++ zs ∧ (ys ++ b :: zs).erase b = ys ++ zs := by
  have gone : b ∉ ys ++ zs := (List.nodup_cons.mp (List.nodup_middle.mp h.nodup)).1
  refine ⟨gone, ?_⟩
  rw [List.erase_append_right _ fun hys => gone (List.mem_append_left zs hys),
    List.erase_cons_head]

/-- A link to a block that can be listed does not lead to address zero. -/
theorem link_ne_zero {link : Link} (roomy : ∀ b ∈ link, b.HasLinks) : link ≠ some ⟨0⟩ := by
  cases link with
  | none => simp
  | some b => exact (roomy b rfl).some_ne

/-- A pool lists the same blocks after a change away from their links. -/
theorem Lists.sameOff {S : Set Word} {p q : Pool} {xs : List Block} (h : p.Lists xs)
    (head : q.head = p.head) (same : p.memory.SameOff S q.memory)
    (apart : ∀ b ∈ xs, ∀ x ∈ S, x ∉ b.links)
    : q.Lists xs where
  head := head.trans h.head
  linked := h.linked.sameOff same h.roomy apart
  roomy := h.roomy
  apart := h.apart

/-- A member's links lead to the members around it. -/
theorem Lists.neighbours {p : Pool} {ys zs : List Block} {b : Block}
    (h : p.Lists (ys ++ b :: zs))
    : b.predecessor p.memory = ys.getLast? ∧ b.successor p.memory = zs.head? := by
  obtain ⟨-, back, on, -⟩ := linked_append.mp h.linked
  exact ⟨by simpa using back, by simpa using on⟩

/-- Where two memories have the same free list, its links consist of the same bytes. -/
theorem Lists.byte_eq {p q : Pool} {xs : List Block} (h : p.Lists xs) (h' : q.Lists xs)
    : ∀ x ∈ linkBytes xs, q.memory.byte x = p.memory.byte x := by
  rintro x ⟨b, hb, hx⟩
  have roomy := h.roomy b hb
  obtain ⟨ys, zs, rfl⟩ := List.append_of_mem hb
  have links := h.neighbours
  have links' := h'.neighbours
  exact roomy.byte_eq (links'.1.trans links.1.symm) (links'.2.trans links.2.symm) x hx

/-- The pool with both links of a block written. -/
def setLinks (p : Pool) (b : Block) (predecessor successor : Link) : Pool :=
  (p.setPredecessor b predecessor).setSuccessor b successor

/-- Setting links leaves the head of the list. -/
@[simp]
theorem head_setLinks (p : Pool) (b : Block) (predecessor successor : Link)
    : (p.setLinks b predecessor successor).head = p.head := by
  simp only [setLinks, setPredecessor, setSuccessor]

/-- Both links of a block read as they were written. -/
theorem links_setLinks (p : Pool) (b : Block) {predecessor successor : Link}
    (hpredecessor : predecessor ≠ some ⟨0⟩) (hsuccessor : successor ≠ some ⟨0⟩)
    : b.predecessor (p.setLinks b predecessor successor).memory = predecessor
      ∧ b.successor (p.setLinks b predecessor successor).memory = successor := by
  constructor
  · exact (Block.predecessor_setSuccessor b _ _).trans
      (Block.predecessor_setPredecessor b _ hpredecessor)
  · exact Block.successor_setSuccessor b _ hsuccessor

/-- Writing the links of a block touches nothing else. -/
theorem sameOff_setLinks (p : Pool) {b : Block} (roomy : b.HasLinks)
    (predecessor successor : Link)
    : p.memory.SameOff b.links (p.setLinks b predecessor successor).memory :=
  (roomy.sameOff_setPredecessor _ _).trans (roomy.sameOff_setSuccessor _ _)

/-- Listing a block writes its links, and leads the old first member back to it. -/
theorem Lists.insert_eq {p : Pool} {xs : List Block} (h : p.Lists xs) (b : Block)
    : p.insert b
      = { (p.setLinks b none xs.head?).relinkAfter xs.head? (some b) with head := some b } := by
  simp only [Pool.insert, h.head, setLinks]

/-- Listing a block puts it in front of the list. -/
theorem Lists.insert {p : Pool} {xs : List Block} {b : Block} (h : p.Lists xs)
    (roomy : b.HasLinks) (apart : ∀ c ∈ xs, b.Apart c)
    : (p.insert b).Lists (b :: xs) := by
  have first : ∀ c ∈ xs.head?, c.HasLinks := fun c hc => h.roomy c (List.mem_of_head? hc)
  have rest := h.linked.sameOff (sameOff_setLinks p roomy none xs.head?) h.roomy
    fun c hc => (apart c hc).notMem
  have written := p.links_setLinks b (Option.some_ne_none _).symm (link_ne_zero first)
  have kept := roomy.links_eq (sameOff_relinkAfter (p.setLinks b none xs.head?) _ (some b) first)
    (by
      intro x member
      obtain ⟨c, hc, hx⟩ := member
      exact (apart c (List.mem_of_head? (Option.mem_toList.mp hc))).symm.notMem x hx)
  rw [h.insert_eq]
  refine ⟨rfl, ⟨kept.1.trans written.1, kept.2.trans ?_, ?_⟩, ?_, ?_⟩
  · rw [Option.or_none]
    exact written.2
  · exact rest.relinkAfter h.roomy h.apart roomy.some_ne
  · exact List.forall_mem_cons.mpr ⟨roomy, h.roomy⟩
  · exact List.pairwise_cons.mpr ⟨apart, h.apart⟩

/-- Listing a block touches nothing but its own links and those of the old first member. -/
theorem Lists.sameOff_insert {p : Pool} {xs : List Block} {b : Block} (h : p.Lists xs)
    (roomy : b.HasLinks)
    : p.memory.SameOff (linkBytes (b :: xs.head?.toList)) (p.insert b).memory := by
  have own : p.memory.SameOff (linkBytes (b :: xs.head?.toList))
      (p.setLinks b none xs.head?).memory :=
    (sameOff_setLinks p roomy none xs.head?).mono fun _ hx => ⟨b, by simp, hx⟩
  have first := sameOff_relinkAfter (p.setLinks b none xs.head?) xs.head? (some b)
    fun c hc => h.roomy c (List.mem_of_head? hc)
  rw [h.insert_eq]
  exact own.trans (first.mono (linkBytes_mono (by simp)))

/-- The two blocks around a place in a list are members of it. -/
theorem around_subset (ys zs : List Block)
    : ys.getLast?.toList ++ zs.head?.toList ⊆ ys ++ zs := by
  intro c hc
  rcases List.mem_append.mp hc with hc | hc
  · exact List.mem_append_left _ (List.mem_of_getLast? (Option.mem_toList.mp hc))
  · exact List.mem_append_right _ (List.mem_of_head? (Option.mem_toList.mp hc))

/-- The members on either side of a block are members. -/
theorem adjacent_subset {xs : List Block} {b : Block} (h : b ∈ xs) : adjacent xs b ⊆ xs := by
  obtain ⟨ys, zs, rfl, fresh⟩ := List.eq_append_cons_of_mem h
  rw [adjacent_append fresh]
  exact fun c hc => (by simp : (ys ++ zs).Sublist _).mem (around_subset ys zs hc)

/-- The pool with both sides of a place in its list led to other links: the last block in front
of the place on to one link, the first block behind it back to another.
-/
def reseat (p : Pool) (ys zs : List Block) (next back : Link) : Pool :=
  (p.relinkBefore ys.getLast? next).relinkAfter zs.head? back

/-- Reseating a place touches nothing but the links of the two blocks around it. -/
theorem sameOff_reseat (p : Pool) {ys zs : List Block} (next back : Link)
    (roomy : ∀ b ∈ ys ++ zs, b.HasLinks)
    : p.memory.SameOff (linkBytes (ys.getLast?.toList ++ zs.head?.toList))
        (p.reseat ys zs next back).memory := by
  have before := sameOff_relinkBefore p ys.getLast? next
    fun c hc => roomy c (by simp [List.mem_of_getLast? hc])
  have after := sameOff_relinkAfter (p.relinkBefore ys.getLast? next) zs.head? back
    fun c hc => roomy c (by simp [List.mem_of_head? hc])
  exact (before.mono (linkBytes_mono (by simp))).trans (after.mono (linkBytes_mono (by simp)))

/-- The head leads to the first block in front of a reseated place, if there is one. -/
theorem head_reseat (p : Pool) (ys zs : List Block) (next back : Link)
    (h : ys ≠ [] → p.head = ys.head?)
    : (p.reseat ys zs next back).head = ys.head?.or next := by
  have after (q : Pool) : (q.relinkAfter zs.head? back).head = q.head := by
    cases zs <;> rfl
  rw [reseat, after]
  cases ys with
  | nil => rfl
  | cons y rest =>
      rw [List.getLast?_cons]
      exact h (by simp)

/-- Both sides of a reseated place stay linked within themselves, and lead to the new links. -/
theorem Linked.reseat {p : Pool} {before after old old' : Link} {ys zs : List Block}
    (front : Linked p.memory before ys old) (rear : Linked p.memory old' zs after)
    (roomy : ∀ b ∈ ys ++ zs, b.HasLinks) (apart : (ys ++ zs).Pairwise Block.Apart)
    {next back : Link} (hnext : next ≠ some ⟨0⟩) (hback : back ≠ some ⟨0⟩)
    : Linked (p.reseat ys zs next back).memory before ys next
      ∧ Linked (p.reseat ys zs next back).memory back zs after := by
  obtain ⟨hys, hzs, across⟩ := List.pairwise_append.mp apart
  have frontRoomy : ∀ b ∈ ys, b.HasLinks := fun b hb => roomy b (List.mem_append_left zs hb)
  have rearRoomy : ∀ b ∈ zs, b.HasLinks := fun b hb => roomy b (List.mem_append_right ys hb)
  have before := sameOff_relinkBefore p ys.getLast? next
    fun b hb => frontRoomy b (List.mem_of_getLast? hb)
  have after := sameOff_relinkAfter (p.relinkBefore ys.getLast? next) zs.head? back
    fun b hb => rearRoomy b (List.mem_of_head? hb)
  constructor
  · apply (front.relinkBefore frontRoomy hys hnext).sameOff after frontRoomy
    intro b hb x member
    obtain ⟨c, hc, hx⟩ := member
    exact (across b hb c (List.mem_of_head? (by simpa using hc))).symm.notMem x hx
  · have kept := rear.sameOff before rearRoomy (by
      intro b hb x member
      obtain ⟨c, hc, hx⟩ := member
      exact (across c (List.mem_of_getLast? (by simpa using hc)) b hb).notMem x hx)
    exact kept.relinkAfter rearRoomy hzs hback

/-- Taking a member out reseats its place with its own two links. -/
theorem Lists.remove_eq {p : Pool} {ys zs : List Block} {b : Block}
    (h : p.Lists (ys ++ b :: zs))
    : p.remove b = p.reseat ys zs zs.head? ys.getLast? := by
  simp only [Pool.remove, h.neighbours, reseat]

/-- Taking a member out of the list leaves the others in their order. -/
theorem Lists.remove {p : Pool} {ys zs : List Block} {b : Block}
    (h : p.Lists (ys ++ b :: zs))
    : (p.remove b).Lists (ys ++ zs) := by
  obtain ⟨front, -, -, rear⟩ := linked_append.mp h.linked
  have sub : (ys ++ zs).Sublist (ys ++ b :: zs) := by simp
  have roomy : ∀ c ∈ ys ++ zs, c.HasLinks := fun c hc => h.roomy c (sub.mem hc)
  have hnext : zs.head? ≠ some ⟨0⟩ :=
    link_ne_zero fun c hc => roomy c (by simp [List.mem_of_head? hc])
  have hback : ys.getLast? ≠ some ⟨0⟩ :=
    link_ne_zero fun c hc => roomy c (by simp [List.mem_of_getLast? hc])
  have linked := front.reseat rear roomy (h.apart.sublist sub) hnext hback
  rw [h.remove_eq]
  refine ⟨?_, linked_append.mpr (by simpa using linked), roomy, h.apart.sublist sub⟩
  rw [head_reseat, List.head?_append]
  intro hys
  rw [h.head, List.head?_append_of_ne_nil _ hys]

/-- Taking a member out touches nothing but the links of its neighbours in the list. -/
theorem Lists.sameOff_remove {p : Pool} {ys zs : List Block} {b : Block}
    (h : p.Lists (ys ++ b :: zs))
    : p.memory.SameOff (linkBytes (ys.getLast?.toList ++ zs.head?.toList))
        (p.remove b).memory := by
  rw [h.remove_eq]
  exact sameOff_reseat p _ _ fun c hc => h.roomy c ((by simp : (ys ++ zs).Sublist _).mem hc)

/-- Taking a member out of the list erases it. -/
theorem Lists.erase {p : Pool} {xs : List Block} {b : Block} (h : p.Lists xs) (hb : b ∈ xs)
    : (p.remove b).Lists (xs.erase b)
      ∧ p.memory.SameOff (linkBytes (adjacent xs b)) (p.remove b).memory := by
  obtain ⟨ys, zs, rfl⟩ := List.append_of_mem hb
  obtain ⟨fresh, erased⟩ := h.erase_member
  rw [erased, adjacent_append fun hys => fresh (List.mem_append_left zs hys)]
  exact ⟨h.remove, h.sameOff_remove⟩

/-- Putting a block at the place of a member writes its links, and leads both sides of the
place to it.
-/
theorem Lists.replace_eq {p : Pool} {ys zs : List Block} {old : Block}
    (h : p.Lists (ys ++ old :: zs)) (new : Block)
    : p.replace old new
      = (p.setLinks new ys.getLast? zs.head?).reseat ys zs (some new) (some new) := by
  simp only [Pool.replace, h.neighbours, reseat, setLinks]

/-- Putting a block at the place of a member leaves all others where they are. -/
theorem Lists.replace {p : Pool} {ys zs : List Block} {old new : Block}
    (h : p.Lists (ys ++ old :: zs)) (roomy : new.HasLinks)
    (apart : ∀ c ∈ ys ++ zs, new.Apart c)
    : (p.replace old new).Lists (ys ++ new :: zs) := by
  have sub : (ys ++ zs).Sublist (ys ++ old :: zs) := by simp
  have others : ∀ c ∈ ys ++ zs, c.HasLinks := fun c hc => h.roomy c (sub.mem hc)
  have hback : ys.getLast? ≠ some ⟨0⟩ :=
    link_ne_zero fun c hc => others c (by simp [List.mem_of_getLast? hc])
  have hnext : zs.head? ≠ some ⟨0⟩ :=
    link_ne_zero fun c hc => others c (by simp [List.mem_of_head? hc])
  have written := p.links_setLinks new hback hnext
  have own := sameOff_setLinks p roomy ys.getLast? zs.head?
  obtain ⟨front, -, -, rear⟩ := linked_append.mp h.linked
  have front' := front.sameOff own (fun c hc => others c (List.mem_append_left _ hc))
    fun c hc => (apart c (List.mem_append_left _ hc)).notMem
  have rear' := rear.sameOff own (fun c hc => others c (List.mem_append_right _ hc))
    fun c hc => (apart c (List.mem_append_right _ hc)).notMem
  have linked := front'.reseat rear' others (h.apart.sublist sub) roomy.some_ne roomy.some_ne
  have kept := roomy.links_eq
    (sameOff_reseat (p.setLinks new ys.getLast? zs.head?) (some new) (some new) others) (by
      intro x member
      obtain ⟨c, hc, hx⟩ := member
      exact (apart c (around_subset ys zs hc)).symm.notMem x hx)
  have placed : Linked ((p.setLinks new ys.getLast? zs.head?).reseat ys zs (some new)
      (some new)).memory ys.getLast? (new :: zs) none := by
    refine ⟨kept.1.trans written.1, ?_, linked.2⟩
    rw [Option.or_none]
    exact kept.2.trans written.2
  rw [h.replace_eq]
  refine ⟨?_, linked_append.mpr ⟨linked.1, by rwa [Option.or_none]⟩, ?_, ?_⟩
  · rw [head_reseat, List.head?_append, List.head?_cons]
    intro hys
    rw [head_setLinks, h.head, List.head?_append_of_ne_nil _ hys]
  · intro c hc
    rcases List.mem_append.mp hc with hc | hc
    · exact others c (List.mem_append_left _ hc)
    · rcases List.mem_cons.mp hc with rfl | hc
      · exact roomy
      · exact others c (List.mem_append_right _ hc)
  · apply List.pairwise_middle Block.Apart.symm |>.mpr
    exact List.pairwise_cons.mpr ⟨apart, h.apart.sublist sub⟩

/-- Putting a block at the place of a member touches nothing but its links and those of the
blocks around the place.
-/
theorem Lists.sameOff_replace {p : Pool} {ys zs : List Block} {old new : Block}
    (h : p.Lists (ys ++ old :: zs)) (roomy : new.HasLinks)
    : p.memory.SameOff (linkBytes (new :: (ys.getLast?.toList ++ zs.head?.toList)))
        (p.replace old new).memory := by
  have own : p.memory.SameOff (linkBytes (new :: (ys.getLast?.toList ++ zs.head?.toList)))
      (p.setLinks new ys.getLast? zs.head?).memory :=
    (sameOff_setLinks p roomy ys.getLast? zs.head?).mono fun _ hx => ⟨new, by simp, hx⟩
  have around := sameOff_reseat (p.setLinks new ys.getLast? zs.head?) (some new) (some new)
    fun c hc => h.roomy c ((by simp : (ys ++ zs).Sublist _).mem hc)
  rw [h.replace_eq]
  exact own.trans (around.mono (linkBytes_mono (by simp)))

-----------------------------------------------------------------------------------------
-- Walking the list
-----------------------------------------------------------------------------------------

/-- Distinct blocks are at most as many as there are addresses, by counting the numbers that
their addresses can be.
-/
theorem length_le_walkLimit {xs : List Block} (h : xs.Nodup) : xs.length ≤ walkLimit := by
  have distinct : (xs.map fun b => b.address.toNat).Nodup := by
    apply h.map
    intro b c hbc
    cases b
    cases c
    simpa [UInt64.toNat_inj] using hbc
  have bounded : (xs.map fun b => b.address.toNat) ⊆ List.range walkLimit := by
    intro n hn
    obtain ⟨b, -, rfl⟩ := List.mem_map.mp hn
    exact List.mem_range.mpr b.address.toNat_lt
  simpa using (distinct.subperm bounded).length_le

/-- Following successors with enough steps visits exactly the linked blocks. -/
theorem chain_eq {m : Memory} {before : Link} {xs : List Block} {n : Nat}
    (h : Linked m before xs none) (enough : xs.length ≤ n)
    : chain m n xs.head? = xs := by
  induction xs generalizing before n with
  | nil => cases n <;> rfl
  | cons b rest ih =>
      cases n with
      | zero => simp at enough
      | succ n =>
          obtain ⟨-, on, tail⟩ := h
          rw [Option.or_none] at on
          simp only [List.head?_cons, chain, on]
          rw [ih tail (by simpa using enough)]

/-- The members that a walk visits are the listed blocks. -/
theorem Lists.members_eq {p : Pool} {xs : List Block} (h : p.Lists xs) : p.members = xs := by
  rw [members, h.head]
  exact chain_eq h.linked (length_le_walkLimit h.nodup)

/-- First fit searches the listed blocks. -/
theorem Lists.firstFit?_eq {p : Pool} {xs : List Block} (h : p.Lists xs) (bytes : Word)
    : p.firstFit? bytes = xs.find? (p.fits bytes) := by
  rw [firstFit?_eq_find?, h.members_eq]

end Pool

end BoundaryTag
