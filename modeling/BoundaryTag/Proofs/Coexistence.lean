import Mathlib.Data.Fintype.Basic
import Mathlib.Data.List.Pairwise
import BoundaryTag.Proofs.Linking

/-! Free lists that share a memory. An edit of one of them is the same edit of a plain list of
blocks, and it changes no links but those of the blocks that it brings in and of the members around
the place. So it cannot reach another list as long as no two blocks share link bytes. What has left
a list keeps its old links, which nothing follows any more.
-/

namespace BoundaryTag

-----------------------------------------------------------------------------------------
-- Edits of one list
-----------------------------------------------------------------------------------------

/-- A change of a free list. -/
inductive Edit
  /-- A block joins at the head. -/
  | insert (b : Block)
  /-- A member leaves. -/
  | remove (b : Block)
  /-- A block takes over the place of a member. -/
  | replace (old new : Block)
deriving DecidableEq

namespace Edit

/-- Carries an edit out on the list of a pool. -/
def perform (p : Pool) : Edit → Pool
  | insert b => p.insert b
  | remove b => p.remove b
  | replace old new => p.replace old new

/-- What an edit makes of a plain list of blocks. -/
def apply (xs : List Block) : Edit → List Block
  | insert b => b :: xs
  | remove b => xs.erase b
  | replace old new => xs.replace old new

/-- The blocks that an edit brings in. -/
def incoming : Edit → List Block
  | insert b => [b]
  | remove _ => []
  | replace _ new => [new]

/-- The members that an edit takes out. -/
def outgoing : Edit → List Block
  | insert _ => []
  | remove b => [b]
  | replace old _ => [old]

/-- The blocks whose links an edit may change: those that it brings in, and the members around the
place.
-/
def touched (xs : List Block) : Edit → List Block
  | insert b => b :: xs.head?.toList
  | remove b => adjacent xs b
  | replace old new => new :: adjacent xs old

end Edit

/-- Replacing the first place of a block leaves what stands around it. -/
theorem replace_append {ys : List Block} {old : Block} (fresh : old ∉ ys) (zs : List Block)
    (new : Block)
    : (ys ++ old :: zs).replace old new = ys ++ new :: zs := by
  rw [List.replace_append_right fresh, List.replace_cons_self]

/-- A block of an edited list was a member before or has been brought in. -/
theorem Edit.mem_apply {e : Edit} {xs : List Block} {b : Block}
    (out : ∀ c ∈ e.outgoing, c ∈ xs) (h : b ∈ e.apply xs)
    : b ∈ xs ∨ b ∈ e.incoming := by
  cases e with
  | insert c => simpa [apply, incoming, or_comm] using h
  | remove c => exact Or.inl (List.mem_of_mem_erase h)
  | replace old new =>
      obtain ⟨ys, zs, rfl, fresh⟩ := List.eq_append_cons_of_mem (out old (by simp [outgoing]))
      rw [apply, replace_append fresh] at h
      simp only [List.mem_append, List.mem_cons, incoming, List.not_mem_nil, or_false] at h ⊢
      tauto

/-- An edit touches only members and what it brings in. -/
theorem Edit.mem_of_touched {e : Edit} {xs : List Block} {b : Block}
    (out : ∀ c ∈ e.outgoing, c ∈ xs) (h : b ∈ e.touched xs)
    : b ∈ xs ∨ b ∈ e.incoming := by
  cases e with
  | insert c =>
      rcases List.mem_cons.mp h with rfl | first
      · exact Or.inr (by simp [incoming])
      · exact Or.inl (List.mem_of_head? (Option.mem_toList.mp first))
  | remove c => exact Or.inl (Pool.adjacent_subset (out c (by simp [outgoing])) h)
  | replace old new =>
      rcases List.mem_cons.mp h with rfl | around
      · exact Or.inr (by simp [incoming])
      · exact Or.inl (Pool.adjacent_subset (out old (by simp [outgoing])) around)

/-- An edit does to the list of a pool what it does to a plain list, within the links that it
touches.
-/
theorem Pool.Lists.perform {p : Pool} {xs : List Block} {e : Edit} (h : p.Lists xs)
    (out : ∀ b ∈ e.outgoing, b ∈ xs) (roomy : ∀ b ∈ e.incoming, b.HasLinks)
    (apart : ∀ b ∈ e.incoming, ∀ c ∈ xs, b.Apart c)
    : (e.perform p).Lists (e.apply xs)
      ∧ p.memory.SameOff (linkBytes (e.touched xs)) (e.perform p).memory := by
  cases e with
  | insert b =>
      have room := roomy b (by simp [Edit.incoming])
      have away := apart b (by simp [Edit.incoming])
      rw [Edit.perform, Edit.apply, Edit.touched]
      exact ⟨h.insert room away, h.sameOff_insert room⟩
  | remove b =>
      rw [Edit.perform, Edit.apply, Edit.touched]
      exact h.erase (out b (by simp [Edit.outgoing]))
  | replace old new =>
      have room := roomy new (by simp [Edit.incoming])
      have away := apart new (by simp [Edit.incoming])
      obtain ⟨ys, zs, rfl, fresh⟩ :=
        List.eq_append_cons_of_mem (out old (by simp [Edit.outgoing]))
      rw [Edit.perform, Edit.apply, replace_append fresh, Edit.touched, adjacent_append fresh]
      refine ⟨h.replace room ?_, h.sameOff_replace room⟩
      exact fun c hc => away c ((by simp : (ys ++ zs).Sublist _).mem hc)

-----------------------------------------------------------------------------------------
-- Lists over one memory
-----------------------------------------------------------------------------------------

/-- A memory together with the first members of several lists threaded through it. -/
structure Pools (ι : Type) where
  memory : Memory
  head : ι → Link

/-- The plain lists that stand for the lists of several pools. -/
abbrev Rosters (ι : Type) := ι → List Block

section

variable {ι : Type}

/-- Whether an edit of one list is meaningful: it takes out members of that list, and brings in
what stands in no list.
-/
def Edit.Suits (xss : Rosters ι) (i : ι) (e : Edit) : Prop :=
  (∀ b ∈ e.outgoing, b ∈ xss i) ∧ ∀ b ∈ e.incoming, ∀ j, b ∉ xss j

/-- One of the lists with the common memory. -/
def Pools.pool (ps : Pools ι) (i : ι) : Pool := ⟨ps.memory, ps.head i⟩

/-- Lists without members. -/
def Pools.empty (m : Memory) : Pools ι := ⟨m, fun _ => none⟩

variable [DecidableEq ι]

instance [Fintype ι] (xss : Rosters ι) (i : ι) (e : Edit) : Decidable (e.Suits xss i) :=
  inferInstanceAs (Decidable (_ ∧ _))

/-- Carries an edit out on one of the lists. -/
def Pools.edit (ps : Pools ι) (i : ι) (e : Edit) : Pools ι where
  memory := (e.perform (ps.pool i)).memory
  head := Function.update ps.head i (e.perform (ps.pool i)).head

/-- Carries edits out one after the other, each on the list that is named with it. -/
def Pools.run (ps : Pools ι) : List (ι × Edit) → Pools ι
  | [] => ps
  | (i, e) :: rest => (ps.edit i e).run rest

/-- What an edit of one list makes of all plain lists. -/
def Rosters.edit (xss : Rosters ι) (i : ι) (e : Edit) : Rosters ι :=
  Function.update xss i (e.apply (xss i))

/-- What edits make of the plain lists, one after the other. -/
def Rosters.run (xss : Rosters ι) : List (ι × Edit) → Rosters ι
  | [] => xss
  | (i, e) :: rest => (xss.edit i e).run rest

/-- Every edit is meaningful for what the edits before it have made of the lists. -/
def Rosters.Legal (xss : Rosters ι) : List (ι × Edit) → Prop
  | [] => True
  | (i, e) :: rest => e.Suits xss i ∧ (xss.edit i e).Legal rest

instance Rosters.decidableLegal [Fintype ι]
    : (xss : Rosters ι) → (edits : List (ι × Edit)) → Decidable (xss.Legal edits)
  | _, [] => isTrue trivial
  | xss, (i, e) :: rest =>
      have := Rosters.decidableLegal (xss.edit i e) rest
      inferInstanceAs (Decidable (_ ∧ _))

-----------------------------------------------------------------------------------------
-- What edits keep
-----------------------------------------------------------------------------------------

/-- Blocks that can be listed side by side: no two of them share link bytes. -/
structure Spaced (blocks : List Block) : Prop where
  roomy : ∀ b ∈ blocks, b.HasLinks
  apart : blocks.Pairwise Block.Apart

/-- The pools hold the given lists. The members are among the given blocks, and no block stands in
two lists.
-/
structure Pools.Hold (ps : Pools ι) (blocks : List Block) (xss : Rosters ι) : Prop where
  lists : ∀ i, (ps.pool i).Lists (xss i)
  within : ∀ i, xss i ⊆ blocks
  disjoint : ∀ i j, i ≠ j → (xss i).Disjoint (xss j)

namespace Pools

variable {ps : Pools ι} {blocks : List Block} {xss : Rosters ι} {i : ι} {e : Edit}

omit [DecidableEq ι] in
/-- Pools without members hold empty lists in any memory. -/
theorem hold_empty (m : Memory) (blocks : List Block)
    : (Pools.empty m).Hold blocks fun _ : ι => [] where
  lists _ := ⟨rfl, trivial, by simp, .nil⟩
  within _ := List.nil_subset blocks
  disjoint _ _ _ := List.disjoint_nil_left _

/-- The edited list is the one that the edit gives. -/
theorem pool_edit_self (ps : Pools ι) (i : ι) (e : Edit)
    : (ps.edit i e).pool i = e.perform (ps.pool i) := by
  simp [pool, edit]

/-- The other lists keep their heads. -/
theorem head_edit_of_ne {j : ι} (h : j ≠ i) (ps : Pools ι) (e : Edit)
    : ((ps.edit i e).pool j).head = (ps.pool j).head := by
  simp [pool, edit, h]

/-- One edit keeps the pools to the edited lists, within the links that it touches. -/
theorem Hold.perform (h : ps.Hold blocks xss) (spaced : Spaced blocks) (suits : e.Suits xss i)
    (known : e.incoming ⊆ blocks)
    : (e.perform (ps.pool i)).Lists (e.apply (xss i))
      ∧ ps.memory.SameOff (linkBytes (e.touched (xss i))) (ps.edit i e).memory := by
  apply (h.lists i).perform suits.1 fun b hb => spaced.roomy b (known hb)
  intro b hb c hc
  apply spaced.apart.forall (known hb) (h.within i hc)
  rintro rfl
  exact suits.2 b hb i hc

omit [DecidableEq ι] in
/-- The links that an edit touches are apart from those of every block that stands in another
list.
-/
theorem Hold.apart_touched (h : ps.Hold blocks xss) (spaced : Spaced blocks)
    (suits : e.Suits xss i) (known : e.incoming ⊆ blocks) {j : ι} (other : j ≠ i)
    : ∀ b ∈ xss j, ∀ x ∈ linkBytes (e.touched (xss i)), x ∉ b.links := by
  rintro b hb x ⟨c, hc, hx⟩
  have hcb : c ∈ blocks ∧ c ≠ b := by
    rcases Edit.mem_of_touched suits.1 hc with member | new
    · exact ⟨h.within i member, fun same => h.disjoint j i other hb (same ▸ member)⟩
    · exact ⟨known new, fun same => suits.2 c new j (same ▸ hb)⟩
  exact (spaced.apart.forall hcb.1 (h.within j hb) hcb.2).notMem x hx

/-- One edit makes of the lists in memory what it makes of the plain lists. -/
theorem Hold.edit (h : ps.Hold blocks xss) (spaced : Spaced blocks) (suits : e.Suits xss i)
    (known : e.incoming ⊆ blocks)
    : (ps.edit i e).Hold blocks (xss.edit i e) := by
  obtain ⟨edited, same⟩ := h.perform spaced suits known
  -- A member of the edited list is new to all lists, or was one before.
  have apart : ∀ j, j ≠ i → (e.apply (xss i)).Disjoint (xss j) := by
    intro j other b hb hj
    rcases Edit.mem_apply suits.1 hb with member | new
    · exact h.disjoint i j other.symm member hj
    · exact suits.2 b new j hj
  refine ⟨fun j => ?_, fun j => ?_, fun j k distinct => ?_⟩
  · by_cases self : j = i
    · subst self
      rw [pool_edit_self, Rosters.edit, Function.update_self]
      exact edited
    · rw [Rosters.edit, Function.update_of_ne self]
      exact (h.lists j).sameOff (head_edit_of_ne self ps e) same
        (h.apart_touched spaced suits known self)
  · by_cases self : j = i
    · subst self
      rw [Rosters.edit, Function.update_self]
      intro b hb
      rcases Edit.mem_apply suits.1 hb with member | new
      · exact h.within j member
      · exact known new
    · rw [Rosters.edit, Function.update_of_ne self]
      exact h.within j
  · by_cases self : j = i
    · subst self
      rw [Rosters.edit, Function.update_self, Function.update_of_ne distinct.symm]
      exact apart k distinct.symm
    · rw [Rosters.edit, Function.update_of_ne self]
      by_cases self' : k = i
      · subst self'
        rw [Function.update_self]
        exact (apart j self).symm
      · rw [Function.update_of_ne self']
        exact h.disjoint j k distinct

/-- Edits that are meaningful one after the other make of the lists in memory what they make of
the plain lists.
-/
theorem Hold.run (h : ps.Hold blocks xss) (spaced : Spaced blocks) {edits : List (ι × Edit)}
    (legal : xss.Legal edits) (known : ∀ s ∈ edits, s.2.incoming ⊆ blocks)
    : (ps.run edits).Hold blocks (xss.run edits) := by
  induction edits generalizing ps xss with
  | nil => exact h
  | cons s rest ih =>
      have next := h.edit spaced legal.1 (known s (by simp))
      exact ih next legal.2 fun t ht => known t (List.mem_cons_of_mem s ht)

/-- Free lists that start without members in one memory are the plain lists that the same edits
make, whatever the memory held: walks visit them in that order, every member leads back to the one
before it, first fit is the first member with room, and the next edit writes only links of what it
brings in and of the members around its place.
-/
theorem refines_of_legal (m : Memory) {edits : List (ι × Edit)} (spaced : Spaced blocks)
    (legal : Rosters.Legal (fun _ => []) edits) (known : ∀ s ∈ edits, s.2.incoming ⊆ blocks)
    : let ps := (Pools.empty m).run edits
      let xss := Rosters.run (fun _ => []) edits
      (∀ i, (ps.pool i).members = xss i)
      ∧ (∀ i ys b zs, xss i = ys ++ b :: zs → b.predecessor ps.memory = ys.getLast?)
      ∧ (∀ i bytes, (ps.pool i).firstFit? bytes
          = (xss i).find? fun b => decide (bytes.toNat ≤ (b.size ps.memory).toNat))
      ∧ ∀ i (e : Edit), e.Suits xss i → e.incoming ⊆ blocks →
          ps.memory.SameOff (linkBytes (e.touched (xss i))) (ps.edit i e).memory := by
  intro ps xss
  have held : ps.Hold blocks xss := (hold_empty m blocks).run spaced legal known
  refine ⟨fun i => (held.lists i).members_eq, ?_, ?_, ?_⟩
  · intro i ys b zs split
    have lists := held.lists i
    rw [split] at lists
    exact lists.neighbours.1
  · intro i bytes
    exact (held.lists i).firstFit?_eq bytes
  · intro i e suits known
    exact (held.perform spaced suits known).2

end Pools

end

/-- Edits of two lists in turn. The block that leaves the middle of the first list joins the second
one with the links that it has left behind.
-/
def sampleEdits : List (Bool × Edit) := [
  (false, .insert ⟨4096⟩),
  (true, .insert ⟨4224⟩),
  (false, .insert ⟨4160⟩),
  (false, .insert ⟨4288⟩),
  (false, .replace ⟨4160⟩ ⟨4352⟩),
  (false, .remove ⟨4352⟩),
  (true, .insert ⟨4352⟩)]

/-- The blocks of the sample edits. -/
def sampleBlocks : List Block := [⟨4096⟩, ⟨4160⟩, ⟨4224⟩, ⟨4288⟩, ⟨4352⟩]

/-- The sample edits leave two members to each list. The next removal
writes the links of no block but the one that stays.
-/
theorem refines_sample
    : let ps := (Pools.empty .zeros).run sampleEdits
      Spaced sampleBlocks
      ∧ Rosters.Legal (fun _ => []) sampleEdits
      ∧ (∀ s ∈ sampleEdits, s.2.incoming ⊆ sampleBlocks)
      ∧ (ps.pool false).members = [⟨4288⟩, ⟨4096⟩]
      ∧ (ps.pool true).members = [⟨4352⟩, ⟨4224⟩]
      ∧ (⟨4224⟩ : Block).predecessor ps.memory = some ⟨4352⟩
      ∧ ps.memory.SameOff (linkBytes [⟨4224⟩]) (ps.edit true (.remove ⟨4352⟩)).memory := by
  intro ps
  have spaced : Spaced sampleBlocks := ⟨by decide, by decide⟩
  have legal : Rosters.Legal (fun _ => []) sampleEdits := by decide
  have known : ∀ s ∈ sampleEdits, s.2.incoming ⊆ sampleBlocks := by decide
  obtain ⟨members, back, -, near⟩ := Pools.refines_of_legal .zeros spaced legal known
  have first : Rosters.run (fun _ => []) sampleEdits false = [⟨4288⟩, ⟨4096⟩] := by decide
  have second : Rosters.run (fun _ => []) sampleEdits true = [⟨4352⟩, ⟨4224⟩] := by decide
  have removal := near true (.remove ⟨4352⟩) (by decide) (by simp [Edit.incoming])
  rw [second] at removal
  exact ⟨spaced, legal, known, (members false).trans first, (members true).trans second,
    back true [⟨4352⟩] ⟨4224⟩ [] second, removal⟩

end BoundaryTag
