import BoundaryTag.Proofs.Journal

/-! When a heap refuses a request, what it says, and what is left of the refused request: nothing
but notes in the journal. A request for more than any block can hold is refused for that. Any other
is refused if no listed block has room, the blocks within reach have not enough together, and the
region is too short to grow by.
-/

namespace BoundaryTag

namespace Heap

/-- No listed block has room for some bytes, and the region has not enough left to grow by. -/
structure Lacks (h : Heap) (wanted : Size) : Prop where
  listed : ∀ b ∈ h.members, b.size h.memory < wanted
  region : h.region.capacity.toNat - h.region.used.toNat
    < max wanted.toNat h.settings.chunkSize.toNat

/-- What a heap says that cannot grow for a request. -/
def shortage (h : Heap) (wanted : Size) : Refusal :=
  .noRoomToGrow (h.increment wanted)
    ⟨(h.increment wanted).word, h.region.capacity - h.region.used⟩

/-- The number of bytes that a block has together with those of its two neighbours that are free.
-/
def around (h : Heap) (b : Block) : Nat :=
  let below := b.below h.memory
  let above := b.above h.memory
  (b.size h.memory).toNat
    + (if below.allocated h.memory then 0 else (below.size h.memory).toNat)
    + (if above.allocated h.memory then 0 else (above.size h.memory).toNat)

/-- How a request for some bytes has to be refused that has the given number of bytes within its
reach: either it exceeds all block sizes, or its block size exceeds what is within reach and the
heap has no other room for it.
-/
def Refuses (h : Heap) (bytes : Word) (reach : Nat) (e : Refusal) : Prop :=
  (UInt64.size - 32 < bytes.toNat ∧ e = .tooLarge bytes)
  ∨ ∃ wanted, Size.forRequest? bytes = some wanted ∧ reach < wanted.toNat ∧ h.Lacks wanted
      ∧ e = h.shortage wanted

section

variable {h : Heap} {es : List Extent} {xs : List Block} {wanted : Size} {bytes : Word}
  {e : Refusal} {b : Block}

/-- There is no first fit exactly when no member of the list has room. -/
theorem firstFit?_eq_none_iff
    : h.firstFit? wanted.word = none ↔ ∀ b ∈ h.members, b.size h.memory < wanted := by
  rw [Pool.firstFit?_eq_find?, List.find?_eq_none]
  simp only [Pool.fits, decide_eq_true_eq]
  exact forall₂_congr fun b _ => UInt64.not_le

/-- A heap lacks room for a request exactly when it finds no block and cannot grow. -/
theorem lacks_iff (sane : h.region.Sane)
    : h.Lacks wanted
      ↔ h.firstFit? wanted.word = none ∧ h.region.available < (h.increment wanted).word := by
  have amount : (h.increment wanted).word.toNat
      = max wanted.toNat h.settings.chunkSize.toNat := by
    rw [← Size.toNat_max]
    rfl
  rw [firstFit?_eq_none_iff, UInt64.lt_iff_toNat_lt, sane.toNat_available, amount]
  exact ⟨fun lacks => ⟨lacks.listed, lacks.region⟩, fun both => ⟨both.1, both.2⟩⟩

/-- Serving fails exactly if the heap lacks what it would need, and says how much that is. -/
theorem serve_eq_error_iff (sane : h.region.Sane)
    : (h.serve wanted).1 = .error e ↔ h.Lacks wanted ∧ e = h.shortage wanted := by
  rw [lacks_iff sane]
  constructor
  · intro failed
    obtain ⟨fit, short, refusal, -⟩ := serve_error (Prod.ext failed rfl)
    exact ⟨⟨fit, short⟩, refusal⟩
  · intro both
    obtain ⟨⟨fit, short⟩, rfl⟩ := both
    rw [serve_eq_of_short fit short]
    rfl

/-- Whether a request is served does not change its refusal. -/
theorem map_some_eq_error_iff {result : Except Refusal Block}
    : result.map some = .error e ↔ result = .error e := by
  cases result <;> simp [Except.map]

/-- Allocating has nothing within reach but the free list and the region. -/
theorem allocate_eq_error_iff (sane : h.region.Sane) (hbytes : bytes ≠ 0)
    : (h.allocate bytes).1 = .error e ↔ h.Refuses bytes 0 e := by
  cases size : Size.forRequest? bytes with
  | none =>
      have large := Size.forRequest?_eq_none_iff.mp size
      simp [Heap.allocate, hbytes, size, Refuses, large, eq_comm]
  | some wanted =>
      have small := Nat.not_lt.mpr (Size.le_of_forRequest? size)
      have positive : 0 < wanted.toNat :=
        Nat.lt_of_lt_of_le (by decide) (Size.room_of_forRequest? size).1
      simp only [Heap.allocate, hbytes, if_false, size]
      rw [map_some_eq_error_iff, serve_eq_error_iff sane]
      simp [Refuses, size, small, positive]

/-- What is within reach of an allocated block is the joined extent of its site. -/
theorem InOrder.around_eq {s : Site} (ord : h.InOrder s.extents xs) (hs : s.Enclosed)
    : h.around s.here.block = s.joined.size.toNat := by
  obtain ⟨hbelow, belowUsed⟩ := Site.below_eq ord.settled.toLaid hs
  obtain ⟨habove, aboveUsed⟩ := Site.above_eq ord.settled.toLaid hs
  have size := (ord.settled.tagged s.here s.here_mem).size_eq
  have below : (if s.lower.isNone = true then 0
      else ((s.here.block.below h.memory).size h.memory).toNat)
      = s.lower.elim 0 (·.size.toNat) := by
    cases hlower : s.lower with
    | none => rfl
    | some d =>
        rw [hbelow d hlower, (ord.settled.tagged d (Site.mem_of_mem_lower hlower)).size_eq]
        rfl
  have above : (if s.upper.isNone = true then 0
      else ((s.here.block.above h.memory).size h.memory).toNat)
      = s.upper.elim 0 (·.size.toNat) := by
    cases hupper : s.upper with
    | none => rfl
    | some u =>
        rw [habove u hupper, (ord.settled.tagged u (Site.mem_of_mem_upper hupper)).size_eq]
        rfl
  rw [Site.toNat_joined ord.settled.toLaid, around, belowUsed, aboveUsed, size, below, above]
  omega

/-- Moving away fails where the new block is refused. -/
theorem result_moveAway (h : Heap) (b : Block) (wanted : Size) (kept : Word)
    : (h.moveAway b wanted kept).1 = (h.serve wanted).1 := by
  obtain ⟨result, h', served⟩ : ∃ result h', h.serve wanted = (result, h') := ⟨_, _, rfl⟩
  simp only [Heap.moveAway, served]
  cases result <;> rfl

/-- No other plan can fail. -/
theorem carryOut_ok (h : Heap) {plan : Plan} (near : plan ≠ .moveAway) (b : Block) (wanted : Size)
    (kept : Word)
    : ∃ target, (h.carryOut plan b wanted kept).1 = .ok target := by
  cases plan with
  | moveAway => exact absurd rfl near
  | stay | growDown below | growUp above | growBothWays below above =>
      simp only [Heap.carryOut]
      exact ⟨_, rfl⟩

/-- Resizing has the block and its free neighbours within reach. -/
theorem InOrder.resize_eq_error_iff (ord : h.InOrder es xs) (hb : b ∈ users es)
    (hbytes : bytes ≠ 0)
    : (h.resize (some b) bytes).1 = .error e ↔ h.Refuses bytes (h.around b) e := by
  cases size : Size.forRequest? bytes with
  | none =>
      have large := Size.forRequest?_eq_none_iff.mp size
      rw [resize_of_none hbytes size]
      simp [Refuses, size, large, eq_comm]
  | some wanted =>
      have small := Nat.not_lt.mpr (Size.le_of_forRequest? size)
      obtain ⟨f, hf, rfl, used⟩ := mem_users.mp hb
      obtain ⟨s, rfl, rfl, hs⟩ := ord.settled.exists_site hf
      have planned := ord.settled.planned_choose hs wanted
      rw [resize_of_some hbytes size, ord.around_eq hs]
      simp only [map_some_eq_error_iff]
      generalize Plan.choose h.memory s.here.block wanted = plan at planned ⊢
      by_cases away : plan = .moveAway
      · subst away
        obtain ⟨result, -⟩ :=
          (Alike.note_self h (.resizing s.here.block wanted .moveAway)).serve wanted
        have short : s.joined.size.toNat < wanted.toNat := by
          cases planned with
          | moveAway short => rwa [Size.le_iff, Nat.not_le] at short
        rw [Heap.carryOut, result_moveAway, result, serve_eq_error_iff ord.sane]
        simp [Refuses, size, small, short]
      · have enough := planned.enough ord.settled.toLaid away
        rw [Size.le_iff] at enough
        obtain ⟨target, carried⟩ := carryOut_ok
          (h.note (.resizing s.here.block wanted plan)) away s.here.block wanted
          (h.kept s.here.block bytes)
        rw [carried]
        simp [Refuses, size, small, Nat.not_lt.mpr enough]

-----------------------------------------------------------------------------------------
-- What a refused request leaves behind
-----------------------------------------------------------------------------------------

/-- Serving that fails changes nothing but the journal. -/
theorem serve_of_error (failed : (h.serve wanted).1 = .error e)
    : (h.serve wanted).2.Alike h := by
  obtain ⟨result, h', served⟩ : ∃ result h', h.serve wanted = (result, h') := ⟨_, _, rfl⟩
  rw [served] at failed ⊢
  obtain rfl : result = .error e := failed
  obtain ⟨-, -, -, rfl⟩ := serve_error served
  exact Alike.note_self h _

/-- Moving a block away that fails changes nothing but the journal. -/
theorem moveAway_of_error {kept : Word} (failed : (h.moveAway b wanted kept).1 = .error e)
    : (h.moveAway b wanted kept).2.Alike h := by
  rw [result_moveAway] at failed
  have unchanged := serve_of_error failed
  obtain ⟨result, h', served⟩ : ∃ result h', h.serve wanted = (result, h') := ⟨_, _, rfl⟩
  rw [served] at failed unchanged
  obtain rfl : result = .error e := failed
  simp only [Heap.moveAway, served]
  exact unchanged

/-- Allocating that fails changes nothing but the journal. -/
theorem allocate_of_error (failed : (h.allocate bytes).1 = .error e)
    : (h.allocate bytes).2.Alike h := by
  by_cases zero : bytes = 0
  · simp only [Heap.allocate, zero, if_true]
    exact .refl h
  · cases size : Size.forRequest? bytes with
    | none =>
        simp only [Heap.allocate, zero, if_false, size]
        exact .refl h
    | some wanted =>
        simp only [Heap.allocate, zero, if_false, size] at failed ⊢
        rw [map_some_eq_error_iff] at failed
        exact serve_of_error failed

/-- Allocating and clearing that fails changes nothing but the journal. -/
theorem allocateZeroed_of_error {count size : Word}
    (failed : (h.allocateZeroed count size).1 = .error e)
    : (h.allocateZeroed count size).2.Alike h := by
  cases product : Word.mul? count size with
  | none =>
      simp only [Heap.allocateZeroed, product]
      exact .refl h
  | some total =>
      have unchanged : (h.allocate total).1 = .error e → (h.allocate total).2.Alike h :=
        allocate_of_error
      obtain ⟨reply, h', outcome⟩ : ∃ reply h', h.allocate total = (reply, h') := ⟨_, _, rfl⟩
      simp only [Heap.allocateZeroed, product] at failed ⊢
      rw [outcome] at failed unchanged ⊢
      cases reply with
      | error e' => exact unchanged failed
      | ok b? => cases b? <;> cases failed

/-- Resizing that fails changes nothing but the journal. -/
theorem resize_of_error {b? : Option Block} (failed : (h.resize b? bytes).1 = .error e)
    : (h.resize b? bytes).2.Alike h := by
  cases b? with
  | none => exact allocate_of_error failed
  | some b =>
      by_cases zero : bytes = 0
      · simp only [Heap.resize, zero, if_true] at failed
        cases failed
      · cases size : Size.forRequest? bytes with
        | none =>
            rw [resize_of_none zero size]
            exact .refl h
        | some wanted =>
            rw [resize_of_some zero size] at failed ⊢
            simp only [map_some_eq_error_iff] at failed ⊢
            generalize Plan.choose h.memory b wanted = plan at failed ⊢
            by_cases away : plan = .moveAway
            · subst away
              rw [Heap.carryOut] at failed ⊢
              exact (moveAway_of_error failed).trans (Alike.note_self h _)
            · obtain ⟨target, carried⟩ := carryOut_ok (h.note (.resizing b wanted plan)) away b
                wanted (h.kept b bytes)
              rw [carried] at failed
              cases failed

end

end Heap

/-- A refused request leaves the heap as it was but for its journal. -/
theorem Request.answer_of_error {h : Heap} {r : Request} {e : Refusal}
    (failed : (r.answer h).1 = .error e)
    : (r.answer h).2.Alike h := by
  cases r with
  | allocate bytes => exact Heap.allocate_of_error failed
  | allocateZeroed count size => exact Heap.allocateZeroed_of_error failed
  | resize b? bytes => exact Heap.resize_of_error failed
  | free b => cases failed
  | write b offset bytes => cases failed

namespace Session

-----------------------------------------------------------------------------------------
-- Leaving refused requests out
-----------------------------------------------------------------------------------------

/-- Two sessions are the same but for the journals of their heaps. -/
structure Alike (s t : Session) : Prop where
  heap : s.heap.Alike t.heap
  live : s.live = t.live

/-- Those of some requests that are not refused when their turn comes. -/
def served (s : Session) : List Request → List Request
  | [] => []
  | r :: rs =>
    if (s.reply r).isOk then r :: (s.next r).served rs else (s.next r).served rs

section

variable {s t u : Session} {r : Request} {rs : List Request} {e : Refusal}

/-- A session is the same as itself. -/
theorem Alike.refl (s : Session) : s.Alike s := ⟨.refl s.heap, rfl⟩

/-- Sessions are the same in either order. -/
theorem Alike.symm (alike : s.Alike t) : t.Alike s := ⟨alike.heap.symm, alike.live.symm⟩

/-- Sessions that are the same as a third one are the same. -/
theorem Alike.trans (first : s.Alike t) (second : t.Alike u) : s.Alike u :=
  ⟨first.heap.trans second.heap, first.live.trans second.live⟩

/-- Sessions that are alike reply alike. -/
theorem Alike.reply_eq (alike : s.Alike t) (r : Request) : s.reply r = t.reply r :=
  (alike.heap.answer r).1

/-- Sessions that are alike remain so. -/
theorem Alike.next (alike : s.Alike t) (r : Request) : (s.next r).Alike (t.next r) :=
  ⟨(alike.heap.answer r).2, by rw [Session.next, Session.next, alike.reply_eq, alike.live]⟩

/-- The same requests are legal in sessions that are alike. -/
theorem Alike.permits (alike : s.Alike t) (permits : s.Permits r) : t.Permits r := by
  have live := alike.live
  match r with
  | .allocate _ | .allocateZeroed _ _ | .resize none _ => trivial
  | .free b | .resize (some b) _ =>
      have held : b ∈ s.live := permits
      rwa [live] at held
  | .write b offset bytes =>
      obtain ⟨held, inside⟩ := permits
      rw [live] at held
      rw [Heap.usableSize, alike.heap.memory] at inside
      exact ⟨held, inside⟩

/-- A refused request leaves a session as it was but for the journal. -/
theorem alike_of_refused (refused : s.reply r = .error e) : (s.next r).Alike s := by
  refine ⟨Request.answer_of_error refused, ?_⟩
  match r with
  | .allocate _ | .allocateZeroed _ _ | .resize none _ | .resize (some b) _ =>
      simp only [next, refused, Request.holdings, Heap.granted, List.nil_append]
  | .free b => cases refused
  | .write b offset bytes => cases refused

/-- Leaving refused requests out of a legal run leaves a legal run with the same replies to all
others, by induction over the requests: each refused one leaves a session that is alike.
-/
theorem Alike.served (alike : s.Alike t) (legal : s.Legal rs)
    : t.Legal (s.served rs)
      ∧ t.replies (s.served rs) = (s.replies rs).filter (·.isOk)
      ∧ (t.run (s.served rs)).Alike (s.run rs) := by
  induction rs generalizing s t with
  | nil => exact ⟨trivial, rfl, alike.symm⟩
  | cons r rest ih =>
      cases outcome : s.reply r with
      | error e =>
          have skipped := ih ((alike_of_refused outcome).trans alike) legal.2
          simpa only [Session.served, replies, Session.run, outcome, Except.isOk, Except.toBool,
            Bool.false_eq_true, if_false, List.filter_cons] using skipped
      | ok reply =>
          obtain ⟨later, same, after⟩ := ih (alike.next r) legal.2
          have outcome' : t.reply r = .ok reply := (alike.reply_eq r).symm.trans outcome
          simp only [Session.served, replies, outcome, Except.isOk, Except.toBool, if_true,
            List.filter_cons, outcome', same]
          exact ⟨⟨alike.permits legal.1, later⟩, trivial, after⟩

end

/-- After every legal run, allocating and resizing are refused exactly where they have to be, a
refused request leaves everything but the journal as it was, and no reply of the run would be
another if the refused requests had not been made.
-/
theorem refusals_of_legal {chunk : Word} {region : Region} {memory : Memory}
    (begins : Begins chunk region memory) {rs : List Request}
    (legal : (start chunk region memory).Legal rs)
    : let first := start chunk region memory
      let s := first.run rs
      (∀ bytes e, bytes ≠ 0 →
        ((s.heap.allocate bytes).1 = .error e ↔ s.heap.Refuses bytes 0 e))
      ∧ (∀ b bytes e, b ∈ s.live → bytes ≠ 0 →
          ((s.heap.resize (some b) bytes).1 = .error e
            ↔ s.heap.Refuses bytes (s.heap.around b) e))
      ∧ (∀ r e, s.reply r = .error e → (s.next r).Alike s)
      ∧ first.Legal (first.served rs)
      ∧ first.replies (first.served rs) = (first.replies rs).filter (·.isOk)
      ∧ (first.run (first.served rs)).Alike s := by
  intro first s
  obtain ⟨es, xs, created⟩ := begins.coherent
  obtain ⟨es', xs', now⟩ := created.run legal
  refine ⟨?_, ?_, ?_, (Alike.refl first).served legal⟩
  · intro bytes e hbytes
    exact Heap.allocate_eq_error_iff now.order.sane hbytes
  · intro b bytes e held hbytes
    exact now.order.resize_eq_error_iff (now.live.mem_iff.mp held) hbytes
  · intro r e refused
    exact alike_of_refused refused

/-- A block with nothing free around it cannot grow beyond what the region has left, and without a
refused request among others these have the same replies.
-/
theorem refusals_sample
    : let first := start 256 sampleRegion sampleMemory
      let s := first.run sampleRequests
      Begins 256 sampleRegion sampleMemory ∧ first.Legal sampleRequests ∧ ⟨4152⟩ ∈ s.live
      ∧ (∀ e, (s.heap.resize (some ⟨4152⟩) 4000).1 = .error e
          ↔ s.heap.Refuses 4000 (s.heap.around ⟨4152⟩) e)
      ∧ first.replies (first.served sampleRequests)
        = (first.replies sampleRequests).filter (·.isOk) := by
  intro first s
  have held : ⟨4152⟩ ∈ s.live := by simp [s, first, live_sample]
  obtain ⟨-, resizing, -, -, replies, -⟩ := refusals_of_legal begins_sample legal_sample
  exact ⟨begins_sample, legal_sample, held, fun e => resizing ⟨4152⟩ 4000 e held (by decide),
    replies⟩

end Session

end BoundaryTag
