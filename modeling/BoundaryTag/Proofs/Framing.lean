import BoundaryTag.Proofs.Sessions

/-! The frame of a session: a request changes nothing outside the heap, and nothing of what other
blocks hold for their users. So what was written into a block stays there until the block is passed
to the heap again, and what lies below a heap is never touched by it. A block that is resized takes
its contents along.
-/

namespace BoundaryTag

/-- The bytes of a block that are its user's. -/
def Heap.payload (h : Heap) (b : Block) : Set Word :=
  Word.span b.address.toNat (b.address.toNat + (h.usableSize b).toNat)

/-- What an allocated block has for its user lies between the tags of its extent. -/
theorem Heap.InOrder.payload_eq {h : Heap} {es : List Extent} {xs : List Block} {e : Extent}
    (ord : h.InOrder es xs) (he : e ∈ es)
    : h.payload e.block = e.payload := by
  have room := (ord.bounds he).2.1
  rw [payload, ord.toNat_usableSize he, Extent.payload, Extent.stop, Extent.start,
    Nat.add_sub_assoc (by omega)]

namespace Session

/-- The bytes that the heap may change for a request: those between its low end and what the region
has handed out afterwards, but none that belong to users of blocks that the request does not pass.
-/
def scope (base : Nat) (s : Session) (r : Request) : Set Word :=
  {x | base ≤ x.toNat ∧ x.toNat < (s.next r).heap.region.frontier.toNat
    ∧ ∀ q ∈ s.live, r.passed ≠ some q → x ∉ s.heap.payload q}

namespace Coherent

variable {base : Nat} {s : Session} {es : List Extent} {xs : List Block} {r : Request}
  {rs : List Request} {q : Block} {x : Word}

/-- A legal request changes nothing outside its scope and what the client writes by itself. -/
theorem sameOff_next (h : s.Coherent base es xs) (permits : s.Permits r)
    : s.heap.memory.SameOff (s.scope base r ∪ r.written) (s.next r).heap.memory := by
  obtain ⟨es', xs', taken⟩ := h.next permits
  apply taken.frame.mono
  intro x member
  rcases member with ⟨low, high, outside⟩ | hx
  · rw [h.low] at low
    refine Or.inl ⟨by omega, high, ?_⟩
    intro q hq apart hx
    obtain ⟨e, he, rfl, used⟩ := mem_users.mp (h.live.mem_iff.mp hq)
    have gone : e.block ∉ r.passed.toList := fun hmem => apart (Option.mem_toList.mp hmem)
    apply outside e he used gone
    rw [h.order.payload_eq he] at hx
    simp only [Extent.payload, Extent.covered, Word.mem_span] at hx ⊢
    omega
  · exact Or.inr hx

/-- A block that is held stays so until it is passed to the heap, with a payload of the same size.
-/
theorem held_next (h : s.Coherent base es xs) (permits : s.Permits r) (hq : q ∈ s.live)
    (apart : r.passed ≠ some q)
    : q ∈ (s.next r).live ∧ (s.next r).heap.payload q = s.heap.payload q := by
  obtain ⟨es', xs', taken⟩ := h.next permits
  obtain ⟨e, he, rfl, used⟩ := mem_users.mp (h.live.mem_iff.mp hq)
  have gone : e.block ∉ r.passed.toList := fun hmem => apart (Option.mem_toList.mp hmem)
  have kept := taken.kept e he used gone
  rw [taken.order.payload_eq kept, h.order.payload_eq he]
  exact ⟨taken.live.mem_iff.mpr (mem_users.mpr ⟨e, kept, rfl, used⟩), rfl⟩

/-- A byte of a block that is held stays as it is through every legal run that neither passes the
block to the heap nor writes to the byte, by induction over the requests.
-/
theorem byte_run (h : s.Coherent base es xs) (legal : s.Legal rs) (hq : q ∈ s.live)
    (hx : x ∈ s.heap.payload q) (stays : ∀ r ∈ rs, r.passed ≠ some q ∧ x ∉ r.written)
    : (s.run rs).heap.memory.byte x = s.heap.memory.byte x := by
  induction rs generalizing s es xs with
  | nil => rfl
  | cons r rest ih =>
      obtain ⟨es', xs', taken⟩ := h.next legal.1
      obtain ⟨apart, unwritten⟩ := stays r (by simp)
      obtain ⟨held, same⟩ := h.held_next legal.1 hq apart
      have outside : x ∉ s.scope base r ∪ r.written := by
        intro member
        rcases member with ⟨-, -, foreign⟩ | hwritten
        · exact foreign q hq apart hx
        · exact unwritten hwritten
      have later := ih (taken.coherent h) legal.2 held (by rwa [same])
        fun r' hr' => stays r' (List.mem_cons_of_mem r hr')
      exact later.trans (h.sameOff_next legal.1 x outside)

/-- Clients write nothing below the heap. -/
theorem le_of_mem_written (h : s.Coherent base es xs) (permits : s.Permits r)
    (hx : x ∈ r.written)
    : base ≤ x.toNat := by
  match r with
  | .write b offset bytes =>
      obtain ⟨e, he, rfl, -⟩ := mem_users.mp (h.live.mem_iff.mp permits.1)
      have hbounds := h.order.bounds he
      simp only [Request.written, Word.mem_span] at hx
      rw [h.low, Extent.start] at hbounds
      omega
  | .allocate _ | .allocateZeroed _ _ | .free _ | .resize _ _ =>
      simp [Request.written] at hx

/-- Nothing below a heap changes in a legal run, by induction over the requests. -/
theorem sameOff_run (h : s.Coherent base es xs) (legal : s.Legal rs)
    : s.heap.memory.SameOff {x | base ≤ x.toNat} (s.run rs).heap.memory := by
  induction rs generalizing s es xs with
  | nil => exact .refl _ _
  | cons r rest ih =>
      obtain ⟨es', xs', taken⟩ := h.next legal.1
      refine ((h.sameOff_next legal.1).mono ?_).trans (ih (taken.coherent h) legal.2)
      intro x member
      rcases member with ⟨low, -, -⟩ | hx
      · exact low
      · exact h.le_of_mem_written legal.1 hx

end Coherent

/-- After every legal run, a request changes nothing but the bytes in its scope and those that the
client writes. So a byte of a block that is held reads the same until the block is freed or resized
or the byte is written; and no byte below the heap has changed since before it was set up.
-/
theorem frame_of_legal {chunk : Word} {region : Region} {memory : Memory}
    (begins : Begins chunk region memory) {rs : List Request}
    (legal : (start chunk region memory).Legal rs)
    : let s := (start chunk region memory).run rs
      (∀ r, s.Permits r →
        s.heap.memory.SameOff (s.scope region.frontier.toNat r ∪ r.written)
          (s.next r).heap.memory)
      ∧ (∀ rs' q x, s.Legal rs' → q ∈ s.live → x ∈ s.heap.payload q →
          (∀ r ∈ rs', r.passed ≠ some q ∧ x ∉ r.written) →
          (s.run rs').heap.memory.byte x = s.heap.memory.byte x)
      ∧ ∀ x : Word, x.toNat < region.frontier.toNat →
          s.heap.memory.byte x = memory.byte x := by
  intro s
  obtain ⟨es, xs, first⟩ := begins.coherent
  obtain ⟨es', xs', now⟩ := first.run legal
  refine ⟨?_, ?_, ?_⟩
  · intro r permits
    exact now.sameOff_next permits
  · intro rs' q x legal' held hx stays
    exact now.byte_run legal' held hx stays
  · intro x below
    have room := Settings.toNat_ofChunkSize begins.chunk_le
    have since := first.sameOff_run legal x (Nat.not_le.mpr below)
    have built := Heap.sameOff_create memory begins.sane room x
      (fun above => by rw [Word.mem_span] at above; omega)
    exact since.trans built

/-- A byte that nobody writes to outlives that a block below it is freed and the heap grows. -/
theorem frame_sample
    : let s := (start 256 sampleRegion sampleMemory).run sampleRequests
      let later := [.free ⟨4152⟩, .allocate 200]
      Begins 256 sampleRegion sampleMemory
      ∧ (start 256 sampleRegion sampleMemory).Legal sampleRequests
      ∧ s.Legal later ∧ ⟨4296⟩ ∈ s.live ∧ 4300 ∈ s.heap.payload ⟨4296⟩
      ∧ (s.run later).heap.memory.byte 4300 = s.heap.memory.byte 4300 := by
  intro s later
  have legal : s.Legal later := by decide +kernel
  have held : ⟨4296⟩ ∈ s.live := by simp [s, live_sample]
  have inside : 4300 ∈ s.heap.payload ⟨4296⟩ := ⟨by decide, by decide +kernel⟩
  have stays : ∀ r ∈ later, r.passed ≠ some ⟨4296⟩ ∧ (4300 : Word) ∉ r.written := by
    simp [later, Request.passed, Request.written]
  obtain ⟨-, lasts, -⟩ := frame_of_legal begins_sample legal_sample
  refine ⟨begins_sample, legal_sample, legal, held, inside, ?_⟩
  simp only [s]
  exact lasts later ⟨4296⟩ 4300 legal held inside stays

-----------------------------------------------------------------------------------------
-- The contents of a resized block
-----------------------------------------------------------------------------------------

/-- After every legal run, a block that is resized to some bytes becomes one that has room for them
and begins with the old contents, as far as either size goes.
-/
theorem contents_resize {chunk : Word} {region : Region} {memory : Memory}
    (begins : Begins chunk region memory) {rs : List Request}
    (legal : (start chunk region memory).Legal rs) {b : Block}
    (held : b ∈ ((start chunk region memory).run rs).live) {bytes : Word} (hbytes : bytes ≠ 0)
    {reply : Option Block}
    (resized : (((start chunk region memory).run rs).heap.resize (some b) bytes).1 = .ok reply)
    : let h := ((start chunk region memory).run rs).heap
      let h' := (h.resize (some b) bytes).2
      ∃ target, reply = some target
        ∧ bytes.toNat ≤ (h'.usableSize target).toNat
        ∧ h'.memory.readBytes target.address (min (h.usableSize b).toNat bytes.toNat)
            = h.memory.readBytes b.address (min (h.usableSize b).toNat bytes.toNat) := by
  dsimp only
  obtain ⟨es, xs, first⟩ := begins.coherent
  obtain ⟨es', xs', now⟩ := first.run legal
  rcases now.order.resize (now.live.mem_iff.mp held) hbytes with
    ⟨e, failed, -⟩ | ⟨target, wanted, es'', xs'', succeeded, room, resizes⟩
  · rw [resized] at failed
    cases failed
  · rw [resized] at succeeded
    obtain ⟨t, ht, rfl, -, enough⟩ := resizes.extent
    have contents := resizes.contents
    rw [Heap.toNat_kept, Nat.min_comm] at contents
    refine ⟨t.block, Except.ok.inj succeeded, ?_, contents⟩
    rw [resizes.order.toNat_usableSize ht]
    rw [Size.le_iff] at enough
    omega

/-- The contents of a block move up where the heap has to grow for it. -/
theorem contents_sample
    : let h := ((start 256 sampleRegion sampleMemory).run sampleRequests).heap
      let h' := (h.resize (some ⟨4152⟩) 300).2
      (h.resize (some ⟨4152⟩) 300).1 = .ok (some ⟨4344⟩)
      ∧ 300 ≤ (h'.usableSize ⟨4344⟩).toNat
      ∧ h'.memory.readBytes 4344 (min (h.usableSize ⟨4152⟩).toNat 300)
          = h.memory.readBytes 4152 (min (h.usableSize ⟨4152⟩).toNat 300) := by
  intro h h'
  have held : ⟨4152⟩ ∈ ((start 256 sampleRegion sampleMemory).run sampleRequests).live := by
    simp [live_sample]
  have reply : (h.resize (some ⟨4152⟩) 300).1 = .ok (some ⟨4344⟩) := by decide +kernel
  obtain ⟨target, same, room, contents⟩ :=
    contents_resize begins_sample legal_sample held (by decide) reply
  obtain rfl : ⟨4344⟩ = target := Option.some.inj same
  have number : (300 : Word).toNat = 300 := rfl
  rw [number] at room contents
  simp only [h', h] at reply ⊢
  exact ⟨reply, room, contents⟩

end Session

end BoundaryTag
