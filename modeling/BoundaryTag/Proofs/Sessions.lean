import BoundaryTag.Proofs.Reallocation

/-! Sessions: what clients ask of a heap, request after request, and which blocks they hold in the
meantime. A session is legal if blocks are passed to the heap only by those that hold them, and
bytes are written only into them. Every legal session keeps the heap in order, and the blocks
that its clients hold are exactly the allocated ones.
-/

namespace BoundaryTag

/-- What a client asks of a heap, or does by itself to a block that it holds. -/
inductive Request
  /-- Asks for a block. -/
  | allocate (bytes : Word)
  /-- Asks for a block that is cleared. -/
  | allocateZeroed (count size : Word)
  /-- Gives a block back. -/
  | free (b : Block)
  /-- Asks for another size of a block, or for a first block. -/
  | resize (b? : Link) (bytes : Word)
  /-- Writes some bytes into a block, behind the given number of bytes. -/
  | write (b : Block) (offset : Nat) (bytes : List UInt8)
deriving DecidableEq

namespace Request

/-- What comes of a request: the reply and the heap afterwards. -/
def answer (h : Heap) : Request → Except Refusal (Option Block) × Heap
  | allocate bytes => h.allocate bytes
  | allocateZeroed count size => h.allocateZeroed count size
  | free b => (.ok none, h.free b)
  | resize b? bytes => h.resize b? bytes
  | write b offset bytes =>
    (.ok none, { h with memory := h.memory.writeBytes (b.address + .ofNat offset) bytes })

/-- The block that a request passes to the heap. -/
def passed : Request → Link
  | free b => some b
  | resize b? _ => b?
  | _ => none

/-- The addresses that a client writes to by itself. -/
def written : Request → Set Word
  | write b offset bytes =>
    Word.span (b.address.toNat + offset) (b.address.toNat + offset + bytes.length)
  | _ => ∅

/-- The number of bytes that a request asks for. -/
def amount : Request → Nat
  | allocate bytes | resize _ bytes => bytes.toNat
  | allocateZeroed count size => count.toNat * size.toNat
  | _ => 0

/-- The size of the block that serves a request. There is none for too many bytes. -/
def wanted? (r : Request) : Option Size :=
  if r.amount < UInt64.size then Size.forRequest? (.ofNat r.amount) else none

/-- A request for as many bytes as a word says wants the size for that word. -/
theorem wanted?_eq {r : Request} {n : Word} (amount : r.amount = n.toNat)
    : r.wanted? = Size.forRequest? n := by
  rw [wanted?, amount, if_pos n.toNat_lt, UInt64.ofNat_toNat]

/-- The blocks that clients hold after a request, given the reply and those held before. A block
that is resized to nothing is gone, although the reply names it.
-/
def holdings (reply : Except Refusal (Option Block)) (live : List Block) : Request → List Block
  | free b => live.erase b
  | resize (some b) bytes =>
    match reply with
    | .error _ => live
    | .ok _ => (if bytes = 0 then [] else Heap.granted reply) ++ live.erase b
  | _ => Heap.granted reply ++ live

end Request

/-- A heap and the blocks that its clients hold. -/
structure Session where
  heap : Heap
  live : List Block

namespace Session

/-- A session with a new heap, which is set up for a chunk of at least the given size. -/
def start (chunk : Word) (region : Region) (memory : Memory) : Session :=
  ⟨(Heap.create (.ofChunkSize chunk) region memory).2, []⟩

/-- The reply to a request. -/
def reply (s : Session) (r : Request) : Except Refusal (Option Block) := (r.answer s.heap).1

/-- The session after a request. -/
def next (s : Session) (r : Request) : Session :=
  ⟨(r.answer s.heap).2, r.holdings (s.reply r) s.live⟩

/-- The session after some requests, one after the other. -/
def run (s : Session) : List Request → Session
  | [] => s
  | r :: rs => (s.next r).run rs

/-- The replies to some requests, one after the other. -/
def replies (s : Session) : List Request → List (Except Refusal (Option Block))
  | [] => []
  | r :: rs => s.reply r :: (s.next r).replies rs

/-- A request is legal if it passes or writes to no block but those that are held, and does not
write beyond what a block has for its user.
-/
def Permits (s : Session) : Request → Prop
  | .free b => b ∈ s.live
  | .resize (some b) _ => b ∈ s.live
  | .write b offset bytes =>
    b ∈ s.live ∧ offset + bytes.length ≤ (s.heap.usableSize b).toNat
  | _ => True

instance (s : Session) (r : Request) : Decidable (s.Permits r) :=
  match r with
  | .allocate _ => inferInstanceAs (Decidable True)
  | .allocateZeroed _ _ => inferInstanceAs (Decidable True)
  | .free b => inferInstanceAs (Decidable (b ∈ s.live))
  | .resize none _ => inferInstanceAs (Decidable True)
  | .resize (some b) _ => inferInstanceAs (Decidable (b ∈ s.live))
  | .write b offset bytes =>
    inferInstanceAs
      (Decidable (b ∈ s.live ∧ offset + bytes.length ≤ (s.heap.usableSize b).toNat))

/-- Each of some requests is legal when its turn comes. -/
def Legal (s : Session) : List Request → Prop
  | [] => True
  | r :: rs => s.Permits r ∧ (s.next r).Legal rs

instance decidableLegal (s : Session) : (rs : List Request) → Decidable (s.Legal rs)
  | [] => inferInstanceAs (Decidable True)
  | r :: rs =>
    have := decidableLegal (s.next r) rs
    inferInstanceAs (Decidable (s.Permits r ∧ (s.next r).Legal rs))

/-- A heap can be set up: the chunk can be rounded up, the addresses of the region do not wrap,
and setting up has succeeded.
-/
structure Begins (chunk : Word) (region : Region) (memory : Memory) : Prop where
  chunk_le : chunk ≤ Size.greatest.word
  sane : region.Sane
  created : (Heap.create (.ofChunkSize chunk) region memory).1 = .ok ()

-----------------------------------------------------------------------------------------
-- What a session keeps
-----------------------------------------------------------------------------------------

/-- The heap is in order above the given address, and clients hold the allocated blocks. -/
structure Coherent (base : Nat) (s : Session) (es : List Extent) (xs : List Block) : Prop where
  low : s.heap.prologue.address.toNat = base + 16
  order : s.heap.InOrder es xs
  live : s.live.Perm (users es)

/-- A request takes a session on: the heap stays in order with the same ends, allocated extents
that are not passed to it stay where they are, and nothing changes outside the bytes that a heap
may change for such a request and those that the client writes.
-/
structure Continues (s : Session) (es : List Extent) (r : Request) (s' : Session)
    (es' : List Extent) (xs' : List Block) : Prop where
  order : s'.heap.InOrder es' xs'
  live : s'.live.Perm (users es')
  prologue : s'.heap.prologue = s.heap.prologue
  settings : s'.heap.settings = s.heap.settings
  start : s'.heap.region.start = s.heap.region.start
  capacity : s'.heap.region.capacity = s.heap.region.capacity
  frontier : s.heap.region.frontier.toNat ≤ s'.heap.region.frontier.toNat
  kept : ∀ e ∈ es, e.allocated = true → e.block ∉ r.passed.toList → e ∈ es'
  frame : s.heap.memory.SameOff (s.heap.openTo es r.passed.toList s'.heap ∪ r.written)
    s'.heap.memory

section

variable {base : Nat} {s s' : Session} {es es' : List Extent} {xs xs' : List Block}
  {r : Request} {b : Block}

/-- A step of the heap that gives up only what a request passes takes the session on. -/
theorem Continues.of_advances (order : s'.heap.InOrder es' xs')
    (step : s.heap.Advances es r.passed.toList s'.heap es') (live : s'.live.Perm (users es'))
    : s.Continues es r s' es' xs' where
  order := order
  live := live
  prologue := step.prologue
  settings := step.settings
  start := step.start
  capacity := step.capacity
  frontier := step.frontier
  kept := step.kept
  frame := step.frame.mono Set.subset_union_left

/-- A session that is taken on from a coherent one is coherent. -/
theorem Continues.coherent (taken : s.Continues es r s' es' xs') (h : s.Coherent base es xs)
    : s'.Coherent base es' xs' where
  low := by rw [taken.prologue, h.low]
  order := taken.order
  live := taken.live

namespace Coherent

/-- Allocating takes a session on, whether it succeeds or not. -/
theorem grants (h : s.Coherent base es xs) {bytes : Nat}
    (grant : s.heap.Grants es bytes (s.reply r) (s.next r).heap es' xs')
    (nothing : r.passed = none) (held : (s.next r).live = Heap.granted (s.reply r) ++ s.live)
    : s.Continues es r (s.next r) es' xs' := by
  apply Continues.of_advances grant.order
  · rw [nothing]
    exact grant.step
  · rw [held]
    exact (h.live.append_left _).trans grant.users.symm

/-- Freeing a block that is held takes a session on. -/
theorem frees (h : s.Coherent base es xs) (hb : b ∈ s.live) (passed : r.passed = some b)
    (freed : (s.next r).heap = s.heap.free b) (held : (s.next r).live = s.live.erase b)
    : ∃ es' xs', s.Continues es r (s.next r) es' xs' := by
  obtain ⟨es', xs', order, step, gone⟩ := h.order.free (h.live.mem_iff.mp hb)
  rw [← freed] at order step
  refine ⟨es', xs', .of_advances order ?_ ?_⟩
  · rw [passed]
    exact step
  · rw [held]
    exact (h.live.erase b).trans gone.symm

/-- Resizing a block takes a session on, whether it succeeds or not. -/
theorem resize (h : s.Coherent base es xs) (hb : b ∈ s.live) {bytes : Word} (hbytes : bytes ≠ 0)
    : ∃ es' xs', s.Continues es (.resize (some b) bytes) (s.next (.resize (some b) bytes))
        es' xs' := by
  have held : (s.next (.resize (some b) bytes)).live
      = (Request.resize (some b) bytes).holdings (s.heap.resize (some b) bytes).1 s.live := rfl
  rcases h.order.resize (h.live.mem_iff.mp hb) hbytes with
    ⟨e, failed, order, step⟩ | ⟨target, wanted, es', xs', resized, -, resizes⟩
  · rw [failed] at held
    refine ⟨es, xs, .of_advances order (step.narrow (by simp)) ?_⟩
    rw [held]
    exact h.live
  · rw [resized] at held
    refine ⟨es', xs', .of_advances resizes.order resizes.step ?_⟩
    rw [held]
    simp only [Request.holdings, if_neg hbytes, Heap.granted, List.singleton_append]
    exact ((h.live.erase b).cons target).trans resizes.users.symm

/-- What a client writes into a block that it holds takes a session on. -/
theorem write (h : s.Coherent base es xs) {offset : Nat} {bytes : List UInt8}
    (permits : s.Permits (.write b offset bytes))
    : s.Continues es (.write b offset bytes) (s.next (.write b offset bytes)) es xs := by
  obtain ⟨hb, inside⟩ := permits
  obtain ⟨e, he, rfl, used⟩ := mem_users.mp (h.live.mem_iff.mp hb)
  have hbounds := h.order.bounds he
  have limit := s.heap.region.frontier.toNat_lt_size
  rw [h.order.toNat_usableSize he] at inside
  simp only [Extent.stop, Extent.start] at hbounds
  have address : (e.block.address + .ofNat offset).toNat = e.block.address.toNat + offset := by
    rw [UInt64.toNat_add, UInt64.toNat_ofNat_of_lt' (by omega)]
    simp only [UInt64.size] at limit
    exact Nat.mod_eq_of_lt (by omega)
  have same := s.heap.memory.sameOff_writeBytes (e.block.address + .ofNat offset) bytes
    (by rw [address]; omega)
  rw [address] at same
  obtain ⟨order, -⟩ := h.order.scribble he used (same.mono (by
    intro x hx
    simp only [Extent.payload, Extent.stop, Extent.start, Word.mem_span] at hx ⊢
    omega))
  exact ⟨order, h.live, rfl, rfl, rfl, rfl, le_rfl, fun f hf _ _ => hf,
    same.mono Set.subset_union_right⟩

/-- Every legal request takes a session on. -/
theorem next (h : s.Coherent base es xs) (permits : s.Permits r)
    : ∃ es' xs', s.Continues es r (s.next r) es' xs' := by
  match r with
  | .allocate bytes =>
      obtain ⟨es', xs', grant⟩ := h.order.allocate bytes
      exact ⟨es', xs', h.grants grant rfl rfl⟩
  | .allocateZeroed count size =>
      obtain ⟨es', xs', grant⟩ := h.order.allocateZeroed count size
      exact ⟨es', xs', h.grants grant rfl rfl⟩
  | .free b => exact h.frees permits rfl rfl rfl
  | .resize none bytes =>
      obtain ⟨es', xs', grant⟩ := h.order.allocate bytes
      exact ⟨es', xs', h.grants grant rfl rfl⟩
  | .resize (some b) bytes =>
      by_cases zero : bytes = 0
      · subst zero
        exact h.frees permits rfl rfl rfl
      · exact h.resize permits zero
  | .write b offset bytes => exact ⟨es, xs, h.write permits⟩

/-- Every legal run of requests leaves a session coherent, by induction over the requests. -/
theorem run {rs : List Request} (h : s.Coherent base es xs) (legal : s.Legal rs)
    : ∃ es' xs', (s.run rs).Coherent base es' xs' := by
  induction rs generalizing s es xs with
  | nil => exact ⟨es, xs, h⟩
  | cons r rest ih =>
      obtain ⟨es₁, xs₁, taken⟩ := h.next legal.1
      exact ih (taken.coherent h) legal.2

/-- A legal run goes on in the region where it began, and takes nothing that was handed out back.
-/
theorem region_run {rs : List Request} (h : s.Coherent base es xs) (legal : s.Legal rs)
    : (s.run rs).heap.region.start = s.heap.region.start
      ∧ s.heap.region.frontier.toNat ≤ (s.run rs).heap.region.frontier.toNat := by
  induction rs generalizing s es xs with
  | nil => exact ⟨rfl, le_rfl⟩
  | cons r rest ih =>
      obtain ⟨es₁, xs₁, taken⟩ := h.next legal.1
      obtain ⟨start, frontier⟩ := ih (taken.coherent h) legal.2
      exact ⟨start.trans taken.start, taken.frontier.trans frontier⟩

end Coherent

end

/-- A session with a new heap is coherent above what its region had handed out before. -/
theorem Begins.coherent {chunk : Word} {region : Region} {memory : Memory}
    (begins : Begins chunk region memory)
    : ∃ es xs, (start chunk region memory).Coherent region.frontier.toNat es xs := by
  have room := Settings.toNat_ofChunkSize begins.chunk_le
  obtain ⟨order, prologue, -⟩ := Heap.inOrder_create begins.sane room begins.created
  refine ⟨_, _, ⟨?_, order, by simp [start, users_cons]⟩⟩
  have floor := order.settled.floor
  have limit := region.frontier.toNat_lt_size
  have low : (region.frontier + (Word.width + Word.width)).toNat
      = (region.frontier.toNat + 16) % UInt64.size := UInt64.toNat_add _ _
  rw [prologue] at floor
  simp only at floor
  rw [low] at floor
  simp only [UInt64.size] at floor limit
  rw [start, prologue]
  simp only
  rw [low]
  exact Nat.mod_eq_of_lt (by simp only [UInt64.size]; omega)

/-- So is every session that a legal run leads to. -/
theorem Begins.coherent_run {chunk : Word} {region : Region} {memory : Memory}
    {rs : List Request} (begins : Begins chunk region memory)
    (legal : (start chunk region memory).Legal rs)
    : ∃ es xs, ((start chunk region memory).run rs).Coherent region.frontier.toNat es xs := by
  obtain ⟨es, xs, first⟩ := begins.coherent
  exact first.run legal

-----------------------------------------------------------------------------------------
-- A short session
-----------------------------------------------------------------------------------------

/-- A region of which some bytes are handed out already. -/
def sampleRegion : Region := ⟨0x1000, 24, 4096⟩

/-- A memory that is not blank. -/
def sampleMemory : Memory := .untouched fun a => a.toUInt8

/-- Requests that split blocks, write into one, ask for too much, merge, and move contents down. -/
def sampleRequests : List Request := [
  .allocate 40,
  .allocateZeroed 3 20,
  .allocate 30,
  .write ⟨4216⟩ 1 [1, 2, 3],
  .allocate 5000,
  .free ⟨4152⟩,
  .resize (some ⟨4216⟩) 100
]

/-- The sample session can begin. -/
theorem begins_sample : Begins 256 sampleRegion sampleMemory :=
  ⟨by decide, ⟨by decide, by decide⟩, by decide +kernel⟩

/-- The sample requests are legal. -/
theorem legal_sample : (start 256 sampleRegion sampleMemory).Legal sampleRequests := by
  decide +kernel

/-- Two blocks are live after the sample session. -/
theorem live_sample
    : ((start 256 sampleRegion sampleMemory).run sampleRequests).live = [⟨4152⟩, ⟨4296⟩] := by
  decide +kernel

/-- They are followed by what is left over of the chunk. -/
theorem blocks_sample
    : ((start 256 sampleRegion sampleMemory).run sampleRequests).heap.blocks
      = [⟨⟨4152⟩, ⟨144, by decide⟩, true⟩, ⟨⟨4296⟩, ⟨48, by decide⟩, true⟩,
          ⟨⟨4344⟩, ⟨64, by decide⟩, false⟩] := by
  decide +kernel

end Session

end BoundaryTag
