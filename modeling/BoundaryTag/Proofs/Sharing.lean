import BoundaryTag.Proofs.Founding
import BoundaryTag.Proofs.Refusals

/-! Sharing a region with somebody else. A heap looks at the end of its region only where it has to
grow, so bytes that are handed out to others behind its back make no difference as long as it gets
by with what it has. An audit sees them: the heap's own end, short of the end of the region, is
then the one thing that it finds wrong.
-/

namespace BoundaryTag

-----------------------------------------------------------------------------------------
-- Requests that a heap meets from what it has
-----------------------------------------------------------------------------------------

namespace Heap

/-- Two heaps have the same memory, free list, low end and settings. What their regions have handed
out may differ.
-/
structure Parallel (h k : Heap) : Prop where
  pool : h.toPool = k.toPool
  prologue : h.prologue = k.prologue
  settings : h.settings = k.settings

/-- An operation makes do with what a heap has: its region hands out nothing for it, and is not
asked in vain.
-/
structure MakesDo {α : Type} (h : Heap) (outcome : Except Refusal α × Heap) : Prop where
  region : outcome.2.region = h.region
  asks : ∀ increment e, outcome.1 ≠ .error (.noRoomToGrow increment e)

/-- The outcome of an operation on another heap is the same, and makes do with what that has. -/
structure Matches {α : Type} (k : Heap) (outcome outcome' : Except Refusal α × Heap) : Prop where
  reply : outcome.1 = outcome'.1
  after : outcome.2.Parallel outcome'.2
  makesDo : k.MakesDo outcome'

variable {h k : Heap} {wanted : Size}

/-- A reply other than that there is no room for growing asks nothing of the region. -/
theorem MakesDo.of_ok {α : Type} {reply : α} {h' : Heap} (same : h'.region = h.region)
    : h.MakesDo (.ok reply, h') :=
  ⟨same, by simp⟩

/-- A request that is too large asks nothing of the region. -/
theorem MakesDo.of_tooLarge {α : Type} (h : Heap) (bytes : Word)
    : h.MakesDo ((.error (.tooLarge bytes), h) : Except Refusal α × Heap) :=
  ⟨rfl, by simp⟩

instance {α : Type} (h : Heap) (outcome : Except Refusal α × Heap)
    : Decidable (h.MakesDo outcome) :=
  match outcome with
  | (.error (.noRoomToGrow increment e), _) => isFalse fun does => does.asks increment e rfl
  | (.error (.noRoomToStart _), h') | (.error (.tooLarge _), h') =>
    decidable_of_iff (h'.region = h.region) ⟨fun same => ⟨same, by simp⟩, (·.region)⟩
  | (.ok _, h') => decidable_of_iff (h'.region = h.region) ⟨.of_ok, (·.region)⟩

/-- It does not matter whether a block is returned or, perhaps, none. -/
theorem makesDo_map_iff {outcome : Except Refusal Block × Heap}
    : h.MakesDo (outcome.1.map some, outcome.2) ↔ h.MakesDo outcome := by
  constructor
  · rintro ⟨region, asks⟩
    exact ⟨region, fun increment e failed =>
      asks increment e (map_some_eq_error_iff.mpr failed)⟩
  · rintro ⟨region, asks⟩
    exact ⟨region, fun increment e failed =>
      asks increment e (map_some_eq_error_iff.mp failed)⟩

/-- A request for a block makes do with what there is only where a free block has room for it, since
the region hands something out wherever the heap grows.
-/
theorem MakesDo.exists_fit (does : h.MakesDo (h.serve wanted)) (room : 32 ≤ wanted.toNat)
    : ∃ b, h.firstFit? wanted.word = some b := by
  cases fit : h.firstFit? wanted.word with
  | some b => exact ⟨b, rfl⟩
  | none =>
      by_cases short : h.region.available < (h.increment wanted).word
      · rw [serve_eq_of_short fit short] at does
        exact absurd rfl (does.asks _ _)
      · rw [serve_eq_of_growth fit (UInt64.not_lt.mp short)] at does
        have still := congrArg Region.used does.region
        simp only [withPool, region_grown, Region.advance, UInt64.add_eq_left] at still
        have large := room.trans (Size.le_iff.mp (h.le_increment wanted))
        rw [Size.toNat, still] at large
        simp at large

namespace Parallel

/-- Heaps are parallel in either order. -/
theorem symm (same : h.Parallel k) : k.Parallel h :=
  ⟨same.pool.symm, same.prologue.symm, same.settings.symm⟩

/-- Parallel heaps have the same memory. -/
theorem memory (same : h.Parallel k) : h.memory = k.memory := congrArg Pool.memory same.pool

/-- Parallel heaps have the same head of the free list. -/
theorem head (same : h.Parallel k) : h.head = k.head := congrArg Pool.head same.pool

/-- Heaps stay parallel when they note the same event. -/
theorem note (same : h.Parallel k) (event : Event)
    : (h.note event).Parallel (k.note event) :=
  ⟨same.pool, same.prologue, same.settings⟩

/-- Heaps stay parallel over pools that are the same. -/
theorem withPool (same : h.Parallel k) {p q : Pool} (pools : p = q)
    : (h.withPool p).Parallel (k.withPool q) :=
  ⟨pools, same.prologue, same.settings⟩

/-- Heaps stay parallel over memories that are the same. -/
theorem withMemory (same : h.Parallel k) {m m' : Memory} (memories : m = m')
    : Parallel { h with memory := m } { k with memory := m' } :=
  ⟨by simp only [memories, same.head], same.prologue, same.settings⟩

/-- Heaps stay parallel when the same block is freed. -/
theorem free (same : h.Parallel k) (b : Block) : (h.free b).Parallel (k.free b) :=
  same.withPool (by rw [same.pool])

/-- An operation that returns a block without growing has the same outcome in parallel heaps. -/
theorem matches_ok {α : Type} (same : h.Parallel k) {reply : α} {p q : Pool} (pools : p = q)
    : k.Matches (.ok reply, h.withPool p) (.ok reply, k.withPool q) :=
  ⟨rfl, same.withPool pools, .of_ok rfl⟩

/-- A size that one heap makes do for is served by a parallel one in the same way. -/
theorem serve (same : h.Parallel k) (does : h.MakesDo (h.serve wanted))
    (room : 32 ≤ wanted.toNat)
    : k.Matches (h.serve wanted) (k.serve wanted) := by
  obtain ⟨b, fit⟩ := does.exists_fit room
  have fit' := fit
  rw [same.pool] at fit'
  rw [serve_eq_of_fit fit, serve_eq_of_fit fit']
  exact same.matches_ok (by rw [same.pool])

/-- A request for bytes that one heap makes do for is answered by a parallel one in the same way. -/
theorem allocate (same : h.Parallel k) {bytes : Word} (does : h.MakesDo (h.allocate bytes))
    : k.Matches (h.allocate bytes) (k.allocate bytes) := by
  by_cases zero : bytes = 0
  · simp only [Heap.allocate, zero, if_true]
    exact ⟨rfl, same, .of_ok rfl⟩
  · cases size : Size.forRequest? bytes with
    | none =>
        simp only [Heap.allocate, zero, if_false, size]
        exact ⟨rfl, same, .of_tooLarge k bytes⟩
    | some wanted =>
        simp only [Heap.allocate, zero, if_false, size] at does ⊢
        obtain ⟨reply, after, does'⟩ :=
          same.serve (makesDo_map_iff.mp does) (Size.room_of_forRequest? size).1
        exact ⟨congrArg (Except.map some) reply, after, makesDo_map_iff.mpr does'⟩

/-- So is a request for cleared elements. -/
theorem allocateZeroed (same : h.Parallel k) {count size : Word}
    (does : h.MakesDo (h.allocateZeroed count size))
    : k.Matches (h.allocateZeroed count size) (k.allocateZeroed count size) := by
  cases product : Word.mul? count size with
  | none =>
      simp only [Heap.allocateZeroed, product]
      exact ⟨rfl, same, .of_tooLarge k _⟩
  | some total =>
      have met : h.MakesDo (h.allocate total) → k.Matches (h.allocate total) (k.allocate total) :=
        same.allocate
      obtain ⟨reply, h', outcome⟩ : ∃ reply h', h.allocate total = (reply, h') := ⟨_, _, rfl⟩
      obtain ⟨reply', k', outcome'⟩ : ∃ reply' k', k.allocate total = (reply', k') := ⟨_, _, rfl⟩
      simp only [Heap.allocateZeroed, product, outcome, outcome'] at does ⊢
      rw [outcome, outcome'] at met
      cases reply with
      | error e =>
          obtain ⟨rfl, after, does'⟩ := met does
          exact ⟨rfl, after, does'⟩
      | ok b? =>
          cases b? with
          | none =>
              obtain ⟨rfl, after, does'⟩ := met does
              exact ⟨rfl, after, does'⟩
          | some b =>
              obtain ⟨rfl, after, does'⟩ := met (.of_ok does.region)
              exact ⟨rfl, after.withMemory (by rw [after.memory]), .of_ok does'.region⟩

/-- So is moving a block away. -/
theorem moveAway (same : h.Parallel k) {b : Block} {kept : Word}
    (does : h.MakesDo (h.moveAway b wanted kept)) (room : 32 ≤ wanted.toNat)
    : k.Matches (h.moveAway b wanted kept) (k.moveAway b wanted kept) := by
  have met : h.MakesDo (h.serve wanted) → 32 ≤ wanted.toNat →
      k.Matches (h.serve wanted) (k.serve wanted) :=
    same.serve
  obtain ⟨result, h', outcome⟩ : ∃ result h', h.serve wanted = (result, h') := ⟨_, _, rfl⟩
  obtain ⟨result', k', outcome'⟩ : ∃ result' k', k.serve wanted = (result', k') := ⟨_, _, rfl⟩
  simp only [Heap.moveAway, outcome, outcome'] at does ⊢
  rw [outcome, outcome'] at met
  cases result with
  | error e =>
      obtain ⟨rfl, after, does'⟩ := met does room
      exact ⟨rfl, after, does'⟩
  | ok target =>
      have still := does.region
      simp only [region_free, Heap.withPool, region_note] at still
      obtain ⟨rfl, after, does'⟩ := met (.of_ok still) room
      have noted := after.note (.moving b target kept)
      refine ⟨rfl, (noted.withPool (by rw [noted.pool])).free b, .of_ok ?_⟩
      simp only [region_free, Heap.withPool, region_note]
      exact does'.region

/-- So is carrying out a plan. -/
theorem carryOut (same : h.Parallel k) {plan : Plan} {b : Block} {kept : Word}
    (does : h.MakesDo (h.carryOut plan b wanted kept)) (room : 32 ≤ wanted.toNat)
    : k.Matches (h.carryOut plan b wanted kept) (k.carryOut plan b wanted kept) := by
  have pool := same.pool
  cases plan with
  | moveAway => exact same.moveAway does room
  | stay | growDown below | growUp above | growBothWays below above =>
      simp only [Heap.carryOut, pool]
      exact same.matches_ok rfl

/-- So is a request for another size. -/
theorem resize (same : h.Parallel k) {b? : Option Block} {bytes : Word}
    (does : h.MakesDo (h.resize b? bytes))
    : k.Matches (h.resize b? bytes) (k.resize b? bytes) := by
  cases b? with
  | none => exact same.allocate does
  | some b =>
      by_cases zero : bytes = 0
      · simp only [Heap.resize, zero, if_true]
        exact ⟨rfl, same.free b, .of_ok (region_free k b)⟩
      · cases size : Size.forRequest? bytes with
        | none =>
            rw [resize_of_none zero size, resize_of_none zero size]
            exact ⟨rfl, same, .of_tooLarge k bytes⟩
        | some wanted =>
            have kept : h.kept b bytes = k.kept b bytes := by
              rw [Heap.kept, Heap.kept, usableSize, usableSize, same.memory]
            rw [resize_of_some zero size] at does ⊢
            rw [resize_of_some zero size]
            rw [kept, same.memory] at does ⊢
            have noted := same.note (.resizing b wanted (Plan.choose k.memory b wanted))
            obtain ⟨region, asks⟩ := makesDo_map_iff.mp does
            obtain ⟨reply, after, region', asks'⟩ :=
              noted.carryOut ⟨region, asks⟩ (Size.room_of_forRequest? size).1
            exact ⟨congrArg (Except.map some) reply, after,
              makesDo_map_iff.mpr ⟨region', asks'⟩⟩

/-- A request that one heap meets from what it has is met alike by a parallel heap. -/
theorem answer (same : h.Parallel k) {r : Request} (does : h.MakesDo (r.answer h))
    : k.Matches (r.answer h) (r.answer k) := by
  cases r with
  | allocate bytes => exact same.allocate does
  | allocateZeroed count size => exact same.allocateZeroed does
  | free b => exact ⟨rfl, same.free b, .of_ok (region_free k b)⟩
  | resize b? bytes => exact same.resize does
  | write b offset bytes => exact ⟨rfl, same.withMemory (by rw [same.memory]), .of_ok rfl⟩

/-- Parallel heaps have the same blocks, by address and in list order. -/
theorem blocks_eq (same : h.Parallel k) : h.blocks = k.blocks ∧ h.freeBlocks = k.freeBlocks := by
  rw [blocks, blocks, freeBlocks, freeBlocks, same.pool, same.prologue]
  exact ⟨rfl, rfl⟩

/-- The figures of parallel heaps are the same but for what their regions have handed out. -/
theorem usage_eq (same : h.Parallel k)
    : k.usage = { h.usage with heapSize := k.region.used } := by
  simp only [usage, same.blocks_eq.1]

end Parallel

end Heap

-----------------------------------------------------------------------------------------
-- Sessions that make do
-----------------------------------------------------------------------------------------

namespace Session

/-- Two sessions have parallel heaps, and clients hold the same blocks. -/
structure Parallel (s t : Session) : Prop where
  heap : s.heap.Parallel t.heap
  live : s.live = t.live

/-- Each of some requests is met from what the heap has when its turn comes. -/
def MakesDo (s : Session) : List Request → Prop
  | [] => True
  | r :: rs => s.heap.MakesDo (r.answer s.heap) ∧ (s.next r).MakesDo rs

instance decidableMakesDo (s : Session) : (rs : List Request) → Decidable (s.MakesDo rs)
  | [] => inferInstanceAs (Decidable True)
  | r :: rs =>
    have := decidableMakesDo (s.next r) rs
    inferInstanceAs (Decidable (s.heap.MakesDo (r.answer s.heap) ∧ (s.next r).MakesDo rs))

variable {s t : Session} {r : Request} {rs : List Request}

/-- Sessions are parallel in either order. -/
theorem Parallel.symm (same : s.Parallel t) : t.Parallel s := ⟨same.heap.symm, same.live.symm⟩

/-- The same requests are legal in parallel sessions. -/
theorem Parallel.permits (same : s.Parallel t) (permits : s.Permits r) : t.Permits r := by
  have live := same.live
  match r with
  | .allocate _ | .allocateZeroed _ _ | .resize none _ => trivial
  | .free b | .resize (some b) _ =>
      have held : b ∈ s.live := permits
      rwa [live] at held
  | .write b offset bytes =>
      obtain ⟨held, inside⟩ := permits
      rw [live] at held
      rw [Heap.usableSize, same.heap.memory] at inside
      exact ⟨held, inside⟩

/-- A request that is met from what there is leaves parallel sessions parallel. -/
theorem Parallel.next (same : s.Parallel t) (does : s.heap.MakesDo (r.answer s.heap))
    : (s.next r).Parallel (t.next r) := by
  obtain ⟨reply, after, -⟩ := same.heap.answer does
  refine ⟨after, ?_⟩
  rw [Session.next, Session.next, Session.reply, Session.reply, reply, same.live]

/-- A run that makes do leaves the region as it was. -/
theorem MakesDo.region_run (does : s.MakesDo rs) : (s.run rs).heap.region = s.heap.region := by
  induction rs generalizing s with
  | nil => rfl
  | cons r rest ih => exact (ih does.2).trans does.1.region

/-- A legal run that makes do is one in every parallel session, has the same replies there and
leaves the sessions parallel, by induction over the requests.
-/
theorem Parallel.run (same : s.Parallel t) (legal : s.Legal rs) (does : s.MakesDo rs)
    : t.Legal rs ∧ t.MakesDo rs ∧ s.replies rs = t.replies rs
      ∧ (s.run rs).Parallel (t.run rs) := by
  induction rs generalizing s t with
  | nil => exact ⟨trivial, trivial, rfl, same⟩
  | cons r rest ih =>
      obtain ⟨reply, -, does'⟩ := same.heap.answer does.1
      obtain ⟨legal', later, replies, after⟩ := ih (same.next does.1) legal.2 does.2
      refine ⟨⟨same.permits legal.1, legal'⟩, ⟨does', later⟩, ?_, after⟩
      rw [Session.replies, Session.replies, Session.reply, Session.reply, reply, replies]

end Session

-----------------------------------------------------------------------------------------
-- An audit that goes on behind the end of the heap
-----------------------------------------------------------------------------------------

namespace Audit

variable {m : Memory} {r r' : Region} {top b : Block} {before : Link} {bs xs passed : List Block}
  {heapEnd : Word} {n : Nat}

/-- What lies below one end lies below a higher one. -/
theorem inside_mono (higher : top.address ≤ heapEnd) (within : inside m top.address b = true)
    : inside m heapEnd b = true := by
  simp only [inside, Bool.and_eq_true, decide_eq_true_eq] at within ⊢
  obtain ⟨⟨low, sized⟩, reach⟩ := within
  exact ⟨⟨UInt64.le_trans low higher, sized⟩, UInt64.le_trans reach higher⟩

/-- The walk by address stops at a block without a size, wherever the heap ends. -/
theorem inside_of_empty (none : b.size m = Size.zero) : inside m heapEnd b = false := by
  simp [inside, none]

/-- A walk by address that stops at a block without a size comes to the same blocks if the end is
moved up.
-/
theorem blockTrail_beyond (higher : top.address ≤ heapEnd)
    (stops : ∀ c ∈ blockTrail m top.address n b,
      inside m top.address c = true ∨ c.size m = Size.zero)
    : blockTrail m heapEnd n b = blockTrail m top.address n b := by
  induction n generalizing b with
  | zero => rfl
  | succ n ih =>
      rcases stops b (by simp [blockTrail]) with within | none
      · rw [blockTrail, if_pos within] at stops
        rw [blockTrail, blockTrail, if_pos within, if_pos (inside_mono higher within),
          ih fun c hc => stops c (List.mem_cons_of_mem b hc)]
      · simp only [blockTrail, inside_of_empty none, Bool.false_eq_true, if_false]

/-- Where nothing is wrong with a trail up to the end of the heap, moving the end up makes the last
header stand in the middle of the region, and nothing else is wrong.
-/
theorem trailFindings_beyond (beyond : top.address < heapEnd) (none : top.size m = Size.zero)
    (within : ∀ b ∈ bs, inside m top.address b = true)
    (clean : trailFindings m top.address before (bs ++ [top]) = [])
    : trailFindings m heapEnd before (bs ++ [top]) = [.badEpilogue top (top.tag m)] := by
  induction bs generalizing before with
  | nil =>
      have low : ¬ heapEnd < top.address := UInt64.lt_asymm beyond
      have elsewhere : top.address ≠ heapEnd := UInt64.ne_of_lt beyond
      simp [trailFindings, blockFindings, low, none, elsewhere]
  | cons b rest ih =>
      rw [List.cons_append, trailFindings, List.append_eq_nil_iff] at clean
      have here := within b (by simp)
      have here' : inside m (Block.mk heapEnd).address b = true :=
        inside_mono (UInt64.le_of_lt beyond) here
      have faults := clean.1
      rw [blockFindings_of_inside here, ← blockFindings_of_inside here'] at faults
      rw [List.cons_append, trailFindings, faults,
        ih (fun c hc => within c (List.mem_cons_of_mem b hc)) clean.2, List.nil_append]

/-- Moving the end up makes no other blocks free. -/
theorem freeBlocks_beyond (higher : top.address ≤ heapEnd) (none : top.size m = Size.zero)
    (within : ∀ b ∈ bs, inside m top.address b = true)
    : freeBlocks m heapEnd (bs ++ [top]) = freeBlocks m top.address (bs ++ [top]) := by
  apply List.filter_congr
  intro c hc
  rcases List.mem_append.mp hc with hc | hc
  · rw [within c hc, inside_mono higher (within c hc)]
  · rw [List.mem_singleton.mp hc, inside_of_empty none, inside_of_empty none]

/-- Members that lie right in a region do so once that has handed out more. -/
theorem Threaded.beyond (h : Threaded m r passed xs) (start : r'.start = r.start)
    (higher : r.frontier ≤ r'.frontier)
    : Threaded m r' passed xs where
  linked := h.linked
  distinct := h.distinct
  holds := by
    intro b hb
    have holds := h.holds b hb
    simp only [holdsLinks, Bool.and_eq_true, decide_eq_true_eq] at holds ⊢
    rw [start]
    exact ⟨holds.1, UInt64.le_trans holds.2 higher⟩
  free := h.free

end Audit

namespace Heap

variable {h k : Heap} {es : List Extent} {xs : List Block}

/-- If the region of a heap in order has handed out bytes behind its end, an audit finds that end
there and nothing else.
-/
theorem InOrder.violations_beyond (ord : h.InOrder es xs)
    (low : h.region.start.toNat + 8 ≤ h.prologue.address.toNat)
    (aligned : h.prologue.address.toNat % 16 = 0) (same : h.Parallel k)
    (start : k.region.start = h.region.start) (beyond : h.region.frontier < k.region.frontier)
    : k.violations = [.badEpilogue ⟨h.region.frontier⟩ epilogueTag] := by
  have placed := ord.placed low aligned
  have intact := ord.intact low aligned
  have beyond : (Block.mk h.region.frontier).address < k.region.frontier := beyond
  have higher := UInt64.le_of_lt beyond
  have floor : 8 ≤ h.prologue.address.toNat + 16 := by omega
  have none := ord.settled.size_top
  have tag := ord.settled.ceiling
  have charted := intact.charted
  have within : ∀ b ∈ es.map (·.block), Audit.inside h.memory h.region.frontier b = true := by
    intro b hb
    obtain ⟨e, he, rfl⟩ := List.mem_map.mp hb
    exact charted.ranged.inside floor he
  have threaded := (intact.threaded placed).beyond start higher
  have prologueIntact : k.prologueIntact = true := by
    rw [prologueIntact_iff, ← same.memory, ← same.prologue]
    exact ⟨intact.header, intact.footer⟩
  have walk := intact.auditedBlocks_eq placed
  rw [auditedBlocks, if_pos intact.prologueIntact] at walk
  have blocks : k.auditedBlocks = es.map (·.block) ++ [⟨h.region.frontier⟩] := by
    rw [auditedBlocks, if_pos prologueIntact, ← same.memory, ← same.prologue, ← walk]
    apply Audit.blockTrail_beyond higher
    intro c hc
    rw [walk] at hc
    rcases List.mem_append.mp hc with hc | hc
    · exact Or.inl (within c hc)
    · exact Or.inr (List.mem_singleton.mp hc ▸ none)
  have members : k.auditedMembers = xs := by
    rw [auditedMembers, ← same.memory, ← same.head, intact.head]
    exact threaded.listTrail_eq (Pool.length_le_walkLimit intact.distinct)
  have clean : Audit.trailFindings h.memory (Block.mk h.region.frontier).address .none
      (es.map (·.block) ++ [⟨h.region.frontier⟩]) = [] :=
    charted.trailFindings_eq floor (by simp)
  have trail := Audit.trailFindings_beyond beyond none within clean
  have free := Audit.freeBlocks_beyond higher none within
  rw [charted.ranged.freeBlocks_eq floor] at free
  have listed : xs.filter (Audit.holdsLinks k.region) = xs := List.filter_eq_self.mpr threaded.holds
  have unlisted : (gaps es).filter (fun b => !xs.contains b) = [] := by
    rw [List.filter_eq_nil_iff]
    intro b hb
    simpa using intact.complete hb
  simp only [violations, prologueIntact, blocks, members, ← same.memory, trail, free, listed,
    unlisted, threaded.listFindings_eq, tag, if_true, List.nil_append, List.append_nil,
    List.map_nil]

/-- Bytes can be handed out to somebody else if the region has them, from its first address that is
not handed out yet.
-/
theorem handOut_eq_ok_iff {bytes address : Word}
    : h.handOut bytes = .ok (address, k)
      ↔ bytes ≤ h.region.available ∧ address = h.region.frontier
        ∧ k = { h with region := h.region.advance bytes } := by
  by_cases enough : bytes ≤ h.region.available
  · have served := Region.handOut_eq_ok_iff.mpr ⟨enough, rfl, rfl⟩
    have result : h.handOut bytes
        = .ok (h.region.frontier, { h with region := h.region.advance bytes }) := by
      rw [handOut, served]
      rfl
    simp [result, enough, eq_comm]
  · have refused := Region.handOut_eq_error_iff.mpr ⟨UInt64.not_le.mp enough, rfl⟩
    have result : h.handOut bytes = .error ⟨bytes, h.region.available⟩ := by
      rw [handOut, refused]
      rfl
    simp [result, enough]

end Heap

-----------------------------------------------------------------------------------------
-- Bytes handed out behind the back of a heap
-----------------------------------------------------------------------------------------

namespace Session

/-- As long as requests can be met from what the heap has, bytes that its region has handed out to
somebody else show in nothing but the size of the heap and the report of an audit.
-/
theorem Coherent.unseen {base : Nat} {s t : Session} {es : List Extent} {xs : List Block}
    {bytes : Word} {later : List Request} (h : s.Coherent base es xs) (aligned : base % 16 = 0)
    (low : s.heap.region.start.toNat ≤ base) (enough : bytes ≤ s.heap.region.available)
    (some : bytes ≠ 0) (same : s.Parallel t)
    (region : t.heap.region = s.heap.region.advance bytes) (legal : s.Legal later)
    (does : s.MakesDo later)
    : (t.run later).heap.usage
          = { (s.run later).heap.usage with
              heapSize := (s.run later).heap.usage.heapSize + bytes }
      ∧ (t.run later).heap.usage.heapSize.toNat
        = (s.run later).heap.usage.heapSize.toNat + bytes.toNat
      ∧ (t.run later).heap.violations
        = [.badEpilogue ⟨s.heap.region.frontier⟩ (Tag.pack Size.zero true)] := by
  obtain ⟨-, does', -, after⟩ := same.run legal does
  obtain ⟨es', xs', last⟩ := h.run legal
  have region₁ := does.region_run
  have region₂ := does'.region_run
  rw [region] at region₂
  have sane := h.order.sane
  have used : (s.run later).heap.usage.heapSize = s.heap.region.used := by
    rw [Heap.usage, region₁]
  have used' : (t.run later).heap.usage.heapSize = s.heap.region.used + bytes := by
    rw [Heap.usage, region₂, Region.advance]
  refine ⟨?_, ?_, ?_⟩
  · rw [after.heap.usage_eq, region₂, used, Region.advance]
  · rw [used, used']
    exact sane.toNat_used_advance enough
  · have prologue := last.low
    have moved := sane.toNat_frontier_advance enough
    have more : bytes.toNat ≠ 0 := fun zero => some (UInt64.toNat_inj.mp zero)
    have found := last.order.violations_beyond (by rw [region₁]; omega) (by omega) after.heap
      (by rw [region₁, region₂, Region.advance])
      (by rw [region₁, region₂, UInt64.lt_iff_toNat_lt]; omega)
    rw [found, region₁, Heap.epilogueTag]

/-- After every legal run of a heap at a multiple of the alignment, somebody else can be handed any
bytes of its region without the heap being told. As long as requests can be met from what the heap
has, which does not depend on those bytes, all goes on as if they had not been handed out: replies,
blocks, free list and memory are the same, and so are all figures but the size of the heap. An audit
finds the old end of the heap where it was, and nothing else.
-/
theorem unseen_of_handOut {chunk : Word} {region : Region} {memory : Memory}
    (begins : Begins chunk region memory) {rs : List Request}
    (legal : (start chunk region memory).Legal rs) (aligned : region.frontier.toNat % 16 = 0)
    {bytes address : Word} (some : bytes ≠ 0) {h : Heap}
    (taken : ((start chunk region memory).run rs).heap.handOut bytes = .ok (address, h))
    (later : List Request)
    : let s := (start chunk region memory).run rs
      let t : Session := ⟨h, s.live⟩
      (s.Legal later ∧ s.MakesDo later ↔ t.Legal later ∧ t.MakesDo later)
      ∧ (s.Legal later → s.MakesDo later →
          let u := (s.run later).heap
          let v := (t.run later).heap
          s.replies later = t.replies later
          ∧ u.blocks = v.blocks
          ∧ u.freeBlocks = v.freeBlocks
          ∧ u.memory = v.memory
          ∧ v.usage = { u.usage with heapSize := u.usage.heapSize + bytes }
          ∧ v.usage.heapSize.toNat = u.usage.heapSize.toNat + bytes.toNat
          ∧ v.violations = [.badEpilogue ⟨s.heap.region.frontier⟩ (Tag.pack Size.zero true)]) := by
  obtain ⟨es₀, xs₀, created⟩ := begins.coherent
  obtain ⟨es, xs, now⟩ := created.run legal
  have start_eq := (created.region_run legal).1.trans (Heap.start_create _ _ _)
  generalize (start chunk region memory).run rs = s at taken now start_eq
  obtain ⟨enough, -, region_eq⟩ := Heap.handOut_eq_ok_iff.mp taken
  have same : s.Parallel ⟨h, s.live⟩ := by
    rw [region_eq]
    exact ⟨⟨rfl, rfl, rfl⟩, rfl⟩
  refine ⟨⟨?_, ?_⟩, ?_⟩
  · rintro ⟨legal', does⟩
    obtain ⟨legal'', does', -⟩ := same.run legal' does
    exact ⟨legal'', does'⟩
  · rintro ⟨legal', does⟩
    obtain ⟨legal'', does', -⟩ := same.symm.run legal' does
    exact ⟨legal'', does'⟩
  · intro legal' does
    obtain ⟨-, -, replies, after⟩ := same.run legal' does
    obtain ⟨blocks, free⟩ := after.heap.blocks_eq
    have frontier := begins.sane.toNat_frontier
    exact ⟨replies, blocks, free, after.heap.memory,
      now.unseen aligned (by rw [start_eq]; omega) enough some same (by rw [region_eq]) legal' does⟩

/-- Eight bytes behind a heap of two blocks, and three requests that need no more room. -/
theorem unseen_eight
    : let s := (start 256 ⟨0x1000, 16, 4096⟩ sampleMemory).run [.allocate 40, .allocate 50]
      let later : List Request := [.free ⟨4144⟩, .allocate 20, .resize (some ⟨4208⟩) 90]
      Begins 256 ⟨0x1000, 16, 4096⟩ sampleMemory
      ∧ (start 256 ⟨0x1000, 16, 4096⟩ sampleMemory).Legal [.allocate 40, .allocate 50]
      ∧ (⟨0x1000, 16, 4096⟩ : Region).frontier.toNat % 16 = 0
      ∧ s.Legal later
      ∧ s.MakesDo later
      ∧ ∃ h, s.heap.handOut 8 = .ok (4400, h)
        ∧ (Session.run ⟨h, s.live⟩ later).heap.violations
          = [.badEpilogue ⟨4400⟩ (Tag.pack Size.zero true)] := by
  dsimp only
  have begins : Begins 256 ⟨0x1000, 16, 4096⟩ sampleMemory :=
    ⟨by decide, ⟨by decide, by decide⟩, by decide +kernel⟩
  have legal : (start 256 ⟨0x1000, 16, 4096⟩ sampleMemory).Legal
      [.allocate 40, .allocate 50] := by
    decide +kernel
  have aligned : (⟨0x1000, 16, 4096⟩ : Region).frontier.toNat % 16 = 0 := by decide
  generalize hs : (start 256 ⟨0x1000, 16, 4096⟩ sampleMemory).run [.allocate 40, .allocate 50] = s
  have frontier : s.heap.region.frontier = 4400 := by
    rw [← hs]
    decide +kernel
  have enough : 8 ≤ s.heap.region.available := by
    rw [← hs]
    decide +kernel
  have legal' : s.Legal [.free ⟨4144⟩, .allocate 20, .resize (some ⟨4208⟩) 90] := by
    rw [← hs]
    decide +kernel
  have does : s.MakesDo [.free ⟨4144⟩, .allocate 20, .resize (some ⟨4208⟩) 90] := by
    rw [← hs]
    decide +kernel
  have taken : s.heap.handOut 8
      = .ok (4400, { s.heap with region := s.heap.region.advance 8 }) :=
    Heap.handOut_eq_ok_iff.mpr ⟨enough, frontier.symm, rfl⟩
  have nonzero : (8 : Word) ≠ 0 := by decide
  obtain ⟨-, same⟩ := unseen_of_handOut begins legal aligned nonzero (hs ▸ taken)
    [.free ⟨4144⟩, .allocate 20, .resize (some ⟨4208⟩) 90]
  rw [hs] at same
  obtain ⟨-, -, -, -, -, -, found⟩ := same legal' does
  rw [frontier] at found
  exact ⟨begins, legal, aligned, legal', does, _, taken, found⟩

end Session

end BoundaryTag
