import BoundaryTag.Proofs.Founding
import BoundaryTag.Proofs.Sessions
import BoundaryTag.Proofs.Twins

/-! What a heap decides depends neither on where it is nor on what its memory holds. Two heaps that
are set up with as much left in their regions, and are then asked for the same, give the same
replies and have the same blocks as seen from where each of them begins. Clients name blocks by the
calls that returned them, and may write what they like into those they hold.
-/

namespace BoundaryTag

-----------------------------------------------------------------------------------------
-- Naming blocks by the calls that returned them
-----------------------------------------------------------------------------------------

/-- What a client asks of a heap, naming a block by the step at which it was returned. -/
inductive Call
  | allocate (bytes : Word)
  | allocateZeroed (count size : Word)
  | free (step : Nat)
  | resize (step? : Option Nat) (bytes : Word)
deriving DecidableEq

namespace Call

/-- What a step has returned, unless it was refused. -/
def returned (past : List (Except Refusal Link)) (step : Nat) : Option Link :=
  past[step]?.bind Except.toOption

/-- The request that a call comes to after the given replies. A call that names what was not
returned comes to none, and neither does one that frees no block.
-/
def request? (past : List (Except Refusal Link)) : Call → Option Request
  | allocate bytes => some (.allocate bytes)
  | allocateZeroed count size => some (.allocateZeroed count size)
  | free step => (returned past step).join.map .free
  | resize none bytes => some (.resize none bytes)
  | resize (some step) bytes => (returned past step).map (.resize · bytes)

end Call

/-- A request about blocks that are moved by a distance. -/
def Request.shift (d : Word) : Request → Request
  | allocate bytes => allocate bytes
  | allocateZeroed count size => allocateZeroed count size
  | free b => free (b.offset d)
  | resize b? bytes => resize (b?.map (·.offset d)) bytes
  | write b offset bytes => write (b.offset d) offset bytes

/-- A reply about blocks that are moved by a distance. -/
def Heap.shiftReply (d : Word) : Except Refusal Link → Except Refusal Link :=
  Except.map (Option.map (·.offset d))

section

variable {d : Word}

/-- What a step has returned is moved along with the replies. -/
theorem Call.returned_shift (past : List (Except Refusal Link)) (step : Nat)
    : returned (past.map (Heap.shiftReply d)) step
      = (returned past step).map (Option.map (·.offset d)) := by
  rw [returned, returned, List.getElem?_map]
  cases past[step]? with
  | none => rfl
  | some reply => cases reply <;> rfl

/-- Behind replies about moved blocks, a call comes to a request about moved blocks. -/
theorem Call.request?_shift (past : List (Except Refusal Link)) (c : Call)
    : c.request? (past.map (Heap.shiftReply d)) = (c.request? past).map (.shift d) := by
  match c with
  | allocate _ | allocateZeroed _ _ | resize none _ => rfl
  | free step =>
      simp only [request?, returned_shift]
      match returned past step with
      | none | some none | some (some b) => rfl
  | resize (some step) bytes =>
      simp only [request?, returned_shift]
      cases returned past step <;> rfl

/-- What a reply hands out is moved along with it. -/
theorem Heap.granted_shift (reply : Except Refusal Link)
    : granted (shiftReply d reply) = (granted reply).map (·.offset d) := by
  match reply with
  | .error _ | .ok none | .ok (some _) => rfl

/-- Clients that held moved blocks hold moved blocks afterwards. -/
theorem Request.holdings_shift (reply : Except Refusal Link) (live : List Block) (r : Request)
    : (r.shift d).holdings (Heap.shiftReply d reply) (live.map (·.offset d))
      = (r.holdings reply live).map (·.offset d) := by
  match r with
  | .allocate _ | .allocateZeroed _ _ | .write _ _ _ | .resize none _ =>
      simp [Request.shift, holdings, Heap.granted_shift]
  | .free b => exact map_offset_erase d live b
  | .resize (some b) bytes =>
      cases reply with
      | error e => rfl
      | ok b? =>
          have granted := Heap.granted_shift (d := d) (.ok b?)
          by_cases zero : bytes = 0
          · simp [Request.shift, holdings, zero, Heap.shiftReply, Except.map, map_offset_erase]
          · simp only [Heap.shiftReply, Except.map] at granted
            simp [Request.shift, holdings, zero, Heap.shiftReply, Except.map, map_offset_erase,
              granted]

end

-----------------------------------------------------------------------------------------
-- Sessions that are led through the same calls
-----------------------------------------------------------------------------------------

namespace Session

/-- Clients may have written into blocks that they hold. -/
inductive Scribbles : Session → Session → Prop
  | nothing (s : Session) : Scribbles s s
  | more {s t : Session} {b : Block} {offset : Nat} {bytes : List UInt8} (before : Scribbles s t)
    (permits : t.Permits (.write b offset bytes)) : Scribbles s (t.next (.write b offset bytes))

/-- Some calls lead from one session to another, with all replies in the end, given those before:
each of them comes to a legal request when its turn comes, and clients may write in between.
-/
def Leads (past : List (Except Refusal Link)) (s : Session)
    : List Call → List (Except Refusal Link) → Session → Prop
  | [], replies, t => s.Scribbles t ∧ replies = past
  | c :: calls, replies, t => ∃ u r, s.Scribbles u ∧ c.request? past = some r ∧ u.Permits r
    ∧ Leads (past ++ [u.reply r]) (u.next r) calls replies t

/-- Two sessions have twins for heaps, whose blocks clients hold alike. -/
structure Twins (d : Word) (s t : Session) (es : List Extent) (xs : List Block) : Prop where
  heap : s.heap.Twins d t.heap es xs
  live : s.live.Perm (users es)
  live' : t.live = s.live.map (·.offset d)

namespace Twins

variable {d : Word} {s t u v : Session} {es : List Extent} {xs : List Block} {r : Request}
  {b : Block} {offset : Nat} {bytes : List UInt8}

/-- The first of two twin sessions is coherent. -/
theorem coherent (twins : Twins d s t es xs)
    : s.Coherent (s.heap.prologue.address.toNat - 16) es xs where
  low := by
    have floor := twins.heap.order.settled.floor
    omega
  order := twins.heap.order
  live := twins.live

/-- So is the second, with the extents and the list moved. -/
theorem coherent' (twins : Twins d s t es xs)
    : t.Coherent (t.heap.prologue.address.toNat - 16) (es.map (.shift d))
        (xs.map (·.offset d)) where
  low := by
    have floor := twins.heap.order'.settled.floor
    omega
  order := twins.heap.order'
  live := by
    rw [twins.live', users_shift]
    exact twins.live.map _

/-- What clients of the first session write leaves twins. -/
theorem write_left (twins : Twins d s t es xs) (permits : s.Permits (.write b offset bytes))
    : Twins d (s.next (.write b offset bytes)) t es xs where
  heap := twins.heap.within rfl rfl rfl rfl (twins.coherent.write permits).order twins.heap.order'
  live := twins.live
  live' := twins.live'

/-- What clients of the second session write leaves twins. -/
theorem write_right (twins : Twins d s t es xs) (permits : t.Permits (.write b offset bytes))
    : Twins d s (t.next (.write b offset bytes)) es xs where
  heap := twins.heap.within rfl rfl rfl rfl twins.heap.order (twins.coherent'.write permits).order
  live := twins.live
  live' := twins.live'

/-- Whatever the clients of both sessions write, they leave twins. -/
theorem scribbles (twins : Twins d s t es xs) (left : s.Scribbles u) (right : t.Scribbles v)
    : Twins d u v es xs := by
  have first : Twins d u t es xs := by
    induction left with
    | nothing => exact twins
    | more before permits ih => exact ih.write_left permits
  induction right with
  | nothing => exact first
  | more before permits ih => exact ih.write_right permits

/-- What is legal in the first session is so in the second, with the blocks there. -/
theorem permits (twins : Twins d s t es xs) (permits : s.Permits r) : t.Permits (r.shift d) := by
  have held : ∀ b ∈ s.live, b.offset d ∈ t.live := by
    intro b hb
    rw [twins.live']
    exact List.mem_map_of_mem hb
  match r with
  | .allocate _ | .allocateZeroed _ _ | .resize none _ => trivial
  | .free b | .resize (some b) _ => exact held b permits
  | .write b offset bytes =>
      obtain ⟨hb, inside⟩ := permits
      obtain ⟨e, he, rfl, used⟩ := mem_users.mp (twins.live.mem_iff.mp hb)
      refine ⟨held _ hb, ?_⟩
      rw [Heap.usableSize, twins.heap.size_eq he]
      exact inside

/-- Twins answer every legal request alike. -/
theorem answer (twins : Twins d s t es xs) (permits : s.Permits r)
    : Heap.Echoes (Option.map (·.offset d)) d (r.answer s.heap) ((r.shift d).answer t.heap) := by
  match r with
  | .allocate bytes | .resize none bytes => exact twins.heap.allocate bytes
  | .allocateZeroed count size => exact twins.heap.allocateZeroed count size
  | .free b => exact ⟨rfl, twins.heap.free (twins.live.mem_iff.mp permits)⟩
  | .resize (some b) bytes => exact twins.heap.resize (twins.live.mem_iff.mp permits) bytes
  | .write b offset bytes =>
      have written := (twins.write_left permits).write_right (twins.permits permits)
      exact ⟨rfl, es, xs, written.heap⟩

/-- A legal request has the same reply in both sessions and leaves twins. -/
theorem next (twins : Twins d s t es xs) (permits : s.Permits r)
    : t.reply (r.shift d) = Heap.shiftReply d (s.reply r)
      ∧ ∃ es' xs', Twins d (s.next r) (t.next (r.shift d)) es' xs' := by
  obtain ⟨reply, es', xs', heap⟩ := twins.answer permits
  obtain ⟨es'', xs'', taken⟩ := twins.coherent.next permits
  obtain ⟨rfl, rfl⟩ := taken.order.unique heap.order
  have same : t.reply (r.shift d) = Heap.shiftReply d (s.reply r) := reply
  refine ⟨same, _, _, heap, taken.live, ?_⟩
  rw [Session.next, Session.next, same, twins.live']
  exact Request.holdings_shift _ _ _

/-- The same calls lead twins to twins and have the same replies, by induction over the calls. -/
theorem leads {calls : List Call} {past replies replies' : List (Except Refusal Link)}
    (twins : Twins d s t es xs) (led : s.Leads past calls replies u)
    (led' : t.Leads (past.map (Heap.shiftReply d)) calls replies' v)
    : replies' = replies.map (Heap.shiftReply d) ∧ ∃ es' xs', Twins d u v es' xs' := by
  induction calls generalizing s t es xs past with
  | nil =>
      obtain ⟨left, rfl⟩ := led
      obtain ⟨right, rfl⟩ := led'
      exact ⟨rfl, es, xs, twins.scribbles left right⟩
  | cons c calls ih =>
      obtain ⟨s', r, left, asked, permits, rest⟩ := led
      obtain ⟨t', r', right, asked', -, rest'⟩ := led'
      obtain rfl : r.shift d = r' := by
        rw [Call.request?_shift, asked] at asked'
        exact Option.some.inj asked'
      obtain ⟨reply, es₁, xs₁, after⟩ := (twins.scribbles left right).next permits
      apply ih after rest
      rw [List.map_append, List.map_singleton, ← reply]
      exact rest'

/-- Calls that lead somewhere in one session do so in a twin of it. -/
theorem exists_leads {calls : List Call} {past replies : List (Except Refusal Link)}
    (twins : Twins d s t es xs) (led : s.Leads past calls replies u)
    : ∃ replies' v, t.Leads (past.map (Heap.shiftReply d)) calls replies' v := by
  induction calls generalizing s t es xs past with
  | nil => exact ⟨_, t, .nothing t, rfl⟩
  | cons c calls ih =>
      obtain ⟨s', r, left, asked, permits, rest⟩ := led
      have here := twins.scribbles left (.nothing t)
      obtain ⟨reply, es₁, xs₁, after⟩ := here.next permits
      obtain ⟨replies', v, rest'⟩ := ih after rest
      rw [List.map_append, List.map_singleton, ← reply] at rest'
      exact ⟨replies', v, t, r.shift d, .nothing t, by rw [Call.request?_shift, asked]; rfl,
        here.permits permits, rest'⟩

end Twins

end Session

-----------------------------------------------------------------------------------------
-- Setting twins up
-----------------------------------------------------------------------------------------

namespace Heap

variable {settings : Settings} {region region' : Region} {memory memory' : Memory}

/-- A new heap has left what its ends do not take. -/
theorem available_bare (settings : Settings) (region : Region) (memory : Memory)
    : (bare settings region memory).region.available
      = region.available - sentinelSize.word := by
  rw [region_bare, Region.available_advance]

/-- Whether a heap can be set up, and why not, is told by what its region has left. -/
theorem create_congr (room : region'.available = region.available)
    : (create settings region' memory').1 = (create settings region memory).1 := by
  have left := available_bare settings region memory
  have left' := available_bare settings region' memory'
  rw [room, ← left] at left'
  by_cases short : region.available < sentinelSize.word
  · rw [create_eq_of_short short, create_eq_of_short (room ▸ short), room]
  · have enough := UInt64.not_lt.mp short
    have enough' : sentinelSize.word ≤ region'.available := room ▸ enough
    by_cases cramped : (bare settings region memory).region.available < settings.chunkSize.word
    · have cramped' : (bare settings region' memory').region.available < settings.chunkSize.word :=
        left' ▸ cramped
      rw [create_eq_of_cramped enough cramped, create_eq_of_cramped enough' cramped', left']
    · have chunk := UInt64.not_lt.mp cramped
      have chunk' : settings.chunkSize.word ≤ (bare settings region' memory').region.available :=
        left' ▸ chunk
      rw [create_eq_of_room enough chunk, create_eq_of_room enough' chunk']

/-- Heaps that are set up with as much left in their regions are twins. -/
theorem twins_create (memory' : Memory) (sane : region.Sane) (sane' : region'.Sane)
    (chunk : 32 ≤ settings.chunkSize.toNat) (room : region'.available = region.available)
    (created : (create settings region memory).1 = .ok ())
    : ∃ es xs, Twins (region'.frontier - region.frontier) (create settings region memory).2
        (create settings region' memory').2 es xs ∧ users es = [] := by
  have created' : (create settings region' memory').1 = .ok () :=
    (create_congr room).trans created
  obtain ⟨order, -, settings_eq⟩ := inOrder_create sane chunk created
  obtain ⟨order', -, settings_eq'⟩ := inOrder_create sane' chunk created'
  have moved : ∀ n, region'.frontier + n
      = region.frontier + n + (region'.frontier - region.frontier) := by
    intro n
    grind
  refine ⟨_, _, ⟨order, ?_, ?_, ?_, settings_eq'.trans settings_eq.symm⟩, by simp [users_cons]⟩
  · simpa [Extent.shift, Block.offset, Region.frontier_advance, ← moved] using order'
  · simp only [region_create created, region_create created', Region.frontier_advance, moved]
    grind
  · simp only [region_create created, region_create created', Region.available_advance, room]

end Heap

-----------------------------------------------------------------------------------------
-- Two heaps as seen from where they begin
-----------------------------------------------------------------------------------------

/-- How far above an address a block begins. -/
def Block.seenFrom (base : Word) (b : Block) : Word := b.address - base

/-- An extent as seen from an address. -/
def Extent.seenFrom (base : Word) (e : Extent) : Word × Size × Bool :=
  (e.block.seenFrom base, e.size, e.allocated)

/-- A reply as seen from an address: refusals do not depend on it. -/
def Heap.replySeenFrom (base : Word) : Except Refusal Link → Except Refusal (Option Word) :=
  Except.map (Option.map (·.seenFrom base))

section

variable {base base' : Word}

/-- A block that is moved along with the address that it is seen from looks the same. -/
theorem Block.seenFrom_offset (b : Block)
    : (b.offset (base' - base)).seenFrom base' = b.seenFrom base := by
  simp only [seenFrom, offset]
  grind

/-- An extent looks the same from the base that is moved along with it. -/
theorem Extent.seenFrom_shift (e : Extent)
    : (e.shift (base' - base)).seenFrom base' = e.seenFrom base := by
  simp only [seenFrom, shift, Block.seenFrom_offset]

/-- A reply looks the same from the base that is moved along with it. -/
theorem Heap.replySeenFrom_shift (reply : Except Refusal Link)
    : replySeenFrom base' (shiftReply (base' - base) reply) = replySeenFrom base reply := by
  match reply with
  | .error _ | .ok none => rfl
  | .ok (some b) => exact congrArg (fun w => Except.ok (some w)) b.seenFrom_offset

/-- Moved extents look the same from an address that is moved along. -/
theorem Extent.map_seenFrom_shift (es : List Extent)
    : (es.map (shift (base' - base))).map (seenFrom base') = es.map (seenFrom base) := by
  rw [List.map_map]
  exact List.map_congr_left fun e _ => e.seenFrom_shift

end

namespace Session

/-- Two heaps are set up for the same chunk in regions with as much left, wherever these are and
whatever is in memory. Either both fail for the same reason, or both are set up. In the latter case
the same calls can be made of both, and as seen from where each heap begins, they have the same
replies and lead to the same blocks, by address and in list order. It does not matter what clients
write into the blocks that they hold.
-/
theorem independent_of_available {chunk : Word} {region region' : Region}
    (rounds : chunk ≤ Size.greatest.word) (sane : region.Sane) (sane' : region'.Sane)
    (room : region'.available = region.available) (memory memory' : Memory)
    : (Heap.create (.ofChunkSize chunk) region' memory').1
        = (Heap.create (.ofChunkSize chunk) region memory).1
      ∧ ((Heap.create (.ofChunkSize chunk) region memory).1 = .ok () →
          ∀ calls replies s, (start chunk region memory).Leads [] calls replies s →
            (∃ replies' s', (start chunk region' memory').Leads [] calls replies' s')
            ∧ ∀ replies' s', (start chunk region' memory').Leads [] calls replies' s' →
              replies'.map (Heap.replySeenFrom region'.frontier)
                  = replies.map (Heap.replySeenFrom region.frontier)
              ∧ s'.heap.blocks.map (Extent.seenFrom region'.frontier)
                  = s.heap.blocks.map (Extent.seenFrom region.frontier)
              ∧ s'.heap.freeBlocks.map (Extent.seenFrom region'.frontier)
                  = s.heap.freeBlocks.map (Extent.seenFrom region.frontier)) := by
  refine ⟨Heap.create_congr room, fun created calls replies s led => ?_⟩
  obtain ⟨es, xs, heaps, unused⟩ := Heap.twins_create memory' sane sane'
    (Settings.toNat_ofChunkSize rounds) room created
  have twins : Twins (region'.frontier - region.frontier) (start chunk region memory)
      (start chunk region' memory') es xs :=
    ⟨heaps, by rw [unused]; rfl, rfl⟩
  refine ⟨twins.exists_leads led, fun replies' s' led' => ?_⟩
  obtain ⟨rfl, es', xs', after⟩ := twins.leads led led'
  refine ⟨?_, ?_, ?_⟩
  · rw [List.map_map]
    exact List.map_congr_left fun reply _ => Heap.replySeenFrom_shift reply
  · rw [after.heap.blocks_eq, Extent.map_seenFrom_shift]
  · rw [after.heap.freeBlocks_eq, Extent.map_seenFrom_shift]

/-- Calls that split the first chunk, free the lower block and let the upper one grow down. -/
def sampleCalls : List Call := [.allocate 40, .allocate 30, .free 0, .resize (some 1) 100]

/-- The sample calls lead to some replies and some session. -/
theorem leads_sample
    : ∃ replies s, (start 256 sampleRegion sampleMemory).Leads [] sampleCalls replies s :=
  ⟨_, _, _, .allocate 40, .nothing _, rfl, trivial, _, .allocate 30, .nothing _, rfl, trivial,
    _, .free ⟨4152⟩, .nothing _, by decide +kernel, by decide +kernel,
    _, .resize (some ⟨4216⟩) 100, .nothing _, by decide +kernel, by decide +kernel, .nothing _, rfl⟩

/-- A heap at another address, in a memory full of zeros. -/
theorem independent_sample
    : 256 ≤ Size.greatest.word ∧ sampleRegion.Sane ∧ (⟨0x20008, 0, 4072⟩ : Region).Sane
      ∧ (⟨0x20008, 0, 4072⟩ : Region).available = sampleRegion.available
      ∧ ∃ replies s replies' s',
        (start 256 sampleRegion sampleMemory).Leads [] sampleCalls replies s
        ∧ (start 256 ⟨0x20008, 0, 4072⟩ .zeros).Leads [] sampleCalls replies' s'
        ∧ s'.heap.blocks.map (Extent.seenFrom 0x20008)
            = s.heap.blocks.map (Extent.seenFrom 4120) := by
  have rounds : 256 ≤ Size.greatest.word := by decide
  have sane' : (⟨0x20008, 0, 4072⟩ : Region).Sane := ⟨by decide, by decide⟩
  have room : (⟨0x20008, 0, 4072⟩ : Region).available = sampleRegion.available := by decide
  obtain ⟨replies, s, led⟩ := leads_sample
  obtain ⟨-, alike⟩ := independent_of_available rounds begins_sample.sane sane' room sampleMemory
    .zeros
  obtain ⟨⟨replies', s', led'⟩, seen⟩ := alike begins_sample.created sampleCalls replies s led
  exact ⟨rounds, begins_sample.sane, sane', room, replies, s, replies', s', led, led',
    (seen replies' s' led').2.1⟩

end Session

end BoundaryTag
