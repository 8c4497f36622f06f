import BoundaryTag.Proofs.Sessions

/-! The journal is only written. Heaps that differ in nothing else answer every request alike, and
differ in nothing else afterwards.
-/

namespace BoundaryTag

namespace Heap

/-- Two heaps are the same but for their journals. -/
structure Alike (h k : Heap) : Prop where
  pool : h.toPool = k.toPool
  region : h.region = k.region
  prologue : h.prologue = k.prologue
  settings : h.settings = k.settings

/-- Two outcomes of an operation are the same but for the journals. -/
def Agree {α : Type} (o o' : α × Heap) : Prop := o.1 = o'.1 ∧ o.2.Alike o'.2

namespace Alike

variable {h k l : Heap}

/-- A heap is the same as itself. -/
theorem refl (h : Heap) : h.Alike h := ⟨rfl, rfl, rfl, rfl⟩

/-- Heaps are the same in either order. -/
theorem symm (alike : h.Alike k) : k.Alike h :=
  ⟨alike.pool.symm, alike.region.symm, alike.prologue.symm, alike.settings.symm⟩

/-- Heaps that are the same as a third one are the same. -/
theorem trans (first : h.Alike k) (second : k.Alike l) : h.Alike l :=
  ⟨first.pool.trans second.pool, first.region.trans second.region,
    first.prologue.trans second.prologue, first.settings.trans second.settings⟩

/-- Notes make no difference. -/
theorem note (alike : h.Alike k) (event event' : Event)
    : (h.note event).Alike (k.note event') :=
  ⟨alike.pool, alike.region, alike.prologue, alike.settings⟩

/-- Noting an event changes nothing but the journal. -/
theorem note_self (h : Heap) (event : Event) : (h.note event).Alike h := ⟨rfl, rfl, rfl, rfl⟩

/-- The same change of the pool leaves heaps alike. -/
theorem withPool (alike : h.Alike k) {p q : Pool} (same : p = q)
    : (h.withPool p).Alike (k.withPool q) :=
  ⟨same, alike.region, alike.prologue, alike.settings⟩

/-- Heaps that differ in their journals only have the same memory. -/
theorem memory (alike : h.Alike k) : h.memory = k.memory := congrArg Pool.memory alike.pool

/-- They have the same head of the free list. -/
theorem head (alike : h.Alike k) : h.head = k.head := congrArg Pool.head alike.pool

/-- The same change of memory leaves heaps alike. -/
theorem withMemory (alike : h.Alike k) {m m' : Memory} (same : m = m')
    : Alike { h with memory := m } { k with memory := m' } :=
  ⟨by simp only [same, alike.head], alike.region, alike.prologue, alike.settings⟩

/-- They grow by the same size for a request. -/
theorem increment (alike : h.Alike k) (wanted : Size)
    : h.increment wanted = k.increment wanted := by
  rw [Heap.increment, Heap.increment, alike.settings]

/-- They come out the same when they grow. -/
theorem grown (alike : h.Alike k) (size : Size) : Agree (h.grown size) (k.grown size) := by
  have pool := alike.pool
  have region := alike.region
  refine ⟨?_, ?_, ?_, ?_, ?_⟩
  · simp only [Heap.grown, pool, region]
  · simp only [Heap.grown, Heap.withPool, pool, region]
  · rw [region_grown, region_grown, region]
  · rw [prologue_grown, prologue_grown, alike.prologue]
  · rw [settings_grown, settings_grown, alike.settings]

/-- They serve a size in the same way. -/
theorem serve (alike : h.Alike k) (wanted : Size) : Agree (h.serve wanted) (k.serve wanted) := by
  have more := alike.increment wanted
  cases fit : h.firstFit? wanted.word with
  | some b =>
      have fit' := fit
      rw [alike.pool] at fit'
      rw [serve_eq_of_fit fit, serve_eq_of_fit fit']
      exact ⟨rfl, alike.withPool (by rw [alike.pool])⟩
  | none =>
      have fit' := fit
      rw [alike.pool] at fit'
      by_cases short : h.region.available < (h.increment wanted).word
      · have short' := short
        rw [more, alike.region] at short'
        rw [serve_eq_of_short fit short, serve_eq_of_short fit' short', more, alike.region]
        exact ⟨rfl, alike.note _ _⟩
      · have enough := UInt64.not_lt.mp short
        have enough' := enough
        rw [more, alike.region] at enough'
        rw [serve_eq_of_growth fit enough, serve_eq_of_growth fit' enough', more]
        obtain ⟨merged, grown⟩ := alike.grown (k.increment wanted)
        refine ⟨congrArg Except.ok merged, grown.withPool ?_⟩
        rw [merged, grown.pool]

/-- They answer a request for bytes in the same way. -/
theorem allocate (alike : h.Alike k) (bytes : Word)
    : Agree (h.allocate bytes) (k.allocate bytes) := by
  by_cases zero : bytes = 0
  · simp only [Heap.allocate, zero, if_true]
    exact ⟨rfl, alike⟩
  · cases size : Size.forRequest? bytes with
    | none =>
        simp only [Heap.allocate, zero, if_false, size]
        exact ⟨rfl, alike⟩
    | some wanted =>
        simp only [Heap.allocate, zero, if_false, size]
        obtain ⟨same, after⟩ := alike.serve wanted
        exact ⟨congrArg (Except.map some) same, after⟩

/-- They answer a request for cleared elements in the same way. -/
theorem allocateZeroed (alike : h.Alike k) (count size : Word)
    : Agree (h.allocateZeroed count size) (k.allocateZeroed count size) := by
  cases product : Word.mul? count size with
  | none =>
      simp only [Heap.allocateZeroed, product]
      exact ⟨rfl, alike⟩
  | some total =>
      obtain ⟨same, after⟩ := alike.allocate total
      simp only [Heap.allocateZeroed, product]
      obtain ⟨reply, h', outcome⟩ : ∃ reply h', h.allocate total = (reply, h') := ⟨_, _, rfl⟩
      obtain ⟨reply', k', outcome'⟩ : ∃ reply' k', k.allocate total = (reply', k') := ⟨_, _, rfl⟩
      rw [outcome, outcome'] at same after ⊢
      obtain rfl : reply = reply' := same
      cases reply with
      | error e => exact ⟨rfl, after⟩
      | ok b? =>
          cases b? with
          | none => exact ⟨rfl, after⟩
          | some b => exact ⟨rfl, after.withMemory (by rw [after.memory])⟩

/-- They come out the same when a block is freed. -/
theorem free (alike : h.Alike k) (b : Block) : (h.free b).Alike (k.free b) :=
  alike.withPool (by rw [alike.pool])

/-- They move a block to the same place. -/
theorem moveAway (alike : h.Alike k) (b : Block) (wanted : Size) (kept : Word)
    : Agree (h.moveAway b wanted kept) (k.moveAway b wanted kept) := by
  obtain ⟨same, after⟩ := alike.serve wanted
  obtain ⟨result, h', outcome⟩ : ∃ result h', h.serve wanted = (result, h') := ⟨_, _, rfl⟩
  obtain ⟨result', k', outcome'⟩ : ∃ result' k', k.serve wanted = (result', k') := ⟨_, _, rfl⟩
  rw [outcome, outcome'] at same after
  obtain rfl : result = result' := same
  simp only [Heap.moveAway, outcome, outcome']
  cases result with
  | error e => exact ⟨rfl, after⟩
  | ok target =>
      have noted := after.note (.moving b target kept) (.moving b target kept)
      exact ⟨rfl, (noted.withPool (by rw [noted.pool])).free b⟩

/-- They carry out a plan in the same way. -/
theorem carryOut (alike : h.Alike k) (plan : Plan) (b : Block) (wanted : Size) (kept : Word)
    : Agree (h.carryOut plan b wanted kept) (k.carryOut plan b wanted kept) := by
  have pool := alike.pool
  cases plan with
  | moveAway => exact alike.moveAway b wanted kept
  | stay | growDown below | growUp above | growBothWays below above =>
      simp only [Heap.carryOut, pool]
      exact ⟨rfl, alike.withPool rfl⟩

/-- They answer a request for another size in the same way. -/
theorem resize (alike : h.Alike k) (b? : Option Block) (bytes : Word)
    : Agree (h.resize b? bytes) (k.resize b? bytes) := by
  cases b? with
  | none => exact alike.allocate bytes
  | some b =>
      by_cases zero : bytes = 0
      · simp only [Heap.resize, zero, if_true]
        exact ⟨rfl, alike.free b⟩
      · cases size : Size.forRequest? bytes with
        | none =>
            rw [resize_of_none zero size, resize_of_none zero size]
            exact ⟨rfl, alike⟩
        | some wanted =>
            have kept : h.kept b bytes = k.kept b bytes := by
              rw [Heap.kept, Heap.kept, usableSize, usableSize, alike.memory]
            rw [resize_of_some zero size, resize_of_some zero size, kept, alike.memory]
            have noted := alike.note (.resizing b wanted (Plan.choose k.memory b wanted))
              (.resizing b wanted (Plan.choose k.memory b wanted))
            obtain ⟨same, after⟩ := noted.carryOut (Plan.choose k.memory b wanted) b wanted
              (k.kept b bytes)
            exact ⟨congrArg (Except.map some) same, after⟩

/-- Heaps that are alike answer every request alike. -/
theorem answer (alike : h.Alike k) (r : Request) : Agree (r.answer h) (r.answer k) := by
  cases r with
  | allocate bytes => exact alike.allocate bytes
  | allocateZeroed count size => exact alike.allocateZeroed count size
  | free b => exact ⟨rfl, alike.free b⟩
  | resize b? bytes => exact alike.resize b? bytes
  | write b offset bytes =>
      exact ⟨rfl, alike.withMemory (by rw [alike.memory])⟩

end Alike

end Heap

end BoundaryTag
