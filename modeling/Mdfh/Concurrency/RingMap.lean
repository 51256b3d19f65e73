import Mdfh.Concurrency.DrainLoop

/-!
# The ring does not look at its items

A ring of `α` seen as a ring of `β` takes the same steps: which step is next, and whether it can be
taken, depends on the indices and the flags alone. The same holds for the loop of a thread, up to the
work that its body does.
-/

namespace Mdfh

variable {α β ω ω' : Type} [Inhabited α] [Inhabited β] {cap : Nat}

def Slot.map (f : α → β) (s : Slot α) : Slot β := ⟨f s.value, s.readerActive⟩

namespace SpscRingBuffer

def map (f : α → β) (b : SpscRingBuffer α cap) : SpscRingBuffer β cap where
  buffer j := (b.buffer j).map f
  tail := b.tail
  head := b.head
  droppedUpdatesTotal := b.droppedUpdatesTotal
  wakeGeneration := b.wakeGeneration

theorem map_setValue (f : α → β) (b : SpscRingBuffer α cap) (j : Fin cap) (v : α) :
    (b.setValue j v).map f = (b.map f).setValue j (f v) := by
  have hslot : ∀ k, ((b.setValue j v).map f).buffer k = ((b.map f).setValue j (f v)).buffer k := by
    intro k
    by_cases hk : k = j
    · subst hk
      simp [map, setValue, Slot.map]
    · simp [map, setValue, hk]
  exact congrArg (fun buf => { b.map f with buffer := buf }) (funext hslot)

theorem map_setReaderActive (f : α → β) (b : SpscRingBuffer α cap) (j : Fin cap) (x : Bool) :
    (b.setReaderActive j x).map f = (b.map f).setReaderActive j x := by
  have hslot : ∀ k, ((b.setReaderActive j x).map f).buffer k = ((b.map f).setReaderActive j x).buffer k := by
    intro k
    by_cases hk : k = j
    · subst hk
      simp [map, setReaderActive, Slot.map]
    · simp [map, setReaderActive, hk]
  exact congrArg (fun buf => { b.map f with buffer := buf }) (funext hslot)

end SpscRingBuffer

def PushPc.map (f : α → β) : PushPc α → PushPc β
  | .idle => .idle
  | .loadTail item => .loadTail (f item)
  | .loadHead item tail => .loadHead (f item) tail
  | .evict item tail head => .evict (f item) tail head
  | .count item tail => .count (f item) tail
  | .spin item tail => .spin (f item) tail
  | .write item tail => .write (f item) tail
  | .publish item tail => .publish (f item) tail
  | .wake => .wake

def PopPc.map (f : α → β) : PopPc α → PopPc β
  | .idle => .idle
  | .loadHead => .loadHead
  | .loadTail head => .loadTail head
  | .announce head => .announce head
  | .claim head => .claim head
  | .retract head => .retract head
  | .read head => .read head
  | .release head out => .release head (f out)
  | .returned out => .returned (out.map f)
  | .waitTail => .waitTail
  | .waitHead tail => .waitHead tail
  | .snapshot => .snapshot
  | .recheckTail g => .recheckTail g
  | .recheckHead g tail => .recheckHead g tail
  | .blocked g => .blocked g

namespace Ring

def map (f : α → β) (q : Ring α cap) : Ring β cap where
  mem := q.mem.map f
  push := q.push.map f
  pop := q.pop.map f
  pushed := q.pushed.map f
  evicted := q.evicted
  delivered := q.delivered.map (Prod.map id f)

def Act.map (f : α → β) : Act α → Act β
  | .push item => .push (f item)
  | .producer => .producer
  | .tryPop => .tryPop
  | .waitForData => .waitForData
  | .consumer => .consumer
  | .ret => .ret
  | .notifyWaiters => .notifyWaiters

variable {f : α → β} {q : Ring α cap}

theorem map_empty (h : f default = default) : (({} : Ring α cap).map f) = {} := by
  show ({ mem := { buffer := fun _ => ⟨f default, false⟩ } } : Ring β cap) = {}
  rw [h]

theorem map_pop_idle : (q.map f).pop = .idle ↔ q.pop = .idle := by
  show q.pop.map f = .idle ↔ _
  cases q.pop <;> simp [PopPc.map]

theorem map_pop_returned {out : Option β} :
    (q.map f).pop = .returned out ↔ ∃ x, q.pop = .returned x ∧ x.map f = out := by
  show q.pop.map f = .returned out ↔ _
  cases q.pop <;> simp [PopPc.map]

variable [NeZero cap]

theorem pushStep_map (f : α → β) (q : Ring α cap) : (q.map f).pushStep = q.pushStep.map (map f) := by
  obtain ⟨mem, push, pop, pushed, evicted, delivered⟩ := q
  cases push with
  | idle => rfl
  | loadTail item => rfl
  | loadHead item tail =>
    by_cases hf : cap ≤ (tail - mem.head).toNat
    · simp [pushStep, map, PushPc.map, SpscRingBuffer.map, hf]
    · simp [pushStep, map, PushPc.map, SpscRingBuffer.map, hf]
  | evict item tail head =>
    by_cases hh : mem.head = head
    · simp [pushStep, map, PushPc.map, SpscRingBuffer.map, hh]
    · simp [pushStep, map, PushPc.map, SpscRingBuffer.map, hh]
  | count item tail => rfl
  | spin item tail =>
    cases hr : (mem.buffer (slotAt cap tail.toNat)).readerActive with
    | true => simp [pushStep, map, PushPc.map, SpscRingBuffer.map, Slot.map, hr]
    | false => simp [pushStep, map, PushPc.map, SpscRingBuffer.map, Slot.map, hr]
  | write item tail =>
    show some (_ : Ring β cap) = some _
    simp only [map, PushPc.map, SpscRingBuffer.map_setValue]
  | publish item tail => simp [pushStep, map, PushPc.map, SpscRingBuffer.map]
  | wake => rfl

theorem popStep_map (f : α → β) (q : Ring α cap) : (q.map f).popStep = q.popStep.map (map f) := by
  obtain ⟨mem, push, pop, pushed, evicted, delivered⟩ := q
  cases pop with
  | idle => rfl
  | loadHead => rfl
  | loadTail head =>
    by_cases hh : mem.tail = head
    · simp [popStep, map, PopPc.map, SpscRingBuffer.map, hh]
    · simp [popStep, map, PopPc.map, SpscRingBuffer.map, hh]
  | announce head =>
    show some (_ : Ring β cap) = some _
    simp only [map, PopPc.map, SpscRingBuffer.map_setReaderActive]
  | claim head =>
    by_cases hh : mem.head = head
    · simp [popStep, map, PopPc.map, SpscRingBuffer.map, hh]
    · simp [popStep, map, PopPc.map, SpscRingBuffer.map, hh]
  | retract head =>
    show some (_ : Ring β cap) = some _
    simp only [map, PopPc.map, SpscRingBuffer.map_setReaderActive, Option.map_none]
  | read head => rfl
  | release head out =>
    show some (_ : Ring β cap) = some _
    simp only [map, PopPc.map, SpscRingBuffer.map_setReaderActive, Option.map_some, List.map_append, List.map_cons,
      List.map_nil, Prod.map_apply, id_eq]
  | returned out => rfl
  | waitTail => rfl
  | waitHead tail =>
    by_cases hh : tail = mem.head
    · simp [popStep, map, PopPc.map, SpscRingBuffer.map, hh]
    · simp [popStep, map, PopPc.map, SpscRingBuffer.map, hh]
  | snapshot => rfl
  | recheckTail g => rfl
  | recheckHead g tail =>
    by_cases hh : tail = mem.head
    · simp [popStep, map, PopPc.map, SpscRingBuffer.map, hh]
    · simp [popStep, map, PopPc.map, SpscRingBuffer.map, hh]
  | blocked g =>
    by_cases hg : mem.wakeGeneration = g
    · simp [popStep, map, PopPc.map, SpscRingBuffer.map, hg]
    · simp [popStep, map, PopPc.map, SpscRingBuffer.map, hg]

theorem step_map (f : α → β) (q : Ring α cap) (a : Act α) : (q.map f).step (a.map f) = (q.step a).map (map f) := by
  cases a with
  | push item =>
    obtain ⟨mem, push, pop, pushed, evicted, delivered⟩ := q
    cases push <;> rfl
  | producer => exact pushStep_map f q
  | tryPop =>
    obtain ⟨mem, push, pop, pushed, evicted, delivered⟩ := q
    cases pop <;> rfl
  | waitForData =>
    obtain ⟨mem, push, pop, pushed, evicted, delivered⟩ := q
    cases pop <;> rfl
  | consumer => exact popStep_map f q
  | ret =>
    obtain ⟨mem, push, pop, pushed, evicted, delivered⟩ := q
    cases pop <;> rfl
  | notifyWaiters => rfl

end Ring

/-! ### The loop of a thread -/

/-- The loop with another body: `g` says where the thread is for each piece of work. -/
def LoopPc.bind (g : Bool → ω → LoopPc ω') : LoopPc ω → LoopPc ω'
  | .drain final didWork => .drain final didWork
  | .work final w => g final w
  | .testDone => .testDone
  | .wait => .wait
  | .waiting => .waiting
  | .left => .left

section Loop
variable [NeZero cap] {body : α → ω} {done : Bool} {q : Ring α cap}

theorem LoopPc.step_drain_pop (hi : q.pop ≠ .idle) (hr : ∀ out, q.pop ≠ .returned out) (final didWork : Bool) :
    (LoopPc.drain final didWork).step body done q = q.popStep.map fun q => (q, .drain final didWork) := by
  simp only [step]
  split
  · next h => exact absurd h hi
  · next h => exact absurd h (hr none)
  · next x h => exact absurd h (hr (some x))
  · rfl

theorem LoopPc.step_waiting_pop (hi : q.pop ≠ .idle) :
    LoopPc.waiting.step body done q = q.popStep.map fun q => (q, .waiting) := by
  simp only [step]
  rfl

theorem LoopPc.step_bind {f : α → β} {g : Bool → ω → LoopPc ω'} {body' : β → ω'}
    (hbody : ∀ final x, g final (body x) = .work final (body' (f x))) {pc : LoopPc ω} (hpc : ∀ final w, pc ≠ .work final w) :
    (pc.bind g).step body' done (q.map f) = (pc.step body done q).map fun x => (x.1.map f, x.2.bind g) := by
  have hpop : ∀ pc : LoopPc ω, (q.map f).popStep.map (fun q => (q, pc.bind g)) =
      (q.popStep.map fun q => (q, pc)).map fun x => (x.1.map f, x.2.bind g) := by
    intro pc
    rw [Ring.popStep_map, Option.map_map, Option.map_map]
    rfl
  cases pc with
  | drain final didWork =>
    by_cases hi : q.pop = .idle
    · obtain ⟨mem, push, pop, pushed, evicted, delivered⟩ := q
      cases hi
      rfl
    · by_cases hr : ∀ out, q.pop ≠ .returned out
      · rw [step_drain_pop hi hr, ← hpop]
        exact step_drain_pop (Ring.map_pop_idle.not.2 hi) (fun out h => (Ring.map_pop_returned.1 h).elim fun x hx => hr x hx.1)
          final didWork
      · obtain ⟨out, hr⟩ := not_forall_not.1 hr
        obtain ⟨mem, push, pop, pushed, evicted, delivered⟩ := q
        cases hr
        cases out with
        | none => cases final <;> cases didWork <;> rfl
        | some x =>
          show some (_, LoopPc.work final (body' (f x))) = some (_, g final (body x))
          rw [hbody]
          rfl
  | work final w => exact absurd rfl (hpc final w)
  | testDone => cases done <;> rfl
  | wait =>
    obtain ⟨mem, push, pop, pushed, evicted, delivered⟩ := q
    cases pop <;> rfl
  | waiting =>
    by_cases hi : q.pop = .idle
    · obtain ⟨mem, push, pop, pushed, evicted, delivered⟩ := q
      cases hi
      rfl
    · rw [step_waiting_pop hi, ← hpop]
      exact step_waiting_pop (Ring.map_pop_idle.not.2 hi)
  | left => rfl

end Loop

end Mdfh
