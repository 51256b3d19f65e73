import Mdfh.Lib.Runs

/-!
# The drop-oldest ring buffer (`concurrency/spsc_ring_buffer.hpp`)

Every atomic access of `push`, `try_pop`, `wait_for_data` and `notify_waiters` is one step, with
sequentially consistent atomics; the copies into and out of a slot are steps of their own, so a
producer at `write` and a consumer at `read` are in the middle of the copy. A call is the program
counter of its thread on this ring; `Ring` keeps the two counters beside the memory, and with them
the history the properties speak of: the items in the order of their `tail_` stores, the indices
evicted, and the index and value of each successful `try_pop`.

`wake_generation_.wait(old)` is blocked while the value equals `old`; `notify_one` changes nothing in
this reading and belongs to the increment before it.
-/

namespace Mdfh

structure Slot (α : Type) where
  value : α
  readerActive : Bool := false
deriving DecidableEq, Repr

structure SpscRingBuffer (α : Type) [Inhabited α] (cap : Nat) where
  buffer : Fin cap → Slot α := fun _ => { value := default }
  tail : UInt64 := 0
  head : UInt64 := 0
  droppedUpdatesTotal : UInt64 := 0
  wakeGeneration : UInt64 := 0

/-- Where the producer is in `push(item)`. -/
inductive PushPc (α : Type) where
  | idle
  | loadTail (item : α)
  | loadHead (item : α) (tail : UInt64)
  | evict (item : α) (tail head : UInt64)  -- full: the compare-exchange on `head_`
  | count (item : α) (tail : UInt64)
  | spin (item : α) (tail : UInt64)
  | write (item : α) (tail : UInt64)
  | publish (item : α) (tail : UInt64)  -- the store of `tail_`
  | wake
deriving DecidableEq, Repr

/-- Where the consumer is in `try_pop(out)` or `wait_for_data()`. -/
inductive PopPc (α : Type) where
  | idle
  | loadHead
  | loadTail (head : UInt64)
  | announce (head : UInt64)
  | claim (head : UInt64)  -- the compare-exchange on `head_`
  | retract (head : UInt64)
  | read (head : UInt64)
  | release (head : UInt64) (out : α)
  | returned (out : Option α)
  | waitTail
  | waitHead (tail : UInt64)
  | snapshot
  | recheckTail (observedGeneration : UInt64)
  | recheckHead (observedGeneration tail : UInt64)
  | blocked (observedGeneration : UInt64)
deriving DecidableEq, Repr

/-- The ring with the calls in progress on it and its history. -/
structure Ring (α : Type) [Inhabited α] (cap : Nat) where
  mem : SpscRingBuffer α cap := {}
  push : PushPc α := .idle
  pop : PopPc α := .idle
  pushed : List α := []
  evicted : List Nat := []
  delivered : List (Nat × α) := []

variable {α : Type} [Inhabited α] {cap : Nat}

namespace SpscRingBuffer

def setValue (b : SpscRingBuffer α cap) (j : Fin cap) (v : α) : SpscRingBuffer α cap :=
  { b with buffer := Function.update b.buffer j { b.buffer j with value := v } }

def setReaderActive (b : SpscRingBuffer α cap) (j : Fin cap) (x : Bool) : SpscRingBuffer α cap :=
  { b with buffer := Function.update b.buffer j { b.buffer j with readerActive := x } }

end SpscRingBuffer

/-- The slot of index `i`: `i % Capacity`. -/
def slotAt (cap : Nat) [NeZero cap] (i : Nat) : Fin cap := Fin.ofNat cap i

namespace Ring
variable [NeZero cap]

/-- The next step of `push`. -/
def pushStep (s : Ring α cap) : Option (Ring α cap) :=
  match s.push with
  | .idle => none
  | .loadTail item => some { s with push := .loadHead item s.mem.tail }
  | .loadHead item tail =>
    if cap ≤ (tail - s.mem.head).toNat then some { s with push := .evict item tail s.mem.head }
    else some { s with push := .spin item tail }
  | .evict item tail head =>
    if s.mem.head = head then
      some { s with
        mem := { s.mem with head := head + 1 }, push := .count item tail, evicted := s.evicted ++ [head.toNat] }
    else some { s with push := .spin item tail }
  | .count item tail =>
    some { s with mem := { s.mem with droppedUpdatesTotal := s.mem.droppedUpdatesTotal + 1 }, push := .spin item tail }
  | .spin item tail =>
    if (s.mem.buffer (slotAt cap tail.toNat)).readerActive then some s
    else some { s with push := .write item tail }
  | .write item tail => some { s with mem := s.mem.setValue (slotAt cap tail.toNat) item, push := .publish item tail }
  | .publish item tail =>
    some { s with mem := { s.mem with tail := tail + 1 }, push := .wake, pushed := s.pushed ++ [item] }
  | .wake =>
    some { s with mem := { s.mem with wakeGeneration := s.mem.wakeGeneration + 1 }, push := .idle }

/-- The next step of `try_pop` or `wait_for_data`; a blocked wait has none. -/
def popStep (s : Ring α cap) : Option (Ring α cap) :=
  match s.pop with
  | .idle => none
  | .loadHead => some { s with pop := .loadTail s.mem.head }
  | .loadTail head =>
    if s.mem.tail = head then some { s with pop := .returned none } else some { s with pop := .announce head }
  | .announce head => some { s with mem := s.mem.setReaderActive (slotAt cap head.toNat) true, pop := .claim head }
  | .claim head =>
    if s.mem.head = head then some { s with mem := { s.mem with head := head + 1 }, pop := .read head }
    else some { s with pop := .retract head }
  | .retract head =>
    some { s with mem := s.mem.setReaderActive (slotAt cap head.toNat) false, pop := .returned none }
  | .read head => some { s with pop := .release head (s.mem.buffer (slotAt cap head.toNat)).value }
  | .release head out =>
    some { s with
      mem := s.mem.setReaderActive (slotAt cap head.toNat) false, pop := .returned (some out),
      delivered := s.delivered ++ [(head.toNat, out)] }
  | .returned _ => none
  | .waitTail => some { s with pop := .waitHead s.mem.tail }
  | .waitHead tail => some { s with pop := if tail = s.mem.head then .snapshot else .idle }
  | .snapshot => some { s with pop := .recheckTail s.mem.wakeGeneration }
  | .recheckTail g => some { s with pop := .recheckHead g s.mem.tail }
  | .recheckHead g tail => some { s with pop := if tail = s.mem.head then .blocked g else .idle }
  | .blocked g => if s.mem.wakeGeneration = g then none else some { s with pop := .idle }

/-- What can happen on a ring: a call begins, or a call in progress takes its next step. -/
inductive Act (α : Type) where
  | push (item : α)
  | producer
  | tryPop
  | waitForData
  | consumer
  | ret  -- the caller of `try_pop` takes the result
  | notifyWaiters
deriving DecidableEq, Repr

def step (s : Ring α cap) : Act α → Option (Ring α cap)
  | .push item => if s.push matches .idle then some { s with push := .loadTail item } else none
  | .producer => s.pushStep
  | .tryPop => if s.pop matches .idle then some { s with pop := .loadHead } else none
  | .waitForData => if s.pop matches .idle then some { s with pop := .waitTail } else none
  | .consumer => s.popStep
  | .ret => if s.pop matches .returned _ then some { s with pop := .idle } else none
  | .notifyWaiters =>
    some { s with mem := { s.mem with wakeGeneration := s.mem.wakeGeneration + 1 } }

/-! ### What a step can do -/

section Calls
variable {s s' : Ring α cap}

theorem step_push {item : α} (hs : s.step (.push item) = some s') :
    s.push = .idle ∧ s' = { s with push := .loadTail item } := by
  simp only [step] at hs
  split at hs
  · next hpc =>
    cases hs
    exact ⟨hpc, rfl⟩
  · cases hs

theorem step_tryPop (hs : s.step .tryPop = some s') : s.pop = .idle ∧ s' = { s with pop := .loadHead } := by
  simp only [step] at hs
  split at hs
  · next hpc =>
    cases hs
    exact ⟨hpc, rfl⟩
  · cases hs

theorem step_waitForData (hs : s.step .waitForData = some s') : s.pop = .idle ∧ s' = { s with pop := .waitTail } := by
  simp only [step] at hs
  split at hs
  · next hpc =>
    cases hs
    exact ⟨hpc, rfl⟩
  · cases hs

theorem step_ret (hs : s.step .ret = some s') : ∃ out, s.pop = .returned out ∧ s' = { s with pop := .idle } := by
  simp only [step] at hs
  split at hs
  · next hpc =>
    cases hs
    cases hp : s.pop <;> rw [hp] at hpc <;> simp at hpc
    exact ⟨_, rfl, rfl⟩
  · cases hs

end Calls

inductive PushStep (s : Ring α cap) : Ring α cap → Prop
  | loadTail {item : α} (hpc : s.push = .loadTail item) : PushStep s { s with push := .loadHead item s.mem.tail }
  | full {item : α} {tail : UInt64} (hpc : s.push = .loadHead item tail) (hf : cap ≤ (tail - s.mem.head).toNat) :
    PushStep s { s with push := .evict item tail s.mem.head }
  | room {item : α} {tail : UInt64} (hpc : s.push = .loadHead item tail) (hf : ¬ cap ≤ (tail - s.mem.head).toNat) :
    PushStep s { s with push := .spin item tail }
  | evictWon {item : α} {tail : UInt64} (hpc : s.push = .evict item tail s.mem.head) :
    PushStep s { s with
      mem := { s.mem with head := s.mem.head + 1 }, push := .count item tail,
      evicted := s.evicted ++ [s.mem.head.toNat] }
  | evictLost {item : α} {tail head : UInt64} (hpc : s.push = .evict item tail head) (hh : s.mem.head ≠ head) :
    PushStep s { s with push := .spin item tail }
  | count {item : α} {tail : UInt64} (hpc : s.push = .count item tail) :
    PushStep s { s with
      mem := { s.mem with droppedUpdatesTotal := s.mem.droppedUpdatesTotal + 1 }, push := .spin item tail }
  | spin {item : α} {tail : UInt64} (hpc : s.push = .spin item tail) : PushStep s s
  | clear {item : α} {tail : UInt64} (hpc : s.push = .spin item tail)
      (hf : ¬ (s.mem.buffer (slotAt cap tail.toNat)).readerActive = true) :
    PushStep s { s with push := .write item tail }
  | write {item : α} {tail : UInt64} (hpc : s.push = .write item tail) :
    PushStep s { s with mem := s.mem.setValue (slotAt cap tail.toNat) item, push := .publish item tail }
  | publish {item : α} {tail : UInt64} (hpc : s.push = .publish item tail) :
    PushStep s { s with mem := { s.mem with tail := tail + 1 }, push := .wake, pushed := s.pushed ++ [item] }
  | wake (hpc : s.push = .wake) :
    PushStep s { s with mem := { s.mem with wakeGeneration := s.mem.wakeGeneration + 1 }, push := .idle }

theorem pushStep_cases {s s' : Ring α cap} (hs : s.pushStep = some s') : PushStep s s' := by
  unfold pushStep at hs
  cases hpc : s.push with
  | idle => rw [hpc] at hs; cases hs
  | loadTail item => rw [hpc] at hs; cases hs; exact .loadTail hpc
  | loadHead item tail =>
    rw [hpc] at hs
    dsimp only at hs
    split at hs
    · next hf => cases hs; exact .full hpc hf
    · next hf => cases hs; exact .room hpc hf
  | evict item tail head =>
    rw [hpc] at hs
    dsimp only at hs
    split at hs
    · next hh => subst hh; cases hs; exact .evictWon hpc
    · next hh => cases hs; exact .evictLost hpc hh
  | count item tail => rw [hpc] at hs; cases hs; exact .count hpc
  | spin item tail =>
    rw [hpc] at hs
    dsimp only at hs
    split at hs
    · cases hs; exact .spin hpc
    · next hf => cases hs; exact .clear hpc hf
  | write item tail => rw [hpc] at hs; cases hs; exact .write hpc
  | publish item tail => rw [hpc] at hs; cases hs; exact .publish hpc
  | wake => rw [hpc] at hs; cases hs; exact .wake hpc

inductive PopStep (s : Ring α cap) : Ring α cap → Prop
  | loadHead (hpc : s.pop = .loadHead) : PopStep s { s with pop := .loadTail s.mem.head }
  | empty (hpc : s.pop = .loadTail s.mem.tail) : PopStep s { s with pop := .returned none }
  | nonEmpty {head : UInt64} (hpc : s.pop = .loadTail head) (ht : s.mem.tail ≠ head) :
    PopStep s { s with pop := .announce head }
  | announce {head : UInt64} (hpc : s.pop = .announce head) :
    PopStep s { s with mem := s.mem.setReaderActive (slotAt cap head.toNat) true, pop := .claim head }
  | claimWon (hpc : s.pop = .claim s.mem.head) :
    PopStep s { s with mem := { s.mem with head := s.mem.head + 1 }, pop := .read s.mem.head }
  | claimLost {head : UInt64} (hpc : s.pop = .claim head) (hh : s.mem.head ≠ head) :
    PopStep s { s with pop := .retract head }
  | retract {head : UInt64} (hpc : s.pop = .retract head) :
    PopStep s { s with mem := s.mem.setReaderActive (slotAt cap head.toNat) false, pop := .returned none }
  | read {head : UInt64} (hpc : s.pop = .read head) :
    PopStep s { s with pop := .release head (s.mem.buffer (slotAt cap head.toNat)).value }
  | release {head : UInt64} {out : α} (hpc : s.pop = .release head out) :
    PopStep s { s with
      mem := s.mem.setReaderActive (slotAt cap head.toNat) false, pop := .returned (some out),
      delivered := s.delivered ++ [(head.toNat, out)] }
  | waitTail (hpc : s.pop = .waitTail) : PopStep s { s with pop := .waitHead s.mem.tail }
  | waitEmpty (hpc : s.pop = .waitHead s.mem.head) : PopStep s { s with pop := .snapshot }
  | waitNonEmpty {tail : UInt64} (hpc : s.pop = .waitHead tail) : PopStep s { s with pop := .idle }
  | snapshot (hpc : s.pop = .snapshot) : PopStep s { s with pop := .recheckTail s.mem.wakeGeneration }
  | recheckTail {g : UInt64} (hpc : s.pop = .recheckTail g) : PopStep s { s with pop := .recheckHead g s.mem.tail }
  | block {g : UInt64} (hpc : s.pop = .recheckHead g s.mem.head) : PopStep s { s with pop := .blocked g }
  | recheckNonEmpty {g tail : UInt64} (hpc : s.pop = .recheckHead g tail) : PopStep s { s with pop := .idle }
  | woken {g : UInt64} (hpc : s.pop = .blocked g) : PopStep s { s with pop := .idle }

theorem popStep_cases {s s' : Ring α cap} (hs : s.popStep = some s') : PopStep s s' := by
  unfold popStep at hs
  cases hpc : s.pop with
  | idle => rw [hpc] at hs; cases hs
  | loadHead => rw [hpc] at hs; cases hs; exact .loadHead hpc
  | loadTail head =>
    rw [hpc] at hs
    dsimp only at hs
    split at hs
    · next ht => subst ht; cases hs; exact .empty hpc
    · next ht => cases hs; exact .nonEmpty hpc ht
  | announce head => rw [hpc] at hs; cases hs; exact .announce hpc
  | claim head =>
    rw [hpc] at hs
    dsimp only at hs
    split at hs
    · next hh => subst hh; cases hs; exact .claimWon hpc
    · next hh => cases hs; exact .claimLost hpc hh
  | retract head => rw [hpc] at hs; cases hs; exact .retract hpc
  | read head => rw [hpc] at hs; cases hs; exact .read hpc
  | release head out => rw [hpc] at hs; cases hs; exact .release hpc
  | returned out => rw [hpc] at hs; cases hs
  | waitTail => rw [hpc] at hs; cases hs; exact .waitTail hpc
  | waitHead tail =>
    rw [hpc] at hs
    cases hs
    split
    · next ht => exact .waitEmpty (ht ▸ hpc)
    · exact .waitNonEmpty hpc
  | snapshot => rw [hpc] at hs; cases hs; exact .snapshot hpc
  | recheckTail g => rw [hpc] at hs; cases hs; exact .recheckTail hpc
  | recheckHead g tail =>
    rw [hpc] at hs
    cases hs
    split
    · next ht => exact .block (ht ▸ hpc)
    · exact .recheckNonEmpty hpc
  | blocked g =>
    rw [hpc] at hs
    dsimp only at hs
    split at hs
    · cases hs
    · cases hs; exact .woken hpc

end Ring

end Mdfh
