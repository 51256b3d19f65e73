import Mathlib.Order.Lattice
import Mdfh.Concurrency.SpscRingBuffer
import Mdfh.Lib.ReleaseAcquire

/-!
# The ring buffer with its memory orders (`concurrency/spsc_ring_buffer.hpp`)

The calls of `SpscRingBuffer`, access by access, over a release/acquire memory: a load finds any store its
thread may still see, with the order the source gives it. The items in the slots are not atomic: an access
that does not know of all conflicting ones before it is a data race, and `raced` is set. For the reads this
takes a log of them (`reads`), a location like the others that only views speak of.

A compare-exchange that fails is a load, with the failure order, of a value other than the expected one. In
`push` that order is relaxed (`acquireLost` false).
-/

namespace Mdfh
open ReleaseAcquire

namespace WeakRing

inductive Loc (cap : Nat) where
  | tail
  | head
  | wakeGeneration
  | readerActive (j : Fin cap)
  | value (j : Fin cap)
  | reads
deriving DecidableEq

variable {α : Type} {cap : Nat}

abbrev Loc.Val (α : Type) : Loc cap → Type
  | .tail => UInt64
  | .head => UInt64
  | .wakeGeneration => UInt64
  | .readerActive _ => Bool
  | .value _ => α
  | .reads => Nat  -- the index that was read

def Loc.initial [Inhabited α] : (x : Loc cap) → x.Val α
  | .tail => (0 : UInt64)
  | .head => (0 : UInt64)
  | .wakeGeneration => (0 : UInt64)
  | .readerActive _ => false
  | .value _ => (default : α)
  | .reads => (0 : Nat)

end WeakRing

open WeakRing (Loc)

/-- The ring with its two threads; the last fields are history. -/
structure WeakRing (α : Type) [Inhabited α] (cap : Nat) where
  mem : Memory fun x : Loc cap => x.Val α := .initial Loc.initial
  producer : View (Loc cap) := fun _ => 0
  consumer : View (Loc cap) := fun _ => 0
  droppedUpdatesTotal : UInt64 := 0
  push : PushPc α := .idle
  pop : PopPc α := .idle
  raced : Bool := false
  lost : Nat := 0  -- evictions that lost to a `try_pop`
  pushed : List α := []
  evicted : List Nat := []
  delivered : List (Nat × α) := []

namespace WeakRing
variable {α : Type} [Inhabited α] {cap : Nat}

/-- The producer knows of every access to the slot. -/
def ProducerAlone [NeZero cap] (s : WeakRing α cap) (j : Fin cap) : Prop :=
  s.mem.last (.value j) ≤ s.producer (.value j) ∧
    ∀ e ∈ (s.mem .reads).drop (s.producer .reads + 1), slotAt cap e.value ≠ j

/-- The consumer knows of every write to the slot. -/
def ConsumerAlone (s : WeakRing α cap) (j : Fin cap) : Prop := s.mem.last (.value j) ≤ s.consumer (.value j)

instance [NeZero cap] (s : WeakRing α cap) (j : Fin cap) : Decidable (s.ProducerAlone j) :=
  inferInstanceAs (Decidable (_ ∧ _))

instance (s : WeakRing α cap) (j : Fin cap) : Decidable (s.ConsumerAlone j) := inferInstanceAs (Decidable (_ ≤ _))

/-- `wake_generation_.fetch_add(1, release)`. -/
def signal (s : WeakRing α cap) : Option (WeakRing α cap) :=
  (s.mem.current .wakeGeneration).map fun e =>
    let view := s.producer.wrote s.mem .wakeGeneration
    { s with
      mem := s.mem.store .wakeGeneration { value := (e.value : UInt64) + 1, carried := view ⊔ e.carried }
      producer := view }

/-- A release store of the consumer to the flag of a slot. -/
def storeReaderActive (s : WeakRing α cap) (j : Fin cap) (x : Bool) : WeakRing α cap :=
  let view := s.consumer.wrote s.mem (.readerActive j)
  { s with mem := s.mem.store (.readerActive j) { value := x, carried := view }, consumer := view }

variable [NeZero cap]

/-- The next step of `push`; a load finds store `i`. -/
def pushStep (acquireLost : Bool) (s : WeakRing α cap) (i : Nat) : Option (WeakRing α cap) :=
  match s.push with
  | .idle => none
  | .loadTail item => (s.mem.find s.producer .tail i).map fun e =>
    { s with producer := s.producer.after false .tail i e.carried, push := .loadHead item e.value }
  | .loadHead item tail => (s.mem.find s.producer .head i).map fun e =>
    { s with
      producer := s.producer.after true .head i e.carried
      push := if cap ≤ (tail - e.value).toNat then .evict item tail e.value else .spin item tail }
  | .evict item tail head => (s.mem.find s.producer .head i).bind fun e =>
    if e.value = head then
      let view := (s.producer.after true .head i e.carried).wrote s.mem .head
      -- a read-modify-write finds the last store
      if i = s.mem.last .head then some { s with
        mem := s.mem.store .head { value := head + 1, carried := view }, producer := view
        push := .count item tail, evicted := s.evicted ++ [head.toNat] }
      else none
    else some { s with
      producer := s.producer.after acquireLost .head i e.carried, push := .spin item tail, lost := s.lost + 1 }
  | .count item tail =>
    some { s with droppedUpdatesTotal := s.droppedUpdatesTotal + 1, push := .spin item tail }
  | .spin item tail => (s.mem.find s.producer (.readerActive (slotAt cap tail.toNat)) i).map fun e =>
    { s with
      producer := s.producer.after true (.readerActive (slotAt cap tail.toNat)) i e.carried
      push := if e.value then .spin item tail else .write item tail }
  | .write item tail =>
    let j := slotAt cap tail.toNat
    some { s with
      mem := s.mem.store (.value j) { value := item }, producer := s.producer.wrote s.mem (.value j)
      push := .publish item tail, raced := s.raced || !decide (s.ProducerAlone j) }
  | .publish item tail =>
    let view := s.producer.wrote s.mem .tail
    some { s with
      mem := s.mem.store .tail { value := tail + 1, carried := view }, producer := view, push := .wake
      pushed := s.pushed ++ [item] }
  | .wake => s.signal.map fun s => { s with push := .idle }

/-- The next step of `try_pop` or `wait_for_data`. -/
def popStep (s : WeakRing α cap) (i : Nat) : Option (WeakRing α cap) :=
  match s.pop with
  | .idle => none
  | .loadHead => (s.mem.find s.consumer .head i).map fun e =>
    { s with consumer := s.consumer.after false .head i e.carried, pop := .loadTail e.value }
  | .loadTail head => (s.mem.find s.consumer .tail i).map fun e =>
    { s with
      consumer := s.consumer.after true .tail i e.carried
      pop := if e.value = head then .returned none else .announce head }
  | .announce head => some { s.storeReaderActive (slotAt cap head.toNat) true with pop := .claim head }
  | .claim head => (s.mem.find s.consumer .head i).bind fun e =>
    if e.value = head then
      let view := (s.consumer.after true .head i e.carried).wrote s.mem .head
      if i = s.mem.last .head then some { s with
        mem := s.mem.store .head { value := head + 1, carried := view }, consumer := view, pop := .read head }
      else none
    else some { s with consumer := s.consumer.after false .head i e.carried, pop := .retract head }
  | .retract head => some { s.storeReaderActive (slotAt cap head.toNat) false with pop := .returned none }
  | .read head =>
    let j := slotAt cap head.toNat
    (s.mem.current (.value j)).map fun e => { s with
      mem := s.mem.store .reads { value := head.toNat }, consumer := s.consumer.wrote s.mem .reads
      pop := .release head e.value, raced := s.raced || !decide (s.ConsumerAlone j) }
  | .release head out => some { s.storeReaderActive (slotAt cap head.toNat) false with
      pop := .returned (some out), delivered := s.delivered ++ [(head.toNat, out)] }
  | .returned _ => none
  | .waitTail => (s.mem.find s.consumer .tail i).map fun e =>
    { s with consumer := s.consumer.after true .tail i e.carried, pop := .waitHead e.value }
  | .waitHead tail => (s.mem.find s.consumer .head i).map fun e =>
    { s with
      consumer := s.consumer.after false .head i e.carried
      pop := if tail = e.value then .snapshot else .idle }
  | .snapshot => (s.mem.find s.consumer .wakeGeneration i).map fun e =>
    { s with consumer := s.consumer.after true .wakeGeneration i e.carried, pop := .recheckTail e.value }
  | .recheckTail g => (s.mem.find s.consumer .tail i).map fun e =>
    { s with consumer := s.consumer.after true .tail i e.carried, pop := .recheckHead g e.value }
  | .recheckHead g tail => (s.mem.find s.consumer .head i).map fun e =>
    { s with
      consumer := s.consumer.after false .head i e.carried
      pop := if tail = e.value then .blocked g else .idle }
  | .blocked g => (s.mem.find s.consumer .wakeGeneration i).bind fun e =>
    if e.value = g then none
    else some { s with consumer := s.consumer.after true .wakeGeneration i e.carried, pop := .idle }

inductive Act (α : Type) where
  | push (item : α)
  | producer (i : Nat)
  | notifyWaiters  -- by the producer's thread
  | tryPop
  | waitForData
  | consumer (i : Nat)
  | ret

def step (acquireLost : Bool) (s : WeakRing α cap) : Act α → Option (WeakRing α cap)
  | .push item => if s.push matches .idle then some { s with push := .loadTail item } else none
  | .producer i => s.pushStep acquireLost i
  | .notifyWaiters => if s.push matches .idle then s.signal else none
  | .tryPop => if s.pop matches .idle then some { s with pop := .loadHead } else none
  | .waitForData => if s.pop matches .idle then some { s with pop := .waitTail } else none
  | .consumer i => s.popStep i
  | .ret => if s.pop matches .returned _ then some { s with pop := .idle } else none

end WeakRing

end Mdfh
