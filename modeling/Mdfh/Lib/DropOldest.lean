import Mathlib.Tactic.Linarith

/-!
# A bounded FIFO queue that drops its oldest item on overflow

The abstract queue: a list of at most `cap` items, oldest first, and the number of items dropped so
far. `push` never fails; `Kept` says that a series of pushes dropped nothing, and then the queue is
the old one with the pushed items appended.
-/

/-- At most `cap` items in arrival order, and how many were dropped. -/
@[ext] structure DropOldest (α : Type) (cap : Nat) where
  items : List α
  dropped : Nat
  length_le : items.length ≤ cap

namespace DropOldest
variable {α : Type} {cap : Nat}

def empty : DropOldest α cap := ⟨[], 0, Nat.zero_le _⟩

instance : Inhabited (DropOldest α cap) := ⟨empty⟩

@[simp] theorem items_empty : (empty : DropOldest α cap).items = [] := rfl
@[simp] theorem dropped_empty : (empty : DropOldest α cap).dropped = 0 := rfl

def push [NeZero cap] (q : DropOldest α cap) (x : α) : DropOldest α cap :=
  if h : q.items.length < cap then ⟨q.items ++ [x], q.dropped, by
    rw [List.length_append, List.length_singleton]; exact h⟩
  else ⟨q.items.tail ++ [x], q.dropped + 1, by
    have := q.length_le
    have := NeZero.pos cap
    simp only [List.length_append, List.length_tail, List.length_singleton]
    omega⟩

/-- The oldest item and the queue without it. -/
def tryPop (q : DropOldest α cap) : Option (α × DropOldest α cap) :=
  match h : q.items with
  | [] => none
  | x :: xs => some (x, ⟨xs, q.dropped, by
      have := q.length_le
      rw [h, List.length_cons] at this
      omega⟩)

theorem tryPop_eq_none_iff {q : DropOldest α cap} : q.tryPop = none ↔ q.items = [] := by
  unfold tryPop
  split <;> simp_all

theorem tryPop_eq_some_iff {q q' : DropOldest α cap} {x : α} :
    q.tryPop = some (x, q') ↔ q.items = x :: q'.items ∧ q'.dropped = q.dropped := by
  unfold tryPop
  split
  · next h => simp [h]
  · next y ys h =>
    simp only [Option.some.injEq, Prod.mk.injEq, h, List.cons.injEq, DropOldest.ext_iff]
    constructor
    · rintro ⟨rfl, rfl, hd⟩; exact ⟨⟨rfl, rfl⟩, hd.symm⟩
    · rintro ⟨⟨rfl, rfl⟩, hd⟩; exact ⟨rfl, rfl, hd.symm⟩

section Push
variable [NeZero cap] {q : DropOldest α cap}

theorem push_of_lt {x : α} (h : q.items.length < cap) :
    (q.push x).items = q.items ++ [x] ∧ (q.push x).dropped = q.dropped := by
  simp [push, h]

theorem push_of_not_lt {x : α} (h : ¬ q.items.length < cap) :
    (q.push x).items = q.items.tail ++ [x] ∧ (q.push x).dropped = q.dropped + 1 := by
  simp [push, h]

theorem items_push (x : α) : ∃ xs, (q.push x).items = xs ++ [x] := by
  by_cases h : q.items.length < cap
  · exact ⟨_, (push_of_lt h).1⟩
  · exact ⟨_, (push_of_not_lt h).1⟩

theorem dropped_push_le (x : α) : q.dropped ≤ (q.push x).dropped := by
  by_cases h : q.items.length < cap
  · rw [(push_of_lt h).2]
  · rw [(push_of_not_lt h).2]; exact Nat.le_succ _

theorem dropped_push_iff {x : α} : (q.push x).dropped = q.dropped ↔ q.items.length < cap := by
  by_cases h : q.items.length < cap
  · simp [push_of_lt h, h]
  · simp [push_of_not_lt h, h]

theorem total_push (x : α) : (q.push x).dropped + (q.push x).items.length = q.dropped + q.items.length + 1 := by
  by_cases h : q.items.length < cap
  · rw [(push_of_lt h).1, (push_of_lt h).2, List.length_append, List.length_singleton]
    omega
  · have := NeZero.pos cap
    rw [(push_of_not_lt h).1, (push_of_not_lt h).2, List.length_append, List.length_tail, List.length_singleton]
    omega

/-- A call on the queue. -/
inductive Call (α : Type) where
  | push (x : α)
  | tryPop

/-- What a call returns, and the queue after it. -/
def call (q : DropOldest α cap) : Call α → Option α × DropOldest α cap
  | .push x => (none, q.push x)
  | .tryPop => (q.tryPop.map Prod.fst, (q.tryPop.map Prod.snd).getD q)

/-- The items popped by the calls, and the queue after them. -/
def calls (q : DropOldest α cap) : List (Call α) → List α × DropOldest α cap
  | [] => ([], q)
  | c :: cs => ((q.call c).1.toList ++ ((q.call c).2.calls cs).1, ((q.call c).2.calls cs).2)

/-- Pushes in order. -/
def pushAll (q : DropOldest α cap) (xs : List α) : DropOldest α cap := xs.foldl push q

@[simp] theorem pushAll_nil : q.pushAll [] = q := rfl
@[simp] theorem pushAll_cons (x : α) (xs : List α) : q.pushAll (x :: xs) = (q.push x).pushAll xs := rfl

theorem dropped_pushAll_le (xs : List α) : q.dropped ≤ (q.pushAll xs).dropped := by
  induction xs generalizing q with
  | nil => exact Nat.le_refl _
  | cons x xs ih => exact (dropped_push_le x).trans ih

theorem total_pushAll (xs : List α) :
    (q.pushAll xs).dropped + (q.pushAll xs).items.length = q.dropped + q.items.length + xs.length := by
  induction xs generalizing q with
  | nil => rfl
  | cons x xs ih => rw [pushAll_cons, ih, total_push, List.length_cons]; omega

theorem pushAll_eq_self_iff {xs : List α} : q.pushAll xs = q ↔ xs = [] := by
  constructor
  · intro h
    have := total_pushAll (q := q) xs
    rw [h] at this
    exact List.length_eq_zero_iff.1 (by omega)
  · rintro rfl; rfl

/-- The pushes of `xs` drop nothing. -/
def Kept (q : DropOldest α cap) (xs : List α) : Prop := (q.pushAll xs).dropped = q.dropped

theorem Kept.cons {x : α} {xs : List α} (h : q.Kept (x :: xs)) : q.items.length < cap ∧ (q.push x).Kept xs := by
  have h₁ : q.dropped ≤ (q.push x).dropped := dropped_push_le x
  have h₂ : (q.push x).dropped ≤ ((q.push x).pushAll xs).dropped := dropped_pushAll_le xs
  have h₃ : ((q.push x).pushAll xs).dropped = q.dropped := h
  refine ⟨(dropped_push_iff (x := x)).1 (by omega), ?_⟩
  show ((q.push x).pushAll xs).dropped = (q.push x).dropped
  omega

theorem Kept.items {xs : List α} (h : q.Kept xs) : (q.pushAll xs).items = q.items ++ xs := by
  induction xs generalizing q with
  | nil => simp
  | cons x xs ih =>
    obtain ⟨hlt, hxs⟩ := h.cons
    rw [pushAll_cons, ih hxs, (push_of_lt hlt).1, List.append_assoc, List.singleton_append]

theorem kept_of_le {xs : List α} (h : q.items.length + xs.length ≤ cap) : q.Kept xs := by
  induction xs generalizing q with
  | nil => rfl
  | cons x xs ih =>
    rw [List.length_cons] at h
    have hlt : q.items.length < cap := by omega
    have : (q.push x).Kept xs := ih (by rw [(push_of_lt hlt).1, List.length_append, List.length_singleton]; omega)
    exact this.trans (push_of_lt hlt).2

theorem Kept.length_le {xs : List α} (h : q.Kept xs) : q.items.length + xs.length ≤ cap := by
  have := (q.pushAll xs).length_le
  rwa [h.items, List.length_append] at this

end Push

end DropOldest
