import Mathlib.Data.Nat.Basic
import Mathlib.Order.Basic

/-!
# Release and acquire

A location is written by one thread, or by read-modify-writes alone; either way a new store comes last in
its order. A thread has a view: for each location the newest store it has found or been told of. A load
finds any store that is not older. A release store carries the view of its thread, and an acquire load that
finds it joins that view; a relaxed store carries nothing, and a read-modify-write passes on what the store
before it carried.

With one writer for all locations, which works in calls, a store is labelled with the number of its call.
If each store of certain values carries a store of the same call to another location (`Told`), a thread that
has loaded such a value finds that call or a later one there (`Reader.Ok`).
-/

namespace ReleaseAcquire

variable {ι : Type} {V : ι → Type}

/-- For each location, the index of a store. -/
abbrev View (ι : Type) := ι → Nat

structure Store (V : ι → Type) (x : ι) where
  value : V x
  call : Nat := 0
  carried : View ι := fun _ => 0

/-- The stores to each location, oldest first. -/
abbrev Memory (V : ι → Type) := (x : ι) → List (Store V x)

namespace Memory

def initial (v : (x : ι) → V x) : Memory V := fun x => [{ value := v x }]

/-- The last store to a location. -/
def last (m : Memory V) (x : ι) : Nat := (m x).length - 1

/-- What a thread finds that has written last, and a read-modify-write. -/
def current (m : Memory V) (x : ι) : Option (Store V x) := (m x).getLast?

/-- What a load of `x` finds at `i`, by a thread with this view. -/
def find (m : Memory V) (view : View ι) (x : ι) (i : Nat) : Option (Store V x) :=
  if view x ≤ i then (m x)[i]? else none

section Writes
variable [DecidableEq ι]

def store (m : Memory V) (x : ι) (e : Store V x) : Memory V := Function.update m x (m x ++ [e])

def storeRelaxed (m : Memory V) (call : Nat) (x : ι) (v : V x) : Memory V := m.store x { value := v, call := call }

def storeRelease (m : Memory V) (call : Nat) (x : ι) (v : V x) : Memory V :=
  m.store x { value := v, call := call, carried := m.last }

/-- A relaxed read-modify-write. -/
def modify (m : Memory V) (call : Nat) (x : ι) (f : V x → V x) : Memory V :=
  match m.current x with
  | some e => m.store x { value := f e.value, call := call, carried := e.carried }
  | none => m

end Writes

end Memory

/-- A load in the history of a thread. -/
structure Load (V : ι → Type) where
  loc : ι
  value : V loc
  call : Nat

/-- A thread that only reads. -/
structure Reader (V : ι → Type) where
  view : View ι := fun _ => 0
  loads : List (Load V) := []

/-- The view of a thread that stores to `x`. -/
def View.wrote [DecidableEq ι] (view : View ι) (m : Memory V) (x : ι) : View ι := Function.update view x (m x).length

/-- The view after a load of `x` that found its store `i`. -/
def View.after [DecidableEq ι] (view : View ι) (acquire : Bool) (x : ι) (i : Nat) (carried : View ι) : View ι :=
  fun y => max (Function.update view x i y) (if acquire then carried y else 0)

/-- A load of `x` that finds its store `i`. -/
def Reader.load [DecidableEq ι] (r : Reader V) (m : Memory V) (acquire : Bool) (x : ι) (i : Nat) : Option (V x × Reader V) :=
  (m.find r.view x i).map fun e => (e.value, {
    view := r.view.after acquire x i e.carried
    loads := r.loads ++ [⟨x, e.value, e.call⟩] })

/-! ### What holds of a memory -/

/-- Every index points to a store. -/
def View.In (view : View ι) (m : Memory V) : Prop := ∀ x, view x < (m x).length

/-- Labels grow, and views point to stores. -/
structure Memory.Ok (m : Memory V) : Prop where
  pos : ∀ x, 0 < (m x).length
  ordered : ∀ x, (m x).Pairwise fun e e' => e.call ≤ e'.call
  carried : ∀ x, ∀ e ∈ m x, e.carried.In m

/-- A store of a telling value carries a store of its own call, or a later one, to the location it tells of. -/
def Memory.Told (m : Memory V) (tells : (x : ι) → V x → ι → Prop) : Prop :=
  ∀ x, ∀ e ∈ m x, ∀ y, tells x e.value y → ∃ e', (m y)[e.carried y]? = some e' ∧ e.call ≤ e'.call

theorem Memory.find_eq_some {m : Memory V} {view : View ι} {x : ι} {i : Nat} {e : Store V x} :
    m.find view x i = some e ↔ view x ≤ i ∧ (m x)[i]? = some e := by
  unfold find
  by_cases h : view x ≤ i
  · simp [h]
  · simp [h]

theorem Memory.getElem?_last (m : Memory V) (x : ι) : (m x)[m.last x]? = m.current x :=
  List.getLast?_eq_getElem?.symm

theorem Memory.Ok.last_lt {m : Memory V} (h : m.Ok) (x : ι) : m.last x < (m x).length := Nat.sub_one_lt (h.pos x).ne'

theorem Memory.Told.mono {m : Memory V} {tells tells' : (x : ι) → V x → ι → Prop} (h : m.Told tells)
    (ht : ∀ x v y, tells' x v y → tells x v y) : m.Told tells' := fun x e he y hy => h x e he y (ht _ _ _ hy)

section Store
variable [DecidableEq ι] {m : Memory V} {x : ι} {e : Store V x} {tells : (x : ι) → V x → ι → Prop}

theorem Memory.store_self : m.store x e x = m x ++ [e] := Function.update_self _ _ _

theorem Memory.store_of_ne {y : ι} (h : y ≠ x) : m.store x e y = m y := Function.update_of_ne h _ _

theorem Memory.current_store_self : (m.store x e).current x = some e := by
  rw [current, store_self, List.getLast?_concat]

theorem Memory.current_store_of_ne {y : ι} (h : y ≠ x) : (m.store x e).current y = m.current y := by
  rw [current, store_of_ne h, current]

theorem Memory.getElem?_store {y : ι} {i : Nat} {e' : Store V y} (h : (m y)[i]? = some e') :
    (m.store x e y)[i]? = some e' := by
  by_cases hy : y = x
  · subst hy
    rw [store_self, List.getElem?_append_left (List.getElem?_eq_some_iff.1 h).1, h]
  · rw [store_of_ne hy, h]

theorem Memory.getElem?_store_cases {i : Nat} {e' : Store V x} (h : (m.store x e x)[i]? = some e') :
    (m x)[i]? = some e' ∨ i = (m x).length ∧ e' = e := by
  rw [store_self, List.getElem?_append] at h
  split at h
  · exact .inl h
  · next hi =>
    obtain ⟨hlt, heq⟩ := List.getElem?_eq_some_iff.1 h
    have hi' : i = (m x).length := by
      rw [List.length_singleton] at hlt
      omega
    subst hi'
    simp only [Nat.sub_self, List.getElem_cons_zero] at heq
    exact .inr ⟨rfl, heq.symm⟩

theorem Memory.last_store_self : (m.store x e).last x = (m x).length := by
  rw [last, store_self, List.length_append, List.length_singleton, Nat.add_sub_cancel]

theorem Memory.last_store_of_ne {y : ι} (h : y ≠ x) : (m.store x e).last y = m.last y := by
  rw [last, store_of_ne h, last]

theorem Memory.length_store (y : ι) : (m y).length ≤ (m.store x e y).length := by
  by_cases hy : y = x
  · subst hy
    rw [store_self, List.length_append]
    exact Nat.le_add_right _ _
  · rw [store_of_ne hy]

theorem Memory.mem_store {y : ι} {e' : Store V y} (h : e' ∈ m.store x e y) : e' ∈ m y ∨ ∃ hy : y = x, e' = hy ▸ e := by
  by_cases hy : y = x
  · subst hy
    rw [store_self, List.mem_append, List.mem_singleton] at h
    exact h.imp_right fun h => ⟨rfl, h⟩
  · rw [store_of_ne hy] at h
    exact .inl h

theorem Memory.Ok.store (h : m.Ok) (hcall : ∀ e' ∈ m x, e'.call ≤ e.call) (hc : e.carried.In m) :
    (m.store x e).Ok := by
  refine ⟨fun y => (h.pos y).trans_le (length_store y), fun y => ?_, fun y e' he' z => ?_⟩
  · by_cases hy : y = x
    · subst hy
      rw [store_self, List.pairwise_append]
      refine ⟨h.ordered y, List.pairwise_singleton _ _, fun a ha b hb => ?_⟩
      rw [List.mem_singleton.1 hb]
      exact hcall a ha
    · rw [store_of_ne hy]
      exact h.ordered y
  · rcases mem_store he' with he' | ⟨rfl, rfl⟩
    · exact (h.carried y e' he' z).trans_le (length_store z)
    · exact (hc z).trans_le (length_store z)

theorem Memory.Told.store (h : m.Told tells)
    (he : ∀ y, tells x e.value y → ∃ e', (m y)[e.carried y]? = some e' ∧ e.call ≤ e'.call) :
    (m.store x e).Told tells := by
  intro y e' he' z ht
  have hkeep : (∃ e₁, (m z)[e'.carried z]? = some e₁ ∧ e'.call ≤ e₁.call) →
      ∃ e₁, (m.store x e z)[e'.carried z]? = some e₁ ∧ e'.call ≤ e₁.call :=
    fun ⟨e₁, h₁, h₂⟩ => ⟨e₁, getElem?_store h₁, h₂⟩
  rcases mem_store he' with he' | ⟨rfl, rfl⟩
  · exact hkeep (h y e' he' z ht)
  · exact hkeep (he z ht)

end Store

/-! ### What holds of a reader -/

section View
variable [DecidableEq ι] {view carried : View ι} {acquire : Bool} {x : ι} {i : Nat}

theorem View.le_after (hi : view x ≤ i) (y : ι) : view y ≤ view.after acquire x i carried y := by
  refine le_trans ?_ (Nat.le_max_left _ _)
  rw [Function.update_apply]
  split
  · next hy => exact hy ▸ hi
  · exact le_rfl

theorem View.index_le_after : i ≤ view.after acquire x i carried x := by
  refine le_trans ?_ (Nat.le_max_left _ _)
  rw [Function.update_self]

theorem View.carried_le_after (ha : acquire = true) (y : ι) : carried y ≤ view.after acquire x i carried y := by
  refine le_trans ?_ (Nat.le_max_right _ _)
  rw [if_pos ha]

theorem View.after_self (hc : carried x ≤ i) : view.after acquire x i carried x = i := by
  unfold View.after
  rw [Function.update_self]
  refine Nat.max_eq_left ?_
  split
  · exact hc
  · exact Nat.zero_le _

theorem View.after_of_ne {y : ι} (hy : y ≠ x) :
    view.after acquire x i carried y = max (view y) (if acquire then carried y else 0) := by
  unfold View.after
  rw [Function.update_of_ne hy]

theorem View.In.store {m : Memory V} (h : view.In m) {e : Store V x} : view.In (m.store x e) :=
  fun y => (h y).trans_le (Memory.length_store y)

theorem View.le_wrote {m : Memory V} (h : view.In m) (x : ι) : view ≤ view.wrote m x := by
  intro y
  unfold View.wrote
  rw [Function.update_apply]
  split
  · next hy => exact hy ▸ (h y).le
  · exact le_rfl

theorem View.In.wrote {m : Memory V} (h : view.In m) {e : Store V x} : (view.wrote m x).In (m.store x e) := by
  intro y
  unfold View.wrote
  rw [Function.update_apply]
  split
  · next hy =>
    subst hy
    rw [Memory.store_self, List.length_append, List.length_singleton]
    exact Nat.lt_succ_self _
  · exact h.store y

theorem View.wrote_self {m : Memory V} : view.wrote m x x = (m x).length := Function.update_self _ _ _

theorem View.wrote_of_ne {m : Memory V} {y : ι} (h : y ≠ x) : view.wrote m x y = view y := Function.update_of_ne h _ _

/-- Whoever knew of the last stores and makes one more knows of the last stores. -/
theorem View.last_store_le_wrote {m : Memory V} {e : Store V x} {y : ι} (h : m.last y ≤ view y) :
    (m.store x e).last y ≤ view.wrote m x y := by
  by_cases hy : y = x
  · subst hy
    rw [Memory.last_store_self, View.wrote_self]
  · rw [Memory.last_store_of_ne hy, View.wrote_of_ne hy]
    exact h

theorem View.In.after {m : Memory V} (hv : view.In m) (hi : i < (m x).length) (hc : carried.In m) :
    (view.after acquire x i carried).In m := by
  intro y
  refine Nat.max_lt.2 ⟨?_, ?_⟩
  · rw [Function.update_apply]
    split
    · next hy => exact hy ▸ hi
    · exact hv y
  · split
    · exact hc y
    · exact (Nat.zero_le _).trans_lt (hv y)

end View

/-- `acquire` says at which locations loads are acquire loads. What a load has found or was told of bounds
every later load. -/
structure Reader.Ok (m : Memory V) (acquire : ι → Bool) (tells : (x : ι) → V x → ι → Prop) (r : Reader V) : Prop where
  view : r.view.In m
  found : ∀ l ∈ r.loads, ∃ e ∈ m l.loc, e.value = l.value ∧ e.call = l.call
  known : ∀ l ∈ r.loads, ∀ y, y = l.loc ∨ acquire l.loc = true ∧ tells l.loc l.value y →
    ∃ e, (m y)[r.view y]? = some e ∧ l.call ≤ e.call
  ordered : r.loads.Pairwise fun l l' => l'.loc = l.loc ∨ acquire l.loc = true ∧ tells l.loc l.value l'.loc → l.call ≤ l'.call

namespace Reader.Ok
variable {m : Memory V} {acquire : ι → Bool} {tells : (x : ι) → V x → ι → Prop} {r : Reader V}

theorem init (h : m.Ok) : Reader.Ok m acquire tells {} :=
  ⟨h.pos, fun l hl => by simp at hl, fun l hl => by simp at hl, List.Pairwise.nil⟩

theorem store [DecidableEq ι] (h : r.Ok m acquire tells) (x : ι) (e : Store V x) : r.Ok (m.store x e) acquire tells := by
  refine ⟨fun y => (h.view y).trans_le (Memory.length_store y), fun l hl => ?_, fun l hl y hy => ?_, h.ordered⟩
  · obtain ⟨e', he', hv⟩ := h.found l hl
    obtain ⟨i, hi⟩ := List.mem_iff_getElem?.1 he'
    exact ⟨e', List.mem_of_getElem? (Memory.getElem?_store hi), hv⟩
  · obtain ⟨e', he', hc⟩ := h.known l hl y hy
    exact ⟨e', Memory.getElem?_store he', hc⟩

theorem mono {tells' : (x : ι) → V x → ι → Prop} (h : r.Ok m acquire tells) (ht : ∀ x v y, tells' x v y → tells x v y) :
    r.Ok m acquire tells' :=
  ⟨h.view, h.found, fun l hl y hy => h.known l hl y (hy.imp_right fun hy => ⟨hy.1, ht _ _ _ hy.2⟩),
    h.ordered.imp fun h hy => h (hy.imp_right fun hy => ⟨hy.1, ht _ _ _ hy.2⟩)⟩

theorem call_le (hm : m.Ok) {x : ι} {i j : Nat} (hij : i ≤ j) {e e' : Store V x} (he : (m x)[i]? = some e)
    (he' : (m x)[j]? = some e') : e.call ≤ e'.call := by
  rcases Nat.lt_or_eq_of_le hij with hlt | rfl
  · obtain ⟨hi, rfl⟩ := List.getElem?_eq_some_iff.1 he
    obtain ⟨hj, rfl⟩ := List.getElem?_eq_some_iff.1 he'
    exact List.pairwise_iff_getElem.1 (hm.ordered x) i j hi hj hlt
  · rw [he, Option.some.injEq] at he'
    rw [he']

theorem load [DecidableEq ι] (h : r.Ok m acquire tells) (hm : m.Ok) (ht : m.Told tells) {x : ι} {i : Nat} {v : V x}
    {r' : Reader V} (hl : r.load m (acquire x) x i = some (v, r')) : r'.Ok m acquire tells := by
  obtain ⟨e, hfind, hr⟩ := Option.map_eq_some_iff.1 hl
  obtain ⟨hi, he⟩ := Memory.find_eq_some.1 hfind
  cases hr
  have hmem := List.mem_of_getElem? he
  have hbound : (r.view.after (acquire x) x i e.carried).In m :=
    h.view.after (List.getElem?_eq_some_iff.1 he).1 (hm.carried x e hmem)
  -- what was known at an index is known at a later one
  have hlater : ∀ {y j c} {e₁ : Store V y}, j ≤ r.view.after (acquire x) x i e.carried y → (m y)[j]? = some e₁ →
      c ≤ e₁.call → ∃ e₂, (m y)[r.view.after (acquire x) x i e.carried y]? = some e₂ ∧ c ≤ e₂.call := by
    intro y j c e₁ hj he₁ hc
    have he₂ := List.getElem?_eq_getElem (hbound y)
    exact ⟨_, he₂, hc.trans (call_le hm hj he₁ he₂)⟩
  refine ⟨hbound, fun l hl => ?_, fun l hl y hy => ?_, ?_⟩
  · rcases List.mem_append.1 hl with hl | hl
    · exact h.found l hl
    · rw [List.mem_singleton.1 hl]
      exact ⟨e, hmem, rfl, rfl⟩
  · rcases List.mem_append.1 hl with hl | hl
    · obtain ⟨e₁, he₁, hc⟩ := h.known l hl y hy
      exact hlater (View.le_after hi y) he₁ hc
    · rw [List.mem_singleton.1 hl] at hy ⊢
      rcases hy with rfl | ⟨hacq, hy⟩
      · exact hlater View.index_le_after he le_rfl
      · obtain ⟨e₁, he₁, hc⟩ := ht x e hmem y hy
        exact hlater (View.carried_le_after hacq y) he₁ hc
  · rw [List.pairwise_append]
    refine ⟨h.ordered, List.pairwise_singleton _ _, fun l hl l' hl' hy => ?_⟩
    rw [List.mem_singleton.1 hl'] at hy ⊢
    obtain ⟨e₁, he₁, hc⟩ := h.known l hl x hy
    exact hc.trans (call_le hm hi he₁ he)

end Reader.Ok

end ReleaseAcquire
