import Mdfh.Io.Lossless
import Mdfh.OrderBook.Remaining

/-!
# The routes of live orders

`Live` is the sequential reference: every resting order with its symbol and what is left of it, after
all messages sent so far. Books lag behind it by what is in flight (`Coherent.books`), routes do not: a
live order has a route (`Coherent.routes`). The one thing that takes a route away late is an Execute
that finds its order filled, so an id must not come back while such an Execute is not over
(`RoutingView.FillPending`). `RoutingView` shows of a pipeline what this is about: a message is sent or
settled.
-/

namespace Mdfh
open TreeMapLib
open LittleEndian (Bytes)

variable {n : NumShards}

/-! ### The reference -/

/-- The resting orders of all books. -/
abbrev Live := OrderId → Option (Symbol × Quantity)

namespace Live

def empty : Live := fun _ => none

def apply (l : Live) : DecodedMessage → Live
  | .add m => Function.update l m.orderId (some (m.symbol, m.quantity))
  | .cancel m => Function.update l m.orderId none
  | .execute m =>
    match l m.orderId with
    | none => l
    | some (s, q) =>
      if q < m.executedQuantity then l
      else Function.update l m.orderId (if q - m.executedQuantity = 0 then none else some (s, q - m.executedQuantity))
  | .replace m =>
    match l m.oldOrderId with
    | none => l
    | some (s, _) => Function.update (Function.update l m.oldOrderId none) m.newOrderId (some (s, m.quantity))

def applyAll (l : Live) (ms : List DecodedMessage) : Live := ms.foldl apply l

/-- The orders of one symbol. -/
def ofSymbol (l : Live) (sym : Symbol) : Remaining := fun id => (l id).bind fun e => if e.1 = sym then some e.2 else none

/-- The message refers to a live order and brings in no live id. -/
def Refers (l : Live) : DecodedMessage → Prop
  | .add m => l m.orderId = none
  | .cancel m => l m.orderId ≠ none
  | .execute m => l m.orderId ≠ none
  | .replace m => l m.oldOrderId ≠ none ∧ l m.newOrderId = none

/-- `Refers`, and no execution beyond the remaining quantity. -/
def Valid (l : Live) : DecodedMessage → Prop
  | .execute m => ∃ e ∈ l m.orderId, m.executedQuantity ≤ e.2
  | m => l.Refers m

instance (l : Live) : DecidablePred l.Valid
  | .add m => inferInstanceAs (Decidable (l m.orderId = none))
  | .cancel m => inferInstanceAs (Decidable (l m.orderId ≠ none))
  | .execute m => inferInstanceAs (Decidable (∃ e ∈ l m.orderId, m.executedQuantity ≤ e.2))
  | .replace m => inferInstanceAs (Decidable (l m.oldOrderId ≠ none ∧ l m.newOrderId = none))

/-- Each message of the stream is valid in its turn. -/
def ValidStream (l : Live) (ms : List DecodedMessage) : Prop :=
  ∀ pre m post, ms = pre ++ m :: post → (l.applyAll pre).Valid m

variable {l : Live}

@[simp] theorem applyAll_nil : l.applyAll [] = l := rfl
@[simp] theorem applyAll_cons (m : DecodedMessage) (ms : List DecodedMessage) :
    l.applyAll (m :: ms) = (l.apply m).applyAll ms := rfl

theorem applyAll_append (ms ms' : List DecodedMessage) : l.applyAll (ms ++ ms') = (l.applyAll ms).applyAll ms' :=
  List.foldl_append

theorem ValidStream.left {ms ms' : List DecodedMessage} (h : l.ValidStream (ms ++ ms')) : l.ValidStream ms := by
  rintro pre m post rfl
  exact h pre m (post ++ ms') (by simp)

theorem ValidStream.right {ms ms' : List DecodedMessage} (h : l.ValidStream (ms ++ ms')) :
    (l.applyAll ms).ValidStream ms' := by
  rintro pre m post rfl
  rw [← applyAll_append]
  exact h (ms ++ pre) m post (by simp)

theorem ValidStream.cons {m : DecodedMessage} {ms : List DecodedMessage} (hm : l.Valid m)
    (hms : (l.apply m).ValidStream ms) : l.ValidStream (m :: ms) := by
  intro pre m' post he
  cases pre with
  | nil =>
    obtain ⟨rfl, -⟩ := List.cons.inj he
    exact hm
  | cons x pre =>
    obtain ⟨rfl, he'⟩ := List.cons.inj he
    exact hms pre m' post he'

theorem ValidStream.nil : l.ValidStream [] := by
  intro pre m post he
  simp at he

theorem Valid.refers {m : DecodedMessage} (h : l.Valid m) : l.Refers m := by
  cases m with
  | execute m =>
    obtain ⟨e, he, -⟩ := h
    exact Option.ne_none_iff_exists'.2 ⟨e, he⟩
  | add m => exact h
  | cancel m => exact h
  | replace m => exact h

theorem ofSymbol_eq_some_iff {sym : Symbol} {id : OrderId} {q : Quantity} : l.ofSymbol sym id = some q ↔ l id = some (sym, q) := by
  unfold Live.ofSymbol
  rw [Option.bind_eq_some_iff]
  constructor
  · rintro ⟨⟨s, q'⟩, hl, he⟩
    split at he
    · next hs => rw [hl, ← Option.some.inj he, ← hs]
    · cases he
  · intro hl
    exact ⟨_, hl, if_pos rfl⟩

theorem ofSymbol_of_none {sym : Symbol} {id : OrderId} (h : l id = none) : l.ofSymbol sym id = none := by
  simp [Live.ofSymbol, h]

theorem ofSymbol_of_some {s sym : Symbol} {id : OrderId} {q : Quantity} (h : l id = some (s, q)) :
    l.ofSymbol sym id = if s = sym then some q else none := by
  simp [Live.ofSymbol, h]

/-- The symbol whose book the message is for. -/
def Home (l : Live) (m : DecodedMessage) (s : Symbol) : Prop :=
  match m with
  | .add a => a.symbol = s
  | m => ∃ q, l m.orderId = some (s, q)

theorem Refers.exists_home {m : DecodedMessage} (h : l.Refers m) : ∃ s, l.Home m s := by
  have key : ∀ id, l id ≠ none → ∃ s q, l id = some (s, q) := by
    intro id hid
    obtain ⟨e, he⟩ := Option.ne_none_iff_exists'.1 hid
    exact ⟨e.1, e.2, he⟩
  cases m with
  | add m => exact ⟨m.symbol, rfl⟩
  | cancel m => exact key m.orderId h
  | execute m => exact key m.orderId h
  | replace m => exact key m.oldOrderId h.1

theorem apply_execute {m : ExecuteOrder} {s : Symbol} {q : Quantity} (h : l m.orderId = some (s, q)) :
    l.apply (.execute m) = if q < m.executedQuantity then l
      else Function.update l m.orderId (if q - m.executedQuantity = 0 then none else some (s, q - m.executedQuantity)) := by
  simp only [apply, h]

theorem apply_replace {m : ReplaceOrder} {s : Symbol} {q : Quantity} (h : l m.oldOrderId = some (s, q)) :
    l.apply (.replace m) = Function.update (Function.update l m.oldOrderId none) m.newOrderId (some (s, m.quantity)) := by
  simp only [apply, h]

theorem apply_of_none {m : DecodedMessage} {id : OrderId} (hr : l.Refers m) (h : l id = none)
    (hm : m.introduced ≠ some id) : l.apply m id = none := by
  obtain ⟨s, hs⟩ := hr.exists_home
  cases m with
  | add m =>
    have : id ≠ m.orderId := fun e => hm (by rw [e]; rfl)
    rw [apply, Function.update_of_ne this, h]
  | cancel m =>
    rw [apply, Function.update_apply, h, ite_self]
  | execute m =>
    obtain ⟨q, hq⟩ := hs
    have : id ≠ m.orderId := fun e => hr (e ▸ h)
    rw [apply_execute hq]
    split
    · exact h
    · rw [Function.update_of_ne this, h]
  | replace m =>
    obtain ⟨q, hq⟩ := hs
    have : id ≠ m.newOrderId := fun e => hm (by rw [e]; rfl)
    rw [apply_replace hq, Function.update_of_ne this, Function.update_apply, h, ite_self]

theorem apply_of_ne {m : DecodedMessage} {id : OrderId} (h : id ≠ m.orderId) (hm : m.introduced ≠ some id) :
    l.apply m id = l id := by
  cases m with
  | add m => exact Function.update_of_ne h _ _
  | cancel m => exact Function.update_of_ne h _ _
  | execute m =>
    cases he : l m.orderId with
    | none => simp only [apply, he]
    | some e =>
      rw [apply_execute he]
      split
      · rfl
      · exact Function.update_of_ne h _ _
  | replace m =>
    have : id ≠ m.newOrderId := fun e => hm (by rw [e]; rfl)
    cases he : l m.oldOrderId with
    | none => simp only [apply, he]
    | some e =>
      rw [apply_replace he, Function.update_of_ne this]
      exact Function.update_of_ne h _ _

theorem ofSymbol_update (id : OrderId) (e : Option (Symbol × Quantity)) (sym : Symbol) :
    ofSymbol (Function.update l id e) sym =
      Function.update (l.ofSymbol sym) id (e.bind fun e => if e.1 = sym then some e.2 else none) := by
  funext id'
  rw [ofSymbol, Function.update_apply, Function.update_apply]
  split <;> rfl

theorem update_ofSymbol_none {sym : Symbol} {id : OrderId} (h : ∀ q, l id ≠ some (sym, q)) :
    Function.update (l.ofSymbol sym) id none = l.ofSymbol sym := by
  have : l.ofSymbol sym id = none := by
    rw [Option.eq_none_iff_forall_ne_some]
    exact fun q hq => h q (ofSymbol_eq_some_iff.1 hq)
  rw [← this, Function.update_eq_self]

/-- The reference changes in the message's own book only, and there as the book does. -/
theorem ofSymbol_apply {m : DecodedMessage} {s : Symbol} (hr : l.Refers m) (hs : l.Home m s) (sym : Symbol) :
    (l.apply m).ofSymbol sym = if sym = s then applyRemaining (l.ofSymbol sym) m else l.ofSymbol sym := by
  have hother : ∀ {id s' q}, l id = some (s', q) → sym ≠ s' → ∀ q', l id ≠ some (sym, q') := by
    intro id s' q hid hne q' hq'
    rw [hid, Option.some.injEq, Prod.mk.injEq] at hq'
    exact hne hq'.1.symm
  cases m with
  | add m =>
    have hnew : l m.orderId = none := hr
    obtain rfl : m.symbol = s := hs
    rw [apply, ofSymbol_update]
    by_cases hsym : sym = m.symbol
    · rw [if_pos hsym, applyRemaining, ofSymbol_of_none hnew, if_neg (by simp)]
      simp [hsym]
    · rw [if_neg hsym]
      have hnone : ∀ q, l m.orderId ≠ some (sym, q) := by simp [hnew]
      refine Eq.trans ?_ (update_ofSymbol_none hnone)
      simp [Ne.symm hsym]
  | cancel m =>
    obtain ⟨q, hq⟩ := hs
    rw [apply, ofSymbol_update]
    split
    · rfl
    · next hsym => exact update_ofSymbol_none (hother hq hsym)
  | execute m =>
    obtain ⟨q, hq⟩ := hs
    have hq' : l m.orderId = some (s, q) := hq
    rw [apply_execute hq]
    by_cases hsym : sym = s
    · have hrem : l.ofSymbol sym m.orderId = some q := by rw [ofSymbol_of_some hq', if_pos hsym.symm]
      simp only [applyRemaining, hrem, if_pos hsym]
      split
      · rfl
      · rw [ofSymbol_update]
        split
        · rfl
        · simp [hsym]
    · rw [if_neg hsym]
      split
      · rfl
      · rw [ofSymbol_update]
        refine Eq.trans ?_ (update_ofSymbol_none (hother hq' hsym))
        split
        · rfl
        · simp [Ne.symm hsym]
  | replace m =>
    obtain ⟨q, hq⟩ := hs
    have hq' : l m.oldOrderId = some (s, q) := hq
    have hnew : l m.newOrderId = none := hr.2
    rw [apply_replace hq, ofSymbol_update, ofSymbol_update]
    by_cases hsym : sym = s
    · have hcond : (l.ofSymbol sym m.oldOrderId).isSome = true ∧ (l.ofSymbol sym m.newOrderId).isNone = true := by
        rw [ofSymbol_of_some hq', if_pos hsym.symm, ofSymbol_of_none hnew]
        exact ⟨rfl, rfl⟩
      rw [if_pos hsym, applyRemaining, if_pos hcond]
      simp [hsym]
    · rw [if_neg hsym]
      have hold := update_ofSymbol_none (hother hq' hsym)
      have hnone : ∀ q, l m.newOrderId ≠ some (sym, q) := by simp [hnew]
      refine Eq.trans ?_ (update_ofSymbol_none hnone)
      simp [Ne.symm hsym, hold]

end Live

/-! ### Live orders have routes -/

namespace RoutingView

/-- An Execute of `id` is still to come whose book will not have `id` any more after it. -/
def FillPending (v : RoutingView n) (id : OrderId) : Prop :=
  ∃ sym pre x post, v.pending sym = pre ++ .execute x :: post ∧ x.orderId = id ∧
    ((v.book sym).applyAll (pre ++ [.execute x])).hasOrder id = false

variable {v v' : RoutingView n} {m : DecodedMessage} {s : Symbol} {id : OrderId}

theorem not_fillPending (h : ∀ sym, v.pending sym = []) : ¬ v.FillPending id := by
  rintro ⟨sym, pre, x, post, hp, -⟩
  rw [h] at hp
  simp at hp

theorem Sends.fillPending_iff (hv : v.Sends m s v') : v'.FillPending id ↔ v.FillPending id ∨
    ∃ x, m = .execute x ∧ x.orderId = id ∧ ((v.book s).applyAll (v.pending s ++ [m])).hasOrder id = false := by
  constructor
  · rintro ⟨sym, pre, x, post, hp, hx, ha⟩
    rw [hv.pending] at hp
    rw [hv.book] at ha
    split at hp
    · next hs =>
      subst hs
      rcases List.eq_nil_or_concat post with rfl | ⟨post, m', rfl⟩
      · obtain ⟨rfl, hm⟩ := List.append_inj_left' hp rfl, List.append_inj_right' hp rfl
        obtain rfl : m = .execute x := List.cons.inj hm |>.1
        exact .inr ⟨x, rfl, hx, ha⟩
      · rw [List.concat_eq_append, ← List.cons_append, ← List.append_assoc] at hp
        exact .inl ⟨sym, pre, x, post, List.append_inj_left' hp rfl, hx, ha⟩
    · rw [List.append_nil] at hp
      exact .inl ⟨sym, pre, x, post, hp, hx, ha⟩
  · rintro (⟨sym, pre, x, post, hp, hx, ha⟩ | ⟨x, rfl, hx, ha⟩)
    · refine ⟨sym, pre, x, post ++ if sym = s then [m] else [], ?_, hx, ?_⟩
      · rw [hv.pending, hp, List.append_assoc, List.cons_append]
      · rw [hv.book, ha]
    · refine ⟨s, v.pending s, x, [], ?_, hx, ?_⟩
      · rw [hv.pending, if_pos rfl]
      · rw [hv.book, ha]

theorem Settles.applyAll (hv : v.Settles m s v') (sym : Symbol) (ms : List DecodedMessage) :
    (v'.book sym).applyAll ms = (v.book sym).applyAll ((if sym = s then [m] else []) ++ ms) := by
  rw [hv.book, OrderBook.applyAll_append]
  split
  · next hs => rw [hs]; rfl
  · rfl

/-- The cleanup after an Execute is the end of a pending fill. -/
theorem Settles.fillPending_iff (hv : v.Settles m s v') : v.FillPending id ↔ v'.FillPending id ∨
    ∃ x, m = .execute x ∧ x.orderId = id ∧ (v'.book s).hasOrder id = false := by
  constructor
  · rintro ⟨sym, pre, x, post, hpend, hx, ha⟩
    rw [hv.pending] at hpend
    by_cases hs : sym = s
    · rw [if_pos hs] at hpend
      cases pre with
      | nil =>
        obtain ⟨rfl, -⟩ := List.cons.inj hpend
        refine .inr ⟨x, rfl, hx, ?_⟩
        rw [hv.book, if_pos rfl, ← hs]
        exact ha
      | cons m' pre =>
        obtain ⟨rfl, hrest⟩ := List.cons.inj hpend
        refine .inl ⟨sym, pre, x, post, hrest, hx, ?_⟩
        rw [hv.applyAll, if_pos hs]
        exact ha
    · rw [if_neg hs] at hpend
      refine .inl ⟨sym, pre, x, post, hpend, hx, ?_⟩
      rw [hv.applyAll, if_neg hs]
      exact ha
  · rintro (⟨sym, pre, x, post, hpend, hx, ha⟩ | ⟨x, rfl, hx, hb⟩)
    · refine ⟨sym, (if sym = s then [m] else []) ++ pre, x, post, ?_, hx, ?_⟩
      · rw [hv.pending, hpend, List.append_assoc]
      · rw [List.append_assoc, ← hv.applyAll, ha]
    · refine ⟨s, [], x, v'.pending s, ?_, hx, ?_⟩
      · rw [hv.pending, if_pos rfl]
        rfl
      · rw [hv.book, if_pos rfl] at hb
        exact hb

end RoutingView

/-- The books lag behind the reference by what is pending, and the routes are those of the live orders
and of the filled ones whose Execute is still to come. -/
structure Coherent (l : Live) (v : RoutingView n) : Prop where
  books : ∀ sym, ((v.book sym).applyAll (v.pending sym)).remaining = l.ofSymbol sym
  routes : ∀ id s q, l id = some (s, q) → v.orderRoute[id]? = some ⟨shardForSymbol n s, s⟩
  filled : ∀ id, v.FillPending id → l id = none
  only : ∀ id, v.orderRoute.contains id = true → l id ≠ none ∨ v.FillPending id

namespace Coherent
variable {l : Live} {v v' : RoutingView n} {m : DecodedMessage} {s : Symbol}

theorem init (hr : v.orderRoute = ∅) (hb : ∀ sym, v.book sym = .empty) (hp : ∀ sym, v.pending sym = []) :
    Coherent Live.empty v := by
  refine ⟨?_, ?_, ?_, ?_⟩
  · intro sym
    rw [hp, hb]
    funext id
    simp [Live.ofSymbol, Live.empty]
  · intro id s q h
    cases h
  · intro id h
    rfl
  · intro id h
    simp [hr] at h

theorem destination_eq (h : Coherent l v) (hs : l.Home m s) :
    destination v.orderRoute m = some ⟨shardForSymbol n s, s⟩ := by
  cases m with
  | add m =>
    obtain rfl : m.symbol = s := hs
    rfl
  | cancel m =>
    obtain ⟨q, hq⟩ := hs
    exact h.routes _ _ _ hq
  | execute m =>
    obtain ⟨q, hq⟩ := hs
    exact h.routes _ _ _ hq
  | replace m =>
    obtain ⟨q, hq⟩ := hs
    exact h.routes _ _ _ hq

theorem route_eq (h : Coherent l v) (hs : l.Home m s) : route v.orderRoute m =
    .ok (⟨shardForSymbol n s, s⟩, routeAfter v.orderRoute ⟨shardForSymbol n s, s⟩ m) := by
  rw [route_eq_destination, h.destination_eq hs]

theorem routes_after (h : Coherent l v) (hs : l.Home m s) : ∀ id s' q, l.apply m id = some (s', q) →
    (routeAfter v.orderRoute ⟨shardForSymbol n s, s⟩ m)[id]? = some ⟨shardForSymbol n s', s'⟩ := by
  intro id s' q hid
  cases m with
  | add m =>
    obtain rfl : m.symbol = s := hs
    rw [Live.apply, Function.update_apply] at hid
    rw [routeAfter, getElem?_insert]
    split at hid
    · next e =>
      cases hid
      rw [if_pos e]
    · next e => rw [if_neg e]; exact h.routes _ _ _ hid
  | cancel m =>
    rw [Live.apply, Function.update_apply] at hid
    rw [routeAfter, getElem?_erase]
    split at hid
    · cases hid
    · next e => rw [if_neg e]; exact h.routes _ _ _ hid
  | execute m =>
    obtain ⟨q₀, hq₀⟩ := hs
    rw [Live.apply_execute hq₀] at hid
    split at hid
    · exact h.routes _ _ _ hid
    · rw [Function.update_apply] at hid
      split at hid
      · next e =>
        rw [e]
        split at hid
        · cases hid
        · cases hid
          exact h.routes _ _ _ hq₀
      · exact h.routes _ _ _ hid
  | replace m =>
    obtain ⟨q₀, hq₀⟩ := hs
    rw [Live.apply_replace hq₀, Function.update_apply, Function.update_apply] at hid
    rw [routeAfter, getElem?_insert, getElem?_erase]
    split at hid
    · next e =>
      cases hid
      rw [if_pos e]
    · next e =>
      rw [if_neg e]
      split at hid
      · cases hid
      · next e' => rw [if_neg e']; exact h.routes _ _ _ hid

theorem remaining_home (h : Coherent l v) (hr : l.Refers m) (hs : l.Home m s) :
    ((v.book s).applyAll (v.pending s ++ [m])).remaining = (l.apply m).ofSymbol s := by
  rw [OrderBook.applyAll_append, OrderBook.applyAll_cons, OrderBook.applyAll_nil, OrderBook.remaining_apply, h.books,
    Live.ofSymbol_apply hr hs, if_pos rfl]

section Sends
variable (hv : v.Sends m s v')
include hv

theorem books_after (h : Coherent l v) (hr : l.Refers m) (hs : l.Home m s) (sym : Symbol) :
    ((v'.book sym).applyAll (v'.pending sym)).remaining = (l.apply m).ofSymbol sym := by
  rw [hv.book, hv.pending]
  split
  · next hsym => rw [hsym, h.remaining_home hr hs]
  · next hsym => rw [List.append_nil, h.books, Live.ofSymbol_apply hr hs, if_neg hsym]

theorem filled_after (h : Coherent l v) (hr : l.Refers m) (hs : l.Home m s)
    (hnew : ∀ id ∈ m.introduced, ¬ v.FillPending id) {id : OrderId} (hf : v'.FillPending id) : l.apply m id = none := by
  rcases hv.fillPending_iff.1 hf with hf | ⟨x, rfl, rfl, ha⟩
  · exact Live.apply_of_none hr (h.filled id hf) fun hi => hnew id hi hf
  · -- nothing is left of the order in its book, and it is in no other
    rw [OrderBook.hasOrder_eq_remaining, h.remaining_home hr hs, Option.isSome_eq_false_iff,
      Option.isNone_iff_eq_none] at ha
    obtain ⟨q, hq⟩ := hs
    have hq' : l x.orderId = some (s, q) := hq
    rw [Live.apply_execute hq] at ha ⊢
    split at ha
    · rw [Live.ofSymbol_of_some hq', if_pos rfl] at ha
      cases ha
    · next hlt =>
      rw [if_neg hlt, Function.update_self]
      rw [Live.ofSymbol_update, Function.update_self] at ha
      split at ha
      · next hz => rw [if_pos hz]
      · simp at ha

/-- A route belongs to a live order or to one whose fill is pending. -/
theorem only_after (h : Coherent l v) (hr : l.Refers m) (hs : l.Home m s) {id : OrderId}
    (hc : v'.orderRoute.contains id = true) : l.apply m id ≠ none ∨ v'.FillPending id := by
  have hold : v.orderRoute.contains id = true → (l id ≠ none → l.apply m id ≠ none) →
      l.apply m id ≠ none ∨ v'.FillPending id := by
    intro hc hkeep
    rcases h.only id hc with hl | hf
    · exact .inl (hkeep hl)
    · exact .inr (hv.fillPending_iff.2 (.inl hf))
  rw [hv.orderRoute, contains_routeAfter] at hc
  cases m with
  | add m =>
    rw [routeMark, Bool.or_eq_true, beq_iff_eq] at hc
    by_cases hid : id = m.orderId
    · rw [hid, Live.apply, Function.update_self]
      exact .inl (Option.some_ne_none _)
    · refine hold (hc.resolve_right hid) ?_
      rw [Live.apply, Function.update_of_ne hid]
      exact fun hl => hl
  | cancel m =>
    rw [routeMark, Bool.and_eq_true, bne_iff_ne] at hc
    refine hold hc.1 ?_
    rw [Live.apply, Function.update_of_ne hc.2]
    exact fun hl => hl
  | execute m =>
    by_cases hn : l.apply (.execute m) id = none
    · by_cases hid : id = m.orderId
      · refine .inr (hv.fillPending_iff.2 (.inr ⟨m, rfl, hid.symm, ?_⟩))
        rw [OrderBook.hasOrder_eq_remaining, h.remaining_home hr hs, Live.ofSymbol_of_none hn]
        rfl
      · refine hold hc fun hl => ?_
        obtain ⟨q, hq⟩ := hs
        rw [Live.apply_execute hq]
        split
        · exact hl
        · rwa [Function.update_of_ne hid]
    · exact .inl hn
  | replace m =>
    obtain ⟨q, hq⟩ := hs
    rw [routeMark, Bool.or_eq_true, beq_iff_eq, Bool.and_eq_true, bne_iff_ne] at hc
    by_cases hid : id = m.newOrderId
    · rw [hid, Live.apply_replace hq, Function.update_self]
      exact .inl (Option.some_ne_none _)
    · obtain ⟨hc, hne⟩ := hc.resolve_right hid
      refine hold hc ?_
      rw [Live.apply_replace hq, Function.update_of_ne hid, Function.update_of_ne hne]
      exact fun hl => hl

/-- The reference and the view take a message that refers to a live order; no fill of an id it brings in
may be pending. -/
theorem sends (h : Coherent l v) (hr : l.Refers m) (hs : l.Home m s) (hnew : ∀ id ∈ m.introduced, ¬ v.FillPending id) :
    Coherent (l.apply m) v' := by
  refine ⟨h.books_after hv hr hs, ?_, fun id => h.filled_after hv hr hs hnew, fun id => h.only_after hv hr hs⟩
  rw [hv.orderRoute]
  exact h.routes_after hs

end Sends

/-- Settling moves the view, not the reference. -/
theorem settles (h : Coherent l v) (hv : v.Settles m s v') : Coherent l v' := by
  refine ⟨?_, ?_, ?_, ?_⟩
  · intro sym
    rw [hv.applyAll, ← hv.pending]
    exact h.books sym
  · intro id s' q hl
    rw [hv.orderRoute]
    cases m with
    | execute x =>
      simp only [eraseFilled]
      split
      · next hb =>
        rw [Bool.not_eq_true'] at hb
        rw [getElem?_erase, if_neg, h.routes id s' q hl]
        -- the entry of a live order is not the one taken away
        intro e
        have := h.filled id (hv.fillPending_iff.2 (.inr ⟨x, rfl, e.symm, e ▸ hb⟩))
        rw [hl] at this
        cases this
      · exact h.routes id s' q hl
    | add x => exact h.routes id s' q hl
    | cancel x => exact h.routes id s' q hl
    | replace x => exact h.routes id s' q hl
  · intro id hf
    exact h.filled id (hv.fillPending_iff.2 (.inl hf))
  · intro id hc
    rw [hv.orderRoute] at hc
    refine (h.only id (contains_of_eraseFilled hc)).imp_right fun hf => (hv.fillPending_iff.1 hf).resolve_right ?_
    rintro ⟨x, rfl, rfl, hb⟩
    simp [eraseFilled, hb] at hc

end Coherent

/-! ### The pipeline -/

namespace ShardedPipeline
variable {l : Live} {p p' : ShardedPipeline n}

theorem Drained.pendingFor {p : ShardedPipeline n} (h : p.Drained) (sym : Symbol) : p.pendingFor sym = [] := by
  rw [ShardedPipeline.pendingFor, h]
  rfl

/-- Every message waits at its symbol's shard, and the pipeline lags behind the reference. -/
structure Serves (p : ShardedPipeline n) (l : Live) : Prop where
  queued : ∀ i, ∀ qm ∈ (p.shards i).queue.items, shardForSymbol n qm.symbol = i
  coherent : Coherent l p.routingView

namespace Serves
variable {r : Run n}

theorem init : ({} : ShardedPipeline n).Serves Live.empty := by
  have hdrained : ({} : ShardedPipeline n).Drained := fun _ => rfl
  refine ⟨?_, .init rfl (fun sym => ?_) hdrained.pendingFor⟩
  · intro i qm hqm
    simp at hqm
  · simp [routingView, ShardedPipeline.book, ShardState.book]

theorem demux_eq (h : p.Serves l) {raw : Bytes} {m : DecodedMessage} (hd : decode raw = .ok m) {s : Symbol}
    (hs : l.Home m s) : p.demux raw = (.ok (shardForSymbol n s), p.routed m s) := by
  have hdest : destination p.orderRoute m = some ⟨shardForSymbol n s, s⟩ := h.coherent.destination_eq hs
  rw [demux_of_decode hd, hdest]
  rfl

theorem demux (h : p.Serves l) {raw : Bytes} {m : DecodedMessage} (hd : decode raw = .ok m) (hr : l.Refers m)
    (hnew : ∀ id ∈ m.introduced, ¬ p.routingView.FillPending id)
    (hdrop : ∀ i, ((p.demux raw).2.shards i).queue.dropped = (p.shards i).queue.dropped) :
    (∃ i, (p.demux raw).1 = .ok i) ∧ (p.demux raw).2.Serves (l.apply m) := by
  obtain ⟨s, hs⟩ := hr.exists_home
  have he := h.demux_eq hd hs
  rw [he] at hdrop ⊢
  have hroom : (p.shards (shardForSymbol n s)).queue.items.length < kShardQueueCapacity := by
    have := hdrop (shardForSymbol n s)
    rw [routed, queue_enqueue, if_pos rfl] at this
    exact DropOldest.dropped_push_iff.1 this
  refine ⟨⟨_, rfl⟩, ?_, h.coherent.sends (sends_routed hroom) hr hs hnew⟩
  intro i qm hqm
  rw [routed, queue_enqueue] at hqm
  split at hqm
  · next hi =>
    rcases Placed.mem_push hqm with hqm | rfl
    · exact hi ▸ h.queued _ qm hqm
    · exact hi.symm
  · exact h.queued i qm hqm

theorem processed (h : p.Serves l) {i : Fin n.1} {qm : QueuedMessage} {result : Except ApplyError ApplyResult}
    (hp : p.Processed i qm result p') : p'.Serves l :=
  ⟨fun j qm' hqm' => h.queued j qm' (hp.mem_queue hqm'), h.coherent.settles (hp.settles (h.queued i qm hp.head_mem))⟩

theorem congr (h : p.Serves l) (hq : ∀ i, (p'.shards i).queue = (p.shards i).queue)
    (hb : ∀ i, (p'.shards i).books = (p.shards i).books) (hr : p'.orderRoute = p.orderRoute) : p'.Serves l := by
  have hview : p'.routingView = p.routingView := by
    have hbook : p'.book = p.book := by
      funext sym
      rw [ShardedPipeline.book, ShardState.book, hb]
      rfl
    have hpend : p'.pendingFor = p.pendingFor := by
      funext sym
      rw [ShardedPipeline.pendingFor, hq]
      rfl
    rw [routingView, hr, hbook, hpend]
    rfl
  refine ⟨fun i => ?_, hview ▸ h.coherent⟩
  rw [hq]
  exact h.queued i

theorem step_of_ne_demux (h : r.pipeline.Serves l) {op : Op n} (hop : ∀ raw, op ≠ .demux raw) :
    (r.step op).pipeline.Serves l := by
  cases op with
  | demux raw => exact absurd rfl (hop raw)
  | process i =>
    rcases r.step_process i with ⟨-, hr⟩ | ⟨qm, result, p', hp, hr⟩
    · rw [hr]; exact h
    · rw [hr]; exact h.processed hp
  | publish i =>
    refine h.congr (fun j => (r.step_publish i j).2) (fun j => ?_) rfl
    rw [(r.step_publish i j).1]
  | resync i k => exact h.congr (fun j => (r.step_resync i k j).2) (fun j => (r.step_resync i k j).1) rfl

end Serves
end ShardedPipeline

end Mdfh
