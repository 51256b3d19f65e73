import Mdfh.OrderBook.BookInv

/-!
# `apply` on a well-formed book

One specification per message kind, on the queues: which error is returned or which levels are
reported, and what the queues and the set of resting ids become. `apply` never leaves its containers
on a well-formed book and returns a well-formed book, so `OrderBook` pairs a book with its invariant
and `OrderBook.apply` is total.
-/

namespace Mdfh
open TreeMapLib

namespace OrderBookT
variable {b : OrderBookT}

/-- The resting order of an id, as the index finds it. -/
def resting (b : OrderBookT) (id : OrderId) : Option RestingOrder := do
  let loc ← b.orderIndex[id]?
  b.deref loc

namespace RepInv

theorem deref_eq (h : b.RepInv) {id : OrderId} {loc : OrderLocation} (hloc : b.orderIndex[id]? = some loc) :
    ∃ o, b.deref loc = some o ∧ o.orderId = id ∧ o.side = loc.side ∧ o.price = loc.price ∧
      o ∈ b.queue loc.side.isBuy loc.price := by
  obtain ⟨l, n, hl, hf, hn, -, hid, hs, hp⟩ := h.find hloc
  refine ⟨n.order, by simp [deref, levelFor_eq, hl, hf], hid, hs, hp, ?_⟩
  exact (b.mem_queue_iff _ _ _).2 ⟨l, hl, n, hn, rfl⟩

theorem resting_eq_some_iff (h : b.RepInv) {id : OrderId} {o : RestingOrder} :
    b.resting id = some o ↔ o.orderId = id ∧ o ∈ b.queue o.side.isBuy o.price := by
  unfold resting
  constructor
  · intro hr
    obtain ⟨loc, hloc, hd⟩ := Option.bind_eq_some_iff.1 hr
    obtain ⟨o', ho', hid, hs, hp, hmem⟩ := h.deref_eq hloc
    rw [hd, Option.some.injEq] at ho'
    subst ho'
    exact ⟨hid, by rw [hs, hp]; exact hmem⟩
  · rintro ⟨rfl, hmem⟩
    obtain ⟨-, -, it, hi⟩ := h.index_of_mem hmem
    obtain ⟨o', ho', hid, -, -, hmem'⟩ := h.deref_eq hi
    rw [hi, Option.bind_eq_bind, Option.bind_some, ho', (h.unique hmem' hmem hid).1]

theorem hasOrder_iff_resting (h : b.RepInv) {id : OrderId} : b.hasOrder id = true ↔ ∃ o, b.resting id = some o := by
  rw [hasOrder, contains_iff]
  constructor
  · rintro ⟨loc, hloc⟩
    obtain ⟨o, ho, -⟩ := h.deref_eq hloc
    exact ⟨o, by simp [resting, hloc, ho]⟩
  · rintro ⟨o, ho⟩
    obtain ⟨loc, hloc, -⟩ := Option.bind_eq_some_iff.1 ho
    exact ⟨loc, hloc⟩

theorem index_of_resting (h : b.RepInv) {id : OrderId} {o : RestingOrder} (hr : b.resting id = some o) :
    ∃ it, b.orderIndex[id]? = some ⟨o.side, o.price, it⟩ := by
  obtain ⟨rfl, hmem⟩ := h.resting_eq_some_iff.1 hr
  obtain ⟨-, -, it, hi⟩ := h.index_of_mem hmem
  exact ⟨it, hi⟩

/-- Under the invariant a level's total is the sum of its queue, `0` where there is no level. -/
theorem totals_eq (h : b.RepInv) (s : Bool) (q : Price) :
    ((b.level s q).getD {}).totalQuantity = sumQuantity (b.queue s q) := by
  cases hl : b.level s q with
  | none => rw [(h.level_eq_none_iff s q).1 hl]; rfl
  | some l => rw [← h.total_eq hl]; rfl

end RepInv

/-! ### The four message kinds -/

theorem RepInv.remove_spec (h : b.RepInv) {id : OrderId} {o : RestingOrder} (hr : b.resting id = some o) :
    ∃ b', b.removeRestingOrder id = some (⟨o.side, o.price, sumQuantity (b'.queue o.side.isBuy o.price)⟩, b') ∧
      b'.RepInv ∧ (∀ s q, b'.queue s q = (b.queue s q).filter (·.orderId != id)) ∧
      b'.orderIndex = b.orderIndex.erase id := by
  obtain ⟨it, hi⟩ := h.index_of_resting hr
  obtain ⟨b', hrem, hb', hq, hidx, -⟩ := h.remove hi
  exact ⟨b', by rw [hrem, hb'.totals_eq], hb', hq, hidx⟩

theorem RepInv.insert_spec (h : b.RepInv) (o : RestingOrder) (hnew : b.hasOrder o.orderId = false) :
    ∃ b', b.insertRestingOrder o = (sumQuantity (b'.queue o.side.isBuy o.price), b') ∧ b'.RepInv ∧
      (∀ s q, b'.queue s q = if s = o.side.isBuy ∧ q = o.price then b.queue s q ++ [o] else b.queue s q) ∧
      ∃ it, b'.orderIndex = b.orderIndex.insert o.orderId ⟨o.side, o.price, it⟩ := by
  refine ⟨(b.insertRestingOrder o).2, Prod.ext ?_ rfl, h.insert o ((contains_eq_false_iff _ _).1 hnew),
    b.queue_insert o, b.nextAddr, b.orderIndex_insert o⟩
  rw [b.queue_insert, if_pos ⟨rfl, rfl⟩, sumQuantity_append, ← h.totals_eq, total_insert]
  simp

theorem hasOrder_erase {b' : OrderBookT} {id : OrderId} (h : b'.orderIndex = b.orderIndex.erase id) (id' : OrderId) :
    b'.hasOrder id' = (b.hasOrder id' && id' != id) := by
  rw [hasOrder, h, contains_erase]; rfl

theorem hasOrder_insert {b' : OrderBookT} {id : OrderId} {loc : OrderLocation}
    (h : b'.orderIndex = b.orderIndex.insert id loc) (id' : OrderId) :
    b'.hasOrder id' = (b.hasOrder id' || id' == id) := by
  rw [hasOrder, h, contains_insert]; rfl

theorem applyAdd_dup (m : AddOrder) (hd : b.hasOrder m.orderId = true) :
    b.applyAdd m = some (.error .duplicateOrderId, b) := by
  rw [hasOrder] at hd
  simp [applyAdd, hd]

theorem RepInv.applyAdd_ok (h : b.RepInv) (m : AddOrder) (hd : b.hasOrder m.orderId = false) :
    ∃ b', b.applyAdd m = some (.ok [⟨m.side, m.price, sumQuantity (b'.queue m.side.isBuy m.price)⟩], b') ∧ b'.RepInv ∧
      (∀ s q, b'.queue s q = if s = m.side.isBuy ∧ q = m.price then
        b.queue s q ++ [⟨m.orderId, m.side, m.price, m.quantity⟩] else b.queue s q) ∧
      ∀ id, b'.hasOrder id = (b.hasOrder id || id == m.orderId) := by
  obtain ⟨b', hins, hb', hq, it, hidx⟩ := h.insert_spec ⟨m.orderId, m.side, m.price, m.quantity⟩ hd
  refine ⟨b', ?_, hb', hq, hasOrder_insert hidx⟩
  rw [hasOrder] at hd
  simp [applyAdd, hd, hins, ApplyResult.add]

theorem applyCancel_notFound (m : CancelOrder) (hd : b.hasOrder m.orderId = false) :
    b.applyCancel m = some (.error .orderNotFound, b) := by
  rw [hasOrder] at hd
  simp [applyCancel, hd]

theorem RepInv.applyCancel_ok (h : b.RepInv) (m : CancelOrder) {o : RestingOrder} (hr : b.resting m.orderId = some o) :
    ∃ b', b.applyCancel m = some (.ok [⟨o.side, o.price, sumQuantity (b'.queue o.side.isBuy o.price)⟩], b') ∧
      b'.RepInv ∧ (∀ s q, b'.queue s q = (b.queue s q).filter (·.orderId != m.orderId)) ∧
      ∀ id, b'.hasOrder id = (b.hasOrder id && id != m.orderId) := by
  obtain ⟨b', hrem, hb', hq, hidx⟩ := h.remove_spec hr
  have hd := h.hasOrder_iff_resting.2 ⟨o, hr⟩
  refine ⟨b', ?_, hb', hq, hasOrder_erase hidx⟩
  rw [hasOrder] at hd
  simp [applyCancel, hd, hrem, ApplyResult.add]

theorem applyExecute_notFound (m : ExecuteOrder) (hd : b.hasOrder m.orderId = false) :
    b.applyExecute m = some (.error .orderNotFound, b) := by
  rw [hasOrder, contains_eq_false_iff] at hd
  simp [applyExecute, hd]

theorem applyExecute_exceeds (m : ExecuteOrder) {o : RestingOrder}
    (hr : b.resting m.orderId = some o) (hx : o.quantity < m.executedQuantity) :
    b.applyExecute m = some (.error .executedQuantityExceedsRemaining, b) := by
  obtain ⟨loc, hloc, hd⟩ := Option.bind_eq_some_iff.1 hr
  simp [applyExecute, hloc, hd, hx]

theorem RepInv.applyExecute_rest (h : b.RepInv) (m : ExecuteOrder) {o : RestingOrder}
    (hr : b.resting m.orderId = some o) (hx : m.executedQuantity ≤ o.quantity)
    (hz : o.quantity - m.executedQuantity ≠ 0) :
    ∃ b', b.applyExecute m = some (.ok [⟨o.side, o.price, sumQuantity (b'.queue o.side.isBuy o.price)⟩], b') ∧
      b'.RepInv ∧
      (∀ s q, b'.queue s q = (b.queue s q).map fun o' =>
        if o'.orderId = m.orderId then o'.reduce m.executedQuantity else o') ∧
      ∀ id, b'.hasOrder id = b.hasOrder id := by
  obtain ⟨loc, hloc, hd⟩ := Option.bind_eq_some_iff.1 hr
  obtain ⟨o', ho', -, hs, hp, -⟩ := h.deref_eq hloc
  rw [hd, Option.some.injEq] at ho'
  subst ho'
  obtain ⟨l, n, hl, -⟩ := h.find hloc
  obtain ⟨hb', hq⟩ := h.reduce hloc hl m.executedQuantity
  refine ⟨_, ?_, hb', hq, fun id => by simp [hasOrder]⟩
  have ht := hb'.totals_eq loc.side.isBuy loc.price
  rw [level_setLevel, if_pos ⟨rfl, rfl⟩, Option.getD_some] at ht
  simp [applyExecute, hloc, hd, UInt32.not_lt.2 hx, levelFor_eq, hl, hz, ApplyResult.add, hs, hp, ht]

theorem RepInv.applyExecute_all (h : b.RepInv) (m : ExecuteOrder) {o : RestingOrder}
    (hr : b.resting m.orderId = some o) (hx : m.executedQuantity ≤ o.quantity)
    (hz : o.quantity - m.executedQuantity = 0) :
    ∃ b', b.applyExecute m = some (.ok [⟨o.side, o.price, sumQuantity (b'.queue o.side.isBuy o.price)⟩], b') ∧
      b'.RepInv ∧ (∀ s q, b'.queue s q = (b.queue s q).filter (·.orderId != m.orderId)) ∧
      ∀ id, b'.hasOrder id = (b.hasOrder id && id != m.orderId) := by
  obtain ⟨loc, hloc, hd⟩ := Option.bind_eq_some_iff.1 hr
  obtain ⟨o', ho', hid, hs, hp, hmem⟩ := h.deref_eq hloc
  rw [hd, Option.some.injEq] at ho'
  subst ho'
  obtain ⟨l, n, hl, -⟩ := h.find hloc
  obtain ⟨hb₁, hq₁⟩ := h.reduce hloc hl m.executedQuantity
  set b₁ := b.setLevel loc.side loc.price (l.reduce loc.it m.executedQuantity) with hb₁def
  -- the reduced order is still the one the index finds
  have hr₁ : b₁.resting m.orderId = some (o.reduce m.executedQuantity) := by
    refine hb₁.resting_eq_some_iff.2 ⟨hid, ?_⟩
    show o.reduce m.executedQuantity ∈ b₁.queue o.side.isBuy o.price
    rw [hq₁, hs, hp]
    exact List.mem_map.2 ⟨o, hmem, by simp [hid]⟩
  obtain ⟨b', hrem, hb', hq, hidx⟩ := hb₁.remove_spec hr₁
  refine ⟨b', ?_, hb', fun s q => ?_, fun id => ?_⟩
  · simp [applyExecute, hloc, hd, UInt32.not_lt.2 hx, levelFor_eq, hl, hz, ← hb₁def, hrem, ApplyResult.add,
      RestingOrder.reduce]
  · rw [hq, hq₁, List.filter_map]
    refine (List.map_congr_left fun o' ho' => ?_).trans (List.map_id _ |>.trans ?_)
    · have := (List.mem_filter.1 ho').2
      simp only [Function.comp, bne_iff_ne, ne_eq] at this
      split at this
      · next e => exact absurd e this
      · next e => simp [e]
    · refine List.filter_congr fun o' _ => ?_
      simp only [Function.comp]
      split <;> rfl
  · rw [hasOrder_erase hidx, hb₁def, hasOrder, orderIndex_setLevel]; rfl

theorem applyReplace_notFound (m : ReplaceOrder) (hd : b.hasOrder m.oldOrderId = false) :
    b.applyReplace m = some (.error .orderNotFound, b) := by
  rw [hasOrder, contains_eq_false_iff] at hd
  simp [applyReplace, hd]

theorem applyReplace_dup (m : ReplaceOrder) (ho : b.hasOrder m.oldOrderId = true) (hn : b.hasOrder m.newOrderId = true) :
    b.applyReplace m = some (.error .duplicateOrderId, b) := by
  obtain ⟨loc, hloc⟩ := (contains_iff _ _).1 ho
  rw [hasOrder] at hn
  simp [applyReplace, hloc, hn]

theorem RepInv.applyReplace_ok (h : b.RepInv) (m : ReplaceOrder) {o : RestingOrder}
    (hr : b.resting m.oldOrderId = some o) (hn : b.hasOrder m.newOrderId = false) :
    ∃ b₁ b' : OrderBookT, b.applyReplace m = some (.ok [⟨o.side, o.price, sumQuantity (b₁.queue o.side.isBuy o.price)⟩,
          ⟨o.side, m.price, sumQuantity (b'.queue o.side.isBuy m.price)⟩], b') ∧ b₁.RepInv ∧ b'.RepInv ∧
      (∀ s q, b₁.queue s q = (b.queue s q).filter (·.orderId != m.oldOrderId)) ∧
      (∀ s q, b'.queue s q = if s = o.side.isBuy ∧ q = m.price then
        b₁.queue s q ++ [⟨m.newOrderId, o.side, m.price, m.quantity⟩] else b₁.queue s q) ∧
      ∀ id, b'.hasOrder id = ((b.hasOrder id && id != m.oldOrderId) || id == m.newOrderId) := by
  obtain ⟨loc, hloc, hd⟩ := Option.bind_eq_some_iff.1 hr
  obtain ⟨o', ho', -, hs, -⟩ := h.deref_eq hloc
  rw [hd, Option.some.injEq] at ho'
  subst ho'
  obtain ⟨b₁, hrem, hb₁, hq₁, hidx₁⟩ := h.remove_spec hr
  have hnew : b₁.hasOrder m.newOrderId = false := by rw [hasOrder_erase hidx₁, hn]; rfl
  obtain ⟨b', hins, hb', hq, it, hidx⟩ := hb₁.insert_spec ⟨m.newOrderId, o.side, m.price, m.quantity⟩ hnew
  refine ⟨b₁, b', ?_, hb₁, hb', hq₁, hq, fun id => by rw [hasOrder_insert hidx, hasOrder_erase hidx₁]⟩
  rw [hs] at hins
  rw [hasOrder] at hn
  simp [applyReplace, hloc, hn, hrem, hins, ApplyResult.add, hs]

/-- `apply` stays inside its containers and keeps the invariant, and an error leaves the book as it was. -/
theorem RepInv.apply (h : b.RepInv) (m : DecodedMessage) :
    ∃ r b', b.apply m = some (r, b') ∧ b'.RepInv ∧ ((∃ e, r = .error e) → b' = b) := by
  have hrest : ∀ id, b.hasOrder id = true → ∃ o, b.resting id = some o := fun id => h.hasOrder_iff_resting.1
  have hsame : ∀ {e}, b.apply m = some (.error e, b) →
      ∃ r b', b.apply m = some (r, b') ∧ b'.RepInv ∧ ((∃ e, r = .error e) → b' = b) :=
    fun ha => ⟨_, _, ha, h, fun _ => rfl⟩
  have hok : ∀ {ds b'}, b.apply m = some (.ok ds, b') → b'.RepInv →
      ∃ r b', b.apply m = some (r, b') ∧ b'.RepInv ∧ ((∃ e, r = .error e) → b' = b) :=
    fun ha hb' => ⟨_, _, ha, hb', by rintro ⟨e, he⟩; cases he⟩
  cases m with
  | add m =>
    cases hd : b.hasOrder m.orderId with
    | true => exact hsame (applyAdd_dup m hd)
    | false => obtain ⟨b', ha, hb', -⟩ := h.applyAdd_ok m hd; exact hok ha hb'
  | cancel m =>
    cases hd : b.hasOrder m.orderId with
    | false => exact hsame (applyCancel_notFound m hd)
    | true =>
      obtain ⟨o, ho⟩ := hrest _ hd
      obtain ⟨b', ha, hb', -⟩ := h.applyCancel_ok m ho
      exact hok ha hb'
  | execute m =>
    cases hd : b.hasOrder m.orderId with
    | false => exact hsame (applyExecute_notFound m hd)
    | true =>
      obtain ⟨o, ho⟩ := hrest _ hd
      by_cases hx : o.quantity < m.executedQuantity
      · exact hsame (applyExecute_exceeds m ho hx)
      by_cases hz : o.quantity - m.executedQuantity = 0
      · obtain ⟨b', ha, hb', -⟩ := h.applyExecute_all m ho (UInt32.not_lt.1 hx) hz
        exact hok ha hb'
      · obtain ⟨b', ha, hb', -⟩ := h.applyExecute_rest m ho (UInt32.not_lt.1 hx) hz
        exact hok ha hb'
  | replace m =>
    cases hd : b.hasOrder m.oldOrderId with
    | false => exact hsame (applyReplace_notFound m hd)
    | true =>
      cases hn : b.hasOrder m.newOrderId with
      | true => exact hsame (applyReplace_dup m hd hn)
      | false =>
        obtain ⟨o, ho⟩ := hrest _ hd
        obtain ⟨_, b', ha, -, hb', -⟩ := h.applyReplace_ok m ho hn
        exact hok ha hb'

theorem RepInv.apply_error (h : b.RepInv) {m : DecodedMessage} {e : ApplyError} {b' : OrderBookT}
    (ha : b.apply m = some (.error e, b')) : b' = b := by
  obtain ⟨r, b₁, ha₁, -, hsame⟩ := h.apply m
  rw [ha, Option.some.injEq, Prod.mk.injEq] at ha₁
  obtain ⟨rfl, rfl⟩ := ha₁
  exact hsame ⟨e, rfl⟩

/-- A sequence of `apply` calls: their results in order, and the book they leave. -/
def run (b : OrderBookT) : List DecodedMessage → Option (List (Except ApplyError ApplyResult) × OrderBookT)
  | [] => some ([], b)
  | m :: ms => do
    let (r, b) ← b.apply m
    let (rs, b) ← b.run ms
    return (r :: rs, b)

end OrderBookT

/-- Every Add of the sequence names one of the two sides. -/
def SidesDefined (ms : List DecodedMessage) : Prop := ∀ a, .add a ∈ ms → a.side.Defined

/-- A book with its invariant. -/
def OrderBook := { b : OrderBookT // b.RepInv }

namespace OrderBook

/-- `OrderBookT()`. -/
def empty : OrderBook := ⟨{}, .empty⟩

instance : Inhabited OrderBook := ⟨empty⟩

theorem apply_isSome (b : OrderBook) (m : DecodedMessage) : (b.1.apply m).isSome := by
  obtain ⟨r, b', h, -⟩ := b.2.apply m
  rw [h]; rfl

theorem apply_repInv (b : OrderBook) (m : DecodedMessage) : ((b.1.apply m).get (b.apply_isSome m)).2.RepInv := by
  obtain ⟨r, b', h, hb', -⟩ := b.2.apply m
  simpa only [h, Option.get_some] using hb'

def apply (b : OrderBook) (m : DecodedMessage) : Except ApplyError ApplyResult × OrderBook :=
  (((b.1.apply m).get (b.apply_isSome m)).1, ⟨((b.1.apply m).get (b.apply_isSome m)).2, b.apply_repInv m⟩)

def hasOrder (b : OrderBook) (id : OrderId) : Bool := b.1.hasOrder id
def resting (b : OrderBook) (id : OrderId) : Option RestingOrder := b.1.resting id
def queue (b : OrderBook) (s : Bool) (p : Price) : List RestingOrder := b.1.queue s p
def bestBidAsk (b : OrderBook) : BestBidAsk := b.1.bestBidAsk
def depthSnapshot (b : OrderBook) (levels : Nat) : DepthSnapshot := b.1.depthSnapshot levels

theorem apply_eq {b : OrderBook} {m : DecodedMessage} {r : Except ApplyError ApplyResult} {b' : OrderBookT}
    (h : b.1.apply m = some (r, b')) : (b.apply m).1 = r ∧ (b.apply m).2.1 = b' := by
  simp [apply, h]

end OrderBook

end Mdfh
