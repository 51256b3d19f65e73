import Mdfh.OrderBook.ObjectPool

/-!
# An Add that finds a pool empty (`insert_resting_order` under `std::bad_alloc`)

`insert_resting_order` takes its map node, its list node and its index node one after the other and
changes the book in between; an exception undoes nothing. A first result `none` is a `std::bad_alloc`
that leaves the call, and the second component is the book and the pools as it finds them. Without an
exception this is `OrderBookT.applyAdd` (`applyAdd_eq`). The book is as before when the first allocation
the call makes is the one that fails, and only then.
-/

namespace Mdfh
open TreeMapLib

/-- A book and the pools of the thread that calls it. -/
structure PooledBook where
  book : OrderBookT := {}
  pools : NodeType → FixedBlockPool

namespace PooledBook

/-- `pool().allocate()` for a node of type `t`. -/
def allocate (s : PooledBook) (t : NodeType) : Option PooledBook :=
  (s.pools t).allocate.map fun r => { s with pools := Function.update s.pools t r.2 }

/-- `Level& level = levels[price];` -/
def levelAt (s : PooledBook) (side : Side) (price : Price) : Option PooledBook :=
  match s.book.levelFor side price with
  | some _ => some s
  | none => (s.allocate .level).map fun s => { s with book := s.book.setLevel side price {} }

/-- `level.orders.push_back(std::move(order)); level.total_quantity += quantity;` -/
def pushBack (s : PooledBook) (order : RestingOrder) : Option PooledBook :=
  (s.allocate .order).map fun s =>
    let level := ((s.book.levelFor order.side order.price).getD {}).pushBack ⟨s.book.nextAddr, order⟩
    { s with book := { s.book.setLevel order.side order.price level with nextAddr := s.book.nextAddr + 1 } }

/-- `order_index_[order_id] = loc;` -/
def setIndex (s : PooledBook) (orderId : OrderId) (loc : OrderLocation) : Option PooledBook :=
  (if s.book.orderIndex.contains orderId then some s else s.allocate .index).map fun s =>
    { s with book := { s.book with orderIndex := s.book.orderIndex.insert orderId loc } }

def insertRestingOrder (s : PooledBook) (order : RestingOrder) : Option Quantity × PooledBook :=
  match s.levelAt order.side order.price with
  | none => (none, s)
  | some s₁ =>
    match s₁.pushBack order with
    | none => (none, s₁)
    | some s₂ =>
      let resultingTotal := ((s₂.book.levelFor order.side order.price).getD {}).totalQuantity
      match s₂.setIndex order.orderId ⟨order.side, order.price, s₁.book.nextAddr⟩ with
      | none => (none, s₂)
      | some s₃ => (some resultingTotal, s₃)

def applyAdd (s : PooledBook) (msg : AddOrder) : Option (Except ApplyError ApplyResult) × PooledBook :=
  if s.book.orderIndex.contains msg.orderId then (some (.error .duplicateOrderId), s)
  else
    match s.insertRestingOrder ⟨msg.orderId, msg.side, msg.price, msg.quantity⟩ with
    | (none, s) => (none, s)
    | (some total, s) => (some (.ok (ApplyResult.add [] msg.side msg.price total)), s)

/-- The pool of a node type has a free block. -/
def hasFree (s : PooledBook) (t : NodeType) : Bool := !(s.pools t).freeList.isEmpty

end PooledBook

namespace OrderBookT

/-- The book after `levels[price]`. -/
def withLevel (b : OrderBookT) (side : Side) (price : Price) : OrderBookT :=
  if (b.levelFor side price).isSome then b else b.setLevel side price {}

/-- The book after `push_back`, before the index entry. -/
def withOrder (b : OrderBookT) (order : RestingOrder) : OrderBookT :=
  let level := ((b.levelFor order.side order.price).getD {}).pushBack ⟨b.nextAddr, order⟩
  { b.setLevel order.side order.price level with nextAddr := b.nextAddr + 1 }

variable {b b' : OrderBookT}

theorem ext_level (hl : ∀ s p, b.level s p = b'.level s p) (hi : b.orderIndex = b'.orderIndex)
    (hn : b.nextAddr = b'.nextAddr) : b = b' := by
  obtain ⟨bids, asks, orderIndex, nextAddr⟩ := b
  obtain ⟨bids', asks', orderIndex', nextAddr'⟩ := b'
  have hbids : bids = bids' := Std.ExtTreeMap.ext_getElem? fun p => by simpa [level] using hl true p
  have hasks : asks = asks' := Std.ExtTreeMap.ext_getElem? fun p => by simpa [level] using hl false p
  subst hbids hasks
  exact congrArg₂ _ hi hn

theorem level_withLevel (b : OrderBookT) (side : Side) (price : Price) (s : Bool) (q : Price) :
    (b.withLevel side price).level s q =
      if s = side.isBuy ∧ q = price then some ((b.level s q).getD {}) else b.level s q := by
  unfold withLevel
  rw [levelFor_eq]
  cases hl : b.level side.isBuy price with
  | none =>
    simp only [Option.isSome_none, Bool.false_eq_true, if_false, level_setLevel]
    split
    · next ht =>
      obtain ⟨rfl, rfl⟩ := ht
      rw [hl]
      rfl
    · rfl
  | some l =>
    simp only [Option.isSome_some, if_true]
    split
    · next ht =>
      obtain ⟨rfl, rfl⟩ := ht
      rw [hl]
      rfl
    · rfl

theorem orderIndex_withLevel (b : OrderBookT) (side : Side) (price : Price) :
    (b.withLevel side price).orderIndex = b.orderIndex := by
  unfold withLevel
  split
  · rfl
  · exact b.orderIndex_setLevel side price {}

theorem nextAddr_withLevel (b : OrderBookT) (side : Side) (price : Price) :
    (b.withLevel side price).nextAddr = b.nextAddr := by
  unfold withLevel
  split
  · rfl
  · exact b.nextAddr_setLevel side price {}

theorem level_withOrder (b : OrderBookT) (o : RestingOrder) (s : Bool) (q : Price) :
    ((b.withLevel o.side o.price).withOrder o).level s q = (b.insertRestingOrder o).2.level s q := by
  have hset : ∀ (b : OrderBookT) (n : Nat), ({ b with nextAddr := n } : OrderBookT).level s q = b.level s q :=
    fun _ _ => rfl
  rw [withOrder, hset, level_setLevel, levelFor_eq, level_withLevel, level_withLevel, level_insert, nextAddr_withLevel]
  by_cases ht : s = o.side.isBuy ∧ q = o.price
  · obtain ⟨rfl, rfl⟩ := ht
    simp
  · rw [if_neg ht, if_neg ht, if_neg ht]

theorem withLevel_ne {side : Side} {price : Price} (hnone : ¬ (b.levelFor side price).isSome = true) :
    b.withLevel side price ≠ b := by
  intro e
  have hl := b.level_withLevel side price side.isBuy price
  rw [e, if_pos ⟨rfl, rfl⟩] at hl
  exact hnone (by rw [levelFor_eq, hl]; rfl)

theorem withOrder_ne (b : OrderBookT) (o : RestingOrder) : (b.withLevel o.side o.price).withOrder o ≠ b := by
  intro e
  have hl := b.level_withOrder o o.side.isBuy o.price
  rw [e, level_insert, if_pos ⟨rfl, rfl⟩] at hl
  rw [hl] at hl
  have hlen := congrArg (fun l => l.map fun l : Level => l.orders.length) hl
  simp [Level.pushBack] at hlen

theorem orderIndex_withOrder (b : OrderBookT) (o : RestingOrder) : (b.withOrder o).orderIndex = b.orderIndex :=
  b.orderIndex_setLevel o.side o.price _

end OrderBookT

namespace PooledBook
variable {s s' : PooledBook} {t : NodeType}

theorem allocate_none (hf : s.hasFree t = false) : s.allocate t = none := by
  unfold hasFree at hf
  unfold allocate BlockPool.allocate
  cases hl : (s.pools t).freeList with
  | nil => rfl
  | cons block rest => simp [hl] at hf

theorem allocate_some (hf : s.hasFree t = true) :
    ∃ s', s.allocate t = some s' ∧ s'.book = s.book ∧ ∀ t', t' ≠ t → s'.hasFree t' = s.hasFree t' := by
  unfold hasFree at hf
  unfold allocate BlockPool.allocate
  cases hl : (s.pools t).freeList with
  | nil => simp [hl] at hf
  | cons block rest =>
    refine ⟨_, rfl, rfl, fun t' ht => ?_⟩
    simp [hasFree, Function.update_of_ne ht]


theorem levelAt_none {side : Side} {price : Price} (hl : s.book.levelFor side price = none)
    (hf : s.hasFree .level = false) : s.levelAt side price = none := by
  unfold levelAt
  rw [hl]
  simp only [allocate_none hf, Option.map_none]

theorem levelAt_some {side : Side} {price : Price}
    (hf : (s.book.levelFor side price).isSome = true ∨ s.hasFree .level = true) :
    ∃ s', s.levelAt side price = some s' ∧ s'.book = s.book.withLevel side price ∧
      ∀ t, t ≠ .level → s'.hasFree t = s.hasFree t := by
  unfold levelAt OrderBookT.withLevel
  cases hl : s.book.levelFor side price with
  | some l => exact ⟨s, rfl, rfl, fun _ _ => rfl⟩
  | none =>
    rw [hl] at hf
    obtain ⟨s₁, ha, hb, hfree⟩ := allocate_some (hf.resolve_left (by simp))
    refine ⟨{ s₁ with book := s₁.book.setLevel side price {} }, ?_, ?_, fun t ht => hfree t ht⟩
    · simp only [ha, Option.map_some]
    · rw [← hb]
      rfl

theorem pushBack_none {o : RestingOrder} (hf : s.hasFree .order = false) : s.pushBack o = none := by
  unfold pushBack
  rw [allocate_none hf]
  rfl

theorem pushBack_some {o : RestingOrder} (hf : s.hasFree .order = true) :
    ∃ s', s.pushBack o = some s' ∧ s'.book = s.book.withOrder o ∧ ∀ t, t ≠ .order → s'.hasFree t = s.hasFree t := by
  obtain ⟨s₁, ha, hb, hfree⟩ := allocate_some hf
  refine ⟨{ s₁ with book := s₁.book.withOrder o }, ?_, by rw [hb], fun t ht => hfree t ht⟩
  rw [pushBack, ha]
  rfl

theorem setIndex_none {id : OrderId} {loc : OrderLocation} (hnew : s.book.orderIndex.contains id = false)
    (hf : s.hasFree .index = false) : s.setIndex id loc = none := by
  unfold setIndex
  rw [hnew, allocate_none hf]
  rfl

theorem setIndex_some (id : OrderId) (loc : OrderLocation) (hf : s.hasFree .index = true) :
    ∃ s', s.setIndex id loc = some s' ∧
      s'.book = { s.book with orderIndex := s.book.orderIndex.insert id loc } := by
  unfold setIndex
  split
  · exact ⟨_, rfl, rfl⟩
  · obtain ⟨s₁, ha, hb, -⟩ := allocate_some hf
    exact ⟨_, by rw [ha, Option.map_some], by rw [hb]⟩

/-! ### Where the insertion stops -/

section Insert
variable {o : RestingOrder}

theorem insert_level_fails (hl : s.book.levelFor o.side o.price = none) (hf : s.hasFree .level = false) :
    s.insertRestingOrder o = (none, s) := by
  unfold insertRestingOrder
  rw [levelAt_none hl hf]

theorem insert_order_fails (hl : (s.book.levelFor o.side o.price).isSome = true ∨ s.hasFree .level = true)
    (hf : s.hasFree .order = false) :
    ∃ s', s.insertRestingOrder o = (none, s') ∧ s'.book = s.book.withLevel o.side o.price := by
  obtain ⟨s₁, h₁, hb₁, hf₁⟩ := levelAt_some hl
  rw [← hf₁ .order (by decide)] at hf
  refine ⟨s₁, ?_, hb₁⟩
  unfold insertRestingOrder
  rw [h₁]
  simp only [pushBack_none hf]

theorem insert_index_fails (hl : (s.book.levelFor o.side o.price).isSome = true ∨ s.hasFree .level = true)
    (hfo : s.hasFree .order = true) (hf : s.hasFree .index = false) (hnew : s.book.hasOrder o.orderId = false) :
    ∃ s', s.insertRestingOrder o = (none, s') ∧ s'.book = (s.book.withLevel o.side o.price).withOrder o := by
  obtain ⟨s₁, h₁, hb₁, hf₁⟩ := levelAt_some hl
  rw [← hf₁ .order (by decide)] at hfo
  obtain ⟨s₂, h₂, hb₂, hf₂⟩ := pushBack_some (o := o) hfo
  rw [← hf₁ .index (by decide), ← hf₂ .index (by decide)] at hf
  rw [OrderBookT.hasOrder, ← s.book.orderIndex_withLevel o.side o.price, ← hb₁, ← s₁.book.orderIndex_withOrder o,
    ← hb₂] at hnew
  refine ⟨s₂, ?_, by rw [hb₂, hb₁]⟩
  unfold insertRestingOrder
  rw [h₁]
  simp only [h₂, setIndex_none hnew hf]

/-- With a block in every pool it needs, the call is the one of `OrderBookT`. -/
theorem insert_ok (hl : (s.book.levelFor o.side o.price).isSome = true ∨ s.hasFree .level = true)
    (hfo : s.hasFree .order = true) (hf : s.hasFree .index = true) :
    ∃ s', s.insertRestingOrder o = (some (s.book.insertRestingOrder o).1, s') ∧
      s'.book = (s.book.insertRestingOrder o).2 := by
  obtain ⟨s₁, h₁, hb₁, hf₁⟩ := levelAt_some hl
  rw [← hf₁ .order (by decide)] at hfo
  obtain ⟨s₂, h₂, hb₂, hf₂⟩ := pushBack_some (o := o) hfo
  rw [← hf₁ .index (by decide), ← hf₂ .index (by decide)] at hf
  obtain ⟨s₃, h₃, hb₃⟩ := setIndex_some o.orderId ⟨o.side, o.price, s₁.book.nextAddr⟩ hf
  rw [hb₁] at hb₂
  refine ⟨s₃, ?_, ?_⟩
  · unfold insertRestingOrder
    rw [h₁]
    simp only [h₂, h₃]
    rw [hb₂, OrderBookT.levelFor_eq, OrderBookT.level_withOrder, OrderBookT.level_insert, if_pos ⟨rfl, rfl⟩,
      OrderBookT.total_insert]
    rfl
  · refine OrderBookT.ext_level (fun sd q => ?_) ?_ ?_
    · rw [← OrderBookT.level_withOrder, ← hb₂, hb₃]
      rfl
    · rw [hb₃, OrderBookT.orderIndex_insert, hb₂, hb₁, OrderBookT.orderIndex_withOrder, OrderBookT.orderIndex_withLevel,
        OrderBookT.nextAddr_withLevel]
    · rw [hb₃, hb₂, OrderBookT.nextAddr_insert]
      show (s.book.withLevel o.side o.price).nextAddr + 1 = _
      rw [OrderBookT.nextAddr_withLevel]

theorem insert_cases (s : PooledBook) (o : RestingOrder) (hnew : s.book.hasOrder o.orderId = false) :
    (s.book.levelFor o.side o.price = none ∧ s.hasFree .level = false ∧ s.insertRestingOrder o = (none, s)) ∨
    ((s.book.levelFor o.side o.price).isSome = true ∨ s.hasFree .level = true) ∧
      ((s.hasFree .order = false ∧
        ∃ s', s.insertRestingOrder o = (none, s') ∧ s'.book = s.book.withLevel o.side o.price) ∨
      (s.hasFree .order = true ∧ s.hasFree .index = false ∧
        ∃ s', s.insertRestingOrder o = (none, s') ∧ s'.book = (s.book.withLevel o.side o.price).withOrder o) ∨
      (s.hasFree .order = true ∧ s.hasFree .index = true ∧
        ∃ s', s.insertRestingOrder o = (some (s.book.insertRestingOrder o).1, s') ∧
          s'.book = (s.book.insertRestingOrder o).2)) := by
  by_cases hl : (s.book.levelFor o.side o.price).isSome = true ∨ s.hasFree .level = true
  · refine .inr ⟨hl, ?_⟩
    cases hfo : s.hasFree .order with
    | false => exact .inl ⟨rfl, insert_order_fails hl hfo⟩
    | true =>
      cases hfi : s.hasFree .index with
      | false => exact .inr (.inl ⟨rfl, rfl, insert_index_fails hl hfo hfi hnew⟩)
      | true => exact .inr (.inr ⟨rfl, rfl, insert_ok hl hfo hfi⟩)
  · rw [not_or, Bool.not_eq_true, Bool.not_eq_true, Option.isSome_eq_false_iff, Option.isNone_iff_eq_none] at hl
    exact .inl ⟨hl.1, hl.2, insert_level_fails hl.1 hl.2⟩

/-- A failed insertion leaves the book alone exactly when it failed on its first allocation. -/
theorem insert_atomic_iff (s : PooledBook) (o : RestingOrder) (hnew : s.book.hasOrder o.orderId = false) :
    ((s.insertRestingOrder o).1 = none → (s.insertRestingOrder o).2.book = s.book) ↔
      if (s.book.levelFor o.side o.price).isSome then s.hasFree .order = true → s.hasFree .index = true
      else s.hasFree .level = true → s.hasFree .order = true ∧ s.hasFree .index = true := by
  rcases s.insert_cases o hnew with ⟨hl, hf, h⟩ | ⟨hl, ⟨hfo, s', h, hb⟩ | ⟨hfo, hfi, s', h, hb⟩ | ⟨hfo, hfi, s', h, hb⟩⟩
  · simp [h, hl, hf]
  · rw [h]
    simp only [true_implies, hb, hfo]
    split
    · next hsome => simp [OrderBookT.withLevel, hsome]
    · next hnone => simp [OrderBookT.withLevel_ne hnone, hl.resolve_left hnone]
  · rw [h]
    simp only [true_implies, hb, hfo, hfi, OrderBookT.withOrder_ne s.book o]
    split
    · simp
    · next hnone => simp [hl.resolve_left hnone]
  · simp [h, hfo, hfi]

end Insert

theorem applyAdd_dup {m : AddOrder} (hd : s.book.hasOrder m.orderId = true) :
    s.applyAdd m = (some (.error .duplicateOrderId), s) := by
  rw [OrderBookT.hasOrder] at hd
  simp only [applyAdd, hd, if_true]

theorem applyAdd_new {m : AddOrder} (hd : s.book.hasOrder m.orderId = false) :
    s.applyAdd m = ((s.insertRestingOrder ⟨m.orderId, m.side, m.price, m.quantity⟩).1.map
        fun total => .ok (ApplyResult.add [] m.side m.price total),
      (s.insertRestingOrder ⟨m.orderId, m.side, m.price, m.quantity⟩).2) := by
  rw [OrderBookT.hasOrder] at hd
  simp only [applyAdd, hd, Bool.false_eq_true, if_false]
  split
  · next h => rw [h]; rfl
  · next h => rw [h]; rfl

/-- A call that does not throw does what `OrderBookT.applyAdd` does. -/
theorem applyAdd_eq {m : AddOrder} {r : Except ApplyError ApplyResult} (hr : (s.applyAdd m).1 = some r) :
    s.book.applyAdd m = some (r, (s.applyAdd m).2.book) := by
  cases hd : s.book.hasOrder m.orderId with
  | true =>
    rw [applyAdd_dup hd] at hr ⊢
    rw [OrderBookT.applyAdd_dup m hd, Option.some.inj hr]
  | false =>
    rw [applyAdd_new hd] at hr ⊢
    rcases s.insert_cases ⟨m.orderId, m.side, m.price, m.quantity⟩ hd with
      ⟨-, -, h⟩ | ⟨-, ⟨-, s', h, -⟩ | ⟨-, -, s', h, -⟩ | ⟨-, -, s', h, hb⟩⟩
    · rw [h] at hr
      cases hr
    · rw [h] at hr
      cases hr
    · rw [h] at hr
      cases hr
    · rw [h] at hr ⊢
      cases hr
      rw [OrderBookT.hasOrder] at hd
      simp only [OrderBookT.applyAdd, hd, Bool.false_eq_true, if_false, hb]

/-- An Add that throws leaves the book alone exactly when it threw on its first allocation: the pool it asks first is
empty, or none of those it asks is. -/
theorem applyAdd_atomic_iff (s : PooledBook) (m : AddOrder) :
    ((s.applyAdd m).1 = none → (s.applyAdd m).2.book = s.book) ↔
      s.book.hasOrder m.orderId = true ∨
      if (s.book.levelFor m.side m.price).isSome then s.hasFree .order = true → s.hasFree .index = true
      else s.hasFree .level = true → s.hasFree .order = true ∧ s.hasFree .index = true := by
  cases hd : s.book.hasOrder m.orderId with
  | true => simp [applyAdd_dup hd]
  | false =>
    rw [applyAdd_new hd]
    simp only [Bool.false_eq_true, false_or, Option.map_eq_none_iff]
    exact s.insert_atomic_iff ⟨m.orderId, m.side, m.price, m.quantity⟩ hd

/-- Two blocks per pool, two orders at one price: a third at a better price throws and leaves its level behind, empty
and with the best price of the book. -/
theorem applyAdd_leaves_empty_level :
    ∃ s : PooledBook, s = [⟨1, 7, Vector.replicate 8 0, .buy, 100, 10, 1⟩, ⟨2, 8, Vector.replicate 8 0, .buy, 100, 5, 2⟩].foldl
        (fun s m => (s.applyAdd m).2) { pools := fun t => FixedBlockPool.init ⟨t, 0⟩ 2 } ∧
      s.book.bestBidAsk.bid = some ⟨100, 15, 2⟩ ∧
      (s.applyAdd ⟨3, 9, Vector.replicate 8 0, .buy, 101, 4, 3⟩).1 = none ∧
      (s.applyAdd ⟨3, 9, Vector.replicate 8 0, .buy, 101, 4, 3⟩).2.book.bestBidAsk.bid = some ⟨101, 0, 0⟩ ∧
      (s.applyAdd ⟨3, 9, Vector.replicate 8 0, .buy, 101, 4, 3⟩).2.book ≠ s.book := by
  refine ⟨_, rfl, by decide +kernel, by decide +kernel, by decide +kernel, fun e => ?_⟩
  have hbid := congrArg (fun b : OrderBookT => b.bestBidAsk.bid) e
  revert hbid
  decide +kernel

end PooledBook

end Mdfh
