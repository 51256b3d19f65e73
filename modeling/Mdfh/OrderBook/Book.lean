import Mdfh.Protocol.MessageTypes

/-!
# The limit order book (`orderbook/order_book.hpp`, `orderbook/order_book.cpp`)

`std::map` and `std::unordered_map` are finite maps (`ExtTreeMap`; the bid map is ordered by
`std::greater`), a `std::list` is the list of its nodes, and a list iterator is the address of its
node. The source dereferences the results of `find` and stored iterators without a check; a
dereference that would not reach a live element is undefined behaviour there and `none` here, so
`apply` is `none` exactly when the source would step outside its containers.
-/

namespace Mdfh
open Std (ExtTreeMap TransCmp LawfulEqCmp)

inductive ApplyError where
  | orderNotFound
  | executedQuantityExceedsRemaining
  | duplicateOrderId
deriving DecidableEq, Repr

structure RestingOrder where
  orderId : OrderId
  side : Side
  price : Price
  quantity : Quantity  -- remaining (unexecuted)
deriving DecidableEq, Repr

/-- `order.quantity -= executed`. -/
def RestingOrder.reduce (o : RestingOrder) (executed : Quantity) : RestingOrder :=
  { o with quantity := o.quantity - executed }

structure PriceLevelView where
  price : Price
  totalQuantity : Quantity
  orderCount : Nat
deriving DecidableEq, Repr

structure BestBidAsk where
  bid : Option PriceLevelView
  ask : Option PriceLevelView
deriving DecidableEq, Repr

/-- One price level right after an `apply` touched it; total `0` stands for a removed level. -/
structure LevelDelta where
  side : Side
  price : Price
  totalQuantity : Quantity
deriving DecidableEq, Repr

/-- The levels one `apply` touched, in order (`count` entries of `deltas`). -/
abbrev ApplyResult := List LevelDelta

def ApplyResult.add (r : ApplyResult) (side : Side) (price : Price) (totalQuantity : Quantity) : ApplyResult :=
  r ++ [⟨side, price, totalQuantity⟩]

structure DepthSnapshot where
  bids : List PriceLevelView
  asks : List PriceLevelView
deriving DecidableEq, Repr

/-- A node of `OrderList`; its address is what an iterator holds. -/
structure OrderNode where
  addr : Nat
  order : RestingOrder
deriving DecidableEq, Repr

structure Level where
  totalQuantity : Quantity := 0
  orders : List OrderNode := []  -- FIFO: front = oldest
deriving DecidableEq, Repr

namespace Level

/-- `orders.push_back(order); total_quantity += quantity;` -/
def pushBack (level : Level) (node : OrderNode) : Level :=
  { totalQuantity := level.totalQuantity + node.order.quantity, orders := level.orders ++ [node] }

/-- `total_quantity -= it->quantity; orders.erase(it);` -/
def unlink (level : Level) (node : OrderNode) : Level :=
  { totalQuantity := level.totalQuantity - node.order.quantity,
    orders := level.orders.filter (·.addr != node.addr) }

/-- `total_quantity -= executed; it->quantity -= executed;` -/
def reduce (level : Level) (it : Nat) (executed : Quantity) : Level :=
  { totalQuantity := level.totalQuantity - executed,
    orders := level.orders.map fun n => if n.addr = it then { n with order := n.order.reduce executed } else n }

end Level

structure OrderLocation where
  side : Side
  price : Price
  it : Nat
deriving DecidableEq, Repr

/-- `side == Side::Buy`: the only question the book asks about a side. -/
def Side.isBuy (s : Side) : Bool := s == Side.buy

/-- `std::greater<Price>`. -/
def greater (a b : Price) : Ordering := compare b a

instance : TransCmp greater := inferInstanceAs (TransCmp fun a b : Price => compare b a)
instance : LawfulEqCmp greater := inferInstanceAs (LawfulEqCmp fun a b : Price => compare b a)

structure OrderBookT where
  bids : ExtTreeMap Price Level greater := ∅
  asks : ExtTreeMap Price Level compare := ∅
  orderIndex : ExtTreeMap OrderId OrderLocation compare := ∅
  nextAddr : Nat := 0  -- the address of the next list node allocated

/-! ### One side's level map

The Buy and Sell branches of the source run the same statements on `bids_` and on `asks_`. -/

section Levels
variable {cmp : Price → Price → Ordering} [TransCmp cmp]

/-- `Level& level = levels[price];` (default-constructed when absent), then `push_back`. The returned
quantity is `resulting_total`. -/
def pushOrder (levels : ExtTreeMap Price Level cmp) (node : OrderNode) :
    Quantity × ExtTreeMap Price Level cmp :=
  let level := (levels.getD node.order.price {}).pushBack node
  (level.totalQuantity, levels.insert node.order.price level)

/-- Unlinks the order `it` points at and drops its level when that leaves it empty. The returned
quantity is `remaining_total`. -/
def eraseOrder (levels : ExtTreeMap Price Level cmp) (price : Price) (it : Nat) :
    Option (Quantity × ExtTreeMap Price Level cmp) := do
  let level ← levels[price]?
  let node ← level.orders.find? (·.addr == it)
  let level := level.unlink node
  if level.orders.isEmpty then return (0, levels.erase price)
  else return (level.totalQuantity, levels.insert price level)

/-- The levels in map order, as views. -/
def levelViews (levels : ExtTreeMap Price Level cmp) : List PriceLevelView :=
  levels.toList.map fun e => ⟨e.1, e.2.totalQuantity, e.2.orders.length⟩

end Levels

namespace OrderBookT

def levelFor (b : OrderBookT) (side : Side) (price : Price) : Option Level :=
  if side.isBuy then b.bids[price]? else b.asks[price]?

/-- A write through the pointer `levelFor` returned. -/
def setLevel (b : OrderBookT) (side : Side) (price : Price) (level : Level) : OrderBookT :=
  if side.isBuy then { b with bids := b.bids.insert price level }
  else { b with asks := b.asks.insert price level }

/-- `*loc.it`. -/
def deref (b : OrderBookT) (loc : OrderLocation) : Option RestingOrder := do
  let level ← b.levelFor loc.side loc.price
  let node ← level.orders.find? (·.addr == loc.it)
  return node.order

def insertRestingOrder (b : OrderBookT) (order : RestingOrder) : Quantity × OrderBookT :=
  let node : OrderNode := ⟨b.nextAddr, order⟩
  let loc : OrderLocation := ⟨order.side, order.price, b.nextAddr⟩
  if order.side.isBuy then
    let r := pushOrder b.bids node
    (r.1, { b with bids := r.2, orderIndex := b.orderIndex.insert order.orderId loc, nextAddr := b.nextAddr + 1 })
  else
    let r := pushOrder b.asks node
    (r.1, { b with asks := r.2, orderIndex := b.orderIndex.insert order.orderId loc, nextAddr := b.nextAddr + 1 })

def removeRestingOrder (b : OrderBookT) (orderId : OrderId) : Option (LevelDelta × OrderBookT) := do
  let loc ← b.orderIndex[orderId]?
  if loc.side.isBuy then
    let r ← eraseOrder b.bids loc.price loc.it
    return (⟨loc.side, loc.price, r.1⟩, { b with bids := r.2, orderIndex := b.orderIndex.erase orderId })
  else
    let r ← eraseOrder b.asks loc.price loc.it
    return (⟨loc.side, loc.price, r.1⟩, { b with asks := r.2, orderIndex := b.orderIndex.erase orderId })

def applyAdd (b : OrderBookT) (msg : AddOrder) : Option (Except ApplyError ApplyResult × OrderBookT) :=
  if b.orderIndex.contains msg.orderId then some (.error .duplicateOrderId, b)
  else
    let r := b.insertRestingOrder ⟨msg.orderId, msg.side, msg.price, msg.quantity⟩
    some (.ok (ApplyResult.add [] msg.side msg.price r.1), r.2)

def applyCancel (b : OrderBookT) (msg : CancelOrder) : Option (Except ApplyError ApplyResult × OrderBookT) :=
  if !b.orderIndex.contains msg.orderId then some (.error .orderNotFound, b)
  else do
    let (touched, b) ← b.removeRestingOrder msg.orderId
    return (.ok (ApplyResult.add [] touched.side touched.price touched.totalQuantity), b)

def applyExecute (b : OrderBookT) (msg : ExecuteOrder) : Option (Except ApplyError ApplyResult × OrderBookT) :=
  match b.orderIndex[msg.orderId]? with
  | none => some (.error .orderNotFound, b)
  | some loc => do
    let order ← b.deref loc
    if msg.executedQuantity > order.quantity then return (.error .executedQuantityExceedsRemaining, b)
    else
      let level ← b.levelFor loc.side loc.price
      let level := level.reduce loc.it msg.executedQuantity
      let b := b.setLevel loc.side loc.price level
      if order.quantity - msg.executedQuantity = 0 then
        let (touched, b) ← b.removeRestingOrder msg.orderId
        return (.ok (ApplyResult.add [] touched.side touched.price touched.totalQuantity), b)
      else return (.ok (ApplyResult.add [] loc.side loc.price level.totalQuantity), b)

def applyReplace (b : OrderBookT) (msg : ReplaceOrder) : Option (Except ApplyError ApplyResult × OrderBookT) :=
  match b.orderIndex[msg.oldOrderId]? with
  | none => some (.error .orderNotFound, b)
  | some loc =>
    if b.orderIndex.contains msg.newOrderId then some (.error .duplicateOrderId, b)
    else do
      let side := loc.side
      let (vacated, b) ← b.removeRestingOrder msg.oldOrderId
      let r := b.insertRestingOrder ⟨msg.newOrderId, side, msg.price, msg.quantity⟩
      return (.ok ((ApplyResult.add [] vacated.side vacated.price vacated.totalQuantity).add side msg.price r.1), r.2)

/-- The overload set `apply(msg)`. -/
def apply (b : OrderBookT) : DecodedMessage → Option (Except ApplyError ApplyResult × OrderBookT)
  | .add m => b.applyAdd m
  | .cancel m => b.applyCancel m
  | .execute m => b.applyExecute m
  | .replace m => b.applyReplace m

def bestBidAsk (b : OrderBookT) : BestBidAsk :=
  ⟨(levelViews b.bids).head?, (levelViews b.asks).head?⟩

/-- `for (const auto& [price, level] : levels) { if (count++ >= n) break; push_back(...); }` -/
def depthSnapshot (b : OrderBookT) (levels : Nat) : DepthSnapshot :=
  ⟨(levelViews b.bids).take levels, (levelViews b.asks).take levels⟩

def hasOrder (b : OrderBookT) (orderId : OrderId) : Bool := b.orderIndex.contains orderId

end OrderBookT

end Mdfh
