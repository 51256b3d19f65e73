import Mdfh.OrderBook.Replay

/-!
# The index and the queues describe the same orders

`Consistent b` is what a reader of the three containers may rely on, said without the bookkeeping
`RepInv` carries: an index entry is exactly the side, price and node of a queued order, an id is
queued once, each queued order is filed under its own side and price, no level is empty and every
total is the sum of its queue modulo `2 ^ 32`. It holds after every sequence of `apply` calls, and in
every such book no call follows a stale iterator or a null level pointer (it would be `none` here).
-/

namespace Mdfh
namespace OrderBookT
variable {b : OrderBookT}

/-- The node at position `i` of the level of `side` at `price`. -/
def nodeAt (b : OrderBookT) (side : Side) (price : Price) (i : Nat) : Option OrderNode := do
  let level ← b.levelFor side price
  level.orders[i]?

structure Consistent (b : OrderBookT) : Prop where
  /-- The entry of an id names the side, the price and the node of that very order. -/
  entry : ∀ id loc, b.orderIndex[id]? = some loc ↔
    loc.side.Defined ∧ ∃ i n, b.nodeAt loc.side loc.price i = some n ∧ n.addr = loc.it ∧ n.order.orderId = id
  /-- An id is queued at one position only, and so is a node. -/
  once : ∀ side price i n side' price' i' n', side.Defined → side'.Defined → b.nodeAt side price i = some n →
    b.nodeAt side' price' i' = some n' →
    n.order.orderId = n'.order.orderId ∨ (side = side' ∧ price = price' ∧ n.addr = n'.addr) →
    side = side' ∧ price = price' ∧ i = i'
  /-- A queued order carries the side and the price of its level. -/
  filed : ∀ side price i n, side.Defined → b.nodeAt side price i = some n → n.order.side = side ∧ n.order.price = price
  nonempty : ∀ side price l, b.levelFor side price = some l → l.orders ≠ []
  total : ∀ side price l, b.levelFor side price = some l →
    l.totalQuantity.toNat = (l.orders.map (·.order.quantity.toNat)).sum % 2 ^ 32

theorem nodeAt_eq_some_iff {side : Side} {price : Price} {i : Nat} {n : OrderNode} :
    b.nodeAt side price i = some n ↔ ∃ l, b.level side.isBuy price = some l ∧ l.orders[i]? = some n := by
  rw [nodeAt, levelFor_eq]
  exact Option.bind_eq_some_iff

namespace RepInv

theorem side_eq (h : b.RepInv) (hso : b.SidesOk) {side : Side} {price : Price} {l : Level}
    (hl : b.level side.isBuy price = some l) (hs : side.Defined) {n : OrderNode} (hn : n ∈ l.orders) :
    n.order.side = side := by
  obtain ⟨-, hb, -⟩ := (h.levels _ _ _ hl).indexed n hn
  exact isBuy_injOn (hso _ _ _ ((b.mem_queue_iff _ _ _).2 ⟨l, hl, n, hn, rfl⟩)) hs hb

theorem position_eq (h : b.RepInv) {s : Bool} {p : Price} {l : Level} (hl : b.level s p = some l) {i j : Nat}
    {n n' : OrderNode} (hi : l.orders[i]? = some n) (hj : l.orders[j]? = some n') (ha : n.addr = n'.addr) : i = j := by
  have hlt := (List.getElem?_eq_some_iff.1 hi).1
  refine (List.getElem?_inj (by simpa using hlt) (h.levels _ _ _ hl).addrs).1 ?_
  rw [List.getElem?_map, List.getElem?_map, hi, hj, Option.map_some, Option.map_some, ha]

theorem consistent (h : b.RepInv) (hso : b.SidesOk) : b.Consistent := by
  refine ⟨fun id loc => ⟨fun hloc => ?_, ?_⟩, ?_, ?_, ?_, ?_⟩
  · obtain ⟨l, n, hl, -, hn, ha, hid, hs, -⟩ := h.find hloc
    obtain ⟨i, hi⟩ := List.mem_iff_getElem?.1 hn
    refine ⟨?_, i, n, nodeAt_eq_some_iff.2 ⟨l, hl, hi⟩, ha, hid⟩
    rw [← hs]
    exact hso _ _ _ ((b.mem_queue_iff _ _ _).2 ⟨l, hl, n, hn, rfl⟩)
  · rintro ⟨hd, i, n, hat, ha, rfl⟩
    obtain ⟨l, hl, hi⟩ := nodeAt_eq_some_iff.1 hat
    have hn := List.mem_of_getElem? hi
    obtain ⟨hidx, -, hp⟩ := (h.levels _ _ _ hl).indexed n hn
    rw [hidx, h.side_eq hso hl hd hn, hp, ha]
  · intro side price i n side' price' i' n' hd hd' hat hat' heq
    obtain ⟨l, hl, hi⟩ := nodeAt_eq_some_iff.1 hat
    obtain ⟨l', hl', hi'⟩ := nodeAt_eq_some_iff.1 hat'
    have hn := List.mem_of_getElem? hi
    have hn' := List.mem_of_getElem? hi'
    rcases heq with hid | ⟨rfl, rfl, ha⟩
    · have hq := (b.mem_queue_iff _ _ _).2 ⟨l, hl, n, hn, rfl⟩
      have hq' := (b.mem_queue_iff _ _ _).2 ⟨l', hl', n', hn', rfl⟩
      obtain ⟨-, hs, rfl⟩ := h.unique hq hq' hid
      obtain rfl := isBuy_injOn hd hd' hs
      rw [hl, Option.some.injEq] at hl'
      subst hl'
      refine ⟨rfl, rfl, h.position_eq hl hi hi' ?_⟩
      by_contra hne
      exact (h.addr_ne_iff hl hn hn').1 hne hid
    · rw [hl, Option.some.injEq] at hl'
      subst hl'
      exact ⟨rfl, rfl, h.position_eq hl hi hi' ha⟩
  · intro side price i n hd hat
    obtain ⟨l, hl, hi⟩ := nodeAt_eq_some_iff.1 hat
    have hn := List.mem_of_getElem? hi
    exact ⟨h.side_eq hso hl hd hn, ((h.levels _ _ _ hl).indexed n hn).2.2⟩
  · intro side price l hl
    exact (h.levels _ _ _ hl).nonempty
  · intro side price l hl
    rw [(h.levels _ _ _ hl).total, toNat_sumQuantity, trueSum, Level.queue, List.map_map]
    rfl

end RepInv
end OrderBookT

/-- Every sequence of `apply` calls on an empty book runs without leaving the containers, the book it
ends in is consistent, and so is any further call on that book. -/
theorem run_consistent (ms : List DecodedMessage) (hs : SidesDefined ms) :
    ∃ rs b, OrderBookT.run {} ms = some (rs, b) ∧ b.Consistent ∧ ∀ m, (b.apply m).isSome := by
  obtain ⟨rs, b, hrun, hb, hso, -⟩ := OrderBookT.RepInv.empty.run_replay .empty ms hs
  refine ⟨rs, b, hrun, hb.consistent hso, fun m => ?_⟩
  obtain ⟨r, b', ha, -⟩ := hb.apply m
  rw [ha]
  rfl

/-- Two orders of one level, one of them filled in two steps, the other moved to where it rests on. -/
theorem run_consistent_move :
    ∃ rs b, OrderBookT.run {} [.add ⟨1, 7, Vector.replicate 8 0, .sell, 100, 10, 1⟩,
        .add ⟨2, 8, Vector.replicate 8 0, .sell, 100, 4294967295, 2⟩, .execute ⟨3, 7, 4, 3⟩, .execute ⟨4, 7, 6, 4⟩,
        .replace ⟨5, 8, 9, 101, 5, 5⟩] = some (rs, b) ∧ b.hasOrder 9 = true ∧ b.Consistent := by
  obtain ⟨rs, b, hrun, hb, -⟩ := run_consistent
    [.add ⟨1, 7, Vector.replicate 8 0, .sell, 100, 10, 1⟩, .add ⟨2, 8, Vector.replicate 8 0, .sell, 100, 4294967295, 2⟩,
      .execute ⟨3, 7, 4, 3⟩, .execute ⟨4, 7, 6, 4⟩, .replace ⟨5, 8, 9, 101, 5, 5⟩] (by
    intro a ha
    simp only [List.mem_cons, DecodedMessage.add.injEq, reduceCtorEq, List.not_mem_nil, or_false] at ha
    rcases ha with rfl | rfl <;> exact .inr rfl)
  refine ⟨rs, b, hrun, ?_, hb⟩
  have hrests : (OrderBookT.run {} [.add ⟨1, 7, Vector.replicate 8 0, .sell, 100, 10, 1⟩,
      .add ⟨2, 8, Vector.replicate 8 0, .sell, 100, 4294967295, 2⟩, .execute ⟨3, 7, 4, 3⟩, .execute ⟨4, 7, 6, 4⟩,
      .replace ⟨5, 8, 9, 101, 5, 5⟩]).map (fun x => x.2.hasOrder 9) = some true := by decide +kernel
  rw [hrun] at hrests
  exact Option.some.inj hrests

end Mdfh
