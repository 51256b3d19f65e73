import Mdfh.OrderBook.Book
import Mdfh.Lib.TreeMap
import Mathlib.Data.List.Nodup
import Mathlib.Data.UInt

/-!
# Representation invariant of the order book

`RepInv b`: the id index and the level queues describe the same orders. Every index entry leads to
its own order (`located`), every queued order is indexed under its own side, price and node and is
filed at its own level (`LevelOk.indexed`), no level is empty, and a level's total is the sum of its
orders' quantities modulo `2 ^ 32`. The three primitives (`insertRestingOrder`,
`removeRestingOrder`, a write through `levelFor`) touch one level each; their effect is stated once,
on `level` and `queue`, and everything above works with these statements only.
-/

namespace Mdfh
open TreeMapLib

/-- Quantities add modulo `2 ^ 32`. -/
def sumQuantity (l : List RestingOrder) : Quantity := (l.map (·.quantity)).sum

/-- The unbounded sum of the remaining quantities. -/
def trueSum (l : List RestingOrder) : Nat := (l.map (·.quantity.toNat)).sum

theorem toNat_sumQuantity (l : List RestingOrder) : (sumQuantity l).toNat = trueSum l % 2 ^ 32 := by
  unfold sumQuantity trueSum
  induction l with
  | nil => rfl
  | cons o l ih =>
    rw [List.map_cons, List.sum_cons, UInt32.toNat_add, ih, List.map_cons, List.sum_cons, Nat.add_mod_mod]

namespace Level

/-- The queue without the node addresses. -/
def queue (l : Level) : List RestingOrder := l.orders.map (·.order)

end Level

namespace OrderBookT

/-- The level of one side (`true` for bids) at a price. -/
def level (b : OrderBookT) (s : Bool) (p : Price) : Option Level :=
  if s then b.bids[p]? else b.asks[p]?

/-- The orders queued at one side and price, oldest first. -/
def queue (b : OrderBookT) (s : Bool) (p : Price) : List RestingOrder := ((b.level s p).getD {}).queue

theorem levelFor_eq (b : OrderBookT) (side : Side) (p : Price) : b.levelFor side p = b.level side.isBuy p := rfl

/-- One level of a well-formed book. -/
structure LevelOk (b : OrderBookT) (s : Bool) (p : Price) (l : Level) : Prop where
  indexed : ∀ n ∈ l.orders, b.orderIndex[n.order.orderId]? = some ⟨n.order.side, n.order.price, n.addr⟩ ∧
    n.order.side.isBuy = s ∧ n.order.price = p
  nonempty : l.orders ≠ []
  addrs : (l.orders.map (·.addr)).Nodup
  fresh : ∀ n ∈ l.orders, n.addr < b.nextAddr
  total : l.totalQuantity = sumQuantity l.queue

structure RepInv (b : OrderBookT) : Prop where
  levels : ∀ s p l, b.level s p = some l → b.LevelOk s p l
  located : ∀ id loc, b.orderIndex[id]? = some loc → ∃ l, b.level loc.side.isBuy loc.price = some l ∧
    ∃ n ∈ l.orders, n.addr = loc.it ∧ n.order.orderId = id

theorem level_empty (s : Bool) (p : Price) : ({} : OrderBookT).level s p = none := by
  cases s <;> simp [level]

theorem RepInv.empty : RepInv {} := by
  refine ⟨fun s p l h => ?_, fun id loc h => ?_⟩
  · simp [level_empty] at h
  · simp at h

/-! ### What the primitives do to the levels -/

theorem level_setLevel (b : OrderBookT) (side : Side) (p : Price) (l : Level) (s : Bool) (q : Price) :
    (b.setLevel side p l).level s q = if s = side.isBuy ∧ q = p then some l else b.level s q := by
  unfold setLevel level
  cases s <;> cases side.isBuy <;> simp [getElem?_insert]

@[simp] theorem orderIndex_setLevel (b : OrderBookT) (side : Side) (p : Price) (l : Level) :
    (b.setLevel side p l).orderIndex = b.orderIndex := by
  unfold setLevel; split <;> rfl

@[simp] theorem nextAddr_setLevel (b : OrderBookT) (side : Side) (p : Price) (l : Level) :
    (b.setLevel side p l).nextAddr = b.nextAddr := by
  unfold setLevel; split <;> rfl

theorem level_insert (b : OrderBookT) (o : RestingOrder) (s : Bool) (q : Price) :
    (b.insertRestingOrder o).2.level s q =
      if s = o.side.isBuy ∧ q = o.price then some (((b.level s q).getD {}).pushBack ⟨b.nextAddr, o⟩)
      else b.level s q := by
  unfold insertRestingOrder level pushOrder
  cases s <;> cases o.side.isBuy <;>
    simp [getElem?_insert, Std.ExtTreeMap.getD_eq_getD_getElem?] <;> split <;> simp_all

theorem orderIndex_insert (b : OrderBookT) (o : RestingOrder) :
    (b.insertRestingOrder o).2.orderIndex = b.orderIndex.insert o.orderId ⟨o.side, o.price, b.nextAddr⟩ := by
  unfold insertRestingOrder; split <;> rfl

@[simp] theorem nextAddr_insert (b : OrderBookT) (o : RestingOrder) :
    (b.insertRestingOrder o).2.nextAddr = b.nextAddr + 1 := by
  unfold insertRestingOrder; split <;> rfl

theorem total_insert (b : OrderBookT) (o : RestingOrder) :
    (b.insertRestingOrder o).1 = ((b.level o.side.isBuy o.price).getD {}).totalQuantity + o.quantity := by
  unfold insertRestingOrder level pushOrder
  split <;> simp_all [Std.ExtTreeMap.getD_eq_getD_getElem?, Level.pushBack]

/-- What is left of a level after its node `n` is unlinked: nothing when that was the last one. -/
def shrunk (l : Level) (n : OrderNode) : Option Level :=
  if (l.unlink n).orders = [] then none else some (l.unlink n)

theorem removeRestingOrder_eq (b : OrderBookT) {id : OrderId} {loc : OrderLocation} {l : Level} {n : OrderNode}
    (hloc : b.orderIndex[id]? = some loc) (hl : b.level loc.side.isBuy loc.price = some l)
    (hn : l.orders.find? (·.addr == loc.it) = some n) :
    ∃ b', b.removeRestingOrder id = some (⟨loc.side, loc.price, ((shrunk l n).getD {}).totalQuantity⟩, b') ∧
      (∀ s q, b'.level s q = if s = loc.side.isBuy ∧ q = loc.price then shrunk l n else b.level s q) ∧
      b'.orderIndex = b.orderIndex.erase id ∧ b'.nextAddr = b.nextAddr := by
  have hside : ∀ {cmp : Price → Price → Ordering} [Std.TransCmp cmp] [Std.LawfulEqCmp cmp]
      (m : Std.ExtTreeMap Price Level cmp), m[loc.price]? = some l →
      ∃ m', eraseOrder m loc.price loc.it = some (((shrunk l n).getD {}).totalQuantity, m') ∧
        ∀ q, m'[q]? = if q = loc.price then shrunk l n else m[q]? := by
    intro cmp _ _ m hm
    by_cases he : (l.unlink n).orders = []
    · exact ⟨m.erase loc.price, by simp [eraseOrder, hm, hn, he, shrunk],
        fun q => by simp [getElem?_erase, shrunk, he]⟩
    · exact ⟨m.insert loc.price (l.unlink n), by simp [eraseOrder, hm, hn, he, shrunk],
        fun q => by simp [getElem?_insert, shrunk, he]⟩
  unfold removeRestingOrder
  simp only [hloc, Option.bind_eq_bind, Option.bind_some]
  cases hs : loc.side.isBuy with
  | true =>
    obtain ⟨m', he, hm'⟩ := hside b.bids (by simpa [level, hs] using hl)
    refine ⟨{ b with bids := m', orderIndex := b.orderIndex.erase id }, by simp [he], fun s q => ?_, rfl, rfl⟩
    cases s <;> simp [level, hm']
  | false =>
    obtain ⟨m', he, hm'⟩ := hside b.asks (by simpa [level, hs] using hl)
    refine ⟨{ b with asks := m', orderIndex := b.orderIndex.erase id }, by simp [he], fun s q => ?_, rfl, rfl⟩
    cases s <;> simp [level, hm']

/-! ### Sums over a queue with one node changed -/

@[simp] theorem sumQuantity_nil : sumQuantity [] = 0 := rfl

@[simp] theorem sumQuantity_cons (o : RestingOrder) (l : List RestingOrder) :
    sumQuantity (o :: l) = o.quantity + sumQuantity l := by
  simp [sumQuantity]

theorem sumQuantity_append (l l' : List RestingOrder) :
    sumQuantity (l ++ l') = sumQuantity l + sumQuantity l' := by
  induction l with
  | nil => simp
  | cons o l ih => simp [ih, UInt32.add_assoc]

theorem addr_ne {l : List OrderNode} {m n : OrderNode} (hm : m.addr ∉ l.map (·.addr)) (hn : n ∈ l) :
    n.addr ≠ m.addr :=
  fun e => hm (e ▸ List.mem_map.2 ⟨n, hn, rfl⟩)

theorem eq_of_addr_eq {l : List OrderNode} {m n : OrderNode} (hnd : (l.map (·.addr)).Nodup) (hm : m ∈ l)
    (hn : n ∈ l) (h : m.addr = n.addr) : m = n :=
  List.inj_on_of_nodup_map hnd hm hn h

theorem sumQuantity_unlink {l : List OrderNode} {n : OrderNode} (hnd : (l.map (·.addr)).Nodup) (hn : n ∈ l) :
    sumQuantity ((l.filter (·.addr != n.addr)).map (·.order)) =
      sumQuantity (l.map (·.order)) - n.order.quantity := by
  induction l with
  | nil => cases hn
  | cons m l ih =>
    obtain ⟨hm, hnd⟩ := List.nodup_cons.1 hnd
    rcases List.mem_cons.1 hn with rfl | hn
    · have hf : l.filter (·.addr != n.addr) = l :=
        List.filter_eq_self.2 fun a ha => by simpa using addr_ne hm ha
      simp [hf]
    · simp [(addr_ne hm hn).symm, ih hnd hn, add_sub_assoc]

theorem sumQuantity_reduce {l : List OrderNode} {n : OrderNode} (q : Quantity) (hnd : (l.map (·.addr)).Nodup)
    (hn : n ∈ l) :
    sumQuantity ((l.map fun m => if m.addr = n.addr then { m with order := m.order.reduce q } else m).map (·.order)) =
      sumQuantity (l.map (·.order)) - q := by
  induction l with
  | nil => cases hn
  | cons m l ih =>
    obtain ⟨hm, hnd⟩ := List.nodup_cons.1 hnd
    rcases List.mem_cons.1 hn with rfl | hn
    · have hf : (l.map fun m => if m.addr = n.addr then { m with order := m.order.reduce q } else m) = l := by
        conv_rhs => rw [← List.map_id l]
        exact List.map_congr_left fun a ha => by simp [addr_ne hm ha]
      rw [List.map_cons, hf]
      simp [RestingOrder.reduce, sub_add_eq_add_sub]
    · simp only [List.map_cons, (addr_ne hm hn).symm, ↓reduceIte, sumQuantity_cons, ih hnd hn, add_sub_assoc]

/-! ### Lookups in a well-formed book -/

theorem mem_queue_iff (b : OrderBookT) (s : Bool) (p : Price) (o : RestingOrder) :
    o ∈ b.queue s p ↔ ∃ l, b.level s p = some l ∧ ∃ n ∈ l.orders, n.order = o := by
  unfold queue Level.queue
  cases b.level s p <;> simp

theorem queue_insert (b : OrderBookT) (o : RestingOrder) (s : Bool) (q : Price) :
    (b.insertRestingOrder o).2.queue s q =
      if s = o.side.isBuy ∧ q = o.price then b.queue s q ++ [o] else b.queue s q := by
  unfold queue
  rw [level_insert]
  split <;> simp [Level.queue, Level.pushBack]

namespace RepInv
variable {b : OrderBookT}

theorem find (h : b.RepInv) {id : OrderId} {loc : OrderLocation} (hloc : b.orderIndex[id]? = some loc) :
    ∃ l n, b.level loc.side.isBuy loc.price = some l ∧ l.orders.find? (·.addr == loc.it) = some n ∧ n ∈ l.orders ∧
      n.addr = loc.it ∧ n.order.orderId = id ∧ n.order.side = loc.side ∧ n.order.price = loc.price := by
  obtain ⟨l, hl, n, hn, ha, hid⟩ := h.located id loc hloc
  have hok := h.levels _ _ _ hl
  have hidx := (hok.indexed n hn).1
  rw [hid, hloc, Option.some.injEq] at hidx
  refine ⟨l, n, hl, ?_, hn, ha, hid, by rw [hidx], by rw [hidx]⟩
  cases hf : l.orders.find? (·.addr == loc.it) with
  | none =>
    rw [List.find?_eq_none] at hf
    exact absurd (by simpa using ha) (hf n hn)
  | some m =>
    have hm := List.mem_of_find?_eq_some hf
    have hma : m.addr = loc.it := by simpa using List.find?_some hf
    rw [eq_of_addr_eq hok.addrs hm hn (hma.trans ha.symm)]

theorem index_of_mem (h : b.RepInv) {s : Bool} {p : Price} {o : RestingOrder} (ho : o ∈ b.queue s p) :
    o.side.isBuy = s ∧ o.price = p ∧ ∃ it, b.orderIndex[o.orderId]? = some ⟨o.side, o.price, it⟩ := by
  obtain ⟨l, hl, n, hn, rfl⟩ := (b.mem_queue_iff s p o).1 ho
  obtain ⟨hi, hs, hp⟩ := (h.levels _ _ _ hl).indexed n hn
  exact ⟨hs, hp, n.addr, hi⟩

theorem unique (h : b.RepInv) {s s' : Bool} {p p' : Price} {o o' : RestingOrder} (ho : o ∈ b.queue s p)
    (ho' : o' ∈ b.queue s' p') (hid : o.orderId = o'.orderId) : o = o' ∧ s = s' ∧ p = p' := by
  obtain ⟨l, hl, n, hn, rfl⟩ := (b.mem_queue_iff s p o).1 ho
  obtain ⟨l', hl', n', hn', rfl⟩ := (b.mem_queue_iff s' p' o').1 ho'
  obtain ⟨hi, hs, hp⟩ := (h.levels _ _ _ hl).indexed n hn
  obtain ⟨hi', hs', hp'⟩ := (h.levels _ _ _ hl').indexed n' hn'
  rw [hid, hi', Option.some.injEq, OrderLocation.mk.injEq] at hi
  obtain ⟨e1, e2, e3⟩ := hi
  have es : s = s' := by rw [← hs, ← hs', e1]
  have ep : p = p' := by rw [← hp, ← hp', e2]
  subst es ep
  rw [hl, Option.some.injEq] at hl'
  subst hl'
  exact ⟨by rw [eq_of_addr_eq (h.levels _ _ _ hl).addrs hn hn' e3.symm], rfl, rfl⟩

theorem hasOrder_iff (h : b.RepInv) (id : OrderId) :
    b.hasOrder id = true ↔ ∃ s p, ∃ o ∈ b.queue s p, o.orderId = id := by
  rw [hasOrder, contains_iff]
  constructor
  · rintro ⟨loc, hloc⟩
    obtain ⟨l, n, hl, -, hn, -, hid, -, -⟩ := h.find hloc
    exact ⟨_, _, n.order, (b.mem_queue_iff _ _ _).2 ⟨l, hl, n, hn, rfl⟩, hid⟩
  · rintro ⟨s, p, o, ho, rfl⟩
    obtain ⟨-, -, it, hi⟩ := h.index_of_mem ho
    exact ⟨_, hi⟩

theorem level_eq_none_iff (h : b.RepInv) (s : Bool) (p : Price) : b.level s p = none ↔ b.queue s p = [] := by
  unfold queue Level.queue
  cases hl : b.level s p with
  | none => simp
  | some l => simpa using (h.levels s p l hl).nonempty

theorem total_eq (h : b.RepInv) {s : Bool} {p : Price} {l : Level} (hl : b.level s p = some l) :
    l.totalQuantity = sumQuantity (b.queue s p) := by
  rw [(h.levels s p l hl).total, queue, hl]; rfl

theorem insert (h : b.RepInv) (o : RestingOrder) (hnew : b.orderIndex[o.orderId]? = none) :
    (b.insertRestingOrder o).2.RepInv := by
  -- orders already queued keep their index entries
  have hidx : ∀ (id : OrderId) loc, b.orderIndex[id]? = some loc →
      (b.insertRestingOrder o).2.orderIndex[id]? = some loc := by
    intro id loc hi
    have hne : id ≠ o.orderId := fun e => by rw [e, hnew] at hi; cases hi
    simp [orderIndex_insert, getElem?_insert, hne, hi]
  have hself : (b.insertRestingOrder o).2.orderIndex[o.orderId]? = some ⟨o.side, o.price, b.nextAddr⟩ := by
    simp [orderIndex_insert]
  refine ⟨fun s p l hl => ?_, fun id loc hloc => ?_⟩
  · rw [level_insert] at hl
    split at hl
    · next ht =>
      obtain ⟨rfl, rfl⟩ := ht
      rw [Option.some.injEq] at hl
      subst hl
      cases hb : b.level o.side.isBuy o.price with
      | none =>
        refine ⟨?_, by simp [Level.pushBack], by simp [Level.pushBack], ?_, ?_⟩
        · simpa [Level.pushBack] using hself
        · simp [Level.pushBack]
        · simp [Level.pushBack, Level.queue]
      | some l =>
        have hok := h.levels _ _ _ hb
        refine ⟨?_, by simp [Level.pushBack], ?_, ?_, ?_⟩
        · intro n hn
          rcases List.mem_append.1 hn with hn | hn
          · obtain ⟨hi, hs, hp⟩ := hok.indexed n hn
            exact ⟨hidx _ _ hi, hs, hp⟩
          · rw [List.mem_singleton.1 hn]
            exact ⟨hself, rfl, rfl⟩
        · simp only [Option.getD_some, Level.pushBack, List.map_append, List.map_cons, List.map_nil]
          refine List.Nodup.append hok.addrs (by simp) ?_
          intro a ha ha'
          rw [List.mem_singleton] at ha'
          obtain ⟨n, hn, hna⟩ := List.mem_map.1 ha
          have := hok.fresh n hn
          omega
        · intro n hn
          rw [nextAddr_insert]
          rcases List.mem_append.1 hn with hn | hn
          · exact Nat.lt_succ_of_lt (hok.fresh n hn)
          · rw [List.mem_singleton.1 hn]; exact Nat.lt_succ_self _
        · simp [Level.pushBack, Level.queue, hok.total, sumQuantity_append]
    · have hok := h.levels _ _ _ hl
      refine ⟨fun n hn => ?_, hok.nonempty, hok.addrs, fun n hn => ?_, hok.total⟩
      · obtain ⟨hi, hsp⟩ := hok.indexed n hn
        exact ⟨hidx _ _ hi, hsp⟩
      · rw [nextAddr_insert]; exact Nat.lt_succ_of_lt (hok.fresh n hn)
  · rw [orderIndex_insert, getElem?_insert] at hloc
    split at hloc
    · next hid =>
      rw [Option.some.injEq] at hloc
      subst hid hloc
      refine ⟨_, by rw [level_insert, if_pos ⟨rfl, rfl⟩], ⟨b.nextAddr, o⟩, ?_, rfl, rfl⟩
      exact List.mem_append_right _ (List.mem_singleton_self _)
    · obtain ⟨l, hl, n, hn, ha, hid⟩ := h.located id loc hloc
      by_cases ht : loc.side.isBuy = o.side.isBuy ∧ loc.price = o.price
      · refine ⟨l.pushBack ⟨b.nextAddr, o⟩, ?_, n, List.mem_append_left _ hn, ha, hid⟩
        rw [level_insert, if_pos ht, hl]; rfl
      · exact ⟨l, by rw [level_insert, if_neg ht, hl], n, hn, ha, hid⟩

/-- Within a level, a node is told apart by its address or by its order's id alike. -/
theorem addr_ne_iff (h : b.RepInv) {s : Bool} {p : Price} {l : Level} (hl : b.level s p = some l) {m n : OrderNode}
    (hm : m ∈ l.orders) (hn : n ∈ l.orders) : m.addr ≠ n.addr ↔ m.order.orderId ≠ n.order.orderId := by
  have hok := h.levels _ _ _ hl
  rw [not_iff_not]
  constructor
  · intro e; rw [eq_of_addr_eq hok.addrs hm hn e]
  · intro e
    have hi := (hok.indexed m hm).1
    rw [e, (hok.indexed n hn).1, Option.some.injEq, OrderLocation.mk.injEq] at hi
    exact hi.2.2.symm

/-- An id is queued at most at the level of its index entry. -/
theorem id_ne_of_level (h : b.RepInv) {id : OrderId} {loc : OrderLocation} (hloc : b.orderIndex[id]? = some loc)
    {s : Bool} {p : Price} {l : Level} (hl : b.level s p = some l) (hsp : ¬ (s = loc.side.isBuy ∧ p = loc.price))
    {m : OrderNode} (hm : m ∈ l.orders) : m.order.orderId ≠ id := by
  rintro rfl
  obtain ⟨hi, hs, hp⟩ := (h.levels _ _ _ hl).indexed m hm
  rw [hloc, Option.some.injEq] at hi
  subst hi
  exact hsp ⟨hs.symm, hp.symm⟩

/-- Removing a resting order: what it returns, and the book it leaves. -/
theorem remove (h : b.RepInv) {id : OrderId} {loc : OrderLocation} (hloc : b.orderIndex[id]? = some loc) :
    ∃ b', b.removeRestingOrder id =
        some (⟨loc.side, loc.price, ((b'.level loc.side.isBuy loc.price).getD {}).totalQuantity⟩, b') ∧ b'.RepInv ∧
      (∀ s q, b'.queue s q = (b.queue s q).filter (·.orderId != id)) ∧ b'.orderIndex = b.orderIndex.erase id ∧
      ∀ s q, ¬ (s = loc.side.isBuy ∧ q = loc.price) → b'.level s q = b.level s q := by
  obtain ⟨l, n, hl, hf, hn, ha, hid, -, -⟩ := h.find hloc
  obtain ⟨b', hrem, hlev, hidx, hnext⟩ := b.removeRestingOrder_eq hloc hl hf
  have hok := h.levels _ _ _ hl
  have htgt : b'.level loc.side.isBuy loc.price = shrunk l n := by rw [hlev, if_pos ⟨rfl, rfl⟩]
  have hkeep : ∀ m ∈ l.orders, m.addr ≠ n.addr ↔ m.order.orderId ≠ id := fun m hm => by
    rw [h.addr_ne_iff hl hm hn, hid]
  have hidx' : ∀ (id' : OrderId), id' ≠ id → b'.orderIndex[id']? = b.orderIndex[id']? := fun id' hne => by
    rw [hidx, getElem?_erase, if_neg hne]
  refine ⟨b', by rw [hrem, htgt], ⟨fun s p l' hl' => ?_, fun id' loc' hloc' => ?_⟩, fun s q => ?_, hidx,
    fun s q hsq => by rw [hlev, if_neg hsq]⟩
  · rw [hlev] at hl'
    split at hl'
    · next ht =>
      obtain ⟨rfl, rfl⟩ := ht
      have hne : (l.unlink n).orders ≠ [] := fun e => by simp [shrunk, e] at hl'
      simp only [shrunk, hne, ↓reduceIte, Option.some.injEq] at hl'
      subst hl'
      refine ⟨fun m hm => ?_, hne, ?_, fun m hm => ?_, ?_⟩
      · obtain ⟨hm, hma⟩ := List.mem_filter.1 hm
        obtain ⟨hi, hsp⟩ := hok.indexed m hm
        exact ⟨by rw [hidx' _ ((hkeep m hm).1 (by simpa using hma)), hi], hsp⟩
      · exact hok.addrs.sublist (List.filter_sublist.map _)
      · rw [hnext]; exact hok.fresh m (List.mem_filter.1 hm).1
      · rw [Level.queue, Level.unlink, sumQuantity_unlink hok.addrs hn, hok.total]; rfl
    · next ht =>
      have hok' := h.levels _ _ _ hl'
      refine ⟨fun m hm => ?_, hok'.nonempty, hok'.addrs, fun m hm => ?_, hok'.total⟩
      · rw [hidx' _ (h.id_ne_of_level hloc hl' ht hm)]; exact hok'.indexed m hm
      · rw [hnext]; exact hok'.fresh m hm
  · rw [hidx, getElem?_erase] at hloc'
    split at hloc'
    · cases hloc'
    next hne =>
    obtain ⟨l', hl', m, hm, hma, hmid⟩ := h.located id' loc' hloc'
    by_cases ht : loc'.side.isBuy = loc.side.isBuy ∧ loc'.price = loc.price
    · rw [ht.1, ht.2, hl, Option.some.injEq] at hl'
      subst hl'
      have hmem : m ∈ (l.unlink n).orders :=
        List.mem_filter.2 ⟨hm, by simpa using (hkeep m hm).2 (hmid ▸ hne)⟩
      refine ⟨l.unlink n, ?_, m, hmem, hma, hmid⟩
      rw [ht.1, ht.2, htgt, shrunk, if_neg (List.ne_nil_of_mem hmem)]
    · exact ⟨l', by rw [hlev, if_neg ht, hl'], m, hm, hma, hmid⟩
  · unfold queue
    rw [hlev]
    split
    · next ht =>
      obtain ⟨rfl, rfl⟩ := ht
      have hq : ((shrunk l n).getD {}).queue = (l.unlink n).queue := by
        unfold shrunk
        split
        · next he => simp [Level.queue, he]
        · rfl
      rw [hq, hl, Option.getD_some, Level.queue, Level.queue, Level.unlink, List.filter_map]
      congr 1
      refine List.filter_congr fun m hm => ?_
      rw [Function.comp_apply, Bool.eq_iff_iff, bne_iff_ne, bne_iff_ne]
      exact hkeep m hm
    · next ht =>
      cases hl' : b.level s q with
      | none => rfl
      | some l' =>
        refine (List.filter_eq_self.2 fun o ho => ?_).symm
        obtain ⟨m, hm, rfl⟩ := List.mem_map.1 ho
        simpa using h.id_ne_of_level hloc hl' ht hm

/-- The in-place part of an execution: the order's quantity and its level's total go down together. -/
theorem reduce (h : b.RepInv) {id : OrderId} {loc : OrderLocation} (hloc : b.orderIndex[id]? = some loc) {l : Level}
    (hl : b.level loc.side.isBuy loc.price = some l) (q : Quantity) :
    (b.setLevel loc.side loc.price (l.reduce loc.it q)).RepInv ∧
      ∀ s p, (b.setLevel loc.side loc.price (l.reduce loc.it q)).queue s p =
        (b.queue s p).map fun o => if o.orderId = id then o.reduce q else o := by
  obtain ⟨l₀, n, hl₀, -, hn, ha, hid, -, -⟩ := h.find hloc
  rw [hl, Option.some.injEq] at hl₀
  subst hl₀
  have hok := h.levels _ _ _ hl
  have hkeep : ∀ m ∈ l.orders, m.addr = loc.it ↔ m.order.orderId = id := fun m hm => by
    rw [← not_iff_not, ← ha, ← hid]; exact h.addr_ne_iff hl hm hn
  set f : OrderNode → OrderNode := fun m => if m.addr = loc.it then { m with order := m.order.reduce q } else m with hf
  -- `f` only changes quantities
  have hfa : ∀ m, (f m).addr = m.addr := fun m => by simp only [hf]; split <;> rfl
  have hfid : ∀ m, (f m).order.orderId = m.order.orderId := fun m => by simp only [hf]; split <;> rfl
  have hfs : ∀ m, (f m).order.side = m.order.side := fun m => by simp only [hf]; split <;> rfl
  have hfp : ∀ m, (f m).order.price = m.order.price := fun m => by simp only [hf]; split <;> rfl
  have hlr : (l.reduce loc.it q).orders = l.orders.map f := rfl
  refine ⟨⟨fun s p l' hl' => ?_, fun id' loc' hloc' => ?_⟩, fun s p => ?_⟩
  · rw [level_setLevel] at hl'
    split at hl'
    · next ht =>
      obtain ⟨rfl, rfl⟩ := ht
      rw [Option.some.injEq] at hl'
      subst hl'
      refine ⟨fun m hm => ?_, ?_, ?_, fun m hm => ?_, ?_⟩
      · rw [hlr] at hm
        obtain ⟨m', hm', rfl⟩ := List.mem_map.1 hm
        rw [hfid, hfs, hfp, hfa, orderIndex_setLevel]
        exact hok.indexed m' hm'
      · rw [hlr]; simpa using hok.nonempty
      · rw [hlr, List.map_map]
        exact (List.map_congr_left fun m _ => hfa m).symm ▸ hok.addrs
      · rw [hlr] at hm
        obtain ⟨m', hm', rfl⟩ := List.mem_map.1 hm
        rw [hfa, nextAddr_setLevel]
        exact hok.fresh m' hm'
      · have := sumQuantity_reduce q hok.addrs hn
        rw [ha] at this
        rw [Level.queue, hlr, this]
        show l.totalQuantity - q = _
        rw [hok.total]; rfl
    · have hok' := h.levels _ _ _ hl'
      refine ⟨fun m hm => ?_, hok'.nonempty, hok'.addrs, fun m hm => ?_, hok'.total⟩
      · rw [orderIndex_setLevel]; exact hok'.indexed m hm
      · rw [nextAddr_setLevel]; exact hok'.fresh m hm
  · rw [orderIndex_setLevel] at hloc'
    obtain ⟨l', hl', m, hm, hma, hmid⟩ := h.located id' loc' hloc'
    by_cases ht : loc'.side.isBuy = loc.side.isBuy ∧ loc'.price = loc.price
    · rw [ht.1, ht.2, hl, Option.some.injEq] at hl'
      subst hl'
      refine ⟨l.reduce loc.it q, by rw [level_setLevel, if_pos ht], f m, ?_, by rw [hfa, hma], by rw [hfid, hmid]⟩
      rw [hlr]; exact List.mem_map_of_mem hm
    · exact ⟨l', by rw [level_setLevel, if_neg ht, hl'], m, hm, hma, hmid⟩
  · unfold queue
    rw [level_setLevel]
    split
    · next ht =>
      obtain ⟨rfl, rfl⟩ := ht
      rw [hl, Option.getD_some, Option.getD_some, Level.queue, Level.queue, hlr, List.map_map, List.map_map]
      refine List.map_congr_left fun m hm => ?_
      simp only [Function.comp, hf, hkeep m hm]
      split <;> rfl
    · next ht =>
      cases hl' : b.level s p with
      | none => rfl
      | some l' =>
        rw [Option.getD_some, Level.queue, List.map_map]
        refine List.map_congr_left fun m hm => ?_
        simp [h.id_ne_of_level hloc hl' ht hm]

end RepInv

end OrderBookT
end Mdfh
