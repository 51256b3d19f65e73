import Mdfh.OrderBook.BookApply
import Mdfh.Lib.BlockPool

/-!
# The pool nodes of an order book (`orderbook/object_pool.hpp`, the containers of `order_book.hpp`)

The book's containers take one pool node per element: a list node per resting order, a map node per
price level, a hash node per index entry. Bucket arrays are bulk requests, which `PoolAllocator` hands to
the global allocator, so they are no pool traffic. `applyNodes` is the node traffic of one `apply`, in the
order of the source; `nodes` are the nodes a book holds. `apply` takes a book from its nodes to those of
the next book and never allocates a node twice or frees one that is not there (`RepInv.legal_apply`).
-/

namespace Mdfh
open BlockPool (NodeOp Legal)
open TreeMapLib

def kMaxPoolShards : Nat := 16

instance : NeZero kMaxPoolShards := ⟨by decide⟩

/-- The node types `PoolAllocator` is rebound to; `bids_` and `asks_` have the same map node. -/
inductive NodeType where
  | order
  | level
  | index
deriving DecidableEq, Repr

/-- The element of a book's containers a node belongs to. List nodes are told apart by level and address. -/
inductive NodeKey where
  | level (buy : Bool) (price : Price)
  | order (buy : Bool) (price : Price) (addr : Nat)
  | index (id : OrderId)
deriving DecidableEq, Repr

def NodeKey.nodeType : NodeKey → NodeType
  | .level .. => .level
  | .order .. => .order
  | .index .. => .index

/-- One `FixedBlockPool` per node type and shard slot. -/
structure PoolId where
  nodeType : NodeType
  slot : Fin kMaxPoolShards
deriving DecidableEq, Repr

/-- `slot(index)` of the `storage_` of a pool. -/
structure Block where
  pool : PoolId
  index : Nat
deriving DecidableEq, Repr

/-- `FixedBlockPool`, with the assertion of `deallocate` compiled out. -/
abbrev FixedBlockPool := BlockPool Block

/-- `FixedBlockPool()`, which threads all blocks into the free list in order. -/
def FixedBlockPool.init (pool : PoolId) (capacity : Nat) : FixedBlockPool :=
  ⟨(List.range' 0 capacity).map (Block.mk pool), 0⟩

namespace OrderBookT

/-- `levels[price]`, `orders.push_back`, `order_index_[order_id]`. -/
def insertNodes (b : OrderBookT) (order : RestingOrder) : List (NodeOp NodeKey) :=
  (if (b.levelFor order.side order.price).isNone then [.alloc (.level order.side.isBuy order.price)] else []) ++
    [.alloc (.order order.side.isBuy order.price b.nextAddr)] ++
    (if b.orderIndex.contains order.orderId then [] else [.alloc (.index order.orderId)])

/-- `orders.erase(loc.it)`, `levels.erase(level_it)` once the level is empty, `order_index_.erase(idx_it)`. -/
def removeNodes (b : OrderBookT) (orderId : OrderId) : List (NodeOp NodeKey) :=
  match b.orderIndex[orderId]? with
  | none => []
  | some loc =>
    match b.levelFor loc.side loc.price with
    | none => []
    | some level =>
      [.free (.order loc.side.isBuy loc.price loc.it)] ++
        (if (level.orders.filter (·.addr != loc.it)).isEmpty then [.free (.level loc.side.isBuy loc.price)] else []) ++
        [.free (.index orderId)]

def applyAddNodes (b : OrderBookT) (msg : AddOrder) : List (NodeOp NodeKey) :=
  if b.orderIndex.contains msg.orderId then [] else b.insertNodes ⟨msg.orderId, msg.side, msg.price, msg.quantity⟩

def applyCancelNodes (b : OrderBookT) (msg : CancelOrder) : List (NodeOp NodeKey) :=
  if !b.orderIndex.contains msg.orderId then [] else b.removeNodes msg.orderId

def applyExecuteNodes (b : OrderBookT) (msg : ExecuteOrder) : List (NodeOp NodeKey) :=
  match b.resting msg.orderId with
  | none => []
  | some order =>
    if msg.executedQuantity > order.quantity then []
    else if order.quantity - msg.executedQuantity = 0 then b.removeNodes msg.orderId  -- a fill moves no node before
    else []

def applyReplaceNodes (b : OrderBookT) (msg : ReplaceOrder) : List (NodeOp NodeKey) :=
  match b.orderIndex[msg.oldOrderId]? with
  | none => []
  | some loc =>
    if b.orderIndex.contains msg.newOrderId then []
    else
      match b.removeRestingOrder msg.oldOrderId with
      | none => []
      | some (_, b₁) =>
        b.removeNodes msg.oldOrderId ++ b₁.insertNodes ⟨msg.newOrderId, loc.side, msg.price, msg.quantity⟩

/-- The node traffic of `apply(msg)`. -/
def applyNodes (b : OrderBookT) : DecodedMessage → List (NodeOp NodeKey)
  | .add m => b.applyAddNodes m
  | .cancel m => b.applyCancelNodes m
  | .execute m => b.applyExecuteNodes m
  | .replace m => b.applyReplaceNodes m

/-- The nodes a book holds. -/
def nodes (b : OrderBookT) : Set NodeKey := { k |
  match k with
  | .level s p => ∃ l, b.level s p = some l
  | .order s p a => ∃ l, b.level s p = some l ∧ ∃ n ∈ l.orders, n.addr = a
  | .index id => b.hasOrder id = true }

variable {b : OrderBookT}

theorem mem_nodes_level {s : Bool} {p : Price} : .level s p ∈ b.nodes ↔ ∃ l, b.level s p = some l := Iff.rfl

theorem mem_nodes_order {s : Bool} {p : Price} {a : Nat} :
    .order s p a ∈ b.nodes ↔ ∃ l, b.level s p = some l ∧ ∃ n ∈ l.orders, n.addr = a := Iff.rfl

theorem mem_nodes_index {id : OrderId} : .index id ∈ b.nodes ↔ b.hasOrder id = true := Iff.rfl

theorem nodes_empty : ({} : OrderBookT).nodes = ∅ := by
  ext k
  rw [Set.mem_empty_iff_false, iff_false]
  cases k <;> simp [nodes, level_empty, hasOrder]

theorem RepInv.nodes_eq_empty_iff (h : b.RepInv) : b.nodes = ∅ ↔ ∀ id, b.hasOrder id = false := by
  constructor
  · intro he id
    rw [← Bool.not_eq_true, ← mem_nodes_index, he]
    exact Set.notMem_empty _
  · intro he
    -- a level is never empty, and each of its orders is indexed
    have hlevel : ∀ s p l, b.level s p ≠ some l := by
      intro s p l hl
      obtain ⟨n, hn⟩ := List.exists_mem_of_ne_nil _ (h.levels s p l hl).nonempty
      have hid := (h.hasOrder_iff n.order.orderId).2 ⟨s, p, n.order, (b.mem_queue_iff _ _ _).2 ⟨l, hl, n, hn, rfl⟩, rfl⟩
      rw [he] at hid
      cases hid
    refine Set.eq_empty_iff_forall_notMem.2 fun k hk => ?_
    cases k with
    | level s p => obtain ⟨l, hl⟩ := mem_nodes_level.1 hk; exact hlevel s p l hl
    | order s p a => obtain ⟨l, hl, -⟩ := mem_nodes_order.1 hk; exact hlevel s p l hl
    | index id =>
      rw [mem_nodes_index, he] at hk
      cases hk

/-! ### The traffic of the primitives -/

/-- The nodes after an insertion: the order's list node and its index node, and a map node where the level is new. -/
theorem nodes_insert (b : OrderBookT) (o : RestingOrder) (k : NodeKey) :
    k ∈ (b.insertRestingOrder o).2.nodes ↔ k = .index o.orderId ∨ k = .order o.side.isBuy o.price b.nextAddr ∨
      k = .level o.side.isBuy o.price ∨ k ∈ b.nodes := by
  cases k with
  | level s p =>
    rw [mem_nodes_level, mem_nodes_level, level_insert]
    by_cases ht : s = o.side.isBuy ∧ p = o.price
    · simp [ht]
    · rw [if_neg ht]
      simp [ht]
  | order s p a =>
    rw [mem_nodes_order, mem_nodes_order, level_insert]
    by_cases ht : s = o.side.isBuy ∧ p = o.price
    · obtain ⟨rfl, rfl⟩ := ht
      cases hl : b.level o.side.isBuy o.price with
      | none => simp [Level.pushBack, eq_comm]
      | some l =>
        simp only [if_true, Option.getD_some, Level.pushBack, and_self, Option.some.injEq, exists_eq_left',
          List.mem_append, List.mem_singleton, NodeKey.order.injEq, reduceCtorEq, true_and, false_or]
        constructor
        · rintro ⟨n, hn | rfl, rfl⟩
          · exact .inr ⟨n, hn, rfl⟩
          · exact .inl rfl
        · rintro (rfl | ⟨n, hn, rfl⟩)
          · exact ⟨_, .inr rfl, rfl⟩
          · exact ⟨n, .inl hn, rfl⟩
    · rw [if_neg ht]
      simp only [NodeKey.order.injEq, reduceCtorEq, false_or]
      constructor
      · exact .inr
      · rintro (⟨rfl, rfl, -⟩ | h)
        · exact absurd ⟨rfl, rfl⟩ ht
        · exact h
  | index id =>
    rw [mem_nodes_index, mem_nodes_index, hasOrder_insert (b.orderIndex_insert o)]
    simp [or_comm]

theorem RepInv.legal_insert (h : b.RepInv) (o : RestingOrder) (hnew : b.hasOrder o.orderId = false) :
    Legal b.nodes (b.insertNodes o) (b.insertRestingOrder o).2.nodes := by
  have hindex : NodeKey.index o.orderId ∉ b.nodes := by
    rw [mem_nodes_index, hnew]
    simp
  -- list nodes are numbered as they are allocated
  have horder : NodeKey.order o.side.isBuy o.price b.nextAddr ∉ b.nodes := by
    rintro ⟨l, hl, n, hn, ha⟩
    exact absurd ((h.levels _ _ _ hl).fresh n hn) (by omega)
  rw [hasOrder] at hnew
  unfold insertNodes
  rw [hnew, levelFor_eq]
  cases hl : b.level o.side.isBuy o.price with
  | none =>
    have hlevel : NodeKey.level o.side.isBuy o.price ∉ b.nodes := by
      rw [mem_nodes_level, hl]
      simp
    refine .alloc hlevel (.alloc (by simpa using horder) (.alloc (by simpa using hindex) ?_))
    convert Legal.nil using 1
    ext k
    rw [nodes_insert]
    simp only [Set.mem_insert_iff]
  | some l =>
    have hlevel : NodeKey.level o.side.isBuy o.price ∈ b.nodes := ⟨l, hl⟩
    refine .alloc horder (.alloc (by simpa using hindex) ?_)
    convert Legal.nil using 1
    ext k
    rw [nodes_insert]
    simp only [Set.mem_insert_iff]
    refine or_congr_right (or_congr_right ?_)
    constructor
    · rintro (rfl | hk)
      · exact hlevel
      · exact hk
    · exact .inr

/-- The nodes after node `it` of level `l` is unlinked and index entry `id` erased; the map node stays while the
level has other orders. -/
theorem nodes_remove {b b' : OrderBookT} {id : OrderId} {loc : OrderLocation} {l : Level} {n : OrderNode}
    (hl : b.level loc.side.isBuy loc.price = some l) (hn : n.addr = loc.it)
    (hlev : ∀ s q, b'.level s q = if s = loc.side.isBuy ∧ q = loc.price then shrunk l n else b.level s q)
    (hidx : b'.orderIndex = b.orderIndex.erase id) (k : NodeKey) :
    k ∈ b'.nodes ↔ k ∈ b.nodes ∧ k ≠ .order loc.side.isBuy loc.price loc.it ∧
      (k = .level loc.side.isBuy loc.price → l.orders.filter (·.addr != loc.it) ≠ []) ∧ k ≠ .index id := by
  have hunlink : (l.unlink n).orders = l.orders.filter (·.addr != loc.it) := by rw [← hn]; rfl
  cases k with
  | level s p =>
    rw [mem_nodes_level, mem_nodes_level, hlev]
    by_cases ht : s = loc.side.isBuy ∧ p = loc.price
    · obtain ⟨rfl, rfl⟩ := ht
      unfold shrunk
      rw [hunlink, hl]
      split <;> simp_all
    · rw [if_neg ht]
      simp [ht]
  | order s p a =>
    rw [mem_nodes_order, mem_nodes_order, hlev]
    by_cases ht : s = loc.side.isBuy ∧ p = loc.price
    · obtain ⟨rfl, rfl⟩ := ht
      rw [if_pos ⟨rfl, rfl⟩, hl]
      simp only [Option.some.injEq, exists_eq_left', ne_eq, NodeKey.order.injEq, true_and, reduceCtorEq, false_implies,
        not_false_eq_true, and_true]
      constructor
      · rintro ⟨l', hl', m, hm, rfl⟩
        unfold shrunk at hl'
        split at hl'
        · cases hl'
        · rw [Option.some.injEq] at hl'
          rw [← hl', hunlink] at hm
          obtain ⟨hm, hne⟩ := List.mem_filter.1 hm
          exact ⟨⟨m, hm, rfl⟩, by simpa using hne⟩
      · rintro ⟨⟨m, hm, rfl⟩, hne⟩
        have hmem : m ∈ (l.unlink n).orders := by
          rw [hunlink]
          exact List.mem_filter.2 ⟨hm, by simpa using hne⟩
        exact ⟨l.unlink n, by rw [shrunk, if_neg (List.ne_nil_of_mem hmem)], m, hmem, rfl⟩
    · rw [if_neg ht]
      simp only [ne_eq, NodeKey.order.injEq, reduceCtorEq, false_implies, not_false_eq_true, and_true]
      exact ⟨fun h => ⟨h, fun e => ht ⟨e.1, e.2.1⟩⟩, And.left⟩
  | index id' =>
    rw [mem_nodes_index, mem_nodes_index, hasOrder_erase hidx]
    simp

theorem RepInv.legal_remove (h : b.RepInv) {id : OrderId} {touched : LevelDelta} {b' : OrderBookT}
    (hrem : b.removeRestingOrder id = some (touched, b')) : Legal b.nodes (b.removeNodes id) b'.nodes := by
  cases hloc : b.orderIndex[id]? with
  | none => simp [removeRestingOrder, hloc] at hrem
  | some loc =>
    obtain ⟨l, n, hl, hf, hn, ha, -⟩ := h.find hloc
    obtain ⟨b₁, hrem₁, hlev, hidx, -⟩ := b.removeRestingOrder_eq hloc hl hf
    rw [hrem, Option.some.injEq, Prod.mk.injEq] at hrem₁
    obtain ⟨-, rfl⟩ := hrem₁
    have hnodes := nodes_remove hl ha hlev hidx
    have horder : NodeKey.order loc.side.isBuy loc.price loc.it ∈ b.nodes := ⟨l, hl, n, hn, ha⟩
    have hlevel : NodeKey.level loc.side.isBuy loc.price ∈ b.nodes := ⟨l, hl⟩
    have hindex : NodeKey.index id ∈ b.nodes := (contains_iff _ _).2 ⟨loc, hloc⟩
    simp only [removeNodes, hloc, levelFor_eq, hl]
    by_cases he : l.orders.filter (·.addr != loc.it) = []
    · rw [he]
      refine .free horder (.free (by simpa using hlevel) (.free (by simpa using hindex) ?_))
      convert Legal.nil using 1
      ext k
      rw [hnodes, he]
      simp only [Set.mem_sdiff, Set.mem_singleton_iff, ne_eq, not_true_eq_false, and_assoc, imp_false]
    · rw [if_neg (by simpa using he)]
      refine .free horder (.free (by simpa using hindex) ?_)
      convert Legal.nil using 1
      ext k
      rw [hnodes]
      simp only [Set.mem_sdiff, Set.mem_singleton_iff, ne_eq, he, not_false_eq_true, implies_true, true_and, and_assoc]

theorem nodes_reduce {side : Side} {p : Price} {l : Level} (hl : b.level side.isBuy p = some l) (it : Nat)
    (q : Quantity) : (b.setLevel side p (l.reduce it q)).nodes = b.nodes := by
  have haddr : ∀ a, (∃ n ∈ (l.reduce it q).orders, n.addr = a) ↔ ∃ n ∈ l.orders, n.addr = a := by
    intro a
    unfold Level.reduce
    simp only [List.mem_map]
    constructor
    · rintro ⟨_, ⟨n, hn, rfl⟩, rfl⟩
      exact ⟨n, hn, by split <;> rfl⟩
    · rintro ⟨n, hn, rfl⟩
      exact ⟨_, ⟨n, hn, rfl⟩, by split <;> rfl⟩
  ext k
  cases k with
  | level s p' =>
    rw [mem_nodes_level, mem_nodes_level, level_setLevel]
    by_cases ht : s = side.isBuy ∧ p' = p
    · simp [ht, hl]
    · rw [if_neg ht]
  | order s p' a =>
    rw [mem_nodes_order, mem_nodes_order, level_setLevel]
    by_cases ht : s = side.isBuy ∧ p' = p
    · simp [ht, hl, haddr a]
    · rw [if_neg ht]
  | index id => rw [mem_nodes_index, mem_nodes_index, hasOrder, orderIndex_setLevel]; rfl

theorem removeNodes_reduce {id : OrderId} {loc : OrderLocation} (hloc : b.orderIndex[id]? = some loc) {l : Level}
    (hl : b.level loc.side.isBuy loc.price = some l) (q : Quantity) :
    (b.setLevel loc.side loc.price (l.reduce loc.it q)).removeNodes id = b.removeNodes id := by
  have hempty : ((l.reduce loc.it q).orders.filter (·.addr != loc.it)).isEmpty =
      (l.orders.filter (·.addr != loc.it)).isEmpty := by
    unfold Level.reduce
    rw [List.filter_map, List.isEmpty_map]
    congr 2
    funext n
    simp only [Function.comp]
    split <;> rfl
  simp only [removeNodes, orderIndex_setLevel, hloc, levelFor_eq, level_setLevel, and_self, if_true, hl, hempty]

/-! ### The four message kinds -/

section Apply
variable {b' : OrderBookT} {r : Except ApplyError ApplyResult}

theorem RepInv.legal_applyAdd (h : b.RepInv) {m : AddOrder} (ha : b.applyAdd m = some (r, b')) :
    Legal b.nodes (b.applyAddNodes m) b'.nodes := by
  unfold applyAdd at ha
  unfold applyAddNodes
  by_cases hd : b.orderIndex.contains m.orderId = true
  · rw [if_pos hd] at ha ⊢
    obtain ⟨-, rfl⟩ := Prod.mk.inj (Option.some.inj ha)
    exact .nil
  · rw [if_neg hd] at ha ⊢
    obtain ⟨-, rfl⟩ := Prod.mk.inj (Option.some.inj ha)
    exact h.legal_insert _ (Bool.eq_false_of_not_eq_true hd)

theorem RepInv.legal_applyCancel (h : b.RepInv) {m : CancelOrder} (ha : b.applyCancel m = some (r, b')) :
    Legal b.nodes (b.applyCancelNodes m) b'.nodes := by
  unfold applyCancel at ha
  unfold applyCancelNodes
  by_cases hd : (!b.orderIndex.contains m.orderId) = true
  · rw [if_pos hd] at ha ⊢
    obtain ⟨-, rfl⟩ := Prod.mk.inj (Option.some.inj ha)
    exact .nil
  · rw [if_neg hd] at ha ⊢
    obtain ⟨⟨touched, b₁⟩, hrem, ha⟩ := Option.bind_eq_some_iff.1 ha
    obtain ⟨-, rfl⟩ := Prod.mk.inj (Option.some.inj ha)
    exact h.legal_remove hrem

theorem RepInv.legal_applyExecute (h : b.RepInv) {m : ExecuteOrder} (ha : b.applyExecute m = some (r, b')) :
    Legal b.nodes (b.applyExecuteNodes m) b'.nodes := by
  unfold applyExecute at ha
  unfold applyExecuteNodes resting
  cases hloc : b.orderIndex[m.orderId]? with
  | none =>
    rw [hloc] at ha
    obtain ⟨-, rfl⟩ := Prod.mk.inj (Option.some.inj ha)
    exact .nil
  | some loc =>
    rw [hloc] at ha
    obtain ⟨order, hd, ha⟩ := Option.bind_eq_some_iff.1 ha
    simp only [Option.bind_eq_bind, Option.bind_some, hd]
    by_cases hx : m.executedQuantity > order.quantity
    · rw [if_pos hx] at ha ⊢
      obtain ⟨-, rfl⟩ := Prod.mk.inj (Option.some.inj ha)
      exact .nil
    · rw [if_neg hx] at ha ⊢
      obtain ⟨l, hl, ha⟩ := Option.bind_eq_some_iff.1 ha
      rw [levelFor_eq] at hl
      have hnodes := nodes_reduce hl loc.it m.executedQuantity
      by_cases hz : order.quantity - m.executedQuantity = 0
      · rw [if_pos hz] at ha ⊢
        obtain ⟨⟨touched, b₁⟩, hrem, ha⟩ := Option.bind_eq_some_iff.1 ha
        obtain ⟨-, rfl⟩ := Prod.mk.inj (Option.some.inj ha)
        have := (h.reduce hloc hl m.executedQuantity).1.legal_remove hrem
        rwa [hnodes, removeNodes_reduce hloc hl] at this
      · rw [if_neg hz] at ha ⊢
        obtain ⟨-, rfl⟩ := Prod.mk.inj (Option.some.inj ha)
        rw [hnodes]
        exact .nil

theorem RepInv.legal_applyReplace (h : b.RepInv) {m : ReplaceOrder} (ha : b.applyReplace m = some (r, b')) :
    Legal b.nodes (b.applyReplaceNodes m) b'.nodes := by
  unfold applyReplace at ha
  unfold applyReplaceNodes
  cases hloc : b.orderIndex[m.oldOrderId]? with
  | none =>
    rw [hloc] at ha
    obtain ⟨-, rfl⟩ := Prod.mk.inj (Option.some.inj ha)
    exact .nil
  | some loc =>
    rw [hloc] at ha
    by_cases hd : b.orderIndex.contains m.newOrderId = true
    · simp only [hd, if_true, Option.some.injEq, Prod.mk.injEq] at ha ⊢
      obtain ⟨-, rfl⟩ := ha
      exact .nil
    · obtain ⟨b₁, hrem, hb₁, -, hidx, -⟩ := h.remove hloc
      simp only [hd, hrem, Bool.false_eq_true, if_false, Option.bind_eq_bind, Option.bind_some, Option.pure_def,
        Option.some.injEq, Prod.mk.injEq] at ha ⊢
      obtain ⟨-, rfl⟩ := ha
      refine (h.legal_remove hrem).append (hb₁.legal_insert _ ?_)
      have hnew : b.hasOrder m.newOrderId = false := Bool.eq_false_of_not_eq_true hd
      rw [hasOrder_erase hidx, hnew]
      rfl

end Apply

/-- `apply` takes the containers from the nodes of the book to those of the next one. -/
theorem RepInv.legal_apply (h : b.RepInv) {m : DecodedMessage} {r : Except ApplyError ApplyResult} {b' : OrderBookT}
    (ha : b.apply m = some (r, b')) : Legal b.nodes (b.applyNodes m) b'.nodes := by
  cases m with
  | add m => exact h.legal_applyAdd ha
  | cancel m => exact h.legal_applyCancel ha
  | execute m => exact h.legal_applyExecute ha
  | replace m => exact h.legal_applyReplace ha

end OrderBookT

theorem OrderBook.legal_apply (b : OrderBook) (m : DecodedMessage) :
    Legal b.1.nodes (b.1.applyNodes m) (b.apply m).2.1.nodes := by
  obtain ⟨r, b', ha, -⟩ := b.2.apply m
  rw [(OrderBook.apply_eq ha).2]
  exact b.2.legal_apply ha

end Mdfh
