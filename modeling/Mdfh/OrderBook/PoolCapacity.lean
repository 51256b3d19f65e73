import Mdfh.OrderBook.ObjectPool
import Mdfh.Lib.Runs
import Mathlib.Algebra.Order.BigOperators.Group.Finset

/-!
# How many orders the pools of a shard carry

Any number of books draw on one shard's three pools. In a well-formed book the list nodes are as many as
the index nodes, one of each per resting order, and the map nodes are no more than that, since no level is
empty (`RepInv.ncard_order`, `RepInv.ncard_level`). So the pools run out exactly when as many orders rest
as a pool has blocks, and only an Add can find them empty: Cancel and Execute free nodes, and Replace frees
those of the old order before it asks for the new ones.
-/

namespace Mdfh
open BlockPool (Heap NodeOp Legal)
open TreeMapLib

namespace OrderBookT
variable {b : OrderBookT}

/-- The nodes of one type. -/
def nodesOf (b : OrderBookT) (t : NodeType) : Set NodeKey := { k ∈ b.nodes | k.nodeType = t }

/-- The number of resting orders. -/
def restingCount (b : OrderBookT) : Nat := b.orderIndex.size

theorem setOf_hasOrder (b : OrderBookT) : { id | b.hasOrder id = true } = b.orderIndex.keys.toFinset := by
  ext id
  rw [List.coe_toFinset, Set.mem_ofPred_eq, Set.mem_ofPred_eq, Std.ExtTreeMap.mem_keys]
  exact Std.ExtTreeMap.contains_iff_mem

theorem ncard_hasOrder (b : OrderBookT) : { id | b.hasOrder id = true }.ncard = b.restingCount := by
  rw [setOf_hasOrder, Set.ncard_coe_finset, List.toFinset_card_of_nodup Std.ExtTreeMap.nodup_keys,
    Std.ExtTreeMap.length_keys, restingCount]

theorem nodesOf_index (b : OrderBookT) : b.nodesOf .index = NodeKey.index '' { id | b.hasOrder id = true } := by
  ext k
  cases k <;> simp [nodesOf, NodeKey.nodeType, nodes]

/-- The list node an index entry leads to. -/
def orderNode (b : OrderBookT) (id : OrderId) : NodeKey :=
  let loc := b.orderIndex[id]?.getD ⟨.buy, 0, 0⟩
  .order loc.side.isBuy loc.price loc.it

theorem orderNode_eq {id : OrderId} {loc : OrderLocation} (hloc : b.orderIndex[id]? = some loc) :
    b.orderNode id = .order loc.side.isBuy loc.price loc.it := by
  rw [orderNode, hloc]
  rfl

/-- The level of a list node. -/
def levelOf : NodeKey → NodeKey
  | .order s p _ => .level s p
  | k => k

namespace RepInv

theorem nodesOf_order (h : b.RepInv) : b.nodesOf .order = b.orderNode '' { id | b.hasOrder id = true } := by
  ext k
  constructor
  · rintro ⟨hk, ht⟩
    cases k with
    | level s p => cases ht
    | index id => cases ht
    | order s p a =>
      obtain ⟨l, hl, n, hn, rfl⟩ := mem_nodes_order.1 hk
      obtain ⟨hidx, hs, hp⟩ := (h.levels _ _ _ hl).indexed n hn
      exact ⟨n.order.orderId, (contains_iff _ _).2 ⟨_, hidx⟩, by rw [orderNode_eq hidx, hs, hp]⟩
  · rintro ⟨id, hid, rfl⟩
    obtain ⟨loc, hloc⟩ := (contains_iff _ _).1 hid
    obtain ⟨l, n, hl, -, hn, ha, -⟩ := h.find hloc
    rw [orderNode_eq hloc]
    exact ⟨⟨l, hl, n, hn, ha⟩, rfl⟩

theorem injOn_orderNode (h : b.RepInv) : Set.InjOn b.orderNode { id | b.hasOrder id = true } := by
  intro id hid id' hid' he
  obtain ⟨loc, hloc⟩ := (contains_iff _ _).1 hid
  obtain ⟨loc', hloc'⟩ := (contains_iff _ _).1 hid'
  rw [orderNode_eq hloc, orderNode_eq hloc', NodeKey.order.injEq] at he
  obtain ⟨hs, hp, hit⟩ := he
  obtain ⟨l, n, hl, hf, -, -, rfl, -⟩ := h.find hloc
  obtain ⟨l', n', hl', hf', -, -, rfl, -⟩ := h.find hloc'
  rw [← hs, ← hp, hl, Option.some.injEq] at hl'
  subst hl'
  rw [← hit, hf, Option.some.injEq] at hf'
  rw [hf']

theorem ncard_order (h : b.RepInv) : (b.nodesOf .order).ncard = b.restingCount := by
  rw [h.nodesOf_order, h.injOn_orderNode.ncard_image, ncard_hasOrder]

theorem finite_order (h : b.RepInv) : (b.nodesOf .order).Finite := by
  rw [h.nodesOf_order, setOf_hasOrder]
  exact (Finset.finite_toSet _).image _

theorem nodesOf_level (h : b.RepInv) : b.nodesOf .level = levelOf '' b.nodesOf .order := by
  ext k
  constructor
  · rintro ⟨hk, ht⟩
    cases k with
    | order s p a => cases ht
    | index id => cases ht
    | level s p =>
      obtain ⟨l, hl⟩ := mem_nodes_level.1 hk
      obtain ⟨n, hn⟩ := List.exists_mem_of_ne_nil _ (h.levels _ _ _ hl).nonempty
      exact ⟨.order s p n.addr, ⟨⟨l, hl, n, hn, rfl⟩, rfl⟩, rfl⟩
  · rintro ⟨k', ⟨hk, ht⟩, rfl⟩
    cases k' with
    | level s p => cases ht
    | index id => cases ht
    | order s p a =>
      obtain ⟨l, hl, -⟩ := mem_nodes_order.1 hk
      exact ⟨⟨l, hl⟩, rfl⟩

theorem ncard_level (h : b.RepInv) : (b.nodesOf .level).ncard ≤ b.restingCount := by
  rw [h.nodesOf_level, ← h.ncard_order]
  exact Set.ncard_image_le h.finite_order

theorem ncard_index (b : OrderBookT) : (b.nodesOf .index).ncard = b.restingCount := by
  rw [nodesOf_index, Set.ncard_image_of_injective _ fun _ _ => NodeKey.index.inj, ncard_hasOrder]

theorem finite_nodesOf (h : b.RepInv) (t : NodeType) : (b.nodesOf t).Finite := by
  cases t with
  | order => exact h.finite_order
  | level => rw [h.nodesOf_level]; exact h.finite_order.image _
  | index =>
    rw [nodesOf_index, setOf_hasOrder]
    exact (Finset.finite_toSet _).image _

end RepInv

/-- The nodes a new order takes. -/
def insertKeys (b : OrderBookT) (o : RestingOrder) : List NodeKey :=
  (if (b.levelFor o.side o.price).isNone then [.level o.side.isBuy o.price] else []) ++
    [.order o.side.isBuy o.price b.nextAddr, .index o.orderId]

theorem insertNodes_eq {o : RestingOrder} (hnew : b.hasOrder o.orderId = false) :
    b.insertNodes o = (b.insertKeys o).map .alloc := by
  rw [hasOrder] at hnew
  unfold insertNodes insertKeys
  rw [hnew]
  split <;> rfl

theorem nodup_insertKeys (b : OrderBookT) (o : RestingOrder) : ((b.insertKeys o).map (·.nodeType)).Nodup := by
  unfold insertKeys
  split <;> simp [NodeKey.nodeType]

theorem removeNodes_frees (b : OrderBookT) (id : OrderId) : ∀ op ∈ b.removeNodes id, ∃ k, op = .free k := by
  intro op hop
  unfold removeNodes at hop
  split at hop
  · cases hop
  · split at hop
    · cases hop
    · simp only [List.append_assoc, List.mem_append, List.mem_singleton] at hop
      rcases hop with rfl | hop | rfl
      · exact ⟨_, rfl⟩
      · split at hop
        · exact ⟨_, List.mem_singleton.1 hop⟩
        · cases hop
      · exact ⟨_, rfl⟩

theorem applyCancelNodes_frees (b : OrderBookT) (m : CancelOrder) : ∀ op ∈ b.applyCancelNodes m, ∃ k, op = .free k := by
  unfold applyCancelNodes
  split
  · intro op hop
    cases hop
  · exact b.removeNodes_frees m.orderId

theorem applyExecuteNodes_frees (b : OrderBookT) (m : ExecuteOrder) : ∀ op ∈ b.applyExecuteNodes m, ∃ k, op = .free k := by
  have hnil : ∀ op ∈ ([] : List (NodeOp NodeKey)), ∃ k, op = .free k := by
    intro op hop
    cases hop
  unfold applyExecuteNodes
  split
  · exact hnil
  · split
    · exact hnil
    · split
      · exact b.removeNodes_frees m.orderId
      · exact hnil

theorem restingCount_erase {b' : OrderBookT} {id : OrderId} (hid : b.hasOrder id = true)
    (h : b'.orderIndex = b.orderIndex.erase id) : b'.restingCount < b.restingCount := by
  rw [hasOrder] at hid
  have hpos : b.orderIndex.size ≠ 0 := fun e => by simp [Std.ExtTreeMap.eq_empty_iff_size_eq_zero.2 e] at hid
  rw [restingCount, restingCount, h, Std.ExtTreeMap.size_erase, if_pos hid]
  omega

end OrderBookT

/-- Books that draw on the pools of one shard. -/
structure ShardBooks (ι : Type) where
  books : ι → OrderBook
  heap : Heap (ι × NodeKey) PoolId Block

namespace ShardBooks
variable {ι : Type} [DecidableEq ι] {slot : Fin kMaxPoolShards} {capacity : Nat} {s s' : ShardBooks ι}

/-- The pool of a node while `current_shard_index` is `slot`. -/
def pool (slot : Fin kMaxPoolShards) (node : ι × NodeKey) : PoolId := ⟨node.2.nodeType, slot⟩

/-- Empty books, unused pools of `capacity` blocks each. -/
def init (ι : Type) (capacity : Nat) : ShardBooks ι where
  books := fun _ => OrderBook.empty
  heap := { pools := fun id => FixedBlockPool.init id capacity }

/-- `books[i].apply(msg)`; `none` when one of its node allocations throws `std::bad_alloc`. -/
def apply (slot : Fin kMaxPoolShards) (s : ShardBooks ι) (i : ι) (msg : DecodedMessage) :
    Option (Except ApplyError ApplyResult × ShardBooks ι) :=
  let done := s.heap.perform (pool slot) (((s.books i).1.applyNodes msg).map (·.map (Prod.mk i)))
  if done.2 then
    some (((s.books i).apply msg).1, { books := Function.update s.books i ((s.books i).apply msg).2, heap := done.1 })
  else none

/-- One call of a sequence, up to the first that throws. -/
def step (slot : Fin kMaxPoolShards) (s : ShardBooks ι) (call : ι × DecodedMessage) : Option (ShardBooks ι) :=
  (s.apply slot call.1 call.2).map (·.2)

/-- The orders that rest across the books. -/
def restingCount [Fintype ι] (s : ShardBooks ι) : Nat := ∑ i, (s.books i).1.restingCount

/-! ### The nodes of all books -/

def nodes (s : ShardBooks ι) : Set (ι × NodeKey) := { node | node.2 ∈ (s.books node.1).1.nodes }

theorem nodes_eq (s : ShardBooks ι) (i : ι) :
    s.nodes = Prod.mk i '' (s.books i).1.nodes ∪ { node ∈ s.nodes | node.1 ≠ i } := by
  ext ⟨j, k⟩
  constructor
  · intro hk
    by_cases hj : j = i
    · subst hj
      exact .inl ⟨k, hk, rfl⟩
    · exact .inr ⟨hk, hj⟩
  · rintro (⟨k', hk', e⟩ | ⟨hk, -⟩)
    · obtain ⟨rfl, rfl⟩ := Prod.mk.inj e
      exact hk'
    · exact hk

/-- What takes one book from its nodes to those of another takes the shard there. -/
theorem legal_update (s : ShardBooks ι) (i : ι) {b' : OrderBook} {ops : List (NodeOp NodeKey)}
    (hl : Legal (s.books i).1.nodes ops b'.1.nodes) (heap : Heap (ι × NodeKey) PoolId Block) :
    Legal s.nodes (ops.map (·.map (Prod.mk i))) (nodes ⟨Function.update s.books i b', heap⟩) := by
  have hrest : { node ∈ nodes ⟨Function.update s.books i b', heap⟩ | node.1 ≠ i } = { node ∈ s.nodes | node.1 ≠ i } := by
    ext ⟨j, k⟩
    refine and_congr_left fun hj => ?_
    show k ∈ (Function.update s.books i b' j).1.nodes ↔ k ∈ (s.books j).1.nodes
    rw [Function.update_of_ne hj]
  have hself : Function.update s.books i b' i = b' := Function.update_self i b' s.books
  rw [nodes_eq s i, nodes_eq ⟨Function.update s.books i b', heap⟩ i, hrest]
  show Legal _ _ (Prod.mk i '' (Function.update s.books i b' i).1.nodes ∪ _)
  rw [hself]
  refine hl.map (fun k k' e => (Prod.mk.inj e).2) ?_
  rintro k ⟨-, hk⟩
  exact hk rfl

/-- The pools hold the nodes of the books, each in the pool of its type, and nothing else was taken. -/
structure Ok (slot : Fin kMaxPoolShards) (capacity : Nat) (s : ShardBooks ι) : Prop where
  holds : s.heap.Holds s.nodes
  home : s.heap.Home (pool slot) (fun id => FixedBlockPool.init id capacity)

theorem Ok.init (ι : Type) [DecidableEq ι] (slot : Fin kMaxPoolShards) (capacity : Nat) :
    (ShardBooks.init ι capacity).Ok slot capacity := by
  refine ⟨⟨List.nodup_nil, fun k => ?_⟩, .init _ _⟩
  have hnodes : OrderBook.empty.1.nodes = ∅ := OrderBookT.nodes_empty
  simp [nodes, ShardBooks.init, hnodes]

theorem Ok.update (h : s.Ok slot capacity) (i : ι) (b' : OrderBook) {ops : List (NodeOp NodeKey)}
    (hl : Legal (s.books i).1.nodes ops b'.1.nodes)
    (hok : (s.heap.perform (pool slot) (ops.map (·.map (Prod.mk i)))).2 = true) :
    Ok slot capacity ⟨Function.update s.books i b', (s.heap.perform (pool slot) (ops.map (·.map (Prod.mk i)))).1⟩ :=
  ⟨h.holds.perform (s.legal_update i hl _) hok, h.home.perform _⟩

theorem Ok.step (h : s.Ok slot capacity) {call : ι × DecodedMessage} (hs : s.step slot call = some s') :
    s'.Ok slot capacity := by
  obtain ⟨⟨r, s₁⟩, ha, rfl⟩ := Option.map_eq_some_iff.1 hs
  unfold apply at ha
  dsimp only at ha
  split at ha
  · next hok =>
    rw [Option.some.injEq, Prod.mk.injEq] at ha
    obtain ⟨-, rfl⟩ := ha
    exact h.update call.1 _ (OrderBook.legal_apply _ call.2) hok
  · cases ha

/-! ### Counting -/

variable [Fintype ι]

omit [DecidableEq ι] in
theorem ncard_nodes (s : ShardBooks ι) (slot : Fin kMaxPoolShards) (t : NodeType) :
    { node ∈ s.nodes | pool slot node = ⟨t, slot⟩ }.ncard = ∑ i, ((s.books i).1.nodesOf t).ncard := by
  rw [← BlockPool.ncard_family fun i => (s.books i).2.finite_nodesOf t]
  refine congrArg Set.ncard (Set.ext fun node => ?_)
  simp [nodes, OrderBookT.nodesOf, pool]

/-- A pool has as many blocks in use as there are nodes of its type. -/
theorem Ok.free_add (h : s.Ok slot capacity) (t : NodeType) :
    (s.heap.pools ⟨t, slot⟩).freeList.length + ∑ i, ((s.books i).1.nodesOf t).ncard = capacity := by
  rw [← ncard_nodes s slot t, h.home.length_freeList h.holds]
  simp [FixedBlockPool.init]

/-- There is never more resting than a pool has blocks. -/
theorem Ok.restingCount_le (h : s.Ok slot capacity) : s.restingCount ≤ capacity := by
  have hfree := h.free_add .index
  simp only [OrderBookT.RepInv.ncard_index] at hfree
  unfold restingCount
  omega

theorem Ok.perform_insert (h : s.Ok slot capacity) (i : ι) {o : RestingOrder}
    (hnew : (s.books i).1.hasOrder o.orderId = false) :
    (s.heap.perform (pool slot) (((s.books i).1.insertNodes o).map (·.map (Prod.mk i)))).2 = true ↔
      s.restingCount < capacity := by
  have horder := h.free_add .order
  have hindex := h.free_add .index
  have hlevel := h.free_add .level
  have hle : ∑ i, ((s.books i).1.nodesOf .level).ncard ≤ s.restingCount :=
    Finset.sum_le_sum fun i _ => (s.books i).2.ncard_level
  simp only [OrderBookT.RepInv.ncard_index] at hindex
  simp only [fun i => (s.books i).2.ncard_order] at horder
  rw [← restingCount] at hindex horder
  have hkeys : ((s.books i).1.insertNodes o).map (·.map (Prod.mk i)) =
      (((s.books i).1.insertKeys o).map (Prod.mk i)).map .alloc := by
    rw [OrderBookT.insertNodes_eq hnew, List.map_map, List.map_map]
    rfl
  have hnd : ((((s.books i).1.insertKeys o).map (Prod.mk i)).map (pool slot)).Nodup := by
    refine List.Nodup.of_map PoolId.nodeType ?_
    rw [List.map_map, List.map_map]
    exact (s.books i).1.nodup_insertKeys o
  rw [hkeys, Heap.perform_allocs _ _ hnd, List.forall_mem_map]
  constructor
  · intro hne
    have := hne (.order o.side.isBuy o.price (s.books i).1.nextAddr) (by simp [OrderBookT.insertKeys])
    rw [← List.length_pos_iff] at this
    simp only [pool, NodeKey.nodeType] at this
    omega
  · intro hlt k _
    rw [← List.length_pos_iff]
    cases k with
    | level s p => simp only [pool, NodeKey.nodeType]; omega
    | order s p a => simp only [pool, NodeKey.nodeType]; omega
    | index id => simp only [pool, NodeKey.nodeType]; omega

omit [Fintype ι] in
theorem apply_eq_none_iff_perform (s : ShardBooks ι) (i : ι) (m : DecodedMessage) :
    s.apply slot i m = none ↔
      ¬ (s.heap.perform (pool slot) (((s.books i).1.applyNodes m).map (·.map (Prod.mk i)))).2 = true := by
  unfold apply
  dsimp only
  split <;> simp_all

omit [Fintype ι] in
theorem perform_book_frees (s : ShardBooks ι) (slot : Fin kMaxPoolShards) (i : ι) {ops : List (NodeOp NodeKey)}
    (hops : ∀ op ∈ ops, ∃ k, op = .free k) :
    (s.heap.perform (pool slot) (ops.map (·.map (Prod.mk i)))).2 = true := by
  refine s.heap.perform_frees ?_
  intro op hop
  obtain ⟨op', hop', rfl⟩ := List.mem_map.1 hop
  obtain ⟨k, rfl⟩ := hops op' hop'
  exact ⟨_, rfl⟩

theorem restingCount_update (s : ShardBooks ι) (i : ι) (b' : OrderBook) (heap : Heap (ι × NodeKey) PoolId Block)
    (hlt : b'.1.restingCount < (s.books i).1.restingCount) :
    restingCount ⟨Function.update s.books i b', heap⟩ < s.restingCount := by
  refine Finset.sum_lt_sum (fun j _ => ?_) ⟨i, Finset.mem_univ i, ?_⟩
  · by_cases hj : j = i
    · subst hj
      simpa using hlt.le
    · simp [Function.update_of_ne hj]
  · simpa using hlt

/-- A Replace asks for its nodes with one order less resting than there is room for. -/
theorem Ok.perform_replace (h : s.Ok slot capacity) (i : ι) (m : ReplaceOrder) :
    (s.heap.perform (pool slot) (((s.books i).1.applyReplaceNodes m).map (·.map (Prod.mk i)))).2 = true := by
  unfold OrderBookT.applyReplaceNodes
  cases hloc : (s.books i).1.orderIndex[m.oldOrderId]? with
  | none => rfl
  | some loc =>
    by_cases hd : (s.books i).1.orderIndex.contains m.newOrderId = true
    · simp only [hd, if_true]
      rfl
    · obtain ⟨b₁, hrem, hb₁, -, hidx, -⟩ := (s.books i).2.remove hloc
      simp only [hd, hrem, Bool.false_eq_true, if_false, List.map_append]
      -- the books between the two halves
      have hok := s.perform_book_frees slot i ((s.books i).1.removeNodes_frees m.oldOrderId)
      have h₁ := h.update i ⟨b₁, hb₁⟩ ((s.books i).2.legal_remove hrem) hok
      have hlt := s.restingCount_update i ⟨b₁, hb₁⟩
        (s.heap.perform (pool slot) (((s.books i).1.removeNodes m.oldOrderId).map (·.map (Prod.mk i)))).1
        (OrderBookT.restingCount_erase ((contains_iff _ _).2 ⟨loc, hloc⟩) hidx)
      have hnew : b₁.hasOrder m.newOrderId = false := by
        rw [OrderBookT.hasOrder_erase hidx, OrderBookT.hasOrder, Bool.eq_false_of_not_eq_true hd]
        rfl
      have hself : Function.update s.books i ⟨b₁, hb₁⟩ i = ⟨b₁, hb₁⟩ := Function.update_self i _ s.books
      have hins := (h₁.perform_insert i (o := ⟨m.newOrderId, loc.side, m.price, m.quantity⟩)
        (by simpa only [hself] using hnew)).2 (Nat.lt_of_lt_of_le hlt h.restingCount_le)
      rw [Heap.perform_append, if_pos hok]
      simpa only [hself] using hins

/-- Only an Add of a new id finds the pools empty, and only when they are in use to the last block. -/
theorem Ok.apply_eq_none_iff (h : s.Ok slot capacity) (i : ι) (m : DecodedMessage) :
    s.apply slot i m = none ↔
      ∃ a, m = .add a ∧ (s.books i).hasOrder a.orderId = false ∧ s.restingCount = capacity := by
  rw [apply_eq_none_iff_perform]
  cases m with
  | add a =>
    show ¬ (s.heap.perform (pool slot) (((s.books i).1.applyAddNodes a).map (·.map (Prod.mk i)))).2 = true ↔ _
    unfold OrderBookT.applyAddNodes
    by_cases hd : (s.books i).1.orderIndex.contains a.orderId = true
    · rw [if_pos hd]
      refine ⟨fun hn => absurd rfl hn, ?_⟩
      rintro ⟨a', ha', hnew, -⟩
      cases ha'
      rw [OrderBook.hasOrder, OrderBookT.hasOrder, hd] at hnew
      cases hnew
    · have hnew := Bool.eq_false_of_not_eq_true hd
      rw [if_neg hd, h.perform_insert i (o := ⟨a.orderId, a.side, a.price, a.quantity⟩) hnew, Nat.not_lt]
      constructor
      · intro hle
        exact ⟨a, rfl, hnew, Nat.le_antisymm h.restingCount_le hle⟩
      · rintro ⟨-, -, -, hfull⟩
        exact hfull.ge
  | cancel m =>
    refine ⟨fun hn => absurd (s.perform_book_frees slot i ((s.books i).1.applyCancelNodes_frees m)) hn, ?_⟩
    rintro ⟨a, ha, -⟩
    cases ha
  | execute m =>
    refine ⟨fun hn => absurd (s.perform_book_frees slot i ((s.books i).1.applyExecuteNodes_frees m)) hn, ?_⟩
    rintro ⟨a, ha, -⟩
    cases ha
  | replace m =>
    refine ⟨fun hn => absurd (h.perform_replace i m) hn, ?_⟩
    rintro ⟨a, ha, -⟩
    cases ha

end ShardBooks

/-- Pools of `capacity` blocks carry exactly `capacity` resting orders: after any calls without a failed allocation,
a call throws only when it adds a new order and `capacity` orders rest. -/
theorem shardBooks_capacity (ι : Type) [Fintype ι] [DecidableEq ι] (slot : Fin kMaxPoolShards) (capacity : Nat)
    (calls : List (ι × DecodedMessage)) (s : ShardBooks ι)
    (hrun : Runs.exec (ShardBooks.step slot) (ShardBooks.init ι capacity) calls = some s) (i : ι) (m : DecodedMessage) :
    s.apply slot i m = none ↔
      ∃ a, m = .add a ∧ (s.books i).hasOrder a.orderId = false ∧ s.restingCount = capacity := by
  have hstep : ∀ (s : ShardBooks ι) call s', s.Ok slot capacity → s.step slot call = some s' → s'.Ok slot capacity :=
    fun s call s' h hs => h.step hs
  have hok : s.Ok slot capacity := Runs.invariant hstep (.init ι slot capacity) hrun
  exact hok.apply_eq_none_iff i m

/-- Two books, two blocks of each kind, two orders: a third order fails, moving one to a new level does not. -/
theorem shardBooks_capacity_full :
    ∃ s : ShardBooks (Fin 2), Runs.exec (ShardBooks.step 3) (ShardBooks.init (Fin 2) 2)
        [(0, .add ⟨1, 7, Vector.replicate 8 0, .buy, 100, 10, 1⟩), (1, .add ⟨2, 8, Vector.replicate 8 1, .sell, 101, 5, 2⟩)] =
        some s ∧ s.restingCount = 2 ∧
      s.apply 3 1 (.add ⟨3, 9, Vector.replicate 8 1, .sell, 101, 4, 3⟩) = none ∧
      s.apply 3 0 (.replace ⟨3, 7, 9, 99, 4, 3⟩) ≠ none := by
  have hrun : (Runs.exec (ShardBooks.step 3) (ShardBooks.init (Fin 2) 2)
      [(0, .add ⟨1, 7, Vector.replicate 8 0, .buy, 100, 10, 1⟩), (1, .add ⟨2, 8, Vector.replicate 8 1, .sell, 101, 5, 2⟩)]).map
      (fun s => (s.restingCount, (s.books 1).hasOrder 9)) = some (2, false) := by decide +kernel
  obtain ⟨s, hs, hc⟩ := Option.map_eq_some_iff.1 hrun
  obtain ⟨hcount, hnew⟩ := Prod.mk.inj hc
  refine ⟨s, hs, hcount, (shardBooks_capacity (Fin 2) 3 2 _ s hs 1 _).2 ⟨_, rfl, hnew, hcount⟩, fun hn => ?_⟩
  obtain ⟨a, ha, -⟩ := (shardBooks_capacity (Fin 2) 3 2 _ s hs 0 _).1 hn
  cases ha

end Mdfh
