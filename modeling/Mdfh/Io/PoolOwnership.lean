import Mdfh.OrderBook.ObjectPool
import Mdfh.Io.History

/-!
# Which pool a shard's blocks go back to (`orderbook/object_pool.hpp`, `~ShardedPipeline`)

`PoolAllocator::pool()` picks the pool of a node type by the calling thread's `current_shard_index`. A run
carries the pools beside the pipeline: the messages of shard `i` are applied with the index of the thread
that drives the shard, `~ShardedPipeline` frees the nodes of shard `i` with index `i`. The two agree when
every shard has its own thread. When one thread processes all shards, all nodes come from the slot of that
thread, and those of every other shard are freed into a pool they did not come from.
-/

namespace Mdfh
open BlockPool (Heap Held)
open LittleEndian (Bytes)

def kMaxSymbols : Nat := 500
def kExpectedRestingOrdersPerSymbol : Nat := 2000
def kExpectedSymbolsPerShard : Nat := kMaxSymbols / kMaxShards * 2
def kShardOrderPoolCapacity : Nat := kExpectedSymbolsPerShard * kExpectedRestingOrdersPerSymbol

/-- Who calls `process_shard`: a thread per shard, each with its shard's index, or one thread that calls
`process_pending` with some index. -/
inductive Driving where
  | threadPerShard
  | singleThread (currentShardIndex : Fin kMaxPoolShards)
deriving DecidableEq

/-- A node of some book of some shard. -/
structure NodeId (n : NumShards) where
  shard : Fin n.1
  symbol : Symbol
  key : NodeKey
deriving DecidableEq

variable {n : NumShards}

abbrev PoolHeap (n : NumShards) := Heap (NodeId n) PoolId Block

/-- `set_current_shard_index(i)`. -/
def poolSlot (i : Fin n.1) : Fin kMaxPoolShards := ⟨i, Nat.lt_of_lt_of_le i.2 n.le_max⟩

/-- `current_shard_index` of the thread that processes shard `i`. -/
def Driving.currentShardIndex (d : Driving) (i : Fin n.1) : Fin kMaxPoolShards :=
  match d with
  | .threadPerShard => poolSlot i
  | .singleThread c => c

/-- `PoolAllocator::pool()` while the node's shard is processed. -/
def Driving.pool (d : Driving) (node : NodeId n) : PoolId := ⟨node.key.nodeType, d.currentShardIndex node.shard⟩

/-- A run with the pools its books draw on. A `bad_alloc` ends the run: nothing catches it, and `heap` has what
was allocated up to there. -/
structure PoolRun (n : NumShards) where
  run : Run n := {}
  heap : PoolHeap n
  badAlloc : Bool := false

namespace PoolRun

/-- A call of the pipeline; applying a message is the only one that touches the pools. -/
def step (d : Driving) (r : PoolRun n) (op : Op n) : PoolRun n :=
  if r.badAlloc then r
  else
    match op with
    | .process i =>
      match r.run.pipeline.processOne i with
      | none => r
      | some (qm, _) =>
        let traffic := ((r.run.pipeline.shards i).book qm.symbol).1.applyNodes qm.message
        let done := r.heap.perform d.pool (traffic.map (·.map (NodeId.mk i qm.symbol)))
        { run := if done.2 then r.run.step op else r.run, heap := done.1, badAlloc := !done.2 }
    | _ => { r with run := r.run.step op }

def exec (d : Driving) (r : PoolRun n) (ops : List (Op n)) : PoolRun n := ops.foldl (step d) r

/-- Shard `i` has a node from some pool. -/
def HoldsNodes (r : PoolRun n) (i : Fin n.1) : Prop := ∃ node ∈ r.heap.held, node.key.shard = i

end PoolRun

/-- `shards_[i].reset()` on a thread whose index is `index`. The containers free their nodes in an order of their
own; here it is the order of `held`. -/
def resetShard (h : PoolHeap n) (index : Fin kMaxPoolShards) (i : Fin n.1) : PoolHeap n :=
  h.releaseAll (fun node => ⟨node.key.key.nodeType, index⟩) (h.held.filter (·.key.shard = i))

def resetShards (h : PoolHeap n) (shards : List (Fin n.1)) : PoolHeap n :=
  shards.foldl (fun h i => resetShard h (poolSlot i) i) h

/-- `~ShardedPipeline()`. -/
def PoolRun.destroy (r : PoolRun n) : PoolHeap n := resetShards r.heap (List.finRange n.1)

/-- Every `deallocate` ran on the pool its block came from, and every pool has the count and the free blocks it
had in `π`. -/
def ReturnsHome (π : PoolId → FixedBlockPool) (h : PoolHeap n) : Prop :=
  (∀ f ∈ h.frees, f.1 = f.2) ∧ ∀ i, (h.pools i).inUse = (π i).inUse ∧ (h.pools i).freeList.Perm (π i).freeList

/-! ### Runs -/

namespace PoolRun
variable {d : Driving} {π : PoolId → FixedBlockPool} {r : PoolRun n}

/-- A step is no longer taken, leaves books and pools alone, or applies one message. -/
theorem step_cases (r : PoolRun n) (d : Driving) (op : Op n) :
    (r.badAlloc = true ∧ r.step d op = r) ∨
    (r.badAlloc = false ∧ (∀ j sym, ((r.run.step op).pipeline.shards j).book sym = (r.run.pipeline.shards j).book sym) ∧
      r.step d op = { r with run := r.run.step op }) ∨
    ∃ i qm result p', r.badAlloc = false ∧ r.run.pipeline.Processed i qm result p' ∧
      (r.run.step op).pipeline = p' ∧
      ∃ traffic, traffic = ((r.run.pipeline.shards i).book qm.symbol).1.applyNodes qm.message ∧
        ∃ done, done = r.heap.perform d.pool (traffic.map (·.map (NodeId.mk i qm.symbol))) ∧
          r.step d op = { run := if done.2 then r.run.step op else r.run, heap := done.1, badAlloc := !done.2 } := by
  by_cases hbad : r.badAlloc = true
  · exact .inl ⟨hbad, by simp [step, hbad]⟩
  rw [Bool.not_eq_true] at hbad
  cases op with
  | process i =>
    cases hp : r.run.pipeline.processOne i with
    | none =>
      have hrun : r.run.step (.process i) = r.run := by simp [Run.step, hp]
      have hs : r.step d (.process i) = r := by simp [step, hbad, hp]
      exact .inr (.inl ⟨hbad, fun j sym => by rw [hrun], by rw [hs, hrun]⟩)
    | some e =>
      obtain ⟨qm, result, p'⟩ := e
      refine .inr (.inr ⟨i, qm, result, p', hbad, ShardedPipeline.processOne_spec hp, ?_, _, rfl, _, rfl, ?_⟩)
      · simp [Run.step, hp]
      · simp [step, hbad, hp]
  | demux raw => exact .inr (.inl ⟨hbad, r.run.book_step (by simp), by simp [step, hbad]⟩)
  | publish j => exact .inr (.inl ⟨hbad, r.run.book_step (by simp), by simp [step, hbad]⟩)
  | resync j k => exact .inr (.inl ⟨hbad, r.run.book_step (by simp), by simp [step, hbad]⟩)

/-- While messages are applied, every node comes from and goes back to the pool of its own driver. -/
theorem home_exec (h : r.heap.Home d.pool π) (ops : List (Op n)) : (r.exec d ops).heap.Home d.pool π := by
  induction ops generalizing r with
  | nil => exact h
  | cons op ops ih =>
    refine ih (r := r.step d op) ?_
    rcases r.step_cases d op with ⟨-, hs⟩ | ⟨-, -, hs⟩ | ⟨i, qm, result, p', -, -, -, traffic, -, done, rfl, hs⟩
    · rw [hs]; exact h
    · rw [hs]; exact h
    · rw [hs]; exact h.perform _

theorem exec_of_badAlloc (hbad : r.badAlloc = true) (ops : List (Op n)) : r.exec d ops = r := by
  induction ops with
  | nil => rfl
  | cons op ops ih =>
    have hs : r.step d op = r := by simp [step, hbad]
    exact (congrArg (exec d · ops) hs).trans ih

/-- Without `bad_alloc` the pipeline runs as if there were no pools. -/
theorem run_exec {ops : List (Op n)} (hok : (r.exec d ops).badAlloc = false) :
    (r.exec d ops).run = r.run.exec ops := by
  induction ops generalizing r with
  | nil => rfl
  | cons op ops ih =>
    have hgood : (r.step d op).badAlloc = false := by
      rw [← Bool.not_eq_true]
      intro hbad
      have hexec : r.exec d (op :: ops) = r.step d op := exec_of_badAlloc hbad ops
      rw [hexec, hbad] at hok
      cases hok
    have hrun : (r.step d op).run = r.run.step op := by
      rcases r.step_cases d op with ⟨hbad, hs⟩ | ⟨-, -, hs⟩ | ⟨i, qm, result, p', -, -, -, traffic, -, done, -, hs⟩
      · rw [hs, hbad] at hgood
        cases hgood
      · rw [hs]
      · rw [hs] at hgood ⊢
        simp only [Bool.not_eq_false'] at hgood
        simp only [hgood, if_true]
    exact (ih (r := r.step d op) hok).trans (congrArg (Run.exec · ops) hrun)

/-- The nodes of all the books of a pipeline. -/
def bookNodes (p : ShardedPipeline n) : Set (NodeId n) :=
  { node | node.key ∈ ((p.shards node.shard).book node.symbol).1.nodes }

theorem bookNodes_eq (p : ShardedPipeline n) (i : Fin n.1) (sym : Symbol) :
    bookNodes p = NodeId.mk i sym '' ((p.shards i).book sym).1.nodes ∪
      { node ∈ bookNodes p | ¬ (node.shard = i ∧ node.symbol = sym) } := by
  ext ⟨j, sym', k⟩
  constructor
  · intro hk
    by_cases hj : j = i ∧ sym' = sym
    · obtain ⟨rfl, rfl⟩ := hj
      exact .inl ⟨k, hk, rfl⟩
    · exact .inr ⟨hk, hj⟩
  · rintro (⟨k', hk', e⟩ | ⟨hk, -⟩)
    · obtain ⟨rfl, rfl, rfl⟩ := NodeId.mk.inj e
      exact hk'
    · exact hk

theorem legal_processed {p p' : ShardedPipeline n} {i : Fin n.1} {qm : QueuedMessage}
    {result : Except ApplyError ApplyResult} (hp : p.Processed i qm result p') :
    BlockPool.Legal (bookNodes p)
      ((((p.shards i).book qm.symbol).1.applyNodes qm.message).map (·.map (NodeId.mk i qm.symbol))) (bookNodes p') := by
  have hbook : ∀ j sym, (p'.shards j).book sym =
      if j = i ∧ sym = qm.symbol then (((p.shards i).book qm.symbol).apply qm.message).2 else (p.shards j).book sym := by
    intro j sym
    rw [hp.state]
    by_cases hj : j = i
    · subst hj
      simp [ShardState.book_applyMessage]
    · simp [hj]
  have hrest : { node ∈ bookNodes p' | ¬ (node.shard = i ∧ node.symbol = qm.symbol) } =
      { node ∈ bookNodes p | ¬ (node.shard = i ∧ node.symbol = qm.symbol) } := by
    ext ⟨j, sym, k⟩
    refine and_congr_left fun hj => ?_
    unfold bookNodes
    rw [Set.mem_ofPred_eq, Set.mem_ofPred_eq, hbook, if_neg hj]
  rw [bookNodes_eq p i qm.symbol, bookNodes_eq p' i qm.symbol, hrest, hbook, if_pos ⟨rfl, rfl⟩]
  refine (OrderBook.legal_apply _ qm.message).map ?_ ?_
  · intro k k' e
    exact (NodeId.mk.inj e).2.2
  · rintro k ⟨-, hk⟩
    exact hk ⟨rfl, rfl⟩

/-- As long as no pool ran out, the held nodes are those of the books. -/
def Tracked (r : PoolRun n) : Prop := r.badAlloc = false → r.heap.Holds (bookNodes r.run.pipeline)

theorem tracked_init (π : PoolId → FixedBlockPool) : ({ heap := { pools := π } } : PoolRun n).Tracked := by
  refine fun _ => ⟨List.nodup_nil, fun k => ?_⟩
  have hempty : (({} : ShardedPipeline n).shards k.shard).book k.symbol = OrderBook.empty := by simp [ShardState.book]
  have hnodes : OrderBook.empty.1.nodes = ∅ := OrderBookT.nodes_empty
  simp [bookNodes, hempty, hnodes]

theorem Tracked.step (h : r.Tracked) (d : Driving) (op : Op n) : (r.step d op).Tracked := by
  rcases r.step_cases d op with ⟨-, hs⟩ | ⟨-, hbook, hs⟩ | ⟨i, qm, result, p', hbad, hp, hpipe, traffic, rfl, done, rfl, hs⟩
  · rw [hs]; exact h
  · rw [hs]
    intro hbad
    have hsame : bookNodes (r.run.step op).pipeline = bookNodes r.run.pipeline := by
      ext node
      unfold bookNodes
      rw [Set.mem_ofPred_eq, Set.mem_ofPred_eq, hbook]
    show r.heap.Holds (bookNodes (r.run.step op).pipeline)
    rw [hsame]
    exact h hbad
  · rw [hs]
    intro hok
    simp only [Bool.not_eq_false'] at hok
    simp only [hok, if_true, hpipe]
    exact (h hbad).perform (legal_processed hp) hok

theorem Tracked.exec (h : r.Tracked) (d : Driving) (ops : List (Op n)) : (r.exec d ops).Tracked := by
  induction ops generalizing r with
  | nil => exact h
  | cons op ops ih => exact ih (h.step d op)

/-- A shard has nodes from the pools exactly while an order rests in one of its books. -/
theorem Tracked.holdsNodes_iff (h : r.Tracked) (hbad : r.badAlloc = false) (i : Fin n.1) :
    r.HoldsNodes i ↔ ∃ sym id, ((r.run.pipeline.shards i).book sym).hasOrder id = true := by
  have hmem := fun k => (h hbad).mem_iff k
  constructor
  · rintro ⟨node, hn, rfl⟩
    have hk : node.key.key ∈ ((r.run.pipeline.shards node.key.shard).book node.key.symbol).1.nodes :=
      (hmem node.key).1 (List.mem_map_of_mem hn)
    by_contra hno
    have hempty := ((r.run.pipeline.shards node.key.shard).book node.key.symbol).2.nodes_eq_empty_iff.2 fun id =>
      Bool.eq_false_of_not_eq_true fun hid => hno ⟨node.key.symbol, id, hid⟩
    rw [hempty] at hk
    exact Set.notMem_empty _ hk
  · rintro ⟨sym, id, hid⟩
    obtain ⟨node, hn, hk⟩ := List.mem_map.1 ((hmem ⟨i, sym, .index id⟩).2 hid)
    exact ⟨node, hn, by rw [hk]⟩

/-- In a run without `bad_alloc`, a shard has nodes from the pools exactly while the messages leave an order in one
of its books. -/
theorem holdsNodes_exec_iff (n : NumShards) (π : PoolId → FixedBlockPool) (d : Driving) (ops : List (Op n))
    (hok : (exec d { heap := { pools := π } } ops).badAlloc = false) (i : Fin n.1) :
    (exec d { heap := { pools := π } } ops).HoldsNodes i ↔
      ∃ sym id, (((({} : Run n).exec ops).pipeline.shards i).book sym).hasOrder id = true := by
  rw [((tracked_init π).exec d ops).holdsNodes_iff hok i, run_exec hok]

end PoolRun

/-! ### Destruction -/

section Destroy
variable {h : PoolHeap n}

/-- The pool a node is freed into by `~ShardedPipeline`. -/
def homeSlot (node : NodeId n) : PoolId := ⟨node.key.nodeType, poolSlot node.shard⟩

theorem held_perm (h : PoolHeap n) (i : Fin n.1) :
    h.held.Perm (h.held.filter (·.key.shard = i) ++ h.held.filter (¬ ·.key.shard = i)) := by
  have := List.filter_append_perm (fun node : Held (NodeId n) PoolId Block => decide (node.key.shard = i)) h.held
  simpa using this.symm

theorem mem_held_resetShard (h : PoolHeap n) (index : Fin kMaxPoolShards) (i : Fin n.1)
    (node : Held (NodeId n) PoolId Block) :
    node ∈ (resetShard h index i).held ↔ node ∈ h.held ∧ node.key.shard ≠ i := by
  rw [resetShard, (Heap.held_releaseAll (held_perm h i)).mem_iff]
  simp

theorem mem_frees_resetShard (h : PoolHeap n) (index : Fin kMaxPoolShards) (i : Fin n.1) (f : PoolId × PoolId) :
    f ∈ (resetShard h index i).frees ↔
      f ∈ h.frees ∨ ∃ node ∈ h.held, node.key.shard = i ∧ f = (⟨node.key.key.nodeType, index⟩, node.owner) := by
  rw [resetShard, Heap.frees_releaseAll, List.mem_append, List.mem_map]
  simp [and_assoc, eq_comm]

theorem mem_held_resetShards (h : PoolHeap n) (shards : List (Fin n.1)) (node : Held (NodeId n) PoolId Block) :
    node ∈ (resetShards h shards).held ↔ node ∈ h.held ∧ node.key.shard ∉ shards := by
  induction shards generalizing h with
  | nil => simp [resetShards]
  | cons i shards ih =>
    have hcons : resetShards h (i :: shards) = resetShards (resetShard h (poolSlot i) i) shards := rfl
    rw [hcons, ih, mem_held_resetShard, List.mem_cons, not_or, and_assoc]

theorem mem_frees_resetShards (h : PoolHeap n) (shards : List (Fin n.1)) (f : PoolId × PoolId) :
    f ∈ (resetShards h shards).frees ↔
      f ∈ h.frees ∨ ∃ node ∈ h.held, node.key.shard ∈ shards ∧ f = (homeSlot node.key, node.owner) := by
  induction shards generalizing h with
  | nil => simp [resetShards]
  | cons i shards ih =>
    have hcons : resetShards h (i :: shards) = resetShards (resetShard h (poolSlot i) i) shards := rfl
    rw [hcons, ih, mem_frees_resetShard, or_assoc]
    refine or_congr_right ?_
    constructor
    · rintro (⟨node, hn, rfl, rfl⟩ | ⟨node, hn, hs, rfl⟩)
      · exact ⟨node, hn, List.mem_cons_self, rfl⟩
      · exact ⟨node, ((mem_held_resetShard _ _ _ _).1 hn).1, List.mem_cons_of_mem _ hs, rfl⟩
    · rintro ⟨node, hn, hs, rfl⟩
      by_cases hi : node.key.shard = i
      · subst hi
        exact .inl ⟨node, hn, rfl, rfl⟩
      · exact .inr ⟨node, (mem_held_resetShard _ _ _ _).2 ⟨hn, hi⟩, (List.mem_cons.1 hs).resolve_left hi, rfl⟩

theorem home_resetShards {pool : NodeId n → PoolId} {π : PoolId → FixedBlockPool} (hh : h.Home pool π)
    (ho : ∀ node ∈ h.held, node.owner = homeSlot node.key) (shards : List (Fin n.1)) :
    (resetShards h shards).Home pool π := by
  induction shards generalizing h with
  | nil => exact hh
  | cons i shards ih =>
    refine ih ?_ fun node hn => ho node ((mem_held_resetShard _ _ _ _).1 hn).1
    refine hh.releaseAll (held_perm h i) fun node hn => ?_
    obtain ⟨hn, hi⟩ := List.mem_filter.1 hn
    rw [ho node hn, homeSlot, of_decide_eq_true hi]

/-- The pools are restored exactly when every node held was drawn from the slot of its shard. -/
theorem returnsHome_destroy_iff {r : PoolRun n} {pool : NodeId n → PoolId} {π : PoolId → FixedBlockPool}
    (hh : r.heap.Home pool π) : ReturnsHome π r.destroy ↔ ∀ node ∈ r.heap.held, pool node.key = homeSlot node.key := by
  constructor
  · rintro ⟨hfrees, -⟩ node hn
    have hf := hfrees (homeSlot node.key, node.owner)
      ((mem_frees_resetShards _ _ _).2 (.inr ⟨node, hn, List.mem_finRange _, rfl⟩))
    rw [← hh.owned node hn]
    exact hf.symm
  · intro hs
    have hd : r.destroy.Home pool π := home_resetShards hh (fun node hn => (hh.owned node hn).trans (hs node hn)) _
    have hnil : r.destroy.held = [] :=
      List.eq_nil_iff_forall_not_mem.2 fun node hn => ((mem_held_resetShards _ _ _).1 hn).2 (List.mem_finRange _)
    exact ⟨hd.returned, hd.balanced.restored hnil⟩

end Destroy

/-- Every block goes back to the pool it came from exactly when each shard has its own thread, or no shard but the
one in whose slot the single thread allocates still has nodes when the pipeline is destroyed. -/
theorem pool_blocks_return_iff (n : NumShards) (π : PoolId → FixedBlockPool) (d : Driving) (ops : List (Op n)) :
    ReturnsHome π (PoolRun.exec d { heap := { pools := π } } ops).destroy ↔
      d = .threadPerShard ∨ ∃ c, d = .singleThread c ∧
        ∀ i : Fin n.1, poolSlot i ≠ c → ¬ (PoolRun.exec d { heap := { pools := π } } ops).HoldsNodes i := by
  have hh : (PoolRun.exec d { heap := { pools := π } } ops).heap.Home d.pool π :=
    PoolRun.home_exec (Heap.Home.init d.pool π) ops
  rw [returnsHome_destroy_iff hh]
  cases d with
  | threadPerShard =>
    refine iff_of_true ?_ (.inl rfl)
    intro node hn
    rfl
  | singleThread c =>
    simp only [reduceCtorEq, false_or, Driving.singleThread.injEq, exists_eq_left']
    constructor
    · rintro hs i hi ⟨node, hn, rfl⟩
      exact hi (PoolId.mk.inj (hs node hn)).2.symm
    · intro hs node hn
      by_contra hne
      refine hs node.key.shard (fun e => hne ?_) ⟨node, hn, rfl⟩
      rw [homeSlot, e]
      rfl

def twoShards : NumShards := ⟨2, by decide, by decide⟩

/-- The pools before any use. -/
def newPools (pool : PoolId) : FixedBlockPool := FixedBlockPool.init pool kShardOrderPoolCapacity

/-- One Add for a symbol of shard 1, processed on a thread that never set its index: the nodes come from slot 0
and are freed into slot 1. -/
theorem single_thread_misplaces_blocks :
    ¬ ReturnsHome newPools (PoolRun.exec (n := twoShards) (.singleThread 0) { heap := { pools := newPools } }
        [.demux sampleAdd.packet, .process 1]).destroy := by
  rintro ⟨hfrees, -⟩
  revert hfrees
  decide +kernel

end Mdfh
