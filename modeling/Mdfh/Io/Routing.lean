import Mdfh.Io.ShardDemux
import Mdfh.OrderBook.Accepts
import Mdfh.Lib.TreeMap

/-!
# Every order id at home

`symOf` says which symbol each order id belongs to, and a message is `Owned` when it keeps to that:
an Add names its id's symbol, a Replace stays within one symbol. Under owned traffic a route entry can
only be `home symOf id`, a queued message waits on its symbol's shard, and a book holds only ids of
its symbol (`Placed`); then `demux` is a membership test and a table update.
-/

namespace Mdfh
open TreeMapLib
open LittleEndian (Bytes)

variable {n : NumShards} {symOf : OrderId → Symbol}

/-- The ids of the message belong to one symbol, an Add's to the symbol it names. -/
def Owned (symOf : OrderId → Symbol) : DecodedMessage → Prop
  | .add m => m.symbol = symOf m.orderId
  | .replace m => symOf m.newOrderId = symOf m.oldOrderId
  | .cancel _ => True
  | .execute _ => True

def home (n : NumShards) (symOf : OrderId → Symbol) (id : OrderId) : OrderRoute n :=
  ⟨shardForSymbol n (symOf id), symOf id⟩

/-- Whether `demux` finds a destination. -/
def routable (r : RouteTable n) : DecodedMessage → Bool
  | .add _ => true
  | m => r.contains m.orderId

/-- The table after a routed message. -/
def routeAfter (r : RouteTable n) (dest : OrderRoute n) : DecodedMessage → RouteTable n
  | .add m => r.insert m.orderId dest
  | .replace m => (r.erase m.oldOrderId).insert m.newOrderId dest
  | .cancel m => r.erase m.orderId
  | .execute _ => r

/-- Where `demux` sends a message. -/
def destination (r : RouteTable n) : DecodedMessage → Option (OrderRoute n)
  | .add m => some ⟨shardForSymbol n m.symbol, m.symbol⟩
  | m => r[m.orderId]?

theorem route_eq_destination (r : RouteTable n) (m : DecodedMessage) :
    route r m = match destination r m with
      | none => .error .unroutableOrderId
      | some dest => .ok (dest, routeAfter r dest m) := by
  cases m with
  | add m => rfl
  | cancel m => simp only [route, destination, DecodedMessage.orderId]; split <;> simp_all [routeAfter]
  | execute m => simp only [route, destination, DecodedMessage.orderId]; split <;> simp_all [routeAfter]
  | replace m => simp only [route, destination, DecodedMessage.orderId]; split <;> simp_all [routeAfter]

/-- Every entry leads its id home. -/
def RouteOk (symOf : OrderId → Symbol) (r : RouteTable n) : Prop :=
  ∀ id dest, r[id]? = some dest → dest = home n symOf id

namespace RouteOk
variable {r : RouteTable n}

theorem empty : RouteOk symOf (∅ : RouteTable n) := by
  intro id dest h
  simp at h

theorem insert (h : RouteOk symOf r) {id : OrderId} {dest : OrderRoute n} (hd : dest = home n symOf id) :
    RouteOk symOf (r.insert id dest) := by
  intro id' dest' h'
  rw [getElem?_insert] at h'
  split at h'
  · next e => rw [← Option.some.inj h', hd, e]
  · exact h id' dest' h'

theorem erase (h : RouteOk symOf r) (id : OrderId) : RouteOk symOf (r.erase id) := by
  intro id' dest' h'
  rw [getElem?_erase] at h'
  split at h'
  · cases h'
  · exact h id' dest' h'

theorem after (h : RouteOk symOf r) {m : DecodedMessage} (hm : Owned symOf m) :
    RouteOk symOf (routeAfter r (home n symOf m.orderId) m) := by
  cases m with
  | add m => exact h.insert rfl
  | cancel m => exact h.erase _
  | execute m => exact h
  | replace m =>
    refine (h.erase _).insert ?_
    simp [home, DecodedMessage.orderId, show symOf m.newOrderId = symOf m.oldOrderId from hm]

theorem eraseFilled (h : RouteOk symOf r) (b : OrderBook) (m : DecodedMessage) : RouteOk symOf (eraseFilled b m r) := by
  cases m with
  | execute m =>
    simp only [Mdfh.eraseFilled]
    split
    · exact h.erase _
    · exact h
  | add m => exact h
  | cancel m => exact h
  | replace m => exact h

end RouteOk

theorem getElem?_eraseFilled_of_ne {b : OrderBook} {m : DecodedMessage} {r : RouteTable n} {id : OrderId}
    (h : ∀ x, m = .execute x → id ≠ x.orderId) : (eraseFilled b m r)[id]? = r[id]? := by
  cases m with
  | execute x =>
    simp only [eraseFilled]
    split
    · rw [getElem?_erase, if_neg (h x rfl)]
    · rfl
  | add x => rfl
  | cancel x => rfl
  | replace x => rfl

theorem contains_of_eraseFilled {b : OrderBook} {m : DecodedMessage} {r : RouteTable n} {id : OrderId}
    (h : (eraseFilled b m r).contains id = true) : r.contains id = true := by
  cases m with
  | execute x =>
    simp only [eraseFilled] at h
    split at h
    · rw [contains_erase, Bool.and_eq_true] at h
      exact h.1
    · exact h
  | add x => exact h
  | cancel x => exact h
  | replace x => exact h

theorem contains_eraseFilled_of_ne {b : OrderBook} {m : DecodedMessage} {r : RouteTable n} {id : OrderId}
    (h : ∀ x, m = .execute x → id ≠ x.orderId) : (eraseFilled b m r).contains id = r.contains id := by
  rw [Bool.eq_iff_iff, contains_iff, contains_iff, getElem?_eraseFilled_of_ne h]

theorem destination_eq {r : RouteTable n} (h : RouteOk symOf r) {m : DecodedMessage} (hm : Owned symOf m) :
    destination r m = if routable r m then some (home n symOf m.orderId) else none := by
  have hlook : ∀ id, r[id]? = if r.contains id then some (home n symOf id) else none := by
    intro id
    cases hid : r[id]? with
    | none => rw [(contains_eq_false_iff r id).2 hid]; rfl
    | some dest => rw [(contains_iff r id).2 ⟨dest, hid⟩, h id dest hid]; rfl
  cases m with
  | add m =>
    have hs : m.symbol = symOf m.orderId := hm
    simp [destination, routable, home, hs, DecodedMessage.orderId]
  | cancel m => exact hlook m.orderId
  | execute m => exact hlook m.orderId
  | replace m => exact hlook m.oldOrderId

/-! ### Pieces of a state -/

namespace ShardedPipeline
variable (p : ShardedPipeline n)

@[simp] theorem shards_setShard (i : Fin n.1) (s : Shard) (j : Fin n.1) :
    (p.setShard i s).shards j = if j = i then s else p.shards j := by
  simp [setShard, Function.update_apply]

@[simp] theorem orderRoute_setShard (i : Fin n.1) (s : Shard) : (p.setShard i s).orderRoute = p.orderRoute := rfl

theorem queue_enqueue (i : Fin n.1) (qm : QueuedMessage) (j : Fin n.1) :
    ((p.enqueue i qm).shards j).queue = if j = i then (p.shards i).queue.push qm else (p.shards j).queue := by
  simp only [enqueue, shards_setShard]
  split <;> rfl

theorem toShardState_enqueue (i : Fin n.1) (qm : QueuedMessage) (j : Fin n.1) :
    ((p.enqueue i qm).shards j).toShardState = (p.shards j).toShardState := by
  simp only [enqueue, shards_setShard]
  split
  · next e => rw [e]
  · rfl

theorem outputQueue_enqueue (i : Fin n.1) (qm : QueuedMessage) (j : Fin n.1) :
    ((p.enqueue i qm).shards j).outputQueue = (p.shards j).outputQueue := by
  simp only [enqueue, shards_setShard]
  split
  · next e => rw [e]
  · rfl

end ShardedPipeline

theorem ShardState.book_applyMessage (s : ShardState) (qm : QueuedMessage) (sym : Symbol) :
    (s.applyMessage qm).2.book sym = if sym = qm.symbol then ((s.book qm.symbol).apply qm.message).2 else s.book sym := by
  simp only [applyMessage, book, Std.ExtTreeMap.getD_eq_getD_getElem?, getElem?_insert]
  split <;> simp

/-! ### What a step does -/

namespace ShardedPipeline
variable {p : ShardedPipeline n}

theorem demux_of_decode {raw : Bytes} {m : DecodedMessage} (hd : decode raw = .ok m) :
    p.demux raw = match destination p.orderRoute m with
      | none => (.error .unroutableOrderId, p)
      | some dest => (.ok dest.shardIndex,
          { p with orderRoute := routeAfter p.orderRoute dest m }.enqueue dest.shardIndex ⟨dest.symbol, m⟩) := by
  simp only [demux, hd, route_eq_destination]
  cases destination p.orderRoute m <;> rfl

theorem demux_packet (m : DecodedMessage) :
    p.demux m.packet = match destination p.orderRoute m with
      | none => (.error .unroutableOrderId, p)
      | some dest => (.ok dest.shardIndex,
          { p with orderRoute := routeAfter p.orderRoute dest m }.enqueue dest.shardIndex ⟨dest.symbol, m⟩) :=
  demux_of_decode m.decode_packet

/-- `demux` either refuses the packet and changes nothing, or queues its message at home. -/
theorem demux_cases (h : RouteOk symOf p.orderRoute) {raw : Bytes} (ho : ∀ m, decode raw = .ok m → Owned symOf m) :
    (∃ e, p.demux raw = (.error e, p) ∧ ∀ m, decode raw = .ok m → routable p.orderRoute m = false) ∨
      ∃ m, decode raw = .ok m ∧ routable p.orderRoute m = true ∧
        p.demux raw = (.ok (shardForSymbol n (symOf m.orderId)),
          { p with orderRoute := routeAfter p.orderRoute (home n symOf m.orderId) m }.enqueue
            (shardForSymbol n (symOf m.orderId)) ⟨symOf m.orderId, m⟩) := by
  cases hd : decode raw with
  | error e => exact .inl ⟨.decodeFailed, by simp [demux, hd], by simp⟩
  | ok m =>
    have hdest := destination_eq h (ho m hd)
    cases hr : routable p.orderRoute m with
    | true =>
      rw [hr, if_pos rfl] at hdest
      exact .inr ⟨m, rfl, hr, by simp [demux, hd, route_eq_destination, hdest, home]⟩
    | false =>
      rw [hr, if_neg (by simp)] at hdest
      refine .inl ⟨.unroutableOrderId, by simp [demux, hd, route_eq_destination, hdest], ?_⟩
      intro m' hm'
      cases hm'
      exact hr

theorem processOne_eq_none_iff {i : Fin n.1} : p.processOne i = none ↔ (p.shards i).queue.items = [] := by
  unfold processOne
  rw [← DropOldest.tryPop_eq_none_iff]
  split <;> simp_all

/-- One processed message, field by field. -/
structure Processed (p : ShardedPipeline n) (i : Fin n.1) (qm : QueuedMessage) (result : Except ApplyError ApplyResult)
    (p' : ShardedPipeline n) : Prop where
  items : (p.shards i).queue.items = qm :: (p'.shards i).queue.items
  dropped : ∀ j, (p'.shards j).queue.dropped = (p.shards j).queue.dropped
  queue : ∀ j, j ≠ i → (p'.shards j).queue = (p.shards j).queue
  accepted : result = (((p.shards i).book qm.symbol).apply qm.message).1
  state : ∀ j, (p'.shards j).toShardState =
    if j = i then ((p.shards i).toShardState.applyMessage qm).2 else (p.shards j).toShardState
  output : ∀ j, (p'.shards j).outputQueue =
    if j = i then (p.shards i).outputQueue.pushAll (qm.deltas result) else (p.shards j).outputQueue
  orderRoute : p'.orderRoute = eraseFilled ((p'.shards i).book qm.symbol) qm.message p.orderRoute

theorem processOne_spec {i : Fin n.1} {qm : QueuedMessage} {result : Except ApplyError ApplyResult}
    {p' : ShardedPipeline n} (h : p.processOne i = some (qm, result, p')) : Processed p i qm result p' := by
  unfold processOne at h
  split at h
  · cases h
  · next qm' q hq =>
    obtain ⟨hitems, hdrop⟩ := DropOldest.tryPop_eq_some_iff.1 hq
    simp only [Option.some.injEq, Prod.mk.injEq] at h
    obtain ⟨rfl, hp⟩ := h
    have hres : result = (((p.shards i).book qm'.symbol).apply qm'.message).1 := by
      refine (congrArg Prod.fst hp).symm.trans ?_
      simp [processMessage, ShardState.applyMessage]
    have hp' := congrArg Prod.snd hp
    subst hp'
    refine ⟨?_, ?_, ?_, hres, ?_, ?_, ?_⟩
    · simpa [processMessage] using hitems
    · intro j
      by_cases hj : j = i
      · subst hj; simpa [processMessage] using hdrop
      · simp [processMessage, hj]
    · intro j hj
      simp [processMessage, hj]
    · intro j
      by_cases hj : j = i <;> simp [processMessage, hj]
    · intro j
      by_cases hj : j = i
      · subst hj; simp [processMessage, hres, ShardState.applyMessage]
      · simp [processMessage, hj]
    · simp [processMessage]

section Processed
variable {p' : ShardedPipeline n} {i : Fin n.1} {qm : QueuedMessage} {result : Except ApplyError ApplyResult}

theorem Processed.head_mem (hp : p.Processed i qm result p') : qm ∈ (p.shards i).queue.items := by
  rw [hp.items]
  exact List.mem_cons_self

theorem Processed.mem_queue (hp : p.Processed i qm result p') {j : Fin n.1} {qm' : QueuedMessage}
    (h : qm' ∈ (p'.shards j).queue.items) : qm' ∈ (p.shards j).queue.items := by
  by_cases hj : j = i
  · subst hj
    rw [hp.items]
    exact List.mem_cons_of_mem _ h
  · rwa [hp.queue j hj] at h

theorem Processed.contains_route (hp : p.Processed i qm result p') {id : OrderId}
    (h : p'.orderRoute.contains id = true) : p.orderRoute.contains id = true := by
  rw [hp.orderRoute] at h
  exact contains_of_eraseFilled h

end Processed

end ShardedPipeline

/-! ### Draining -/

namespace ShardedPipeline

@[simp] theorem processLoop_zero {p : ShardedPipeline n} (i : Fin n.1) : processLoop i 0 p = p := rfl

theorem processLoop_succ {p p' : ShardedPipeline n} {i : Fin n.1} {qm : QueuedMessage}
    {result : Except ApplyError ApplyResult} (h : p.processOne i = some (qm, result, p')) (fuel : Nat) :
    processLoop i (fuel + 1) p = processLoop i fuel p' := by
  simp [processLoop, h]

theorem exists_processOne {p : ShardedPipeline n} {i : Fin n.1} {qm : QueuedMessage} {qms : List QueuedMessage}
    (h : (p.shards i).queue.items = qm :: qms) : ∃ result p', p.processOne i = some (qm, result, p') := by
  cases hp : p.processOne i with
  | none => rw [processOne_eq_none_iff.1 hp] at h; cases h
  | some e =>
    obtain ⟨qm', result, p'⟩ := e
    have := (processOne_spec hp).items
    rw [h, List.cons.injEq] at this
    exact ⟨result, p', by rw [this.1]⟩

theorem processShard_cons {p p' : ShardedPipeline n} {i : Fin n.1} {qm : QueuedMessage}
    {result : Except ApplyError ApplyResult} (h : p.processOne i = some (qm, result, p')) :
    p.processShard i = p'.processShard i := by
  rw [processShard, (processOne_spec h).items, List.length_cons, processLoop_succ h, processShard]

theorem processShard_nil {p : ShardedPipeline n} {i : Fin n.1} (h : (p.shards i).queue.items = []) :
    p.processShard i = p := by
  rw [processShard, h, List.length_nil, processLoop_zero]

theorem processShard_single {p : ShardedPipeline n} {i : Fin n.1} {qm : QueuedMessage}
    (h : (p.shards i).queue.items = [qm]) : ∃ result, p.Processed i qm result (p.processShard i) := by
  obtain ⟨result, p', hp⟩ := exists_processOne h
  have hs := processOne_spec hp
  have hq : (p'.shards i).queue.items = [] := by
    have := hs.items
    rw [h, List.cons.injEq] at this
    exact this.2.symm
  rw [processShard_cons hp, processShard_nil hq]
  exact ⟨result, hs⟩

/-- Every queue is empty. -/
def Drained (p : ShardedPipeline n) : Prop := ∀ i, (p.shards i).queue.items = []

theorem Drained.processShards {p : ShardedPipeline n} (h : p.Drained) (is : List (Fin n.1)) :
    is.foldl processShard p = p := by
  induction is with
  | nil => rfl
  | cons i is ih => rw [List.foldl_cons, processShard_nil (h i), ih]

theorem Drained.processPending {p : ShardedPipeline n} (h : p.Drained) : p.processPending = p := h.processShards _

theorem processPending_single {p : ShardedPipeline n} {i : Fin n.1} {qm : QueuedMessage}
    (h : (p.shards i).queue.items = [qm]) (hj : ∀ j, j ≠ i → (p.shards j).queue.items = []) :
    (∃ result, p.Processed i qm result p.processPending) ∧ p.processPending.Drained := by
  obtain ⟨result, hp⟩ := processShard_single h
  have hdrained : (p.processShard i).Drained := by
    intro j
    by_cases hji : j = i
    · have := hp.items
      rw [h, List.cons.injEq] at this
      rw [hji, ← this.2]
    · rw [hp.queue j hji, hj j hji]
  have key : ∀ is : List (Fin n.1), i ∈ is → is.foldl ShardedPipeline.processShard p = p.processShard i := by
    intro is
    induction is with
    | nil => intro hi; cases hi
    | cons j is ih =>
      intro hi
      by_cases hji : j = i
      · rw [List.foldl_cons, hji, hdrained.processShards]
      · rw [List.foldl_cons, processShard_nil (hj j hji)]
        exact ih ((List.mem_cons.1 hi).resolve_left (Ne.symm hji))
  rw [ShardedPipeline.processPending, key _ (List.mem_finRange i)]
  exact ⟨⟨result, hp⟩, hdrained⟩

end ShardedPipeline

/-! ### The invariant -/

/-- Routes, queued messages and resting orders are where `symOf` says. -/
structure Placed (symOf : OrderId → Symbol) (p : ShardedPipeline n) : Prop where
  routes : RouteOk symOf p.orderRoute
  queued : ∀ i, ∀ qm ∈ (p.shards i).queue.items,
    Owned symOf qm.message ∧ qm.symbol = symOf qm.message.orderId ∧ shardForSymbol n qm.symbol = i
  booked : ∀ i sym id, ((p.shards i).book sym).hasOrder id = true →
    sym = symOf id ∧ shardForSymbol n sym = i

namespace Placed
variable {p p' : ShardedPipeline n}

theorem init : Placed symOf ({} : ShardedPipeline n) := by
  refine ⟨.empty, ?_, ?_⟩
  · intro i qm hqm
    simp at hqm
  · intro i sym id h
    simp [ShardState.book] at h

theorem mem_push {cap : Nat} {α : Type} [NeZero cap] {q : DropOldest α cap} {x y : α} (h : y ∈ (q.push x).items) :
    y ∈ q.items ∨ y = x := by
  by_cases hlt : q.items.length < cap
  · rw [(DropOldest.push_of_lt hlt).1, List.mem_append, List.mem_singleton] at h
    exact h
  · rw [(DropOldest.push_of_not_lt hlt).1, List.mem_append, List.mem_singleton] at h
    exact h.imp_left List.mem_of_mem_tail

theorem enqueue (h : Placed symOf p) {m : DecodedMessage} (hm : Owned symOf m) :
    Placed symOf ({ p with orderRoute := routeAfter p.orderRoute (home n symOf m.orderId) m }.enqueue
      (shardForSymbol n (symOf m.orderId)) ⟨symOf m.orderId, m⟩) := by
  refine ⟨h.routes.after hm, ?_, ?_⟩
  · intro i qm hqm
    rw [ShardedPipeline.queue_enqueue] at hqm
    split at hqm
    · next hi =>
      rcases mem_push hqm with hqm | rfl
      · exact hi ▸ h.queued _ qm hqm
      · exact ⟨hm, rfl, hi.symm⟩
    · exact h.queued i qm hqm
  · intro i sym id hid
    rw [ShardedPipeline.toShardState_enqueue] at hid
    exact h.booked i sym id hid

theorem processed (h : Placed symOf p) {i : Fin n.1} {qm : QueuedMessage} {result : Except ApplyError ApplyResult}
    (hp : p.Processed i qm result p') : Placed symOf p' := by
  have hqm := h.queued i qm hp.head_mem
  refine ⟨?_, ?_, ?_⟩
  · rw [hp.orderRoute]; exact h.routes.eraseFilled _ _
  · intro j qm' hqm'
    exact h.queued j qm' (hp.mem_queue hqm')
  · intro j sym id hid
    rw [hp.state] at hid
    split at hid
    · next hj =>
      rw [ShardState.book_applyMessage] at hid
      split at hid
      · next hs =>
        -- only the message's own book changed, and it takes in ids of its own symbol only
        refine ⟨?_, by rw [hs, hqm.2.2, hj]⟩
        rcases OrderBook.hasOrder_apply_sub hid with hid | ⟨a, ha, rfl⟩ | ⟨r, hr, rfl⟩
        · rw [hs]; exact (h.booked i qm.symbol id hid).1
        · rw [hs, hqm.2.1, ha]; rfl
        · rw [hs, hqm.2.1, hr]
          have := hqm.1
          rw [hr] at this
          exact this.symm
      · rw [hj]; exact h.booked i sym id hid
    · exact h.booked j sym id hid

end Placed

end Mdfh
