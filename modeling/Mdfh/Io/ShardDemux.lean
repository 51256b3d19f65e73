import Mdfh.Protocol.Decoder
import Mdfh.OrderBook.BookApply
import Mdfh.Concurrency.GapDetector
import Mdfh.Lib.DropOldest

/-!
# Sharding and demux (`io/shard_demux.hpp`, `io/shard_demux.cpp`, `publisher/book_delta.hpp`)

Calls run one at a time here, so a shard's two ring buffers are the abstract drop-oldest queue, and
`demux` and one iteration of the loop of `process_shard` are the steps that interleave. Latency traces
carry no logic and are left out; the pools behind the books' nodes never run out here and are added in
`PoolOwnership`.
-/

namespace Mdfh
open Std (ExtTreeMap)
open LittleEndian (Bytes)

inductive DemuxError where
  | decodeFailed
  | unroutableOrderId
deriving DecidableEq, Repr

def kMaxShards : Nat := 16
abbrev kShardQueueCapacity : Nat := 4096
abbrev kDeltaQueueCapacity : Nat := 4096

instance : NeZero kShardQueueCapacity := ⟨by decide⟩
instance : NeZero kDeltaQueueCapacity := ⟨by decide⟩

/-- A shard count the constructor of `ShardedPipeline` accepts. -/
structure NumShards where
  val : Nat
  pos : 0 < val
  le_max : val ≤ kMaxShards

/-- The constructor's check. -/
def NumShards.check (numShards : Nat) : Except String NumShards :=
  if h : numShards = 0 ∨ numShards > kMaxShards then
    .error "ShardedPipeline: num_shards must be in [1, orderbook::kMaxShards]"
  else .ok ⟨numShards, by omega, by omega⟩

instance (n : NumShards) : NeZero n.1 := ⟨Nat.pos_iff_ne_zero.1 n.pos⟩

def oneShard : NumShards := ⟨1, by decide, by decide⟩
def sampleSymbol : Symbol := Vector.replicate 8 65
def sampleAdd : DecodedMessage := .add ⟨1, 7, sampleSymbol, .buy, 100, 10, 1⟩
def sampleFill : DecodedMessage := .execute ⟨2, 7, 10, 2⟩

structure QueuedMessage where
  symbol : Symbol
  message : DecodedMessage
deriving DecidableEq, Repr

structure BookDelta where
  symbol : Symbol
  side : Side
  price : Price
  totalQuantity : Quantity
  seqNum : SeqNum
  timestamp : Timestamp
deriving DecidableEq, Repr

/-- What only the shard's own decoder thread touches. -/
structure ShardState where
  gapDetector : GapDetector := {}
  books : ExtTreeMap Symbol OrderBook compare := ∅

structure Shard extends ShardState where
  queue : DropOldest QueuedMessage kShardQueueCapacity := .empty
  outputQueue : DropOldest BookDelta kDeltaQueueCapacity := .empty

structure OrderRoute (n : NumShards) where
  shardIndex : Fin n.1
  symbol : Symbol
deriving DecidableEq

abbrev RouteTable (n : NumShards) := ExtTreeMap OrderId (OrderRoute n) compare

structure ShardedPipeline (n : NumShards) where
  shards : Fin n.1 → Shard := fun _ => {}
  orderRoute : RouteTable n := ∅

/-- The free function, which the feed generator calls as well. -/
def shardForSymbolIn {numShards : Nat} (pos : 0 < numShards) (symbol : Symbol) : Fin numShards :=
  ⟨(hashSymbol symbol).toNat % numShards, Nat.mod_lt _ pos⟩

def shardForSymbol (n : NumShards) (symbol : Symbol) : Fin n.1 := shardForSymbolIn n.pos symbol

variable {n : NumShards}

/-- The part of `demux` under `order_route_mutex_`: the destination and the new table. -/
def route (r : RouteTable n) : DecodedMessage → Except DemuxError (OrderRoute n × RouteTable n)
  | .add m =>
    let dest := ⟨shardForSymbol n m.symbol, m.symbol⟩
    .ok (dest, r.insert m.orderId dest)
  | .replace m =>
    match r[m.oldOrderId]? with
    | none => .error .unroutableOrderId
    | some dest => .ok (dest, (r.erase m.oldOrderId).insert m.newOrderId dest)
  | .cancel m =>
    match r[m.orderId]? with
    | none => .error .unroutableOrderId
    | some dest => .ok (dest, r.erase m.orderId)  -- cancel always fully removes the order
  | .execute m =>
    match r[m.orderId]? with
    | none => .error .unroutableOrderId
    | some dest => .ok (dest, r)

/-- `books[symbol]`, default-constructed when absent. -/
def ShardState.book (s : ShardState) (symbol : Symbol) : OrderBook := s.books.getD symbol .empty

/-- `observe`, then `books[symbol].apply(m)`. -/
def ShardState.applyMessage (s : ShardState) (qm : QueuedMessage) : Except ApplyError ApplyResult × ShardState :=
  let r := (s.book qm.symbol).apply qm.message
  (r.1, { gapDetector := (s.gapDetector.observe qm.message.seqNum).2, books := s.books.insert qm.symbol r.2 })

/-- The routing cleanup after an Execute; `book` is the book it was applied to. -/
def eraseFilled (book : OrderBook) (message : DecodedMessage) (r : RouteTable n) : RouteTable n :=
  match message with
  | .execute m => if !book.hasOrder m.orderId then r.erase m.orderId else r
  | _ => r

/-- The deltas pushed for one applied message: none for a rejected one. -/
def QueuedMessage.deltas (qm : QueuedMessage) : Except ApplyError ApplyResult → List BookDelta
  | .ok levels => levels.map fun l =>
    ⟨qm.symbol, l.side, l.price, l.totalQuantity, qm.message.seqNum, qm.message.timestamp⟩
  | .error _ => []

namespace ShardedPipeline

def setShard (p : ShardedPipeline n) (i : Fin n.1) (s : Shard) : ShardedPipeline n :=
  { p with shards := Function.update p.shards i s }

/-- The live book of a symbol, on its own shard. -/
def book (p : ShardedPipeline n) (symbol : Symbol) : OrderBook := (p.shards (shardForSymbol n symbol)).book symbol

def enqueue (p : ShardedPipeline n) (i : Fin n.1) (qm : QueuedMessage) : ShardedPipeline n :=
  p.setShard i { p.shards i with queue := (p.shards i).queue.push qm }

def demux (p : ShardedPipeline n) (raw : Bytes) : Except DemuxError (Fin n.1) × ShardedPipeline n :=
  match decode raw with
  | .error _ => (.error .decodeFailed, p)
  | .ok msg =>
    match route p.orderRoute msg with
    | .error e => (.error e, p)
    | .ok (dest, r) => (.ok dest.shardIndex, { p with orderRoute := r }.enqueue dest.shardIndex ⟨dest.symbol, msg⟩)

/-- The loop body of `process_shard` on a popped message. -/
def processMessage (p : ShardedPipeline n) (i : Fin n.1) (qm : QueuedMessage) :
    Except ApplyError ApplyResult × ShardedPipeline n :=
  let s := p.shards i
  let r := s.applyMessage qm
  (r.1, { p.setShard i { s with toShardState := r.2, outputQueue := s.outputQueue.pushAll (qm.deltas r.1) } with
    orderRoute := eraseFilled (r.2.book qm.symbol) qm.message p.orderRoute })

/-- One iteration of `while (s.queue.try_pop(qm))`: `none` when the queue is empty. -/
def processOne (p : ShardedPipeline n) (i : Fin n.1) :
    Option (QueuedMessage × Except ApplyError ApplyResult × ShardedPipeline n) :=
  match (p.shards i).queue.tryPop with
  | none => none
  | some (qm, q) => some (qm, (p.setShard i { p.shards i with queue := q }).processMessage i qm)

/-- The loop of `process_shard`, at most `fuel` iterations. -/
def processLoop (i : Fin n.1) : Nat → ShardedPipeline n → ShardedPipeline n
  | 0, p => p
  | fuel + 1, p =>
    match p.processOne i with
    | none => p
    | some (_, _, p) => processLoop i fuel p

/-- Nothing is pushed while the loop runs, so it ends after one iteration per queued message. -/
def processShard (p : ShardedPipeline n) (i : Fin n.1) : ShardedPipeline n :=
  processLoop i (p.shards i).queue.items.length p

def processPending (p : ShardedPipeline n) : ShardedPipeline n := (List.finRange n.1).foldl processShard p

/-- `drain_publisher_queue`: what the sink is handed, in order. -/
def drainPublisherQueue (p : ShardedPipeline n) (i : Fin n.1) : List BookDelta × ShardedPipeline n :=
  let q := (p.shards i).outputQueue
  (q.items, p.setShard i { p.shards i with outputQueue := ⟨[], q.dropped, Nat.zero_le _⟩ })

def routingTableSize (p : ShardedPipeline n) : Nat := p.orderRoute.size

/-- The orders resting in all books, by id. -/
def restingIds (p : ShardedPipeline n) : List OrderId :=
  (List.finRange n.1).flatMap fun i => (p.shards i).books.toList.flatMap fun e => e.2.1.orderIndex.keys

/-- The messages in all input rings. -/
def queuedMessages (p : ShardedPipeline n) : List QueuedMessage :=
  (List.finRange n.1).flatMap fun i => (p.shards i).queue.items

end ShardedPipeline

/-! ### Runs -/

/-- The calls that interleave, the loop of `process_shard` one message at a time. -/
inductive Op (n : NumShards) where
  | demux (raw : Bytes)
  | process (i : Fin n.1)
  | publish (i : Fin n.1)
  | resync (i : Fin n.1) (seqNum : SeqNum)
deriving DecidableEq

/-- A pipeline with the history of its calls. -/
structure Run (n : NumShards) where
  pipeline : ShardedPipeline n := {}
  demuxed : List (Except DemuxError (Fin n.1)) := []
  applied : Fin n.1 → List (QueuedMessage × Except ApplyError ApplyResult) := fun _ => []
  sink : Fin n.1 → List BookDelta := fun _ => []

namespace Run

def step (r : Run n) : Op n → Run n
  | .demux raw =>
    let d := r.pipeline.demux raw
    { r with pipeline := d.2, demuxed := r.demuxed ++ [d.1] }
  | .process i =>
    match r.pipeline.processOne i with
    | none => r
    | some (qm, result, p) =>
      { r with pipeline := p, applied := Function.update r.applied i (r.applied i ++ [(qm, result)]) }
  | .publish i =>
    let d := r.pipeline.drainPublisherQueue i
    { r with pipeline := d.2, sink := Function.update r.sink i (r.sink i ++ d.1) }
  | .resync i seqNum =>
    let s := r.pipeline.shards i
    { r with pipeline := r.pipeline.setShard i { s with gapDetector := s.gapDetector.resync seqNum } }

def exec (r : Run n) (ops : List (Op n)) : Run n := ops.foldl step r

/-- The sequence numbers a shard has observed, in order. -/
def observed (r : Run n) (i : Fin n.1) : List SeqNum := (r.applied i).map (·.1.message.seqNum)

end Run

/-- The packets of a schedule, in the order they reach `demux`. -/
def packetsOf (ops : List (Op n)) : List Bytes :=
  ops.filterMap fun op => match op with
    | .demux raw => some raw
    | _ => none

end Mdfh
