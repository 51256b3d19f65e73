import Mdfh.Concurrency.DrainLoop
import Mdfh.Io.ShardDemux

/-!
# The running pipeline (`io/pipeline_runner.cpp`, `io/async_network_reader.cpp`)

One network I/O thread, and for every shard a decoder and a publisher thread. A step of the system is
one atomic access of one thread, a critical section of `order_route_mutex_`, or work on data that only
that thread touches. The reactor resumes the coroutine after every `co_await`, with a stop request only
sooner, so a suspended coroutine can always go on. A packet of the feed is `none` when it is lost.

`demuxed`, `applied` and `sink` record what `demux` pushed, what was applied and what was published.
-/

namespace Mdfh
open LittleEndian (Bytes)

instance : Inhabited QueuedMessage := ⟨⟨default, .add ⟨0, 0, default, .buy, 0, 0, 0⟩⟩⟩
instance : Inhabited BookDelta := ⟨⟨default, .buy, 0, 0, 0, 0⟩⟩

/-- Where a decoder is in the loop body of `process_shard`. -/
inductive DecodeWork where
  | apply (qm : QueuedMessage)
  | cleanup (qm : QueuedMessage) (ds : List BookDelta)  -- the route of a filled order
  | output (ds : List BookDelta)  -- the pushes still to begin
deriving DecidableEq

inductive DecoderPc where
  | loop (pc : LoopPc DecodeWork)
  | notify
  | exited
deriving DecidableEq

/-- A shard with its two threads. -/
structure Lane where
  state : ShardState := {}
  queue : Ring QueuedMessage kShardQueueCapacity := {}
  outputQueue : Ring BookDelta kDeltaQueueCapacity := {}
  decoder : DecoderPc := .loop (.drain false false)
  decoderDone : Bool := false
  publisher : LoopPc BookDelta := .drain false false
  demuxed : List QueuedMessage := []
  applied : List QueuedMessage := []
  sink : List BookDelta := []

/-- Where the network I/O thread is in `read_packets_async`. -/
inductive NetPc (n : NumShards) where
  | checkStop
  | next
  | demux (raw : Bytes)
  | pushing (i : Fin n.1)
  | suspended
  | storeDone
  | notify (k : Nat)
  | finished
deriving DecidableEq

structure PipelineRunner (n : NumShards) where
  lanes : Fin n.1 → Lane := fun _ => {}
  orderRoute : RouteTable n := ∅
  feed : List (Option Bytes) := []
  stopRequested : Bool := false
  producerDone : Bool := false
  net : NetPc n := .checkStop

variable {n : NumShards}

/-- The next step of the decoder thread of a shard. -/
def Lane.decoderStep (l : Lane) (producerDone : Bool) (r : RouteTable n) : Option (Lane × RouteTable n) :=
  match l.decoder with
  | .loop (.work final (.apply qm)) =>
    let result := l.state.applyMessage qm
    some ({ l with
      state := result.2, decoder := .loop (.work final (.cleanup qm (qm.deltas result.1))),
      applied := l.applied ++ [qm] }, r)
  | .loop (.work final (.cleanup qm ds)) =>
    some ({ l with decoder := .loop (.work final (.output ds)) }, eraseFilled (l.state.book qm.symbol) qm.message r)
  | .loop (.work final (.output ds)) =>
    match l.outputQueue.push, ds with
    | .idle, [] => some ({ l with decoder := .loop (.drain final true) }, r)
    | .idle, d :: ds => (l.outputQueue.step (.push d)).map fun q =>
      ({ l with outputQueue := q, decoder := .loop (.work final (.output ds)) }, r)
    | _, _ => (l.outputQueue.step .producer).map fun q => ({ l with outputQueue := q }, r)
  | .loop .left => some ({ l with decoderDone := true, decoder := .notify }, r)
  | .loop pc => (pc.step .apply producerDone l.queue).map fun x => ({ l with queue := x.1, decoder := .loop x.2 }, r)
  | .notify => (l.outputQueue.step .notifyWaiters).map fun q => ({ l with outputQueue := q, decoder := .exited }, r)
  | .exited => none

/-- The next step of the publisher thread of a shard. -/
def Lane.publisherStep (l : Lane) : Option Lane :=
  match l.publisher with
  | .work final delta => some { l with publisher := .drain final true, sink := l.sink ++ [delta] }
  | pc => (pc.step id l.decoderDone l.outputQueue).map fun x => { l with outputQueue := x.1, publisher := x.2 }

namespace PipelineRunner

def setLane (s : PipelineRunner n) (i : Fin n.1) (l : Lane) : PipelineRunner n :=
  { s with lanes := Function.update s.lanes i l }

/-- A new queue on shard `i`. -/
def setQueue (s : PipelineRunner n) (i : Fin n.1) (q : Ring QueuedMessage kShardQueueCapacity) : PipelineRunner n :=
  s.setLane i { s.lanes i with queue := q }

/-- The next step of `read_packets_async`. -/
def netStep (s : PipelineRunner n) : Option (PipelineRunner n) :=
  match s.net with
  | .checkStop => some { s with net := if s.stopRequested then .storeDone else .next }
  | .next =>
    match s.feed with
    | [] => some { s with net := .storeDone }
    | none :: rest => some { s with feed := rest, net := .suspended }
    | some raw :: rest => some { s with feed := rest, net := .demux raw }
  | .demux raw =>
    match decode raw with
    | .ok msg =>
      match route s.orderRoute msg with
      | .ok (dest, r) =>
        let l := s.lanes dest.shardIndex
        let qm : QueuedMessage := ⟨dest.symbol, msg⟩
        (l.queue.step (.push qm)).map fun q =>
          { s.setLane dest.shardIndex { l with queue := q, demuxed := l.demuxed ++ [qm] } with
            orderRoute := r, net := .pushing dest.shardIndex }
      | .error _ => some { s with net := .suspended }
    | .error _ => some { s with net := .suspended }
  | .pushing i =>
    match (s.lanes i).queue.push with
    | .idle => some { s with net := .suspended }
    | _ => ((s.lanes i).queue.step .producer).map (s.setQueue i)
  | .suspended => some { s with net := .checkStop }
  | .storeDone => some { s with producerDone := true, net := .notify 0 }
  | .notify k =>
    if h : k < n.1 then
      ((s.lanes ⟨k, h⟩).queue.step .notifyWaiters).map fun q => { s.setQueue ⟨k, h⟩ q with net := .notify (k + 1) }
    else some { s with net := .finished }
  | .finished => none

/-- Who takes the next step; `stop` is `PipelineRunner::stop()`. -/
inductive Actor (n : NumShards) where
  | stop
  | net
  | decoder (i : Fin n.1)
  | publisher (i : Fin n.1)
deriving DecidableEq

def step (s : PipelineRunner n) : Actor n → Option (PipelineRunner n)
  | .stop => some { s with stopRequested := true }
  | .net => s.netStep
  | .decoder i => ((s.lanes i).decoderStep s.producerDone s.orderRoute).map fun x =>
    { s.setLane i x.1 with orderRoute := x.2 }
  | .publisher i => (s.lanes i).publisherStep.map (s.setLane i)

end PipelineRunner

/-- A started pipeline with the packets of its feed. -/
def PipelineRunner.start (n : NumShards) (feed : List (Option Bytes)) : PipelineRunner n := { feed := feed }

end Mdfh
