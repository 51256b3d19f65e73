import Mdfh.Concurrency.RingMap
import Mdfh.Io.PipelineSteps

/-!
# Latency tracing (`concurrency/latency_trace.hpp`, `publisher/publisher.cpp`)

The running pipeline with the time stamps its messages carry and with a `LatencyRecordingSink` on every
shard, around an inner sink. `LatencyClock` is a steady clock: it advances by itself, between any two
steps, and never goes back. A reading of the clock is part of the step of the thread that takes it.
Time points and durations are counts of nanoseconds, as integers; `Sampled.exact` says when the 64-bit
subtractions of the sink give the same.
-/

namespace Mdfh
open LittleEndian (Bytes)

abbrev TimePoint := Int
abbrev Nanoseconds := Int

structure LatencyTrace where
  tReceived : TimePoint := 0
  tDecoded : TimePoint := 0
  tDemuxed : TimePoint := 0
  tDequeued : TimePoint := 0
  tBookUpdated : TimePoint := 0
deriving DecidableEq, Repr, Inhabited

/-- A `QueuedMessage` with its trace. -/
structure TracedMessage extends QueuedMessage where
  trace : LatencyTrace := {}
deriving DecidableEq, Repr

/-- A `BookDelta` with its trace. -/
structure TracedDelta extends BookDelta where
  trace : LatencyTrace := {}
deriving DecidableEq, Repr

instance : Inhabited TracedMessage := ⟨⟨default, {}⟩⟩
instance : Inhabited TracedDelta := ⟨⟨default, {}⟩⟩

structure LatencySample where
  receiveToDecode : Nanoseconds
  decodeToDemux : Nanoseconds
  inputQueueWait : Nanoseconds
  bookUpdate : Nanoseconds
  outputQueueWait : Nanoseconds
  publish : Nanoseconds
  tickToBookUpdate : Nanoseconds
  endToEnd : Nanoseconds
deriving DecidableEq, Repr

/-- What `LatencyRecordingSink::publish` records. -/
def LatencyTrace.sample (trace : LatencyTrace) (tDeltaDequeued tPublished : TimePoint) : LatencySample where
  receiveToDecode := trace.tDecoded - trace.tReceived
  decodeToDemux := trace.tDemuxed - trace.tDecoded
  inputQueueWait := trace.tDequeued - trace.tDemuxed
  bookUpdate := trace.tBookUpdated - trace.tDequeued
  outputQueueWait := tDeltaDequeued - trace.tBookUpdated
  publish := tPublished - tDeltaDequeued
  tickToBookUpdate := trace.tBookUpdated - trace.tReceived
  endToEnd := tPublished - trace.tReceived

/-- The deltas of one applied message, each with a copy of its trace. -/
def TracedMessage.deltas (qm : TracedMessage) (result : Except ApplyError ApplyResult) : List TracedDelta :=
  (qm.toQueuedMessage.deltas result).map fun d => ⟨d, qm.trace⟩

/-- Where a decoder is in the loop body of `process_shard`. -/
inductive TracedWork where
  | popped (qm : TracedMessage)  -- before `t_dequeued` is read
  | apply (qm : TracedMessage)
  | cleanup (qm : TracedMessage) (ds : List TracedDelta)
  | output (ds : List TracedDelta)
deriving DecidableEq

inductive TracedDecoderPc where
  | loop (pc : LoopPc TracedWork)
  | notify
  | exited
deriving DecidableEq

/-- Where a publisher is in `LatencyRecordingSink::publish(delta)`. -/
inductive RecordWork where
  | enter (delta : TracedDelta)  -- before `t_delta_dequeued` is read
  | inner (delta : TracedDelta) (tDeltaDequeued : TimePoint)  -- at `inner_->publish(delta)`
  | record (delta : TracedDelta) (tDeltaDequeued : TimePoint)  -- before `t_published` is read
deriving DecidableEq

/-- A delta with the two stamps its sink took. -/
structure Published where
  delta : TracedDelta
  tDeltaDequeued : TimePoint
  tPublished : TimePoint
deriving DecidableEq

def Published.sample (p : Published) : LatencySample := p.delta.trace.sample p.tDeltaDequeued p.tPublished

structure TracedLane where
  state : ShardState := {}
  queue : Ring TracedMessage kShardQueueCapacity := {}
  outputQueue : Ring TracedDelta kDeltaQueueCapacity := {}
  decoder : TracedDecoderPc := .loop (.drain false false)
  decoderDone : Bool := false
  publisher : LoopPc RecordWork := .drain false false
  demuxed : List TracedMessage := []
  applied : List TracedMessage := []
  sink : List TracedDelta := []
  published : List Published := []

/-- `samples()` of the shard's sink. -/
def TracedLane.samples (l : TracedLane) : List LatencySample := l.published.map Published.sample

/-- Where the network I/O thread is in `read_packets_async` and in its call of `demux`. -/
inductive TracedNetPc (n : NumShards) where
  | checkStop
  | next
  | decode (raw : Bytes) (tReceived : TimePoint)
  | route (raw : Bytes) (msg : DecodedMessage) (tReceived tDecoded : TimePoint)
  | pushing (i : Fin n.1)
  | suspended
  | storeDone
  | notify (k : Nat)
  | finished
deriving DecidableEq

structure TracedRunner (n : NumShards) where
  lanes : Fin n.1 → TracedLane := fun _ => {}
  orderRoute : RouteTable n := ∅
  feed : List (Option Bytes) := []
  stopRequested : Bool := false
  producerDone : Bool := false
  net : TracedNetPc n := .checkStop
  now : TimePoint := 0

variable {n : NumShards}

def TracedMessage.dequeuedAt (qm : TracedMessage) (now : TimePoint) : TracedMessage :=
  { qm with trace := { qm.trace with tDequeued := now } }

def TracedMessage.bookUpdatedAt (qm : TracedMessage) (now : TimePoint) : TracedMessage :=
  { qm with trace := { qm.trace with tBookUpdated := now } }

/-- The next step of the decoder thread of a shard. -/
def TracedLane.decoderStep (l : TracedLane) (now : TimePoint) (producerDone : Bool) (r : RouteTable n) :
    Option (TracedLane × RouteTable n) :=
  match l.decoder with
  | .loop (.work final (.popped qm)) => some ({ l with decoder := .loop (.work final (.apply (qm.dequeuedAt now))) }, r)
  | .loop (.work final (.apply qm)) =>
    let result := l.state.applyMessage qm.toQueuedMessage
    let qm := qm.bookUpdatedAt now
    some ({ l with
      state := result.2, decoder := .loop (.work final (.cleanup qm (qm.deltas result.1))),
      applied := l.applied ++ [qm] }, r)
  | .loop (.work final (.cleanup qm ds)) =>
    some ({ l with decoder := .loop (.work final (.output ds)) }, eraseFilled (l.state.book qm.symbol) qm.message r)
  | .loop (.work final (.output ds)) =>
    match l.outputQueue.push, ds with
    | .idle, [] => some ({ l with decoder := .loop (.drain final true) }, r)
    | .idle, d :: ds => (l.outputQueue.step (.push d)).map fun q =>
      ({ l with outputQueue := q, decoder := .loop (.work final (.output ds)) }, r)
    | _, _ => (l.outputQueue.step .producer).map fun q => ({ l with outputQueue := q }, r)
  | .loop .left => some ({ l with decoderDone := true, decoder := .notify }, r)
  | .loop pc => (pc.step .popped producerDone l.queue).map fun x => ({ l with queue := x.1, decoder := .loop x.2 }, r)
  | .notify => (l.outputQueue.step .notifyWaiters).map fun q => ({ l with outputQueue := q, decoder := .exited }, r)
  | .exited => none

/-- The next step of the publisher thread of a shard. -/
def TracedLane.publisherStep (l : TracedLane) (now : TimePoint) : Option TracedLane :=
  match l.publisher with
  | .work final (.enter delta) => some { l with publisher := .work final (.inner delta now) }
  | .work final (.inner delta t) => some { l with publisher := .work final (.record delta t), sink := l.sink ++ [delta] }
  | .work final (.record delta t) =>
    some { l with publisher := .drain final true, published := l.published ++ [⟨delta, t, now⟩] }
  | pc => (pc.step .enter l.decoderDone l.outputQueue).map fun x => { l with outputQueue := x.1, publisher := x.2 }

namespace TracedRunner

def setLane (s : TracedRunner n) (i : Fin n.1) (l : TracedLane) : TracedRunner n :=
  { s with lanes := Function.update s.lanes i l }

def setQueue (s : TracedRunner n) (i : Fin n.1) (q : Ring TracedMessage kShardQueueCapacity) : TracedRunner n :=
  s.setLane i { s.lanes i with queue := q }

/-- The next step of `read_packets_async`. -/
def netStep (s : TracedRunner n) : Option (TracedRunner n) :=
  match s.net with
  | .checkStop => some { s with net := if s.stopRequested then .storeDone else .next }
  | .next =>
    match s.feed with
    | [] => some { s with net := .storeDone }
    | none :: rest => some { s with feed := rest, net := .suspended }
    | some raw :: rest => some { s with feed := rest, net := .decode raw s.now }
  | .decode raw tReceived =>
    match Mdfh.decode raw with
    | .ok msg => some { s with net := .route raw msg tReceived s.now }
    | .error _ => some { s with net := .suspended }
  | .route _ msg tReceived tDecoded =>
    match Mdfh.route s.orderRoute msg with
    | .ok (dest, r) =>
      let l := s.lanes dest.shardIndex
      let qm : TracedMessage := ⟨⟨dest.symbol, msg⟩, { tReceived, tDecoded, tDemuxed := s.now }⟩
      (l.queue.step (.push qm)).map fun q =>
        { s.setLane dest.shardIndex { l with queue := q, demuxed := l.demuxed ++ [qm] } with
          orderRoute := r, net := .pushing dest.shardIndex }
    | .error _ => some { s with net := .suspended }
  | .pushing i =>
    match (s.lanes i).queue.push with
    | .idle => some { s with net := .suspended }
    | _ => ((s.lanes i).queue.step .producer).map (s.setQueue i)
  | .suspended => some { s with net := .checkStop }
  | .storeDone => some { s with producerDone := true, net := .notify 0 }
  | .notify k =>
    if h : k < n.1 then
      ((s.lanes ⟨k, h⟩).queue.step .notifyWaiters).map fun q => { s.setQueue ⟨k, h⟩ q with net := .notify (k + 1) }
    else some { s with net := .finished }
  | .finished => none

/-- What happens next: time passes, or an actor of the pipeline takes a step. -/
inductive Event (n : NumShards) where
  | tick (d : Nat)
  | act (a : PipelineRunner.Actor n)
deriving DecidableEq

def step (s : TracedRunner n) : Event n → Option (TracedRunner n)
  | .tick d => some { s with now := s.now + d }
  | .act .stop => some { s with stopRequested := true }
  | .act .net => s.netStep
  | .act (.decoder i) => ((s.lanes i).decoderStep s.now s.producerDone s.orderRoute).map fun x =>
    { s.setLane i x.1 with orderRoute := x.2 }
  | .act (.publisher i) => ((s.lanes i).publisherStep s.now).map (s.setLane i)

/-- A started pipeline, at any reading of the clock. -/
def start (n : NumShards) (feed : List (Option Bytes)) (now : TimePoint) : TracedRunner n := { feed := feed, now := now }

end TracedRunner

/-! ### What a step can do -/

inductive TracedDecoderStep (now : TimePoint) (producerDone : Bool) (l : TracedLane) : TracedLane → Prop
  | loop {pc pc' : LoopPc TracedWork} {q : Ring TracedMessage kShardQueueCapacity} (hpc : l.decoder = .loop pc)
      (hs : LoopStep .popped producerDone l.queue pc q pc') :
    TracedDecoderStep now producerDone l { l with queue := q, decoder := .loop pc' }
  | dequeued {final : Bool} {qm : TracedMessage} (hpc : l.decoder = .loop (.work final (.popped qm))) :
    TracedDecoderStep now producerDone l { l with decoder := .loop (.work final (.apply (qm.dequeuedAt now))) }
  | apply {final : Bool} {qm : TracedMessage} (hpc : l.decoder = .loop (.work final (.apply qm))) :
    TracedDecoderStep now producerDone l { l with
      state := (l.state.applyMessage qm.toQueuedMessage).2,
      decoder := .loop (.work final (.cleanup (qm.bookUpdatedAt now)
        ((qm.bookUpdatedAt now).deltas (l.state.applyMessage qm.toQueuedMessage).1))),
      applied := l.applied ++ [qm.bookUpdatedAt now] }
  | cleanup {final : Bool} {qm : TracedMessage} {ds : List TracedDelta}
      (hpc : l.decoder = .loop (.work final (.cleanup qm ds))) :
    TracedDecoderStep now producerDone l { l with decoder := .loop (.work final (.output ds)) }
  | begin {final : Bool} {d : TracedDelta} {ds : List TracedDelta}
      (hpc : l.decoder = .loop (.work final (.output (d :: ds)))) (hq : l.outputQueue.push = .idle) :
    TracedDecoderStep now producerDone l { l with
      outputQueue := { l.outputQueue with push := .loadTail d }, decoder := .loop (.work final (.output ds)) }
  | push {final : Bool} {ds : List TracedDelta} {q : Ring TracedDelta kDeltaQueueCapacity}
      (hpc : l.decoder = .loop (.work final (.output ds))) (hs : l.outputQueue.pushStep = some q) :
    TracedDecoderStep now producerDone l { l with outputQueue := q, decoder := .loop (.work final (.output ds)) }
  | finish {final : Bool} (hpc : l.decoder = .loop (.work final (.output []))) :
    TracedDecoderStep now producerDone l { l with decoder := .loop (.drain final true) }
  | leave (hpc : l.decoder = .loop .left) :
    TracedDecoderStep now producerDone l { l with decoderDone := true, decoder := .notify }
  | notify (hpc : l.decoder = .notify) {q : Ring TracedDelta kDeltaQueueCapacity}
      (hs : l.outputQueue.step .notifyWaiters = some q) :
    TracedDecoderStep now producerDone l { l with outputQueue := q, decoder := .exited }

theorem TracedLane.decoderStep_cases {l l' : TracedLane} {now : TimePoint} {up : Bool} {r r' : RouteTable n}
    (h : l.decoderStep now up r = some (l', r')) : TracedDecoderStep now up l l' := by
  have hloop : ∀ {pc : LoopPc TracedWork}, l.decoder = .loop pc →
      ((pc.step .popped up l.queue).map fun x => (({ l with queue := x.1, decoder := .loop x.2 } : TracedLane), r)) =
        some (l', r') → TracedDecoderStep now up l l' := by
    intro pc hpc h
    obtain ⟨⟨q, pc'⟩, hs, he⟩ := Option.map_eq_some_iff.1 h
    obtain ⟨rfl, -⟩ := Prod.mk.inj he
    exact .loop hpc (LoopPc.step_cases hs)
  unfold decoderStep at h
  cases hpc : l.decoder with
  | loop pc =>
    rw [hpc] at h
    cases pc with
    | drain final didWork => exact hloop hpc h
    | work final w =>
      cases w with
      | popped qm => cases h; exact .dequeued hpc
      | apply qm => cases h; exact .apply hpc
      | cleanup qm ds => cases h; exact .cleanup hpc
      | output ds =>
        dsimp only at h
        split at h
        · next hq => cases h; exact .finish hpc
        · next d ds hq =>
          rw [Ring.step, hq] at h
          cases h
          exact .begin hpc hq
        · obtain ⟨q, hs, he⟩ := Option.map_eq_some_iff.1 h
          obtain ⟨rfl, -⟩ := Prod.mk.inj he
          exact .push hpc hs
    | testDone => exact hloop hpc h
    | wait => exact hloop hpc h
    | waiting => exact hloop hpc h
    | left => cases h; exact .leave hpc
  | notify =>
    rw [hpc] at h
    obtain ⟨q, hs, he⟩ := Option.map_eq_some_iff.1 h
    obtain ⟨rfl, -⟩ := Prod.mk.inj he
    exact .notify hpc hs
  | exited => rw [hpc] at h; cases h

inductive TracedPublisherStep (now : TimePoint) (l : TracedLane) : TracedLane → Prop
  | loop {pc : LoopPc RecordWork} {q : Ring TracedDelta kDeltaQueueCapacity}
      (hs : LoopStep .enter l.decoderDone l.outputQueue l.publisher q pc) :
    TracedPublisherStep now l { l with outputQueue := q, publisher := pc }
  | dequeued {final : Bool} {delta : TracedDelta} (hpc : l.publisher = .work final (.enter delta)) :
    TracedPublisherStep now l { l with publisher := .work final (.inner delta now) }
  | publish {final : Bool} {delta : TracedDelta} {t : TimePoint} (hpc : l.publisher = .work final (.inner delta t)) :
    TracedPublisherStep now l { l with publisher := .work final (.record delta t), sink := l.sink ++ [delta] }
  | record {final : Bool} {delta : TracedDelta} {t : TimePoint} (hpc : l.publisher = .work final (.record delta t)) :
    TracedPublisherStep now l { l with
      publisher := .drain final true, published := l.published ++ [⟨delta, t, now⟩] }

theorem TracedLane.publisherStep_cases {l l' : TracedLane} {now : TimePoint} (h : l.publisherStep now = some l') :
    TracedPublisherStep now l l' := by
  unfold publisherStep at h
  split at h
  · next hpc => cases h; exact .dequeued hpc
  · next hpc => cases h; exact .publish hpc
  · next hpc => cases h; exact .record hpc
  · obtain ⟨⟨q, pc⟩, hs, rfl⟩ := Option.map_eq_some_iff.1 h
    exact .loop (LoopPc.step_cases hs)

/-- No packet is in the hands of the network thread. -/
def TracedNetPc.Idle : TracedNetPc n → Prop
  | .decode _ _ => False
  | .route _ _ _ _ => False
  | _ => True

inductive TracedNetStep (s : TracedRunner n) : TracedRunner n → Prop
  | move {pc : TracedNetPc n} (feed : List (Option Bytes)) (up : Bool) (hpc : pc.Idle) :
    TracedNetStep s { s with feed := feed, producerDone := up, net := pc }
  | received {raw : Bytes} {rest : List (Option Bytes)} (hf : s.feed = some raw :: rest) :
    TracedNetStep s { s with feed := rest, net := .decode raw s.now }
  | decoded {raw : Bytes} {msg : DecodedMessage} {t : TimePoint} (hpc : s.net = .decode raw t)
      (hd : decode raw = .ok msg) : TracedNetStep s { s with net := .route raw msg t s.now }
  | routed {raw : Bytes} {msg : DecodedMessage} {t t' : TimePoint} {dest : OrderRoute n} {r : RouteTable n}
      {l : TracedLane} {qm : TracedMessage} (hpc : s.net = .route raw msg t t') (hl : s.lanes dest.shardIndex = l)
      (hqm : qm = ⟨⟨dest.symbol, msg⟩, { tReceived := t, tDecoded := t', tDemuxed := s.now }⟩)
      (hq : l.queue.push = .idle) :
    TracedNetStep s { s.setLane dest.shardIndex { l with
        queue := { l.queue with push := .loadTail qm }, demuxed := l.demuxed ++ [qm] } with
      orderRoute := r, net := .pushing dest.shardIndex }
  | push {i : Fin n.1} {q : Ring TracedMessage kShardQueueCapacity} (hpc : s.net = .pushing i)
      (hs : (s.lanes i).queue.pushStep = some q) : TracedNetStep s (s.setQueue i q)
  | notify {i : Fin n.1} {q : Ring TracedMessage kShardQueueCapacity} (hpc : s.net = .notify i)
      (hs : (s.lanes i).queue.step .notifyWaiters = some q) :
    TracedNetStep s { s.setQueue i q with net := .notify (i + 1) }

theorem TracedRunner.netStep_cases {s s' : TracedRunner n} (h : s.netStep = some s') : TracedNetStep s s' := by
  unfold netStep at h
  cases hpc : s.net with
  | checkStop =>
    rw [hpc] at h
    cases h
    refine .move _ _ ?_
    cases s.stopRequested <;> trivial
  | next =>
    rw [hpc] at h
    dsimp only at h
    split at h
    · cases h; exact .move _ _ trivial
    · cases h; exact .move _ _ trivial
    · next hf => cases h; exact .received hf
  | decode raw t =>
    rw [hpc] at h
    dsimp only at h
    split at h
    · next hd => cases h; exact .decoded hpc hd
    · cases h; exact .move _ _ trivial
  | route raw msg t t' =>
    rw [hpc] at h
    dsimp only at h
    split at h
    · obtain ⟨q, hs, rfl⟩ := Option.map_eq_some_iff.1 h
      obtain ⟨hq, rfl⟩ := Ring.step_push hs
      exact .routed hpc rfl rfl hq
    · cases h; exact .move _ _ trivial
  | pushing i =>
    rw [hpc] at h
    dsimp only at h
    split at h
    · cases h; exact .move _ _ trivial
    · obtain ⟨q, hs, rfl⟩ := Option.map_eq_some_iff.1 h
      exact .push hpc hs
  | suspended => rw [hpc] at h; cases h; exact .move _ _ trivial
  | storeDone => rw [hpc] at h; cases h; exact .move _ _ trivial
  | notify k =>
    rw [hpc] at h
    dsimp only at h
    split at h
    · next hk =>
      obtain ⟨q, hs, rfl⟩ := Option.map_eq_some_iff.1 h
      exact .notify (i := ⟨k, hk⟩) hpc hs
    · cases h; exact .move _ _ trivial
  | finished => rw [hpc] at h; cases h

theorem TracedRunner.lanes_setLane (s : TracedRunner n) (i : Fin n.1) (l : TracedLane) (j : Fin n.1) :
    (s.setLane i l).lanes j = if j = i then l else s.lanes j :=
  Function.update_apply s.lanes i l j

end Mdfh
