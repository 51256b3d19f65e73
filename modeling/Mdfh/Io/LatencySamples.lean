import Mdfh.Io.Indices
import Mdfh.Io.LatencyErasure

/-!
# What the latency samples say

`Flow` follows a message with its trace through a lane: what a shard publishes carries the trace of the
message it was made from. `Times` says when each stamp was taken: a thread takes the stamps of one item
after those of the item before, and later than the thread upstream took its own. So no interval of a
sample is negative, the intervals add up, and the items of a shard come in the order of every stamp.
-/

namespace Mdfh
open LittleEndian (Bytes)

variable {n : NumShards}

/-! ### The way of a message -/

/-- The message as it was pushed. -/
def TracedMessage.asQueued (m : TracedMessage) : TracedMessage :=
  ⟨m.toQueuedMessage, { tReceived := m.trace.tReceived, tDecoded := m.trace.tDecoded, tDemuxed := m.trace.tDemuxed }⟩

/-- The deltas of messages applied one after the other, with their traces. -/
def ShardState.tracedDeltas (s : ShardState) : List TracedMessage → List TracedDelta
  | [] => []
  | m :: ms => m.deltas (s.applyMessage m.toQueuedMessage).1 ++ (s.applyMessage m.toQueuedMessage).2.tracedDeltas ms

theorem ShardState.tracedDeltas_concat (s : ShardState) (ms : List TracedMessage) (m : TracedMessage) :
    s.tracedDeltas (ms ++ [m]) = s.tracedDeltas ms ++
      m.deltas ((s.applyMessages (ms.map TracedMessage.toQueuedMessage)).applyMessage m.toQueuedMessage).1 := by
  induction ms generalizing s with
  | nil => simp [tracedDeltas, applyMessages]
  | cons m' ms ih =>
    rw [List.cons_append, tracedDeltas, ih, tracedDeltas, List.append_assoc]
    rfl

def TracedDecoderPc.inLoop : TracedDecoderPc → LoopPc TracedWork
  | .loop pc => pc
  | .notify => .left
  | .exited => .left

/-- The message popped and not yet applied. -/
def TracedWork.unapplied : TracedWork → List TracedMessage
  | .popped m => [m]
  | .apply m => [m.asQueued]
  | _ => []

/-- The deltas of the last message whose push has not begun. -/
def TracedWork.unsent : TracedWork → List TracedDelta
  | .cleanup _ ds => ds
  | .output ds => ds
  | _ => []

/-- The delta popped and not yet handed to the inner sink. -/
def RecordWork.unpublished : RecordWork → List TracedDelta
  | .enter d => [d]
  | .inner d _ => [d]
  | .record _ _ => []

/-- The delta published and not yet recorded. -/
def RecordWork.unrecorded : RecordWork → List TracedDelta
  | .record d _ => [d]
  | _ => []

namespace TracedLane

structure Flow (l : TracedLane) : Prop where
  queue : l.queue.Inv
  outputQueue : l.outputQueue.Inv
  demuxed : l.queue.started = l.demuxed
  fresh : ∀ m ∈ l.demuxed, m.asQueued = m
  applied : l.queue.delivered.map Prod.snd =
    l.applied.map TracedMessage.asQueued ++ l.decoder.inLoop.todo TracedWork.unapplied ++ l.queue.pop.hand
  state : l.state = ShardState.applyMessages {} (l.applied.map TracedMessage.toQueuedMessage)
  output : l.outputQueue.started ++ l.decoder.inLoop.todo TracedWork.unsent = ShardState.tracedDeltas {} l.applied
  sink : l.outputQueue.delivered.map Prod.snd =
    l.sink ++ l.publisher.todo RecordWork.unpublished ++ l.outputQueue.pop.hand
  published : l.published.map Published.delta ++ l.publisher.todo RecordWork.unrecorded = l.sink

namespace Flow
variable {l l' : TracedLane} {now : TimePoint} {up : Bool}

theorem start : Flow {} := ⟨.init, .init, rfl, fun _ hm => absurd hm List.not_mem_nil, rfl, rfl, rfl, rfl, rfl⟩

theorem mem_demuxed (h : l.Flow) {m : TracedMessage} (hm : m ∈ l.queue.delivered.map Prod.snd) : m ∈ l.demuxed := by
  obtain ⟨e, he, rfl⟩ := List.mem_map.1 hm
  rw [← h.demuxed, Ring.started]
  exact List.mem_append_left _ (List.mem_of_getElem? (h.queue.values e he))

theorem mem_demuxed_of_popped (h : l.Flow) {final : Bool} {m : TracedMessage}
    (hpc : l.decoder = .loop (.work final (.popped m))) : m ∈ l.demuxed := by
  refine h.mem_demuxed ?_
  rw [h.applied, hpc]
  simp [TracedDecoderPc.inLoop, LoopPc.todo, TracedWork.unapplied]

theorem mem_deltas (h : l.Flow) {d : TracedDelta} (hd : d ∈ l.outputQueue.delivered.map Prod.snd) :
    d ∈ ShardState.tracedDeltas {} l.applied := by
  obtain ⟨e, he, rfl⟩ := List.mem_map.1 hd
  rw [← h.output, Ring.started, List.append_assoc]
  exact List.mem_append_left _ (List.mem_of_getElem? (h.outputQueue.values e he))

theorem mem_deltas_of_enter (h : l.Flow) {final : Bool} {d : TracedDelta} (hpc : l.publisher = .work final (.enter d)) :
    d ∈ ShardState.tracedDeltas {} l.applied := by
  refine h.mem_deltas ?_
  rw [h.sink, hpc]
  simp [LoopPc.todo, RecordWork.unpublished]

theorem todo_unsent {q q' : Ring TracedMessage kShardQueueCapacity} {pc pc' : LoopPc TracedWork}
    (hs : LoopStep .popped up q pc q' pc') : pc.todo TracedWork.unsent = [] ∧ pc'.todo TracedWork.unsent = [] := by
  cases hs <;> exact ⟨rfl, rfl⟩

theorem todo_unrecorded {q q' : Ring TracedDelta kDeltaQueueCapacity} {pc pc' : LoopPc RecordWork}
    (hs : LoopStep .enter up q pc q' pc') : pc.todo RecordWork.unrecorded = [] ∧ pc'.todo RecordWork.unrecorded = [] := by
  cases hs <;> exact ⟨rfl, rfl⟩

theorem decoderStep (h : l.Flow) (hs : TracedDecoderStep now up l l') (hN : l'.outputQueue.pushed.length < 2 ^ 64) :
    l'.Flow := by
  have happ := h.applied
  have hout := h.output
  cases hs with
  | @loop pc pc' q hpc hs =>
    rw [hpc] at happ hout
    obtain ⟨hpush, hpushed⟩ := hs.producer
    obtain ⟨hu, hu'⟩ := todo_unsent hs
    refine ⟨hs.inv h.queue, h.outputQueue, ?_, h.fresh, hs.taken (fun _ => rfl) happ, h.state, ?_, h.sink, h.published⟩
    · rw [← h.demuxed]
      show q.pushed ++ q.push.pending = l.queue.pushed ++ l.queue.push.pending
      rw [hpushed, hpush]
    · show l.outputQueue.started ++ pc'.todo TracedWork.unsent = _
      rw [hu', ← hu]
      exact hout
  | @dequeued final m hpc =>
    have hfresh : (m.dequeuedAt now).asQueued = m := h.fresh m (h.mem_demuxed_of_popped hpc)
    rw [hpc] at happ hout
    refine ⟨h.queue, h.outputQueue, h.demuxed, h.fresh, ?_, h.state, hout, h.sink, h.published⟩
    show _ = _ ++ [(m.dequeuedAt now).asQueued] ++ _
    rw [hfresh]
    exact happ
  | @apply final m hpc =>
    rw [hpc] at happ hout
    refine ⟨h.queue, h.outputQueue, h.demuxed, h.fresh, ?_, ?_, ?_, h.sink, h.published⟩
    · rw [happ, List.map_append]
      show _ ++ [m.asQueued] ++ _ = _ ++ [m.asQueued] ++ [] ++ _
      rw [List.append_nil]
    · show (l.state.applyMessage m.toQueuedMessage).2 = _
      rw [List.map_append, List.map_singleton, ShardState.applyMessages_concat, ← h.state]
      rfl
    · have hout' : l.outputQueue.started = ShardState.tracedDeltas {} l.applied := (List.append_nil _).symm.trans hout
      rw [ShardState.tracedDeltas_concat, ← h.state, ← hout']
      rfl
  | cleanup hpc =>
    rw [hpc] at happ hout
    exact ⟨h.queue, h.outputQueue, h.demuxed, h.fresh, happ, h.state, hout, h.sink, h.published⟩
  | @begin final d ds hpc hq =>
    rw [hpc] at happ hout
    have hinv : Ring.Inv { l.outputQueue with push := .loadTail d } :=
      h.outputQueue.setPush _ trivial (by intro t ht; cases ht) (by rw [hq]; rfl)
    refine ⟨h.queue, hinv, h.demuxed, h.fresh, happ, h.state, ?_, h.sink, h.published⟩
    rw [← hout]
    show l.outputQueue.pushed ++ [d] ++ ds = l.outputQueue.pushed ++ l.outputQueue.push.pending ++ (d :: ds)
    rw [hq]
    simp [PushPc.pending]
  | @push final ds q hpc hs =>
    rw [hpc] at happ hout
    have hf := Ring.pushStep_frame hs
    refine ⟨h.queue, h.outputQueue.pushStep hs hN, h.demuxed, h.fresh, happ, h.state, ?_, ?_, h.published⟩
    · show q.started ++ _ = _
      rw [hf.started]
      exact hout
    · show q.delivered.map Prod.snd = _ ++ q.pop.hand
      rw [hf.delivered, hf.pop]
      exact h.sink
  | finish hpc =>
    rw [hpc] at happ hout
    exact ⟨h.queue, h.outputQueue, h.demuxed, h.fresh, happ, h.state, hout, h.sink, h.published⟩
  | leave hpc =>
    rw [hpc] at happ hout
    exact ⟨h.queue, h.outputQueue, h.demuxed, h.fresh, happ, h.state, hout, h.sink, h.published⟩
  | notify hpc hs =>
    rw [hpc] at happ hout
    cases hs
    exact ⟨h.queue, h.outputQueue.setWake _, h.demuxed, h.fresh, happ, h.state, hout, h.sink, h.published⟩

theorem publisherStep (h : l.Flow) (hs : TracedPublisherStep now l l') : l'.Flow := by
  have hsink := h.sink
  have hpub := h.published
  cases hs with
  | @loop pc q hs =>
    obtain ⟨hpush, hpushed⟩ := hs.producer
    obtain ⟨hu, hu'⟩ := todo_unrecorded hs
    refine ⟨h.queue, hs.inv h.outputQueue, h.demuxed, h.fresh, h.applied, h.state, ?_, hs.taken (fun _ => rfl) hsink, ?_⟩
    · rw [← h.output]
      show q.pushed ++ q.push.pending ++ _ = l.outputQueue.pushed ++ l.outputQueue.push.pending ++ _
      rw [hpushed, hpush]
    · show l.published.map Published.delta ++ pc.todo RecordWork.unrecorded = l.sink
      rw [hu', ← hu]
      exact hpub
  | dequeued hpc =>
    rw [hpc] at hsink hpub
    exact ⟨h.queue, h.outputQueue, h.demuxed, h.fresh, h.applied, h.state, h.output, hsink, hpub⟩
  | @publish final d t hpc =>
    rw [hpc] at hsink hpub
    refine ⟨h.queue, h.outputQueue, h.demuxed, h.fresh, h.applied, h.state, h.output, ?_, ?_⟩
    · rw [hsink]
      show l.sink ++ [d] ++ _ = l.sink ++ [d] ++ [] ++ _
      rw [List.append_nil]
    · rw [← hpub]
      show l.published.map Published.delta ++ [d] = l.published.map Published.delta ++ [] ++ [d]
      rw [List.append_nil]
  | @record final d t hpc =>
    rw [hpc] at hsink hpub
    refine ⟨h.queue, h.outputQueue, h.demuxed, h.fresh, h.applied, h.state, h.output, hsink, ?_⟩
    rw [List.map_append]
    exact (List.append_nil _).trans hpub

theorem demux (h : l.Flow) {m : TracedMessage} (hm : m.asQueued = m) (hq : l.queue.push = .idle) :
    Flow { l with queue := { l.queue with push := .loadTail m }, demuxed := l.demuxed ++ [m] } := by
  have hinv : Ring.Inv { l.queue with push := .loadTail m } :=
    h.queue.setPush _ trivial (by intro t ht; cases ht) (by rw [hq]; rfl)
  refine ⟨hinv, h.outputQueue, ?_, fun m' hm' => ?_, h.applied, h.state, h.output, h.sink, h.published⟩
  · show l.queue.pushed ++ [m] = l.demuxed ++ [m]
    rw [← h.demuxed, Ring.started, hq]
    simp [PushPc.pending]
  · rcases List.mem_append.1 hm' with hm' | hm'
    · exact h.fresh m' hm'
    · rw [List.mem_singleton.1 hm']
      exact hm

theorem push (h : l.Flow) {q : Ring TracedMessage kShardQueueCapacity} (hs : l.queue.pushStep = some q)
    (hN : q.pushed.length < 2 ^ 64) : Flow { l with queue := q } := by
  have hf := Ring.pushStep_frame hs
  refine ⟨h.queue.pushStep hs hN, h.outputQueue, hf.started.trans h.demuxed, h.fresh, ?_, h.state, h.output, h.sink,
    h.published⟩
  show q.delivered.map Prod.snd = _ ++ q.pop.hand
  rw [hf.delivered, hf.pop]
  exact h.applied

theorem notify (h : l.Flow) {q : Ring TracedMessage kShardQueueCapacity} (hs : l.queue.step .notifyWaiters = some q) :
    Flow { l with queue := q } := by
  cases hs
  exact ⟨h.queue.setWake _, h.outputQueue, h.demuxed, h.fresh, h.applied, h.state, h.output, h.sink, h.published⟩

end Flow

end TracedLane

/-! ### When the stamps were taken -/

theorem ShardState.trace_of_mem {s : ShardState} {ms : List TracedMessage} {d : TracedDelta} (h : d ∈ s.tracedDeltas ms) :
    ∃ m ∈ ms, d.trace = m.trace := by
  induction ms generalizing s with
  | nil => exact absurd h List.not_mem_nil
  | cons m ms ih =>
    rcases List.mem_append.1 h with h | h
    · obtain ⟨d', -, rfl⟩ := List.mem_map.1 h
      exact ⟨m, List.mem_cons_self, rfl⟩
    · obtain ⟨m', hm', he⟩ := ih h
      exact ⟨m', List.mem_cons_of_mem _ hm', he⟩

/-- The stamps of `demux`, taken between `t₀` and `now`. -/
structure LatencyTrace.Entered (t₀ now : TimePoint) (t : LatencyTrace) : Prop where
  received : t₀ ≤ t.tReceived
  decoded : t.tReceived ≤ t.tDecoded
  demuxed : t.tDecoded ≤ t.tDemuxed
  le_now : t.tDemuxed ≤ now

/-- The stamps of `process_shard`. -/
structure LatencyTrace.Updated (now : TimePoint) (t : LatencyTrace) : Prop where
  dequeued : t.tDemuxed ≤ t.tDequeued
  updated : t.tDequeued ≤ t.tBookUpdated
  le_now : t.tBookUpdated ≤ now

/-- The stamps of the sink. -/
structure Published.Timely (now : TimePoint) (p : Published) : Prop where
  dequeued : p.delta.trace.tBookUpdated ≤ p.tDeltaDequeued
  published : p.tDeltaDequeued ≤ p.tPublished
  le_now : p.tPublished ≤ now

/-- The sink's first stamp of the delta in the publisher's hands. -/
def RecordWork.stamped : RecordWork → Option (TracedDelta × TimePoint)
  | .enter _ => none
  | .inner d t => some (d, t)
  | .record d t => some (d, t)

namespace TracedLane

structure Times (t₀ now : TimePoint) (l : TracedLane) : Prop where
  entered : ∀ m ∈ l.demuxed, m.trace.Entered t₀ now
  enteredInOrder : l.demuxed.Pairwise fun m m' => m.trace.tDemuxed ≤ m'.trace.tReceived
  updated : ∀ m ∈ l.applied, m.trace.Updated now
  updatedInOrder : l.applied.Pairwise fun m m' => m.trace.tBookUpdated ≤ m'.trace.tDequeued
  updating : ∀ final m, l.decoder = .loop (.work final (.apply m)) →
    m.trace.tDemuxed ≤ m.trace.tDequeued ∧ m.trace.tDequeued ≤ now ∧ ∀ m' ∈ l.applied, m'.trace.tBookUpdated ≤ m.trace.tDequeued
  published : ∀ p ∈ l.published, p.Timely now
  publishedInOrder : l.published.Pairwise fun p p' => p.tPublished ≤ p'.tDeltaDequeued
  publishing : ∀ final w d t, l.publisher = .work final w → w.stamped = some (d, t) →
    d.trace.tBookUpdated ≤ t ∧ t ≤ now ∧ ∀ p ∈ l.published, p.tPublished ≤ t

namespace Times
variable {l l' : TracedLane} {t₀ now : TimePoint} {up : Bool}

theorem start : Times t₀ now {} where
  entered _ hm := absurd hm List.not_mem_nil
  enteredInOrder := List.Pairwise.nil
  updated _ hm := absurd hm List.not_mem_nil
  updatedInOrder := List.Pairwise.nil
  updating _ _ h := by cases h
  published _ hp := absurd hp List.not_mem_nil
  publishedInOrder := List.Pairwise.nil
  publishing _ _ _ _ h := by cases h

theorem le_tick {t : TimePoint} (h : t ≤ now) (d : Nat) : t ≤ now + d := le_add_of_le_of_nonneg h (Int.natCast_nonneg d)

theorem tick (h : l.Times t₀ now) (d : Nat) : l.Times t₀ (now + d) where
  entered m hm := { h.entered m hm with le_now := le_tick (h.entered m hm).le_now d }
  enteredInOrder := h.enteredInOrder
  updated m hm := { h.updated m hm with le_now := le_tick (h.updated m hm).le_now d }
  updatedInOrder := h.updatedInOrder
  updating final m hpc := by
    obtain ⟨h₁, h₂, h₃⟩ := h.updating final m hpc
    exact ⟨h₁, le_tick h₂ d, h₃⟩
  published p hp := { h.published p hp with le_now := le_tick (h.published p hp).le_now d }
  publishedInOrder := h.publishedInOrder
  publishing final w d' t hpc hw := by
    obtain ⟨h₁, h₂, h₃⟩ := h.publishing final w d' t hpc hw
    exact ⟨h₁, le_tick h₂ d, h₃⟩

theorem setDecoder (h : l.Times t₀ now) {q : Ring TracedMessage kShardQueueCapacity} {o : Ring TracedDelta kDeltaQueueCapacity}
    {pc : TracedDecoderPc} {done : Bool} (hpc : ∀ final m, pc ≠ .loop (.work final (.apply m))) :
    Times t₀ now { l with queue := q, outputQueue := o, decoder := pc, decoderDone := done } :=
  { h with updating := fun final m e => absurd e (hpc final m) }

theorem decoderStep (h : l.Times t₀ now) (hf : l.Flow) (hs : TracedDecoderStep now up l l') : l'.Times t₀ now := by
  cases hs with
  | loop hpc hs =>
    refine h.setDecoder fun final m e => ?_
    cases hs <;> cases e
  | @dequeued final m hpc =>
    have hm := h.entered m (hf.mem_demuxed_of_popped hpc)
    refine { h with updating := fun final' m' e => ?_ }
    cases e
    exact ⟨hm.le_now, le_rfl, fun m' hm' => (h.updated m' hm').le_now⟩
  | @apply final m hpc =>
    obtain ⟨h₁, h₂, h₃⟩ := h.updating final m hpc
    refine { h with updated := fun m' hm' => ?_, updatedInOrder := ?_, updating := fun final' m' e => by cases e }
    · rcases List.mem_append.1 hm' with hm' | hm'
      · exact h.updated m' hm'
      · rw [List.mem_singleton.1 hm']
        exact ⟨h₁, h₂, le_rfl⟩
    · refine List.pairwise_append.2 ⟨h.updatedInOrder, List.pairwise_singleton _ _, fun m' hm' m'' hm'' => ?_⟩
      rw [List.mem_singleton.1 hm'']
      exact h₃ m' hm'
  | cleanup hpc => exact h.setDecoder fun final m e => by cases e
  | begin hpc hq => exact h.setDecoder fun final m e => by cases e
  | push hpc hp => exact h.setDecoder fun final m e => by cases e
  | finish hpc => exact h.setDecoder fun final m e => by cases e
  | leave hpc => exact h.setDecoder fun final m e => by cases e
  | notify hpc hn => exact h.setDecoder fun final m e => by cases e

theorem stamped_of_loop {q q' : Ring TracedDelta kDeltaQueueCapacity} {pc pc' : LoopPc RecordWork} {final : Bool}
    {w : RecordWork} (hs : LoopStep .enter up q pc q' pc') (e : pc' = .work final w) : w.stamped = none := by
  cases hs <;> cases e
  rfl

theorem publisherStep (h : l.Times t₀ now) (hf : l.Flow) (hs : TracedPublisherStep now l l') : l'.Times t₀ now := by
  cases hs with
  | loop hs =>
    refine { h with publishing := fun final w d t e hw => ?_ }
    rw [stamped_of_loop hs e] at hw
    cases hw
  | @dequeued final d hpc =>
    obtain ⟨m, hm, he⟩ := ShardState.trace_of_mem (hf.mem_deltas_of_enter hpc)
    refine { h with publishing := fun final' w d' t e hw => ?_ }
    cases e
    cases hw
    refine ⟨?_, le_rfl, fun p hp => (h.published p hp).le_now⟩
    rw [he]
    exact (h.updated m hm).le_now
  | @publish final d t hpc =>
    refine { h with publishing := fun final' w d' t' e hw => ?_ }
    cases e
    cases hw
    exact h.publishing final _ d t hpc rfl
  | @record final d t hpc =>
    obtain ⟨h₁, h₂, h₃⟩ := h.publishing final _ d t hpc rfl
    refine { h with published := fun p hp => ?_, publishedInOrder := ?_, publishing := fun final' w d' t' e _ => by cases e }
    · rcases List.mem_append.1 hp with hp | hp
      · exact h.published p hp
      · rw [List.mem_singleton.1 hp]
        exact ⟨h₁, h₂, le_rfl⟩
    · refine List.pairwise_append.2 ⟨h.publishedInOrder, List.pairwise_singleton _ _, fun p hp p' hp' => ?_⟩
      rw [List.mem_singleton.1 hp']
      exact h₃ p hp

/-- `demux` hands over a message that was received after all before it. -/
theorem demux (h : l.Times t₀ now) {m : TracedMessage} (hm : m.trace.Entered t₀ now)
    (hlast : ∀ m' ∈ l.demuxed, m'.trace.tDemuxed ≤ m.trace.tReceived) (q : Ring TracedMessage kShardQueueCapacity) :
    Times t₀ now { l with queue := q, demuxed := l.demuxed ++ [m] } := by
  refine { h with entered := fun m' hm' => ?_, enteredInOrder := ?_ }
  · rcases List.mem_append.1 hm' with hm' | hm'
    · exact h.entered m' hm'
    · rw [List.mem_singleton.1 hm']
      exact hm
  · refine List.pairwise_append.2 ⟨h.enteredInOrder, List.pairwise_singleton _ _, fun m' hm' m'' hm'' => ?_⟩
    rw [List.mem_singleton.1 hm'']
    exact hlast m' hm'

theorem setQueue (h : l.Times t₀ now) (q : Ring TracedMessage kShardQueueCapacity) : Times t₀ now { l with queue := q } :=
  { h with }

end Times

/-! ### Order -/

end TracedLane

/-- No stamp of `t` is later than the same stamp of `t'`. -/
structure LatencyTrace.Le (t t' : LatencyTrace) : Prop where
  received : t.tReceived ≤ t'.tReceived
  decoded : t.tDecoded ≤ t'.tDecoded
  demuxed : t.tDemuxed ≤ t'.tDemuxed
  dequeued : t.tDequeued ≤ t'.tDequeued
  updated : t.tBookUpdated ≤ t'.tBookUpdated

theorem LatencyTrace.Le.refl (t : LatencyTrace) : t.Le t := ⟨le_rfl, le_rfl, le_rfl, le_rfl, le_rfl⟩

theorem ShardState.tracedDeltas_inOrder {s : ShardState} {ms : List TracedMessage}
    (h : ms.Pairwise fun m m' => m.trace.Le m'.trace) :
    (s.tracedDeltas ms).Pairwise fun d d' => d.trace.Le d'.trace := by
  induction ms generalizing s with
  | nil => exact List.Pairwise.nil
  | cons m ms ih =>
    rw [List.pairwise_cons] at h
    refine List.pairwise_append.2 ⟨?_, ih h.2, fun d hd d' hd' => ?_⟩
    · rw [TracedMessage.deltas, List.pairwise_map]
      exact List.pairwise_of_forall fun _ _ => .refl _
    · obtain ⟨d₀, -, rfl⟩ := List.mem_map.1 hd
      obtain ⟨m', hm', he⟩ := trace_of_mem hd'
      rw [he]
      exact h.1 m' hm'

namespace TracedLane
variable {l : TracedLane} {t₀ now : TimePoint}

theorem Flow.applied_sublist (h : l.Flow) : (l.applied.map TracedMessage.asQueued).Sublist l.demuxed := by
  have hpop : (l.applied.map TracedMessage.asQueued).Sublist (l.queue.delivered.map Prod.snd) := by
    rw [h.applied, List.append_assoc]
    exact List.sublist_append_left _ _
  rw [← h.demuxed]
  exact (hpop.trans h.queue.delivered_sublist).trans (List.sublist_append_left _ _)

theorem Flow.sink_sublist (h : l.Flow) : l.sink.Sublist (ShardState.tracedDeltas {} l.applied) := by
  have hpop : l.sink.Sublist (l.outputQueue.delivered.map Prod.snd) := by
    rw [h.sink, List.append_assoc]
    exact List.sublist_append_left _ _
  rw [← h.output, Ring.started, List.append_assoc]
  exact (hpop.trans h.outputQueue.delivered_sublist).trans (List.sublist_append_left _ _)

theorem Times.entered_of_applied (h : l.Times t₀ now) (hf : l.Flow) {m : TracedMessage} (hm : m ∈ l.applied) :
    m.asQueued.trace.Entered t₀ now :=
  h.entered _ (hf.applied_sublist.subset (List.mem_map_of_mem hm))

theorem Times.applied_inOrder (h : l.Times t₀ now) (hf : l.Flow) :
    l.applied.Pairwise fun m m' => m.trace.Le m'.trace := by
  have hdemux := List.pairwise_map.1 (h.enteredInOrder.sublist hf.applied_sublist)
  refine (hdemux.and h.updatedInOrder).imp_of_mem ?_
  rintro m m' hm hm' ⟨hin, hup⟩
  have hin' : m.trace.tDemuxed ≤ m'.trace.tReceived := hin
  obtain ⟨-, hd, hx, -⟩ := h.entered_of_applied hf hm
  obtain ⟨-, hd', hx', -⟩ := h.entered_of_applied hf hm'
  have hu := h.updated m hm
  have hu' := h.updated m' hm'
  have hrd : m.trace.tDecoded ≤ m'.trace.tReceived := hx.trans hin'
  exact ⟨hd.trans hrd, hrd.trans hd', (hin'.trans hd').trans hx', hu.updated.trans hup, hup.trans hu'.updated⟩

end TracedLane

/-! ### Runs -/

/-- The network thread's stamps of the packet in its hands; `Before t` says that it was done with all others by `t`. -/
def TracedNetPc.Times (t₀ now : TimePoint) (Before : TimePoint → Prop) : TracedNetPc n → Prop
  | .decode _ t => t₀ ≤ t ∧ t ≤ now ∧ Before t
  | .route _ _ t t' => t₀ ≤ t ∧ t ≤ t' ∧ t' ≤ now ∧ Before t
  | _ => True

theorem TracedNetPc.Idle.times {pc : TracedNetPc n} (h : pc.Idle) (t₀ now : TimePoint) (Before : TimePoint → Prop) :
    pc.Times t₀ now Before := by
  cases pc with
  | decode raw t => exact h.elim
  | route raw msg t t' => exact h.elim
  | _ => trivial

theorem TracedNetPc.Times.mono {pc : TracedNetPc n} {t₀ now now' : TimePoint} {Before Before' : TimePoint → Prop}
    (h : pc.Times t₀ now Before) (hn : now ≤ now') (hb : ∀ t, Before t → Before' t) : pc.Times t₀ now' Before' := by
  cases pc with
  | decode raw t => exact ⟨h.1, h.2.1.trans hn, hb t h.2.2⟩
  | route raw msg t t' => exact ⟨h.1, h.2.1, h.2.2.1.trans hn, hb t h.2.2.2⟩
  | _ => trivial

namespace TracedRunner
variable {s s' : TracedRunner n} {t₀ : TimePoint} {N : Nat}

/-- Every message handed over was handed over by `t`. -/
def DemuxedBy (s : TracedRunner n) (t : TimePoint) : Prop := ∀ i, ∀ m ∈ (s.lanes i).demuxed, m.trace.tDemuxed ≤ t

structure Timely (t₀ : TimePoint) (s : TracedRunner n) : Prop where
  flow : ∀ i, (s.lanes i).Flow
  times : ∀ i, (s.lanes i).Times t₀ s.now
  net : s.net.Times t₀ s.now s.DemuxedBy
  clock : t₀ ≤ s.now

namespace Timely

theorem start (feed : List (Option Bytes)) (t₀ : TimePoint) : (TracedRunner.start n feed t₀).Timely t₀ :=
  ⟨fun _ => .start, fun _ => .start, trivial, le_rfl⟩

theorem setLane (h : s.Timely t₀) {i : Fin n.1} {l : TracedLane} (hf : l.Flow) (ht : l.Times t₀ s.now)
    {pc : TracedNetPc n} (hpc : pc.Times t₀ s.now (s.setLane i l).DemuxedBy) (r : RouteTable n) :
    Timely t₀ { s.setLane i l with orderRoute := r, net := pc } := by
  refine ⟨fun j => ?_, fun j => ?_, hpc, h.clock⟩
  · show ((s.setLane i l).lanes j).Flow
    rw [lanes_setLane]
    split
    · exact hf
    · exact h.flow j
  · show ((s.setLane i l).lanes j).Times t₀ s.now
    rw [lanes_setLane]
    split
    · exact ht
    · exact h.times j

theorem demuxedBy_setLane {i : Fin n.1} {l : TracedLane} (hd : l.demuxed = (s.lanes i).demuxed) (t : TimePoint)
    (h : s.DemuxedBy t) : (s.setLane i l).DemuxedBy t := by
  intro j m hm
  rw [lanes_setLane] at hm
  split at hm
  · exact h i m (hd ▸ hm)
  · exact h j m hm

theorem setLane_same (h : s.Timely t₀) {i : Fin n.1} {l : TracedLane} (hf : l.Flow) (ht : l.Times t₀ s.now)
    (hd : l.demuxed = (s.lanes i).demuxed) (r : RouteTable n) : Timely t₀ { s.setLane i l with orderRoute := r } :=
  h.setLane hf ht (h.net.mono le_rfl (demuxedBy_setLane hd)) r

theorem netStep (h : s.Timely t₀) (hs : TracedNetStep s s') (hN : ∀ i, (s'.lanes i).queue.pushed.length < 2 ^ 64) :
    s'.Timely t₀ := by
  have hnet := h.net
  have hbefore : s.DemuxedBy s.now := fun i m hm => ((h.times i).entered m hm).le_now
  cases hs with
  | move feed up hpc => exact ⟨h.flow, h.times, hpc.times _ _ _, h.clock⟩
  | received hf => exact ⟨h.flow, h.times, ⟨h.clock, le_rfl, hbefore⟩, h.clock⟩
  | decoded hpc hd =>
    rw [hpc] at hnet
    exact ⟨h.flow, h.times, ⟨hnet.1, hnet.2.1, le_rfl, hnet.2.2⟩, h.clock⟩
  | @routed raw msg t t' dest r l qm hpc hl hqm hq =>
    rw [hpc] at hnet
    obtain ⟨h₀, h₁, h₂, h₃⟩ := hnet
    subst hl hqm
    refine h.setLane ((h.flow _).demux rfl hq) ((h.times _).demux ⟨h₀, h₁, h₂, le_rfl⟩ (h₃ _) _) ?_ r
    trivial
  | @push i q hpc hp =>
    have hlen := hN i
    rw [setQueue, lanes_setLane, if_pos rfl] at hlen
    exact h.setLane_same ((h.flow i).push hp hlen) ((h.times i).setQueue q) rfl s.orderRoute
  | @notify i q hpc hn =>
    refine h.setLane ((h.flow i).notify hn) ((h.times i).setQueue q) ?_ s.orderRoute
    trivial

theorem step (h : s.Timely t₀) {e : Event n} (hs : s.step e = some s') (hN : ∀ i, s'.erase.InRange i) : s'.Timely t₀ := by
  have hqueue : ∀ i, (s'.lanes i).queue.pushed.length < 2 ^ 64 := by
    intro i
    have hlen : ((s'.lanes i).queue.pushed.map TracedMessage.toQueuedMessage).length < 2 ^ 64 := (hN i).1
    rwa [List.length_map] at hlen
  have houtput : ∀ i, (s'.lanes i).outputQueue.pushed.length < 2 ^ 64 := by
    intro i
    have hlen : ((s'.lanes i).outputQueue.pushed.map TracedDelta.toBookDelta).length < 2 ^ 64 := (hN i).2
    rwa [List.length_map] at hlen
  rcases e with d | _ | _ | i | i
  · cases hs
    refine ⟨h.flow, fun i => (h.times i).tick d, h.net.mono ?_ fun _ => id, ?_⟩
    · exact TracedLane.Times.le_tick le_rfl d
    · exact TracedLane.Times.le_tick h.clock d
  · cases hs
    exact ⟨h.flow, h.times, h.net, h.clock⟩
  · exact h.netStep (netStep_cases hs) hqueue
  · obtain ⟨⟨l, r⟩, hl, rfl⟩ := Option.map_eq_some_iff.1 hs
    have hlen : ((s.setLane i l).lanes i).outputQueue.pushed.length < 2 ^ 64 := houtput i
    rw [lanes_setLane, if_pos rfl] at hlen
    have hstep := TracedLane.decoderStep_cases hl
    refine h.setLane_same ((h.flow i).decoderStep hstep hlen) ((h.times i).decoderStep (h.flow i) hstep) ?_ r
    cases hstep <;> rfl
  · obtain ⟨l, hl, rfl⟩ := Option.map_eq_some_iff.1 hs
    have hstep := TracedLane.publisherStep_cases hl
    refine h.setLane_same ((h.flow i).publisherStep hstep) ((h.times i).publisherStep (h.flow i) hstep) ?_ s.orderRoute
    cases hstep <;> rfl

/-- Every run over a feed of fewer than `2 ^ 63` packets. -/
theorem exec {feed : List (Option Bytes)} {es : List (Event n)}
    (hrun : Runs.exec TracedRunner.step (TracedRunner.start n feed t₀) es = some s) (hlen : 2 * feed.length < 2 ^ 64) :
    s.Timely t₀ := by
  have hkeep : ∀ (s : TracedRunner n) e s', s.Timely t₀ ∧ s.Decodes ∧ s.erase.Tracked feed.length →
      TracedRunner.step s e = some s' → s'.Timely t₀ ∧ s'.Decodes ∧ s'.erase.Tracked feed.length := by
    rintro s e s' ⟨ht, hd, htr⟩ hs
    have htr' : s'.erase.Tracked feed.length := by
      rcases step_seen hd hs with he | ⟨a, -, ha⟩
      · rw [he]; exact htr
      · exact htr.step hlen ha
    exact ⟨ht.step hs fun i => htr'.inRange hlen i, hd.step hs, htr'⟩
  refine (Runs.invariant hkeep ⟨.start feed t₀, .start feed t₀, ?_⟩ hrun).1
  rw [erase_start]
  exact .start feed

end Timely

end TracedRunner

/-! ### Samples -/

/-- No interval is negative, and the stages add up to the two totals. -/
structure LatencySample.Coherent (x : LatencySample) : Prop where
  receiveToDecode : 0 ≤ x.receiveToDecode
  decodeToDemux : 0 ≤ x.decodeToDemux
  inputQueueWait : 0 ≤ x.inputQueueWait
  bookUpdate : 0 ≤ x.bookUpdate
  outputQueueWait : 0 ≤ x.outputQueueWait
  publish : 0 ≤ x.publish
  tickToBookUpdate : x.tickToBookUpdate = x.receiveToDecode + x.decodeToDemux + x.inputQueueWait + x.bookUpdate
  endToEnd : x.endToEnd = x.tickToBookUpdate + x.outputQueueWait + x.publish

/-- The time a publisher spends in its inner sink, over intervals that do not overlap. -/
theorem sum_publish_le {ps : List Published} {now t : TimePoint} (hp : ∀ p ∈ ps, t ≤ p.tDeltaDequeued ∧ p.Timely now)
    (ho : ps.Pairwise fun p p' => p.tPublished ≤ p'.tDeltaDequeued) (hnow : t ≤ now) :
    (ps.map fun p => p.sample.publish).sum ≤ now - t := by
  induction ps generalizing t with
  | nil => exact sub_nonneg.2 hnow
  | cons p ps ih =>
    rw [List.pairwise_cons] at ho
    obtain ⟨ht, htimely⟩ := hp p List.mem_cons_self
    have hrest := ih (t := p.tPublished) (fun p' hp' => ⟨ho.1 p' hp', (hp p' (List.mem_cons_of_mem _ hp')).2⟩) ho.2
      htimely.le_now
    rw [List.map_cons, List.sum_cons]
    have hone : p.sample.publish = p.tPublished - p.tDeltaDequeued := rfl
    rw [hone]
    linarith

/-- The time points that go into the sample. -/
def Published.stamps (p : Published) : List TimePoint :=
  [p.delta.trace.tReceived, p.delta.trace.tDecoded, p.delta.trace.tDemuxed, p.delta.trace.tDequeued,
    p.delta.trace.tBookUpdated, p.tDeltaDequeued, p.tPublished]

/-- What the sink of a shard holds at any time of a run that started at `t₀`. -/
structure TracedLane.Sampled (t₀ now : TimePoint) (l : TracedLane) : Prop where
  coherent : ∀ x ∈ l.samples, x.Coherent ∧ x.endToEnd ≤ now - t₀
  busy : (l.samples.map LatencySample.publish).sum ≤ now - t₀
  recorded : l.published.map Published.delta ++ l.publisher.todo RecordWork.unrecorded = l.sink
  traces : l.sink.Sublist (ShardState.tracedDeltas {} l.applied)
  inOrder : l.published.Pairwise fun p p' => p.delta.trace.Le p'.delta.trace ∧ p.tPublished ≤ p'.tDeltaDequeued
  exact : 0 ≤ t₀ → now < 2 ^ 63 → ∀ p ∈ l.published, ∀ t ∈ p.stamps, ∀ t' ∈ p.stamps,
    (Int64.ofInt t' - Int64.ofInt t).toInt = t' - t

theorem toInt_ofInt_sub {t t' : Int} (ht : 0 ≤ t ∧ t < 2 ^ 63) (ht' : 0 ≤ t' ∧ t' < 2 ^ 63) :
    (Int64.ofInt t' - Int64.ofInt t).toInt = t' - t := by
  rw [← Int64.ofInt_sub]
  exact Int64.toInt_ofInt_of_le (by omega) (by omega)

namespace TracedLane.Times
variable {l : TracedLane} {t₀ now : TimePoint} {p : Published}

theorem stamped (h : l.Times t₀ now) (hf : l.Flow) (hp : p ∈ l.published) :
    p.delta.trace.Entered t₀ now ∧ p.delta.trace.Updated now ∧ p.Timely now := by
  have hsink : p.delta ∈ l.sink := by
    rw [← hf.published]
    exact List.mem_append_left _ (List.mem_map_of_mem hp)
  obtain ⟨m, hm, he⟩ := ShardState.trace_of_mem (hf.sink_sublist.subset hsink)
  obtain ⟨hr, hd, hx, hnow⟩ := h.entered_of_applied hf hm
  have hupdated := h.updated m hm
  rw [he]
  exact ⟨⟨hr, hd, hx, hnow⟩, hupdated, h.published p hp⟩

theorem stamps (h : l.Times t₀ now) (hf : l.Flow) (hp : p ∈ l.published) : ∀ t ∈ p.stamps, t₀ ≤ t ∧ t ≤ now := by
  obtain ⟨⟨hr, hd, hx, -⟩, ⟨hq, hu, -⟩, hd', hp', hnow⟩ := h.stamped hf hp
  intro t ht
  simp only [Published.stamps, List.mem_cons, List.not_mem_nil, or_false] at ht
  rcases ht with rfl | rfl | rfl | rfl | rfl | rfl | rfl <;> constructor <;> linarith

theorem coherent (h : l.Times t₀ now) (hf : l.Flow) (hp : p ∈ l.published) :
    t₀ ≤ p.tDeltaDequeued ∧ p.sample.Coherent ∧ p.sample.endToEnd ≤ now - t₀ := by
  obtain ⟨⟨hr, hd, hx, -⟩, ⟨hq, hu, -⟩, hd', hp', hnow⟩ := h.stamped hf hp
  obtain ⟨⟨delta, trace⟩, t, t'⟩ := p
  refine ⟨by linarith, ⟨sub_nonneg.2 hd, sub_nonneg.2 hx, sub_nonneg.2 hq, sub_nonneg.2 hu, sub_nonneg.2 hd', sub_nonneg.2 hp',
    ?_, ?_⟩, ?_⟩
  · show trace.tBookUpdated - trace.tReceived = (trace.tDecoded - trace.tReceived) +
      (trace.tDemuxed - trace.tDecoded) + (trace.tDequeued - trace.tDemuxed) + (trace.tBookUpdated - trace.tDequeued)
    linarith
  · show t' - trace.tReceived = (trace.tBookUpdated - trace.tReceived) + (t - trace.tBookUpdated) + (t' - t)
    linarith
  · exact sub_le_sub hnow hr

end TracedLane.Times

/-- Under any interleaving and any passing of time, every shard's samples are coherent, in order, one
for each published delta, and each delta carries the trace of the message it was made from. -/
theorem TracedRunner.latency_sampled (feed : List (Option Bytes)) (t₀ : TimePoint) (es : List (TracedRunner.Event n))
    (s : TracedRunner n) (hrun : Runs.exec TracedRunner.step (TracedRunner.start n feed t₀) es = some s)
    (hlen : 2 * feed.length < 2 ^ 64) (i : Fin n.1) : (s.lanes i).Sampled t₀ s.now := by
  have h := Timely.exec hrun hlen
  have hf := h.flow i
  have ht := h.times i
  refine ⟨fun x hx => ?_, ?_, hf.published, hf.sink_sublist, ?_, fun h₀ hnow p hp u hu u' hu' => ?_⟩
  · obtain ⟨p, hp, rfl⟩ := List.mem_map.1 hx
    exact (ht.coherent hf hp).2
  · have hsum := sum_publish_le (fun p hp => ⟨(ht.coherent hf hp).1, ht.published p hp⟩) ht.publishedInOrder h.clock
    rwa [TracedLane.samples, List.map_map]
  · have hsink : ((s.lanes i).published.map Published.delta).Sublist (s.lanes i).sink := by
      rw [← hf.published]
      exact List.sublist_append_left _ _
    have hdeltas := (ShardState.tracedDeltas_inOrder (s := {}) (ht.applied_inOrder hf)).sublist (hsink.trans hf.sink_sublist)
    exact (List.pairwise_map.1 hdeltas).and ht.publishedInOrder
  · have hstamps := ht.stamps hf hp
    exact toInt_ofInt_sub ⟨h₀.trans (hstamps u hu).1, (hstamps u hu).2.trans_lt hnow⟩
      ⟨h₀.trans (hstamps u' hu').1, (hstamps u' hu').2.trans_lt hnow⟩

/-- A nanosecond passes after every step. -/
def timedRun : List (TracedRunner.Event oneShard) :=
  let acts : List (PipelineRunner.Actor oneShard) :=
    List.replicate 32 .net ++ List.replicate 53 (.decoder 0) ++ List.replicate 35 (.publisher 0)
  acts.flatMap fun a => [.act a, .tick 1]

theorem TracedRunner.latency_sampled_fill :
    ∃ s, Runs.exec TracedRunner.step (TracedRunner.start oneShard PipelineRunner.sampleFeed 5) timedRun = some s ∧
      (s.lanes 0).samples.length = 2 ∧ (s.lanes 0).Sampled 5 s.now := by
  have h : ((Runs.exec TracedRunner.step (TracedRunner.start oneShard PipelineRunner.sampleFeed 5) timedRun).map
      fun s => decide ((s.lanes 0).samples.length = 2)) = some true := by
    decide +kernel
  obtain ⟨s, hs, hd⟩ := Option.map_eq_some_iff.1 h
  exact ⟨s, hs, of_decide_eq_true hd, latency_sampled _ 5 timedRun s hs (by decide) 0⟩

end Mdfh
