import Mdfh.Io.PipelineSteps
import Mdfh.Io.SinkReplay

/-!
# Shutdown drains both queues of a shard

`Lane.Inv` follows an item through a lane: demuxed, pushed, popped, applied, its deltas output, popped
and published, with the one in a thread's hands at every point. When the publisher has left its loop
its upstream flag was up and its last drain found nothing, so the decoder had left its own loop the
same way, no push is in progress on either queue and both are empty: what went in came out or was
evicted.
-/

namespace Mdfh
open LittleEndian (Bytes)

variable {n : NumShards}

/-- The decoder's place in its loop, which it has left once it stores its flag. -/
def DecoderPc.inLoop : DecoderPc → LoopPc DecodeWork
  | .loop pc => pc
  | .notify => .left
  | .exited => .left

/-- The message popped and not yet applied. -/
def DecodeWork.unapplied : DecodeWork → List QueuedMessage
  | .apply qm => [qm]
  | _ => []

/-- The deltas of the last message whose push has not begun. -/
def DecodeWork.unsent : DecodeWork → List BookDelta
  | .apply _ => []
  | .cleanup _ ds => ds
  | .output ds => ds

namespace Lane

structure Inv (up : Bool) (l : Lane) : Prop where
  queue : l.queue.Inv
  outputQueue : l.outputQueue.Inv
  decoder : l.decoder.inLoop.Ok l.queue up
  publisher : l.publisher.Ok l.outputQueue l.decoderDone
  demuxed : l.queue.started = l.demuxed
  applied : l.queue.delivered.map Prod.snd =
    l.applied ++ l.decoder.inLoop.todo DecodeWork.unapplied ++ l.queue.pop.hand
  state : l.state = ShardState.applyMessages {} l.applied
  output : l.outputQueue.started ++ l.decoder.inLoop.todo DecodeWork.unsent = ShardState.deltasOf {} l.applied
  sink : l.outputQueue.delivered.map Prod.snd = l.sink ++ l.publisher.todo (fun d => [d]) ++ l.outputQueue.pop.hand

namespace Inv
variable {up : Bool} {l l' : Lane}

theorem start : Inv false {} := by
  refine ⟨.init, .init, ?_, ?_, rfl, rfl, rfl, rfl, rfl⟩
  · exact fun hf => Bool.noConfusion hf
  · exact fun hf => Bool.noConfusion hf

theorem todo_unsent {q q' : Ring QueuedMessage kShardQueueCapacity} {pc pc' : LoopPc DecodeWork}
    (hs : LoopStep .apply up q pc q' pc') :
    pc.todo DecodeWork.unsent = [] ∧ pc'.todo DecodeWork.unsent = [] := by
  cases hs <;> exact ⟨rfl, rfl⟩

theorem decoderStep (h : l.Inv up) (ht : l.Turns) (hs : DecoderStep up l l') (hN : l'.outputQueue.pushed.length < 2 ^ 64) :
    l'.Inv up := by
  have hdec := h.decoder
  have happ := h.applied
  have hout := h.output
  have hdone := ht.done
  cases hs with
  | @loop pc pc' q hpc hs =>
    rw [hpc] at hdec happ hout
    obtain ⟨hpush, hpushed⟩ := hs.producer
    obtain ⟨hu, hu'⟩ := todo_unsent hs
    refine ⟨hs.inv h.queue, h.outputQueue, hs.ok hdec, h.publisher, ?_, hs.taken (fun _ => rfl) happ, h.state, ?_, h.sink⟩
    · rw [← h.demuxed]
      show q.pushed ++ q.push.pending = l.queue.pushed ++ l.queue.push.pending
      rw [hpushed, hpush]
    · show l.outputQueue.started ++ pc'.todo DecodeWork.unsent = _
      rw [hu', ← hu]
      exact hout
  | @apply final qm hpc =>
    rw [hpc] at hdec happ hout
    refine ⟨h.queue, h.outputQueue, hdec, h.publisher, h.demuxed, ?_, ?_, ?_, h.sink⟩
    · rw [happ]
      show l.applied ++ [qm] ++ _ = l.applied ++ [qm] ++ [] ++ _
      rw [List.append_nil]
    · show (l.state.applyMessage qm).2 = _
      rw [ShardState.applyMessages_concat, ← h.state]
    · have hout' : l.outputQueue.started = ShardState.deltasOf {} l.applied := (List.append_nil _).symm.trans hout
      show l.outputQueue.started ++ qm.deltas (l.state.applyMessage qm).1 = _
      rw [ShardState.deltasOf_concat, ← h.state, hout']
  | cleanup hpc =>
    rw [hpc] at hdec happ hout
    exact ⟨h.queue, h.outputQueue, hdec, h.publisher, h.demuxed, happ, h.state, hout, h.sink⟩
  | @begin final d ds hpc hq =>
    rw [hpc] at hdec happ hout
    have hinv : Ring.Inv { l.outputQueue with push := .loadTail d } :=
      h.outputQueue.setPush _ trivial (by intro t ht; cases ht) (by rw [hq]; rfl)
    refine ⟨h.queue, hinv, hdec, ?_, h.demuxed, happ, h.state, ?_, h.sink⟩
    · exact h.publisher.upstream rfl id fun _ => ⟨rfl, rfl⟩
    · rw [← hout]
      show l.outputQueue.pushed ++ [d] ++ ds = l.outputQueue.pushed ++ l.outputQueue.push.pending ++ (d :: ds)
      rw [hq]
      simp [PushPc.pending]
  | @push final ds q hpc hs =>
    rw [hpc] at hdec happ hout hdone
    have hf := Ring.pushStep_frame hs
    refine ⟨h.queue, h.outputQueue.pushStep hs hN, hdec, ?_, h.demuxed, happ, h.state, ?_, ?_⟩
    · refine h.publisher.upstream hf.pop id fun hd => ?_
      rw [hdone] at hd
      cases hd
    · show q.started ++ _ = _
      rw [hf.started]
      exact hout
    · show q.delivered.map Prod.snd = _ ++ q.pop.hand
      rw [hf.delivered, hf.pop]
      exact h.sink
  | finish hpc hq =>
    rw [hpc] at hdec happ hout
    exact ⟨h.queue, h.outputQueue, hdec, h.publisher, h.demuxed, happ, h.state, hout, h.sink⟩
  | leave hpc =>
    rw [hpc] at hdec happ hout
    refine ⟨h.queue, h.outputQueue, hdec, ?_, h.demuxed, happ, h.state, hout, h.sink⟩
    exact h.publisher.upstream rfl (fun _ => rfl) fun _ => ⟨rfl, rfl⟩
  | notify hpc hs =>
    rw [hpc] at hdec happ hout
    cases hs
    refine ⟨h.queue, h.outputQueue.setWake _, hdec, ?_, h.demuxed, happ, h.state, hout, h.sink⟩
    exact h.publisher.upstream rfl id fun _ => ⟨rfl, rfl⟩

theorem publisherStep (h : l.Inv up) (hs : PublisherStep l l') : l'.Inv up := by
  have hpub := h.publisher
  have hsink := h.sink
  cases hs with
  | @loop pc q hs =>
    obtain ⟨hpush, hpushed⟩ := hs.producer
    refine ⟨h.queue, hs.inv h.outputQueue, h.decoder, hs.ok hpub, h.demuxed, h.applied, h.state, ?_,
      hs.taken (fun _ => rfl) hsink⟩
    rw [← h.output]
    show q.pushed ++ q.push.pending ++ _ = l.outputQueue.pushed ++ l.outputQueue.push.pending ++ _
    rw [hpushed, hpush]
  | @publish final delta hpc =>
    rw [hpc] at hpub hsink
    refine ⟨h.queue, h.outputQueue, h.decoder, hpub, h.demuxed, h.applied, h.state, h.output, ?_⟩
    rw [hsink]
    show l.sink ++ [delta] ++ _ = l.sink ++ [delta] ++ [] ++ _
    rw [List.append_nil]

theorem step (h : l.Inv up) (ht : l.Turns) {closing : Bool} (hup : up = closing) (hs : LaneStep up closing l l')
    (hN : l'.queue.pushed.length < 2 ^ 64) (hN' : l'.outputQueue.pushed.length < 2 ^ 64) : l'.Inv up := by
  cases hs with
  | decoder hs => exact h.decoderStep ht hs hN'
  | publisher hs => exact h.publisherStep hs
  | @demux qm hc hq =>
    have hinv : Ring.Inv { l.queue with push := .loadTail qm } :=
      h.queue.setPush _ trivial (by intro t ht; cases ht) (by rw [hq]; rfl)
    refine ⟨hinv, h.outputQueue, ?_, h.publisher, ?_, h.applied, h.state, h.output, h.sink⟩
    · exact h.decoder.upstream rfl id fun _ => ⟨rfl, rfl⟩
    · show l.queue.pushed ++ [qm] = l.demuxed ++ [qm]
      rw [← h.demuxed, Ring.started, hq]
      simp [PushPc.pending]
  | @push q hc hs =>
    have hf := Ring.pushStep_frame hs
    refine ⟨h.queue.pushStep hs hN, h.outputQueue, ?_, h.publisher, ?_, ?_, h.state, h.output, h.sink⟩
    · refine h.decoder.upstream hf.pop id fun hd => ?_
      rw [hup, hc] at hd
      cases hd
    · show q.started = l.demuxed
      rw [hf.started, h.demuxed]
    · show q.delivered.map Prod.snd = _ ++ q.pop.hand
      rw [hf.delivered, hf.pop]
      exact h.applied
  | notify hs =>
    cases hs
    refine ⟨h.queue.setWake _, h.outputQueue, ?_, h.publisher, h.demuxed, h.applied, h.state, h.output, h.sink⟩
    exact h.decoder.upstream rfl id fun _ => ⟨rfl, rfl⟩

theorem flag (h : l.Inv up) : l.Inv true :=
  ⟨h.queue, h.outputQueue, h.decoder.upstream rfl (fun _ => rfl) fun _ => ⟨rfl, rfl⟩, h.publisher, h.demuxed, h.applied,
    h.state, h.output, h.sink⟩

end Inv

/-- Every message and every delta of the lane came out in order or was dropped and counted; with no delta
dropped, the sink's map is the shard's non-zero levels. -/
structure Drained (feed : List (Option Bytes)) (l : Lane) : Prop where
  queue : l.queue.Accounted l.demuxed l.applied
  state : l.state = ShardState.applyMessages {} l.applied
  outputQueue : l.outputQueue.Accounted (ShardState.deltasOf {} l.applied) l.sink
  replay : l.outputQueue.mem.droppedUpdatesTotal = 0 →
    (∀ raw a, some raw ∈ feed → decode raw = .ok (.add a) → a.side.Defined) → replaySink l.sink = l.state.levelTotals

theorem Inv.drained {up : Bool} {l : Lane} (h : l.Inv up) (ht : l.Turns) (hq : up = true → l.queue.push = .idle)
    (hexit : l.publisher = .left) {feed : List (Option Bytes)}
    (hfeed : ∀ qm ∈ l.demuxed, ∃ raw, some raw ∈ feed ∧ decode raw = .ok qm.message) : l.Drained feed := by
  have hpub := h.publisher
  have hsink := h.sink
  rw [hexit] at hpub hsink
  obtain ⟨hdone, hpop', hempty'⟩ := hpub
  rw [ht.done] at hdone
  have hleft : l.decoder.inLoop = .left ∧ ∀ final ds, l.decoder ≠ .loop (.work final (.output ds)) := by
    cases hpc : l.decoder <;> rw [hpc] at hdone <;> cases hdone
    · exact ⟨rfl, by simp⟩
    · exact ⟨rfl, by simp⟩
  have hpush' := ht.idle hleft.2
  have hdec := h.decoder
  have happ := h.applied
  have hout := h.output
  rw [hleft.1] at hdec happ hout
  obtain ⟨hup, hpop, hempty⟩ := hdec
  have hpush := hq hup
  -- the queue: all of it was pushed, popped and applied
  have hqueue : l.queue.Accounted l.demuxed l.applied := by
    have hall : l.queue.pushed = l.demuxed := by
      have := h.demuxed
      rw [Ring.started, hpush] at this
      exact (List.append_nil _).symm.trans this
    have hgot : l.queue.delivered.map Prod.snd = l.applied := by
      rw [happ, hpop]
      simp [LoopPc.todo, PopPc.hand]
    have := h.queue.accounted hpush hpop hempty
    rwa [hall, hgot] at this
  have houtput : l.outputQueue.Accounted (ShardState.deltasOf {} l.applied) l.sink := by
    have hall : l.outputQueue.pushed = ShardState.deltasOf {} l.applied := by
      rw [← hout, Ring.started, hpush']
      simp [LoopPc.todo, PushPc.pending]
    have hgot : l.outputQueue.delivered.map Prod.snd = l.sink := by
      rw [hsink, hpop']
      simp [LoopPc.todo, PopPc.hand]
    have := h.outputQueue.accounted hpush' hpop' hempty'
    rwa [hall, hgot] at this
  refine ⟨hqueue, h.state, houtput, fun h0 hsides => ?_⟩
  rw [houtput.eq_of_dropped_eq_zero h0, h.state]
  refine ShardState.replaySink_deltasOf _ fun qm hqm a ha => ?_
  obtain ⟨raw, hraw, hdec⟩ := hfeed qm (hqueue.mem_sent hqm)
  exact hsides raw a hraw (ha ▸ hdec)

end Lane

namespace PipelineRunner
variable {s s' : PipelineRunner n}

/-- What was demuxed came from the packets of the feed. -/
structure FromFeed (packets : List (Option Bytes)) (s : PipelineRunner n) : Prop where
  feed : ∀ p ∈ s.feed, p ∈ packets
  net : ∀ raw, s.net = .demux raw → some raw ∈ packets
  demuxed : ∀ i, ∀ qm ∈ (s.lanes i).demuxed, ∃ raw, some raw ∈ packets ∧ decode raw = .ok qm.message

namespace FromFeed
variable {packets : List (Option Bytes)}

theorem setNet (h : s.FromFeed packets) (pc : NetPc n) {up : Bool} (hpc : ∀ raw, pc ≠ .demux raw) :
    FromFeed packets { s with net := pc, producerDone := up } :=
  ⟨h.feed, fun raw e => absurd e (hpc raw), h.demuxed⟩

theorem setLane (h : s.FromFeed packets) {i : Fin n.1} {l : Lane} (hl : l.demuxed = (s.lanes i).demuxed)
    (r : RouteTable n) : FromFeed packets { s.setLane i l with orderRoute := r } := by
  refine ⟨h.feed, h.net, fun j qm hqm => h.demuxed j qm ?_⟩
  have hqm' : qm ∈ ((s.setLane i l).lanes j).demuxed := hqm
  rw [lanes_setLane] at hqm'
  split at hqm'
  · next hj => rw [hj, ← hl]; exact hqm'
  · exact hqm'

theorem netStep (h : s.FromFeed packets) (hs : NetStep s s') : s'.FromFeed packets := by
  cases hs with
  | stopped => exact h.setNet _ (by simp)
  | running => exact h.setNet _ (by simp)
  | exhausted => exact h.setNet _ (by simp)
  | lost hpc hf =>
    refine ⟨fun p hp => h.feed p ?_, by simp, h.demuxed⟩
    rw [hf]
    exact List.mem_cons_of_mem _ hp
  | @packet raw rest hpc hf =>
    refine ⟨fun p hp => h.feed p ?_, fun raw' e => h.feed _ ?_, h.demuxed⟩
    · rw [hf]
      exact List.mem_cons_of_mem _ hp
    · obtain rfl := NetPc.demux.inj e
      rw [hf]
      exact List.mem_cons_self
  | refused => exact h.setNet _ (by simp)
  | @routed raw msg dest r hpc hd hr hq =>
    refine ⟨h.feed, by simp, fun j qm hqm => ?_⟩
    have hqm' : qm ∈ ((s.setLane dest.shardIndex { s.lanes dest.shardIndex with
        queue := { (s.lanes dest.shardIndex).queue with push := .loadTail ⟨dest.symbol, msg⟩ },
        demuxed := (s.lanes dest.shardIndex).demuxed ++ [⟨dest.symbol, msg⟩] }).lanes j).demuxed := hqm
    rw [lanes_setLane] at hqm'
    split at hqm'
    · rcases List.mem_append.1 hqm' with hqm' | hqm'
      · exact h.demuxed _ qm hqm'
      · rw [List.mem_singleton.1 hqm']
        exact ⟨raw, h.net raw hpc, hd⟩
    · exact h.demuxed j qm hqm'
  | @push i q hpc hp => exact h.setLane (l := { s.lanes i with queue := q }) rfl s.orderRoute
  | pushed => exact h.setNet _ (by simp)
  | resumed => exact h.setNet _ (by simp)
  | done => exact h.setNet _ (by simp)
  | @notify i q hpc hn =>
    have hlane := h.setLane (l := { s.lanes i with queue := q }) rfl s.orderRoute
    exact hlane.setNet (.notify (i + 1)) (by simp)
  | finished => exact h.setNet _ (by simp)

theorem step (h : s.FromFeed packets) {a : Actor n} (hs : s.step a = some s') : s'.FromFeed packets := by
  cases a with
  | stop => cases hs; exact ⟨h.feed, h.net, h.demuxed⟩
  | net => exact h.netStep (netStep_cases hs)
  | decoder i =>
    obtain ⟨⟨l, r⟩, hl, rfl⟩ := Option.map_eq_some_iff.1 hs
    refine h.setLane ?_ r
    cases Lane.decoderStep_cases hl <;> rfl
  | publisher i =>
    obtain ⟨l, hl, rfl⟩ := Option.map_eq_some_iff.1 hs
    refine h.setLane ?_ s.orderRoute
    cases Lane.publisherStep_cases hl <;> rfl

theorem start (packets : List (Option Bytes)) : (PipelineRunner.start n packets).FromFeed packets :=
  ⟨fun _ hp => hp, nofun, fun _ _ hqm => absurd hqm List.not_mem_nil⟩

end FromFeed

/-- The indices of both queues of shard `i` fit their 64 bits. -/
def InRange (s : PipelineRunner n) (i : Fin n.1) : Prop :=
  (s.lanes i).queue.pushed.length < 2 ^ 64 ∧ (s.lanes i).outputQueue.pushed.length < 2 ^ 64

theorem InRange.before {i : Fin n.1} {a : Actor n} (hs : s.step a = some s') (h : s'.InRange i) : s.InRange i := by
  rcases lane_step hs i with ⟨hl, -⟩ | ⟨hl, -⟩
  · exact ⟨hl.grows.1.length_le.trans_lt h.1, hl.grows.2.length_le.trans_lt h.2⟩
  · rw [InRange, hl] at h
    exact h

theorem laneInv_step {i : Fin n.1} (h : (s.lanes i).Inv s.producerDone) (ht : s.Turns) (hN : s'.InRange i)
    {a : Actor n} (hs : s.step a = some s') : (s'.lanes i).Inv s'.producerDone := by
  rcases lane_step hs i with ⟨hl, hd⟩ | ⟨hl, hd | ⟨hd, -⟩⟩
  · rw [hd]
    exact h.step (ht.lanes i) ht.done hl hN.1 hN.2
  · rw [hd, hl]
    exact h
  · rw [hd, hl]
    exact h.flag

/-- For any feed with any losses, any stop request and any interleaving: once publisher `i` has exited,
shard `i` is drained. -/
theorem shutdown_drains (feed : List (Option Bytes)) (acts : List (Actor n)) (s : PipelineRunner n) (i : Fin n.1)
    (hrun : Runs.exec step (PipelineRunner.start n feed) acts = some s) (hexit : (s.lanes i).publisher = .left)
    (hN : s.InRange i) : (s.lanes i).Drained feed := by
  have hturns : s.Turns := Runs.invariant (P := Turns) (fun _ _ _ h hs => h.step hs) (.start feed) hrun
  have hfeed : s.FromFeed feed := Runs.invariant (P := FromFeed feed) (fun _ _ _ h hs => h.step hs) (.start feed) hrun
  have hinv : s.Turns ∧ (s.lanes i).Inv s.producerDone :=
    Runs.invariant_while (P := fun s : PipelineRunner n => s.Turns ∧ (s.lanes i).Inv s.producerDone)
      (Q := fun s => s.InRange i) (fun _ _ _ hs h => h.before hs)
      (fun _ _ _ h hN hs => ⟨h.1.step hs, laneInv_step h.2 h.1 hN hs⟩) ⟨.start feed, .start⟩ hrun hN
  refine hinv.2.drained (hturns.lanes i) (fun hup => hturns.idle fun hpc => ?_) hexit (hfeed.demuxed i)
  rw [hturns.done, hpc] at hup
  cases hup

/-- An Add, a lost packet and the Execute that fills it. -/
def sampleFeed : List (Option Bytes) := [some sampleAdd.packet, none, some sampleFill.packet]

/-- The threads run to their ends one after the other. -/
def sampleRun : List (Actor oneShard) :=
  List.replicate 30 .net ++ List.replicate 51 (.decoder 0) ++ List.replicate 31 (.publisher 0)

theorem shutdown_drains_fill :
    ∃ s, Runs.exec step (PipelineRunner.start oneShard sampleFeed) sampleRun = some s ∧
      ((s.lanes 0).publisher = .left ∧ (s.lanes 0).sink.length = 2) ∧ (s.lanes 0).Drained sampleFeed := by
  have h : ((Runs.exec step (PipelineRunner.start oneShard sampleFeed) sampleRun).map fun s =>
      decide (((s.lanes 0).publisher = .left ∧ (s.lanes 0).sink.length = 2) ∧
        (s.lanes 0).queue.pushed.length < 2 ^ 64 ∧ (s.lanes 0).outputQueue.pushed.length < 2 ^ 64)) = some true := by
    decide +kernel
  obtain ⟨s, hs, hd⟩ := Option.map_eq_some_iff.1 h
  obtain ⟨⟨hexit, hsink⟩, hN⟩ := of_decide_eq_true hd
  exact ⟨s, hs, ⟨hexit, hsink⟩, shutdown_drains _ sampleRun s 0 hs hexit hN⟩

end PipelineRunner

end Mdfh
