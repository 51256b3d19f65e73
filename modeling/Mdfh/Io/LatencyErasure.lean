import Mdfh.Io.LatencyTrace
import Mdfh.Lib.Simulation

/-!
# The stamps change nothing

Without its stamps the traced pipeline is the pipeline. A thread that only reads the clock for its next
stamp (`Stamping`) is seen as standing still; every other step of the traced pipeline is the step that
the same actor takes on the erased state, and the one can be taken exactly when the other can.
-/

namespace Mdfh
open LittleEndian (Bytes)

variable {n : NumShards} {ω ω' : Type}

/-! ### Erasure -/

def TracedWork.erase (final : Bool) : TracedWork → LoopPc DecodeWork
  | .popped qm => .work final (.apply qm.toQueuedMessage)
  | .apply qm => .work final (.apply qm.toQueuedMessage)
  | .cleanup qm ds => .work final (.cleanup qm.toQueuedMessage (ds.map TracedDelta.toBookDelta))
  | .output ds => .work final (.output (ds.map TracedDelta.toBookDelta))

/-- Once the inner sink has the delta the publisher is back at its loop. -/
def RecordWork.erase (final : Bool) : RecordWork → LoopPc BookDelta
  | .enter delta => .work final delta.toBookDelta
  | .inner delta _ => .work final delta.toBookDelta
  | .record _ _ => .drain final true

def TracedDecoderPc.erase : TracedDecoderPc → DecoderPc
  | .loop pc => .loop (pc.bind TracedWork.erase)
  | .notify => .notify
  | .exited => .exited

def TracedLane.erase (l : TracedLane) : Lane where
  state := l.state
  queue := l.queue.map TracedMessage.toQueuedMessage
  outputQueue := l.outputQueue.map TracedDelta.toBookDelta
  decoder := l.decoder.erase
  decoderDone := l.decoderDone
  publisher := l.publisher.bind RecordWork.erase
  demuxed := l.demuxed.map TracedMessage.toQueuedMessage
  applied := l.applied.map TracedMessage.toQueuedMessage
  sink := l.sink.map TracedDelta.toBookDelta

def TracedNetPc.erase : TracedNetPc n → NetPc n
  | .checkStop => .checkStop
  | .next => .next
  | .decode raw _ => .demux raw
  | .route raw _ _ _ => .demux raw
  | .pushing i => .pushing i
  | .suspended => .suspended
  | .storeDone => .storeDone
  | .notify k => .notify k
  | .finished => .finished

def TracedRunner.erase (s : TracedRunner n) : PipelineRunner n where
  lanes i := (s.lanes i).erase
  orderRoute := s.orderRoute
  feed := s.feed
  stopRequested := s.stopRequested
  producerDone := s.producerDone
  net := s.net.erase

theorem TracedMessage.erase_deltas (qm : TracedMessage) (result : Except ApplyError ApplyResult) :
    (qm.deltas result).map TracedDelta.toBookDelta = qm.toQueuedMessage.deltas result := by
  rw [deltas, List.map_map]
  exact List.map_id _

/-! ### The decoder thread -/

/-- The decoder reads the clock next. -/
def TracedDecoderPc.Stamping (pc : TracedDecoderPc) : Prop := ∃ final qm, pc = .loop (.work final (.popped qm))

namespace TracedLane
variable {l : TracedLane}

theorem decoderStep_stamping (h : l.decoder.Stamping) (now : TimePoint) (up : Bool) (r : RouteTable n) :
    ∃ l', l.decoderStep now up r = some (l', r) ∧ l'.erase = l.erase ∧ ¬ l'.decoder.Stamping := by
  obtain ⟨final, qm, hpc⟩ := h
  refine ⟨{ l with decoder := .loop (.work final (.apply (qm.dequeuedAt now))) }, ?_, ?_, ?_⟩
  · unfold decoderStep
    rw [hpc]
  · unfold erase
    rw [hpc]
    rfl
  · rintro ⟨final', qm', he⟩
    cases he

theorem decoderStep_output (final : Bool) (ds : List TracedDelta) (hpc : l.decoder = .loop (.work final (.output ds)))
    (now : TimePoint) (up : Bool) (r : RouteTable n) :
    l.erase.decoderStep up r = (l.decoderStep now up r).map fun x => (x.1.erase, x.2) := by
  have hpc' : l.erase.decoder = .loop (.work final (.output (ds.map TracedDelta.toBookDelta))) := by
    show l.decoder.erase = _
    rw [hpc]
    rfl
  have hpush : l.erase.outputQueue.push = l.outputQueue.push.map TracedDelta.toBookDelta := rfl
  unfold Lane.decoderStep decoderStep
  rw [hpc, hpc', hpush]
  dsimp only
  cases l.outputQueue.push with
  | idle =>
    cases ds with
    | nil => rfl
    | cons d ds =>
      show ((l.outputQueue.map TracedDelta.toBookDelta).step ((Ring.Act.push d).map TracedDelta.toBookDelta)).map _ = _
      rw [Ring.step_map]
      dsimp only
      rw [Option.map_map, Option.map_map]
      rfl
  | _ =>
    show ((l.outputQueue.map TracedDelta.toBookDelta).pushStep).map _ = (l.outputQueue.pushStep.map _).map _
    rw [Ring.pushStep_map, Option.map_map, Option.map_map]
    rfl

theorem decoderStep_erase (h : ¬ l.decoder.Stamping) (now : TimePoint) (up : Bool) (r : RouteTable n) :
    l.erase.decoderStep up r = (l.decoderStep now up r).map fun x => (x.1.erase, x.2) := by
  have hpc' : l.erase.decoder = l.decoder.erase := rfl
  cases hpc : l.decoder with
  | loop pc =>
    rw [hpc] at h hpc'
    -- both decoders take the step of the loop, on queues that differ in the stamps
    have hloop : (∀ final w, pc ≠ .work final w) →
        l.erase.decoderStep up r = ((pc.bind TracedWork.erase).step .apply up l.erase.queue).map
          (fun x => ({ l.erase with queue := x.1, decoder := .loop x.2 }, r)) →
        l.decoderStep now up r = (pc.step .popped up l.queue).map
          (fun x => ({ l with queue := x.1, decoder := .loop x.2 }, r)) →
        l.erase.decoderStep up r = (l.decoderStep now up r).map fun x => (x.1.erase, x.2) := by
      intro hw h₁ h₂
      have hbody : ∀ final (x : TracedMessage), (TracedWork.popped x).erase final = .work final (.apply x.toQueuedMessage) :=
        fun _ _ => rfl
      have hstep : (pc.bind TracedWork.erase).step .apply up l.erase.queue = _ :=
        LoopPc.step_bind (q := l.queue) hbody hw
      rw [h₁, h₂, hstep, Option.map_map, Option.map_map]
      rfl
    cases pc with
    | work final w =>
      cases w with
      | popped qm => exact absurd ⟨final, qm, rfl⟩ h
      | apply qm =>
        unfold Lane.decoderStep decoderStep
        rw [hpc, hpc']
        show some ((_ : Lane), r) = some ((_ : Lane), r)
        simp only [erase, TracedDecoderPc.erase, LoopPc.bind, TracedWork.erase, TracedMessage.erase_deltas, List.map_append]
        rfl
      | cleanup qm ds =>
        unfold Lane.decoderStep decoderStep
        rw [hpc, hpc']
        rfl
      | output ds => exact decoderStep_output final ds hpc now up r
    | left =>
      unfold Lane.decoderStep decoderStep
      rw [hpc, hpc']
      rfl
    | _ =>
      refine hloop (fun _ _ h => by cases h) ?_ ?_
      · unfold Lane.decoderStep
        rw [hpc']
        rfl
      · unfold decoderStep
        rw [hpc]
  | notify =>
    unfold Lane.decoderStep decoderStep
    rw [hpc', hpc]
    rfl
  | exited =>
    unfold Lane.decoderStep decoderStep
    rw [hpc', hpc]
    rfl

/-! ### The publisher thread -/

end TracedLane

def RecordWork.Stamping : RecordWork → Prop
  | .enter _ => True
  | .inner _ _ => False
  | .record _ _ => True

/-- The publisher reads the clock next. -/
def TracedLane.PublisherStamping (l : TracedLane) : Prop := ∃ final w, l.publisher = .work final w ∧ w.Stamping

namespace TracedLane
variable {l : TracedLane}

theorem publisherStep_stamping (h : l.PublisherStamping) (now : TimePoint) :
    ∃ l', l.publisherStep now = some l' ∧ l'.erase = l.erase ∧ ¬ l'.PublisherStamping := by
  obtain ⟨final, w, hpc, hw⟩ := h
  cases w with
  | enter delta =>
    refine ⟨{ l with publisher := .work final (.inner delta now) }, ?_, ?_, ?_⟩
    · unfold publisherStep
      rw [hpc]
    · unfold erase
      rw [hpc]
      rfl
    · rintro ⟨final', w', he, hw'⟩
      cases he
      exact hw'
  | inner delta t => exact hw.elim
  | record delta t =>
    refine ⟨{ l with publisher := .drain final true, published := l.published ++ [⟨delta, t, now⟩] }, ?_, ?_, ?_⟩
    · unfold publisherStep
      rw [hpc]
    · unfold erase
      rw [hpc]
      rfl
    · rintro ⟨final', w', he, -⟩
      cases he

theorem publisherStep_erase (h : ¬ l.PublisherStamping) (now : TimePoint) :
    l.erase.publisherStep = (l.publisherStep now).map erase := by
  have hpc' : l.erase.publisher = l.publisher.bind RecordWork.erase := rfl
  -- both publishers take the step of the loop
  have hloop : (∀ final w, l.publisher ≠ .work final w) →
      l.erase.publisherStep = ((l.publisher.bind RecordWork.erase).step id l.decoderDone l.erase.outputQueue).map
        (fun x => { l.erase with outputQueue := x.1, publisher := x.2 }) →
      l.publisherStep now = (l.publisher.step .enter l.decoderDone l.outputQueue).map
        (fun x => { l with outputQueue := x.1, publisher := x.2 }) →
      l.erase.publisherStep = (l.publisherStep now).map erase := by
    intro hw h₁ h₂
    have hbody : ∀ final (x : TracedDelta), (RecordWork.enter x).erase final = .work final (id x.toBookDelta) :=
      fun _ _ => rfl
    have hstep : (l.publisher.bind RecordWork.erase).step id l.decoderDone l.erase.outputQueue = _ :=
      LoopPc.step_bind (q := l.outputQueue) hbody hw
    rw [h₁, h₂, hstep, Option.map_map, Option.map_map]
    rfl
  cases hpc : l.publisher with
  | work final w =>
    rw [hpc] at hpc'
    cases w with
    | enter delta => exact absurd ⟨final, _, hpc, trivial⟩ h
    | record delta t => exact absurd ⟨final, _, hpc, trivial⟩ h
    | inner delta t =>
      unfold Lane.publisherStep publisherStep
      rw [hpc', hpc]
      show some (_ : Lane) = some (_ : Lane)
      simp only [erase, LoopPc.bind, RecordWork.erase, List.map_append, List.map_cons, List.map_nil]
  | _ =>
    rw [hpc] at hpc' hloop
    refine hloop (fun _ _ h => by cases h) ?_ ?_
    · unfold Lane.publisherStep
      rw [hpc']
      rfl
    · unfold publisherStep
      rw [hpc]

end TracedLane

/-! ### The network thread -/

namespace TracedRunner
variable {s s' : TracedRunner n}

/-- The packet has been decoded; `t_decoded` and the message are on the way. -/
def NetStamping (s : TracedRunner n) : Prop := ∃ raw t msg, s.net = .decode raw t ∧ Mdfh.decode raw = .ok msg

/-- The message being routed is the one its packet holds. -/
def Decodes (s : TracedRunner n) : Prop := ∀ raw msg t t', s.net = .route raw msg t t' → Mdfh.decode raw = .ok msg

theorem erase_setLane (s : TracedRunner n) (i : Fin n.1) (l : TracedLane) :
    (s.setLane i l).erase = s.erase.setLane i l.erase := by
  have hlane : ∀ j, (Function.update s.lanes i l j).erase = Function.update (fun j => (s.lanes j).erase) i l.erase j := by
    intro j
    rw [Function.update_apply, Function.update_apply]
    split <;> rfl
  exact congrArg (fun lanes => { s.erase with lanes := lanes }) (funext hlane)

theorem erase_setQueue (s : TracedRunner n) (i : Fin n.1) (q : Ring TracedMessage kShardQueueCapacity) :
    (s.setQueue i q).erase = s.erase.setQueue i (q.map TracedMessage.toQueuedMessage) :=
  erase_setLane s i _

theorem netStep_stamping (h : s.NetStamping) : ∃ s', s.netStep = some s' ∧ s'.erase = s.erase ∧ ¬ s'.NetStamping := by
  obtain ⟨raw, t, msg, hpc, hd⟩ := h
  refine ⟨{ s with net := .route raw msg t s.now }, ?_, ?_, ?_⟩
  · unfold netStep
    rw [hpc]
    dsimp only
    rw [hd]
  · show ({ s.erase with net := .demux raw } : PipelineRunner n) = { s.erase with net := s.net.erase }
    rw [hpc]
    rfl
  · rintro ⟨raw', t', msg', hpc', -⟩
    cases hpc'

theorem netStep_route {raw : Bytes} {msg : DecodedMessage} {t t' : TimePoint} (hpc : s.net = .route raw msg t t')
    (hd : Mdfh.decode raw = .ok msg) : s.erase.netStep = s.netStep.map erase := by
  have hpc' : s.erase.net = .demux raw := by
    show s.net.erase = _
    rw [hpc]
    rfl
  unfold PipelineRunner.netStep netStep
  rw [hpc, hpc']
  dsimp only
  rw [hd]
  dsimp only
  have hr' : Mdfh.route s.erase.orderRoute msg = Mdfh.route s.orderRoute msg := rfl
  rw [hr']
  cases hr : Mdfh.route s.orderRoute msg with
  | error e => rfl
  | ok x =>
    obtain ⟨dest, r⟩ := x
    dsimp only
    set tm : TracedMessage := ⟨⟨dest.symbol, msg⟩, { tReceived := t, tDecoded := t', tDemuxed := s.now }⟩
    show (((s.lanes dest.shardIndex).queue.map _).step ((Ring.Act.push tm).map TracedMessage.toQueuedMessage)).map _ = _
    rw [Ring.step_map, Option.map_map, Option.map_map]
    refine congrArg (fun g => Option.map g _) (funext fun q => ?_)
    set l : TracedLane := { s.lanes dest.shardIndex with queue := q, demuxed := (s.lanes dest.shardIndex).demuxed ++ [tm] }
    have hl : l.erase = { s.erase.lanes dest.shardIndex with
        queue := q.map TracedMessage.toQueuedMessage,
        demuxed := (s.erase.lanes dest.shardIndex).demuxed ++ [tm.toQueuedMessage] } := by
      show ({ (s.lanes dest.shardIndex).erase with queue := _, demuxed := l.demuxed.map _ } : Lane) = _
      rw [List.map_append]
      rfl
    show _ = ({ (s.setLane dest.shardIndex l).erase with orderRoute := r, net := .pushing dest.shardIndex } : PipelineRunner n)
    rw [erase_setLane, hl]
    rfl

theorem netStep_pushing {i : Fin n.1} (hpc : s.net = .pushing i) : s.erase.netStep = s.netStep.map erase := by
  have hpc' : s.erase.net = .pushing i := by
    show s.net.erase = _
    rw [hpc]
    rfl
  have hpush : (s.erase.lanes i).queue.push = (s.lanes i).queue.push.map TracedMessage.toQueuedMessage := rfl
  unfold PipelineRunner.netStep netStep
  rw [hpc, hpc']
  dsimp only
  rw [hpush]
  cases (s.lanes i).queue.push with
  | idle => rfl
  | _ =>
    show ((s.lanes i).queue.map TracedMessage.toQueuedMessage).pushStep.map _ = ((s.lanes i).queue.pushStep.map _).map _
    rw [Ring.pushStep_map, Option.map_map, Option.map_map]
    exact congrArg (fun g => Option.map g _) (funext fun q => (erase_setQueue s i q).symm)

theorem netStep_erase (hd : s.Decodes) (h : ¬ s.NetStamping) : s.erase.netStep = s.netStep.map erase := by
  obtain ⟨lanes, orderRoute, feed, stopRequested, producerDone, net, now⟩ := s
  cases net with
  | checkStop => cases stopRequested <;> rfl
  | next => rcases feed with _ | ⟨_ | raw, rest⟩ <;> rfl
  | decode raw t =>
    cases hr : Mdfh.decode raw with
    | ok msg => exact absurd ⟨raw, t, msg, rfl, hr⟩ h
    | error e =>
      have hpc' : (TracedNetPc.decode raw t : TracedNetPc n).erase = .demux raw := rfl
      unfold PipelineRunner.netStep netStep erase
      rw [hpc']
      dsimp only
      rw [hr]
      rfl
  | route raw msg t t' => exact netStep_route rfl (hd raw msg t t' rfl)
  | pushing i => exact netStep_pushing rfl
  | suspended => rfl
  | storeDone => rfl
  | notify k =>
    by_cases hk : k < n.1
    · show (if h : k < n.1 then _ else _) = Option.map erase (if h : k < n.1 then _ else _)
      rw [dif_pos hk, dif_pos hk, Option.map_map]
      refine congrArg some ?_
      show _ = ({ (setQueue _ ⟨k, hk⟩ _).erase with net := .notify (k + 1) } : PipelineRunner n)
      rw [erase_setQueue]
      rfl
    · show (if h : k < n.1 then _ else _) = Option.map erase (if h : k < n.1 then _ else _)
      rw [dif_neg hk, dif_neg hk]
      rfl
  | finished => rfl

theorem Decodes.start (feed : List (Option Bytes)) (now : TimePoint) : (TracedRunner.start n feed now).Decodes := nofun

theorem Decodes.step (h : s.Decodes) {e : Event n} (hs : s.step e = some s') : s'.Decodes := by
  rcases e with d | _ | _ | i | i
  · cases hs; exact h
  · cases hs; exact h
  · cases netStep_cases hs with
    | move feed up hpc =>
      rintro raw msg t t' rfl
      exact hpc.elim
    | received hf => exact nofun
    | decoded hpc hd =>
      rintro raw msg t t' he
      cases he
      exact hd
    | routed hpc hl hqm hq => exact nofun
    | push hpc hp => exact h
    | notify hpc hn => exact nofun
  · obtain ⟨x, -, rfl⟩ := Option.map_eq_some_iff.1 hs
    exact h
  · obtain ⟨l, -, rfl⟩ := Option.map_eq_some_iff.1 hs
    exact h

/-! ### Runs -/

/-- The actor reads the clock next, and does nothing else. -/
def Stamping (s : TracedRunner n) : PipelineRunner.Actor n → Prop
  | .stop => False
  | .net => s.NetStamping
  | .decoder i => (s.lanes i).decoder.Stamping
  | .publisher i => (s.lanes i).PublisherStamping

theorem step_stamping {a : PipelineRunner.Actor n} (h : s.Stamping a) :
    ∃ s', s.step (.act a) = some s' ∧ s'.erase = s.erase ∧ ¬ s'.Stamping a := by
  have hset : ∀ i (l : TracedLane), l.erase = (s.lanes i).erase → (s.setLane i l).erase = s.erase := by
    intro i l hl
    rw [erase_setLane, hl]
    exact congrArg (fun lanes => { s.erase with lanes := lanes }) (Function.update_eq_self i s.erase.lanes)
  cases a with
  | stop => exact h.elim
  | net => exact netStep_stamping h
  | decoder i =>
    obtain ⟨l, hl, he, hn⟩ := TracedLane.decoderStep_stamping h s.now s.producerDone s.orderRoute
    refine ⟨s.setLane i l, ?_, hset i l he, ?_⟩
    · rw [step, hl]
      rfl
    · show ¬ (Function.update s.lanes i l i).decoder.Stamping
      rw [Function.update_self]
      exact hn
  | publisher i =>
    obtain ⟨l, hl, he, hn⟩ := TracedLane.publisherStep_stamping h s.now
    refine ⟨s.setLane i l, ?_, hset i l he, ?_⟩
    · rw [step, hl]
      rfl
    · show ¬ (Function.update s.lanes i l i).PublisherStamping
      rw [Function.update_self]
      exact hn

theorem step_erase (hd : s.Decodes) {a : PipelineRunner.Actor n} (h : ¬ s.Stamping a) :
    s.erase.step a = (s.step (.act a)).map erase := by
  cases a with
  | stop => rfl
  | net => exact netStep_erase hd h
  | decoder i =>
    show ((s.lanes i).erase.decoderStep s.producerDone s.orderRoute).map _ = _
    rw [TracedLane.decoderStep_erase h s.now, step, Option.map_map, Option.map_map]
    refine congrArg (fun g => Option.map g _) (funext fun x => ?_)
    show _ = ({ (s.setLane i x.1).erase with orderRoute := x.2 } : PipelineRunner n)
    rw [erase_setLane]
    rfl
  | publisher i =>
    show (s.lanes i).erase.publisherStep.map _ = _
    rw [TracedLane.publisherStep_erase h s.now, step, Option.map_map, Option.map_map]
    exact congrArg (fun g => Option.map g _) (funext fun l => (erase_setLane s i l).symm)

def Event.actor : Event n → Option (PipelineRunner.Actor n)
  | .tick _ => none
  | .act a => some a

/-- A step is seen as no step or as the step of its actor. -/
theorem step_seen (hd : s.Decodes) {e : Event n} (hs : s.step e = some s') :
    s'.erase = s.erase ∨ ∃ a, e.actor = some a ∧ s.erase.step a = some s'.erase := by
  cases e with
  | tick d =>
    cases hs
    exact .inl rfl
  | act a =>
    by_cases h : s.Stamping a
    · obtain ⟨s₁, hs₁, he, -⟩ := step_stamping h
      rw [hs] at hs₁
      cases hs₁
      exact .inl he
    · refine .inr ⟨a, rfl, ?_⟩
      rw [step_erase hd h, hs]
      rfl

theorem erase_start (feed : List (Option Bytes)) (now : TimePoint) :
    (TracedRunner.start n feed now).erase = PipelineRunner.start n feed := by
  have hlane : ({} : TracedLane).erase = {} := by
    have hqueue : ({} : Ring TracedMessage kShardQueueCapacity).map TracedMessage.toQueuedMessage = {} :=
      Ring.map_empty rfl
    have houtput : ({} : Ring TracedDelta kDeltaQueueCapacity).map TracedDelta.toBookDelta = {} := Ring.map_empty rfl
    unfold TracedLane.erase
    rw [hqueue, houtput]
    rfl
  exact congrArg (fun l => ({ lanes := fun _ => l, feed := feed } : PipelineRunner n)) hlane

/-- A traced run, seen without the stamps, is a run of the pipeline. -/
theorem exec_erase {feed : List (Option Bytes)} {now : TimePoint} {es : List (Event n)}
    (hrun : Runs.exec step (TracedRunner.start n feed now) es = some s) : ∃ acts : List (PipelineRunner.Actor n),
      acts.Sublist (es.filterMap Event.actor) ∧
        Runs.exec PipelineRunner.step (PipelineRunner.start n feed) acts = some s.erase := by
  have hkeep : ∀ (s : TracedRunner n) e s', s.Decodes → step s e = some s' → s'.Decodes := fun _ _ _ h hs => h.step hs
  rw [← erase_start feed now]
  exact Runs.exec_abstract hkeep (fun _ _ _ hd hs => step_seen hd hs) (Decodes.start feed now) hrun

open Classical in
/-- With the stamps erased the traced pipeline and the pipeline reach the same states. -/
theorem erase_reachable_iff (feed : List (Option Bytes)) (now : TimePoint) (s : PipelineRunner n) :
    (∃ es t, Runs.exec step (TracedRunner.start n feed now) es = some t ∧ t.erase = s) ↔
      ∃ acts, Runs.exec PipelineRunner.step (PipelineRunner.start n feed) acts = some s := by
  constructor
  · rintro ⟨es, t, hrun, rfl⟩
    obtain ⟨acts, -, ha⟩ := exec_erase hrun
    exact ⟨acts, ha⟩
  · rintro ⟨acts, hrun⟩
    have hkeep : ∀ (s : TracedRunner n) e s', s.Decodes → step s e = some s' → s'.Decodes := fun _ _ _ h hs => h.step hs
    rw [← erase_start feed now] at hrun
    refine Runs.exec_concrete (fun a s => if s.Stamping a then 1 else 0) hkeep (fun a s t hd hs => ?_)
      (Decodes.start feed now) hrun
    by_cases h : s.Stamping a
    · obtain ⟨s', hs', he, hn⟩ := step_stamping h
      refine ⟨.act a, s', hs', .inr ⟨he, ?_⟩⟩
      rw [if_pos h, if_neg hn]
      exact Nat.one_pos
    · rw [step_erase hd h] at hs
      obtain ⟨s', hs', he⟩ := Option.map_eq_some_iff.1 hs
      exact ⟨.act a, s', hs', .inl he⟩

end TracedRunner

end Mdfh
