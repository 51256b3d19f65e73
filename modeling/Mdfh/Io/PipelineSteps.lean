import Mdfh.Io.PipelineRunner

/-!
# What a step of the running pipeline can do

The transitions of each thread with their guards, and which thread may be inside a `push`: the network
thread on the queue it is pushing to, a decoder on its own output queue while it outputs deltas. A
thread's flag is up exactly while it is past its store, so a queue whose upstream flag is up has no
`push` in progress.
-/

namespace Mdfh
open LittleEndian (Bytes)

variable {n : NumShards}

/-- The steps of a decoder thread, as far as its lane is concerned. -/
inductive DecoderStep (producerDone : Bool) (l : Lane) : Lane → Prop
  | loop {pc pc' : LoopPc DecodeWork} {q : Ring QueuedMessage kShardQueueCapacity} (hpc : l.decoder = .loop pc)
      (hs : LoopStep .apply producerDone l.queue pc q pc') :
    DecoderStep producerDone l { l with queue := q, decoder := .loop pc' }
  | apply {final : Bool} {qm : QueuedMessage} (hpc : l.decoder = .loop (.work final (.apply qm))) :
    DecoderStep producerDone l { l with
      state := (l.state.applyMessage qm).2,
      decoder := .loop (.work final (.cleanup qm (qm.deltas (l.state.applyMessage qm).1))),
      applied := l.applied ++ [qm] }
  | cleanup {final : Bool} {qm : QueuedMessage} {ds : List BookDelta}
      (hpc : l.decoder = .loop (.work final (.cleanup qm ds))) :
    DecoderStep producerDone l { l with decoder := .loop (.work final (.output ds)) }
  | begin {final : Bool} {d : BookDelta} {ds : List BookDelta}
      (hpc : l.decoder = .loop (.work final (.output (d :: ds)))) (hq : l.outputQueue.push = .idle) :
    DecoderStep producerDone l { l with
      outputQueue := { l.outputQueue with push := .loadTail d }, decoder := .loop (.work final (.output ds)) }
  | push {final : Bool} {ds : List BookDelta} {q : Ring BookDelta kDeltaQueueCapacity}
      (hpc : l.decoder = .loop (.work final (.output ds))) (hs : l.outputQueue.pushStep = some q) :
    DecoderStep producerDone l { l with outputQueue := q, decoder := .loop (.work final (.output ds)) }
  | finish {final : Bool} (hpc : l.decoder = .loop (.work final (.output []))) (hq : l.outputQueue.push = .idle) :
    DecoderStep producerDone l { l with decoder := .loop (.drain final true) }
  | leave (hpc : l.decoder = .loop .left) : DecoderStep producerDone l { l with decoderDone := true, decoder := .notify }
  | notify (hpc : l.decoder = .notify) {q : Ring BookDelta kDeltaQueueCapacity}
      (hs : l.outputQueue.step .notifyWaiters = some q) :
    DecoderStep producerDone l { l with outputQueue := q, decoder := .exited }

theorem Lane.decoderStep_cases {l l' : Lane} {up : Bool} {r r' : RouteTable n} (h : l.decoderStep up r = some (l', r')) :
    DecoderStep up l l' := by
  have hloop : ∀ {pc : LoopPc DecodeWork}, l.decoder = .loop pc →
      ((pc.step .apply up l.queue).map fun x => (({ l with queue := x.1, decoder := .loop x.2 } : Lane), r)) =
        some (l', r') → DecoderStep up l l' := by
    intro pc hpc h
    obtain ⟨⟨q, pc'⟩, hs, he⟩ := Option.map_eq_some_iff.1 h
    obtain ⟨rfl, -⟩ := Prod.mk.inj he
    exact .loop hpc (LoopPc.step_cases hs)
  unfold decoderStep at h
  cases hpc : l.decoder with
  | loop pc =>
    rw [hpc] at h
    cases pc with
    | drain final didWork => exact hloop hpc h
    | work final w =>
      cases w with
      | apply qm => cases h; exact .apply hpc
      | cleanup qm ds => cases h; exact .cleanup hpc
      | output ds =>
        dsimp only at h
        split at h
        · next hq => cases h; exact .finish hpc hq
        · next d ds hq =>
          rw [Ring.step, hq] at h
          cases h
          exact .begin hpc hq
        · obtain ⟨q, hs, he⟩ := Option.map_eq_some_iff.1 h
          obtain ⟨rfl, -⟩ := Prod.mk.inj he
          exact .push hpc hs
    | testDone => exact hloop hpc h
    | wait => exact hloop hpc h
    | waiting => exact hloop hpc h
    | left => cases h; exact .leave hpc
  | notify =>
    rw [hpc] at h
    obtain ⟨q, hs, he⟩ := Option.map_eq_some_iff.1 h
    obtain ⟨rfl, -⟩ := Prod.mk.inj he
    exact .notify hpc hs
  | exited => rw [hpc] at h; cases h

/-- The steps of a publisher thread. -/
inductive PublisherStep (l : Lane) : Lane → Prop
  | loop {pc : LoopPc BookDelta} {q : Ring BookDelta kDeltaQueueCapacity}
      (hs : LoopStep id l.decoderDone l.outputQueue l.publisher q pc) :
    PublisherStep l { l with outputQueue := q, publisher := pc }
  | publish {final : Bool} {delta : BookDelta} (hpc : l.publisher = .work final delta) :
    PublisherStep l { l with publisher := .drain final true, sink := l.sink ++ [delta] }

theorem Lane.publisherStep_cases {l l' : Lane} (h : l.publisherStep = some l') : PublisherStep l l' := by
  unfold publisherStep at h
  split at h
  · next final delta hpc => cases h; exact .publish hpc
  · obtain ⟨⟨q, pc⟩, hs, rfl⟩ := Option.map_eq_some_iff.1 h
    exact .loop (LoopPc.step_cases hs)

/-- The steps of the network I/O thread. -/
inductive NetStep (s : PipelineRunner n) : PipelineRunner n → Prop
  | stopped (hpc : s.net = .checkStop) : NetStep s { s with net := .storeDone }
  | running (hpc : s.net = .checkStop) : NetStep s { s with net := .next }
  | exhausted (hpc : s.net = .next) : NetStep s { s with net := .storeDone }
  | lost {rest : List (Option Bytes)} (hpc : s.net = .next) (hf : s.feed = none :: rest) :
    NetStep s { s with feed := rest, net := .suspended }
  | packet {raw : Bytes} {rest : List (Option Bytes)} (hpc : s.net = .next) (hf : s.feed = some raw :: rest) :
    NetStep s { s with feed := rest, net := .demux raw }
  | refused {raw : Bytes} (hpc : s.net = .demux raw) : NetStep s { s with net := .suspended }
  | routed {raw : Bytes} {msg : DecodedMessage} {dest : OrderRoute n} {r : RouteTable n} (hpc : s.net = .demux raw)
      (hd : decode raw = .ok msg) (hr : route s.orderRoute msg = .ok (dest, r))
      (hq : (s.lanes dest.shardIndex).queue.push = .idle) :
    NetStep s { s.setLane dest.shardIndex { s.lanes dest.shardIndex with
        queue := { (s.lanes dest.shardIndex).queue with push := .loadTail ⟨dest.symbol, msg⟩ },
        demuxed := (s.lanes dest.shardIndex).demuxed ++ [⟨dest.symbol, msg⟩] } with
      orderRoute := r, net := .pushing dest.shardIndex }
  | push {i : Fin n.1} {q : Ring QueuedMessage kShardQueueCapacity} (hpc : s.net = .pushing i)
      (hs : (s.lanes i).queue.pushStep = some q) : NetStep s (s.setQueue i q)
  | pushed {i : Fin n.1} (hpc : s.net = .pushing i) (hq : (s.lanes i).queue.push = .idle) :
    NetStep s { s with net := .suspended }
  | resumed (hpc : s.net = .suspended) : NetStep s { s with net := .checkStop }
  | done (hpc : s.net = .storeDone) : NetStep s { s with producerDone := true, net := .notify 0 }
  | notify {i : Fin n.1} {q : Ring QueuedMessage kShardQueueCapacity} (hpc : s.net = .notify i)
      (hs : (s.lanes i).queue.step .notifyWaiters = some q) :
    NetStep s { s.setQueue i q with net := .notify (i + 1) }
  | finished {k : Nat} (hpc : s.net = .notify k) (hk : n.1 ≤ k) : NetStep s { s with net := .finished }

theorem PipelineRunner.netStep_cases {s s' : PipelineRunner n} (h : s.netStep = some s') : NetStep s s' := by
  unfold netStep at h
  cases hpc : s.net with
  | checkStop =>
    rw [hpc] at h
    cases h
    split
    · exact .stopped hpc
    · exact .running hpc
  | next =>
    rw [hpc] at h
    dsimp only at h
    split at h
    · cases h; exact .exhausted hpc
    · next rest hf => cases h; exact .lost hpc hf
    · next raw rest hf => cases h; exact .packet hpc hf
  | demux raw =>
    rw [hpc] at h
    dsimp only at h
    split at h
    · next msg hd =>
      split at h
      · next dest r hr =>
        obtain ⟨q, hs, rfl⟩ := Option.map_eq_some_iff.1 h
        obtain ⟨hq, rfl⟩ := Ring.step_push hs
        exact .routed hpc hd hr hq
      · cases h; exact .refused hpc
    · cases h; exact .refused hpc
  | pushing i =>
    rw [hpc] at h
    dsimp only at h
    split at h
    · next hq => cases h; exact .pushed hpc hq
    · obtain ⟨q, hs, rfl⟩ := Option.map_eq_some_iff.1 h
      exact .push hpc hs
  | suspended => rw [hpc] at h; cases h; exact .resumed hpc
  | storeDone => rw [hpc] at h; cases h; exact .done hpc
  | notify k =>
    rw [hpc] at h
    dsimp only at h
    split at h
    · next hk =>
      obtain ⟨q, hs, rfl⟩ := Option.map_eq_some_iff.1 h
      exact .notify (i := ⟨k, hk⟩) hpc hs
    · next hk => cases h; exact .finished hpc (by omega)
  | finished => rw [hpc] at h; cases h

/-! ### Who is inside a push -/

def NetPc.closing : NetPc n → Bool
  | .notify _ => true
  | .finished => true
  | _ => false

def DecoderPc.closing : DecoderPc → Bool
  | .loop _ => false
  | .notify => true
  | .exited => true

structure Lane.Turns (l : Lane) : Prop where
  output : l.outputQueue.push ≠ .idle → ∃ final ds, l.decoder = .loop (.work final (.output ds))
  done : l.decoderDone = l.decoder.closing

structure PipelineRunner.Turns (s : PipelineRunner n) : Prop where
  lanes : ∀ i, (s.lanes i).Turns
  busy : ∀ i, (s.lanes i).queue.push ≠ .idle → s.net = .pushing i
  done : s.producerDone = s.net.closing

namespace Lane.Turns
variable {l l' : Lane}

theorem idle (h : l.Turns) (hpc : ∀ final ds, l.decoder ≠ .loop (.work final (.output ds))) :
    l.outputQueue.push = .idle := by
  by_contra hne
  obtain ⟨final, ds, he⟩ := h.output hne
  exact hpc final ds he

theorem decoder (h : l.Turns) {up : Bool} (hs : DecoderStep up l l') : l'.Turns ∧ l'.queue.push = l.queue.push := by
  have hdone := h.done
  cases hs with
  | loop hpc hs =>
    have hidle : l.outputQueue.push = .idle := by
      refine h.idle fun final ds he => ?_
      rw [hpc] at he
      cases he
      cases hs
    rw [hpc] at hdone
    exact ⟨⟨fun hne => absurd hidle hne, hdone⟩, hs.producer.1⟩
  | apply hpc =>
    rw [hpc] at hdone
    exact ⟨⟨fun hne => absurd (h.idle (by simp [hpc])) hne, hdone⟩, rfl⟩
  | cleanup hpc =>
    rw [hpc] at hdone
    exact ⟨⟨fun _ => ⟨_, _, rfl⟩, hdone⟩, rfl⟩
  | begin hpc hq =>
    rw [hpc] at hdone
    exact ⟨⟨fun _ => ⟨_, _, rfl⟩, hdone⟩, rfl⟩
  | push hpc hs =>
    rw [hpc] at hdone
    exact ⟨⟨fun _ => ⟨_, _, rfl⟩, hdone⟩, rfl⟩
  | finish hpc hq =>
    rw [hpc] at hdone
    exact ⟨⟨fun hne => absurd hq hne, hdone⟩, rfl⟩
  | leave hpc => exact ⟨⟨fun hne => absurd (h.idle (by simp [hpc])) hne, rfl⟩, rfl⟩
  | notify hpc hs =>
    rw [hpc] at hdone
    cases hs
    exact ⟨⟨fun hne => absurd (h.idle (by simp [hpc])) hne, hdone⟩, rfl⟩

theorem publisher (h : l.Turns) (hs : PublisherStep l l') : l'.Turns ∧ l'.queue.push = l.queue.push := by
  cases hs with
  | loop hs =>
    refine ⟨⟨fun hne => h.output ?_, h.done⟩, rfl⟩
    rw [← hs.producer.1]
    exact hne
  | publish hpc => exact ⟨⟨h.output, h.done⟩, rfl⟩

end Lane.Turns

/-- What happens to one lane in a step of the system; the flags are `producer_done` before the step and
whether the network thread is past its store. -/
inductive LaneStep (up closing : Bool) (l : Lane) : Lane → Prop
  | decoder {l' : Lane} (hs : DecoderStep up l l') : LaneStep up closing l l'
  | publisher {l' : Lane} (hs : PublisherStep l l') : LaneStep up closing l l'
  | demux {qm : QueuedMessage} (hup : closing = false) (hq : l.queue.push = .idle) :
    LaneStep up closing l { l with queue := { l.queue with push := .loadTail qm }, demuxed := l.demuxed ++ [qm] }
  | push {q : Ring QueuedMessage kShardQueueCapacity} (hup : closing = false) (hs : l.queue.pushStep = some q) :
    LaneStep up closing l { l with queue := q }
  | notify {q : Ring QueuedMessage kShardQueueCapacity} (hs : l.queue.step .notifyWaiters = some q) :
    LaneStep up closing l { l with queue := q }

theorem LaneStep.grows {up closing : Bool} {l l' : Lane} (h : LaneStep up closing l l') :
    l.queue.pushed <+: l'.queue.pushed ∧ l.outputQueue.pushed <+: l'.outputQueue.pushed := by
  have hrfl : ∀ {α : Type} {xs ys : List α}, ys = xs → xs <+: ys := fun e => e ▸ List.prefix_refl _
  cases h with
  | decoder hs =>
    cases hs with
    | loop hpc hs => exact ⟨hrfl hs.producer.2, hrfl rfl⟩
    | apply => exact ⟨hrfl rfl, hrfl rfl⟩
    | cleanup => exact ⟨hrfl rfl, hrfl rfl⟩
    | begin => exact ⟨hrfl rfl, hrfl rfl⟩
    | push hpc hs => exact ⟨hrfl rfl, (Ring.pushStep_frame hs).pushed⟩
    | finish => exact ⟨hrfl rfl, hrfl rfl⟩
    | leave => exact ⟨hrfl rfl, hrfl rfl⟩
    | notify hpc hs => exact ⟨hrfl rfl, Ring.pushed_grows hs⟩
  | publisher hs =>
    cases hs with
    | loop hs => exact ⟨hrfl rfl, hrfl hs.producer.2⟩
    | publish => exact ⟨hrfl rfl, hrfl rfl⟩
  | demux => exact ⟨hrfl rfl, hrfl rfl⟩
  | push hup hs => exact ⟨(Ring.pushStep_frame hs).pushed, hrfl rfl⟩
  | notify hs => exact ⟨Ring.pushed_grows hs, hrfl rfl⟩

namespace PipelineRunner
variable {s s' : PipelineRunner n}

theorem lanes_setLane (i : Fin n.1) (l : Lane) (j : Fin n.1) :
    (s.setLane i l).lanes j = if j = i then l else s.lanes j := by
  simp [setLane, Function.update_apply]

/-- A step of the system leaves a lane alone or is one of the steps on it; only the store of the network
thread changes the flag. -/
theorem lane_step {a : Actor n} (hs : s.step a = some s') (i : Fin n.1) :
    (LaneStep s.producerDone s.net.closing (s.lanes i) (s'.lanes i) ∧ s'.producerDone = s.producerDone) ∨
      (s'.lanes i = s.lanes i ∧
        (s'.producerDone = s.producerDone ∨ s'.producerDone = true ∧ s.net = .storeDone)) := by
  have hset : ∀ {j : Fin n.1} {l : Lane}, LaneStep s.producerDone s.net.closing (s.lanes j) l →
      LaneStep s.producerDone s.net.closing (s.lanes i) ((s.setLane j l).lanes i) ∨
        (s.setLane j l).lanes i = s.lanes i := by
    intro j l hl
    rw [lanes_setLane]
    split
    · next hij => rw [hij]; exact .inl hl
    · exact .inr rfl
  cases a with
  | stop => cases hs; exact .inr ⟨rfl, .inl rfl⟩
  | decoder j =>
    obtain ⟨⟨l, r⟩, hl, rfl⟩ := Option.map_eq_some_iff.1 hs
    exact (hset (.decoder (Lane.decoderStep_cases hl))).imp (⟨·, rfl⟩) (⟨·, .inl rfl⟩)
  | publisher j =>
    obtain ⟨l, hl, rfl⟩ := Option.map_eq_some_iff.1 hs
    exact (hset (.publisher (Lane.publisherStep_cases hl))).imp (⟨·, rfl⟩) (⟨·, .inl rfl⟩)
  | net =>
    cases netStep_cases hs with
    | stopped => exact .inr ⟨rfl, .inl rfl⟩
    | running => exact .inr ⟨rfl, .inl rfl⟩
    | exhausted => exact .inr ⟨rfl, .inl rfl⟩
    | lost => exact .inr ⟨rfl, .inl rfl⟩
    | packet => exact .inr ⟨rfl, .inl rfl⟩
    | refused => exact .inr ⟨rfl, .inl rfl⟩
    | routed hpc hd hr hq => exact (hset (.demux (by rw [hpc]; rfl) hq)).imp (⟨·, rfl⟩) (⟨·, .inl rfl⟩)
    | push hpc hp => exact (hset (.push (by rw [hpc]; rfl) hp)).imp (⟨·, rfl⟩) (⟨·, .inl rfl⟩)
    | pushed => exact .inr ⟨rfl, .inl rfl⟩
    | resumed => exact .inr ⟨rfl, .inl rfl⟩
    | done hpc => exact .inr ⟨rfl, .inr ⟨rfl, hpc⟩⟩
    | notify hpc hn => exact (hset (.notify hn)).imp (⟨·, rfl⟩) (⟨·, .inl rfl⟩)
    | finished => exact .inr ⟨rfl, .inl rfl⟩

namespace Turns

theorem start (feed : List (Option Bytes)) : (PipelineRunner.start n feed).Turns :=
  ⟨fun _ => ⟨fun h => absurd rfl h, rfl⟩, fun _ h => absurd rfl h, rfl⟩

theorem setLane (h : s.Turns) {i : Fin n.1} {l : Lane} (hl : l.Turns) (hq : l.queue.push = (s.lanes i).queue.push)
    (r : RouteTable n) : Turns { s.setLane i l with orderRoute := r } := by
  refine ⟨fun j => ?_, fun j hj => ?_, h.done⟩
  · show ((s.setLane i l).lanes j).Turns
    rw [lanes_setLane]
    split
    · exact hl
    · exact h.lanes j
  · refine h.busy j ?_
    have hj' : ((s.setLane i l).lanes j).queue.push ≠ .idle := hj
    rw [lanes_setLane] at hj'
    split at hj'
    · next hji => rw [hji, ← hq]; exact hj'
    · exact hj'

theorem setNet (h : s.Turns) (feed : List (Option Bytes)) {pc : NetPc n} {up : Bool} (hup : up = pc.closing)
    (hbusy : ∀ i, (s.lanes i).queue.push = .idle) :
    Turns { s with net := pc, feed := feed, producerDone := up } :=
  ⟨h.lanes, fun i hi => absurd (hbusy i) hi, hup⟩

theorem idle (h : s.Turns) {i : Fin n.1} (hpc : s.net ≠ .pushing i) : (s.lanes i).queue.push = .idle := by
  by_contra hne
  exact hpc (h.busy i hne)

/-- Between two packets, and once the feed is over, every shard queue is quiet. -/
theorem quiet (h : s.Turns) (hpc : ∀ i, s.net ≠ .pushing i) (i : Fin n.1) : (s.lanes i).queue.push = .idle :=
  h.idle (hpc i)

theorem net (h : s.Turns) (hs : NetStep s s') : s'.Turns := by
  have hdone := h.done
  cases hs with
  | stopped hpc => rw [hpc] at hdone; exact h.setNet _ hdone (h.quiet (by simp [hpc]))
  | running hpc => rw [hpc] at hdone; exact h.setNet _ hdone (h.quiet (by simp [hpc]))
  | exhausted hpc => rw [hpc] at hdone; exact h.setNet _ hdone (h.quiet (by simp [hpc]))
  | lost hpc => rw [hpc] at hdone; exact h.setNet _ hdone (h.quiet (by simp [hpc]))
  | packet hpc => rw [hpc] at hdone; exact h.setNet _ hdone (h.quiet (by simp [hpc]))
  | refused hpc => rw [hpc] at hdone; exact h.setNet _ hdone (h.quiet (by simp [hpc]))
  | @routed raw msg dest r hpc hd hr hq =>
    rw [hpc] at hdone
    refine ⟨fun j => ?_, fun j hj => ?_, hdone⟩
    · show ((s.setLane _ _).lanes j).Turns
      rw [lanes_setLane]
      split
      · exact ⟨(h.lanes dest.shardIndex).output, (h.lanes dest.shardIndex).done⟩
      · exact h.lanes j
    · have hj' : ((s.setLane dest.shardIndex { s.lanes dest.shardIndex with
          queue := { (s.lanes dest.shardIndex).queue with push := .loadTail ⟨dest.symbol, msg⟩ },
          demuxed := (s.lanes dest.shardIndex).demuxed ++ [⟨dest.symbol, msg⟩] }).lanes j).queue.push ≠ .idle := hj
      rw [lanes_setLane] at hj'
      split at hj'
      · next hji => rw [hji]
      · exact absurd (h.quiet (by simp [hpc]) j) hj'
  | @push i q hpc hs =>
    refine ⟨fun j => ?_, fun j hj => ?_, hdone⟩
    · show ((s.setLane i _).lanes j).Turns
      rw [lanes_setLane]
      split
      · exact ⟨(h.lanes i).output, (h.lanes i).done⟩
      · exact h.lanes j
    · by_cases hji : j = i
      · rw [hji]
        exact hpc
      · have hj' : ((s.setLane i { s.lanes i with queue := q }).lanes j).queue.push ≠ .idle := hj
        rw [lanes_setLane, if_neg hji] at hj'
        exact h.busy j hj'
  | pushed hpc hq =>
    rw [hpc] at hdone
    refine h.setNet _ hdone fun j => ?_
    by_contra hne
    have := h.busy j hne
    rw [hpc] at this
    cases this
    exact hne hq
  | resumed hpc => rw [hpc] at hdone; exact h.setNet _ hdone (h.quiet (by simp [hpc]))
  | done hpc => exact h.setNet _ rfl (h.quiet (by simp [hpc]))
  | @notify i q hpc hs =>
    rw [hpc] at hdone
    cases hs
    have := h.setLane (i := i) (l := { s.lanes i with queue := { (s.lanes i).queue with
      mem := { (s.lanes i).queue.mem with wakeGeneration := (s.lanes i).queue.mem.wakeGeneration + 1 } } }) ⟨(h.lanes i).output, (h.lanes i).done⟩ rfl s.orderRoute
    exact this.setNet s.feed hdone (this.quiet (fun j => by simp [PipelineRunner.setLane, hpc]))
  | finished hpc => rw [hpc] at hdone; exact h.setNet _ hdone (h.quiet (by simp [hpc]))

theorem step (h : s.Turns) {a : Actor n} (hs : s.step a = some s') : s'.Turns := by
  cases a with
  | stop => cases hs; exact ⟨h.lanes, h.busy, h.done⟩
  | net => exact h.net (netStep_cases hs)
  | decoder i =>
    obtain ⟨⟨l, r⟩, hl, rfl⟩ := Option.map_eq_some_iff.1 hs
    obtain ⟨ht, hq⟩ := (h.lanes i).decoder (Lane.decoderStep_cases hl)
    exact h.setLane ht hq r
  | publisher i =>
    obtain ⟨l, hl, rfl⟩ := Option.map_eq_some_iff.1 hs
    obtain ⟨ht, hq⟩ := (h.lanes i).publisher (Lane.publisherStep_cases hl)
    exact h.setLane ht hq s.orderRoute

end Turns
end PipelineRunner

end Mdfh
