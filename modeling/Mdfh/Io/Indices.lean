import Mdfh.Io.Shutdown

/-!
# The ring indices stay in range

A feed of fewer than `2 ^ 63` packets wraps no index: each packet is pushed to at most one input queue,
and a message reports at most two levels, so an output queue sees at most two deltas for each.
-/

namespace Mdfh
open LittleEndian (Bytes)

variable {n : NumShards}

theorem OrderBook.length_apply_le {b : OrderBook} {m : DecodedMessage} {ds : ApplyResult} (h : (b.apply m).1 = .ok ds) :
    ds.length ≤ 2 := by
  have hok : ∀ {ds' : ApplyResult} {b' : OrderBookT}, b.1.apply m = some (.ok ds', b') → ds = ds' := by
    intro ds' b' ha
    rw [(apply_eq ha).1] at h
    exact (Except.ok.inj h).symm
  by_cases ha : b.Accepts m
  · cases m with
    | add m =>
      obtain ⟨b', ha, -⟩ := b.2.applyAdd_ok m ha
      rw [hok ha]
      exact Nat.le_succ 1
    | cancel m =>
      obtain ⟨o, ho⟩ := b.2.hasOrder_iff_resting.1 ha
      obtain ⟨b', ha, -⟩ := b.2.applyCancel_ok m ho
      rw [hok ha]
      exact Nat.le_succ 1
    | execute m =>
      obtain ⟨o, ho, hx⟩ := ha
      by_cases hz : o.quantity - m.executedQuantity = 0
      · obtain ⟨b', ha, -⟩ := b.2.applyExecute_all m ho hx hz
        rw [hok ha]
        exact Nat.le_succ 1
      · obtain ⟨b', ha, -⟩ := b.2.applyExecute_rest m ho hx hz
        rw [hok ha]
        exact Nat.le_succ 1
    | replace m =>
      obtain ⟨o, ho⟩ := b.2.hasOrder_iff_resting.1 ha.1
      obtain ⟨_, b', ha, -⟩ := b.2.applyReplace_ok m ho ha.2
      rw [hok ha]
      exact le_rfl
  · obtain ⟨e, he, -⟩ := apply_of_not_accepts ha
    rw [he] at h
    cases h

theorem ShardState.length_deltasOf_le (s : ShardState) (qms : List QueuedMessage) :
    (s.deltasOf qms).length ≤ 2 * qms.length := by
  induction qms generalizing s with
  | nil => exact le_rfl
  | cons qm qms ih =>
    have hone : (qm.deltas (s.applyMessage qm).1).length ≤ 2 := by
      cases hr : (s.applyMessage qm).1 with
      | error e => exact Nat.zero_le _
      | ok ds =>
        rw [QueuedMessage.deltas, List.length_map]
        exact OrderBook.length_apply_le hr
    have := ih (s.applyMessage qm).2
    rw [deltasOf, List.length_append, List.length_cons]
    omega

theorem LaneStep.pushed_le {up closing : Bool} {l l' : Lane} (h : LaneStep up closing l l') :
    l'.queue.pushed.length ≤ l.queue.started.length ∧ l'.outputQueue.pushed.length ≤ l.outputQueue.started.length := by
  have hself : ∀ {α : Type} [Inhabited α] {cap : Nat} [NeZero cap] {q q' : Ring α cap}, q'.pushed = q.pushed →
      q'.pushed.length ≤ q.started.length := by
    intro α _ cap _ q q' e
    rw [e, Ring.started, List.length_append]
    exact Nat.le_add_right _ _
  have hpush : ∀ {α : Type} [Inhabited α] {cap : Nat} [NeZero cap] {q q' : Ring α cap}, q.pushStep = some q' →
      q'.pushed.length ≤ q.started.length := by
    intro α _ cap _ q q' hs
    rw [← (Ring.pushStep_frame hs).started, Ring.started, List.length_append]
    exact Nat.le_add_right _ _
  cases h with
  | decoder hs =>
    cases hs with
    | loop hpc hs => exact ⟨hself hs.producer.2, hself rfl⟩
    | push hpc hs => exact ⟨hself rfl, hpush hs⟩
    | notify hpc hs => cases hs; exact ⟨hself rfl, hself rfl⟩
    | _ => exact ⟨hself rfl, hself rfl⟩
  | publisher hs =>
    cases hs with
    | loop hs => exact ⟨hself rfl, hself hs.producer.2⟩
    | publish => exact ⟨hself rfl, hself rfl⟩
  | demux => exact ⟨hself rfl, hself rfl⟩
  | push hup hs => exact ⟨hpush hs, hself rfl⟩
  | notify hs => cases hs; exact ⟨hself rfl, hself rfl⟩

/-- Nothing is begun on an output queue that was not applied, nothing applied that was not demuxed. -/
theorem Lane.Inv.started_le {up : Bool} {l : Lane} (h : l.Inv up) :
    l.queue.started.length = l.demuxed.length ∧ l.outputQueue.started.length ≤ 2 * l.demuxed.length := by
  have hdem := congrArg List.length h.demuxed
  have happ := congrArg List.length h.applied
  have hout := congrArg List.length h.output
  have htotal := h.queue.total
  have hhead := h.queue.head_le
  have hdeltas := ShardState.length_deltasOf_le {} l.applied
  simp only [List.length_append, List.length_map] at happ hout
  have hstart : l.queue.pushed.length ≤ l.queue.started.length := by
    rw [Ring.started, List.length_append]
    exact Nat.le_add_right _ _
  exact ⟨hdem, by omega⟩

/-- The packet between `next_packet()` and the end of `demux`. -/
def NetPc.inHand : NetPc n → List Bytes
  | .demux raw => [raw]
  | _ => []

namespace PipelineRunner
variable {s s' : PipelineRunner n} {N : Nat}

/-- The invariant of a run over a feed of `N` packets. -/
structure Tracked (N : Nat) (s : PipelineRunner n) : Prop where
  turns : s.Turns
  lanes : ∀ i, (s.lanes i).Inv s.producerDone
  bound : ∀ i, (s.lanes i).demuxed.length + s.net.inHand.length + s.feed.length ≤ N

theorem Tracked.start (feed : List (Option Bytes)) : (PipelineRunner.start n feed).Tracked feed.length := by
  refine ⟨.start feed, fun _ => .start, fun i => ?_⟩
  show 0 + 0 + feed.length ≤ feed.length
  omega

theorem Tracked.inRange (h : s.Tracked N) (hN : 2 * N < 2 ^ 64) (i : Fin n.1) : s.InRange i := by
  have hlen := (h.lanes i).started_le
  have hb := h.bound i
  have hq : (s.lanes i).queue.pushed.length ≤ (s.lanes i).queue.started.length := by simp [Ring.started]
  have ho : (s.lanes i).outputQueue.pushed.length ≤ (s.lanes i).outputQueue.started.length := by simp [Ring.started]
  exact ⟨by omega, by omega⟩

theorem Tracked.inRange_step (h : s.Tracked N) (hN : 2 * N < 2 ^ 64) {a : Actor n} (hs : s.step a = some s')
    (i : Fin n.1) : s'.InRange i := by
  rcases lane_step hs i with ⟨hl, -⟩ | ⟨hl, -⟩
  · have hlen := (h.lanes i).started_le
    have hb := h.bound i
    have hpush := hl.pushed_le
    exact ⟨by omega, by omega⟩
  · rw [InRange, hl]
    exact h.inRange hN i

theorem Tracked.bound_net (h : s.Tracked N) (hs : NetStep s s') (i : Fin n.1) :
    (s'.lanes i).demuxed.length + s'.net.inHand.length + s'.feed.length ≤ N := by
  have hb := h.bound i
  have hqueue : ∀ {j : Fin n.1} {q : Ring QueuedMessage kShardQueueCapacity},
      ((s.setQueue j q).lanes i).demuxed = (s.lanes i).demuxed := by
    intro j q
    rw [setQueue, lanes_setLane]
    split
    · next hj => rw [hj]
    · rfl
  have hmove : ∀ {pc : NetPc n}, s.net = pc → pc.inHand = [] →
      (s.lanes i).demuxed.length + 0 + s.feed.length ≤ N := by
    rintro pc rfl hpc
    rw [hpc] at hb
    exact hb
  cases hs with
  | stopped hpc => exact hmove hpc rfl
  | running hpc => exact hmove hpc rfl
  | exhausted hpc => exact hmove hpc rfl
  | @lost rest hpc hf =>
    have := hmove hpc rfl
    rw [hf, List.length_cons] at this
    show (s.lanes i).demuxed.length + 0 + rest.length ≤ N
    omega
  | @packet raw rest hpc hf =>
    have := hmove hpc rfl
    rw [hf, List.length_cons] at this
    show (s.lanes i).demuxed.length + 1 + rest.length ≤ N
    omega
  | refused hpc =>
    show (s.lanes i).demuxed.length + 0 + s.feed.length ≤ N
    omega
  | @routed raw msg dest r hpc hd hr hq =>
    rw [hpc] at hb
    have hb' : (s.lanes i).demuxed.length + 1 + s.feed.length ≤ N := hb
    show ((s.setLane _ _).lanes i).demuxed.length + 0 + s.feed.length ≤ N
    rw [lanes_setLane]
    split
    · next hi =>
      rw [hi] at hb'
      rw [List.length_append, List.length_singleton]
      omega
    · omega
  | push hpc hp => rw [hqueue]; exact hb
  | pushed hpc hq => exact hmove hpc rfl
  | resumed hpc => exact hmove hpc rfl
  | done hpc => exact hmove hpc rfl
  | notify hpc hn =>
    show ((s.setQueue _ _).lanes i).demuxed.length + 0 + s.feed.length ≤ N
    rw [hqueue]
    exact hmove hpc rfl
  | finished hpc hk => exact hmove hpc rfl

theorem Tracked.step (h : s.Tracked N) (hN : 2 * N < 2 ^ 64) {a : Actor n} (hs : s.step a = some s') : s'.Tracked N := by
  refine ⟨h.turns.step hs, fun i => laneInv_step (h.lanes i) h.turns (h.inRange_step hN hs i) hs, fun i => ?_⟩
  have hset : ∀ {j : Fin n.1} {l : Lane}, l.demuxed = (s.lanes j).demuxed →
      ((s.setLane j l).lanes i).demuxed.length + s.net.inHand.length + s.feed.length ≤ N := by
    intro j l hl
    rw [lanes_setLane]
    split
    · next hj => rw [hl, ← hj]; exact h.bound i
    · exact h.bound i
  cases a with
  | stop => cases hs; exact h.bound i
  | net => exact h.bound_net (netStep_cases hs) i
  | decoder j =>
    obtain ⟨⟨l, r⟩, hl, rfl⟩ := Option.map_eq_some_iff.1 hs
    refine hset (l := l) ?_
    cases Lane.decoderStep_cases hl <;> rfl
  | publisher j =>
    obtain ⟨l, hl, rfl⟩ := Option.map_eq_some_iff.1 hs
    refine hset (l := l) ?_
    cases Lane.publisherStep_cases hl <;> rfl

end PipelineRunner

end Mdfh
