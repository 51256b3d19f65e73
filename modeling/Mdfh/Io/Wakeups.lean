import Mdfh.Io.PipelineSteps

/-!
# Shutdown and lost wake-ups

`wait_for_data()` reads the wake generation, checks the queue once more and sleeps while the generation
is what it read. The upstream thread raises its flag and then increments the generation one last time.
A consumer that read the generation before that increment is woken by it. But the flag was tested
before the call: a consumer that found it down and reads the generation only after the last increment
sleeps on a value that nobody changes again. Every other order is safe.
-/

namespace Mdfh
open LittleEndian (Bytes)

variable {α ω : Type} [Inhabited α] {cap : Nat} [NeZero cap] {n : NumShards}

/-- Outside these three points of `wait_for_data` nobody is asleep. -/
def PopPc.awake : PopPc α → Bool
  | .recheckTail _ => false
  | .recheckHead _ _ => false
  | .blocked _ => false
  | _ => true

namespace Ring

/-- The consumer sleeps, or goes to sleep unless something changes, while the generation is `gen`. -/
def DoomedAt (q : Ring α cap) (gen : UInt64) : Prop :=
  q.pop = .blocked gen ∨ q.pop = .recheckHead gen q.mem.head ∨ q.pop = .recheckTail gen ∧ q.mem.tail = q.mem.head

def Doomed (q : Ring α cap) : Prop := q.DoomedAt q.mem.wakeGeneration

/-- The consumer is about to read the generation, and the queue is empty. -/
def SnapshotOfEmpty (q : Ring α cap) : Prop := q.pop = .snapshot ∧ q.mem.tail = q.mem.head

instance [DecidableEq α] (q : Ring α cap) (gen : UInt64) : Decidable (q.DoomedAt gen) :=
  inferInstanceAs (Decidable (_ ∨ _ ∨ _))

instance [DecidableEq α] (q : Ring α cap) : Decidable q.SnapshotOfEmpty := inferInstanceAs (Decidable (_ ∧ _))

variable {q q' : Ring α cap}

omit [NeZero cap] in
theorem not_doomed (h : q.pop.awake = true) : ¬ q.Doomed := by
  rintro (hp | hp | ⟨hp, -⟩) <;> rw [hp] at h <;> cases h

theorem Doomed.of_popStep (hs : q.popStep = some q') (hd : q'.Doomed) : q.Doomed ∨ q.SnapshotOfEmpty := by
  cases popStep_cases hs with
  | loadHead => exact absurd hd (not_doomed rfl)
  | empty => exact absurd hd (not_doomed rfl)
  | nonEmpty => exact absurd hd (not_doomed rfl)
  | announce => exact absurd hd (not_doomed rfl)
  | claimWon => exact absurd hd (not_doomed rfl)
  | claimLost => exact absurd hd (not_doomed rfl)
  | retract => exact absurd hd (not_doomed rfl)
  | read => exact absurd hd (not_doomed rfl)
  | release => exact absurd hd (not_doomed rfl)
  | waitTail => exact absurd hd (not_doomed rfl)
  | waitEmpty => exact absurd hd (not_doomed rfl)
  | waitNonEmpty => exact absurd hd (not_doomed rfl)
  | snapshot hpc =>
    rcases hd with hp | hp | ⟨-, hempty⟩
    · cases hp
    · cases hp
    · exact .inr ⟨hpc, hempty⟩
  | recheckTail hpc =>
    rcases hd with hp | hp | ⟨hp, -⟩
    · cases hp
    · obtain ⟨hg, hempty⟩ := PopPc.recheckHead.inj hp
      exact .inl (.inr (.inr ⟨by rw [hpc, hg], hempty⟩))
    · cases hp
  | block hpc =>
    rcases hd with hp | hp | ⟨hp, -⟩
    · have hg := PopPc.blocked.inj hp
      exact .inl (.inr (.inl (by rw [hpc, hg])))
    · cases hp
    · cases hp
  | recheckNonEmpty => exact absurd hd (not_doomed rfl)
  | woken => exact absurd hd (not_doomed rfl)

end Ring

/-- In the loop of a consumer only the late snapshot leads to a sleep without end. -/
theorem LoopStep.doomed {body : α → ω} {done : Bool} {q q' : Ring α cap} {pc pc' : LoopPc ω}
    (h : LoopStep body done q pc q' pc') (hd : q'.Doomed) : q.Doomed ∨ q.SnapshotOfEmpty := by
  cases h with
  | call => exact absurd hd (Ring.not_doomed rfl)
  | pop hs => exact hd.of_popStep hs
  | again => exact absurd hd (Ring.not_doomed rfl)
  | test => exact absurd hd (Ring.not_doomed rfl)
  | leave => exact absurd hd (Ring.not_doomed rfl)
  | take => exact absurd hd (Ring.not_doomed rfl)
  | redrain => exact .inl hd
  | block => exact .inl hd
  | wait => exact absurd hd (Ring.not_doomed rfl)
  | woken => exact .inl hd
  | waiting hs => exact hd.of_popStep hs

/-- The last `notify_waiters()` on the queue of shard `i` is over. -/
def NetPc.past (i : Fin n.1) : NetPc n → Bool
  | .notify k => i < k
  | .finished => true
  | _ => false

namespace PipelineRunner

/-- An upstream thread has finished and its downstream thread sleeps on the current generation. -/
def Stuck (s : PipelineRunner n) : Prop :=
  ∃ i, (s.net = .finished ∧ (s.lanes i).decoder = .loop .waiting ∧
      (s.lanes i).queue.pop = .blocked (s.lanes i).queue.mem.wakeGeneration) ∨
    ((s.lanes i).decoder = .exited ∧ (s.lanes i).publisher = .waiting ∧
      (s.lanes i).outputQueue.pop = .blocked (s.lanes i).outputQueue.mem.wakeGeneration)

/-- The step reads the generation of an empty queue after the upstream thread's last increment; or it is
that increment, and brings the generation round to a value the waiting consumer has read before. -/
def MissesWakeup (s : PipelineRunner n) : Actor n → Prop
  | .stop => False
  | .net => ∃ i : Fin n.1, s.net = .notify i ∧ (s.lanes i).queue.DoomedAt ((s.lanes i).queue.mem.wakeGeneration + 1)
  | .decoder i => s.net.past i ∧ (s.lanes i).queue.SnapshotOfEmpty ∨
    (s.lanes i).decoder = .notify ∧
      (s.lanes i).outputQueue.DoomedAt ((s.lanes i).outputQueue.mem.wakeGeneration + 1)
  | .publisher i => (s.lanes i).decoder = .exited ∧ (s.lanes i).outputQueue.SnapshotOfEmpty

/-- After the last increment on a queue, its consumer is not on its way to a sleep without end. -/
def Awake (s : PipelineRunner n) (i : Fin n.1) : Prop :=
  (s.net.past i → ¬ (s.lanes i).queue.Doomed) ∧ ((s.lanes i).decoder = .exited → ¬ (s.lanes i).outputQueue.Doomed)

variable {s s' : PipelineRunner n}

theorem Awake.decoder {i : Fin n.1} {l : Lane} (h : s.Awake i) (hm : ¬ s.MissesWakeup (.decoder i))
    (hs : DecoderStep s.producerDone (s.lanes i) l) :
    (s.net.past i → ¬ l.queue.Doomed) ∧ (l.decoder = .exited → ¬ l.outputQueue.Doomed) := by
  obtain ⟨hq, ho⟩ := h
  cases hs with
  | loop hpc hs =>
    refine ⟨fun hp hd => ?_, fun he => DecoderPc.noConfusion he⟩
    rcases hs.doomed hd with hd | hd
    · exact hq hp hd
    · exact hm (.inl ⟨hp, hd⟩)
  | apply => exact ⟨hq, fun he => DecoderPc.noConfusion he⟩
  | cleanup => exact ⟨hq, fun he => DecoderPc.noConfusion he⟩
  | begin => exact ⟨hq, fun he => DecoderPc.noConfusion he⟩
  | push => exact ⟨hq, fun he => DecoderPc.noConfusion he⟩
  | finish => exact ⟨hq, fun he => DecoderPc.noConfusion he⟩
  | leave => exact ⟨hq, fun he => DecoderPc.noConfusion he⟩
  | notify hpc hs =>
    cases hs
    exact ⟨hq, fun _ hd => hm (.inr ⟨hpc, hd⟩)⟩

theorem Awake.publisher {i : Fin n.1} {l : Lane} (h : s.Awake i) (hm : ¬ s.MissesWakeup (.publisher i))
    (hs : PublisherStep (s.lanes i) l) :
    (s.net.past i → ¬ l.queue.Doomed) ∧ (l.decoder = .exited → ¬ l.outputQueue.Doomed) := by
  obtain ⟨hq, ho⟩ := h
  cases hs with
  | loop hs =>
    refine ⟨hq, fun he hd => ?_⟩
    rcases hs.doomed hd with hd | hd
    · exact ho he hd
    · exact hm ⟨he, hd⟩
  | publish => exact ⟨hq, ho⟩

theorem Awake.net {i : Fin n.1} (h : s.Awake i) (hm : ¬ s.MissesWakeup .net) (hs : NetStep s s') : s'.Awake i := by
  obtain ⟨hq, ho⟩ := h
  have hset : ∀ {j : Fin n.1} {q : Ring QueuedMessage kShardQueueCapacity} {ds : List QueuedMessage},
      ((s.setLane j { s.lanes j with queue := q, demuxed := ds }).lanes i).decoder = .exited →
        ¬ ((s.setLane j { s.lanes j with queue := q, demuxed := ds }).lanes i).outputQueue.Doomed := by
    intro j q ds
    rw [lanes_setLane]
    split
    · next hij => rw [← hij]; exact ho
    · exact ho
  cases hs with
  | stopped => exact ⟨nofun, ho⟩
  | running => exact ⟨nofun, ho⟩
  | exhausted => exact ⟨nofun, ho⟩
  | lost => exact ⟨nofun, ho⟩
  | packet => exact ⟨nofun, ho⟩
  | refused => exact ⟨nofun, ho⟩
  | routed => exact ⟨nofun, hset⟩
  | push hpc =>
    refine ⟨fun hp => ?_, hset⟩
    have hp' : s.net.past i := hp
    rw [hpc] at hp'
    cases hp'
  | pushed => exact ⟨nofun, ho⟩
  | resumed => exact ⟨nofun, ho⟩
  | done => exact ⟨fun hp => absurd (of_decide_eq_true (p := (i : Nat) < 0) hp) (Nat.not_lt_zero _), ho⟩
  | @notify j q hpc hs =>
    refine ⟨fun hp => ?_, hset⟩
    show ¬ ((s.setLane j _).lanes i).queue.Doomed
    rw [lanes_setLane]
    split
    · next hij =>
      cases hs
      exact fun hd => hm ⟨j, hpc, hd⟩
    · next hij =>
      refine hq ?_
      rw [hpc]
      have hlt : (i : Nat) < j + 1 := of_decide_eq_true hp
      have hne : (i : Nat) ≠ j := fun e => hij (Fin.ext e)
      exact decide_eq_true (show (i : Nat) < j by omega)
  | finished hpc hk =>
    refine ⟨fun _ => hq ?_, ho⟩
    rw [hpc]
    exact decide_eq_true (i.2.trans_le hk)

theorem Awake.step {i : Fin n.1} (h : s.Awake i) {a : Actor n} (hm : ¬ s.MissesWakeup a) (hs : s.step a = some s') :
    s'.Awake i := by
  have hlane : ∀ {j : Fin n.1} {l : Lane}, (j = i → (s.net.past i → ¬ l.queue.Doomed) ∧
      (l.decoder = .exited → ¬ l.outputQueue.Doomed)) → (s.setLane j l).Awake i := by
    intro j l hl
    show (s.net.past i → ¬ ((s.setLane j l).lanes i).queue.Doomed) ∧ _
    rw [lanes_setLane]
    split
    · next hij => exact hl hij.symm
    · exact h
  cases a with
  | stop => cases hs; exact h
  | net => exact h.net hm (netStep_cases hs)
  | decoder j =>
    obtain ⟨⟨l, r⟩, hl, rfl⟩ := Option.map_eq_some_iff.1 hs
    refine hlane fun hj => ?_
    subst hj
    exact h.decoder hm (Lane.decoderStep_cases hl)
  | publisher j =>
    obtain ⟨l, hl, rfl⟩ := Option.map_eq_some_iff.1 hs
    refine hlane fun hj => ?_
    subst hj
    exact h.publisher hm (Lane.publisherStep_cases hl)

theorem Awake.start (feed : List (Option Bytes)) (i : Fin n.1) : (PipelineRunner.start n feed).Awake i :=
  ⟨nofun, fun h => DecoderPc.noConfusion h⟩

/-- Runs in which no thread misses its last wake-up do not get stuck. -/
theorem not_stuck (feed : List (Option Bytes)) (acts : List (Actor n)) (s : PipelineRunner n)
    (hrun : Runs.exec step (PipelineRunner.start n feed) acts = some s)
    (hwake : Runs.EachStep step (fun s a => ¬ s.MissesWakeup a) (PipelineRunner.start n feed) acts) : ¬ s.Stuck := by
  have hawake : ∀ i, s.Awake i := by
    intro i
    exact Runs.invariant_under (P := fun s : PipelineRunner n => s.Awake i) (C := fun s a => ¬ s.MissesWakeup a)
      (fun _ _ _ h hm hs => h.step hm hs) (.start feed i) hrun hwake
  rintro ⟨i, ⟨hnet, -, hpop⟩ | ⟨hdec, -, hpop⟩⟩
  · refine (hawake i).1 ?_ (.inl hpop)
    rw [hnet]
    rfl
  · exact (hawake i).2 hdec (.inl hpop)

instance (s : PipelineRunner n) (a : Actor n) : Decidable (s.MissesWakeup a) :=
  match a with
  | .stop => inferInstanceAs (Decidable False)
  | .net => inferInstanceAs (Decidable (∃ i : Fin n.1, s.net = .notify i ∧ _))
  | .decoder _ => inferInstanceAs (Decidable (_ ∧ _ ∨ _ ∧ _))
  | .publisher _ => inferInstanceAs (Decidable (_ ∧ _))

/-- The decoder sleeps before the feed ends, is woken, and both threads leave. -/
def cleanShutdown : List (Actor oneShard) :=
  List.replicate 11 (.decoder 0) ++ List.replicate 5 .net ++ List.replicate 13 (.decoder 0) ++
    List.replicate 9 (.publisher 0)

theorem not_stuck_clean :
    ∃ s, Runs.exec step (PipelineRunner.start oneShard []) cleanShutdown = some s ∧
      ((s.lanes 0).decoder = .exited ∧ (s.lanes 0).publisher = .left) ∧ ¬ s.Stuck :=
  ⟨_, rfl, ⟨rfl, rfl⟩, not_stuck [] cleanShutdown _ rfl (by decide +kernel)⟩

/-- The decoder finds the flag down and stops just before it reads the generation; the network thread
raises the flag, increments the generation and ends; the decoder reads the new generation and sleeps. -/
def lateSnapshot : List (Actor oneShard) :=
  List.replicate 8 (.decoder 0) ++ List.replicate 5 .net ++ List.replicate 3 (.decoder 0)

theorem stuck_of_late_snapshot :
    ∃ s, Runs.exec step (PipelineRunner.start oneShard []) lateSnapshot = some s ∧ s.Stuck :=
  ⟨_, rfl, 0, .inl ⟨rfl, rfl, rfl⟩⟩

end PipelineRunner

end Mdfh
