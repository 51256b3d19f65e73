import Mathlib.Data.Finset.Lattice.Fold
import Mdfh.Concurrency.RingProgress
import Mdfh.Io.Indices
import Mdfh.Io.Wakeups
import Mdfh.Lib.Fairness

/-!
# Every fair run ends, unless a wake-up is missed

Under a schedule that tries every thread again and again the network thread comes to its end: its only
loop without a bound is the spin, and then the decoder that obstructs it is the one that helps. After
that no decoder's input grows any more and its loop has a rank; while it spins on its output queue the
publisher helps. After the decoder the publisher. The one way out of this is a consumer asleep with its
upstream thread gone (`Stuck`), and that is for good.
-/

namespace Mdfh
open LittleEndian (Bytes)

variable {n : NumShards}

/-! ### What the threads are in the middle of -/

/-- Each thread of the lane is in the call its loop says, and only consumers' own slots are flagged. -/
structure Lane.Fit (l : Lane) : Prop where
  decoder : l.decoder.inLoop.Paired l.queue.pop
  publisher : l.publisher.Paired l.outputQueue.pop
  queue : l.queue.Flagged
  outputQueue : l.outputQueue.Flagged

namespace Lane.Fit
variable {l l' : Lane} {up closing : Bool}

theorem start : Fit {} := ⟨rfl, rfl, .init, .init⟩

theorem decoderStep (h : l.Fit) (hi : l.Inv up) (hs : DecoderStep up l l') : l'.Fit := by
  have hdec := h.decoder
  cases hs with
  | loop hpc hs =>
    rw [hpc] at hdec
    exact ⟨hs.paired hi.queue hdec, h.publisher, hs.flagged h.queue, h.outputQueue⟩
  | apply hpc => rw [hpc] at hdec; exact ⟨hdec, h.publisher, h.queue, h.outputQueue⟩
  | cleanup hpc => rw [hpc] at hdec; exact ⟨hdec, h.publisher, h.queue, h.outputQueue⟩
  | begin hpc hq => rw [hpc] at hdec; exact ⟨hdec, h.publisher, h.queue, h.outputQueue⟩
  | push hpc hs =>
    rw [hpc] at hdec
    exact ⟨hdec, (Ring.pushStep_frame hs).pop ▸ h.publisher, h.queue, h.outputQueue.pushStep hs⟩
  | finish hpc hq =>
    rw [hpc] at hdec
    have hidle : l.queue.pop = .idle := hdec
    exact ⟨(hidle ▸ rfl : l.queue.pop.trying = true), h.publisher, h.queue, h.outputQueue⟩
  | leave hpc => rw [hpc] at hdec; exact ⟨hdec, h.publisher, h.queue, h.outputQueue⟩
  | notify hpc hs => rw [hpc] at hdec; cases hs; exact ⟨hdec, h.publisher, h.queue, h.outputQueue⟩

theorem publisherStep (h : l.Fit) (hi : l.Inv up) (hs : PublisherStep l l') : l'.Fit := by
  have hpub := h.publisher
  cases hs with
  | loop hs => exact ⟨h.decoder, hs.paired hi.outputQueue hpub, h.queue, hs.flagged h.outputQueue⟩
  | publish hpc =>
    rw [hpc] at hpub
    have hidle : l.outputQueue.pop = .idle := hpub
    exact ⟨h.decoder, (hidle ▸ rfl : l.outputQueue.pop.trying = true), h.queue, h.outputQueue⟩

theorem step (h : l.Fit) (hi : l.Inv up) (hs : LaneStep up closing l l') : l'.Fit := by
  cases hs with
  | decoder hs => exact h.decoderStep hi hs
  | publisher hs => exact h.publisherStep hi hs
  | demux => exact ⟨h.decoder, h.publisher, h.queue, h.outputQueue⟩
  | push hup hs =>
    exact ⟨(Ring.pushStep_frame hs).pop ▸ h.decoder, h.publisher, h.queue.pushStep hs, h.outputQueue⟩
  | notify hs => cases hs; exact ⟨h.decoder, h.publisher, h.queue, h.outputQueue⟩

end Lane.Fit

namespace PipelineRunner
variable {s s' : PipelineRunner n}

/-- The invariant of a run whose indices are in range. -/
structure Fit (s : PipelineRunner n) : Prop where
  turns : s.Turns
  inv : ∀ i, (s.lanes i).Inv s.producerDone
  lanes : ∀ i, (s.lanes i).Fit

theorem Fit.start (feed : List (Option Bytes)) : (PipelineRunner.start n feed).Fit :=
  ⟨.start feed, fun _ => .start, fun _ => .start⟩

theorem Fit.step (h : s.Fit) (hN : ∀ i, s'.InRange i) {a : Actor n} (hs : s.step a = some s') : s'.Fit := by
  refine ⟨h.turns.step hs, fun i => laneInv_step (h.inv i) h.turns (hN i) hs, fun i => ?_⟩
  rcases lane_step hs i with ⟨hl, -⟩ | ⟨hl, -⟩
  · exact (h.lanes i).step (h.inv i) hl
  · rw [hl]; exact h.lanes i

/-! ### The network thread -/

/-- The steps left of the network thread; each packet costs at most twenty. -/
def netRank (s : PipelineRunner n) : Nat :=
  match s.net with
  | .finished => 0
  | .notify k => n.1 - k + 1
  | .storeDone => n.1 + 2
  | .next => n.1 + 3 + 20 * s.feed.length
  | .checkStop => n.1 + 4 + 20 * s.feed.length
  | .suspended => n.1 + 5 + 20 * s.feed.length
  | .pushing i => n.1 + 6 + (s.lanes i).queue.push.stepsLeft + 20 * s.feed.length
  | .demux _ => n.1 + 15 + 20 * s.feed.length

/-- How long the network thread can still be kept spinning. -/
def netObstruction (s : PipelineRunner n) : Nat :=
  match s.net with
  | .pushing i => (s.lanes i).queue.obstruction
  | _ => 0

/-- Who brings the network thread forward. -/
def netHelper (s : PipelineRunner n) : Actor n :=
  match s.net with
  | .pushing i => if 0 < (s.lanes i).queue.obstruction then .decoder i else .net
  | _ => .net

theorem setQueue_self (i : Fin n.1) : s.setQueue i (s.lanes i).queue = s := by
  simp [setQueue, setLane]

theorem Fit.net_lt (h : s.Fit) (hs : NetStep s s') :
    s'.netRank < s.netRank ∨ s' = s ∧ 0 < s.netObstruction := by
  unfold netRank
  cases hs with
  | stopped hpc => rw [hpc]; exact .inl (by dsimp only; omega)
  | running hpc => rw [hpc]; exact .inl (by dsimp only; omega)
  | exhausted hpc => rw [hpc]; exact .inl (by dsimp only; omega)
  | lost hpc hf => rw [hpc, hf]; exact .inl (by simp only [List.length_cons]; omega)
  | packet hpc hf => rw [hpc, hf]; exact .inl (by simp only [List.length_cons]; omega)
  | refused hpc => rw [hpc]; exact .inl (by dsimp only; omega)
  | @routed raw msg dest r hpc hd hr hq =>
    rw [hpc]
    refine .inl ?_
    dsimp only
    rw [lanes_setLane, if_pos rfl]
    show n.1 + 6 + 8 + 20 * s.feed.length < _
    omega
  | @push i q hpc hp =>
    rcases (h.lanes i).queue.stepsLeft hp with hlt | ⟨rfl, hob⟩
    · refine .inl ?_
      have hnet : (s.setQueue i q).net = .pushing i := hpc
      have hq : ((s.setQueue i q).lanes i).queue = q := by rw [setQueue, lanes_setLane, if_pos rfl]
      rw [hnet, hpc]
      dsimp only
      rw [hq]
      show n.1 + 6 + q.push.stepsLeft + 20 * s.feed.length < _
      omega
    · rw [setQueue_self, netObstruction, hpc]
      exact .inr ⟨rfl, hob⟩
  | pushed hpc hq => rw [hpc]; exact .inl (by dsimp only; omega)
  | resumed hpc => rw [hpc]; exact .inl (by dsimp only; omega)
  | done hpc => rw [hpc]; exact .inl (by dsimp only; omega)
  | @notify i q hpc hs => rw [hpc]; exact .inl (by have := i.2; dsimp only; omega)
  | finished hpc hk => rw [hpc]; exact .inl (by dsimp only; omega)

theorem Fit.exists_net (h : s.Fit) (hn : s.net ≠ .finished) : ∃ s', s.netStep = some s' := by
  unfold netStep
  cases hpc : s.net with
  | checkStop => exact ⟨_, rfl⟩
  | next => dsimp only; split <;> exact ⟨_, rfl⟩
  | demux raw =>
    dsimp only
    split
    · split
      · next dest r hr =>
        have hq := h.turns.quiet (by simp [hpc]) dest.shardIndex
        rw [Ring.step, hq]
        exact ⟨_, rfl⟩
      · exact ⟨_, rfl⟩
    · exact ⟨_, rfl⟩
  | pushing i =>
    dsimp only
    split
    · exact ⟨_, rfl⟩
    · next hne =>
      obtain ⟨q, hq⟩ := Ring.exists_pushStep hne
      exact ⟨_, by rw [Ring.step, hq]; rfl⟩
  | suspended => exact ⟨_, rfl⟩
  | storeDone => exact ⟨_, rfl⟩
  | notify k => dsimp only; split <;> exact ⟨_, rfl⟩
  | finished => exact absurd hpc hn

def netMeasure (s : PipelineRunner n) : Nat × Nat := (s.netRank, s.netObstruction)

/-- The lanes' own steps: the network thread is as far as it was, and not obstructed for longer. -/
theorem netMeasure_lanes (hn : s'.net = s.net) (hf : s'.feed = s.feed)
    (hq : ∀ j, (s'.lanes j).queue.push = (s.lanes j).queue.push)
    (ho : ∀ j, (s'.lanes j).queue.obstruction < (s.lanes j).queue.obstruction ∨
      (s'.lanes j).queue.obstruction = (s.lanes j).queue.obstruction) :
    Prod.Lex (· < ·) (· < ·) s'.netMeasure s.netMeasure ∨
      s'.netMeasure = s.netMeasure ∧ s'.netHelper = s.netHelper := by
  have hrank : s'.netRank = s.netRank := by
    unfold netRank
    rw [hn]
    cases s.net <;> simp only [hf, hq]
  unfold netMeasure netObstruction netHelper
  rw [hrank, hn]
  cases s.net with
  | pushing i =>
    dsimp only
    rcases ho i with hlt | heq
    · exact .inl (.right _ hlt)
    · rw [heq]
      exact .inr ⟨rfl, rfl⟩
  | _ => exact .inr ⟨rfl, rfl⟩

theorem Fit.obstruction_decoder (h : s.Fit) {i : Fin n.1} {l : Lane} (hs : DecoderStep s.producerDone (s.lanes i) l) :
    l.queue.obstruction < (s.lanes i).queue.obstruction ∨ l.queue.obstruction = (s.lanes i).queue.obstruction := by
  have hdec := (h.lanes i).decoder
  cases hs with
  | loop hpc hs =>
    rw [hpc] at hdec
    exact (hs.obstruction (h.inv i).queue hdec).imp_right fun e => e.1.trans e.2.symm
  | _ => exact .inr rfl

theorem Fit.net_progress (h : s.Fit) {a : Actor n} (hs : s.step a = some s') :
    Prod.Lex (· < ·) (· < ·) s'.netMeasure s.netMeasure ∨
      s'.netMeasure = s.netMeasure ∧ s'.netHelper = s.netHelper := by
  have hset : ∀ {i : Fin n.1} {l : Lane} {r : RouteTable n}, l.queue.push = (s.lanes i).queue.push →
      (l.queue.obstruction < (s.lanes i).queue.obstruction ∨ l.queue.obstruction = (s.lanes i).queue.obstruction) →
      s' = { s.setLane i l with orderRoute := r } → Prod.Lex (· < ·) (· < ·) s'.netMeasure s.netMeasure ∨
        s'.netMeasure = s.netMeasure ∧ s'.netHelper = s.netHelper := by
    rintro i l r hq ho rfl
    refine netMeasure_lanes rfl rfl (fun j => ?_) fun j => ?_
    · show ((s.setLane i l).lanes j).queue.push = _
      rw [lanes_setLane]
      split
      · next hj => rw [hq, hj]
      · rfl
    · show ((s.setLane i l).lanes j).queue.obstruction < _ ∨ ((s.setLane i l).lanes j).queue.obstruction = _
      rw [lanes_setLane]
      split
      · next hj => rw [hj]; exact ho
      · exact .inr rfl
  cases a with
  | stop => cases hs; exact netMeasure_lanes rfl rfl (fun _ => rfl) fun _ => .inr rfl
  | net =>
    rcases h.net_lt (netStep_cases hs) with hlt | ⟨rfl, -⟩
    · exact .inl (.left _ _ hlt)
    · exact .inr ⟨rfl, rfl⟩
  | decoder i =>
    obtain ⟨⟨l, r⟩, hl, rfl⟩ := Option.map_eq_some_iff.1 hs
    have hd := Lane.decoderStep_cases hl
    exact hset ((h.turns.lanes i).decoder hd).2 (h.obstruction_decoder hd) rfl
  | publisher i =>
    obtain ⟨l, hl, rfl⟩ := Option.map_eq_some_iff.1 hs
    have hp := Lane.publisherStep_cases hl
    have hq : l.queue = (s.lanes i).queue := by cases hp <;> rfl
    exact hset (r := s.orderRoute) (congrArg Ring.push hq) (.inr (congrArg Ring.obstruction hq)) rfl

theorem Fit.obstructing_decoder (h : s.Fit) {i : Fin n.1} (ho : 0 < (s.lanes i).queue.obstruction) :
    ∃ s', s.step (.decoder i) = some s' ∧ s'.net = s.net ∧
      (s'.lanes i).queue.obstruction < (s.lanes i).queue.obstruction := by
  obtain ⟨f, d, q, pc, hpc, hs, hlt⟩ := (h.lanes i).decoder.step_of_obstruction (h.inv i).queue ho .apply s.producerDone
  have hdec : (s.lanes i).decoder = .loop (.drain f d) := by
    cases hd : (s.lanes i).decoder with
    | loop pc => rw [hd] at hpc; exact congrArg _ hpc
    | notify => rw [hd] at hpc; cases hpc
    | exited => rw [hd] at hpc; cases hpc
  rw [hpc] at hs
  have hstep : (s.lanes i).decoderStep s.producerDone s.orderRoute =
      some ({ s.lanes i with queue := q, decoder := .loop pc }, s.orderRoute) := by
    rw [Lane.decoderStep, hdec]
    exact congrArg (Option.map _) hs
  refine ⟨_, congrArg (Option.map _) hstep, rfl, ?_⟩
  show ((s.setLane i _).lanes i).queue.obstruction < _
  rw [lanes_setLane, if_pos rfl]
  exact hlt

theorem Fit.net_helps (h : s.Fit) (hn : s.net ≠ .finished) :
    ∃ s', s.step s.netHelper = some s' ∧ Prod.Lex (· < ·) (· < ·) s'.netMeasure s.netMeasure := by
  by_cases ho : 0 < s.netObstruction
  · -- the network thread is in a push and a decoder obstructs it
    unfold netObstruction at ho
    cases hpc : s.net with
    | pushing i =>
      rw [hpc] at ho
      have hhelp : s.netHelper = .decoder i := by rw [netHelper, hpc]; exact if_pos ho
      obtain ⟨s', hs, hnet, hlt⟩ := h.obstructing_decoder ho
      rw [hhelp]
      refine ⟨s', hs, ?_⟩
      rcases h.net_progress hs with hlex | ⟨heq, -⟩
      · exact hlex
      · have heq' : s'.netObstruction = s.netObstruction := congrArg Prod.snd heq
        rw [netObstruction, netObstruction, hnet, hpc] at heq'
        exact absurd heq' hlt.ne
    | _ => rw [hpc] at ho; exact absurd ho (Nat.lt_irrefl 0)
  · have hhelp : s.netHelper = .net := by
      unfold netObstruction at ho
      unfold netHelper
      cases hpc : s.net with
      | pushing i => rw [hpc] at ho; exact if_neg ho
      | _ => rfl
    obtain ⟨s', hs⟩ := h.exists_net hn
    rw [hhelp]
    refine ⟨s', hs, ?_⟩
    rcases h.net_lt (netStep_cases hs) with hlt | ⟨-, hob⟩
    · exact .left _ _ hlt
    · exact absurd hob ho

end PipelineRunner

/-! ### A decoder with nothing more to come -/

def DecodeWork.rank : DecodeWork → Nat
  | .apply _ => 3
  | .cleanup _ _ => 2
  | .output _ => 1

namespace Lane
variable {l l' : Lane}

def decoderRank (l : Lane) : Nat :=
  match l.decoder with
  | .loop pc => pc.rank DecodeWork.rank l.queue + 2
  | .notify => 1
  | .exited => 0

/-- The pushes still to begin and what is left of the one under way. -/
def outputRank (l : Lane) : Nat :=
  match l.decoder with
  | .loop (.work _ (.output ds)) => 12 * ds.length + l.outputQueue.push.stepsLeft
  | _ => 0

def decoderMeasure (l : Lane) : Nat × Nat × Nat := (l.decoderRank, l.outputRank, l.outputQueue.obstruction)

theorem decoderMeasure_left (h : l'.decoderRank < l.decoderRank) :
    Prod.Lex (· < ·) (Prod.Lex (· < ·) (· < ·)) l'.decoderMeasure l.decoderMeasure := .left _ _ h

theorem decoderMeasure_right (h : l'.decoderRank = l.decoderRank) (ho : l'.outputRank < l.outputRank) :
    Prod.Lex (· < ·) (Prod.Lex (· < ·) (· < ·)) l'.decoderMeasure l.decoderMeasure :=
  Prod.lex_def.2 (.inr ⟨h, Prod.lex_def.2 (.inl ho)⟩)

theorem Fit.decoder_lt (h : l.Fit) (hi : l.Inv true) (hs : DecoderStep true l l') :
    Prod.Lex (· < ·) (Prod.Lex (· < ·) (· < ·)) l'.decoderMeasure l.decoderMeasure ∨
      l' = l ∧ 0 < l.outputQueue.obstruction := by
  have hdec := h.decoder
  cases hs with
  | loop hpc hs =>
    rw [hpc] at hdec
    refine .inl (decoderMeasure_left ?_)
    have := hs.rank_lt hi.queue hdec (w := DecodeWork.rank) fun _ => by show 3 < 30; omega
    rw [decoderRank, decoderRank, hpc]
    exact Nat.add_lt_add_right this 2
  | apply hpc =>
    refine .inl (decoderMeasure_left ?_)
    rw [decoderRank, decoderRank, hpc]
    exact Nat.lt_succ_self _
  | cleanup hpc =>
    refine .inl (decoderMeasure_left ?_)
    rw [decoderRank, decoderRank, hpc]
    exact Nat.lt_succ_self _
  | @begin final d ds hpc hq =>
    refine .inl (decoderMeasure_right ?_ ?_)
    · rw [decoderRank, decoderRank, hpc]
      rfl
    · rw [outputRank, outputRank, hpc]
      show 12 * ds.length + 8 < 12 * (ds.length + 1) + _
      omega
  | @push final ds q hpc hs =>
    rcases h.outputQueue.stepsLeft hs with hlt | ⟨rfl, hob⟩
    · refine .inl (decoderMeasure_right ?_ ?_)
      · rw [decoderRank, decoderRank, hpc]
      · rw [outputRank, outputRank, hpc]
        exact Nat.add_lt_add_left hlt _
    · refine .inr ⟨?_, hob⟩
      rw [← hpc]
  | finish hpc hq =>
    rw [hpc] at hdec
    have hidle : l.queue.pop = .idle := hdec
    refine .inl (decoderMeasure_left ?_)
    rw [decoderRank, decoderRank, hpc]
    show 200 * l.queue.unclaimed + (36 + l.queue.pop.drainRank) + 2 < 200 * l.queue.unclaimed + (80 + 1) + 2
    rw [hidle]
    show _ + (36 + 7) + 2 < _
    omega
  | leave hpc =>
    refine .inl (decoderMeasure_left ?_)
    rw [decoderRank, decoderRank, hpc]
    show 1 < _ + 2
    omega
  | notify hpc hs =>
    refine .inl (decoderMeasure_left ?_)
    rw [decoderRank, decoderRank, hpc]
    exact Nat.one_pos

theorem Fit.exists_decoderStep (h : l.Fit) (he : l.decoder ≠ .exited)
    (hb : ¬ (l.decoder = .loop .waiting ∧ l.queue.pop = .blocked l.queue.mem.wakeGeneration)) (up : Bool)
    (r : RouteTable n) : ∃ x, l.decoderStep up r = some x := by
  unfold Lane.decoderStep
  cases hpc : l.decoder with
  | loop pc =>
    have hdec : pc.Paired l.queue.pop := by
      have := h.decoder
      rwa [hpc] at this
    have hgo : (∀ f x, pc ≠ .work f x) → pc ≠ .left →
        ∃ x, ((pc.step DecodeWork.apply up l.queue).map fun x =>
          (({ l with queue := x.1, decoder := .loop x.2 } : Lane), r)) = some x := by
      intro h₁ h₂
      rcases LoopPc.exists_step hdec DecodeWork.apply up h₁ h₂ with ⟨x, hx⟩ | ⟨rfl, hpop⟩
      · exact ⟨_, by rw [hx]; rfl⟩
      · exact absurd ⟨hpc, hpop⟩ hb
    cases pc with
    | drain f d => exact hgo (by simp) (by simp)
    | work f w =>
      cases w with
      | apply qm => exact ⟨_, rfl⟩
      | cleanup qm ds => exact ⟨_, rfl⟩
      | output ds =>
        dsimp only
        by_cases hpush : l.outputQueue.push = .idle
        · rcases ds with _ | ⟨d, ds⟩
          · rw [hpush]
            exact ⟨_, rfl⟩
          · have hcall : l.outputQueue.step (.push d) = some { l.outputQueue with push := .loadTail d } := by
              rw [Ring.step, hpush]
              rfl
            rw [hpush]
            dsimp only
            rw [hcall]
            exact ⟨_, rfl⟩
        · obtain ⟨q, hq⟩ := Ring.exists_pushStep hpush
          split
          · next hidle => exact absurd hidle hpush
          · next hidle => exact absurd hidle hpush
          · rw [Ring.step, hq]
            exact ⟨_, rfl⟩
    | testDone => exact hgo (by simp) (by simp)
    | wait => exact hgo (by simp) (by simp)
    | waiting => exact hgo (by simp) (by simp)
    | left => exact ⟨_, rfl⟩
  | notify => exact ⟨_, rfl⟩
  | exited => exact absurd hpc he

theorem Fit.decoderMeasure_publisher (h : l.Fit) {up : Bool} (hi : l.Inv up) (hs : PublisherStep l l') :
    (l'.decoderRank = l.decoderRank ∧ l'.outputRank = l.outputRank) ∧
      (l'.outputQueue.obstruction < l.outputQueue.obstruction ∨ l'.outputQueue.obstruction = l.outputQueue.obstruction) := by
  cases hs with
  | loop hs =>
    refine ⟨⟨rfl, ?_⟩, (hs.obstruction hi.outputQueue h.publisher).imp_right fun e => e.1.trans e.2.symm⟩
    unfold outputRank
    rw [hs.producer.1]
  | publish => exact ⟨⟨rfl, rfl⟩, .inr rfl⟩

/-- A publisher with nothing more to come. -/
def publisherRank (l : Lane) : Nat := l.publisher.rank (fun _ => 0) l.outputQueue

theorem Fit.publisher_lt (h : l.Fit) {up : Bool} (hi : l.Inv up) (hd : l.decoderDone = true) (hs : PublisherStep l l') :
    l'.publisherRank < l.publisherRank := by
  have hpub := h.publisher
  cases hs with
  | loop hs =>
    rw [hd] at hs
    exact hs.rank_lt hi.outputQueue hpub fun _ => by show 0 < 30; omega
  | publish hpc =>
    rw [hpc] at hpub
    have hidle : l.outputQueue.pop = .idle := hpub
    rw [publisherRank, publisherRank, hpc]
    show 200 * l.outputQueue.unclaimed + (36 + l.outputQueue.pop.drainRank) < 200 * l.outputQueue.unclaimed + (80 + 0)
    rw [hidle]
    show _ + (36 + 7) < _
    omega

theorem Fit.exists_publisherStep (h : l.Fit) (hl : l.publisher ≠ .left)
    (hb : ¬ (l.publisher = .waiting ∧ l.outputQueue.pop = .blocked l.outputQueue.mem.wakeGeneration)) :
    ∃ l', l.publisherStep = some l' := by
  unfold Lane.publisherStep
  split
  · exact ⟨_, rfl⟩
  · next hw =>
    rcases LoopPc.exists_step h.publisher id l.decoderDone hw hl with ⟨x, hx⟩ | hbl
    · exact ⟨_, by rw [hx]; rfl⟩
    · exact absurd hbl hb

end Lane

theorem LoopStep.not_asleep {α ω : Type} [Inhabited α] {cap : Nat} [NeZero cap] {body : α → ω} {done : Bool}
    {q q' : Ring α cap} {pc : LoopPc ω} (h : LoopStep body done q .waiting q' pc) :
    q.pop ≠ .blocked q.mem.wakeGeneration := by
  intro hpop
  cases h with
  | woken hp => rw [hpop] at hp; cases hp
  | waiting hs =>
    rw [Ring.popStep, hpop] at hs
    dsimp only at hs
    rw [if_pos rfl] at hs
    cases hs

theorem DecoderStep.not_asleep {up : Bool} {l l' : Lane} (h : DecoderStep up l l') (hpc : l.decoder = .loop .waiting) :
    l.queue.pop ≠ .blocked l.queue.mem.wakeGeneration := by
  cases h with
  | loop hpc' hs =>
    rw [hpc] at hpc'
    cases hpc'
    exact hs.not_asleep
  | apply hpc' => rw [hpc] at hpc'; cases hpc'
  | cleanup hpc' => rw [hpc] at hpc'; cases hpc'
  | begin hpc' => rw [hpc] at hpc'; cases hpc'
  | push hpc' => rw [hpc] at hpc'; cases hpc'
  | finish hpc' => rw [hpc] at hpc'; cases hpc'
  | leave hpc' => rw [hpc] at hpc'; cases hpc'
  | notify hpc' => rw [hpc] at hpc'; cases hpc'

theorem DecoderStep.not_exited {up : Bool} {l l' : Lane} (h : DecoderStep up l l') : l.decoder ≠ .exited := by
  intro he
  cases h with
  | loop hpc => rw [he] at hpc; cases hpc
  | apply hpc => rw [he] at hpc; cases hpc
  | cleanup hpc => rw [he] at hpc; cases hpc
  | begin hpc => rw [he] at hpc; cases hpc
  | push hpc => rw [he] at hpc; cases hpc
  | finish hpc => rw [he] at hpc; cases hpc
  | leave hpc => rw [he] at hpc; cases hpc
  | notify hpc => rw [he] at hpc; cases hpc

namespace PipelineRunner
variable {s s' : PipelineRunner n}

/-- Who brings decoder `i` forward once the network thread is gone. -/
def decoderHelper (i : Fin n.1) (s : PipelineRunner n) : Actor n :=
  if 0 < (s.lanes i).outputQueue.obstruction then .publisher i else .decoder i

theorem lane_step_of_finished (hn : s.net = .finished) {a : Actor n} (hs : s.step a = some s') (i : Fin n.1) :
    s'.lanes i = s.lanes i ∨ (a = .decoder i ∧ DecoderStep s.producerDone (s.lanes i) (s'.lanes i)) ∨
      a = .publisher i ∧ PublisherStep (s.lanes i) (s'.lanes i) := by
  cases a with
  | stop => cases hs; exact .inl rfl
  | net => rw [step, netStep, hn] at hs; cases hs
  | decoder j =>
    obtain ⟨⟨l, r⟩, hl, rfl⟩ := Option.map_eq_some_iff.1 hs
    show (s.setLane j l).lanes i = _ ∨ (_ ∧ DecoderStep _ _ ((s.setLane j l).lanes i)) ∨ _
    rw [lanes_setLane]
    split
    · next hj => subst hj; exact .inr (.inl ⟨rfl, Lane.decoderStep_cases hl⟩)
    · exact .inl rfl
  | publisher j =>
    obtain ⟨l, hl, rfl⟩ := Option.map_eq_some_iff.1 hs
    rw [lanes_setLane]
    split
    · next hj => subst hj; exact .inr (.inr ⟨rfl, Lane.publisherStep_cases hl⟩)
    · exact .inl rfl

theorem Fit.decoder_progress (h : s.Fit) (hn : s.net = .finished) {a : Actor n} (hs : s.step a = some s') (i : Fin n.1) :
    Prod.Lex (· < ·) (Prod.Lex (· < ·) (· < ·)) (s'.lanes i).decoderMeasure (s.lanes i).decoderMeasure ∨
      (s'.lanes i).decoderMeasure = (s.lanes i).decoderMeasure ∧ s'.decoderHelper i = s.decoderHelper i := by
  have hup : s.producerDone = true := by rw [h.turns.done, hn]; rfl
  have hinv := h.inv i
  rw [hup] at hinv
  rcases lane_step_of_finished hn hs i with hl | ⟨-, hd⟩ | ⟨-, hp⟩
  · exact .inr ⟨by rw [hl], by rw [decoderHelper, decoderHelper, hl]⟩
  · rw [hup] at hd
    rcases (h.lanes i).decoder_lt hinv hd with hlex | ⟨hl, -⟩
    · exact .inl hlex
    · exact .inr ⟨by rw [hl], by rw [decoderHelper, decoderHelper, hl]⟩
  · obtain ⟨⟨h₁, h₂⟩, ho | ho⟩ := (h.lanes i).decoderMeasure_publisher hinv hp
    · exact .inl (Prod.lex_def.2 (.inr ⟨h₁, Prod.lex_def.2 (.inr ⟨h₂, ho⟩)⟩))
    · exact .inr ⟨by rw [Lane.decoderMeasure, Lane.decoderMeasure, h₁, h₂, ho],
        by rw [decoderHelper, decoderHelper, ho]⟩

theorem Fit.decoder_helps (h : s.Fit) (hn : s.net = .finished) (i : Fin n.1) (he : (s.lanes i).decoder ≠ .exited)
    (hb : ¬ s.Stuck) : ∃ s', s.step (s.decoderHelper i) = some s' ∧
      Prod.Lex (· < ·) (Prod.Lex (· < ·) (· < ·)) (s'.lanes i).decoderMeasure (s.lanes i).decoderMeasure := by
  by_cases ho : 0 < (s.lanes i).outputQueue.obstruction
  · obtain ⟨f, d, q, pc, hpc, hs, hlt⟩ :=
      (h.lanes i).publisher.step_of_obstruction (h.inv i).outputQueue ho id (s.lanes i).decoderDone
    have hstep : (s.lanes i).publisherStep = some { s.lanes i with outputQueue := q, publisher := pc } := by
      rw [Lane.publisherStep, hpc]
      rw [hpc] at hs
      exact congrArg (Option.map _) hs
    have hs' : s.step (.publisher i) = some (s.setLane i { s.lanes i with outputQueue := q, publisher := pc }) :=
      congrArg (Option.map _) hstep
    have hhelp : s.decoderHelper i = .publisher i := if_pos ho
    rw [hhelp]
    refine ⟨_, hs', ?_⟩
    rcases h.decoder_progress hn hs' i with hlex | ⟨heq, -⟩
    · exact hlex
    · have heq' := congrArg (fun m => m.2.2) heq
      rw [lanes_setLane, if_pos rfl] at heq'
      exact absurd heq' hlt.ne
  · have hhelp : s.decoderHelper i = .decoder i := if_neg ho
    obtain ⟨⟨l, r⟩, hl⟩ := (h.lanes i).exists_decoderStep he
      (fun hbl => hb ⟨i, .inl ⟨hn, hbl.1, hbl.2⟩⟩) s.producerDone s.orderRoute
    have hs' : s.step (.decoder i) = some { s.setLane i l with orderRoute := r } := congrArg (Option.map _) hl
    rw [hhelp]
    refine ⟨_, hs', ?_⟩
    have hup : s.producerDone = true := by rw [h.turns.done, hn]; rfl
    have hinv := h.inv i
    have hd := Lane.decoderStep_cases hl
    rw [hup] at hinv hd
    show Prod.Lex _ _ ((s.setLane i l).lanes i).decoderMeasure _
    rw [lanes_setLane, if_pos rfl]
    exact ((h.lanes i).decoder_lt hinv hd).resolve_right fun hne => ho hne.2

/-! ### What is for good -/

theorem finished_step (hn : s.net = .finished) {a : Actor n} (hs : s.step a = some s') : s'.net = .finished := by
  cases a with
  | stop => cases hs; exact hn
  | net => rw [step, netStep, hn] at hs; cases hs
  | decoder i => obtain ⟨-, -, rfl⟩ := Option.map_eq_some_iff.1 hs; exact hn
  | publisher i => obtain ⟨-, -, rfl⟩ := Option.map_eq_some_iff.1 hs; exact hn

theorem lane_step_of_exited (hn : s.net = .finished) {i : Fin n.1} (he : (s.lanes i).decoder = .exited) {a : Actor n}
    (hs : s.step a = some s') :
    s'.lanes i = s.lanes i ∨ a = .publisher i ∧ PublisherStep (s.lanes i) (s'.lanes i) := by
  rcases lane_step_of_finished hn hs i with hl | ⟨-, hd⟩ | hp
  · exact .inl hl
  · exact absurd he hd.not_exited
  · exact .inr hp

/-- The network thread and the decoder of the lane are gone. -/
def DecoderGone (i : Fin n.1) (s : PipelineRunner n) : Prop := s.net = .finished ∧ (s.lanes i).decoder = .exited

theorem DecoderGone.step {i : Fin n.1} (h : s.DecoderGone i) {a : Actor n} (hs : s.step a = some s') :
    s'.DecoderGone i := by
  refine ⟨finished_step h.1 hs, ?_⟩
  rcases lane_step_of_exited h.1 h.2 hs with hl | ⟨-, hp⟩
  · rw [hl]; exact h.2
  · generalize s'.lanes i = l at hp
    cases hp <;> exact h.2

/-- All threads that touch the lane are gone. -/
def LaneGone (i : Fin n.1) (s : PipelineRunner n) : Prop := s.DecoderGone i ∧ (s.lanes i).publisher = .left

theorem LaneGone.step {i : Fin n.1} (h : s.LaneGone i) {a : Actor n} (hs : s.step a = some s') : s'.LaneGone i := by
  refine ⟨h.1.step hs, ?_⟩
  rcases lane_step_of_exited h.1.1 h.1.2 hs with hl | ⟨-, hp⟩
  · rw [hl]; exact h.2
  · generalize s'.lanes i = l at hp
    cases hp with
    | loop hs => rw [h.2] at hs; cases hs
    | publish hpc => rw [h.2] at hpc; cases hpc

theorem Stuck.step (h : s.Stuck) {a : Actor n} (hs : s.step a = some s') : s'.Stuck := by
  obtain ⟨i, ⟨hn, hdec, hpop⟩ | ⟨hdec, hpub, hpop⟩⟩ := h
  · refine ⟨i, .inl ⟨finished_step hn hs, ?_⟩⟩
    rcases lane_step_of_finished hn hs i with hl | ⟨-, hd⟩ | ⟨-, hp⟩
    · rw [hl]; exact ⟨hdec, hpop⟩
    · exact absurd hpop (hd.not_asleep hdec)
    · generalize s'.lanes i = l at hp
      cases hp <;> exact ⟨hdec, hpop⟩
  · refine ⟨i, .inr ?_⟩
    rcases lane_step hs i with ⟨hl, -⟩ | ⟨hl, -⟩
    · generalize s'.lanes i = l at hl
      cases hl with
      | decoder hd => exact absurd hdec hd.not_exited
      | publisher hp =>
        cases hp with
        | loop hs => rw [hpub] at hs; exact absurd hpop hs.not_asleep
        | publish hpc => rw [hpub] at hpc; cases hpc
      | demux => exact ⟨hdec, hpub, hpop⟩
      | push => exact ⟨hdec, hpub, hpop⟩
      | notify => exact ⟨hdec, hpub, hpop⟩
    · rw [hl]; exact ⟨hdec, hpub, hpop⟩

/-! ### The run -/

/-- Every thread has exited. -/
def Finished (s : PipelineRunner n) : Prop :=
  s.net = .finished ∧ ∀ i, (s.lanes i).decoder = .exited ∧ (s.lanes i).publisher = .left

section Run
variable {run : Nat → PipelineRunner n} {acts : Nat → Actor n}

theorem eventually_finished (hsched : Runs.Scheduled step run acts) (hfair : ∀ a, a ≠ .stop → Runs.Recurs acts a)
    (hfit : ∀ k, (run k).Fit) : ∃ k, (run k).net = .finished := by
  have hwf : WellFounded (Prod.Lex (· < · : Nat → Nat → Prop) (· < · : Nat → Nat → Prop)) :=
    WellFounded.prod_lex Nat.lt_wfRel.wf Nat.lt_wfRel.wf
  have hne : ∀ s : PipelineRunner n, s.netHelper ≠ .stop := by
    intro s
    unfold netHelper
    split
    · split <;> simp
    · simp
  obtain ⟨k, -, hk⟩ : ∃ k, 0 ≤ k ∧ (run k).net = .finished := by
    refine Runs.eventually hwf run acts netMeasure netHelper (fun s => s.net = .finished) 0 (fun s => hfair _ (hne s))
      (fun k _ hg he => ?_) fun k _ _ => ?_
    · obtain ⟨s', hs, hlex⟩ := (hfit k).net_helps hg
      have hk := hsched k
      rw [he, hs] at hk
      rw [hk]
      exact .inr hlex
    · rcases hsched.cases k with hs | ⟨-, hs⟩
      · exact .inr ((hfit k).net_progress hs)
      · rw [hs]; exact .inr (.inr ⟨rfl, rfl⟩)
  exact ⟨k, hk⟩

theorem eventually_decoderGone (hsched : Runs.Scheduled step run acts) (hfair : ∀ a, a ≠ .stop → Runs.Recurs acts a)
    (hfit : ∀ k, (run k).Fit) (hstuck : ∀ k, ¬ (run k).Stuck) {k₀ : Nat} (hk₀ : (run k₀).net = .finished) (i : Fin n.1) :
    ∃ k, (run k).DecoderGone i := by
  have hwf : WellFounded (Prod.Lex (· < · : Nat → Nat → Prop)
      (Prod.Lex (· < · : Nat → Nat → Prop) (· < · : Nat → Nat → Prop))) :=
    WellFounded.prod_lex Nat.lt_wfRel.wf (WellFounded.prod_lex Nat.lt_wfRel.wf Nat.lt_wfRel.wf)
  have hne : ∀ s : PipelineRunner n, s.decoderHelper i ≠ .stop := by
    intro s
    unfold decoderHelper
    split <;> simp
  have hnet : ∀ k, k₀ ≤ k → (run k).net = .finished := fun k hk =>
    hsched.invariant (P := fun s => s.net = .finished) (fun _ _ _ h hs => finished_step h hs) hk hk₀
  obtain ⟨k, hk, he⟩ : ∃ k, k₀ ≤ k ∧ ((run k).lanes i).decoder = .exited := by
    refine Runs.eventually hwf run acts (fun s => (s.lanes i).decoderMeasure) (decoderHelper i)
      (fun s => (s.lanes i).decoder = .exited) k₀ (fun s => hfair _ (hne s)) (fun k hk hg he => ?_) fun k hk _ => ?_
    · obtain ⟨s', hs, hlex⟩ := (hfit k).decoder_helps (hnet k hk) i hg (hstuck k)
      have hk' := hsched k
      rw [he, hs] at hk'
      rw [hk']
      exact .inr hlex
    · rcases hsched.cases k with hs | ⟨-, hs⟩
      · exact .inr ((hfit k).decoder_progress (hnet k hk) hs i)
      · rw [hs]; exact .inr (.inr ⟨rfl, rfl⟩)
  exact ⟨k, hnet k hk, he⟩

theorem eventually_laneGone (hsched : Runs.Scheduled step run acts) (hfair : ∀ a, a ≠ .stop → Runs.Recurs acts a)
    (hfit : ∀ k, (run k).Fit) (hstuck : ∀ k, ¬ (run k).Stuck) {k₀ : Nat} {i : Fin n.1} (hk₀ : (run k₀).DecoderGone i) :
    ∃ k, (run k).LaneGone i := by
  have hgone : ∀ k, k₀ ≤ k → (run k).DecoderGone i := fun k hk =>
    hsched.invariant (P := DecoderGone i) (fun _ _ _ h hs => h.step hs) hk hk₀
  have hdone : ∀ k, k₀ ≤ k → ((run k).lanes i).decoderDone = true := by
    intro k hk
    rw [((hfit k).turns.lanes i).done, (hgone k hk).2]
    rfl
  obtain ⟨k, hk, he⟩ : ∃ k, k₀ ≤ k ∧ ((run k).lanes i).publisher = .left := by
    refine Runs.eventually Nat.lt_wfRel.wf run acts (fun s => (s.lanes i).publisherRank) (fun _ => .publisher i)
      (fun s => (s.lanes i).publisher = .left) k₀ (fun _ => hfair _ (by simp)) (fun k hk hg he => ?_) fun k hk _ => ?_
    · obtain ⟨l, hl⟩ := ((hfit k).lanes i).exists_publisherStep hg
        (fun hb => hstuck k ⟨i, .inr ⟨(hgone k hk).2, hb.1, hb.2⟩⟩)
      have hk' := hsched k
      rw [he, step, hl] at hk'
      refine .inr ?_
      rw [hk']
      show (((run k).setLane i l).lanes i).publisherRank < _
      rw [lanes_setLane, if_pos rfl]
      exact ((hfit k).lanes i).publisher_lt ((hfit k).inv i) (hdone k hk) (Lane.publisherStep_cases hl)
    · rcases hsched.cases k with hs | ⟨-, hs⟩
      · rcases lane_step_of_exited (hgone k hk).1 (hgone k hk).2 hs with hl | ⟨-, hp⟩
        · rw [hl]; exact .inr (.inr ⟨rfl, rfl⟩)
        · exact .inr (.inl (((hfit k).lanes i).publisher_lt ((hfit k).inv i) (hdone k hk) hp))
      · rw [hs]; exact .inr (.inr ⟨rfl, rfl⟩)
  exact ⟨k, hgone k hk, he⟩

/-- For every feed, any stop request and every schedule that tries each thread again and again: from some
moment on every thread has exited, or a consumer sleeps with its upstream thread gone. -/
theorem fair_run_ends (feed : List (Option Bytes)) (run : Nat → PipelineRunner n) (acts : Nat → Actor n)
    (h₀ : run 0 = PipelineRunner.start n feed) (hsched : Runs.Scheduled step run acts)
    (hfair : ∀ a, a ≠ .stop → Runs.Recurs acts a) (hlen : 2 * feed.length < 2 ^ 64) :
    ∃ k, (∀ m, k ≤ m → (run m).Finished) ∨ ∀ m, k ≤ m → (run m).Stuck := by
  have hN : ∀ k i, (run k).InRange i := fun k => (hsched.invariant (P := Tracked feed.length)
    (fun _ _ _ h hs => h.step hlen hs) (Nat.zero_le k) (h₀ ▸ .start feed)).inRange hlen
  have hfit : ∀ k, (run k).Fit := hsched.invariant_while (P := Fit) (Q := fun s => ∀ i, s.InRange i)
    (fun _ _ _ h hN hs => h.step hN hs) (h₀ ▸ .start feed) hN
  by_cases hstuck : ∃ k, (run k).Stuck
  · obtain ⟨k, hk⟩ := hstuck
    exact ⟨k, .inr fun m hm => hsched.invariant (P := Stuck) (fun _ _ _ h hs => h.step hs) hm hk⟩
  · have hstuck' : ∀ k, ¬ (run k).Stuck := fun k hk => hstuck ⟨k, hk⟩
    obtain ⟨k₁, hk₁⟩ := eventually_finished hsched hfair hfit
    have hlane : ∀ i, ∃ k, (run k).LaneGone i := by
      intro i
      obtain ⟨k₂, hk₂⟩ := eventually_decoderGone hsched hfair hfit hstuck' hk₁ i
      exact eventually_laneGone hsched hfair hfit hstuck' hk₂
    choose ks hks using hlane
    refine ⟨Finset.univ.sup ks, .inl fun m hm => ?_⟩
    have hgone : ∀ i, (run m).LaneGone i := fun i =>
      hsched.invariant (P := LaneGone i) (fun _ _ _ h hs => h.step hs)
        ((Finset.le_sup (Finset.mem_univ i)).trans hm) (hks i)
    exact ⟨(hgone ⟨0, n.pos⟩).1.1, fun i => ⟨(hgone i).1.2, (hgone i).2⟩⟩

end Run

/-- The three threads of one shard in turn. -/
def inTurn (k : Nat) : Actor oneShard :=
  if k % 3 = 0 then .net else if k % 3 = 1 then .decoder 0 else .publisher 0

theorem recurs_inTurn : ∀ a, a ≠ .stop → Runs.Recurs inTurn a := by
  have hone : ∀ i : Fin oneShard.1, i = 0 := fun i => Subsingleton.elim (α := Fin 1) i 0
  rintro (_ | _ | i | i) ha k
  · exact absurd rfl ha
  · refine ⟨3 * k, by omega, ?_⟩
    rw [inTurn, if_pos (by omega)]
  · refine ⟨3 * k + 1, by omega, ?_⟩
    rw [inTurn, if_neg (by omega), if_pos (by omega), hone i]
  · refine ⟨3 * k + 2, by omega, ?_⟩
    rw [inTurn, if_neg (by omega), if_neg (by omega), hone i]

theorem fair_run_ends_inTurn : ∃ k,
    (∀ m, k ≤ m → (Runs.follow step (.start oneShard sampleFeed) inTurn m).Finished) ∨
      ∀ m, k ≤ m → (Runs.follow step (.start oneShard sampleFeed) inTurn m).Stuck :=
  fair_run_ends sampleFeed _ inTurn rfl (Runs.scheduled_follow _ _) recurs_inTurn (by decide)

end PipelineRunner

end Mdfh
