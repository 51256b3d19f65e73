import Mdfh.Io.Lossless

/-!
# A packet that arrives again

`process_shard` does not look at what `observe` returns, so a message the detector classifies as a
duplicate is applied like any other. Whether it does any harm is up to the routing table and the book:
it is harmless exactly when it has no route, or the book it is routed to rejects it by the time
`process_shard` has come to it.
-/

namespace Mdfh

variable {n : NumShards}

namespace ShardedPipeline

/-- `demux` of the message once more, then `process_shard` on the shard it went to. -/
def replay (p : ShardedPipeline n) (m : DecodedMessage) : ShardedPipeline n :=
  match p.demux m.packet with
  | (.error _, p) => p
  | (.ok i, p) => p.processShard i

/-- The same up to where `process_shard` comes to the message: what is queued ahead of it is processed. -/
def untilReplay (p : ShardedPipeline n) (m : DecodedMessage) : ShardedPipeline n :=
  match p.demux m.packet with
  | (.error _, p) => p
  | (.ok i, p) => processLoop i ((p.shards i).queue.items.length - 1) p

/-- Every book and every output queue is as it was. -/
def Unchanged (p p' : ShardedPipeline n) : Prop :=
  (∀ i sym, (p'.shards i).book sym = (p.shards i).book sym) ∧ ∀ i, (p'.shards i).outputQueue = (p.shards i).outputQueue

/-- The message has no route, or the book it is routed to rejects it when its turn comes. -/
def Refuses (p : ShardedPipeline n) (m : DecodedMessage) : Prop :=
  ∀ dest ∈ destination p.orderRoute m, ¬ (((p.untilReplay m).shards dest.shardIndex).book dest.symbol).Accepts m

theorem Unchanged.refl (p : ShardedPipeline n) : p.Unchanged p := ⟨fun _ _ => rfl, fun _ => rfl⟩

theorem unchanged_enqueue (p : ShardedPipeline n) (r : RouteTable n) (i : Fin n.1) (qm : QueuedMessage) :
    p.Unchanged ({ p with orderRoute := r }.enqueue i qm) :=
  ⟨fun j sym => by rw [toShardState_enqueue], fun j => by rw [outputQueue_enqueue]⟩

/-- A processed message leaves its mark exactly when its book accepts it. -/
theorem Processed.unchanged_iff {p p' : ShardedPipeline n} {i : Fin n.1} {qm : QueuedMessage}
    {result : Except ApplyError ApplyResult} (h : p.Processed i qm result p') :
    p.Unchanged p' ↔ ¬ ((p.shards i).book qm.symbol).Accepts qm.message := by
  constructor
  · intro hu hacc
    obtain ⟨ds, hne, hds, -⟩ := OrderBook.apply_of_accepts hacc
    have hout := hu.2 i
    rw [h.output, if_pos rfl, h.accepted, hds, DropOldest.pushAll_eq_self_iff] at hout
    exact hne (List.map_eq_nil_iff.1 hout)
  · intro hrej
    obtain ⟨e, he, hb⟩ := OrderBook.apply_of_not_accepts hrej
    refine ⟨fun j sym => ?_, fun j => ?_⟩
    · rw [h.state]
      split
      · next hj =>
        rw [ShardState.book_applyMessage, hb, hj]
        split
        · next hs => rw [hs]
        · rfl
      · rfl
    · rw [h.output, h.accepted, he]
      split
      · next hj => rw [hj]; rfl
      · rfl

theorem processLoop_last {p : ShardedPipeline n} {i : Fin n.1} {qms : List QueuedMessage} {qm : QueuedMessage}
    (h : (p.shards i).queue.items = qms ++ [qm]) :
    ∃ result, (processLoop i qms.length p).Processed i qm result (p.processShard i) := by
  induction qms generalizing p with
  | nil => exact processShard_single h
  | cons qm' qms ih =>
    obtain ⟨result, p', hp⟩ := exists_processOne h
    have hitems := (processOne_spec hp).items
    rw [h, List.cons_append, List.cons.injEq] at hitems
    rw [List.length_cons, processLoop_succ hp, processShard_cons hp]
    exact ih hitems.2.symm

theorem replay_unchanged_iff (p : ShardedPipeline n) (m : DecodedMessage) :
    (p.untilReplay m).Unchanged (p.replay m) ↔ p.Refuses m := by
  unfold replay Refuses untilReplay
  rw [demux_packet]
  cases hd : destination p.orderRoute m with
  | none => simp [Unchanged.refl]
  | some dest =>
    dsimp only
    set p₁ := { p with orderRoute := routeAfter p.orderRoute dest m }.enqueue dest.shardIndex ⟨dest.symbol, m⟩ with hp₁
    obtain ⟨qms, hqms⟩ : ∃ qms, (p₁.shards dest.shardIndex).queue.items = qms ++ [⟨dest.symbol, m⟩] := by
      rw [hp₁, queue_enqueue, if_pos rfl]
      exact DropOldest.items_push _
    obtain ⟨result, hproc⟩ := processLoop_last hqms
    rw [hqms, List.length_append, List.length_singleton, Nat.add_sub_cancel, hproc.unchanged_iff]
    simp

theorem unchanged_untilReplay (p : ShardedPipeline n) (m : DecodedMessage)
    (hq : ∀ dest ∈ destination p.orderRoute m, (p.shards dest.shardIndex).queue.items = []) :
    p.Unchanged (p.untilReplay m) := by
  unfold untilReplay
  rw [demux_packet]
  cases hd : destination p.orderRoute m with
  | none => exact .refl p
  | some dest =>
    have hempty := hq dest (by simp [hd])
    dsimp only
    rw [queue_enqueue, if_pos rfl, (DropOldest.push_of_lt (by rw [hempty]; decide)).1, hempty]
    exact p.unchanged_enqueue _ _ _

end ShardedPipeline

/-- In every reachable state: when `process_shard` comes to a message that was sent again, it leaves books and output
alone exactly when the message has no route or its book rejects it then; with nothing queued ahead of it this is the
state before the call. -/
theorem replay_harmless_iff (ops : List (Op n)) (m : DecodedMessage) :
    let p := (({} : Run n).exec ops).pipeline
    ((p.untilReplay m).Unchanged (p.replay m) ↔ p.Refuses m) ∧
      ((∀ dest ∈ destination p.orderRoute m, (p.shards dest.shardIndex).queue.items = []) →
        p.Unchanged (p.untilReplay m)) :=
  ⟨ShardedPipeline.replay_unchanged_iff _ m, ShardedPipeline.unchanged_untilReplay _ m⟩

/-- A fill of `4` out of `10`. -/
def samplePart : DecodedMessage := .execute ⟨2, 7, 4, 2⟩

/-- The shard has processed the fill and calls its number a duplicate; replayed, it is applied again: the order goes
from `6` to `2` and a delta is pushed. -/
theorem replayed_execute_applied_twice :
    let ops : List (Op oneShard) :=
      [.demux sampleAdd.packet, .process ⟨0, by decide⟩, .demux samplePart.packet, .process ⟨0, by decide⟩]
    let r := ({} : Run oneShard).exec ops
    (⟨sampleSymbol, samplePart⟩ ∈ r.processed ⟨0, by decide⟩ ∧
      ((r.pipeline.shards ⟨0, by decide⟩).gapDetector.observe samplePart.seqNum).1 = .duplicate) ∧
    r.pipeline.Drained ∧ ¬ r.pipeline.Unchanged (r.pipeline.replay samplePart) := by
  intro ops r
  refine ⟨⟨by decide +kernel, by decide +kernel⟩, ?_, fun hu => ?_⟩
  · show ∀ i, _ = _
    decide +kernel
  · have := congrArg (·.resting 7) (hu.1 ⟨0, by decide⟩ sampleSymbol)
    revert this
    decide +kernel

end Mdfh
