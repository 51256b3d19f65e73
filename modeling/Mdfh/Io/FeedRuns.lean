import Mdfh.Io.FeedGenerator
import Mdfh.Io.Gaps

/-!
# The simulated feed into the pipeline

A generated message that picks an order its Executes have already filled finds no route once the last
of them was processed, is rejected by `demux`, and leaves a hole in its shard's numbers. If there is no
such message, every schedule takes the whole feed without a gap (`Feeding.exec`); if there is one, the
schedule that processes every message at once rejects it (`Feeding.eager`).
-/

namespace Mdfh
open TreeMapLib GapDetector
open LittleEndian (Bytes)
open FeedGenerator (Config Draw symbolOf shardOf executionsOf Filled Generated)

variable {n : NumShards} {cfg : Config n.1}

/-- The generator, the reference and the pipeline after the same messages. -/
structure Feeding (g : FeedGenerator cfg) (l : Live) (ms : List DecodedMessage) (k : Nat)
    (p : ShardedPipeline n) : Prop where
  tracks : g.Tracks l ms k
  ids : k ≤ g.emittedCount.toNat + 1
  seqs : ∀ i, (g.nextSeqPerShard i).toNat ≤ g.emittedCount.toNat
  serves : p.Serves l
  executed : ∀ i, ∀ qm ∈ (p.shards i).queue.items, ∀ x, qm.message = .execute x → x.orderId.toNat < k
  numbered : ∀ i, ∃ j, (p.shards i).gapDetector.OnTrack j ∧
    NumberedFrom j ((p.shards i).queue.items.map (·.message)) ∧
    j + (p.shards i).queue.items.length = (g.nextSeqPerShard i).toNat

namespace NumberedFrom

theorem snoc {k : Nat} {l : List DecodedMessage} (h : NumberedFrom k l) {m : DecodedMessage}
    (hm : m.seqNum.toNat = k + l.length + 1) : NumberedFrom k (l ++ [m]) := by
  intro j m' hj
  by_cases hlt : j < l.length
  · rw [List.getElem?_append_left hlt] at hj
    exact h j m' hj
  · rw [List.getElem?_append_right (by omega), List.getElem?_singleton] at hj
    split at hj
    · next he =>
      cases hj
      rw [hm]
      omega
    · cases hj

end NumberedFrom

namespace ShardedPipeline.Serves
variable {l : Live} {p : ShardedPipeline n} {raw : Bytes} {m : DecodedMessage} {s : Symbol}

theorem queue_demux (h : p.Serves l) (hd : decode raw = .ok m) (hs : l.Home m s) {i : Fin n.1}
    (hdrop : ((p.demux raw).2.shards i).queue.dropped = (p.shards i).queue.dropped) :
    ((p.demux raw).2.shards i).queue.items =
      (p.shards i).queue.items ++ if i = shardForSymbol n s then [⟨s, m⟩] else [] := by
  rw [h.demux_eq hd hs, routed, ShardedPipeline.queue_enqueue] at hdrop ⊢
  split at hdrop
  · next hi =>
    subst hi
    rw [if_pos rfl, if_pos rfl]
    exact (DropOldest.push_of_lt (DropOldest.dropped_push_iff.1 hdrop)).1
  · next hi => rw [if_neg hi, if_neg hi, List.append_nil]

theorem state_demux (h : p.Serves l) (hd : decode raw = .ok m) (hs : l.Home m s) (i : Fin n.1) :
    ((p.demux raw).2.shards i).toShardState = (p.shards i).toShardState := by
  rw [h.demux_eq hd hs, routed, ShardedPipeline.toShardState_enqueue]

end ShardedPipeline.Serves

namespace Feeding
variable {g : FeedGenerator cfg} {l : Live} {ms : List DecodedMessage} {k : Nat} {p p' : ShardedPipeline n}

theorem init : Feeding ({} : FeedGenerator cfg) Live.empty [] 1 {} := by
  refine ⟨.init, le_rfl, fun i => le_rfl, .init, ?_, ?_⟩
  · intro i qm hqm
    simp at hqm
  · intro i
    exact ⟨0, .init, fun j m hm => by simp at hm, rfl⟩

theorem not_fillPending (h : Feeding g l ms k p) {id : OrderId} (hid : k ≤ id.toNat) : ¬ p.routingView.FillPending id := by
  rintro ⟨sym, pre, x, post, hp, rfl, -⟩
  have hmem : DecodedMessage.execute x ∈ p.pendingFor sym := by
    rw [show p.pendingFor sym = _ from hp]
    simp
  obtain ⟨qm, hqm, hx⟩ := List.mem_map.1 hmem
  have := h.executed _ qm (List.mem_filter.1 hqm).1 x hx
  omega

theorem refers_iff (h : Feeding g l ms k p) (he : g.emittedCount < cfg.messageCount) (d : Draw) :
    l.Refers (g.emit d).1 ↔ (∃ a, (g.emit d).1 = .add a) ∨ ¬ Filled ms (g.emit d).1.orderId := by
  obtain ⟨id, ids, hg, -⟩ := FeedGenerator.emit_spec h.seqs he d
  exact h.tracks.refers_iff (FeedGenerator.id_lt h.ids he) hg

theorem demux (h : Feeding g l ms k p) (he : g.emittedCount < cfg.messageCount) {d : Draw} (hr : l.Refers (g.emit d).1)
    (hdrop : ∀ i, ((p.demux (g.emit d).1.packet).2.shards i).queue.dropped = (p.shards i).queue.dropped) :
    (∃ i, (p.demux (g.emit d).1.packet).1 = .ok i) ∧
      ∃ k', Feeding (g.emit d).2 (l.apply (g.emit d).1) (ms ++ [(g.emit d).1]) k' (p.demux (g.emit d).1.packet).2 := by
  have hk := FeedGenerator.id_lt h.ids he
  obtain ⟨id, ids, hg, hid, hids, hcount, hseq, hseqs⟩ := FeedGenerator.emit_spec h.seqs he d
  have hnew : ∀ id ∈ (g.emit d).1.introduced, ¬ p.routingView.FillPending id := by
    intro id hid
    refine h.not_fillPending ?_
    rw [FeedGenerator.Tracks.introduced_eq hg hid]
    exact (h.tracks.next_toNat hk).ge
  obtain ⟨hok, hserves⟩ := h.serves.demux (DecodedMessage.decode_packet _) hr hnew hdrop
  have hq : ∀ i, ((p.demux (g.emit d).1.packet).2.shards i).queue.items = (p.shards i).queue.items ++
      if i = shardOf cfg d then [⟨symbolOf cfg d, (g.emit d).1⟩] else [] := fun i =>
    h.serves.queue_demux (DecodedMessage.decode_packet _) (h.tracks.home hg hr) (hdrop i)
  have hstate := h.serves.state_demux (DecodedMessage.decode_packet _) (h.tracks.home hg hr)
  obtain ⟨k', hkk', hk', htracks⟩ := h.tracks.generate hk hg hr
  refine ⟨hok, k', htracks _ hid hids, ?_, ?_, hserves, ?_, ?_⟩
  · have := h.ids
    omega
  · intro i
    have := h.seqs i
    rw [hseqs, hcount]
    split <;> omega
  · intro i qm hqm x hx
    rw [hq] at hqm
    rcases List.mem_append.1 hqm with hqm | hqm
    · exact (h.executed i qm hqm x hx).trans_le hkk'
    · split at hqm
      · rw [List.mem_singleton.1 hqm] at hx
        exact (h.tracks.executed_lt hg hx).trans_le hkk'
      · cases hqm
  · intro i
    obtain ⟨j, hj, hnum, hlen⟩ := h.numbered i
    refine ⟨j, by rw [hstate]; exact hj, ?_, ?_⟩
    · rw [hq]
      split
      · next hi =>
        rw [List.map_append]
        refine hnum.snoc ?_
        rw [List.length_map, hlen, hi]
        exact hseq
      · rw [List.append_nil]
        exact hnum
    · rw [hq, hseqs, List.length_append, ← hlen]
      split <;> simp [Nat.add_assoc]

theorem processed (h : Feeding g l ms k p) {i : Fin n.1} {qm : QueuedMessage}
    {result : Except ApplyError ApplyResult} (hp : p.Processed i qm result p') : Feeding g l ms k p' := by
  refine ⟨h.tracks, h.ids, h.seqs, h.serves.processed hp, ?_, ?_⟩
  · intro j qm' hqm'
    exact h.executed j qm' (hp.mem_queue hqm')
  · intro j
    obtain ⟨t, ht, hnum, hlen⟩ := h.numbered j
    by_cases hj : j = i
    · subst hj
      rw [hp.items, List.map_cons] at hnum
      rw [hp.items, List.length_cons] at hlen
      refine ⟨t + 1, ?_, hnum.tail, by omega⟩
      rw [hp.state, if_pos rfl]
      exact (ht.observe_next hnum.head).2
    · rw [hp.state, if_neg hj, hp.queue j hj]
      exact ⟨t, ht, hnum, hlen⟩

/-! ### Runs -/

variable {r : Run n}

theorem step_of_ne_demux (h : Feeding g l ms k r.pipeline) {op : Op n} (hop : ∀ raw, op ≠ .demux raw)
    (hres : ∀ i s, op ≠ .resync i s) : Feeding g l ms k (r.step op).pipeline ∧ (r.step op).demuxed = r.demuxed := by
  cases op with
  | demux raw => exact absurd rfl (hop raw)
  | resync i s => exact absurd rfl (hres i s)
  | process i =>
    rcases r.step_process i with ⟨-, hr⟩ | ⟨qm, result, p', hp, hr⟩
    · rw [hr]; exact ⟨h, rfl⟩
    · rw [hr]; exact ⟨h.processed hp, rfl⟩
  | publish i =>
    have hst := fun j => (r.step_publish i j).1
    have hq := fun j => (r.step_publish i j).2
    refine ⟨⟨h.tracks, h.ids, h.seqs, h.serves.step_of_ne_demux hop, ?_, ?_⟩, rfl⟩
    · intro j
      rw [hq]
      exact h.executed j
    · intro j
      rw [hq, hst]
      exact h.numbered j

/-- A schedule of the rest of the feed, none of which picks a filled order. -/
theorem exec (h : Feeding g l ms k r.pipeline) (hloss : cfg.packetLossRate = 0) {ops : List (Op n)}
    {ds : List Draw} (hp : packetsOf ops = (g.messages ds).map (·.packet)) (hr : NoResync ops)
    (hd : ∀ i, ((r.exec ops).pipeline.shards i).queue.dropped = (r.pipeline.shards i).queue.dropped)
    (hf : ∀ pre m post, g.messages ds = pre ++ m :: post → (∃ a, m = .add a) ∨ ¬ Filled (ms ++ pre) m.orderId) :
    (∃ (g' : FeedGenerator cfg) (l' : Live) (ms' : List DecodedMessage) (k' : Nat), Feeding g' l' ms' k' (r.exec ops).pipeline) ∧
      ∀ x ∈ (r.exec ops).demuxed, x ∈ r.demuxed ∨ ∃ i, x = .ok i := by
  induction ops generalizing g l ms k r ds with
  | nil => exact ⟨⟨g, l, ms, k, h⟩, fun x hx => .inl hx⟩
  | cons op ops ih =>
    obtain ⟨hstep, hrest⟩ := Run.dropped_exec_cons hd
    have hr' : NoResync ops := fun i s hm => hr i s (List.mem_cons_of_mem _ hm)
    by_cases hop : ∃ raw, op = .demux raw
    · obtain ⟨raw, rfl⟩ := hop
      have hp₁ : raw :: packetsOf ops = (g.messages ds).map (·.packet) := hp
      by_cases he : g.emittedCount < cfg.messageCount
      · cases ds with
        | nil => cases hp₁
        | cons d ds =>
          rw [FeedGenerator.messages_of_lt hloss he] at hp₁ hf
          obtain ⟨rfl, hp'⟩ := List.cons.inj hp₁
          have hrefers : l.Refers (g.emit d).1 := by
            rw [h.refers_iff he]
            have := hf [] _ _ rfl
            rwa [List.append_nil] at this
          obtain ⟨⟨i, hi⟩, k', h'⟩ := h.demux he hrefers hstep
          obtain ⟨hfin, hx⟩ := ih (r := r.step (.demux (g.emit d).1.packet)) h' hp' hr' hrest (by
            intro pre m post hms
            have := hf ((g.emit d).1 :: pre) m post (by rw [hms]; rfl)
            rwa [List.append_assoc])
          refine ⟨hfin, fun x hxm => (hx x hxm).elim (fun hxm => ?_) .inr⟩
          rcases List.mem_append.1 hxm with hxm | hxm
          · exact .inl hxm
          · exact .inr ⟨i, (List.mem_singleton.1 hxm).trans hi⟩
      · rw [(FeedGenerator.exhausted he ds).2] at hp₁
        cases hp₁
    · have hop' : ∀ raw, op ≠ .demux raw := fun raw e => hop ⟨raw, e⟩
      obtain ⟨h', hdem⟩ := h.step_of_ne_demux hop' fun i s e => hr i s (e ▸ List.mem_cons_self)
      have hp' : packetsOf (op :: ops) = packetsOf ops := by
        cases op with
        | demux raw => exact absurd rfl (hop' raw)
        | process i => rfl
        | publish i => rfl
        | resync i s => rfl
      have := ih h' (hp'.symm.trans hp) hr' hrest hf
      rw [hdem] at this
      exact this

end Feeding

/-! ### Processing every message at once -/

section Eager
variable {r : Run n}

/-- Each packet, then one step of every shard. -/
def eager (n : NumShards) (raws : List Bytes) : List (Op n) :=
  raws.flatMap fun raw => .demux raw :: (List.finRange n.1).map .process

theorem packetsOf_eager (raws : List Bytes) : packetsOf (eager n raws) = raws := by
  induction raws with
  | nil => rfl
  | cons raw raws ih =>
    have hproc : ∀ is : List (Fin n.1), packetsOf (is.map Op.process ++ eager n raws) = packetsOf (eager n raws) := by
      intro is
      induction is with
      | nil => rfl
      | cons i is ih' => exact ih'
    show raw :: packetsOf ((List.finRange n.1).map Op.process ++ eager n raws) = _
    rw [hproc, ih]

theorem noResync_eager (raws : List Bytes) : NoResync (eager n raws) := by
  intro i s h
  obtain ⟨raw, -, h⟩ := List.mem_flatMap.1 h
  rcases List.mem_cons.1 h with h | h
  · cases h
  · obtain ⟨j, -, h⟩ := List.mem_map.1 h
    cases h

theorem Run.sweep (is : List (Fin n.1)) (r : Run n) (h : ∀ j, (r.pipeline.shards j).queue.items.length ≤ 1) :
    (∀ j, ((r.exec (is.map .process)).pipeline.shards j).queue.items =
      if j ∈ is then [] else (r.pipeline.shards j).queue.items) ∧
    (∀ j, ((r.exec (is.map .process)).pipeline.shards j).queue.dropped = (r.pipeline.shards j).queue.dropped) ∧
    (r.exec (is.map .process)).demuxed = r.demuxed := by
  induction is generalizing r with
  | nil => exact ⟨fun j => rfl, fun j => rfl, rfl⟩
  | cons i is ih =>
    have hstep : (∀ j, ((r.step (.process i)).pipeline.shards j).queue.items =
        if j = i then [] else (r.pipeline.shards j).queue.items) ∧
        (∀ j, ((r.step (.process i)).pipeline.shards j).queue.dropped = (r.pipeline.shards j).queue.dropped) ∧
        (r.step (.process i)).demuxed = r.demuxed := by
      rcases r.step_process i with ⟨he, hr⟩ | ⟨qm, result, p', hp, hr⟩
      · rw [hr]
        refine ⟨fun j => ?_, fun j => rfl, rfl⟩
        split
        · next hj => rw [hj, he]
        · rfl
      · rw [hr]
        refine ⟨fun j => ?_, hp.dropped, rfl⟩
        split
        · next hj =>
          have hlen := h i
          rw [hp.items, List.length_cons] at hlen
          have hnil : (p'.shards i).queue.items = [] := List.length_eq_zero_iff.1 (by omega)
          rw [hj]
          exact hnil
        · next hj => rw [hp.queue j hj]
    obtain ⟨hitems, hdrop, hdem⟩ := hstep
    obtain ⟨h₁, h₂, h₃⟩ := ih (r.step (.process i)) fun j => by
      rw [hitems]
      split
      · exact Nat.zero_le _
      · exact h j
    refine ⟨fun j => (h₁ j).trans ?_, fun j => (h₂ j).trans (hdrop j), h₃.trans hdem⟩
    rw [hitems]
    by_cases hj : j = i
    · simp [hj]
    · simp [hj]

theorem ShardedPipeline.Drained.demux {p : ShardedPipeline n} (h : p.Drained) (raw : Bytes) :
    (∀ j, ((p.demux raw).2.shards j).queue.items.length ≤ 1) ∧
      ∀ j, ((p.demux raw).2.shards j).queue.dropped = (p.shards j).queue.dropped := by
  have hkeep : (∀ j, (p.shards j).queue.items.length ≤ 1) ∧
      ∀ j, (p.shards j).queue.dropped = (p.shards j).queue.dropped :=
    ⟨fun j => by rw [h j]; exact Nat.zero_le _, fun _ => rfl⟩
  unfold ShardedPipeline.demux
  split
  · exact hkeep
  · split
    · exact hkeep
    · next dest r' hdest =>
      have hlt : (p.shards dest.shardIndex).queue.items.length < kShardQueueCapacity := by
        rw [h dest.shardIndex]
        decide
      refine ⟨fun j => ?_, fun j => ?_⟩
      · rw [queue_enqueue]
        split
        · rw [(DropOldest.push_of_lt hlt).1, h dest.shardIndex]
          exact le_rfl
        · exact hkeep.1 j
      · rw [queue_enqueue]
        split
        · next hj => rw [(DropOldest.push_of_lt hlt).2, hj]
        · rfl

theorem Run.exec_append (r : Run n) (ops ops' : List (Op n)) : r.exec (ops ++ ops') = (r.exec ops).exec ops' :=
  List.foldl_append

theorem Run.mem_demuxed_exec {x : Except DemuxError (Fin n.1)} (hx : x ∈ r.demuxed) (ops : List (Op n)) :
    x ∈ (r.exec ops).demuxed := by
  induction ops generalizing r with
  | nil => exact hx
  | cons op ops ih =>
    refine ih ?_
    cases op with
    | demux raw => exact List.mem_append_left _ hx
    | process i =>
      rcases r.step_process i with ⟨-, hr⟩ | ⟨qm, result, p', hp, hr⟩ <;> rw [hr] <;> exact hx
    | publish i => exact hx
    | resync i s => exact hx

theorem Run.round (h : r.pipeline.Drained) (raw : Bytes) :
    let r' := (r.step (.demux raw)).exec ((List.finRange n.1).map .process)
    r'.pipeline.Drained ∧ (∀ j, (r'.pipeline.shards j).queue.dropped = (r.pipeline.shards j).queue.dropped) ∧
      r'.demuxed = r.demuxed ++ [(r.pipeline.demux raw).1] := by
  obtain ⟨hlen, hdrop⟩ := h.demux raw
  obtain ⟨h₁, h₂, h₃⟩ := Run.sweep (List.finRange n.1) (r.step (.demux raw)) hlen
  refine ⟨fun j => ?_, fun j => (h₂ j).trans (hdrop j), h₃⟩
  rw [h₁, if_pos (List.mem_finRange j)]

theorem Run.exec_eager_cons (r : Run n) (raw : Bytes) (raws : List Bytes) :
    r.exec (eager n (raw :: raws)) =
      ((r.step (.demux raw)).exec ((List.finRange n.1).map .process)).exec (eager n raws) := by
  rw [← Run.exec_append]
  rfl

theorem Run.dropped_eager (h : r.pipeline.Drained) (raws : List Bytes) (j : Fin n.1) :
    ((r.exec (eager n raws)).pipeline.shards j).queue.dropped = (r.pipeline.shards j).queue.dropped := by
  induction raws generalizing r with
  | nil => rfl
  | cons raw raws ih =>
    obtain ⟨h₁, h₂, -⟩ := Run.round h raw
    rw [Run.exec_eager_cons, ih h₁, h₂]

end Eager

namespace Feeding
variable {g : FeedGenerator cfg} {l : Live} {ms : List DecodedMessage} {k : Nat} {r : Run n}

theorem sweep (h : Feeding g l ms k r.pipeline) (is : List (Fin n.1)) :
    Feeding g l ms k (r.exec (is.map .process)).pipeline := by
  induction is generalizing r with
  | nil => exact h
  | cons i is ih =>
    have hstep : Feeding g l ms k (r.step (.process i)).pipeline := (h.step_of_ne_demux (by simp) (by simp)).1
    exact ih hstep

theorem refers_of_ok (h : Feeding g l ms k r.pipeline) (hq : r.pipeline.Drained)
    (he : g.emittedCount < cfg.messageCount) {d : Draw} {i : Fin n.1}
    (hi : (r.pipeline.demux (g.emit d).1.packet).1 = .ok i) : l.Refers (g.emit d).1 := by
  obtain ⟨id, ids, hg, -⟩ := FeedGenerator.emit_spec h.seqs he d
  rw [ShardedPipeline.demux_packet] at hi
  cases hdest : destination r.pipeline.orderRoute (g.emit d).1 with
  | none =>
    rw [hdest] at hi
    cases hi
  | some dest =>
    refine h.tracks.refers_of_live (FeedGenerator.id_lt h.ids he) hg fun hna => ?_
    have hroute : r.pipeline.orderRoute[(g.emit d).1.orderId]? = some dest := by
      cases hm : (g.emit d).1 with
      | add a => exact absurd hm (hna a)
      | cancel x => rwa [hm] at hdest
      | execute x => rwa [hm] at hdest
      | replace x => rwa [hm] at hdest
    exact (h.serves.coherent.only _ ((contains_iff _ _).2 ⟨dest, hroute⟩)).resolve_right
      (RoutingView.not_fillPending hq.pendingFor)

/-- If all of the feed is taken message by message, none of it picks a filled order. -/
theorem eager (h : Feeding g l ms k r.pipeline) (hq : r.pipeline.Drained) (hloss : cfg.packetLossRate = 0)
    {ds : List Draw}
    (hok : ∀ x ∈ (r.exec (Mdfh.eager n ((g.messages ds).map (·.packet)))).demuxed, ∃ i, x = .ok i) :
    ∀ pre m post, g.messages ds = pre ++ m :: post → (∃ a, m = .add a) ∨ ¬ Filled (ms ++ pre) m.orderId := by
  induction ds generalizing g l ms k r with
  | nil =>
    intro pre m post he
    simp [FeedGenerator.messages] at he
  | cons d ds ih =>
    intro pre m post hms
    by_cases he : g.emittedCount < cfg.messageCount
    · rw [FeedGenerator.messages_of_lt hloss he] at hok hms
      rw [List.map_cons, Run.exec_eager_cons] at hok
      obtain ⟨hdrained, -, hdem⟩ := Run.round hq (g.emit d).1.packet
      obtain ⟨i, hi⟩ := hok (r.pipeline.demux (g.emit d).1.packet).1
        (Run.mem_demuxed_exec (by rw [hdem]; exact List.mem_append_right _ List.mem_cons_self) _)
      have hrefers := h.refers_of_ok hq he hi
      obtain ⟨-, k', h'⟩ := h.demux he hrefers (hq.demux _).2
      cases pre with
      | nil =>
        obtain ⟨rfl, -⟩ := List.cons.inj hms
        rw [List.append_nil]
        exact (h.refers_iff he d).1 hrefers
      | cons m' pre =>
        obtain ⟨rfl, hms'⟩ := List.cons.inj hms
        have := ih (h'.sweep (r := r.step (.demux (g.emit d).1.packet)) (List.finRange _)) hdrained hok pre m post hms'
        rwa [List.append_assoc] at this
    · rw [(FeedGenerator.exhausted he _).2] at hms
      simp at hms

end Feeding

/-- Every schedule of the feed without overflow takes every message, and no shard sees a gap. -/
def NeverReportsLoss (n : NumShards) (cfg : Config n.1) (ds : List Draw) : Prop :=
  ∀ ops : List (Op n), packetsOf ops = ({} : FeedGenerator cfg).packets ds → NoResync ops →
    (∀ i, ((({} : Run n).exec ops).pipeline.shards i).queue.dropped = 0) →
    let r := ({} : Run n).exec ops
    (∀ x ∈ r.demuxed, ∃ i, x = .ok i) ∧
      ∀ i, (r.pipeline.shards i).gapDetector.state = .live ∧ (r.pipeline.shards i).gapDetector.sequenceGapsTotal = 0

/-- A feed without packet loss reports none in every schedule exactly when no generated Cancel, Execute
or Replace picks an order that the Executes before it have filled. -/
theorem neverReportsLoss_iff (n : NumShards) (cfg : Config n.1) (hloss : cfg.packetLossRate = 0) (ds : List Draw) :
    NeverReportsLoss n cfg ds ↔ ∀ pre m post, ({} : FeedGenerator cfg).messages ds = pre ++ m :: post →
      (∃ a, m = .add a) ∨ ¬ Filled pre m.orderId := by
  have hpackets := FeedGenerator.packets_eq hloss ({} : FeedGenerator cfg) ds
  constructor
  · intro h
    have hdrained : ({} : ShardedPipeline n).Drained := fun _ => rfl
    obtain ⟨hok, -⟩ := h (eager n (({} : FeedGenerator cfg).packets ds)) (packetsOf_eager _)
      (noResync_eager _) (fun i => Run.dropped_eager (r := {}) hdrained _ i)
    rw [hpackets] at hok
    exact Feeding.init.eager (r := {}) hdrained hloss hok
  · intro hf ops hp hr hd
    rw [hpackets] at hp
    obtain ⟨⟨g', l', ms', k', h⟩, hx⟩ := Feeding.init.exec (r := {}) hloss hp hr hd hf
    refine ⟨fun x hxm => (hx x hxm).resolve_left (by simp), fun i => ?_⟩
    obtain ⟨j, hj, -⟩ := h.numbered i
    exact ⟨hj.live, hj.gaps⟩

def sampleConfig : Config oneShard.1 :=
  { numShards_pos := oneShard.pos, symbols := [sampleSymbol], symbols_pos := by decide, messageCount := 8 }

def sampleDraw (roll : ℚ) (orderPick : Nat) : Draw := ⟨0, roll, orderPick, 0, le_rfl⟩

/-- Orders `1` and `2`, four Executes of `3` that fill the `12` of order `2`, and an Execute of order `1`. -/
def fillDraws : List Draw :=
  [sampleDraw 0 0, sampleDraw 0 0] ++ List.replicate 4 (sampleDraw (3 / 4) 1) ++ [sampleDraw (3 / 4) 0]

theorem neverReportsLoss_fill : Filled (({} : FeedGenerator sampleConfig).messages fillDraws) 2 ∧
    NeverReportsLoss oneShard sampleConfig fillDraws := by
  refine ⟨by decide +kernel, (neverReportsLoss_iff oneShard sampleConfig rfl _).2 fun pre m post he => .inr ?_⟩
  have hopen : ∀ k ≤ 6, ∀ m ∈ (({} : FeedGenerator sampleConfig).messages fillDraws)[k]?,
      ¬ Filled ((({} : FeedGenerator sampleConfig).messages fillDraws).take k) m.orderId := by decide +kernel
  have hlen : (({} : FeedGenerator sampleConfig).messages fillDraws).length = 7 := by decide +kernel
  have hk : pre.length ≤ 6 := by
    rw [he, List.length_append, List.length_cons] at hlen
    omega
  have := hopen pre.length hk m (by rw [he]; simp)
  rwa [he, List.take_left] at this

/-- Orders `1` and `2`, four Executes of `3` that fill the `12` of order `2`, a fifth, and another Add. -/
def sampleDraws : List Draw :=
  [sampleDraw 0 0, sampleDraw 0 0] ++ List.replicate 5 (sampleDraw (3 / 4) 1) ++ [sampleDraw 0 0]

/-- The fifth Execute is unroutable, and the Add behind it makes the shard stale. -/
theorem filled_order_reports_loss :
    let r := ({} : Run oneShard).exec (eager oneShard (({} : FeedGenerator sampleConfig).packets sampleDraws))
    (.error .unroutableOrderId ∈ r.demuxed ∧ (r.pipeline.shards ⟨0, by decide⟩).gapDetector.state = .stale) ∧
      ¬ NeverReportsLoss oneShard sampleConfig sampleDraws := by
  intro r
  have hr : .error .unroutableOrderId ∈ r.demuxed := by decide +kernel
  refine ⟨⟨hr, by decide +kernel⟩, fun h => ?_⟩
  obtain ⟨hok, -⟩ := h (eager oneShard (({} : FeedGenerator sampleConfig).packets sampleDraws)) (packetsOf_eager _)
    (noResync_eager _) (by decide +kernel)
  obtain ⟨i, hi⟩ := hok _ hr
  cases hi

end Mdfh
