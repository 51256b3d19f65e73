import Mdfh.Io.Lossless

/-!
# Symbols do not see each other

Two sessions: one with the whole stream, one with only the packets of the symbols in `K`, both with
the same `process_pending` and publisher calls. `Mirrors` is the relation that survives every call:
on the ids, messages, books and deltas of `K` the two pipelines hold the same, and the second holds
nothing else. A packet outside `K` moves the first session alone and stays within the relation.
-/

namespace Mdfh
open TreeMapLib
open LittleEndian (Bytes)

variable {n : NumShards} {symOf : OrderId → Symbol} {K : Symbol → Bool}

inductive Call (n : NumShards) where
  | packet (raw : Bytes)
  | processPending
  | publish (i : Fin n.1)
deriving DecidableEq

/-- A pipeline and what its sinks were handed. -/
structure Session (n : NumShards) where
  pipeline : ShardedPipeline n := {}
  sink : Fin n.1 → List BookDelta := fun _ => []

namespace Session

def call (s : Session n) : Call n → Session n
  | .packet raw => { s with pipeline := (s.pipeline.demux raw).2 }
  | .processPending => { s with pipeline := s.pipeline.processPending }
  | .publish i =>
    let d := s.pipeline.drainPublisherQueue i
    ⟨d.2, Function.update s.sink i (s.sink i ++ d.1)⟩

def exec (s : Session n) (calls : List (Call n)) : Session n := calls.foldl call s

/-- The deltas pushed by shard `i`: handed to its sink, or still in its output queue. -/
def published (s : Session n) (i : Fin n.1) : List BookDelta := s.sink i ++ (s.pipeline.shards i).outputQueue.items

end Session

/-- Whether the call stays when only the symbols in `K` are kept. -/
def keeps (symOf : OrderId → Symbol) (K : Symbol → Bool) : Call n → Bool
  | .packet raw =>
    match decode raw with
    | .ok m => K (symOf m.orderId)
    | .error _ => true
  | _ => true

/-! ### Drop counters -/

namespace ShardedPipeline

/-- No drop counter of `p` is above that of `p'`. -/
def DropsLe (p p' : ShardedPipeline n) : Prop :=
  ∀ i, (p.shards i).queue.dropped ≤ (p'.shards i).queue.dropped ∧
    (p.shards i).outputQueue.dropped ≤ (p'.shards i).outputQueue.dropped

namespace DropsLe
variable {p p' p'' : ShardedPipeline n}

theorem refl (p : ShardedPipeline n) : p.DropsLe p := fun _ => ⟨Nat.le_refl _, Nat.le_refl _⟩

theorem trans (h : p.DropsLe p') (h' : p'.DropsLe p'') : p.DropsLe p'' :=
  fun i => ⟨(h i).1.trans (h' i).1, (h i).2.trans (h' i).2⟩

theorem demux (p : ShardedPipeline n) (raw : Bytes) : p.DropsLe (p.demux raw).2 := by
  intro i
  refine ⟨p.dropped_demux_le raw i, ?_⟩
  unfold ShardedPipeline.demux
  split
  · exact Nat.le_refl _
  · split
    · exact Nat.le_refl _
    · rw [outputQueue_enqueue]

theorem processed {i : Fin n.1} {qm : QueuedMessage} {result : Except ApplyError ApplyResult}
    (h : p.Processed i qm result p') : p.DropsLe p' := by
  intro j
  refine ⟨(h.dropped j).ge, ?_⟩
  rw [h.output]
  split
  · next hj => rw [hj]; exact DropOldest.dropped_pushAll_le _
  · exact Nat.le_refl _

theorem processShard (p : ShardedPipeline n) (i : Fin n.1) : p.DropsLe (p.processShard i) := by
  generalize hq : (p.shards i).queue.items = qms
  induction qms generalizing p with
  | nil => rw [processShard_nil hq]; exact refl p
  | cons qm qms ih =>
    obtain ⟨result, p₁, hp⟩ := exists_processOne hq
    have hs := processOne_spec hp
    have hq₁ := hs.items
    rw [hq, List.cons.injEq] at hq₁
    rw [processShard_cons hp]
    exact (processed hs).trans (ih p₁ hq₁.2.symm)

theorem processShards (p : ShardedPipeline n) (is : List (Fin n.1)) :
    p.DropsLe (is.foldl ShardedPipeline.processShard p) := by
  induction is generalizing p with
  | nil => exact refl p
  | cons i is ih => exact (processShard p i).trans (ih _)

theorem call (s : Session n) (c : Call n) : s.pipeline.DropsLe (s.call c).pipeline := by
  cases c with
  | packet raw => exact demux _ raw
  | processPending => exact processShards _ _
  | publish i =>
    intro j
    by_cases hj : j = i
    · subst hj; simp [Session.call, drainPublisherQueue]
    · simp [Session.call, drainPublisherQueue, hj]

theorem exec (s : Session n) (calls : List (Call n)) : s.pipeline.DropsLe (s.exec calls).pipeline := by
  induction calls generalizing s with
  | nil => exact refl _
  | cons c calls ih => exact (call s c).trans (ih _)

end DropsLe

end ShardedPipeline

open ShardedPipeline

/-! ### The relation -/

theorem getElem?_routeAfter_congr {r r' : RouteTable n} {id : OrderId} (h : r'[id]? = r[id]?) (dest : OrderRoute n)
    (m : DecodedMessage) : (routeAfter r' dest m)[id]? = (routeAfter r dest m)[id]? := by
  cases m <;> simp only [routeAfter, getElem?_insert, getElem?_erase, h]

theorem getElem?_routeAfter_of_ne {r : RouteTable n} {m : DecodedMessage} (hm : Owned symOf m) {id : OrderId}
    (hid : symOf id ≠ symOf m.orderId) (dest : OrderRoute n) : (routeAfter r dest m)[id]? = r[id]? := by
  have hne : ∀ id', symOf id' = symOf m.orderId → id ≠ id' := fun id' h e => hid (e ▸ h)
  cases m with
  | add x => rw [routeAfter, getElem?_insert, if_neg (hne x.orderId rfl)]
  | cancel x => rw [routeAfter, getElem?_erase, if_neg (hne x.orderId rfl)]
  | execute x => rfl
  | replace x =>
    rw [routeAfter, getElem?_insert, if_neg (hne x.newOrderId hm), getElem?_erase, if_neg (hne x.oldOrderId rfl)]

theorem getElem?_eraseFilled_congr {r r' : RouteTable n} {id : OrderId} (h : r'[id]? = r[id]?) (b : OrderBook)
    (m : DecodedMessage) : (eraseFilled b m r')[id]? = (eraseFilled b m r)[id]? := by
  cases m with
  | execute x =>
    simp only [eraseFilled]
    split
    · rw [getElem?_erase, getElem?_erase, h]
    · exact h
  | add x => exact h
  | cancel x => exact h
  | replace x => exact h

/-- The pipeline `q` is what `p` holds for the symbols in `K`. -/
structure Mirrors (symOf : OrderId → Symbol) (K : Symbol → Bool) (p q : ShardedPipeline n) : Prop where
  placed : Placed symOf p
  placed' : Placed symOf q
  routes : ∀ id, K (symOf id) = true → q.orderRoute[id]? = p.orderRoute[id]?
  queue : ∀ i, (q.shards i).queue.items = (p.shards i).queue.items.filter (K ·.symbol)
  books : ∀ i sym, K sym = true → (q.shards i).book sym = (p.shards i).book sym
  output : ∀ i, (q.shards i).outputQueue.items = (p.shards i).outputQueue.items.filter (K ·.symbol)
  gap : ∀ i, (∀ sym, shardForSymbol n sym = i → K sym = true) → (q.shards i).gapDetector = (p.shards i).gapDetector

namespace Mirrors
variable {p p' q q' : ShardedPipeline n}

theorem init : Mirrors symOf K ({} : ShardedPipeline n) {} :=
  ⟨.init, .init, fun _ _ => rfl, fun _ => rfl, fun _ _ _ => rfl, fun _ => rfl, fun _ _ => rfl⟩

theorem length_le (h : Mirrors symOf K p q) (i : Fin n.1) :
    (q.shards i).queue.items.length ≤ (p.shards i).queue.items.length := by
  rw [h.queue]
  exact List.length_filter_le _ _

theorem routable_eq (h : Mirrors symOf K p q) {m : DecodedMessage} (hK : K (symOf m.orderId) = true) :
    routable q.orderRoute m = routable p.orderRoute m := by
  have hc : q.orderRoute.contains m.orderId = p.orderRoute.contains m.orderId := by
    rw [Bool.eq_iff_iff, contains_iff, contains_iff, h.routes _ hK]
  cases m with
  | add x => rfl
  | cancel x => exact hc
  | execute x => exact hc
  | replace x => exact hc

theorem demux_both (h : Mirrors symOf K p q) {raw : Bytes} (ho : ∀ m, decode raw = .ok m → Owned symOf m)
    (hK : ∀ m, decode raw = .ok m → K (symOf m.orderId) = true) (hd : (p.demux raw).2.DropsLe p) :
    Mirrors symOf K (p.demux raw).2 (q.demux raw).2 := by
  rcases demux_cases h.placed.routes ho with ⟨e, he, hno⟩ | ⟨m, hm, hr, he⟩
  · rcases demux_cases h.placed'.routes ho with ⟨e', he', -⟩ | ⟨m, hm, hr, -⟩
    · rw [he, he']; exact h
    · rw [h.routable_eq (hK m hm), hno m hm] at hr
      cases hr
  have he' : q.demux raw = (.ok (shardForSymbol n (symOf m.orderId)),
      { q with orderRoute := routeAfter q.orderRoute (home n symOf m.orderId) m }.enqueue
        (shardForSymbol n (symOf m.orderId)) ⟨symOf m.orderId, m⟩) := by
    rcases demux_cases h.placed'.routes ho with ⟨e', -, hno'⟩ | ⟨m', hm', -, he'⟩
    · have := hno' m hm
      rw [h.routable_eq (hK m hm), hr] at this
      cases this
    · rw [hm] at hm'
      cases hm'
      exact he'
  rw [he] at hd ⊢
  rw [he']
  refine ⟨h.placed.enqueue (ho m hm), h.placed'.enqueue (ho m hm), ?_, ?_, ?_, ?_, ?_⟩
  · intro id hid
    exact getElem?_routeAfter_congr (h.routes id hid) _ m
  · intro i
    have hdi := (hd i).1
    rw [queue_enqueue] at hdi
    rw [queue_enqueue, queue_enqueue]
    split
    · next hi =>
      subst hi
      rw [if_pos rfl] at hdi
      have hlt := DropOldest.dropped_push_iff.1 (le_antisymm hdi (DropOldest.dropped_push_le _))
      have hlt' := (h.length_le _).trans_lt hlt
      rw [(DropOldest.push_of_lt hlt).1, (DropOldest.push_of_lt hlt').1, List.filter_append, h.queue]
      simp [hK m hm]
    · exact h.queue i
  · intro i sym hs
    rw [toShardState_enqueue, toShardState_enqueue]
    exact h.books i sym hs
  · intro i
    rw [outputQueue_enqueue, outputQueue_enqueue]
    exact h.output i
  · intro i hi
    rw [toShardState_enqueue, toShardState_enqueue]
    exact h.gap i hi

theorem demux_left (h : Mirrors symOf K p q) {raw : Bytes} (ho : ∀ m, decode raw = .ok m → Owned symOf m)
    (hK : ∀ m, decode raw = .ok m → K (symOf m.orderId) = false) (hd : (p.demux raw).2.DropsLe p) :
    Mirrors symOf K (p.demux raw).2 q := by
  rcases demux_cases h.placed.routes ho with ⟨e, he, -⟩ | ⟨m, hm, -, he⟩
  · rw [he]; exact h
  rw [he] at hd ⊢
  refine ⟨h.placed.enqueue (ho m hm), h.placed', ?_, ?_, ?_, ?_, ?_⟩
  · intro id hid
    rw [h.routes id hid]
    refine (getElem?_routeAfter_of_ne (ho m hm) (fun e => ?_) _).symm
    rw [e, hK m hm] at hid
    cases hid
  · intro i
    have hdi := (hd i).1
    rw [queue_enqueue] at hdi
    rw [queue_enqueue]
    split
    · next hi =>
      subst hi
      rw [if_pos rfl] at hdi
      have hlt := DropOldest.dropped_push_iff.1 (le_antisymm hdi (DropOldest.dropped_push_le _))
      rw [(DropOldest.push_of_lt hlt).1, List.filter_append, h.queue]
      simp [hK m hm]
    · exact h.queue i
  · intro i sym hs
    rw [toShardState_enqueue]
    exact h.books i sym hs
  · intro i
    rw [outputQueue_enqueue]
    exact h.output i
  · intro i hi
    rw [toShardState_enqueue]
    exact h.gap i hi

theorem filter_deltas (K : Symbol → Bool) (qm : QueuedMessage) (result : Except ApplyError ApplyResult) :
    (qm.deltas result).filter (K ·.symbol) = if K qm.symbol then qm.deltas result else [] := by
  have hsym : ∀ d ∈ qm.deltas result, d.symbol = qm.symbol := by
    intro d hd
    cases result with
    | error e => cases hd
    | ok ds =>
      obtain ⟨l, -, rfl⟩ := List.mem_map.1 hd
      rfl
  split
  · next hK => exact List.filter_eq_self.2 fun d hd => by rw [hsym d hd]; exact hK
  · next hK => exact List.filter_eq_nil_iff.2 fun d hd => by rw [hsym d hd]; exact hK

theorem kept_of_dropsLe {i : Fin n.1} {qm : QueuedMessage} {result : Except ApplyError ApplyResult}
    (hp : p.Processed i qm result p') (hd : p'.DropsLe p) : (p.shards i).outputQueue.Kept (qm.deltas result) := by
  have := (hd i).2
  rw [hp.output, if_pos rfl] at this
  exact le_antisymm this (DropOldest.dropped_pushAll_le _)

theorem processed_both (h : Mirrors symOf K p q) {i : Fin n.1} {qm : QueuedMessage}
    {result result' : Except ApplyError ApplyResult} (hK : K qm.symbol = true) (hp : p.Processed i qm result p')
    (hq : q.Processed i qm result' q') (hd : p'.DropsLe p) : Mirrors symOf K p' q' := by
  have hbook := h.books i qm.symbol hK
  obtain rfl : result' = result := by rw [hp.accepted, hq.accepted, hbook]
  have hafter : (q'.shards i).book qm.symbol = (p'.shards i).book qm.symbol := by
    rw [hp.state, hq.state, if_pos rfl, if_pos rfl, ShardState.book_applyMessage, ShardState.book_applyMessage, hbook]
  refine ⟨h.placed.processed hp, h.placed'.processed hq, ?_, ?_, ?_, ?_, ?_⟩
  · intro id hid
    rw [hp.orderRoute, hq.orderRoute, hafter]
    exact getElem?_eraseFilled_congr (h.routes id hid) _ _
  · intro j
    by_cases hj : j = i
    · have := h.queue i
      rw [hp.items, hq.items, List.filter_cons, if_pos hK, List.cons.injEq] at this
      rw [hj]; exact this.2
    · rw [hp.queue j hj, hq.queue j hj]; exact h.queue j
  · intro j sym hs
    rw [hp.state, hq.state]
    split
    · rw [ShardState.book_applyMessage, ShardState.book_applyMessage, hbook, h.books i sym hs]
    · exact h.books j sym hs
  · intro j
    rw [hp.output, hq.output]
    split
    · have hkept := kept_of_dropsLe hp hd
      have hroom : (q.shards i).outputQueue.items.length ≤ (p.shards i).outputQueue.items.length := by
        rw [h.output]
        exact List.length_filter_le _ _
      have hkept' : (q.shards i).outputQueue.Kept (qm.deltas result') :=
        DropOldest.kept_of_le ((Nat.add_le_add_right hroom _).trans hkept.length_le)
      rw [hkept.items, hkept'.items, List.filter_append, filter_deltas, if_pos hK, h.output]
    · exact h.output j
  · intro j hj
    rw [hp.state, hq.state]
    split
    · next hji => subst hji; simp only [ShardState.applyMessage, h.gap j hj]
    · exact h.gap j hj

theorem processed_left (h : Mirrors symOf K p q) {i : Fin n.1} {qm : QueuedMessage}
    {result : Except ApplyError ApplyResult} (hK : K qm.symbol = false) (hp : p.Processed i qm result p')
    (hd : p'.DropsLe p) : Mirrors symOf K p' q := by
  obtain ⟨-, hsym, hi⟩ := h.placed.queued i qm hp.head_mem
  have hKne : ∀ sym, K sym = true → sym ≠ qm.symbol := by
    intro sym hs e
    rw [e, hK] at hs
    cases hs
  refine ⟨h.placed.processed hp, h.placed', ?_, ?_, ?_, ?_, ?_⟩
  · intro id hid
    rw [h.routes id hid, hp.orderRoute]
    refine (getElem?_eraseFilled_of_ne fun x hx e => hKne _ hid ?_).symm
    rw [hsym, hx, e]
    rfl
  · intro j
    by_cases hj : j = i
    · have := h.queue i
      rw [hp.items, List.filter_cons_of_neg (by simp [hK])] at this
      rw [hj]; exact this
    · rw [hp.queue j hj]; exact h.queue j
  · intro j sym hs
    rw [hp.state]
    split
    · next hj => rw [ShardState.book_applyMessage, if_neg (hKne sym hs), hj]; exact h.books i sym hs
    · exact h.books j sym hs
  · intro j
    rw [hp.output]
    split
    · next hj =>
      rw [(kept_of_dropsLe hp hd).items, List.filter_append, filter_deltas, hK, hj, h.output]
      simp
    · exact h.output j
  · intro j hj
    rw [hp.state]
    split
    · next hji => exact absurd rfl (hKne qm.symbol (hj qm.symbol (by rw [hi, hji])))
    · exact h.gap j hj

theorem processShard (h : Mirrors symOf K p q) (i : Fin n.1) (hd : (p.processShard i).DropsLe p) :
    Mirrors symOf K (p.processShard i) (q.processShard i) := by
  generalize hqms : (p.shards i).queue.items = qms
  induction qms generalizing p q with
  | nil =>
    have hq : (q.shards i).queue.items = [] := by rw [h.queue, hqms]; rfl
    rw [processShard_nil hqms, processShard_nil hq]
    exact h
  | cons qm qms ih =>
    obtain ⟨result, p₁, hp⟩ := exists_processOne hqms
    have hs := processOne_spec hp
    have hq₁ := hs.items
    rw [hqms, List.cons.injEq] at hq₁
    rw [processShard_cons hp] at hd ⊢
    -- the loop drops nothing: neither its first iteration nor the rest
    have hd₁ : p₁.DropsLe p := (DropsLe.processShard p₁ i).trans hd
    have hd₂ : (p₁.processShard i).DropsLe p₁ := hd.trans (.processed hs)
    cases hK : K qm.symbol with
    | true =>
      have hqi : (q.shards i).queue.items = qm :: qms.filter (K ·.symbol) := by
        rw [h.queue, hqms, List.filter_cons, if_pos hK]
      obtain ⟨result', q₁, hq⟩ := exists_processOne hqi
      rw [processShard_cons hq]
      exact ih (h.processed_both hK hs (processOne_spec hq) hd₁) hd₂ hq₁.2.symm
    | false => exact ih (h.processed_left hK hs hd₁) hd₂ hq₁.2.symm

theorem processShards (h : Mirrors symOf K p q) (is : List (Fin n.1))
    (hd : (is.foldl ShardedPipeline.processShard p).DropsLe p) :
    Mirrors symOf K (is.foldl ShardedPipeline.processShard p) (is.foldl ShardedPipeline.processShard q) := by
  induction is generalizing p q with
  | nil => exact h
  | cons i is ih =>
    rw [List.foldl_cons] at hd
    exact ih (h.processShard i ((DropsLe.processShards _ is).trans hd)) (hd.trans (.processShard p i))

theorem publish (h : Mirrors symOf K p q) (i : Fin n.1) :
    Mirrors symOf K (p.drainPublisherQueue i).2 (q.drainPublisherQueue i).2 := by
  have hst : ∀ (p : ShardedPipeline n) j, ((p.drainPublisherQueue i).2.shards j).toShardState =
      (p.shards j).toShardState ∧ ((p.drainPublisherQueue i).2.shards j).queue = (p.shards j).queue := by
    intro p j
    by_cases hj : j = i
    · subst hj; simp [drainPublisherQueue]
    · simp [drainPublisherQueue, hj]
  have hplaced : ∀ {p : ShardedPipeline n}, Placed symOf p → Placed symOf (p.drainPublisherQueue i).2 := by
    intro p hp
    refine ⟨hp.routes, fun j => ?_, fun j => ?_⟩
    · rw [(hst p j).2]; exact hp.queued j
    · rw [(hst p j).1]; exact hp.booked j
  refine ⟨hplaced h.placed, hplaced h.placed', h.routes, ?_, ?_, ?_, ?_⟩
  · intro j
    rw [(hst p j).2, (hst q j).2]
    exact h.queue j
  · intro j
    rw [(hst p j).1, (hst q j).1]
    exact h.books j
  · intro j
    by_cases hj : j = i
    · subst hj; simp [drainPublisherQueue]
    · simpa [drainPublisherQueue, hj] using h.output j
  · intro j
    rw [(hst p j).1, (hst q j).1]
    exact h.gap j

end Mirrors

/-! ### Whole sessions -/

/-- The two sessions agree on `K`, sinks included. -/
structure SameOn (symOf : OrderId → Symbol) (K : Symbol → Bool) (s t : Session n) : Prop where
  pipeline : Mirrors symOf K s.pipeline t.pipeline
  sink : ∀ i, t.sink i = (s.sink i).filter (K ·.symbol)

namespace SameOn
variable {s t : Session n}

theorem call (h : SameOn symOf K s t) {c : Call n}
    (ho : ∀ raw m, c = .packet raw → decode raw = .ok m → Owned symOf m) (hd : (s.call c).pipeline.DropsLe s.pipeline) :
    SameOn symOf K (s.call c) (if keeps symOf K c then t.call c else t) := by
  cases c with
  | packet raw =>
    cases hdec : decode raw with
    | error e =>
      have hK : keeps symOf K (Call.packet (n := n) raw) = true := by simp [keeps, hdec]
      rw [hK, if_pos rfl]
      exact ⟨h.pipeline.demux_both (ho raw · rfl) (by simp [hdec]) hd, h.sink⟩
    | ok m =>
      have hk : ∀ m', decode raw = .ok m' → m' = m := by
        intro m' hm'
        rw [hdec] at hm'
        exact (Except.ok.inj hm').symm
      have hkeeps : keeps symOf K (Call.packet (n := n) raw) = K (symOf m.orderId) := by simp [keeps, hdec]
      rw [hkeeps]
      cases hK : K (symOf m.orderId) with
      | true =>
        exact ⟨h.pipeline.demux_both (ho raw · rfl) (fun m' hm' => by rw [hk m' hm', hK]) hd, h.sink⟩
      | false =>
        exact ⟨h.pipeline.demux_left (ho raw · rfl) (fun m' hm' => by rw [hk m' hm', hK]) hd, h.sink⟩
  | processPending => exact ⟨h.pipeline.processShards _ hd, h.sink⟩
  | publish i =>
    refine ⟨h.pipeline.publish i, fun j => ?_⟩
    show (Function.update t.sink i (t.sink i ++ (t.pipeline.drainPublisherQueue i).1)) j =
      ((Function.update s.sink i (s.sink i ++ (s.pipeline.drainPublisherQueue i).1)) j).filter (K ·.symbol)
    by_cases hj : j = i
    · subst hj
      rw [Function.update_self, Function.update_self, List.filter_append, h.sink]
      exact congrArg _ (h.pipeline.output j)
    · rw [Function.update_of_ne hj, Function.update_of_ne hj, h.sink]

theorem exec (h : SameOn symOf K s t) {calls : List (Call n)}
    (ho : ∀ raw m, .packet raw ∈ calls → decode raw = .ok m → Owned symOf m)
    (hd : (s.exec calls).pipeline.DropsLe s.pipeline) :
    SameOn symOf K (s.exec calls) (t.exec (calls.filter (keeps symOf K))) := by
  induction calls generalizing s t with
  | nil => exact h
  | cons c calls ih =>
    have hd₁ : (s.call c).pipeline.DropsLe s.pipeline := (DropsLe.exec (s.call c) calls).trans hd
    have hd₂ : ((s.call c).exec calls).pipeline.DropsLe (s.call c).pipeline := DropsLe.trans hd (.call s c)
    have hc := h.call (c := c) (fun raw m e => ho raw m (by simp [e])) hd₁
    have hrest := ih hc (fun raw m hm => ho raw m (List.mem_cons_of_mem _ hm)) hd₂
    cases hK : keeps symOf K c with
    | true =>
      rw [hK, if_pos rfl] at hrest
      rw [List.filter_cons_of_pos hK]
      exact hrest
    | false =>
      rw [hK, if_neg (by simp)] at hrest
      rw [List.filter_cons_of_neg (by simp [hK])]
      exact hrest

theorem published (h : SameOn symOf K s t) (i : Fin n.1) :
    t.published i = (s.published i).filter (K ·.symbol) := by
  rw [Session.published, Session.published, List.filter_append, h.sink, h.pipeline.output]

end SameOn

/-- Without overflow, the packets of other symbols change neither a symbol's book nor its published
deltas, and the packets of other shards change no detector. -/
theorem symbols_isolated (n : NumShards) (symOf : OrderId → Symbol) (calls : List (Call n))
    (ho : ∀ raw m, .packet raw ∈ calls → decode raw = .ok m → Owned symOf m)
    (hd : ∀ i, ((({} : Session n).exec calls).pipeline.shards i).queue.dropped = 0 ∧
      ((({} : Session n).exec calls).pipeline.shards i).outputQueue.dropped = 0) :
    let full := ({} : Session n).exec calls
    (∀ A, let alone := ({} : Session n).exec (calls.filter (keeps symOf (· = A)))
      alone.pipeline.book A = full.pipeline.book A ∧
        ∀ i, (alone.published i).filter (·.symbol = A) = (full.published i).filter (·.symbol = A)) ∧
    ∀ i, let alone := ({} : Session n).exec (calls.filter (keeps symOf (shardForSymbol n · = i)))
      (alone.pipeline.shards i).gapDetector = (full.pipeline.shards i).gapDetector := by
  have hdrop : (({} : Session n).exec calls).pipeline.DropsLe ({} : Session n).pipeline :=
    fun i => ⟨(hd i).1.le, (hd i).2.le⟩
  have hsame : ∀ K, SameOn symOf K (({} : Session n).exec calls)
      (({} : Session n).exec (calls.filter (keeps symOf K))) :=
    fun K => SameOn.exec ⟨.init, fun _ => rfl⟩ ho hdrop
  refine ⟨fun A => ⟨?_, fun i => ?_⟩, fun i => ?_⟩
  · exact (hsame (· = A)).pipeline.books _ A (by simp)
  · rw [(hsame (· = A)).published, List.filter_filter]
    simp
  · exact (hsame (shardForSymbol n · = i)).pipeline.gap i (by simp)

/-- Two orders of two symbols on one shard. -/
def sampleCalls : List (Call oneShard) :=
  [.packet sampleAdd.packet, .packet (DecodedMessage.add ⟨2, 8, Vector.replicate 8 66, .sell, 105, 5, 2⟩).packet,
    .processPending, .publish 0, .packet sampleFill.packet, .processPending]

theorem symbols_isolated_sample :
    let symOf : OrderId → Symbol := fun id => if id = 7 then sampleSymbol else Vector.replicate 8 66
    (({} : Session oneShard).exec (sampleCalls.filter (keeps symOf (· = sampleSymbol)))).pipeline.book sampleSymbol =
      (({} : Session oneShard).exec sampleCalls).pipeline.book sampleSymbol := by
  intro symOf
  refine ((symbols_isolated oneShard symOf sampleCalls ?_ (by decide +kernel)).1 sampleSymbol).1
  intro raw m hraw hm
  simp only [sampleCalls, List.mem_cons, Call.packet.injEq, reduceCtorEq, List.not_mem_nil, or_false, false_or] at hraw
  rcases hraw with rfl | rfl | rfl <;> (rw [DecodedMessage.decode_packet] at hm; cases hm)
  · rfl
  · rfl
  · trivial

end Mdfh
