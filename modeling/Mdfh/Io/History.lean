import Mdfh.Io.Routing

/-!
# What a run leaves behind

Over every run of owned traffic without `resync`: a shard has processed, and still holds in its queue,
a subsequence of the messages sent to its symbols, in order (`order`: packets may be unroutable, and
an overflowing queue drops from its front); each book is the processed messages of its symbol applied
to an empty book; and the detector has observed exactly the processed sequence numbers.
-/

namespace Mdfh
open LittleEndian (Bytes)

variable {n : NumShards} {symOf : OrderId → Symbol}

/-- `apply` of each message in turn. -/
def OrderBook.applyAll (b : OrderBook) (ms : List DecodedMessage) : OrderBook := ms.foldl (fun b m => (b.apply m).2) b

@[simp] theorem OrderBook.applyAll_nil (b : OrderBook) : b.applyAll [] = b := rfl
@[simp] theorem OrderBook.applyAll_cons (b : OrderBook) (m : DecodedMessage) (ms : List DecodedMessage) :
    b.applyAll (m :: ms) = (b.apply m).2.applyAll ms := rfl

theorem OrderBook.applyAll_append (b : OrderBook) (ms ms' : List DecodedMessage) :
    b.applyAll (ms ++ ms') = (b.applyAll ms).applyAll ms' := List.foldl_append

/-- The messages of one symbol, in order. -/
def messagesFor (sym : Symbol) (qms : List QueuedMessage) : List DecodedMessage :=
  (qms.filter (·.symbol = sym)).map (·.message)

theorem messagesFor_append (sym : Symbol) (l l' : List QueuedMessage) :
    messagesFor sym (l ++ l') = messagesFor sym l ++ messagesFor sym l' := by
  simp [messagesFor]

theorem messagesFor_single (sym : Symbol) (qm : QueuedMessage) :
    messagesFor sym [qm] = if sym = qm.symbol then [qm.message] else [] := by
  by_cases h : qm.symbol = sym
  · simp [messagesFor, h]
  · simp [messagesFor, h, Ne.symm h]

/-- A message with the symbol it belongs to. -/
def queuedAs (symOf : OrderId → Symbol) (m : DecodedMessage) : QueuedMessage := ⟨symOf m.orderId, m⟩

/-- The messages that belong to shard `i`, in order. -/
def shardStream (n : NumShards) (symOf : OrderId → Symbol) (ms : List DecodedMessage) (i : Fin n.1) :
    List DecodedMessage :=
  ms.filter fun m => shardForSymbol n (symOf m.orderId) = i

theorem shardStream_append (ms ms' : List DecodedMessage) (i : Fin n.1) :
    shardStream n symOf (ms ++ ms') i = shardStream n symOf ms i ++ shardStream n symOf ms' i :=
  List.filter_append ..

theorem shardStream_single (m : DecodedMessage) (i : Fin n.1) :
    shardStream n symOf [m] i = if i = shardForSymbol n (symOf m.orderId) then [m] else [] := by
  by_cases h : shardForSymbol n (symOf m.orderId) = i
  · simp [shardStream, h]
  · simp [shardStream, h, Ne.symm h]

theorem messagesFor_shardStream (ms : List DecodedMessage) (sym : Symbol) :
    messagesFor sym ((shardStream n symOf ms (shardForSymbol n sym)).map (queuedAs symOf)) =
      ms.filter (fun m => symOf m.orderId = sym) := by
  unfold messagesFor shardStream
  rw [List.filter_map, List.map_map, List.filter_filter]
  refine Eq.trans ?_ (List.map_id _)
  refine congrArg (List.map _) (List.filter_congr fun m _ => ?_)
  by_cases h : symOf m.orderId = sym <;> simp [queuedAs, h]

/-- The messages the packets of a schedule decode to. -/
def sentBy (ops : List (Op n)) : List DecodedMessage := (packetsOf ops).filterMap fun raw => (decode raw).toOption

theorem sentBy_cons (op : Op n) (ops : List (Op n)) : sentBy (op :: ops) = sentBy [op] ++ sentBy ops := by
  cases op <;> simp only [sentBy, packetsOf, List.filterMap_cons, List.filterMap_nil, List.nil_append]
  cases (decode _).toOption <;> rfl

theorem sentBy_of_packets {ops : List (Op n)} {ms : List DecodedMessage} (h : packetsOf ops = ms.map (·.packet)) :
    sentBy ops = ms := by
  rw [sentBy, h, List.filterMap_map]
  refine (List.filterMap_congr fun m _ => ?_).trans List.filterMap_some
  simp [DecodedMessage.decode_packet, Except.toOption]

/-- No `resync()` call in the schedule. -/
def NoResync (ops : List (Op n)) : Prop := ∀ i k, Op.resync i k ∉ ops

/-- The messages a shard has processed, in order. -/
def Run.processed (r : Run n) (i : Fin n.1) : List QueuedMessage := (r.applied i).map (·.1)

theorem Run.observed_eq (r : Run n) (i : Fin n.1) : r.observed i = (r.processed i).map (·.message.seqNum) := by
  simp [observed, processed]

theorem Run.step_process (r : Run n) (i : Fin n.1) :
    (r.pipeline.shards i).queue.items = [] ∧ r.step (.process i) = r ∨
      ∃ qm result p', r.pipeline.Processed i qm result p' ∧ r.step (.process i) =
        { r with pipeline := p', applied := Function.update r.applied i (r.applied i ++ [(qm, result)]) } := by
  cases hp : r.pipeline.processOne i with
  | none => exact .inl ⟨ShardedPipeline.processOne_eq_none_iff.1 hp, by simp [step, hp]⟩
  | some e =>
    obtain ⟨qm, result, p'⟩ := e
    exact .inr ⟨qm, result, p', ShardedPipeline.processOne_spec hp, by simp [step, hp]⟩

theorem Run.step_publish (r : Run n) (i j : Fin n.1) :
    ((r.step (.publish i)).pipeline.shards j).toShardState = (r.pipeline.shards j).toShardState ∧
      ((r.step (.publish i)).pipeline.shards j).queue = (r.pipeline.shards j).queue := by
  by_cases h : j = i
  · subst h; simp [step, ShardedPipeline.drainPublisherQueue]
  · simp [step, ShardedPipeline.drainPublisherQueue, h]

theorem Run.step_resync (r : Run n) (i : Fin n.1) (k : SeqNum) (j : Fin n.1) :
    ((r.step (.resync i k)).pipeline.shards j).books = (r.pipeline.shards j).books ∧
      ((r.step (.resync i k)).pipeline.shards j).queue = (r.pipeline.shards j).queue := by
  by_cases h : j = i
  · subst h; simp [step]
  · simp [step, h]

theorem Run.book_step (r : Run n) {op : Op n} (hop : ∀ i, op ≠ .process i) (j : Fin n.1) (sym : Symbol) :
    ((r.step op).pipeline.shards j).book sym = (r.pipeline.shards j).book sym := by
  unfold ShardState.book
  cases op with
  | demux raw =>
    have hstep : (r.step (.demux raw)).pipeline = (r.pipeline.demux raw).2 := rfl
    rw [hstep]
    unfold ShardedPipeline.demux
    split
    · rfl
    · split
      · rfl
      · rw [ShardedPipeline.toShardState_enqueue]
  | process i => exact absurd rfl (hop i)
  | publish i => rw [(r.step_publish i j).1]
  | resync i k => rw [(r.step_resync i k j).1]

theorem ShardedPipeline.dropped_demux_le (p : ShardedPipeline n) (raw : Bytes) (i : Fin n.1) :
    (p.shards i).queue.dropped ≤ ((p.demux raw).2.shards i).queue.dropped := by
  unfold demux
  split
  · exact Nat.le_refl _
  · split
    · exact Nat.le_refl _
    · rw [queue_enqueue]
      split
      · next hi => rw [hi]; exact DropOldest.dropped_push_le _
      · exact Nat.le_refl _

theorem Run.dropped_step_le (r : Run n) (op : Op n) (i : Fin n.1) :
    (r.pipeline.shards i).queue.dropped ≤ ((r.step op).pipeline.shards i).queue.dropped := by
  cases op with
  | demux raw => exact r.pipeline.dropped_demux_le raw i
  | process j =>
    rcases r.step_process j with ⟨-, hr⟩ | ⟨qm, result, p', hp, hr⟩
    · rw [hr]
    · rw [hr]; exact (hp.dropped i).ge
  | publish j => rw [(r.step_publish j i).2]
  | resync j k => rw [(r.step_resync j k i).2]

theorem Run.dropped_exec_le (r : Run n) (ops : List (Op n)) (i : Fin n.1) :
    (r.pipeline.shards i).queue.dropped ≤ ((r.exec ops).pipeline.shards i).queue.dropped := by
  induction ops generalizing r with
  | nil => exact Nat.le_refl _
  | cons op ops ih => exact (r.dropped_step_le op i).trans (ih _)

/-- Nothing dropped by a schedule: nothing by its first call, nothing by the rest. -/
theorem Run.dropped_exec_cons {r : Run n} {op : Op n} {ops : List (Op n)}
    (hd : ∀ i, ((r.exec (op :: ops)).pipeline.shards i).queue.dropped = (r.pipeline.shards i).queue.dropped) :
    (∀ i, ((r.step op).pipeline.shards i).queue.dropped = (r.pipeline.shards i).queue.dropped) ∧
      ∀ i, (((r.step op).exec ops).pipeline.shards i).queue.dropped = ((r.step op).pipeline.shards i).queue.dropped := by
  have hle : ∀ i, (r.pipeline.shards i).queue.dropped ≤ ((r.step op).pipeline.shards i).queue.dropped :=
    fun i => r.dropped_step_le op i
  have hle' : ∀ i, ((r.step op).pipeline.shards i).queue.dropped ≤
      (((r.step op).exec ops).pipeline.shards i).queue.dropped := fun i => (r.step op).dropped_exec_le ops i
  have hstep : ∀ i, ((r.step op).pipeline.shards i).queue.dropped = (r.pipeline.shards i).queue.dropped :=
    fun i => le_antisymm ((hle' i).trans (hd i).le) (hle i)
  exact ⟨hstep, fun i => (hd i).trans (hstep i).symm⟩

structure History (symOf : OrderId → Symbol) (sent : List DecodedMessage) (r : Run n) : Prop where
  placed : Placed symOf r.pipeline
  order : ∀ i, (r.processed i ++ (r.pipeline.shards i).queue.items).Sublist
    ((shardStream n symOf sent i).map (queuedAs symOf))
  books : ∀ i sym, (r.pipeline.shards i).book sym = OrderBook.empty.applyAll (messagesFor sym (r.processed i))
  gap : ∀ i, (r.pipeline.shards i).gapDetector = ({} : GapDetector).observeAll (r.observed i)

namespace History
variable {sent : List DecodedMessage} {r : Run n}

theorem init : History symOf [] ({} : Run n) := by
  refine ⟨.init, ?_, ?_, ?_⟩
  · intro i
    exact List.Sublist.refl _
  · intro i sym
    simp [ShardState.book, Run.processed, messagesFor]
  · intro i
    rfl

theorem sublist_push {cap : Nat} {α : Type} [NeZero cap] {q : DropOldest α cap} {l l' : List α} (x : α)
    (h : (l ++ q.items).Sublist l') : (l ++ (q.push x).items).Sublist (l' ++ [x]) := by
  by_cases hlt : q.items.length < cap
  · rw [(DropOldest.push_of_lt hlt).1, ← List.append_assoc]
    exact h.append (List.Sublist.refl _)
  · rw [(DropOldest.push_of_not_lt hlt).1, ← List.append_assoc]
    exact (((List.Sublist.refl l).append (List.tail_sublist _)).trans h).append (List.Sublist.refl _)

theorem sent_append (h : History symOf sent r) (ms : List DecodedMessage) : History symOf (sent ++ ms) r := by
  refine ⟨h.placed, ?_, h.books, h.gap⟩
  intro i
  rw [shardStream_append, List.map_append]
  exact (h.order i).trans (List.sublist_append_left _ _)

theorem demux (h : History symOf sent r) {raw : Bytes} (ho : ∀ m, decode raw = .ok m → Owned symOf m) :
    History symOf (sent ++ sentBy [Op.demux (n := n) raw]) (r.step (.demux raw)) := by
  rcases ShardedPipeline.demux_cases h.placed.routes ho with ⟨e, he, -⟩ | ⟨m, hm, -, he⟩
  · have hstep : (r.step (.demux raw)).pipeline = r.pipeline := by simp [Run.step, he]
    have h' := h.sent_append (sentBy [Op.demux (n := n) raw])
    exact ⟨hstep ▸ h'.placed, fun i => by rw [hstep]; exact h'.order i, fun i => by rw [hstep]; exact h'.books i,
      fun i => by rw [hstep]; exact h'.gap i⟩
  · have hsent : sentBy [Op.demux (n := n) raw] = [m] := by simp [sentBy, packetsOf, hm, Except.toOption]
    have hstep : (r.step (.demux raw)).pipeline = (r.pipeline.demux raw).2 := rfl
    rw [he] at hstep
    refine ⟨?_, ?_, ?_, ?_⟩
    · rw [hstep]; exact h.placed.enqueue (ho m hm)
    · intro i
      rw [hsent, shardStream_append, List.map_append, shardStream_single, hstep, ShardedPipeline.queue_enqueue]
      split
      · next hi => subst hi; exact sublist_push _ (h.order _)
      · rw [List.map_nil, List.append_nil]; exact h.order i
    · intro i sym
      rw [hstep, ShardedPipeline.toShardState_enqueue]
      exact h.books i sym
    · intro i
      rw [hstep, ShardedPipeline.toShardState_enqueue]
      exact h.gap i

theorem process (h : History symOf sent r) (i : Fin n.1) : History symOf sent (r.step (.process i)) := by
  rcases r.step_process i with ⟨-, hr⟩ | ⟨qm, result, p', hp, hr⟩
  · rw [hr]; exact h
  -- the log grows by the message the queue lost
  have hproc : ∀ j, (r.step (.process i)).processed j = if j = i then r.processed j ++ [qm] else r.processed j := by
    intro j
    rw [hr]
    by_cases hj : j = i
    · subst hj; simp [Run.processed]
    · simp [Run.processed, hj]
  have hpipe : (r.step (.process i)).pipeline = p' := by rw [hr]
  refine ⟨hpipe ▸ h.placed.processed hp, ?_, ?_, ?_⟩
  · intro j
    rw [hproc, hpipe]
    split
    · next hj =>
      subst hj
      rw [List.append_assoc, List.singleton_append, ← hp.items]
      exact h.order j
    · next hj => rw [hp.queue j hj]; exact h.order j
  · intro j sym
    rw [hproc, hpipe, hp.state]
    split
    · next hj =>
      subst hj
      rw [ShardState.book_applyMessage, messagesFor_append, OrderBook.applyAll_append, ← h.books, messagesFor_single]
      split
      · next hs => rw [hs]; rfl
      · rfl
    · exact h.books j sym
  · intro j
    rw [Run.observed_eq, hproc, hpipe, hp.state]
    split
    · next hj =>
      subst hj
      rw [List.map_append, GapDetector.observeAll_append, ← Run.observed_eq, ← h.gap]
      rfl
    · rw [← Run.observed_eq]; exact h.gap j

theorem publish (h : History symOf sent r) (i : Fin n.1) : History symOf sent (r.step (.publish i)) := by
  have hst := fun j => (r.step_publish i j).1
  have hq := fun j => (r.step_publish i j).2
  refine ⟨⟨h.placed.routes, ?_, ?_⟩, ?_, ?_, ?_⟩
  · intro j
    rw [hq j]
    exact h.placed.queued j
  · intro j
    rw [hst j]
    exact h.placed.booked j
  · intro j
    rw [hq j]
    exact h.order j
  · intro j
    rw [hst j]
    exact h.books j
  · intro j
    rw [hst j]
    exact h.gap j

theorem exec (h : History symOf sent r) {ops : List (Op n)} (ho : ∀ m ∈ sentBy ops, Owned symOf m)
    (hr : NoResync ops) : History symOf (sent ++ sentBy ops) (r.exec ops) := by
  induction ops generalizing sent r with
  | nil => rw [show sentBy ([] : List (Op n)) = [] from rfl, List.append_nil]; exact h
  | cons op ops ih =>
    rw [sentBy_cons] at ho ⊢
    rw [← List.append_assoc]
    have ho' : ∀ m ∈ sentBy ops, Owned symOf m := fun m hm => ho m (List.mem_append_right _ hm)
    have hr' : NoResync ops := fun i k hm => hr i k (List.mem_cons_of_mem _ hm)
    cases op with
    | demux raw =>
      refine ih (h.demux fun m hm => ho m ?_) ho' hr'
      exact List.mem_append_left _ (by simp [sentBy, packetsOf, hm, Except.toOption])
    | process i => exact ih (by simpa [sentBy, packetsOf] using h.process i) ho' hr'
    | publish i => exact ih (by simpa [sentBy, packetsOf] using h.publish i) ho' hr'
    | resync i k => exact absurd List.mem_cons_self (hr i k)


end History

end Mdfh
