import Mdfh.Io.Lossless
import Mdfh.OrderBook.Remaining

/-!
# How large the routing table gets

A route is written when a message is queued, under the order's current id; the book may know the order
under an earlier one, and may never hear of it. `origin` is the id the order was added under: routes
have different origins (`Lineage.distinct`), and the origin of a route is that of a queued Add or of a
resting order (`Lineage.live`), which bounds their number. Two steps can break the second part: a full
ring that evicts an Add, and an Execute that fills an order which a queued Replace has renamed.
-/

namespace Mdfh
open TreeMapLib
open LittleEndian (Bytes)

variable {n : NumShards}

namespace ShardedPipeline

theorem mem_restingIds {p : ShardedPipeline n} {i : Fin n.1} {sym : Symbol} {id : OrderId}
    (h : ((p.shards i).book sym).hasOrder id = true) : id ∈ p.restingIds := by
  refine List.mem_flatMap.2 ⟨i, List.mem_finRange i, ?_⟩
  unfold ShardState.book at h
  rw [Std.ExtTreeMap.getD_eq_getD_getElem?] at h
  cases hb : (p.shards i).books[sym]? with
  | none =>
    rw [hb, Option.getD_none, OrderBook.hasOrder_empty] at h
    cases h
  | some b =>
    rw [hb, Option.getD_some] at h
    refine List.mem_flatMap.2 ⟨(sym, b), Std.ExtTreeMap.mem_toList_iff_getElem?_eq_some.2 hb, ?_⟩
    exact Std.ExtTreeMap.mem_keys.2 (Std.ExtTreeMap.mem_iff_contains.2 h)

theorem mem_queuedMessages {p : ShardedPipeline n} {i : Fin n.1} {qm : QueuedMessage}
    (h : qm ∈ (p.shards i).queue.items) : qm ∈ p.queuedMessages :=
  List.mem_flatMap.2 ⟨i, List.mem_finRange i, h⟩

end ShardedPipeline

/-! ### Origins -/

def originAfter (f : OrderId → OrderId) : DecodedMessage → OrderId → OrderId
  | .add m => Function.update f m.orderId m.orderId
  | .replace m => Function.update f m.newOrderId (f m.oldOrderId)
  | .cancel _ => f
  | .execute _ => f

/-- The id an order was added under, back through the Replaces of the stream. -/
def origin (ms : List DecodedMessage) : OrderId → OrderId := ms.foldl originAfter id

theorem origin_append (ms : List DecodedMessage) (m : DecodedMessage) : origin (ms ++ [m]) = originAfter (origin ms) m :=
  List.foldl_append

theorem originAfter_of_ne {f : OrderId → OrderId} {m : DecodedMessage} {id : OrderId} (h : m.introduced ≠ some id) :
    originAfter f m id = f id := by
  cases m with
  | add m => exact Function.update_of_ne (fun e => h (by rw [e]; rfl)) _ _
  | replace m => exact Function.update_of_ne (fun e => h (by rw [e]; rfl)) _ _
  | cancel m => rfl
  | execute m => rfl

/-- What a queued message says about origins and routes. -/
def QueuedOk (f : OrderId → OrderId) (seen : List OrderId) (r : RouteTable n) : DecodedMessage → Prop
  | .add m => m.orderId ∈ seen ∧ f m.orderId = m.orderId
  | .cancel m => m.orderId ∈ seen ∧ f m.orderId ∈ seen ∧ ∀ id, r.contains id = true → f id ≠ f m.orderId
  | .execute _ => True
  | .replace m => m.oldOrderId ∈ seen ∧ m.newOrderId ∈ seen ∧ f m.newOrderId = f m.oldOrderId

theorem QueuedOk.table {f : OrderId → OrderId} {seen : List OrderId} {r r' : RouteTable n} {m : DecodedMessage}
    (h : QueuedOk f seen r m)
    (hr : ∀ c, m = .cancel c → ∀ id, r'.contains id = true → f id ≠ f c.orderId) : QueuedOk f seen r' m := by
  cases m with
  | cancel c => exact ⟨h.1, h.2.1, hr c rfl⟩
  | add a => exact h
  | execute x => exact h
  | replace x => exact h

theorem QueuedOk.cancel {f : OrderId → OrderId} {seen : List OrderId} {r : RouteTable n} {m : DecodedMessage}
    {c : CancelOrder} (h : QueuedOk f seen r m) (hm : m = .cancel c) :
    c.orderId ∈ seen ∧ f c.orderId ∈ seen ∧ ∀ id, r.contains id = true → f id ≠ f c.orderId := by
  subst hm
  exact h

/-- `seen` are the ids the stream has brought in so far, `f` their origins. -/
structure Lineage (f : OrderId → OrderId) (seen : List OrderId) (p : ShardedPipeline n) : Prop where
  routed : ∀ id, p.orderRoute.contains id = true → id ∈ seen ∧ f id ∈ seen
  distinct : ∀ id id', p.orderRoute.contains id = true → p.orderRoute.contains id' = true → f id = f id' → id = id'
  queued : ∀ i, ∀ qm ∈ (p.shards i).queue.items, QueuedOk f seen p.orderRoute qm.message
  booked : ∀ i sym id, ((p.shards i).book sym).hasOrder id = true → id ∈ seen
  live : ∀ id, p.orderRoute.contains id = true →
    (∃ i, ∃ qm ∈ (p.shards i).queue.items, ∃ a, qm.message = .add a ∧ a.orderId = f id) ∨
      ∃ i sym id', ((p.shards i).book sym).hasOrder id' = true ∧ f id' = f id

namespace Lineage
variable {f f' : OrderId → OrderId} {seen seen' : List OrderId} {p p' : ShardedPipeline n}

theorem bound (h : Lineage f seen p) : p.routingTableSize ≤ p.restingIds.length + p.queuedMessages.length := by
  have hnodup : (p.orderRoute.keys.map f).Nodup := by
    refine List.Nodup.map_on ?_ Std.ExtTreeMap.nodup_keys
    intro id hid id' hid' he
    exact h.distinct id id' (Std.ExtTreeMap.mem_iff_contains.1 (Std.ExtTreeMap.mem_keys.1 hid))
      (Std.ExtTreeMap.mem_iff_contains.1 (Std.ExtTreeMap.mem_keys.1 hid')) he
  have hsub : p.orderRoute.keys.map f ⊆ p.restingIds.map f ++ p.queuedMessages.map (·.message.orderId) := by
    intro o ho
    obtain ⟨id, hid, rfl⟩ := List.mem_map.1 ho
    rcases h.live id (Std.ExtTreeMap.mem_iff_contains.1 (Std.ExtTreeMap.mem_keys.1 hid)) with
      ⟨i, qm, hqm, a, ha, he⟩ | ⟨i, sym, id', hid', he⟩
    · refine List.mem_append_right _ (List.mem_map.2 ⟨qm, ShardedPipeline.mem_queuedMessages hqm, ?_⟩)
      rw [ha]
      exact he
    · exact List.mem_append_left _ (List.mem_map.2 ⟨id', ShardedPipeline.mem_restingIds hid', he⟩)
  have := (List.subperm_of_subset hnodup hsub).length_le
  rw [List.length_map, List.length_append, List.length_map, List.length_map, Std.ExtTreeMap.length_keys] at this
  exact this

theorem init : Lineage id [] ({} : ShardedPipeline n) := by
  refine ⟨?_, ?_, ?_, ?_, ?_⟩
  · intro id hid
    simp at hid
  · intro id id' hid
    simp at hid
  · intro i qm hqm
    simp at hqm
  · intro i sym id hid
    simp [ShardState.book] at hid
  · intro id hid
    simp at hid

theorem mono (h : Lineage f seen p) (hf : ∀ id ∈ seen, f' id = f id) (hs : seen ⊆ seen') : Lineage f' seen' p := by
  refine ⟨?_, ?_, ?_, ?_, ?_⟩
  · intro id hid
    obtain ⟨h₁, h₂⟩ := h.routed id hid
    rw [hf id h₁]
    exact ⟨hs h₁, hs h₂⟩
  · intro id id' hid hid' he
    rw [hf id (h.routed id hid).1, hf id' (h.routed id' hid').1] at he
    exact h.distinct id id' hid hid' he
  · intro i qm hqm
    have hq := h.queued i qm hqm
    cases hm : qm.message with
    | add a =>
      rw [hm] at hq
      exact ⟨hs hq.1, (hf _ hq.1).trans hq.2⟩
    | cancel c =>
      rw [hm] at hq
      obtain ⟨h₁, h₂, h₃⟩ := hq
      refine ⟨hs h₁, by rw [hf _ h₁]; exact hs h₂, fun id hid => ?_⟩
      rw [hf id (h.routed id hid).1, hf _ h₁]
      exact h₃ id hid
    | execute x => trivial
    | replace r =>
      rw [hm] at hq
      obtain ⟨h₁, h₂, h₃⟩ := hq
      exact ⟨hs h₁, hs h₂, by rw [hf _ h₁, hf _ h₂, h₃]⟩
  · intro i sym id hid
    exact hs (h.booked i sym id hid)
  · intro id hid
    rw [hf id (h.routed id hid).1]
    refine (h.live id hid).imp_right ?_
    rintro ⟨i, sym, id', hid', he⟩
    exact ⟨i, sym, id', hid', (hf id' (h.booked i sym id' hid')).trans he⟩

theorem mem_push {cap : Nat} {α : Type} [NeZero cap] {q : DropOldest α cap} {x y : α} (hy : y ∈ q.items) :
    y ∈ (q.push x).items ∨ ¬ q.items.length < cap ∧ q.items.head? = some y := by
  by_cases hlt : q.items.length < cap
  · rw [(DropOldest.push_of_lt hlt).1]
    exact .inl (List.mem_append_left _ hy)
  · rw [(DropOldest.push_of_not_lt hlt).1]
    cases hq : q.items with
    | nil =>
      rw [hq] at hy
      cases hy
    | cons z zs =>
      rw [hq] at hy
      rcases List.mem_cons.1 hy with rfl | hy
      · exact .inr ⟨hq ▸ hlt, rfl⟩
      · exact .inl (List.mem_append_left _ hy)

/-- One message more in a queue, and the evicted one not the Add of a routed order. -/
theorem push (h : Lineage f seen p) (i : Fin n.1) (qm : QueuedMessage) (hqm : QueuedOk f seen p.orderRoute qm.message)
    (hev : ∀ qm' a, ¬ (p.shards i).queue.items.length < kShardQueueCapacity → (p.shards i).queue.items.head? = some qm' →
      qm'.message = .add a → ∀ id, p.orderRoute.contains id = true → f id ≠ a.orderId) :
    Lineage f seen (p.enqueue i qm) := by
  refine ⟨h.routed, h.distinct, ?_, ?_, ?_⟩
  · intro j qm' hqm'
    rw [ShardedPipeline.queue_enqueue] at hqm'
    split at hqm'
    · rcases Placed.mem_push hqm' with hqm' | rfl
      · exact h.queued i qm' hqm'
      · exact hqm
    · exact h.queued j qm' hqm'
  · intro j sym id hid
    rw [ShardedPipeline.toShardState_enqueue] at hid
    exact h.booked j sym id hid
  · intro id hid
    rcases h.live id hid with ⟨j, qm', hqm', a, ha, he⟩ | ⟨j, sym, id', hid', he⟩
    · refine .inl ⟨j, qm', ?_, a, ha, he⟩
      rw [ShardedPipeline.queue_enqueue]
      split
      · next hj =>
        subst hj
        rcases mem_push hqm' with hmem | ⟨hfull, hhead⟩
        · exact hmem
        · exact absurd he.symm (hev qm' a hfull hhead ha id hid)
      · exact hqm'
    · refine .inr ⟨j, sym, id', ?_, he⟩
      rw [ShardedPipeline.toShardState_enqueue]
      exact hid'

theorem shrink (h : Lineage f seen p) {r : RouteTable n} (hr : ∀ id, r.contains id = true → p.orderRoute.contains id = true) :
    Lineage f seen { p with orderRoute := r } := by
  refine ⟨fun id hid => h.routed id (hr id hid), fun id id' hid hid' => h.distinct id id' (hr id hid) (hr id' hid'), ?_,
    h.booked, fun id hid => h.live id (hr id hid)⟩
  intro i qm hqm
  have hq := h.queued i qm hqm
  exact hq.table fun c hc id hid => (hq.cancel hc).2.2 id (hr id hid)

theorem insert (h : Lineage f seen p) {id : OrderId} {dest : OrderRoute n} (hid : id ∈ seen) (hf : f id = id)
    (hnew : ∀ id', p.orderRoute.contains id' = true → f id' ≠ id)
    (hcancel : ∀ i, ∀ qm ∈ (p.shards i).queue.items, ∀ c, qm.message = .cancel c → f c.orderId ≠ id)
    (hadd : ∃ i, ∃ qm ∈ (p.shards i).queue.items, ∃ a, qm.message = .add a ∧ a.orderId = id) :
    Lineage f seen { p with orderRoute := p.orderRoute.insert id dest } := by
  have hmem : ∀ id', (p.orderRoute.insert id dest).contains id' = true → p.orderRoute.contains id' = true ∨ id' = id := by
    intro id' hid'
    rw [contains_insert, Bool.or_eq_true, beq_iff_eq] at hid'
    exact hid'
  refine ⟨?_, ?_, ?_, h.booked, ?_⟩
  · intro id' hid'
    rcases hmem id' hid' with hid' | rfl
    · exact h.routed id' hid'
    · rw [hf]
      exact ⟨hid, hid⟩
  · intro id₁ id₂ h₁ h₂ he
    rcases hmem id₁ h₁ with h₁' | rfl
    · rcases hmem id₂ h₂ with h₂' | rfl
      · exact h.distinct id₁ id₂ h₁' h₂' he
      · exact absurd (he.trans hf) (hnew id₁ h₁')
    · rcases hmem id₂ h₂ with h₂' | rfl
      · exact absurd (he.symm.trans hf) (hnew id₂ h₂')
      · rfl
  · intro i qm hqm
    have hq := h.queued i qm hqm
    refine hq.table fun c hc id' hid' => ?_
    rcases hmem id' hid' with hid' | rfl
    · exact (hq.cancel hc).2.2 id' hid'
    · rw [hf]
      exact (hcancel i qm hqm c hc).symm
  · intro id' hid'
    rcases hmem id' hid' with hid' | rfl
    · exact h.live id' hid'
    · rw [hf]
      exact .inl hadd

theorem rename (h : Lineage f seen p) (dest : OrderRoute n) {old new : OrderId}
    (hold : p.orderRoute.contains old = true) (hnew : new ∈ seen) (hf : f new = f old) :
    Lineage f seen { p with orderRoute := (p.orderRoute.erase old).insert new dest } := by
  -- each route of the new table stands for one of the old table
  have hrep : ∀ id, ((p.orderRoute.erase old).insert new dest).contains id = true →
      (p.orderRoute.contains id = true ∧ id ≠ old) ∨ id = new := by
    intro id hid
    rw [contains_insert, contains_erase, Bool.or_eq_true, Bool.and_eq_true, bne_iff_ne, beq_iff_eq] at hid
    exact hid
  refine ⟨?_, ?_, ?_, h.booked, ?_⟩
  · intro id hid
    rcases hrep id hid with ⟨hid, -⟩ | rfl
    · exact h.routed id hid
    · rw [hf]
      exact ⟨hnew, (h.routed old hold).2⟩
  · intro id₁ id₂ h₁ h₂ he
    rcases hrep id₁ h₁ with ⟨h₁', hne₁⟩ | rfl
    · rcases hrep id₂ h₂ with ⟨h₂', -⟩ | rfl
      · exact h.distinct id₁ id₂ h₁' h₂' he
      · exact absurd (h.distinct id₁ old h₁' hold (he.trans hf)) hne₁
    · rcases hrep id₂ h₂ with ⟨h₂', hne₂⟩ | rfl
      · exact absurd (h.distinct id₂ old h₂' hold (he.symm.trans hf)) hne₂
      · rfl
  · intro i qm hqm
    have hq := h.queued i qm hqm
    refine hq.table fun c hc id hid => ?_
    rcases hrep id hid with ⟨hid, -⟩ | rfl
    · exact (hq.cancel hc).2.2 id hid
    · rw [hf]
      exact (hq.cancel hc).2.2 old hold
  · intro id hid
    rcases hrep id hid with ⟨hid, -⟩ | rfl
    · exact h.live id hid
    · rw [hf]
      exact h.live old hold

theorem mem_push_self {cap : Nat} {α : Type} [NeZero cap] (q : DropOldest α cap) (x : α) : x ∈ (q.push x).items := by
  by_cases hlt : q.items.length < cap
  · rw [(DropOldest.push_of_lt hlt).1]
    exact List.mem_append_right _ List.mem_cons_self
  · rw [(DropOldest.push_of_not_lt hlt).1]
    exact List.mem_append_right _ List.mem_cons_self

/-- A routed message with new ids, no Add of a routed order evicted. -/
theorem enqueue (h : Lineage f seen p) {m : DecodedMessage} {dest : OrderRoute n}
    (hdest : destination p.orderRoute m = some dest) (hnew : ∀ id ∈ m.introduced, id ∉ seen)
    (hev : ∀ qm a, ¬ (p.shards dest.shardIndex).queue.items.length < kShardQueueCapacity →
      (p.shards dest.shardIndex).queue.items.head? = some qm → qm.message = .add a →
      ∀ id, (routeAfter p.orderRoute dest m).contains id = true → originAfter f m id ≠ a.orderId) :
    Lineage (originAfter f m) (seen ++ m.introduced.toList)
      ({ p with orderRoute := routeAfter p.orderRoute dest m }.enqueue dest.shardIndex ⟨dest.symbol, m⟩) := by
  have hf : ∀ id ∈ seen, originAfter f m id = f id :=
    fun id hid => originAfter_of_ne fun hi => hnew id hi hid
  have hmono : Lineage (originAfter f m) (seen ++ m.introduced.toList) p := h.mono hf (List.subset_append_left _ _)
  cases m with
  | add a =>
    have ha : a.orderId ∉ seen := hnew _ rfl
    have hmem : a.orderId ∈ seen ++ (DecodedMessage.add a).introduced.toList := by simp [DecodedMessage.introduced]
    have hself : originAfter f (.add a) a.orderId = a.orderId := Function.update_self ..
    have hpush := hmono.push dest.shardIndex ⟨dest.symbol, .add a⟩ ⟨hmem, hself⟩ fun qm' a' hfull hhead ha' id hid =>
      hev qm' a' hfull hhead ha' id (by rw [routeAfter, contains_insert, hid]; rfl)
    refine hpush.insert hmem hself ?_ ?_ ?_
    · intro id' hid'
      obtain ⟨h₁, h₂⟩ := h.routed id' hid'
      rw [hf id' h₁]
      exact fun e => ha (e ▸ h₂)
    · intro i qm hqm c hc
      rw [ShardedPipeline.queue_enqueue] at hqm
      have hold : qm ∈ (p.shards i).queue.items → originAfter f (.add a) c.orderId ≠ a.orderId := by
        intro hqm
        obtain ⟨h₁, h₂, -⟩ := (h.queued i qm hqm).cancel hc
        rw [hf _ h₁]
        exact fun e => ha (e ▸ h₂)
      split at hqm
      · next hi =>
        rcases Placed.mem_push hqm with hqm | rfl
        · exact hold (hi ▸ hqm)
        · cases hc
      · exact hold hqm
    · refine ⟨dest.shardIndex, ⟨dest.symbol, .add a⟩, ?_, a, rfl, rfl⟩
      rw [ShardedPipeline.queue_enqueue, if_pos rfl]
      exact mem_push_self _ _
  | cancel c =>
    have hc : p.orderRoute.contains c.orderId = true := (contains_iff _ _).2 ⟨dest, hdest⟩
    have hkeep : ∀ id, (p.orderRoute.erase c.orderId).contains id = true →
        p.orderRoute.contains id = true ∧ id ≠ c.orderId := by
      intro id hid
      rw [contains_erase, Bool.and_eq_true, bne_iff_ne] at hid
      exact hid
    refine (hmono.shrink (r := p.orderRoute.erase c.orderId) fun id hid => (hkeep id hid).1).push _ ⟨dest.symbol, .cancel c⟩ ?_ hev
    obtain ⟨h₁, h₂⟩ := hmono.routed _ hc
    refine ⟨h₁, h₂, fun id hid he => ?_⟩
    exact (hkeep id hid).2 (h.distinct id c.orderId (hkeep id hid).1 hc he)
  | execute x => exact hmono.push dest.shardIndex ⟨dest.symbol, .execute x⟩ trivial hev
  | replace x =>
    have hold : p.orderRoute.contains x.oldOrderId = true := (contains_iff _ _).2 ⟨dest, hdest⟩
    have hmem : x.newOrderId ∈ seen ++ (DecodedMessage.replace x).introduced.toList := by simp [DecodedMessage.introduced]
    have horigin : originAfter f (.replace x) x.newOrderId = originAfter f (.replace x) x.oldOrderId := by
      rw [hf _ (h.routed _ hold).1]
      exact Function.update_self ..
    refine (hmono.rename dest hold hmem horigin).push dest.shardIndex ⟨dest.symbol, .replace x⟩ ?_ hev
    exact ⟨(hmono.routed _ hold).1, hmem, horigin⟩

/-! ### A processed message -/

section Processed
variable {i : Fin n.1} {qm : QueuedMessage} {result : Except ApplyError ApplyResult}

theorem hasOrder_processed (hp : p.Processed i qm result p') (j : Fin n.1) (sym : Symbol) (id : OrderId) :
    ((p'.shards j).book sym).hasOrder id = if j = i ∧ sym = qm.symbol then
      (applyRemaining ((p.shards i).book qm.symbol).remaining qm.message id).isSome
      else ((p.shards j).book sym).hasOrder id := by
  rw [hp.state]
  by_cases hj : j = i
  · rw [if_pos hj, ShardState.book_applyMessage]
    by_cases hs : sym = qm.symbol
    · rw [if_pos hs, if_pos ⟨hj, hs⟩, OrderBook.hasOrder_eq_remaining, OrderBook.remaining_apply]
    · rw [if_neg hs, if_neg (fun e => hs e.2), hj]
  · rw [if_neg hj, if_neg (fun e => hj e.1)]

theorem applyRemaining_cases {g : Remaining} {id : OrderId} (h : (g id).isSome = true) (m : DecodedMessage) :
    (applyRemaining g m id).isSome = true ∨ (∃ c, m = .cancel c ∧ c.orderId = id) ∨
      (∃ x, m = .execute x ∧ x.orderId = id ∧ g id = some x.executedQuantity ∧ applyRemaining g m id = none) ∨
      ∃ r, m = .replace r ∧ r.oldOrderId = id ∧ (applyRemaining g m r.newOrderId).isSome = true := by
  cases m with
  | add a =>
    rw [applyRemaining]
    split
    · exact .inl h
    · rw [Function.update_apply]
      split
      · exact .inl rfl
      · exact .inl h
  | cancel c =>
    by_cases hc : c.orderId = id
    · exact .inr (.inl ⟨c, rfl, hc⟩)
    · rw [applyRemaining, Function.update_of_ne (Ne.symm hc)]
      exact .inl h
  | execute x =>
    by_cases hx : x.orderId = id
    · subst hx
      obtain ⟨q, hq⟩ := Option.isSome_iff_exists.1 h
      by_cases hz : q - x.executedQuantity = 0
      · have hz' : q = x.executedQuantity := by rwa [UInt32.sub_eq_iff_eq_add, UInt32.zero_add] at hz
        refine .inr (.inr (.inl ⟨x, rfl, rfl, by rw [hq, hz'], ?_⟩))
        simp [applyRemaining, hq, hz']
      · refine .inl ?_
        simp only [applyRemaining, hq, hz, if_false]
        split
        · exact h
        · rw [Function.update_self]
          rfl
    · refine .inl ?_
      cases hq : g x.orderId with
      | none => simpa only [applyRemaining, hq] using h
      | some q =>
        simp only [applyRemaining, hq]
        split
        · exact h
        · rwa [Function.update_of_ne (Ne.symm hx)]
  | replace r =>
    rw [applyRemaining]
    split
    · by_cases hr : r.oldOrderId = id
      · exact .inr (.inr (.inr ⟨r, rfl, hr, by rw [Function.update_self]; rfl⟩))
      · rw [Function.update_apply]
        split
        · exact .inl rfl
        · rw [Function.update_of_ne (Ne.symm hr)]
          exact .inl h
    · exact .inl h

theorem booked_processed (h : Lineage f seen p) (hp : p.Processed i qm result p') {j : Fin n.1} {sym : Symbol}
    {id : OrderId} (hid : ((p'.shards j).book sym).hasOrder id = true) : id ∈ seen := by
  have hqm := h.queued i qm hp.head_mem
  rw [hp.state] at hid
  split at hid
  · next hj =>
    rw [ShardState.book_applyMessage] at hid
    split at hid
    · rcases OrderBook.hasOrder_apply_sub hid with hid | ⟨a, ha, rfl⟩ | ⟨r, hr, rfl⟩
      · exact h.booked i _ id hid
      · rw [ha] at hqm
        exact hqm.1
      · rw [hr] at hqm
        exact hqm.2.1
    · exact h.booked i sym id hid
  · exact h.booked j sym id hid

/-- An order of the processed book is still there, is there under its new id, or has lost its route. -/
theorem live_processed (h : Lineage f seen p) (hp : p.Processed i qm result p')
    (hfill : ∀ x, qm.message = .execute x →
      ((p.shards i).book qm.symbol).remaining x.orderId = some x.executedQuantity →
      ∀ id, p.orderRoute.contains id = true → f id = f x.orderId → id = x.orderId)
    {id id' : OrderId} (hid : p'.orderRoute.contains id = true)
    (hid' : ((p.shards i).book qm.symbol).hasOrder id' = true) (he : f id' = f id) :
    ∃ id'', ((p'.shards i).book qm.symbol).hasOrder id'' = true ∧ f id'' = f id := by
  have hqm := h.queued i qm hp.head_mem
  have hbook : ∀ id', ((p'.shards i).book qm.symbol).hasOrder id' =
      (applyRemaining ((p.shards i).book qm.symbol).remaining qm.message id').isSome := by
    intro id'
    rw [hasOrder_processed hp, if_pos ⟨rfl, rfl⟩]
  rw [OrderBook.hasOrder_eq_remaining] at hid'
  rcases applyRemaining_cases hid' qm.message with hs | ⟨c, hm, rfl⟩ | ⟨x, hm, rfl, hq, hnone⟩ | ⟨r, hm, rfl, hs⟩
  · exact ⟨id', (hbook id').trans hs, he⟩
  · exact absurd he.symm ((hqm.cancel hm).2.2 id (hp.contains_route hid))
  · -- filled under its routed id: the cleanup takes the route away
    exfalso
    obtain rfl := hfill x hm hq id (hp.contains_route hid) he.symm
    have hgone : ((p'.shards i).book qm.symbol).hasOrder x.orderId = false := by
      rw [hbook, hnone]
      rfl
    rw [hp.orderRoute, hm] at hid
    simp [eraseFilled, hgone] at hid
  · rw [hm] at hqm
    exact ⟨r.newOrderId, (hbook _).trans hs, hqm.2.2.trans he⟩

theorem processed (h : Lineage f seen p) (hp : p.Processed i qm result p')
    (hfill : ∀ x, qm.message = .execute x →
      ((p.shards i).book qm.symbol).remaining x.orderId = some x.executedQuantity →
      ∀ id, p.orderRoute.contains id = true → f id = f x.orderId → id = x.orderId) : Lineage f seen p' := by
  refine ⟨fun id hid => h.routed id (hp.contains_route hid),
    fun id id' hid hid' => h.distinct id id' (hp.contains_route hid) (hp.contains_route hid'), ?_,
    fun j sym id hid => h.booked_processed hp hid, ?_⟩
  · intro j qm' hqm'
    have hq := h.queued j qm' (hp.mem_queue hqm')
    exact hq.table fun c hc id hid => (hq.cancel hc).2.2 id (hp.contains_route hid)
  · intro id hid
    rcases h.live id (hp.contains_route hid) with ⟨j, qm', hqm', a, ha, he⟩ | ⟨j, sym, id', hid', he⟩
    · by_cases hj : j = i
      · subst hj
        rw [hp.items] at hqm'
        rcases List.mem_cons.1 hqm' with rfl | hqm'
        · -- the Add itself: its order rests now
          have hqm := h.queued j qm' hp.head_mem
          rw [ha] at hqm
          refine .inr ⟨j, qm'.symbol, a.orderId, ?_, hqm.2.trans he⟩
          rw [hasOrder_processed hp, if_pos ⟨rfl, rfl⟩, ha, applyRemaining]
          split
          · next hs => exact hs
          · rw [Function.update_self]
            rfl
        · exact .inl ⟨j, qm', hqm', a, ha, he⟩
      · exact .inl ⟨j, qm', by rwa [hp.queue j hj], a, ha, he⟩
    · by_cases hsame : j = i ∧ sym = qm.symbol
      · obtain ⟨rfl, rfl⟩ := hsame
        obtain ⟨id'', hid'', he'⟩ := h.live_processed hp hfill hid hid' he
        exact .inr ⟨j, qm.symbol, id'', hid'', he'⟩
      · refine .inr ⟨j, sym, id', ?_, he⟩
        rwa [hasOrder_processed hp, if_neg hsame]

end Processed

theorem congr (h : Lineage f seen p) (hq : ∀ i, (p'.shards i).queue = (p.shards i).queue)
    (hb : ∀ i, (p'.shards i).books = (p.shards i).books) (hr : p'.orderRoute = p.orderRoute) : Lineage f seen p' := by
  have hbook : ∀ i sym, (p'.shards i).book sym = (p.shards i).book sym := by
    intro i sym
    rw [ShardState.book, hb]
    rfl
  refine ⟨?_, ?_, ?_, ?_, ?_⟩
  · rw [hr]; exact h.routed
  · rw [hr]; exact h.distinct
  · intro i
    rw [hq, hr]
    exact h.queued i
  · intro i sym
    rw [hbook]
    exact h.booked i sym
  · intro id hid
    rw [hr] at hid
    simp only [hq, hbook]
    exact h.live id hid

end Lineage

/-! ### Runs -/

/-- The ids the messages bring in. -/
def introducedBy (ms : List DecodedMessage) : List OrderId := ms.filterMap (·.introduced)

theorem introducedBy_append (ms : List DecodedMessage) (m : DecodedMessage) :
    introducedBy (ms ++ [m]) = introducedBy ms ++ m.introduced.toList := by
  rw [introducedBy, List.filterMap_append]
  cases hm : m.introduced <;> simp [introducedBy, hm]

/-- After the messages `ms`, the call evicts no Add whose order is routed after it, and processes no
Execute that fills an order which is routed under another id. -/
def KeepsRoutes (ms : List DecodedMessage) (p : ShardedPipeline n) : Op n → Prop
  | .demux raw => ∀ m dest qm a, decode raw = .ok m → destination p.orderRoute m = some dest →
      ¬ (p.shards dest.shardIndex).queue.items.length < kShardQueueCapacity →
      (p.shards dest.shardIndex).queue.items.head? = some qm → qm.message = .add a →
      ∀ id, (routeAfter p.orderRoute dest m).contains id = true → origin (ms ++ [m]) id ≠ a.orderId
  | .process i => ∀ qm x, (p.shards i).queue.items.head? = some qm → qm.message = .execute x →
      ((p.shards i).book qm.symbol).remaining x.orderId = some x.executedQuantity →
      ∀ id, p.orderRoute.contains id = true → origin ms id = origin ms x.orderId → id = x.orderId
  | .publish _ => True
  | .resync _ _ => True

namespace Lineage
variable {ms : List DecodedMessage} {r : Run n}

theorem step (h : Lineage (origin ms) (introducedBy ms) r.pipeline) {op : Op n}
    (hu : (introducedBy (ms ++ sentBy [op])).Nodup) (hk : KeepsRoutes ms r.pipeline op) :
    Lineage (origin (ms ++ sentBy [op])) (introducedBy (ms ++ sentBy [op])) (r.step op).pipeline := by
  cases op with
  | demux raw =>
    change Lineage _ _ (r.pipeline.demux raw).2
    cases hdec : decode raw with
    | error e =>
      have hsent : sentBy [Op.demux (n := n) raw] = [] := by simp [sentBy, packetsOf, hdec, Except.toOption]
      rw [hsent, List.append_nil]
      simpa [ShardedPipeline.demux, hdec] using h
    | ok m =>
      have hsent : sentBy [Op.demux (n := n) raw] = [m] := by simp [sentBy, packetsOf, hdec, Except.toOption]
      rw [hsent, introducedBy_append] at hu ⊢
      rw [origin_append, ShardedPipeline.demux_of_decode hdec]
      have hnew : ∀ id ∈ m.introduced, id ∉ introducedBy ms := by
        intro id hid hmem
        exact (List.nodup_append.1 hu).2.2 id hmem id (by simpa using hid) rfl
      cases hdest : destination r.pipeline.orderRoute m with
      | none =>
        exact h.mono (fun id hid => originAfter_of_ne fun hi => hnew id hi hid) (List.subset_append_left _ _)
      | some dest =>
        refine h.enqueue hdest hnew fun qm a hfull hhead ha id hid => ?_
        rw [← origin_append]
        exact hk m dest qm a hdec hdest hfull hhead ha id hid
  | process i =>
    rw [show sentBy [Op.process i] = [] from rfl, List.append_nil]
    rcases r.step_process i with ⟨-, hr⟩ | ⟨qm, result, p', hp, hr⟩
    · rw [hr]; exact h
    · rw [hr]
      exact h.processed hp fun x hm hq => hk qm x (by rw [hp.items]; rfl) hm hq
  | publish i =>
    rw [show sentBy [Op.publish i] = [] from rfl, List.append_nil]
    refine h.congr (fun j => (r.step_publish i j).2) (fun j => ?_) rfl
    rw [(r.step_publish i j).1]
  | resync i k =>
    rw [show sentBy [Op.resync i k] = [] from rfl, List.append_nil]
    exact h.congr (fun j => (r.step_resync i k j).2) (fun j => (r.step_resync i k j).1) rfl

theorem exec (h : Lineage (origin ms) (introducedBy ms) r.pipeline) {ops : List (Op n)}
    (hu : (introducedBy (ms ++ sentBy ops)).Nodup)
    (hk : ∀ pre op post, ops = pre ++ op :: post → KeepsRoutes (ms ++ sentBy pre) (r.exec pre).pipeline op) :
    Lineage (origin (ms ++ sentBy ops)) (introducedBy (ms ++ sentBy ops)) (r.exec ops).pipeline := by
  induction ops generalizing ms r with
  | nil =>
    rw [show sentBy ([] : List (Op n)) = [] from rfl, List.append_nil]
    exact h
  | cons op ops ih =>
    rw [sentBy_cons, ← List.append_assoc] at hu ⊢
    have hu₁ : (introducedBy (ms ++ sentBy [op])).Nodup := by
      rw [introducedBy, List.filterMap_append] at hu
      exact hu.of_append_left
    have hk₁ := hk [] op ops rfl
    rw [show sentBy ([] : List (Op n)) = [] from rfl, List.append_nil] at hk₁
    refine ih (h.step hu₁ hk₁) hu ?_
    rintro pre op' post rfl
    have := hk (op :: pre) op' post rfl
    rwa [sentBy_cons, ← List.append_assoc] at this

end Lineage

/-- In every run with unique ids whose calls all keep the routes, the table is never larger than the
resting orders and the queued messages together. -/
theorem routing_table_bounded (n : NumShards) (ops : List (Op n)) (hu : ((sentBy ops).filterMap (·.introduced)).Nodup)
    (hk : ∀ pre op post, ops = pre ++ op :: post → KeepsRoutes (sentBy pre) (({} : Run n).exec pre).pipeline op) :
    ∀ pre, pre <+: ops → (({} : Run n).exec pre).pipeline.routingTableSize ≤
      (({} : Run n).exec pre).pipeline.restingIds.length + (({} : Run n).exec pre).pipeline.queuedMessages.length := by
  rintro pre ⟨post, rfl⟩
  have hsub : (sentBy pre).Sublist (sentBy (pre ++ post)) := by
    rw [sentBy, sentBy, packetsOf, packetsOf, List.filterMap_append, List.filterMap_append]
    exact List.sublist_append_left _ _
  have h : Lineage (origin ([] ++ sentBy pre)) (introducedBy ([] ++ sentBy pre)) (({} : Run n).exec pre).pipeline := by
    have hinit : Lineage (origin []) (introducedBy []) ({} : Run n).pipeline := .init
    refine hinit.exec (hu.sublist (hsub.filterMap _)) ?_
    rintro pre' op post' rfl
    exact hk pre' op (post' ++ post) (by simp)
  exact h.bound

/-- Order `7` is partly filled, renamed to `8` before any of it is processed, and filled as `8`. -/
def renameOps : List (Op oneShard) :=
  [.demux sampleAdd.packet, .demux (DecodedMessage.execute ⟨2, 7, 4, 2⟩).packet,
    .demux (DecodedMessage.replace ⟨3, 7, 8, 101, 5, 3⟩).packet, .process 0, .process 0, .process 0,
    .demux (DecodedMessage.execute ⟨4, 8, 5, 4⟩).packet, .process 0]

/-- A message in front of queue `i` that fills an order finds no other route. -/
def FillsAlone (p : ShardedPipeline n) (i : Fin n.1) : Bool :=
  match (p.shards i).queue.items.head? with
  | some ⟨sym, .execute x⟩ => ((p.shards i).book sym).remaining x.orderId ≠ some x.executedQuantity ∨
      p.orderRoute.keys = [x.orderId]
  | _ => true

theorem routing_table_bounded_rename :
    (({} : Run oneShard).exec (renameOps.take 6)).pipeline.routingTableSize = 1 ∧
      (({} : Run oneShard).exec (renameOps.take 6)).pipeline.routingTableSize ≤
        (({} : Run oneShard).exec (renameOps.take 6)).pipeline.restingIds.length +
          (({} : Run oneShard).exec (renameOps.take 6)).pipeline.queuedMessages.length := by
  have hroom : ∀ k ≤ 8, ∀ i, ((({} : Run oneShard).exec (renameOps.take k)).pipeline.shards i).queue.items.length <
      kShardQueueCapacity := by decide +kernel
  have halone : ∀ k ≤ 8, ∀ i, FillsAlone (({} : Run oneShard).exec (renameOps.take k)).pipeline i = true := by
    decide +kernel
  refine ⟨by decide +kernel, ?_⟩
  refine routing_table_bounded oneShard renameOps (by decide +kernel) (fun pre op post he => ?_) _ (List.take_prefix _ _)
  have hpre : pre = renameOps.take pre.length := by rw [he, List.take_left]
  have hlen : pre.length ≤ 8 := by
    have := congrArg List.length he
    simp [renameOps] at this
    omega
  cases op with
  | demux raw =>
    intro m dest qm a _ _ hfull
    refine absurd ?_ hfull
    rw [hpre]
    exact hroom _ hlen _
  | process i =>
    intro qm x hqm hx hfill id hid _
    have := halone pre.length hlen i
    rw [← hpre] at this
    obtain ⟨sym, m⟩ := qm
    obtain rfl : m = .execute x := hx
    simp only [FillsAlone, hqm, decide_eq_true_eq] at this
    have hkeys := this.resolve_left fun hne => hne hfill
    have hmem := Std.ExtTreeMap.mem_keys.2 (Std.ExtTreeMap.mem_iff_contains.2 hid)
    rw [hkeys] at hmem
    exact List.mem_singleton.1 hmem
  | publish i => trivial
  | resync i k => trivial

/-- Order `7` is added, filled and renamed to `8` before any of it is processed: route `8` stays, with
no order behind it. -/
theorem renamed_fill_leaks_route :
    let ops : List (Op oneShard) := [.demux sampleAdd.packet, .demux sampleFill.packet,
      .demux (DecodedMessage.replace ⟨3, 7, 8, 101, 5, 3⟩).packet, .process ⟨0, by decide⟩, .process ⟨0, by decide⟩,
      .process ⟨0, by decide⟩]
    ((sentBy ops).filterMap (·.introduced)).Nodup ∧
      ¬ (({} : Run oneShard).exec ops).pipeline.routingTableSize ≤
        (({} : Run oneShard).exec ops).pipeline.restingIds.length +
          (({} : Run oneShard).exec ops).pipeline.queuedMessages.length := by
  decide +kernel

end Mdfh
