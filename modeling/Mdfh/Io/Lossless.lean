import Mdfh.Io.History

/-!
# Without loss the pipeline is the per-symbol reference

The route table is written when a message is demuxed and, after a full fill, when it is processed, so
in between it agrees with neither the live books nor the reference. It is the live book's ids pushed
through the messages still queued (`routeMark`), where an Execute changes nothing: its erase comes
with its processing. Ids are never reused, so that late erase commutes with what is queued behind it.
`RoutingView.Lags` says this of any table, books and pending messages; a message is sent, then settled.
-/

namespace Mdfh
open TreeMapLib
open LittleEndian (Bytes)

variable {n : NumShards} {symOf : OrderId → Symbol}

/-- The id a message brings in. -/
def DecodedMessage.introduced : DecodedMessage → Option OrderId
  | .add m => some m.orderId
  | .replace m => some m.newOrderId
  | .cancel _ => none
  | .execute _ => none

/-- The order the message refers to rests in `b`, with at least the executed quantity. -/
def References (b : OrderBook) : DecodedMessage → Prop
  | .add _ => True
  | .cancel m => b.hasOrder m.orderId = true
  | .execute m => ∃ o, b.resting m.orderId = some o ∧ m.executedQuantity ≤ o.quantity
  | .replace m => b.hasOrder m.oldOrderId = true

/-- The lossless reference: one book per symbol, fed that symbol's messages in stream order. -/
def refBook (symOf : OrderId → Symbol) (ms : List DecodedMessage) (sym : Symbol) : OrderBook :=
  OrderBook.empty.applyAll (ms.filter fun m => symOf m.orderId = sym)

/-- Ids are unique and never reused, and every message refers to an order resting in the reference. -/
structure ValidFeed (symOf : OrderId → Symbol) (ms : List DecodedMessage) : Prop where
  owned : ∀ m ∈ ms, Owned symOf m
  fresh : (ms.filterMap (·.introduced)).Nodup
  refs : ∀ pre m post, ms = pre ++ m :: post → References (refBook symOf pre (symOf m.orderId)) m

/-- The messages of each shard are numbered `1, 2, …`. -/
def Stamped (n : NumShards) (symOf : OrderId → Symbol) (ms : List DecodedMessage) : Prop :=
  ∀ i j m, (shardStream n symOf ms i)[j]? = some m → m.seqNum.toNat = j + 1

/-! ### A book that accepts all of its messages -/

namespace OrderBook
variable {b : OrderBook}

def AcceptsAll (b : OrderBook) (ms : List DecodedMessage) : Prop :=
  ∀ l m l', ms = l ++ m :: l' → (b.applyAll l).Accepts m

theorem AcceptsAll.cons {m : DecodedMessage} {ms : List DecodedMessage} (h : b.AcceptsAll (m :: ms)) :
    b.Accepts m ∧ (b.apply m).2.AcceptsAll ms := by
  refine ⟨h [] m ms rfl, ?_⟩
  rintro l m' l' rfl
  exact h (m :: l) m' l' rfl

theorem AcceptsAll.right {l l' : List DecodedMessage} (h : b.AcceptsAll (l ++ l')) : (b.applyAll l).AcceptsAll l' := by
  rintro l₁ m l₂ rfl
  rw [← applyAll_append]
  exact h (l ++ l₁) m l₂ (by simp)

theorem introduced_of_hasOrder {ms : List DecodedMessage} {id : OrderId} (h : (b.applyAll ms).hasOrder id = true) :
    b.hasOrder id = true ∨ id ∈ ms.filterMap (·.introduced) := by
  induction ms generalizing b with
  | nil => exact .inl h
  | cons m ms ih =>
    rcases ih h with h | h
    · rcases hasOrder_apply_sub h with h | ⟨a, rfl, rfl⟩ | ⟨r, rfl, rfl⟩
      · exact .inl h
      · exact .inr (by simp [DecodedMessage.introduced])
      · exact .inr (by simp [DecodedMessage.introduced])
    · exact .inr (by rw [List.filterMap_cons]; split <;> simp [h])

end OrderBook

namespace ValidFeed
variable {ms : List DecodedMessage}

theorem left {pre post : List DecodedMessage} (h : ValidFeed symOf (pre ++ post)) : ValidFeed symOf pre := by
  refine ⟨fun m hm => h.owned m (List.mem_append_left _ hm), ?_, ?_⟩
  · have := h.fresh
    rw [List.filterMap_append] at this
    exact this.of_append_left
  · rintro l m l' rfl
    exact h.refs l m (l' ++ post) (by simp)

theorem nil : ValidFeed symOf [] := by
  refine ⟨by simp, List.nodup_nil, ?_⟩
  intro pre m post h
  simp at h

theorem snoc (h : ValidFeed symOf ms) {m : DecodedMessage} (ho : Owned symOf m)
    (hf : ∀ id ∈ m.introduced, id ∉ ms.filterMap (·.introduced))
    (hr : References (refBook symOf ms (symOf m.orderId)) m) : ValidFeed symOf (ms ++ [m]) := by
  refine ⟨?_, ?_, ?_⟩
  · intro m' hm'
    rcases List.mem_append.1 hm' with hm' | hm'
    · exact h.owned m' hm'
    · rw [List.mem_singleton.1 hm']; exact ho
  · rw [List.filterMap_append]
    refine List.nodup_append.2 ⟨h.fresh, by cases hm : m.introduced <;> simp [hm], ?_⟩
    rintro id hid id' hid' rfl
    refine hf id ?_ hid
    simpa [eq_comm] using hid'
  · intro pre m' post he
    rcases List.append_eq_append_iff.1 he with ⟨l, hpre, hl⟩ | ⟨l, hms, hl⟩
    · cases l with
      | nil =>
        rw [List.append_nil] at hpre
        obtain ⟨rfl, -⟩ := List.cons.inj hl
        rw [hpre]
        exact hr
      | cons x l => simp at hl
    · cases l with
      | nil =>
        rw [List.append_nil] at hms
        obtain ⟨rfl, -⟩ := List.cons.inj hl
        rw [← hms]
        exact hr
      | cons x l =>
        obtain ⟨rfl, -⟩ := List.cons.inj hl
        exact h.refs pre m' l hms

theorem nodup_filter (h : ValidFeed symOf ms) (sym : Symbol) :
    ((ms.filter fun m => symOf m.orderId = sym).filterMap (·.introduced)).Nodup :=
  h.fresh.sublist (List.filter_sublist.filterMap _)

/-- Uniqueness supplies what `References` leaves open. -/
theorem accepts (h : ValidFeed symOf ms) {pre post : List DecodedMessage} {m : DecodedMessage}
    (hms : ms = pre ++ m :: post) : (refBook symOf pre (symOf m.orderId)).Accepts m := by
  have hnew : ∀ id, m.introduced = some id → (refBook symOf pre (symOf m.orderId)).hasOrder id = false := by
    intro id hid
    rw [← Bool.not_eq_true]
    intro hrest
    rcases OrderBook.introduced_of_hasOrder hrest with he | hin
    · simp at he
    · have hmem : id ∈ pre.filterMap (·.introduced) := (List.filter_sublist.filterMap _).subset hin
      have hn := h.fresh
      rw [hms, List.filterMap_append, List.filterMap_cons, hid, List.nodup_append] at hn
      exact hn.2.2 id hmem id List.mem_cons_self rfl
  have href := h.refs pre m post hms
  cases m with
  | add m => exact hnew _ rfl
  | cancel m => exact href
  | execute m => exact href
  | replace m => exact ⟨href, hnew _ rfl⟩

theorem acceptsAll (h : ValidFeed symOf ms) (sym : Symbol) :
    OrderBook.empty.AcceptsAll (ms.filter fun m => symOf m.orderId = sym) := by
  intro l m l' hl
  obtain ⟨a, c, hms, ha, hc⟩ := List.filter_eq_append_iff.1 hl
  obtain ⟨c₁, c₂, rfl, hc₁, hm, -⟩ := List.filter_eq_cons_iff.1 hc
  have hms' : ms = (a ++ c₁) ++ m :: c₂ := by simp [hms]
  have hacc := h.accepts hms'
  rw [refBook, of_decide_eq_true hm, List.filter_append, ha, List.filter_eq_nil_iff.2 hc₁, List.append_nil] at hacc
  exact hacc

/-- A valid feed read per symbol and cut in two: the second half fits the book of the first. -/
theorem acceptsAll_right (h : ValidFeed symOf ms) {a b : List DecodedMessage} {sym : Symbol}
    (hs : a ++ b = ms.filter fun m => symOf m.orderId = sym) : (OrderBook.empty.applyAll a).AcceptsAll b := by
  have ha := h.acceptsAll sym
  rw [← hs] at ha
  exact ha.right

/-- What rests after the first half is not brought in again by the second. -/
theorem fresh_right (h : ValidFeed symOf ms) {a b : List DecodedMessage} {sym : Symbol}
    (hs : a ++ b = ms.filter fun m => symOf m.orderId = sym) {id : OrderId}
    (hid : (OrderBook.empty.applyAll a).hasOrder id = true) : id ∉ b.filterMap (·.introduced) := by
  have hn := h.nodup_filter sym
  rw [← hs, List.filterMap_append, List.nodup_append] at hn
  rcases OrderBook.introduced_of_hasOrder hid with he | hin
  · simp at he
  · exact fun hin' => hn.2.2 id hin id hin' rfl

end ValidFeed

/-! ### The route table and the queued messages -/

/-- What a queued message still means for the route of `id`. -/
def routeMark (id : OrderId) (x : Bool) : DecodedMessage → Bool
  | .add m => x || id == m.orderId
  | .cancel m => x && id != m.orderId
  | .execute _ => x
  | .replace m => (x && id != m.oldOrderId) || id == m.newOrderId

theorem contains_routeAfter (r : RouteTable n) (dest : OrderRoute n) (m : DecodedMessage) (id : OrderId) :
    (routeAfter r dest m).contains id = routeMark id (r.contains id) m := by
  cases m <;> simp only [routeAfter, routeMark, contains_insert, contains_erase]

theorem routeMark_of_ne {m : DecodedMessage} (hm : Owned symOf m) {id : OrderId} (hid : symOf id ≠ symOf m.orderId)
    (x : Bool) : routeMark id x m = x := by
  have hne : ∀ id', symOf id' = symOf m.orderId → id ≠ id' := fun id' h e => hid (e ▸ h)
  cases m with
  | add m => simp [routeMark, hne m.orderId rfl]
  | cancel m => simp [routeMark, hne m.orderId rfl]
  | execute m => rfl
  | replace m =>
    have hold : (id != m.oldOrderId) = true := bne_iff_ne.2 (hne m.oldOrderId rfl)
    have hnew : (id == m.newOrderId) = false := beq_eq_false_iff_ne.2 (hne m.newOrderId hm)
    rw [routeMark, hold, hnew, Bool.and_true, Bool.or_false]

theorem routeMark_mono {id : OrderId} {x y : Bool} (h : x = true → y = true) {m : DecodedMessage}
    (hx : routeMark id x m = true) : routeMark id y m = true := by
  cases m <;> simp only [routeMark, Bool.or_eq_true, Bool.and_eq_true] at hx ⊢
  · exact hx.imp_left h
  · exact ⟨h hx.1, hx.2⟩
  · exact h hx
  · exact hx.imp_left fun hx => ⟨h hx.1, hx.2⟩

theorem foldl_routeMark_mono {id : OrderId} {x y : Bool} (h : x = true → y = true) {ms : List DecodedMessage}
    (hx : ms.foldl (routeMark id) x = true) : ms.foldl (routeMark id) y = true := by
  induction ms generalizing x y with
  | nil => exact h hx
  | cons m ms ih => exact ih (routeMark_mono h) hx

/-- An id that is not routed stays unrouted until some message brings it in. -/
theorem foldl_routeMark_false {id : OrderId} {ms : List DecodedMessage} (h : id ∉ ms.filterMap (·.introduced)) :
    ms.foldl (routeMark id) false = false := by
  induction ms with
  | nil => rfl
  | cons m ms ih =>
    rw [List.filterMap_cons] at h
    have hm : routeMark id false m = false := by
      cases m <;> simp_all [routeMark, DecodedMessage.introduced]
    rw [List.foldl_cons, hm]
    refine ih fun hin => h ?_
    split
    · exact hin
    · exact List.mem_cons_of_mem _ hin

namespace OrderBook
variable {b : OrderBook}

theorem restsAfter_eq_routeMark {m : DecodedMessage} {id : OrderId} (hm : ∀ x, m = .execute x → id ≠ x.orderId) :
    b.restsAfter m id = routeMark id (b.hasOrder id) m := by
  cases m with
  | execute x => simp [restsAfter, routeMark, hm x rfl]
  | add x => rfl
  | cancel x => rfl
  | replace x => rfl

theorem routeMark_of_restsAfter {m : DecodedMessage} {id : OrderId} (h : b.restsAfter m id = true) :
    routeMark id (b.hasOrder id) m = true := by
  cases m with
  | execute x => exact (Bool.and_eq_true _ _ ▸ h).1
  | add x => exact h
  | cancel x => exact h
  | replace x => exact h

/-- What will rest once the queue is worked off has a route now. -/
theorem routed_of_hasOrder {ms : List DecodedMessage} (ha : b.AcceptsAll ms) {id : OrderId}
    (h : (b.applyAll ms).hasOrder id = true) : ms.foldl (routeMark id) (b.hasOrder id) = true := by
  induction ms generalizing b with
  | nil => exact h
  | cons m ms ih =>
    obtain ⟨hm, hms⟩ := ha.cons
    rw [List.foldl_cons]
    refine foldl_routeMark_mono ?_ (ih hms h)
    rw [hasOrder_apply hm]
    exact routeMark_of_restsAfter

/-- Processing the oldest queued message moves the table to the next book. -/
theorem contains_eraseFilled {m : DecodedMessage} {ms : List DecodedMessage} (hm : b.Accepts m) {id : OrderId}
    (hnew : b.hasOrder id = true → id ∉ ms.filterMap (·.introduced)) {r : RouteTable n}
    (h : r.contains id = (m :: ms).foldl (routeMark id) (b.hasOrder id)) :
    (eraseFilled (b.apply m).2 m r).contains id = ms.foldl (routeMark id) ((b.apply m).2.hasOrder id) := by
  rw [hasOrder_apply hm]
  by_cases hx : ∃ x, m = .execute x ∧ id = x.orderId
  · obtain ⟨x, rfl, rfl⟩ := hx
    obtain ⟨o, ho, -⟩ := hm
    have hrest : b.hasOrder x.orderId = true := hasOrder_iff.2 ⟨o, ho⟩
    rw [List.foldl_cons, routeMark, hrest] at h
    simp only [restsAfter, eraseFilled, hrest, bne_self_eq_false, Bool.false_or, Bool.true_and]
    cases hout : (b.apply (.execute x)).2.hasOrder x.orderId with
    | true => simpa using h
    | false =>
      rw [foldl_routeMark_false (hnew hrest)]
      simp
  · have hx' : ∀ x, m = .execute x → id ≠ x.orderId := fun x hmx hid => hx ⟨x, hmx, hid⟩
    rw [restsAfter_eq_routeMark hx', contains_eraseFilled_of_ne hx', h, List.foldl_cons]

end OrderBook

/-! ### A table that lags behind the stream -/

/-- The routing table, the book of each symbol and what is still to come for it. -/
structure RoutingView (n : NumShards) where
  orderRoute : RouteTable n
  book : Symbol → OrderBook
  pending : Symbol → List DecodedMessage

namespace RoutingView

/-- A message for `s` is routed there. -/
structure Sends (v : RoutingView n) (m : DecodedMessage) (s : Symbol) (v' : RoutingView n) : Prop where
  orderRoute : v'.orderRoute = routeAfter v.orderRoute ⟨shardForSymbol n s, s⟩ m
  book : v'.book = v.book
  pending : ∀ sym, v'.pending sym = v.pending sym ++ if sym = s then [m] else []

/-- The next message for `s` is applied and cleaned up after. -/
structure Settles (v : RoutingView n) (m : DecodedMessage) (s : Symbol) (v' : RoutingView n) : Prop where
  orderRoute : v'.orderRoute = eraseFilled (v'.book s) m v.orderRoute
  book : ∀ sym, v'.book sym = if sym = s then ((v.book s).apply m).2 else v.book sym
  pending : ∀ sym, v.pending sym = (if sym = s then [m] else []) ++ v'.pending sym

/-- The books are behind the stream by what is pending, and the table is their ids pushed through that. -/
structure Lags (symOf : OrderId → Symbol) (done : List DecodedMessage) (v : RoutingView n) : Prop where
  split : ∀ sym, ∃ got, got ++ v.pending sym = done.filter (fun m => symOf m.orderId = sym) ∧
    v.book sym = OrderBook.empty.applyAll got
  marked : ∀ id, v.orderRoute.contains id =
    (v.pending (symOf id)).foldl (routeMark id) ((v.book (symOf id)).hasOrder id)

namespace Lags
variable {v v' : RoutingView n} {done : List DecodedMessage} {m : DecodedMessage}

/-- The reference is the book with what is pending applied. -/
theorem refBook_eq (h : v.Lags symOf done) (sym : Symbol) :
    refBook symOf done sym = (v.book sym).applyAll (v.pending sym) := by
  obtain ⟨got, hgot, hbook⟩ := h.split sym
  rw [refBook, ← hgot, OrderBook.applyAll_append, hbook]

theorem accepts (h : v.Lags symOf done) (hv : ValidFeed symOf done) (sym : Symbol) :
    (v.book sym).AcceptsAll (v.pending sym) := by
  obtain ⟨got, hgot, hbook⟩ := h.split sym
  rw [hbook]
  exact hv.acceptsAll_right hgot

theorem fresh (h : v.Lags symOf done) (hv : ValidFeed symOf done) {sym : Symbol} {id : OrderId}
    (hid : (v.book sym).hasOrder id = true) : id ∉ (v.pending sym).filterMap (·.introduced) := by
  obtain ⟨got, hgot, hbook⟩ := h.split sym
  rw [hbook] at hid
  exact hv.fresh_right hgot hid

/-- A message that refers to an order of the reference has a route. -/
theorem routable (h : v.Lags symOf done) {post : List DecodedMessage} (hv : ValidFeed symOf (done ++ m :: post)) :
    routable v.orderRoute m = true := by
  have hrest : (refBook symOf done (symOf m.orderId)).hasOrder m.orderId = true →
      v.orderRoute.contains m.orderId = true := by
    intro hr
    rw [h.refBook_eq] at hr
    rw [h.marked]
    exact OrderBook.routed_of_hasOrder (h.accepts hv.left _) hr
  have href := hv.refs done m post rfl
  cases m with
  | add m => rfl
  | cancel m => exact hrest href
  | execute m =>
    obtain ⟨o, ho, -⟩ := href
    exact hrest (OrderBook.hasOrder_iff.2 ⟨o, ho⟩)
  | replace m => exact hrest href

theorem sends (h : v.Lags symOf done) (hm : Owned symOf m) (hs : v.Sends m (symOf m.orderId) v') :
    v'.Lags symOf (done ++ [m]) := by
  refine ⟨fun sym => ?_, fun id => ?_⟩
  · obtain ⟨got, hgot, hbook⟩ := h.split sym
    refine ⟨got, ?_, by rw [hs.book, hbook]⟩
    rw [hs.pending, ← List.append_assoc, hgot, List.filter_append]
    refine congrArg _ ?_
    by_cases hsym : symOf m.orderId = sym
    · simp [hsym]
    · simp [hsym, Ne.symm hsym]
  · rw [hs.orderRoute, contains_routeAfter, hs.pending, hs.book, List.foldl_append, ← h.marked]
    split
    · rfl
    · next hne => exact routeMark_of_ne hm hne _

theorem settles (h : v.Lags symOf done) (hv : ValidFeed symOf done) (hs : v.Settles m (symOf m.orderId) v') :
    v'.Lags symOf done := by
  refine ⟨fun sym => ?_, fun id => ?_⟩
  · obtain ⟨got, hgot, hbook⟩ := h.split sym
    refine ⟨got ++ if sym = symOf m.orderId then [m] else [], ?_, ?_⟩
    · rw [List.append_assoc, ← hs.pending, hgot]
    · rw [hs.book, OrderBook.applyAll_append, ← hbook]
      split
      · next he => rw [he]; rfl
      · rfl
  · rw [hs.orderRoute]
    by_cases hsym : symOf id = symOf m.orderId
    · -- the late erase commutes with the messages behind it
      have hpend : v.pending (symOf m.orderId) = m :: v'.pending (symOf m.orderId) := by
        rw [hs.pending, if_pos rfl]
        rfl
      have hacc := h.accepts hv (symOf m.orderId)
      have hmark := h.marked id
      rw [hpend] at hacc
      rw [hsym, hpend] at hmark
      rw [hsym, hs.book, if_pos rfl]
      refine OrderBook.contains_eraseFilled hacc.cons.1 (fun hid hin => h.fresh hv hid ?_) hmark
      rw [hpend, List.filterMap_cons]
      split
      · exact hin
      · exact List.mem_cons_of_mem _ hin
    · have hpend : v'.pending (symOf id) = v.pending (symOf id) := by
        rw [hs.pending (symOf id), if_neg hsym]
        rfl
      rw [hpend, hs.book (symOf id), if_neg hsym, ← h.marked]
      refine contains_eraseFilled_of_ne fun x hmx hid => hsym ?_
      rw [hmx, hid]
      rfl

end Lags
end RoutingView

/-! ### The invariant of a run -/

/-- The queued messages of a symbol. -/
def ShardedPipeline.pendingFor (p : ShardedPipeline n) (sym : Symbol) : List DecodedMessage :=
  messagesFor sym (p.shards (shardForSymbol n sym)).queue.items

namespace ShardedPipeline
variable {p p' : ShardedPipeline n}

theorem book_enqueue (r : RouteTable n) (i : Fin n.1) (qm : QueuedMessage) (sym : Symbol) :
    ({ p with orderRoute := r }.enqueue i qm).book sym = p.book sym := by
  rw [book, toShardState_enqueue]
  rfl

theorem pendingFor_enqueue (r : RouteTable n) (qm : QueuedMessage)
    (hlt : (p.shards (shardForSymbol n qm.symbol)).queue.items.length < kShardQueueCapacity) (sym : Symbol) :
    ({ p with orderRoute := r }.enqueue (shardForSymbol n qm.symbol) qm).pendingFor sym =
      p.pendingFor sym ++ if sym = qm.symbol then [qm.message] else [] := by
  rw [← messagesFor_single, pendingFor, queue_enqueue]
  split
  · next hi =>
    rw [(DropOldest.push_of_lt hlt).1, messagesFor_append, pendingFor, hi]
  · next hi =>
    have hs : sym ≠ qm.symbol := fun e => hi (by rw [e])
    rw [messagesFor_single, if_neg hs, List.append_nil]
    rfl

theorem Processed.pendingFor {i : Fin n.1} {qm : QueuedMessage} {result : Except ApplyError ApplyResult}
    (hp : p.Processed i qm result p') (hi : shardForSymbol n qm.symbol = i) (sym : Symbol) :
    p.pendingFor sym = (if sym = qm.symbol then [qm.message] else []) ++ p'.pendingFor sym := by
  rw [← messagesFor_single, ShardedPipeline.pendingFor, ShardedPipeline.pendingFor]
  by_cases hj : shardForSymbol n sym = i
  · rw [hj, hp.items, ← messagesFor_append]
    rfl
  · have hs : sym ≠ qm.symbol := fun e => hj (by rw [e, hi])
    rw [messagesFor_single, if_neg hs, hp.queue _ hj]
    rfl

theorem Processed.book {i : Fin n.1} {qm : QueuedMessage} {result : Except ApplyError ApplyResult}
    (hp : p.Processed i qm result p') (hi : shardForSymbol n qm.symbol = i) (sym : Symbol) :
    p'.book sym = if sym = qm.symbol then ((p.book qm.symbol).apply qm.message).2 else p.book sym := by
  rw [ShardedPipeline.book, hp.state]
  by_cases hs : sym = qm.symbol
  · rw [hs, hi, if_pos rfl, if_pos rfl, ShardState.book_applyMessage, if_pos rfl, ShardedPipeline.book, hi]
  · rw [if_neg hs]
    split
    · next hi' => rw [ShardState.book_applyMessage, if_neg hs, ← hi', ShardedPipeline.book]
    · rfl

def routingView (p : ShardedPipeline n) : RoutingView n := ⟨p.orderRoute, p.book, p.pendingFor⟩

/-- The pipeline after the message was routed and queued. -/
def routed (p : ShardedPipeline n) (m : DecodedMessage) (s : Symbol) : ShardedPipeline n :=
  { p with orderRoute := routeAfter p.orderRoute ⟨shardForSymbol n s, s⟩ m }.enqueue (shardForSymbol n s) ⟨s, m⟩

theorem sends_routed {m : DecodedMessage} {s : Symbol}
    (hroom : (p.shards (shardForSymbol n s)).queue.items.length < kShardQueueCapacity) :
    p.routingView.Sends m s (p.routed m s).routingView := by
  refine ⟨rfl, ?_, ?_⟩
  · funext sym
    exact book_enqueue _ _ _ sym
  · exact pendingFor_enqueue _ ⟨s, m⟩ hroom

theorem room_of_routed {m : DecodedMessage} {s : Symbol}
    (hd : ((p.routed m s).shards (shardForSymbol n s)).queue.dropped = (p.shards (shardForSymbol n s)).queue.dropped) :
    (p.shards (shardForSymbol n s)).queue.items.length < kShardQueueCapacity := by
  rw [routed, queue_enqueue, if_pos rfl] at hd
  exact DropOldest.dropped_push_iff.1 hd

theorem Processed.settles {i : Fin n.1} {qm : QueuedMessage} {result : Except ApplyError ApplyResult}
    (hp : p.Processed i qm result p') (hi : shardForSymbol n qm.symbol = i) :
    p.routingView.Settles qm.message qm.symbol p'.routingView := by
  refine ⟨?_, hp.book hi, hp.pendingFor hi⟩
  have hbook : (p'.shards i).book qm.symbol = p'.book qm.symbol := by rw [ShardedPipeline.book, hi]
  show p'.orderRoute = eraseFilled (p'.book qm.symbol) qm.message p.orderRoute
  rw [← hbook]
  exact hp.orderRoute

end ShardedPipeline

structure InFlight (symOf : OrderId → Symbol) (done : List DecodedMessage) (r : Run n) : Prop where
  history : History symOf done r
  order : ∀ i, r.processed i ++ (r.pipeline.shards i).queue.items = (shardStream n symOf done i).map (queuedAs symOf)
  routes : ∀ id, r.pipeline.orderRoute.contains id =
    (r.pipeline.pendingFor (symOf id)).foldl (routeMark id) ((r.pipeline.book (symOf id)).hasOrder id)
  demuxed : ∀ x ∈ r.demuxed, ∃ i, x = .ok i
  applied : ∀ i, ∀ e ∈ r.applied i, ∃ ds, e.2 = .ok ds

namespace InFlight
variable {done : List DecodedMessage} {r : Run n}

theorem init : InFlight symOf [] ({} : Run n) := by
  refine ⟨.init, fun i => rfl, ?_, by simp, by simp⟩
  intro id
  simp [ShardedPipeline.pendingFor, messagesFor, ShardedPipeline.book, ShardState.book]

theorem split (h : InFlight symOf done r) (sym : Symbol) :
    messagesFor sym (r.processed (shardForSymbol n sym)) ++ r.pipeline.pendingFor sym =
      done.filter fun m => symOf m.orderId = sym := by
  rw [ShardedPipeline.pendingFor, ← messagesFor_append, h.order, messagesFor_shardStream]

theorem lags (h : InFlight symOf done r) : r.pipeline.routingView.Lags symOf done := by
  refine ⟨fun sym => ⟨_, h.split sym, ?_⟩, h.routes⟩
  rw [← h.history.books]
  rfl

theorem demux (h : InFlight symOf done r) {m : DecodedMessage} {post : List DecodedMessage}
    (hv : ValidFeed symOf (done ++ m :: post))
    (hd : ∀ i, ((r.step (.demux m.packet)).pipeline.shards i).queue.dropped = (r.pipeline.shards i).queue.dropped) :
    InFlight symOf (done ++ [m]) (r.step (.demux m.packet)) := by
  have hm : Owned symOf m := hv.owned m (by simp)
  have hdec : ∀ m', decode m.packet = .ok m' → m' = m := by
    intro m' hm'
    rw [DecodedMessage.decode_packet] at hm'
    exact (Except.ok.inj hm').symm
  have ho : ∀ m', decode m.packet = .ok m' → Owned symOf m' := fun m' hm' => hdec m' hm' ▸ hm
  have hh : History symOf (done ++ [m]) (r.step (.demux m.packet)) := by
    simpa [sentBy, packetsOf, DecodedMessage.decode_packet, Except.toOption] using h.history.demux ho
  rcases ShardedPipeline.demux_cases h.history.placed.routes ho with ⟨e, -, hno⟩ | ⟨m', hm', -, he⟩
  · exact absurd (h.lags.routable hv) (by rw [ShardedPipeline.routingView, hno m m.decode_packet]; simp)
  · obtain rfl := hdec m' hm'
    have hstep : (r.step (.demux m'.packet)).pipeline = r.pipeline.routed m' (symOf m'.orderId) := by
      show (r.pipeline.demux m'.packet).2 = _
      rw [he]
      rfl
    have hroom := ShardedPipeline.room_of_routed (hstep ▸ hd (shardForSymbol n (symOf m'.orderId)))
    have hlags := h.lags.sends hm (hstep.symm ▸ ShardedPipeline.sends_routed hroom)
    refine ⟨hh, fun i => ?_, hlags.marked, fun x hx => ?_, h.applied⟩
    · rw [hstep, ShardedPipeline.routed, ShardedPipeline.queue_enqueue, shardStream_append, List.map_append, ← h.order,
        shardStream_single]
      split
      · next hi =>
        subst hi
        rw [(DropOldest.push_of_lt hroom).1, ← List.append_assoc]
        rfl
      · rw [List.map_nil, List.append_nil]
        rfl
    · rw [show (r.step (.demux m'.packet)).demuxed = r.demuxed ++ [(r.pipeline.demux m'.packet).1] from rfl, he] at hx
      rcases List.mem_append.1 hx with hx | hx
      · exact h.demuxed x hx
      · exact ⟨_, List.mem_singleton.1 hx⟩

theorem process (h : InFlight symOf done r) (hv : ValidFeed symOf done) (i : Fin n.1) :
    InFlight symOf done (r.step (.process i)) := by
  have hh := h.history.process i
  rcases r.step_process i with ⟨-, hr⟩ | ⟨qm, result, p', hp, hr⟩
  · rw [hr]; exact h
  have hpipe : (r.step (.process i)).pipeline = p' := by rw [hr]
  obtain ⟨-, hs, hi⟩ := h.history.placed.queued i qm hp.head_mem
  have hsettles := hp.settles hi
  -- its book accepts the oldest queued message
  have hacc : (r.pipeline.book qm.symbol).Accepts qm.message := by
    have := h.lags.accepts hv qm.symbol
    rw [hsettles.pending, if_pos rfl] at this
    exact this.cons.1
  rw [hs] at hsettles
  have hlags := h.lags.settles hv hsettles
  refine ⟨hh, ?_, ?_, ?_, ?_⟩
  · intro j
    rw [← h.order, hr]
    by_cases hj : j = i
    · subst hj
      simp [Run.processed, hp.items]
    · simp [Run.processed, hj, hp.queue j hj]
  · rw [hpipe]
    exact hlags.marked
  · rw [hr]; exact h.demuxed
  · intro j e he
    rw [hr] at he
    by_cases hj : j = i
    · subst hj
      simp only [Function.update_self] at he
      rcases List.mem_append.1 he with he | he
      · exact h.applied j e he
      · obtain ⟨ds, -, hds, -⟩ := OrderBook.apply_of_accepts hacc
        rw [ShardedPipeline.book, hi] at hds
        exact ⟨ds, by rw [List.mem_singleton.1 he, hp.accepted, hds]⟩
    · simp only [Function.update_of_ne hj] at he
      exact h.applied j e he

theorem publish (h : InFlight symOf done r) (i : Fin n.1) : InFlight symOf done (r.step (.publish i)) := by
  have hst := fun j => (r.step_publish i j).1
  have hq := fun j => (r.step_publish i j).2
  refine ⟨h.history.publish i, ?_, ?_, h.demuxed, h.applied⟩
  · intro j
    rw [hq j]
    exact h.order j
  · intro id
    rw [ShardedPipeline.pendingFor, ShardedPipeline.book, hq, hst]
    exact h.routes id

theorem exec (h : InFlight symOf done r) {ops : List (Op n)} {todo : List DecodedMessage}
    (hp : packetsOf ops = todo.map (·.packet)) (hv : ValidFeed symOf (done ++ todo)) (hr : NoResync ops)
    (hd : ∀ i, ((r.exec ops).pipeline.shards i).queue.dropped = (r.pipeline.shards i).queue.dropped) :
    InFlight symOf (done ++ todo) (r.exec ops) := by
  induction ops generalizing done todo r with
  | nil =>
    obtain rfl : todo = [] := List.map_eq_nil_iff.1 hp.symm
    rw [List.append_nil]
    exact h
  | cons op ops ih =>
    have hr' : NoResync ops := fun i k hm => hr i k (List.mem_cons_of_mem _ hm)
    obtain ⟨hstep, hrest⟩ := Run.dropped_exec_cons hd
    cases op with
    | demux raw =>
      cases todo with
      | nil => cases hp
      | cons m todo =>
        obtain ⟨rfl, hp'⟩ := List.cons.inj hp
        have := ih (h.demux hv hstep) hp' (by simpa using hv) hr' hrest
        rw [List.append_assoc] at this
        exact this
    | process i => exact ih (h.process hv.left i) hp hv hr' hrest
    | publish i => exact ih (h.publish i) hp hv hr' hrest
    | resync i k => exact absurd List.mem_cons_self (hr i k)

theorem onTrack (h : InFlight symOf done r) (hs : Stamped n symOf done) (i : Fin n.1) :
    (r.pipeline.shards i).gapDetector.OnTrack (r.processed i).length := by
  have hpre : (r.processed i).map (·.message) <+: shardStream n symOf done i := by
    have hmsg : (shardStream n symOf done i) = ((shardStream n symOf done i).map (queuedAs symOf)).map (·.message) := by
      rw [List.map_map]
      exact (List.map_id _).symm
    rw [hmsg, ← h.order, List.map_append]
    exact List.prefix_append _ _
  have hlen : (r.processed i).length = (r.observed i).length := by simp [Run.observed, Run.processed]
  rw [h.history.gap, hlen, ← Nat.zero_add (r.observed i).length]
  refine GapDetector.OnTrack.init.observeAll ?_
  intro j k hk
  rw [Run.observed_eq, List.getElem?_map] at hk
  obtain ⟨qm, hqm, rfl⟩ := Option.map_eq_some_iff.1 hk
  rw [Nat.zero_add]
  refine hs i j qm.message ?_
  obtain ⟨rest, hrest⟩ := hpre
  rw [← hrest, List.getElem?_append_left, List.getElem?_map, hqm]
  · rfl
  · rw [List.length_map]
    exact (List.getElem?_eq_some_iff.1 hqm).1

/-- Drained, the live books are the reference and the table holds the resting orders. -/
theorem drained (h : InFlight symOf done r) (hq : ∀ i, (r.pipeline.shards i).queue.items = []) :
    (∀ sym, r.pipeline.book sym = refBook symOf done sym) ∧ ∀ id dest, r.pipeline.orderRoute[id]? = some dest ↔
      dest.shardIndex = shardForSymbol n dest.symbol ∧ (r.pipeline.book dest.symbol).hasOrder id = true := by
  have hpend : ∀ sym, r.pipeline.pendingFor sym = [] := by
    intro sym
    rw [ShardedPipeline.pendingFor, hq]
    rfl
  refine ⟨?_, ?_⟩
  · intro sym
    rw [h.lags.refBook_eq]
    show _ = (r.pipeline.book sym).applyAll (r.pipeline.pendingFor sym)
    rw [hpend]
    rfl
  · intro id dest
    have hroute := h.routes id
    rw [hpend, List.foldl_nil] at hroute
    constructor
    · intro hid
      obtain rfl := h.history.placed.routes id dest hid
      exact ⟨rfl, hroute.symm.trans ((contains_iff _ _).2 ⟨_, hid⟩)⟩
    · rintro ⟨hd, hid⟩
      have hs := (h.history.placed.booked _ _ _ hid).1
      rw [hs, ← hroute, contains_iff] at hid
      obtain ⟨dest', hid'⟩ := hid
      rw [hid', h.history.placed.routes id dest' hid']
      obtain ⟨i, sym⟩ := dest
      dsimp only at hs hd
      subst hs
      rw [hd]
      rfl

end InFlight

/-- For every shard count and every interleaving without loss, nothing is refused, no gap is seen, and
a drained pipeline holds the reference books and exactly the routes of their resting orders. -/
theorem pipeline_eq_reference (n : NumShards) (symOf : OrderId → Symbol) (ms : List DecodedMessage)
    (hv : ValidFeed symOf ms) (hs : Stamped n symOf ms) (ops : List (Op n))
    (hp : packetsOf ops = ms.map (·.packet)) (hr : NoResync ops)
    (hd : ∀ i, ((({} : Run n).exec ops).pipeline.shards i).queue.dropped = 0) :
    let r := ({} : Run n).exec ops
    (∀ x ∈ r.demuxed, ∃ i, x = .ok i) ∧ (∀ i, ∀ e ∈ r.applied i, ∃ ds, e.2 = .ok ds) ∧
      (∀ i, (r.pipeline.shards i).gapDetector.state = .live ∧
        (r.pipeline.shards i).gapDetector.sequenceGapsTotal = 0) ∧
      ((∀ i, (r.pipeline.shards i).queue.items = []) →
        (∀ sym, r.pipeline.book sym = refBook symOf ms sym) ∧ ∀ id dest, r.pipeline.orderRoute[id]? = some dest ↔
          dest.shardIndex = shardForSymbol n dest.symbol ∧ (r.pipeline.book dest.symbol).hasOrder id = true) := by
  have h : InFlight symOf ([] ++ ms) (({} : Run n).exec ops) := InFlight.init.exec hp hv hr hd
  rw [List.nil_append] at h
  exact ⟨h.demuxed, h.applied, fun i => ⟨(h.onTrack hs i).live, (h.onTrack hs i).gaps⟩, h.drained⟩

def sampleOps : List (Op oneShard) :=
  [.demux sampleAdd.packet, .demux sampleFill.packet, .process ⟨0, by decide⟩, .process ⟨0, by decide⟩]

theorem Stamped.of_oneShard {ms : List DecodedMessage}
    (h : ∀ j m, ms[j]? = some m → m.seqNum.toNat = j + 1) : Stamped oneShard symOf ms := by
  intro i j m hm
  have hi : shardStream oneShard symOf ms i = ms := by
    refine List.filter_eq_self.2 fun m _ => decide_eq_true ?_
    obtain ⟨i, hi⟩ := i
    have : oneShard.val = 1 := rfl
    exact Fin.ext (by omega)
  rw [hi] at hm
  exact h j m hm

theorem sampleFeed_valid : ValidFeed (fun _ => sampleSymbol) [sampleAdd, sampleFill] := by
  have h₁ : ValidFeed (fun _ => sampleSymbol) [sampleAdd] := ValidFeed.nil.snoc rfl (by simp) trivial
  refine h₁.snoc trivial ?_ ⟨⟨7, .buy, 100, 10⟩, ?_, ?_⟩
  · intro id hid
    cases hid
  · decide +kernel
  · decide

theorem sampleFeed_stamped : Stamped oneShard (fun _ => sampleSymbol) [sampleAdd, sampleFill] := by
  refine Stamped.of_oneShard fun j m hm => ?_
  rcases j with _ | _ | j
  · cases hm; rfl
  · cases hm; rfl
  · cases hm

def sampleAdd₃ : DecodedMessage := .add ⟨3, 8, sampleSymbol, .sell, 105, 5, 3⟩

theorem sampleAdd₃_stamped : Stamped oneShard (fun _ => sampleSymbol) [sampleAdd, sampleFill, sampleAdd₃] := by
  refine Stamped.of_oneShard fun j m hm => ?_
  rcases j with _ | _ | _ | j
  · cases hm; rfl
  · cases hm; rfl
  · cases hm; rfl
  · cases hm

theorem pipeline_eq_reference_fill :
    (({} : Run oneShard).exec sampleOps).pipeline.book sampleSymbol =
      refBook (fun _ => sampleSymbol) [sampleAdd, sampleFill] sampleSymbol := by
  obtain ⟨-, -, -, h⟩ := pipeline_eq_reference oneShard _ [sampleAdd, sampleFill] sampleFeed_valid
    sampleFeed_stamped sampleOps (by rfl) (by simp [NoResync, sampleOps]) (by decide +kernel)
  exact (h (by decide +kernel)).1 sampleSymbol

end Mdfh
