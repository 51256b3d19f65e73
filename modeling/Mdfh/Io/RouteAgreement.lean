import Mdfh.Io.Lossless

/-!
# Routing table and books

Messages processed one by one: `process_pending` after every `demux`. `demux` commits its change of the
routing table before the book has seen the message, so a rejected message is a chance for the two to
part. Only one kind takes it: a Replace of a resting order to another resting order's id. The table
then drops the old id, which the book keeps.
-/

namespace Mdfh
open TreeMapLib

variable {n : NumShards} {symOf : OrderId → Symbol}

namespace ShardedPipeline

/-- An id has the entry `dest` exactly when it rests in the book `dest` names. -/
def RoutesAgree (p : ShardedPipeline n) : Prop :=
  ∀ id dest, p.orderRoute[id]? = some dest ↔ ((p.shards dest.shardIndex).book dest.symbol).hasOrder id = true

/-- A Replace of a resting order to the id of another order resting beside it. -/
def ReplaceClash (p : ShardedPipeline n) : DecodedMessage → Prop
  | .replace m => m.newOrderId ≠ m.oldOrderId ∧
      ∃ sym, (p.book sym).hasOrder m.oldOrderId = true ∧ (p.book sym).hasOrder m.newOrderId = true
  | _ => False

/-- `demux(m)`, then `process_pending()`. -/
def handle (p : ShardedPipeline n) (m : DecodedMessage) : ShardedPipeline n := (p.demux m.packet).2.processPending

def handleAll (p : ShardedPipeline n) (ms : List DecodedMessage) : ShardedPipeline n := ms.foldl handle p

end ShardedPipeline

open ShardedPipeline

variable {p : ShardedPipeline n}

theorem Placed.routesAgree_iff (h : Placed symOf p) :
    p.RoutesAgree ↔ ∀ id, p.orderRoute.contains id = (p.book (symOf id)).hasOrder id := by
  constructor
  · intro ha id
    rw [Bool.eq_iff_iff, contains_iff]
    constructor
    · rintro ⟨dest, hid⟩
      have := (ha id dest).1 hid
      rwa [h.routes id dest hid] at this
    · intro hid
      exact ⟨home n symOf id, (ha id _).2 hid⟩
  · intro ha id dest
    constructor
    · intro hid
      rw [h.routes id dest hid]
      exact (ha id).symm.trans ((contains_iff _ _).2 ⟨dest, hid⟩)
    · intro hid
      obtain ⟨hs, hi⟩ := h.booked _ _ _ hid
      have hc : p.orderRoute.contains id = true := by
        rw [ha id, ← hs, ShardedPipeline.book, hi]
        exact hid
      obtain ⟨dest', hd⟩ := (contains_iff _ _).1 hc
      rw [hd, h.routes id dest' hd, home, ← hs, hi]

/-- A handled message: unroutable and without effect, or applied to its home book. -/
theorem Placed.handle_cases (h : Placed symOf p) (hq : p.Drained) {m : DecodedMessage} (hm : Owned symOf m) :
    (routable p.orderRoute m = false ∧ p.handle m = p) ∨
      routable p.orderRoute m = true ∧ Placed symOf (p.handle m) ∧ (p.handle m).Drained ∧
        (∀ sym, (p.handle m).book sym =
          if sym = symOf m.orderId then ((p.book (symOf m.orderId)).apply m).2 else p.book sym) ∧
        (p.handle m).orderRoute = eraseFilled ((p.book (symOf m.orderId)).apply m).2 m
          (routeAfter p.orderRoute (home n symOf m.orderId) m) := by
  have ho : ∀ m', decode m.packet = .ok m' → Owned symOf m' := by
    intro m' hm'
    rw [m.decode_packet] at hm'
    cases hm'
    exact hm
  rcases demux_cases h.routes ho with ⟨e, he, hno⟩ | ⟨m', hm', hr, he⟩
  · refine .inl ⟨hno m m.decode_packet, ?_⟩
    rw [handle, he]
    exact hq.processPending
  rw [m.decode_packet] at hm'
  cases hm'
  set i := shardForSymbol n (symOf m.orderId) with hi
  set p₁ := { p with orderRoute := routeAfter p.orderRoute (home n symOf m.orderId) m }.enqueue i
    ⟨symOf m.orderId, m⟩ with hp₁
  have hone : (p₁.shards i).queue.items = [⟨symOf m.orderId, m⟩] := by
    have := hq i
    rw [hp₁, queue_enqueue, if_pos rfl, (DropOldest.push_of_lt (by rw [this]; decide)).1, this]
    rfl
  have hothers : ∀ j, j ≠ i → (p₁.shards j).queue.items = [] := by
    intro j hj
    rw [hp₁, queue_enqueue, if_neg hj]
    exact hq j
  have hhandle : p.handle m = p₁.processPending := by rw [handle, he]
  obtain ⟨⟨result, hproc⟩, hdrained⟩ := processPending_single hone hothers
  have hbook₁ : ∀ j sym, (p₁.shards j).book sym = (p.shards j).book sym := by
    intro j sym
    rw [hp₁, toShardState_enqueue]
  have hbook : (p₁.processPending.shards i).book (symOf m.orderId) = ((p.book (symOf m.orderId)).apply m).2 := by
    rw [hproc.state, if_pos rfl, ShardState.book_applyMessage, if_pos rfl, hbook₁]
    rfl
  rw [hhandle]
  refine .inr ⟨hr, (h.enqueue hm).processed hproc, hdrained, ?_, ?_⟩
  · intro sym
    by_cases hs : sym = symOf m.orderId
    · rw [if_pos hs, hs]
      exact hbook
    · rw [if_neg hs, ShardedPipeline.book, hproc.state]
      split
      · next hj => rw [ShardState.book_applyMessage, if_neg hs, hbook₁, ← hj]; rfl
      · exact hbook₁ _ sym
  · rw [hproc.orderRoute, hbook]
    rfl

namespace OrderBook
variable {b : OrderBook}

/-- The clash, as the book sees it. -/
def Clash (b : OrderBook) : DecodedMessage → Prop
  | .replace m => m.newOrderId ≠ m.oldOrderId ∧ b.hasOrder m.newOrderId = true
  | _ => False

/-- The table follows the book over a routed message, accepted or rejected, unless it clashes. -/
theorem contains_of_not_clash {m : DecodedMessage} (hc : ¬ b.Clash m)
    (hrest : (∀ x, m ≠ .add x) → b.hasOrder m.orderId = true) {r : RouteTable n} {id : OrderId}
    (hr : r.contains id = routeMark id (b.hasOrder id) m) :
    (eraseFilled (b.apply m).2 m r).contains id = (b.apply m).2.hasOrder id := by
  by_cases hacc : b.Accepts m
  · have hr' : r.contains id = [m].foldl (routeMark id) (b.hasOrder id) := hr
    exact contains_eraseFilled hacc (by simp) hr'
  obtain ⟨-, -, hb⟩ := apply_of_not_accepts hacc
  cases m with
  | add x =>
    have hdup : b.hasOrder x.orderId = true := Bool.not_eq_false _ ▸ hacc
    rw [hb, contains_eraseFilled_of_ne (by simp), hr, routeMark]
    by_cases hid : id = x.orderId
    · rw [hid, hdup]; rfl
    · rw [beq_eq_false_iff_ne.2 hid, Bool.or_false]
  | cancel x => exact absurd (hrest (by simp)) hacc
  | execute x =>
    have hold : b.hasOrder x.orderId = true := hrest (by simp)
    simp only [hb, eraseFilled, hold, Bool.not_true, Bool.false_eq_true, if_false]
    exact hr
  | replace x =>
    have hold : b.hasOrder x.oldOrderId = true := hrest (by simp)
    have hnew : b.hasOrder x.newOrderId = true := by
      rw [← Bool.not_eq_false]
      exact fun hn => hacc ⟨hold, hn⟩
    -- both rest and there is no clash: the ids are the same
    have hsame : x.newOrderId = x.oldOrderId := by
      by_contra hne
      exact hc ⟨hne, hnew⟩
    rw [hb, contains_eraseFilled_of_ne (by simp), hr, routeMark, hsame]
    by_cases hid : id = x.oldOrderId
    · rw [hid, hold]; simp
    · rw [bne_iff_ne.2 hid, beq_eq_false_iff_ne.2 hid, Bool.and_true, Bool.or_false]

/-- A clash leaves the old order resting and takes its route away. -/
theorem contains_of_clash {x : ReplaceOrder} (hc : b.Clash (.replace x)) {r : RouteTable n}
    (hr : r.contains x.oldOrderId = routeMark x.oldOrderId (b.hasOrder x.oldOrderId) (.replace x)) :
    (eraseFilled (b.apply (.replace x)).2 (.replace x) r).contains x.oldOrderId = false ∧
      (b.apply (.replace x)).2.hasOrder x.oldOrderId = b.hasOrder x.oldOrderId := by
  have hacc : ¬ b.Accepts (.replace x) := fun ha => by
    have := ha.2
    rw [hc.2] at this
    cases this
  obtain ⟨-, -, hb⟩ := apply_of_not_accepts hacc
  refine ⟨?_, by rw [hb]⟩
  rw [contains_eraseFilled_of_ne (by simp), hr, routeMark, bne_self_eq_false, Bool.and_false, Bool.false_or]
  exact beq_eq_false_iff_ne.2 (Ne.symm hc.1)

end OrderBook

/-- One message: the table still agrees exactly when the message does not clash. -/
theorem Placed.handle_agree_iff (h : Placed symOf p) (hq : p.Drained) (ha : p.RoutesAgree) {m : DecodedMessage}
    (hm : Owned symOf m) :
    Placed symOf (p.handle m) ∧ (p.handle m).Drained ∧ ((p.handle m).RoutesAgree ↔ ¬ p.ReplaceClash m) := by
  have hag := h.routesAgree_iff.1 ha
  -- a clash is a clash in the message's home book, with the old order resting there
  have hclash : p.ReplaceClash m ↔ (p.book (symOf m.orderId)).Clash m ∧ (p.book (symOf m.orderId)).hasOrder m.orderId := by
    cases m with
    | replace x =>
      constructor
      · rintro ⟨hne, sym, hold, hnew⟩
        obtain rfl := (h.booked _ _ _ hold).1
        exact ⟨⟨hne, hnew⟩, hold⟩
      · rintro ⟨⟨hne, hnew⟩, hold⟩
        exact ⟨hne, _, hold, hnew⟩
    | add x => simp [ReplaceClash, OrderBook.Clash]
    | cancel x => simp [ReplaceClash, OrderBook.Clash]
    | execute x => simp [ReplaceClash, OrderBook.Clash]
  rcases h.handle_cases hq hm with ⟨hr, hp⟩ | ⟨hr, hplaced, hdrained, hbook, hroute⟩
  · rw [hp]
    refine ⟨h, hq, fun _ hc => ?_, fun _ => ha⟩
    have hold := (hclash.1 hc).2
    cases m with
    | add x => exact hc
    | cancel x => exact hc
    | execute x => exact hc
    | replace x =>
      rw [← hag] at hold
      exact Bool.false_ne_true (hr.symm.trans hold)
  refine ⟨hplaced, hdrained, ?_⟩
  have hrest : (∀ x, m ≠ .add x) → (p.book (symOf m.orderId)).hasOrder m.orderId = true := by
    intro hna
    rw [← hag]
    cases m with
    | add x => exact absurd rfl (hna x)
    | cancel x => exact hr
    | execute x => exact hr
    | replace x => exact hr
  have hmark : ∀ id, (routeAfter p.orderRoute (home n symOf m.orderId) m).contains id =
      routeMark id ((p.book (symOf id)).hasOrder id) m := by
    intro id
    rw [contains_routeAfter, hag]
  rw [hplaced.routesAgree_iff, hroute, hclash]
  constructor
  · rintro hall ⟨hc, hold⟩
    cases m with
    | replace x =>
      obtain ⟨h₁, h₂⟩ := OrderBook.contains_of_clash hc (hmark x.oldOrderId)
      have := hall x.oldOrderId
      rw [hbook, if_pos (show symOf x.oldOrderId = symOf (DecodedMessage.replace x).orderId from rfl)] at this
      exact Bool.false_ne_true (h₁.symm.trans (this.trans (h₂.trans hold)))
    | add x => exact hc
    | cancel x => exact hc
    | execute x => exact hc
  · intro hnc id
    have hnc' : ¬ (p.book (symOf m.orderId)).Clash m := by
      intro hc
      cases m with
      | replace x => exact hnc ⟨hc, hrest (by simp)⟩
      | add x => exact hc
      | cancel x => exact hc
      | execute x => exact hc
    rw [hbook]
    by_cases hs : symOf id = symOf m.orderId
    · rw [if_pos hs]
      refine OrderBook.contains_of_not_clash hnc' hrest ?_
      rw [hmark, hs]
    · rw [if_neg hs]
      have hkeep := hmark id
      rw [routeMark_of_ne hm hs] at hkeep
      rw [← hkeep]
      refine contains_eraseFilled_of_ne fun x hmx hid => hs ?_
      rw [hmx, hid]
      rfl

theorem ShardedPipeline.RoutesAgree.init : ({} : ShardedPipeline n).RoutesAgree := by
  intro id dest
  simp [ShardState.book]

theorem Placed.handleAll_agree_iff (h : Placed symOf p) (hq : p.Drained) (ha : p.RoutesAgree)
    {ms : List DecodedMessage} (hm : ∀ m ∈ ms, Owned symOf m) :
    (∀ pre, pre <+: ms → (p.handleAll pre).RoutesAgree) ↔
      ∀ pre m post, ms = pre ++ m :: post → ¬ (p.handleAll pre).ReplaceClash m := by
  induction ms generalizing p with
  | nil =>
    constructor
    · intro _ pre m post he
      simp at he
    · intro _ pre hpre
      rw [List.prefix_nil.1 hpre]
      exact ha
  | cons m ms ih =>
    obtain ⟨h', hq', hiff⟩ := h.handle_agree_iff hq ha (hm m List.mem_cons_self)
    have hm' : ∀ m' ∈ ms, Owned symOf m' := fun m' hm'' => hm m' (List.mem_cons_of_mem _ hm'')
    constructor
    · intro hall
      have ha' : (p.handle m).RoutesAgree := hall [m] (List.prefix_cons_inj m |>.2 List.nil_prefix)
      have hrest := (ih h' hq' ha' hm').1 fun pre hpre => hall (m :: pre) ((List.prefix_cons_inj m).2 hpre)
      intro pre m' post he
      cases pre with
      | nil =>
        obtain ⟨rfl, -⟩ := List.cons.inj he
        exact hiff.1 ha'
      | cons x pre =>
        obtain ⟨rfl, he'⟩ := List.cons.inj he
        exact hrest pre m' post he'
    · intro hall pre hpre
      have ha' : (p.handle m).RoutesAgree := hiff.2 (hall [] m ms rfl)
      cases pre with
      | nil => exact ha
      | cons x pre =>
        obtain ⟨rfl, hpre'⟩ := List.cons_prefix_cons.1 hpre
        exact (ih h' hq' ha' hm').2 (fun pre m' post he => hall (x :: pre) m' post (by rw [he]; rfl)) pre hpre'

/-- In every sequentially processed stream, table and books agree after every message exactly when no
message is a Replace of a resting order to another resting order's id. -/
theorem routes_agree_iff (n : NumShards) (symOf : OrderId → Symbol) (ms : List DecodedMessage) (hm : ∀ m ∈ ms, Owned symOf m) :
    (∀ pre, pre <+: ms → (({} : ShardedPipeline n).handleAll pre).RoutesAgree) ↔
      ∀ pre m post, ms = pre ++ m :: post → ¬ (({} : ShardedPipeline n).handleAll pre).ReplaceClash m :=
  Placed.init.handleAll_agree_iff (fun _ => rfl) .init hm

/-- The book rejects the second Add of id `7` and the Execute beyond its quantity. -/
theorem routes_agree_iff_rejected :
    (({} : ShardedPipeline oneShard).handleAll
      [sampleAdd, .add ⟨2, 7, sampleSymbol, .sell, 105, 5, 2⟩, .execute ⟨3, 7, 11, 3⟩]).RoutesAgree := by
  refine (routes_agree_iff oneShard (fun _ => sampleSymbol)
    [sampleAdd, .add ⟨2, 7, sampleSymbol, .sell, 105, 5, 2⟩, .execute ⟨3, 7, 11, 3⟩] ?_).2 ?_ _ (List.prefix_refl _)
  · intro m hm
    simp only [List.mem_cons, List.not_mem_nil, or_false] at hm
    rcases hm with rfl | rfl | rfl <;> trivial
  · intro pre m post he hc
    have hm : m ∈ [sampleAdd, .add ⟨2, 7, sampleSymbol, .sell, 105, 5, 2⟩, .execute ⟨3, 7, 11, 3⟩] := by
      rw [he]
      simp
    simp only [List.mem_cons, List.not_mem_nil, or_false] at hm
    rcases hm with rfl | rfl | rfl <;> exact hc

/-- Orders `7` and `8` rest; Replace `7 → 8` is rejected, and order `7` rests on without a route. -/
theorem replace_clash_loses_route :
    let ms : List DecodedMessage :=
      [sampleAdd, .add ⟨2, 8, sampleSymbol, .sell, 105, 5, 2⟩, .replace ⟨3, 7, 8, 101, 1, 3⟩]
    (∀ m ∈ ms, Owned (fun _ => sampleSymbol) m) ∧ ¬ (({} : ShardedPipeline oneShard).handleAll ms).RoutesAgree := by
  intro ms
  refine ⟨?_, ?_⟩
  · intro m hm
    simp only [ms, List.mem_cons, List.not_mem_nil, or_false] at hm
    rcases hm with rfl | rfl | rfl <;> rfl
  · intro ha
    have hrest : ((({} : ShardedPipeline oneShard).handleAll ms).shards ⟨0, by decide⟩ |>.book sampleSymbol).hasOrder 7 =
        true := by decide +kernel
    have hroute : (({} : ShardedPipeline oneShard).handleAll ms).orderRoute[(7 : OrderId)]? = none := by decide +kernel
    have := (ha 7 ⟨⟨0, by decide⟩, sampleSymbol⟩).2 hrest
    rw [hroute] at this
    cases this

end Mdfh
