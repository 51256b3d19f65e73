import Mdfh.Io.LiveOrders
import Mdfh.Io.ThreadedReference

/-!
# Live orders stay routable while the threads run

A decoder pops a message, applies it and only then takes the lock for the cleanup, and the network
thread may route any number of messages in between. What the table has not caught up with are the
messages whose cleanup is not over: seen through the books of the settled messages and the unsettled
ones behind them, a call of `demux` is a send and a cleanup settles the message applied last.
-/

namespace Mdfh
open LittleEndian (Bytes)

variable {n : NumShards}

/-- The messages among the packets. -/
def decoded (raws : List Bytes) : List DecodedMessage := raws.filterMap fun raw => (decode raw).toOption

namespace PipelineRunner
variable {s s' : PipelineRunner n} {l : Live}

/-- The network thread is about to `demux` a message that brings in the id of an order whose fill is not
fully processed: its Execute is in an input ring or popped with the cleanup still to come. -/
def ReusesEarly (s : PipelineRunner n) : Prop :=
  ∃ raw m id, s.net = .demux raw ∧ decode raw = .ok m ∧ m.introduced = some id ∧ s.routingView.FillPending id

/-- The call of `demux` that comes next returns `UnroutableOrderId`. -/
def Unroutable (s : PipelineRunner n) : Prop :=
  ∃ raw m, s.net = .demux raw ∧ decode raw = .ok m ∧ route s.orderRoute m = .error .unroutableOrderId

/-- Every message is in the lane of its symbol, and the threads lag behind the reference. -/
structure Serves (s : PipelineRunner n) (l : Live) : Prop where
  queued : ∀ i, ∀ qm ∈ (s.lanes i).demuxed, shardForSymbol n qm.symbol = i
  cleaning : ∀ i, (s.lanes i).applied = (s.lanes i).settled ++ (s.lanes i).uncleaned
  coherent : Coherent l s.routingView

namespace Serves

theorem start (feed : List (Option Bytes)) : (PipelineRunner.start n feed).Serves Live.empty :=
  ⟨fun _ _ hqm => absurd hqm List.not_mem_nil, fun _ => rfl, .init rfl (fun _ => rfl) fun _ => rfl⟩

theorem congr (h : s.Serves l) (hr : s'.orderRoute = s.orderRoute)
    (hd : ∀ i, (s'.lanes i).demuxed = (s.lanes i).demuxed)
    (hc : ∀ i, (s'.lanes i).applied = (s'.lanes i).settled ++ (s'.lanes i).uncleaned)
    (hs : ∀ i, (s'.lanes i).settled = (s.lanes i).settled) : s'.Serves l := by
  have hview : s'.routingView = s.routingView := by
    simp only [routingView, Lane.settledBook, Lane.unsettled, laneOf, hr, hs, hd]
  refine ⟨fun i => ?_, hc, hview ▸ h.coherent⟩
  rw [hd]
  exact h.queued i

theorem of_frame (h : s.Serves l) (hr : s'.orderRoute = s.orderRoute)
    (hl : ∀ i, (s'.lanes i).demuxed = (s.lanes i).demuxed ∧ (s'.lanes i).applied = (s.lanes i).applied ∧
      (s'.lanes i).decoder = (s.lanes i).decoder) : s'.Serves l := by
  obtain ⟨hc, hs⟩ := cleaning_of_frame h.cleaning hl
  exact h.congr hr (fun i => (hl i).1) hc hs

theorem routed (h : s.Serves l) (hu : s.Unskipped) {m : DecodedMessage} {sym : Symbol} (hr : l.Refers m)
    (hs : l.Home m sym) (hnew : ∀ id ∈ m.introduced, ¬ s.routingView.FillPending id) {lane : Lane}
    (hl : lane.demuxed = (s.laneOf sym).demuxed ++ [⟨sym, m⟩] ∧ lane.applied = (s.laneOf sym).applied ∧
      lane.decoder = (s.laneOf sym).decoder) (hs' : s'.lanes = (s.setLane (shardForSymbol n sym) lane).lanes)
    (hroute : s'.orderRoute = routeAfter s.orderRoute ⟨shardForSymbol n sym, sym⟩ m) : s'.Serves (l.apply m) := by
  obtain ⟨hsends, hc⟩ := sends_of_demuxed h.cleaning hu hl hs' hroute
  refine ⟨fun j qm hqm => ?_, hc, h.coherent.sends hsends hr hs hnew⟩
  rw [hs', lanes_setLane] at hqm
  split at hqm
  · next hj =>
    rw [hl.1, List.mem_append, List.mem_singleton] at hqm
    rcases hqm with hqm | rfl
    · rw [hj]; exact h.queued _ qm hqm
    · exact hj.symm
  · exact h.queued j qm hqm

theorem cleaned (h : s.Serves l) (hu : s.Unskipped) {i : Fin n.1} {lane : Lane} {qm : QueuedMessage}
    (hstate : (s.lanes i).state = ShardState.applyMessages {} (s.lanes i).applied)
    (ha : (s.lanes i).applied = (s.lanes i).settled ++ [qm]) (hset : lane.settled = (s.lanes i).settled ++ [qm])
    (hdem : lane.demuxed = (s.lanes i).demuxed) (hc : lane.applied = lane.settled ++ lane.uncleaned)
    (hs' : s'.lanes = (s.setLane i lane).lanes)
    (hr : s'.orderRoute = eraseFilled ((s.lanes i).state.book qm.symbol) qm.message s.orderRoute) : s'.Serves l := by
  have hi : shardForSymbol n qm.symbol = i := h.queued i qm ((hu i).subset (by rw [ha]; simp))
  have hsettles := settles_of_cleaned hu hi hstate ha hset hdem hs' hr
  refine ⟨fun j => ?_, cleaning_setLane h.cleaning hs' hc, h.coherent.settles hsettles⟩
  rw [hs', lanes_setLane]
  split
  · next hj => rw [hdem, hj]; exact h.queued i
  · exact h.queued j

/-! ### Steps -/

theorem demux (h : s.Serves l) (hu : s.Unskipped) {raw : Bytes} {m : DecodedMessage} (hpc : s.net = .demux raw)
    (hd : decode raw = .ok m) (hr : l.Refers m) (hnew : ¬ s.ReusesEarly) (hs : s.netStep = some s') :
    s'.Serves (l.apply m) ∧ s'.feed = s.feed ∧ s'.net.inHand = [] := by
  obtain ⟨sym, hsym⟩ := hr.exists_home
  have hroute : route s.orderRoute m =
      .ok (⟨shardForSymbol n sym, sym⟩, routeAfter s.orderRoute ⟨shardForSymbol n sym, sym⟩ m) :=
    h.coherent.route_eq hsym
  rw [netStep, hpc] at hs
  simp only [hd, hroute] at hs
  obtain ⟨q, hq, rfl⟩ := Option.map_eq_some_iff.1 hs
  refine ⟨h.routed hu hr hsym (fun id hid hf => hnew ⟨raw, m, id, hpc, hd, hid, hf⟩) ?_ rfl rfl, rfl, rfl⟩
  exact ⟨rfl, rfl, rfl⟩

theorem net (h : s.Serves l) (hu : s.Unskipped) (hv : l.ValidStream (decoded s.unread)) (hnew : ¬ s.ReusesEarly)
    (hs : s.netStep = some s') : ∃ l', s'.Serves l' ∧ l'.ValidStream (decoded s'.unread) := by
  by_cases hpc : ∃ raw, s.net = .demux raw
  · obtain ⟨raw, hpc⟩ := hpc
    have hunread : s.unread = raw :: s.feed.reduceOption := by rw [unread, hpc]; rfl
    cases hd : decode raw with
    | error e =>
      rw [netStep, hpc] at hs
      simp only [hd, Option.some.injEq] at hs
      subst hs
      rw [hunread, decoded, List.filterMap_cons_none (by rw [hd]; rfl)] at hv
      exact ⟨l, h.of_frame rfl fun i => ⟨rfl, rfl, rfl⟩, hv⟩
    | ok m =>
      rw [hunread, decoded, List.filterMap_cons_some (by rw [hd]; rfl)] at hv
      have hv' : l.ValidStream ([m] ++ decoded s.feed.reduceOption) := hv
      obtain ⟨h', hfeed, hhand⟩ := h.demux hu hpc hd (hv [] m _ rfl).refers hnew hs
      refine ⟨l.apply m, h', ?_⟩
      rw [unread, hhand, hfeed]
      exact hv'.right
  · obtain ⟨hr, hunread, hl⟩ := net_frame hs fun raw e => hpc ⟨raw, e⟩
    exact ⟨l, h.of_frame hr hl, hunread ▸ hv⟩

theorem decoder (h : s.Serves l) (hu : s.Unskipped) {i : Fin n.1}
    (hstate : (s.lanes i).state = ShardState.applyMessages {} (s.lanes i).applied) {lane : Lane} {r : RouteTable n}
    (hs : (s.lanes i).decoderStep s.producerDone s.orderRoute = some (lane, r)) :
    Serves { s.setLane i lane with orderRoute := r } l := by
  obtain ⟨⟨hdem, hc⟩, ⟨hset, rfl⟩ | ⟨qm, ha, hset, rfl⟩⟩ := Lane.decoderStep_settled hs (h.cleaning i)
  · have hkept := kept_setLane hdem hset
    exact h.congr rfl (fun j => (hkept j).1) (cleaning_setLane h.cleaning rfl hc) fun j => (hkept j).2
  · exact h.cleaned hu hstate ha hset hdem hc rfl rfl

end Serves

/-- The invariant of a run over a stream that is valid for the reference. -/
structure OnStream (s : PipelineRunner n) : Prop where
  turns : s.Turns
  lanes : ∀ i, (s.lanes i).Inv s.producerDone
  serves : ∃ l, s.Serves l ∧ l.ValidStream (decoded s.unread)

namespace OnStream

theorem start {feed : List (Option Bytes)} (hv : Live.empty.ValidStream (decoded feed.reduceOption)) :
    (PipelineRunner.start n feed).OnStream :=
  ⟨.start feed, fun _ => .start, Live.empty, .start feed, hv⟩

theorem step (h : s.OnStream) (hl : s'.Lossless) {a : Actor n} (hnew : a = .net → ¬ s.ReusesEarly)
    (hs : s.step a = some s') : s'.OnStream := by
  have hu := (hl.before hs).unskipped h.lanes
  refine ⟨h.turns.step hs, fun i => laneInv_step (h.lanes i) h.turns (hl i).1 hs, ?_⟩
  obtain ⟨l, hserves, hv⟩ := h.serves
  cases a with
  | stop => cases hs; exact ⟨l, hserves.of_frame rfl fun i => ⟨rfl, rfl, rfl⟩, hv⟩
  | net => exact hserves.net hu hv (hnew rfl) hs
  | decoder i =>
    obtain ⟨⟨lane, r⟩, hd, rfl⟩ := Option.map_eq_some_iff.1 hs
    exact ⟨l, hserves.decoder hu (h.lanes i).state hd, hv⟩
  | publisher i =>
    obtain ⟨hr, hunread, hlanes⟩ := publisher_frame hs
    exact ⟨l, hserves.of_frame hr hlanes, hunread ▸ hv⟩

theorem routable (h : s.OnStream) : ¬ s.Unroutable := by
  rintro ⟨raw, m, hpc, hd, hroute⟩
  obtain ⟨l, hserves, hv⟩ := h.serves
  have hm : decoded s.unread = m :: decoded s.feed.reduceOption := by
    rw [unread, hpc]
    exact List.filterMap_cons_some (by rw [hd]; rfl)
  rw [hm] at hv
  obtain ⟨sym, hsym⟩ := (hv [] m _ rfl).refers.exists_home
  have : route s.orderRoute m = .ok _ := hserves.coherent.route_eq hsym
  rw [hroute] at this
  cases this

end OnStream

/-- For every feed whose messages are valid for the reference, every number of shards and any interleaving
of the threads in which no input queue evicts and no Add or Replace reaches `demux` with an id while the
Execute that fills its earlier order is not fully processed: no call of `demux` finds its order unroutable. -/
theorem live_orders_routable (n : NumShards) (feed : List (Option Bytes))
    (hv : Live.empty.ValidStream (decoded feed.reduceOption)) (acts : List (Actor n)) (s : PipelineRunner n)
    (hrun : Runs.exec step (PipelineRunner.start n feed) acts = some s) (hl : s.Lossless)
    (hnew : Runs.EachStep step (fun s a => a = .net → ¬ s.ReusesEarly) (PipelineRunner.start n feed) acts) :
    ¬ s.Unroutable := by
  have hlossless := Runs.eachStep_of_backward (Q := Lossless) (fun _ _ _ hs hl => hl.before hs) hrun hl
  refine (Runs.invariant_under (P := OnStream) (fun s a s' h hC hs => ?_) (.start hv) hrun (hnew.and hlossless)).routable
  exact h.step (hC.2 s' hs) hC.1 hs

theorem not_reusesEarly (h : ∀ raw ∈ s.net.inHand, ∀ m ∈ (decode raw).toOption,
    m.introduced = none ∨ ∀ i, (s.lanes i).unsettled = []) : ¬ s.ReusesEarly := by
  rintro ⟨raw, m, id, hpc, hd, hid, hf⟩
  rcases h raw (by rw [hpc]; exact List.mem_cons_self) m (by rw [hd]; rfl) with hnone | hsettled
  · rw [hid] at hnone
    cases hnone
  · refine RoutingView.not_fillPending (fun sym => ?_) hf
    show messagesFor sym (s.laneOf sym).unsettled = []
    rw [laneOf, hsettled]
    rfl

def sampleReAdd : DecodedMessage := .add ⟨3, 7, sampleSymbol, .sell, 101, 5, 3⟩
def sampleCancel : DecodedMessage := .cancel ⟨4, 7, 4⟩

/-- Id `7` is added, filled, added again and cancelled. -/
def reuseFeed : List (Option Bytes) :=
  [sampleAdd, sampleFill, sampleReAdd, sampleCancel].map fun m => some m.packet

theorem reuseFeed_valid : Live.empty.ValidStream (decoded reuseFeed.reduceOption) := by
  have hfeed : decoded reuseFeed.reduceOption = [sampleAdd, sampleFill, sampleReAdd, sampleCancel] := by decide +kernel
  rw [hfeed]
  exact .cons (by decide) (.cons (by decide) (.cons (by decide) (.cons (by decide) .nil)))

/-- The fill is fully processed when id `7` comes back. -/
def lateReuse : List (Actor oneShard) := List.replicate 24 .net ++ List.replicate 28 (.decoder 0) ++ List.replicate 11 .net

theorem live_orders_routable_reuse :
    ∃ s, Runs.exec step (PipelineRunner.start oneShard reuseFeed) lateReuse = some s ∧
      s.net = .demux sampleCancel.packet ∧ ¬ s.Unroutable := by
  have h : ((Runs.exec step (PipelineRunner.start oneShard reuseFeed) lateReuse).map fun s =>
      decide (s.net = .demux sampleCancel.packet ∧ ∀ i, ((s.lanes i).queue.pushed.length < 2 ^ 64 ∧
        (s.lanes i).outputQueue.pushed.length < 2 ^ 64) ∧ (s.lanes i).queue.evicted = [])) = some true := by
    decide +kernel
  obtain ⟨s, hs, hd⟩ := Option.map_eq_some_iff.1 h
  obtain ⟨hnet, hl⟩ := of_decide_eq_true hd
  have hquiet : Runs.EachStep step (fun s a => a = .net → ∀ raw ∈ s.net.inHand, ∀ m ∈ (decode raw).toOption,
      m.introduced = none ∨ ∀ i, (s.lanes i).unsettled = []) (PipelineRunner.start oneShard reuseFeed) lateReuse := by
    decide +kernel
  refine ⟨s, hs, hnet, live_orders_routable oneShard reuseFeed reuseFeed_valid lateReuse s hs hl ?_⟩
  exact hquiet.mono fun _ _ h ha => not_reusesEarly (h ha)

/-- The fill is popped and applied when id `7` comes back, so no ring holds it; its cleanup then takes the
new order's route away. -/
def earlyReuse : List (Actor oneShard) :=
  List.replicate 24 .net ++ List.replicate 27 (.decoder 0) ++ [.net, .decoder 0] ++ List.replicate 10 .net

theorem early_reuse_unroutable :
    Live.empty.ValidStream (decoded reuseFeed.reduceOption) ∧
      ∃ s, Runs.exec step (PipelineRunner.start oneShard reuseFeed) earlyReuse = some s ∧ s.Lossless ∧ s.Unroutable := by
  refine ⟨reuseFeed_valid, ?_⟩
  have h : ((Runs.exec step (PipelineRunner.start oneShard reuseFeed) earlyReuse).map fun s =>
      decide ((∀ i, ((s.lanes i).queue.pushed.length < 2 ^ 64 ∧ (s.lanes i).outputQueue.pushed.length < 2 ^ 64) ∧
        (s.lanes i).queue.evicted = []) ∧ s.net = .demux sampleCancel.packet ∧
          s.orderRoute[(7 : OrderId)]? = none)) = some true := by
    decide +kernel
  obtain ⟨s, hs, hd⟩ := Option.map_eq_some_iff.1 h
  obtain ⟨hl, hnet, hroute⟩ := of_decide_eq_true hd
  refine ⟨s, hs, hl, _, sampleCancel, hnet, DecodedMessage.decode_packet _, ?_⟩
  have hdest : destination s.orderRoute sampleCancel = none := hroute
  rw [route_eq_destination, hdest]

end PipelineRunner

end Mdfh
