import Mdfh.Io.Indices
import Mdfh.Io.Lossless

/-!
# The threads compute the per-symbol reference

Between the pop of a message and the routing cleanup after it the decoder has applied a message whose
erase is still to come, so the table agrees neither with the live book nor with the book before that
message under the usual reading. It agrees with the books of the *settled* messages, those whose
cleanup is over: push every demuxed message that is not settled through `routeMark`. A decoder settles
one message at a time, in demux order as long as the queue evicts nothing, and ids are never reused, so
the late erase commutes with what the network thread has routed meanwhile.
-/

namespace Mdfh
open TreeMapLib
open LittleEndian (Bytes)

variable {n : NumShards} {symOf : OrderId → Symbol}

/-! ### A queue that evicts nothing -/

namespace Ring
variable {α : Type} [Inhabited α] {cap : Nat} [NeZero cap] {s s' : Ring α cap}

theorem evicted_pushStep (hs : s.pushStep = some s') : s.evicted <+: s'.evicted := by
  cases pushStep_cases hs with
  | evictWon => exact List.prefix_append _ _
  | _ => exact List.prefix_refl _

theorem evicted_popStep (hs : s.popStep = some s') : s'.evicted = s.evicted := by
  cases popStep_cases hs <;> rfl

theorem Inv.delivered_prefix (h : s.Inv) (he : s.evicted = []) : s.delivered.map Prod.snd <+: s.pushed := by
  have hclaim := h.claimed
  rw [he, List.filter_eq_self.2 (by simp)] at hclaim
  have hle : s.delivered.length ≤ s.mem.head.toNat := by
    have := h.total
    omega
  have hfst : s.delivered.map Prod.fst = List.range s.delivered.length := by
    have hpre : s.delivered.map Prod.fst <+: List.range s.mem.head.toNat := hclaim ▸ List.prefix_append _ _
    rw [List.prefix_iff_eq_take.1 hpre, List.length_map, List.take_range, Nat.min_eq_left hle]
  have hvalues : s.delivered.filterMap ((s.pushed[·]?) ∘ Prod.fst) = s.delivered.filterMap (some ∘ Prod.snd) :=
    List.filterMap_congr h.values
  have hsnd : s.delivered.map Prod.snd = (List.range s.delivered.length).filterMap (s.pushed[·]?) := by
    rw [← hfst, List.filterMap_map, hvalues, List.filterMap_eq_map]
  have hrange : List.range s.delivered.length <+: List.range s.pushed.length := by
    have := List.take_prefix s.delivered.length (List.range s.pushed.length)
    rwa [List.take_range, Nat.min_eq_left (hle.trans h.head_le)] at this
  have hpre := hrange.filterMap (s.pushed[·]?)
  rwa [filterMap_getElem?_range, ← hsnd] at hpre

end Ring

theorem LoopStep.evicted {α ω : Type} [Inhabited α] {cap : Nat} [NeZero cap] {body : α → ω} {done : Bool}
    {q q' : Ring α cap} {pc pc' : LoopPc ω} (h : LoopStep body done q pc q' pc') : q'.evicted = q.evicted := by
  cases h with
  | pop hs => exact Ring.evicted_popStep hs
  | waiting hs => exact Ring.evicted_popStep hs
  | _ => rfl

theorem LaneStep.evicted {up closing : Bool} {l l' : Lane} (h : LaneStep up closing l l') :
    l.queue.evicted <+: l'.queue.evicted := by
  cases h with
  | decoder hs =>
    cases hs with
    | loop hpc hs => exact hs.evicted ▸ List.prefix_refl _
    | _ => exact List.prefix_refl _
  | publisher hs => cases hs <;> exact List.prefix_refl _
  | demux => exact List.prefix_refl _
  | push hup hs => exact Ring.evicted_pushStep hs
  | notify hs => cases hs; exact List.prefix_refl _

/-! ### Settled messages -/

/-- The message applied last, while its routing cleanup is still to come. -/
def DecodeWork.uncleaned : DecodeWork → List QueuedMessage
  | .cleanup qm _ => [qm]
  | _ => []

namespace Lane

def uncleaned (l : Lane) : List QueuedMessage := l.decoder.inLoop.todo DecodeWork.uncleaned

/-- The applied messages whose routing cleanup is over. -/
def settled (l : Lane) : List QueuedMessage := l.applied.take (l.applied.length - l.uncleaned.length)

/-- The demuxed messages that are not settled. -/
def unsettled (l : Lane) : List QueuedMessage := l.demuxed.drop l.settled.length

theorem settled_eq {l : Lane} {qms : List QueuedMessage} (h : l.applied = qms ++ l.uncleaned) : l.settled = qms := by
  rw [settled, h, List.length_append, Nat.add_sub_cancel, List.take_left]

theorem settled_congr {l l' : Lane} (ha : l'.applied = l.applied) (hd : l'.decoder = l.decoder) :
    l'.settled = l.settled ∧ l'.uncleaned = l.uncleaned := by
  have hu : l'.uncleaned = l.uncleaned := by rw [uncleaned, hd]; rfl
  exact ⟨by rw [settled, ha, hu]; rfl, hu⟩

theorem decoderStep_route {l l' : Lane} {up : Bool} {r r' : RouteTable n} (h : l.decoderStep up r = some (l', r')) :
    (∃ final qm ds, l.decoder = .loop (.work final (.cleanup qm ds)) ∧
      r' = eraseFilled (l.state.book qm.symbol) qm.message r) ∨ l.uncleaned = [] ∧ r' = r := by
  have hmap : ∀ {β : Type} {o : Option β} {f : β → Lane}, (o.map fun x => (f x, r)) = some (l', r') → r' = r := by
    intro β o f ho
    obtain ⟨x, -, hx⟩ := Option.map_eq_some_iff.1 ho
    exact (Prod.mk.inj hx).2.symm
  unfold decoderStep at h
  unfold uncleaned
  cases hpc : l.decoder with
  | loop pc =>
    rw [hpc] at h
    cases pc with
    | work final w =>
      cases w with
      | apply qm => cases h; exact .inr ⟨rfl, rfl⟩
      | cleanup qm ds => cases h; exact .inl ⟨final, qm, ds, rfl, rfl⟩
      | output ds =>
        refine .inr ⟨rfl, ?_⟩
        dsimp only at h
        split at h
        · cases h; rfl
        · exact hmap h
        · exact hmap h
    | left => cases h; exact .inr ⟨rfl, rfl⟩
    | drain final d => exact .inr ⟨rfl, hmap h⟩
    | testDone => exact .inr ⟨rfl, hmap h⟩
    | wait => exact .inr ⟨rfl, hmap h⟩
    | waiting => exact .inr ⟨rfl, hmap h⟩
  | notify => rw [hpc] at h; exact .inr ⟨rfl, hmap h⟩
  | exited => rw [hpc] at h; cases h

/-- A step settles nothing, or it is the cleanup after the message applied last. -/
theorem decoderStep_settled {l l' : Lane} {up : Bool} {r r' : RouteTable n} (h : l.decoderStep up r = some (l', r'))
    (hc : l.applied = l.settled ++ l.uncleaned) :
    (l'.demuxed = l.demuxed ∧ l'.applied = l'.settled ++ l'.uncleaned) ∧
      (l'.settled = l.settled ∧ r' = r ∨ ∃ qm, l.applied = l.settled ++ [qm] ∧ l'.settled = l.settled ++ [qm] ∧
        r' = eraseFilled (l.state.book qm.symbol) qm.message r) := by
  have hkeep : ∀ qms : List QueuedMessage, l'.demuxed = l.demuxed → l'.applied = qms ++ l'.uncleaned →
      (l'.demuxed = l.demuxed ∧ l'.applied = l'.settled ++ l'.uncleaned) ∧ l'.settled = qms := by
    intro qms hd ha
    have := settled_eq ha
    exact ⟨⟨hd, by rw [this]; exact ha⟩, this⟩
  rcases decoderStep_route h with ⟨final, qm, ds, hpc, hr⟩ | ⟨hnone, hr⟩
  · have hone : l.uncleaned = [qm] := by rw [uncleaned, hpc]; rfl
    rw [decoderStep, hpc] at h
    cases h
    rw [hone] at hc
    obtain ⟨h₁, h₂⟩ := hkeep (l.settled ++ [qm]) rfl (by rw [← hc]; exact (List.append_nil _).symm)
    exact ⟨h₁, .inr ⟨qm, hc, h₂, hr⟩⟩
  · rw [hnone, List.append_nil] at hc
    -- what the step leaves applied, and what it leaves to clean
    have happ : l'.demuxed = l.demuxed ∧ l'.applied = l.settled ++ l'.uncleaned := by
      cases decoderStep_cases h with
      | loop hpc hs => cases hs <;> exact ⟨rfl, by rw [← hc]; exact (List.append_nil _).symm⟩
      | apply hpc => exact ⟨rfl, by rw [← hc]; rfl⟩
      | cleanup hpc => rw [uncleaned, hpc] at hnone; cases hnone
      | begin hpc hq => exact ⟨rfl, by rw [← hc]; exact (List.append_nil _).symm⟩
      | push hpc hs => exact ⟨rfl, by rw [← hc]; exact (List.append_nil _).symm⟩
      | finish hpc hq => exact ⟨rfl, by rw [← hc]; exact (List.append_nil _).symm⟩
      | leave hpc => exact ⟨rfl, by rw [← hc]; exact (List.append_nil _).symm⟩
      | notify hpc hs => exact ⟨rfl, by rw [← hc]; exact (List.append_nil _).symm⟩
    obtain ⟨h₁, h₂⟩ := hkeep _ happ.1 happ.2
    exact ⟨h₁, .inl ⟨h₂, hr⟩⟩

theorem demuxed_eq {l : Lane} (hc : l.applied = l.settled ++ l.uncleaned) (hp : l.applied <+: l.demuxed) :
    l.demuxed = l.settled ++ l.unsettled := by
  have hpre : l.settled <+: l.demuxed := (hc ▸ List.prefix_append _ _ : l.settled <+: l.applied).trans hp
  obtain ⟨rest, hrest⟩ := hpre
  rw [unsettled, ← hrest, List.drop_left]

theorem unsettled_concat {l l' : Lane} {qm : QueuedMessage} (hc : l.applied = l.settled ++ l.uncleaned)
    (hp : l.applied <+: l.demuxed) (hs : l'.settled = l.settled) (hd : l'.demuxed = l.demuxed ++ [qm]) :
    l'.unsettled = l.unsettled ++ [qm] := by
  have hlen : l.settled.length ≤ l.demuxed.length := by
    rw [demuxed_eq hc hp, List.length_append]
    exact Nat.le_add_right _ _
  rw [unsettled, hd, hs, List.drop_append_of_le_length hlen]
  rfl

theorem unsettled_cons {l l' : Lane} {qm : QueuedMessage} (hp : l.applied <+: l.demuxed)
    (ha : l.applied = l.settled ++ [qm]) (hs : l'.settled = l.settled ++ [qm]) (hd : l'.demuxed = l.demuxed) :
    l.unsettled = qm :: l'.unsettled := by
  obtain ⟨rest, hrest⟩ := hp
  rw [unsettled, unsettled, hs, hd, ← hrest, ha, List.drop_left, List.append_assoc, List.drop_left]
  rfl

/-- The book the settled messages of a symbol make. -/
def settledBook (l : Lane) (sym : Symbol) : OrderBook := OrderBook.empty.applyAll (messagesFor sym l.settled)

end Lane

theorem messagesFor_queuedAs (sym : Symbol) (m : DecodedMessage) (qms : List QueuedMessage) :
    messagesFor sym (queuedAs symOf m :: qms) = (if sym = symOf m.orderId then [m] else []) ++ messagesFor sym qms := by
  rw [← List.singleton_append, messagesFor_append, messagesFor_single]
  rfl

theorem ShardState.book_applyMessages (qms : List QueuedMessage) (sym : Symbol) :
    (({} : ShardState).applyMessages qms).book sym = OrderBook.empty.applyAll (messagesFor sym qms) := by
  induction qms using List.reverseRec with
  | nil => simp [applyMessages, messagesFor, book]
  | append_singleton qms qm ih =>
    rw [applyMessages_concat, book_applyMessage, messagesFor_append, OrderBook.applyAll_append, messagesFor_single]
    split
    · next hs => rw [← hs, ih]; rfl
    · rw [ih]; rfl

theorem ShardState.gapDetector_applyMessages (qms : List QueuedMessage) :
    (({} : ShardState).applyMessages qms).gapDetector = ({} : GapDetector).observeAll (qms.map (·.message.seqNum)) := by
  induction qms using List.reverseRec with
  | nil => rfl
  | append_singleton qms qm ih =>
    rw [applyMessages_concat, List.map_append, GapDetector.observeAll_append, ← ih]
    rfl

theorem Lane.Inv.left {up : Bool} {l : Lane} (h : l.Inv up) (ht : l.Turns) (hexit : l.publisher = .left) :
    l.decoder.inLoop = .left ∧ up = true := by
  have hpub := h.publisher
  rw [hexit] at hpub
  have hdone := ht.done.symm.trans hpub.1
  have hleft : l.decoder.inLoop = .left := by
    cases hpc : l.decoder with
    | loop pc => rw [hpc] at hdone; cases hdone
    | notify => rfl
    | exited => rfl
  have hdec := h.decoder
  rw [hleft] at hdec
  exact ⟨hleft, hdec.1⟩

/-! ### The invariant -/

namespace PipelineRunner
variable {s s' : PipelineRunner n} {done : List DecodedMessage}

/-- The lane that holds a symbol's book. -/
def laneOf (s : PipelineRunner n) (sym : Symbol) : Lane := s.lanes (shardForSymbol n sym)

/-- The live book of a symbol. -/
def book (s : PipelineRunner n) (sym : Symbol) : OrderBook := (s.laneOf sym).state.book sym

/-! ### Seen as a routing view -/

/-- A message is still to come for its book until its cleanup is over. -/
def routingView (s : PipelineRunner n) : RoutingView n where
  orderRoute := s.orderRoute
  book sym := (s.laneOf sym).settledBook sym
  pending sym := messagesFor sym (s.laneOf sym).unsettled

/-- No lane has skipped a message. -/
def Unskipped (s : PipelineRunner n) : Prop := ∀ i, (s.lanes i).applied <+: (s.lanes i).demuxed

theorem cleaning_setLane (hc : ∀ i, (s.lanes i).applied = (s.lanes i).settled ++ (s.lanes i).uncleaned) {i : Fin n.1}
    {l : Lane} (hs' : s'.lanes = (s.setLane i l).lanes) (hl : l.applied = l.settled ++ l.uncleaned) :
    ∀ j, (s'.lanes j).applied = (s'.lanes j).settled ++ (s'.lanes j).uncleaned := by
  intro j
  rw [hs', lanes_setLane]
  split
  · exact hl
  · exact hc j

theorem kept_setLane {i : Fin n.1} {l : Lane} (hd : l.demuxed = (s.lanes i).demuxed)
    (hs : l.settled = (s.lanes i).settled) (j : Fin n.1) :
    ((s.setLane i l).lanes j).demuxed = (s.lanes j).demuxed ∧ ((s.setLane i l).lanes j).settled = (s.lanes j).settled := by
  rw [lanes_setLane]
  split
  · next hj => rw [hj]; exact ⟨hd, hs⟩
  · exact ⟨rfl, rfl⟩

theorem cleaning_of_frame (hc : ∀ i, (s.lanes i).applied = (s.lanes i).settled ++ (s.lanes i).uncleaned)
    (hl : ∀ i, (s'.lanes i).demuxed = (s.lanes i).demuxed ∧ (s'.lanes i).applied = (s.lanes i).applied ∧
      (s'.lanes i).decoder = (s.lanes i).decoder) :
    (∀ i, (s'.lanes i).applied = (s'.lanes i).settled ++ (s'.lanes i).uncleaned) ∧
      ∀ i, (s'.lanes i).settled = (s.lanes i).settled := by
  have hset := fun i => Lane.settled_congr (hl i).2.1 (hl i).2.2
  refine ⟨fun i => ?_, fun i => (hset i).1⟩
  rw [(hl i).2.1, (hset i).1, (hset i).2]
  exact hc i

/-- A message is put into the lane of its symbol. -/
theorem sends_of_demuxed (hc : ∀ i, (s.lanes i).applied = (s.lanes i).settled ++ (s.lanes i).uncleaned)
    (hu : s.Unskipped) {m : DecodedMessage} {sym : Symbol} {l : Lane}
    (hl : l.demuxed = (s.laneOf sym).demuxed ++ [⟨sym, m⟩] ∧ l.applied = (s.laneOf sym).applied ∧
      l.decoder = (s.laneOf sym).decoder) (hs' : s'.lanes = (s.setLane (shardForSymbol n sym) l).lanes)
    (hr : s'.orderRoute = routeAfter s.orderRoute ⟨shardForSymbol n sym, sym⟩ m) :
    s.routingView.Sends m sym s'.routingView ∧
      ∀ i, (s'.lanes i).applied = (s'.lanes i).settled ++ (s'.lanes i).uncleaned := by
  obtain ⟨hdem, happ, hdec⟩ := hl
  obtain ⟨hset, hunc⟩ := Lane.settled_congr happ hdec
  have huns := Lane.unsettled_concat (hc _) (hu _) hset hdem
  have hof : ∀ sym', s'.laneOf sym' = if shardForSymbol n sym' = shardForSymbol n sym then l else s.laneOf sym' :=
    fun sym' => by rw [laneOf, hs', lanes_setLane]; rfl
  refine ⟨⟨hr, ?_, fun sym' => ?_⟩, cleaning_setLane hc hs' (by rw [happ, hset, hunc]; exact hc _)⟩
  · funext sym'
    show (s'.laneOf sym').settledBook sym' = (s.laneOf sym').settledBook sym'
    rw [hof]
    split
    · next hj =>
      have hsame : s.laneOf sym' = s.laneOf sym := congrArg s.lanes hj
      rw [hsame, Lane.settledBook, Lane.settledBook, hset]
    · rfl
  · show messagesFor sym' (s'.laneOf sym').unsettled = messagesFor sym' (s.laneOf sym').unsettled ++ _
    rw [hof, ← messagesFor_single sym' ⟨sym, m⟩]
    split
    · next hj =>
      have hsame : s.laneOf sym' = s.laneOf sym := congrArg s.lanes hj
      rw [hsame, huns, messagesFor_append]
      rfl
    · next hj => rw [messagesFor_single, if_neg fun e => hj (by rw [e]), List.append_nil]

/-- A decoder cleans up after the message it applied last. -/
theorem settles_of_cleaned (hu : s.Unskipped) {i : Fin n.1} {l : Lane} {qm : QueuedMessage}
    (hi : shardForSymbol n qm.symbol = i)
    (hstate : (s.lanes i).state = ShardState.applyMessages {} (s.lanes i).applied)
    (ha : (s.lanes i).applied = (s.lanes i).settled ++ [qm]) (hset : l.settled = (s.lanes i).settled ++ [qm])
    (hdem : l.demuxed = (s.lanes i).demuxed) (hs' : s'.lanes = (s.setLane i l).lanes)
    (hr : s'.orderRoute = eraseFilled ((s.lanes i).state.book qm.symbol) qm.message s.orderRoute) :
    s.routingView.Settles qm.message qm.symbol s'.routingView := by
  have huns := Lane.unsettled_cons (hu i) ha hset hdem
  have hof : ∀ sym, s'.laneOf sym = if shardForSymbol n sym = i then l else s.laneOf sym :=
    fun sym => by rw [laneOf, hs', lanes_setLane]; rfl
  have hbook : (s.lanes i).state.book qm.symbol = l.settledBook qm.symbol := by
    rw [hstate, ShardState.book_applyMessages, ha, ← hset]
    rfl
  refine ⟨?_, fun sym => ?_, fun sym => ?_⟩
  · show s'.orderRoute = eraseFilled ((s'.laneOf qm.symbol).settledBook qm.symbol) qm.message s.orderRoute
    rw [hof, if_pos hi, hr, hbook]
  · show (s'.laneOf sym).settledBook sym =
      if sym = qm.symbol then (((s.laneOf qm.symbol).settledBook qm.symbol).apply qm.message).2
        else (s.laneOf sym).settledBook sym
    rw [hof]
    split
    · next hj =>
      rw [Lane.settledBook, hset, messagesFor_append, OrderBook.applyAll_append, messagesFor_single]
      split
      · next hsym => rw [hsym, Lane.settledBook, laneOf, hi]; rfl
      · rw [Lane.settledBook, laneOf, hj]; rfl
    · next hj => rw [if_neg fun e => hj (by rw [e, hi])]
  · show messagesFor sym (s.laneOf sym).unsettled = _ ++ messagesFor sym (s'.laneOf sym).unsettled
    rw [hof, ← messagesFor_single sym qm]
    split
    · next hj => rw [laneOf, hj, huns, ← messagesFor_append]; rfl
    · next hj =>
      rw [messagesFor_single, if_neg fun e => hj (by rw [e, hi])]
      rfl

/-- The messages of `done` are demuxed, each to its home, and the table is the settled books' ids pushed
through what is not settled. -/
structure Follows (symOf : OrderId → Symbol) (done : List DecodedMessage) (s : PipelineRunner n) : Prop where
  demuxed : ∀ i, (s.lanes i).demuxed = (shardStream n symOf done i).map (queuedAs symOf)
  cleaning : ∀ i, (s.lanes i).applied = (s.lanes i).settled ++ (s.lanes i).uncleaned
  home : RouteOk symOf s.orderRoute
  routes : ∀ id, s.orderRoute.contains id = (messagesFor (symOf id) (s.laneOf (symOf id)).unsettled).foldl
    (routeMark id) (((s.laneOf (symOf id)).settledBook (symOf id)).hasOrder id)

namespace Follows

theorem start (feed : List (Option Bytes)) : (PipelineRunner.start n feed).Follows symOf [] := by
  refine ⟨fun i => rfl, fun i => rfl, .empty, fun id => ?_⟩
  show (∅ : RouteTable n).contains id = (messagesFor (symOf id) []).foldl _ (OrderBook.empty.hasOrder id)
  simp [messagesFor]

theorem split (h : s.Follows symOf done) (hu : s.Unskipped) (sym : Symbol) :
    messagesFor sym (s.laneOf sym).settled ++ messagesFor sym (s.laneOf sym).unsettled =
      done.filter fun m => symOf m.orderId = sym := by
  rw [← messagesFor_append, ← messagesFor_shardStream (n := n) done sym, ← h.demuxed]
  exact congrArg _ (Lane.demuxed_eq (h.cleaning _) (hu _)).symm

theorem lags (h : s.Follows symOf done) (hu : s.Unskipped) : s.routingView.Lags symOf done :=
  ⟨fun sym => ⟨_, h.split hu sym, rfl⟩, h.routes⟩

theorem congr (h : s.Follows symOf done) (hr : s'.orderRoute = s.orderRoute)
    (hd : ∀ i, (s'.lanes i).demuxed = (s.lanes i).demuxed)
    (hc : ∀ i, (s'.lanes i).applied = (s'.lanes i).settled ++ (s'.lanes i).uncleaned)
    (hs : ∀ i, (s'.lanes i).settled = (s.lanes i).settled) : s'.Follows symOf done := by
  refine ⟨fun i => (hd i).trans (h.demuxed i), hc, hr ▸ h.home, fun id => ?_⟩
  rw [hr, h.routes, Lane.settledBook, Lane.settledBook, Lane.unsettled, Lane.unsettled]
  simp only [laneOf, hs, hd]

theorem routed (h : s.Follows symOf done) (hu : s.Unskipped) {m : DecodedMessage} (hm : Owned symOf m) {l : Lane}
    (hl : l.demuxed = (s.laneOf (symOf m.orderId)).demuxed ++ [queuedAs symOf m] ∧
      l.applied = (s.laneOf (symOf m.orderId)).applied ∧ l.decoder = (s.laneOf (symOf m.orderId)).decoder)
    (hs' : s'.lanes = (s.setLane (shardForSymbol n (symOf m.orderId)) l).lanes)
    (hr : s'.orderRoute = routeAfter s.orderRoute (Mdfh.home n symOf m.orderId) m) :
    s'.Follows symOf (done ++ [m]) := by
  obtain ⟨hsends, hc⟩ := sends_of_demuxed h.cleaning hu hl hs' hr
  refine ⟨fun j => ?_, hc, ?_, ((h.lags hu).sends hm hsends).marked⟩
  · rw [hs', lanes_setLane, shardStream_append, List.map_append, ← h.demuxed, shardStream_single]
    split
    · next hj => rw [hl.1, hj]; rfl
    · rw [List.map_nil, List.append_nil]
  · rw [hr]; exact h.home.after hm

/-- The cleanup is after a message of the lane's own, which is at home. -/
theorem cleaned (h : s.Follows symOf done) (hu : s.Unskipped) (hv : ValidFeed symOf done) {i : Fin n.1} {l : Lane}
    {qm : QueuedMessage} (hstate : (s.lanes i).state = ShardState.applyMessages {} (s.lanes i).applied)
    (ha : (s.lanes i).applied = (s.lanes i).settled ++ [qm]) (hset : l.settled = (s.lanes i).settled ++ [qm])
    (hdem : l.demuxed = (s.lanes i).demuxed) (hc : l.applied = l.settled ++ l.uncleaned)
    (hs' : s'.lanes = (s.setLane i l).lanes)
    (hr : s'.orderRoute = eraseFilled ((s.lanes i).state.book qm.symbol) qm.message s.orderRoute) :
    s'.Follows symOf done := by
  have hqm : qm ∈ (s.lanes i).demuxed := (hu i).subset (by rw [ha]; simp)
  rw [h.demuxed, List.mem_map] at hqm
  obtain ⟨m, hm, rfl⟩ := hqm
  have hi : shardForSymbol n (symOf m.orderId) = i := of_decide_eq_true (List.mem_filter.1 hm).2
  have hlags := (h.lags hu).settles hv (settles_of_cleaned hu hi hstate ha hset hdem hs' hr)
  refine ⟨fun j => ?_, cleaning_setLane h.cleaning hs' hc, hr ▸ h.home.eraseFilled _ _, hlags.marked⟩
  rw [hs', lanes_setLane, ← h.demuxed]
  split
  · next hj => rw [hdem, hj]
  · rfl

theorem of_eq (h : s.Follows symOf done) (hl : s'.lanes = s.lanes) (hr : s'.orderRoute = s.orderRoute) :
    s'.Follows symOf done :=
  h.congr hr (fun i => by rw [hl]) (fun i => by rw [hl]; exact h.cleaning i) fun i => by rw [hl]

theorem setLane (h : s.Follows symOf done) {i : Fin n.1} {l : Lane} (hd : l.demuxed = (s.lanes i).demuxed)
    (hc : l.applied = l.settled ++ l.uncleaned) (hs : l.settled = (s.lanes i).settled) :
    (s.setLane i l).Follows symOf done :=
  have hkept := kept_setLane hd hs
  h.congr rfl (fun j => (hkept j).1) (cleaning_setLane h.cleaning rfl hc) fun j => (hkept j).2

end Follows

/-! ### Steps -/

/-- The packets still to come out of the feed or not yet demuxed. -/
def unread (s : PipelineRunner n) : List Bytes := s.net.inHand ++ s.feed.reduceOption

theorem Follows.demux (h : s.Follows symOf done) (hu : s.Unskipped) {m : DecodedMessage} {rest : List DecodedMessage}
    (hv : ValidFeed symOf (done ++ m :: rest)) (hpc : s.net = .demux m.packet) (hs : s.netStep = some s') :
    s'.Follows symOf (done ++ [m]) ∧ s'.feed = s.feed ∧ s'.net.inHand = [] := by
  have hm : Owned symOf m := hv.owned m (by simp)
  have hroute : route s.orderRoute m =
      .ok (Mdfh.home n symOf m.orderId, routeAfter s.orderRoute (Mdfh.home n symOf m.orderId) m) := by
    rw [route_eq_destination, destination_eq h.home hm]
    rw [show routable s.orderRoute m = true from (h.lags hu).routable hv]
    rfl
  rw [netStep, hpc] at hs
  simp only [DecodedMessage.decode_packet, hroute] at hs
  obtain ⟨q, hq, rfl⟩ := Option.map_eq_some_iff.1 hs
  refine ⟨h.routed hu hm ?_ rfl rfl, rfl, rfl⟩
  exact ⟨rfl, rfl, rfl⟩

/-- Away from `demux` the network thread moves queues only. -/
theorem net_frame (hs : s.netStep = some s') (hpc : ∀ raw, s.net ≠ .demux raw) :
    s'.orderRoute = s.orderRoute ∧ s'.unread = s.unread ∧ ∀ i, (s'.lanes i).demuxed = (s.lanes i).demuxed ∧
      (s'.lanes i).applied = (s.lanes i).applied ∧ (s'.lanes i).decoder = (s.lanes i).decoder := by
  have hqueue : ∀ (i : Fin n.1) (q : Ring QueuedMessage kShardQueueCapacity) (j : Fin n.1),
      ((s.setQueue i q).lanes j).demuxed = (s.lanes j).demuxed ∧ ((s.setQueue i q).lanes j).applied = (s.lanes j).applied ∧
        ((s.setQueue i q).lanes j).decoder = (s.lanes j).decoder := by
    intro i q j
    rw [setQueue, lanes_setLane]
    split
    · next hj => rw [hj]; exact ⟨rfl, rfl, rfl⟩
    · exact ⟨rfl, rfl, rfl⟩
  cases netStep_cases hs with
  | stopped hnet => exact ⟨rfl, by rw [unread, unread, hnet]; rfl, fun i => ⟨rfl, rfl, rfl⟩⟩
  | running hnet => exact ⟨rfl, by rw [unread, unread, hnet]; rfl, fun i => ⟨rfl, rfl, rfl⟩⟩
  | exhausted hnet => exact ⟨rfl, by rw [unread, unread, hnet]; rfl, fun i => ⟨rfl, rfl, rfl⟩⟩
  | lost hnet hfeed => exact ⟨rfl, by rw [unread, unread, hnet, hfeed]; rfl, fun i => ⟨rfl, rfl, rfl⟩⟩
  | packet hnet hfeed => exact ⟨rfl, by rw [unread, unread, hnet, hfeed]; rfl, fun i => ⟨rfl, rfl, rfl⟩⟩
  | refused hnet => exact absurd hnet (hpc _)
  | routed hnet => exact absurd hnet (hpc _)
  | push hnet hp => exact ⟨rfl, rfl, hqueue _ _⟩
  | pushed hnet hq => exact ⟨rfl, by rw [unread, unread, hnet]; rfl, fun i => ⟨rfl, rfl, rfl⟩⟩
  | resumed hnet => exact ⟨rfl, by rw [unread, unread, hnet]; rfl, fun i => ⟨rfl, rfl, rfl⟩⟩
  | done hnet => exact ⟨rfl, by rw [unread, unread, hnet]; rfl, fun i => ⟨rfl, rfl, rfl⟩⟩
  | notify hnet hn => exact ⟨rfl, by rw [unread, unread, hnet]; rfl, hqueue _ _⟩
  | finished hnet hk => exact ⟨rfl, by rw [unread, unread, hnet]; rfl, fun i => ⟨rfl, rfl, rfl⟩⟩

theorem publisher_frame {i : Fin n.1} (hs : s.step (.publisher i) = some s') :
    s'.orderRoute = s.orderRoute ∧ s'.unread = s.unread ∧ ∀ j, (s'.lanes j).demuxed = (s.lanes j).demuxed ∧
      (s'.lanes j).applied = (s.lanes j).applied ∧ (s'.lanes j).decoder = (s.lanes j).decoder := by
  obtain ⟨l, hp, rfl⟩ := Option.map_eq_some_iff.1 hs
  refine ⟨rfl, rfl, fun j => ?_⟩
  rw [lanes_setLane]
  split
  · next hj => rw [hj]; cases Lane.publisherStep_cases hp <;> exact ⟨rfl, rfl, rfl⟩
  · exact ⟨rfl, rfl, rfl⟩

theorem Follows.of_frame (h : s.Follows symOf done) (hr : s'.orderRoute = s.orderRoute)
    (hl : ∀ i, (s'.lanes i).demuxed = (s.lanes i).demuxed ∧ (s'.lanes i).applied = (s.lanes i).applied ∧
      (s'.lanes i).decoder = (s.lanes i).decoder) : s'.Follows symOf done := by
  obtain ⟨hc, hs⟩ := cleaning_of_frame h.cleaning hl
  exact h.congr hr (fun i => (hl i).1) hc hs

theorem Follows.net (h : s.Follows symOf done) (hu : s.Unskipped) {rest : List DecodedMessage}
    (hv : ValidFeed symOf (done ++ rest)) (hf : s.unread = rest.map (·.packet)) (hs : s.netStep = some s') :
    ∃ done' rest', done' ++ rest' = done ++ rest ∧ s'.unread = rest'.map (·.packet) ∧ s'.Follows symOf done' := by
  by_cases hpc : ∃ raw, s.net = .demux raw
  · obtain ⟨raw, hpc⟩ := hpc
    rw [unread, hpc] at hf
    cases rest with
    | nil => cases hf
    | cons m rest =>
      obtain ⟨rfl, hf'⟩ := List.cons.inj hf
      obtain ⟨h', hfeed, hhand⟩ := h.demux hu hv hpc hs
      exact ⟨done ++ [m], rest, by simp, by rw [unread, hfeed, hhand]; exact hf', h'⟩
  · obtain ⟨hr, hunread, hl⟩ := net_frame hs fun raw e => hpc ⟨raw, e⟩
    exact ⟨done, rest, rfl, hunread.trans hf, h.of_frame hr hl⟩

theorem Follows.decoder (h : s.Follows symOf done) (hu : s.Unskipped) (hv : ValidFeed symOf done) {i : Fin n.1}
    (hstate : (s.lanes i).state = ShardState.applyMessages {} (s.lanes i).applied) {l : Lane} {r : RouteTable n}
    (hs : (s.lanes i).decoderStep s.producerDone s.orderRoute = some (l, r)) :
    Follows symOf done { s.setLane i l with orderRoute := r } := by
  obtain ⟨⟨hdem, hc⟩, ⟨hset, rfl⟩ | ⟨qm, ha, hset, rfl⟩⟩ := Lane.decoderStep_settled hs (h.cleaning i)
  · exact (h.setLane hdem hc hset).of_eq rfl rfl
  · exact h.cleaned hu hv hstate ha hset hdem hc rfl rfl

/-- The invariant of a run over the packets of `ms`. -/
structure OnFeed (symOf : OrderId → Symbol) (ms : List DecodedMessage) (s : PipelineRunner n) : Prop where
  turns : s.Turns
  lanes : ∀ i, (s.lanes i).Inv s.producerDone
  follows : ∃ taken rest, taken ++ rest = ms ∧ s.unread = rest.map (·.packet) ∧ s.Follows symOf taken

/-- Both queues of every lane are in range and no input queue has evicted. -/
def Lossless (s : PipelineRunner n) : Prop := ∀ i, s.InRange i ∧ (s.lanes i).queue.evicted = []

theorem Lossless.before {a : Actor n} (hs : s.step a = some s') (h : s'.Lossless) : s.Lossless := by
  intro i
  refine ⟨(h i).1.before hs, ?_⟩
  rcases lane_step hs i with ⟨hl, -⟩ | ⟨hl, -⟩
  · have := hl.evicted
    rw [(h i).2] at this
    exact List.prefix_nil.1 this
  · rw [← hl]
    exact (h i).2

theorem Lossless.unskipped (hl : s.Lossless) (h : ∀ i, (s.lanes i).Inv s.producerDone) : s.Unskipped := by
  intro i
  have hinv := h i
  have hpre : (s.lanes i).applied <+: (s.lanes i).queue.delivered.map Prod.snd := by
    rw [hinv.applied, List.append_assoc]
    exact List.prefix_append _ _
  refine (hpre.trans (hinv.queue.delivered_prefix (hl i).2)).trans ?_
  rw [← hinv.demuxed]
  exact List.prefix_append _ _

namespace OnFeed
variable {ms : List DecodedMessage}

theorem unskipped (h : s.OnFeed symOf ms) (hl : s.Lossless) : s.Unskipped := hl.unskipped h.lanes

theorem step (h : s.OnFeed symOf ms) (hv : ValidFeed symOf ms) (hl : s'.Lossless) {a : Actor n}
    (hs : s.step a = some s') : s'.OnFeed symOf ms := by
  have hu := h.unskipped (hl.before hs)
  refine ⟨h.turns.step hs, fun i => laneInv_step (h.lanes i) h.turns (hl i).1 hs, ?_⟩
  obtain ⟨taken, rest, rfl, hf, hfol⟩ := h.follows
  cases a with
  | stop => cases hs; exact ⟨taken, rest, rfl, hf, hfol.of_eq rfl rfl⟩
  | net => exact hfol.net hu hv hf hs
  | decoder i =>
    obtain ⟨⟨l, r⟩, hd, rfl⟩ := Option.map_eq_some_iff.1 hs
    exact ⟨taken, rest, rfl, hf, hfol.decoder hu hv.left (h.lanes i).state hd⟩
  | publisher i =>
    obtain ⟨hr, hunread, hlanes⟩ := publisher_frame hs
    exact ⟨taken, rest, rfl, hunread.trans hf, hfol.of_frame hr hlanes⟩

theorem start {feed : List (Option Bytes)} (hf : feed.reduceOption = ms.map (·.packet)) :
    (PipelineRunner.start n feed).OnFeed symOf ms :=
  ⟨.start feed, fun _ => .start, [], ms, rfl, hf, .start feed⟩

end OnFeed

/-- The network thread ends because it was asked to or because the feed is over. -/
def Ended (s : PipelineRunner n) : Prop :=
  s.net = .storeDone ∨ s.net.closing = true → s.stopRequested = true ∨ s.feed = []

theorem Ended.step (h : s.Ended) {a : Actor n} (hs : s.step a = some s') : s'.Ended := by
  cases a with
  | stop => cases hs; exact fun _ => .inl rfl
  | decoder i => obtain ⟨-, -, rfl⟩ := Option.map_eq_some_iff.1 hs; exact h
  | publisher i => obtain ⟨-, -, rfl⟩ := Option.map_eq_some_iff.1 hs; exact h
  | net =>
    have hon : ∀ {pc : NetPc n}, s'.net = pc → pc ≠ .storeDone → pc.closing = false → s'.Ended := by
      rintro pc rfl h₁ h₂ (hn | hn)
      · exact absurd hn h₁
      · rw [h₂] at hn; cases hn
    cases netStep_cases hs with
    | stopped hpc =>
      simp only [PipelineRunner.step, netStep, hpc, Option.some.injEq] at hs
      by_cases hstop : s.stopRequested
      · exact fun _ => .inl hstop
      · rw [if_neg hstop] at hs
        cases congrArg PipelineRunner.net hs
    | exhausted hpc =>
      simp only [PipelineRunner.step, netStep, hpc] at hs
      split at hs
      · next hf => exact fun _ => .inr hf
      · cases congrArg PipelineRunner.net (Option.some.inj hs)
      · cases congrArg PipelineRunner.net (Option.some.inj hs)
    | running => exact hon rfl (by simp) rfl
    | lost => exact hon rfl (by simp) rfl
    | packet => exact hon rfl (by simp) rfl
    | refused => exact hon rfl (by simp) rfl
    | routed => exact hon rfl (by simp) rfl
    | push => exact h
    | pushed => exact hon rfl (by simp) rfl
    | resumed => exact hon rfl (by simp) rfl
    | done hpc => exact fun _ => h (.inl hpc)
    | notify hpc => exact fun _ => h (.inr (by rw [hpc]; rfl))
    | finished hpc => exact fun _ => h (.inr (by rw [hpc]; rfl))

/-! ### The reference -/

/-- At any moment: what was taken from the feed is routed home, each lane has applied the beginning of
its stream and every message of it was accepted, and no gap was seen. -/
structure InStep (symOf : OrderId → Symbol) (taken : List DecodedMessage) (s : PipelineRunner n) : Prop where
  demuxed : ∀ i, (s.lanes i).demuxed = (shardStream n symOf taken i).map (queuedAs symOf)
  inOrder : ∀ i, (s.lanes i).applied <+: (s.lanes i).demuxed
  accepted : ∀ i pre qm post, (s.lanes i).applied = pre ++ qm :: post →
    ∃ ds, ((ShardState.applyMessages {} pre).applyMessage qm).1 = .ok ds
  books : ∀ sym, ∃ pre, pre <+: taken ∧ s.book sym = refBook symOf pre sym
  live : ∀ i, (s.lanes i).state.gapDetector.state = .live ∧ (s.lanes i).state.gapDetector.sequenceGapsTotal = 0

/-- Once every publisher has left: the books are the reference of what was taken, the routes are those of
their orders, and a sink that lost no delta holds their levels. -/
structure Complete (symOf : OrderId → Symbol) (taken : List DecodedMessage) (s : PipelineRunner n) : Prop where
  books : ∀ sym, s.book sym = refBook symOf taken sym
  routes : ∀ id dest, s.orderRoute[id]? = some dest ↔
    dest.shardIndex = shardForSymbol n dest.symbol ∧ (s.book dest.symbol).hasOrder id = true
  sinks : (∀ a, .add a ∈ taken → a.side.Defined) → ∀ sym, (s.laneOf sym).outputQueue.mem.droppedUpdatesTotal = 0 →
    ∀ k, replaySink (s.laneOf sym).sink (sym, k) = (refBook symOf taken sym).1.levelTotals k

end PipelineRunner

theorem Owned.introduced {m : DecodedMessage} (h : Owned symOf m) {id : OrderId} (hid : m.introduced = some id) :
    symOf id = symOf m.orderId := by
  cases m with
  | add m => cases hid; rfl
  | cancel m => cases hid
  | execute m => cases hid
  | replace m => cases hid; exact h

theorem Stamped.left {ms ms' : List DecodedMessage} (h : Stamped n symOf (ms ++ ms')) : Stamped n symOf ms := by
  intro i j m hm
  refine h i j m ?_
  rw [shardStream_append, List.getElem?_append_left (List.getElem?_eq_some_iff.1 hm).1, hm]

theorem ValidFeed.symOf_eq {ms : List DecodedMessage} (h : ValidFeed symOf ms) {sym : Symbol} {id : OrderId}
    (hid : (refBook symOf ms sym).hasOrder id = true) : symOf id = sym := by
  rcases OrderBook.introduced_of_hasOrder hid with he | hin
  · simp at he
  · obtain ⟨m, hm, hmid⟩ := List.mem_filterMap.1 hin
    obtain ⟨hm, hsym⟩ := List.mem_filter.1 hm
    rw [(h.owned m hm).introduced hmid]
    exact of_decide_eq_true hsym

namespace PipelineRunner
variable {s : PipelineRunner n} {ms taken rest : List DecodedMessage}

theorem OnFeed.inStep (h : s.OnFeed symOf ms) (hl : s.Lossless) (hfol : s.Follows symOf taken)
    (hv : ValidFeed symOf taken) (hst : Stamped n symOf taken) : s.InStep symOf taken := by
  have hu := h.unskipped hl
  have hbook : ∀ sym, s.book sym = OrderBook.empty.applyAll (messagesFor sym (s.laneOf sym).applied) := by
    intro sym
    rw [book, laneOf, (h.lanes _).state, ShardState.book_applyMessages]
  refine ⟨hfol.demuxed, hu, fun i pre qm post ha => ?_, fun sym => ?_, fun i => ?_⟩
  · -- the message next in line for its symbol's book
    have hqm : qm ∈ (s.lanes i).demuxed := (hu i).subset (by rw [ha]; simp)
    rw [hfol.demuxed, List.mem_map] at hqm
    obtain ⟨m, hm, rfl⟩ := hqm
    have hi : shardForSymbol n (symOf m.orderId) = i := of_decide_eq_true (List.mem_filter.1 hm).2
    obtain ⟨later, hlater⟩ := hu i
    have hsplit : messagesFor (symOf m.orderId) pre ++ m :: messagesFor (symOf m.orderId) (post ++ later) =
        taken.filter fun m' => symOf m'.orderId = symOf m.orderId := by
      rw [← messagesFor_shardStream (n := n), hi, ← hfol.demuxed, ← hlater, ha, List.append_assoc, messagesFor_append _ pre,
        List.cons_append, messagesFor_queuedAs, if_pos rfl]
      rfl
    obtain ⟨ds, -, hds, -⟩ := OrderBook.apply_of_accepts (hv.acceptsAll_right hsplit).cons.1
    rw [← ShardState.book_applyMessages] at hds
    exact ⟨ds, hds⟩
  · have hpre : messagesFor sym (s.laneOf sym).applied <+: taken.filter fun m => symOf m.orderId = sym := by
      obtain ⟨later, hlater⟩ := hu (shardForSymbol n sym)
      rw [← messagesFor_shardStream (n := n), ← hfol.demuxed, ← hlater, messagesFor_append]
      exact List.prefix_append _ _
    obtain ⟨later, hlater⟩ := hpre
    obtain ⟨pre, post, rfl, hfilter, -⟩ := List.filter_eq_append_iff.1 hlater.symm
    exact ⟨pre, List.prefix_append _ _, by rw [hbook, ← hfilter, refBook]⟩
  · have hon : (s.lanes i).state.gapDetector.OnTrack (0 + ((s.lanes i).applied.map (·.message.seqNum)).length) := by
      rw [(h.lanes i).state, ShardState.gapDetector_applyMessages]
      refine GapDetector.OnTrack.init.observeAll fun j k hk => ?_
      rw [List.getElem?_map] at hk
      obtain ⟨qm, hqm, rfl⟩ := Option.map_eq_some_iff.1 hk
      have hdem : (s.lanes i).demuxed[j]? = some qm := by
        obtain ⟨later, hlater⟩ := hu i
        rw [← hlater, List.getElem?_append_left (List.getElem?_eq_some_iff.1 hqm).1, hqm]
      rw [hfol.demuxed, List.getElem?_map] at hdem
      obtain ⟨m, hm, rfl⟩ := Option.map_eq_some_iff.1 hdem
      rw [Nat.zero_add]
      exact hst i j m hm
    exact ⟨hon.live, hon.gaps⟩

theorem OnFeed.complete (h : s.OnFeed symOf ms) (hl : s.Lossless) (hfol : s.Follows symOf taken)
    (hv : ValidFeed symOf taken) (hexit : ∀ i, (s.lanes i).publisher = .left) : s.Complete symOf taken := by
  have hdrain : ∀ i, (s.lanes i).Drained (taken.map fun m => some m.packet) := by
    intro i
    refine (h.lanes i).drained (h.turns.lanes i) (fun hup => h.turns.idle fun hpc => ?_) (hexit i) fun qm hqm => ?_
    · rw [h.turns.done, hpc] at hup
      cases hup
    · rw [hfol.demuxed, List.mem_map] at hqm
      obtain ⟨m, hm, rfl⟩ := hqm
      exact ⟨m.packet, List.mem_map_of_mem (List.mem_filter.1 hm).1, m.decode_packet⟩
  have happ : ∀ i, (s.lanes i).applied = (s.lanes i).demuxed := by
    intro i
    refine (hdrain i).queue.eq_of_dropped_eq_zero (UInt64.toNat_inj.1 ?_)
    rw [(hdrain i).queue.counted, (hl i).2]
    rfl
  have hbook : ∀ sym, s.book sym = refBook symOf taken sym := by
    intro sym
    rw [book, laneOf, (h.lanes _).state, ShardState.book_applyMessages, happ, hfol.demuxed, messagesFor_shardStream,
      refBook]
  -- the decoders are past their loops, so every applied message is settled
  have hset : ∀ i, (s.lanes i).settled = (s.lanes i).applied ∧ (s.lanes i).unsettled = [] := by
    intro i
    have hleft : (s.lanes i).uncleaned = [] := by
      rw [Lane.uncleaned, ((h.lanes i).left (h.turns.lanes i) (hexit i)).1]
      rfl
    have hs : (s.lanes i).settled = (s.lanes i).applied := by
      have := hfol.cleaning i
      rw [hleft, List.append_nil] at this
      exact this.symm
    exact ⟨hs, by rw [Lane.unsettled, hs, happ, List.drop_length]⟩
  have hroute : ∀ id, s.orderRoute.contains id = (s.book (symOf id)).hasOrder id := by
    intro id
    rw [hfol.routes, Lane.settledBook, laneOf, (hset _).1, (hset _).2, book, laneOf, (h.lanes _).state,
      ShardState.book_applyMessages]
    rfl
  refine ⟨hbook, fun id dest => ⟨fun hid => ?_, ?_⟩, fun hsides sym h0 k => ?_⟩
  · obtain rfl := hfol.home id dest hid
    exact ⟨rfl, (hroute id).symm.trans ((contains_iff _ _).2 ⟨_, hid⟩)⟩
  · rintro ⟨hd, hid⟩
    obtain ⟨i, sym⟩ := dest
    dsimp only at hd hid
    obtain rfl : symOf id = sym := hv.symOf_eq (by rw [← hbook]; exact hid)
    rw [← hroute, contains_iff] at hid
    obtain ⟨dest, hdest⟩ := hid
    rw [hdest, hfol.home id dest hdest, hd]
    rfl
  · have hreplay := (hdrain (shardForSymbol n sym)).replay h0 fun raw a hraw hdec => hsides a ?_
    · rw [laneOf, hreplay, ← hbook]
      rfl
    · obtain ⟨m, hm, he⟩ := List.mem_map.1 hraw
      rw [← Option.some.inj he, m.decode_packet] at hdec
      rwa [← Except.ok.inj hdec]

theorem onFeed_of_run (hv : ValidFeed symOf ms) {feed : List (Option Bytes)}
    (hfeed : feed.reduceOption = ms.map (·.packet)) (hlen : 2 * feed.length < 2 ^ 64) {acts : List (Actor n)}
    (hrun : Runs.exec step (PipelineRunner.start n feed) acts = some s) (hkept : ∀ i, (s.lanes i).queue.evicted = []) :
    s.Lossless ∧ s.OnFeed symOf ms ∧ s.Ended := by
  have htracked : s.Tracked feed.length := Runs.invariant (P := Tracked feed.length)
    (fun _ _ _ h hs => h.step hlen hs) (.start feed) hrun
  have hl : s.Lossless := fun i => ⟨htracked.inRange hlen i, hkept i⟩
  have h : s.OnFeed symOf ms := Runs.invariant_while (P := OnFeed symOf ms) (Q := Lossless)
    (fun _ _ _ hs hl => hl.before hs) (fun _ _ _ h hl hs => h.step hv hl hs) (.start hfeed) hrun hl
  have hended : s.Ended := Runs.invariant (P := Ended) (fun _ _ _ h hs => h.step hs)
    (by rintro (hn | hn) <;> cases hn) hrun
  exact ⟨hl, h, hended⟩

/-- Without a stop request the publishers leave after the whole feed. -/
theorem OnFeed.unread_eq_nil (h : s.OnFeed symOf ms) (hended : s.Ended) (hexit : ∀ i, (s.lanes i).publisher = .left)
    (hstop : s.stopRequested = false) : s.unread = [] := by
  have hclosing : s.net.closing = true := by
    let i : Fin n.1 := ⟨0, n.pos⟩
    rw [← h.turns.done]
    exact ((h.lanes i).left (h.turns.lanes i) (hexit i)).2
  have hfeed : s.feed = [] := (hended (.inr hclosing)).resolve_left (by rw [hstop]; exact Bool.false_ne_true)
  have hhand : s.net.inHand = [] := by
    cases hpc : s.net with
    | demux raw => rw [hpc] at hclosing; cases hclosing
    | _ => rfl
  rw [unread, hhand, hfeed]
  rfl

/-- For every valid feed, every number of shards, any stop request and any interleaving of the threads in
which no input queue evicts: the live books are at every moment the reference of a prefix of the feed, and
once the publishers have left, of everything taken, which without a stop request is the whole feed. -/
theorem threads_eq_reference (n : NumShards) (symOf : OrderId → Symbol) (ms : List DecodedMessage)
    (hv : ValidFeed symOf ms) (hst : Stamped n symOf ms) (feed : List (Option Bytes))
    (hfeed : feed.reduceOption = ms.map (·.packet)) (hlen : 2 * feed.length < 2 ^ 64) (acts : List (Actor n))
    (s : PipelineRunner n) (hrun : Runs.exec step (PipelineRunner.start n feed) acts = some s)
    (hkept : ∀ i, (s.lanes i).queue.evicted = []) :
    ∃ taken rest, taken ++ rest = ms ∧ s.unread = rest.map (·.packet) ∧ s.InStep symOf taken ∧
      ((∀ i, (s.lanes i).publisher = .left) →
        s.Complete symOf taken ∧ (s.stopRequested = false → taken = ms)) := by
  obtain ⟨hl, h, hended⟩ := onFeed_of_run hv hfeed hlen hrun hkept
  obtain ⟨taken, rest, rfl, hunread, hfol⟩ := h.follows
  refine ⟨taken, rest, rfl, hunread, h.inStep hl hfol hv.left hst.left, fun hexit =>
    ⟨h.complete hl hfol hv.left hexit, fun hstop => ?_⟩⟩
  rw [h.unread_eq_nil hended hexit hstop] at hunread
  rw [List.map_eq_nil_iff.1 hunread.symm, List.append_nil]

/-- The decoder wakes up in the middle of the feed. -/
def interleavedRun : List (Actor oneShard) :=
  (List.replicate 15 [.net, .net, .decoder 0]).flatten ++ List.replicate 45 (.decoder 0) ++
    List.replicate 31 (.publisher 0)

theorem threads_eq_reference_fill :
    ∃ s, Runs.exec step (PipelineRunner.start oneShard sampleFeed)
        interleavedRun = some s ∧
      (∀ i, (s.lanes i).publisher = .left) ∧ s.Complete (fun _ => sampleSymbol) [sampleAdd, sampleFill] := by
  have h : ((Runs.exec step (PipelineRunner.start oneShard sampleFeed)
      interleavedRun).map fun s => decide ((∀ i, (s.lanes i).publisher = .left) ∧ s.stopRequested = false ∧
        ∀ i, (s.lanes i).queue.evicted = [])) = some true := by decide +kernel
  obtain ⟨s, hs, hd⟩ := Option.map_eq_some_iff.1 h
  obtain ⟨hexit, hstop, hkept⟩ := of_decide_eq_true hd
  obtain ⟨taken, rest, -, -, -, hend⟩ := threads_eq_reference oneShard _ [sampleAdd, sampleFill] sampleFeed_valid
    sampleFeed_stamped sampleFeed rfl (by decide) interleavedRun s hs hkept
  obtain ⟨hcomplete, htaken⟩ := hend hexit
  exact ⟨s, hs, hexit, htaken hstop ▸ hcomplete⟩

end PipelineRunner

end Mdfh
