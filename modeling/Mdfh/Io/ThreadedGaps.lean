import Mdfh.Io.Gaps
import Mdfh.Io.ThreadedReference

/-!
# What a shard's detector knows of its losses

Packets are lost in transit, refused by `demux` once an earlier one is lost, and evicted by a full
queue while the decoder pops from it. What a decoder applies is left over from its shard's stream, in
order, and its detector is exact about it: live as long as no number is missing between two it has
seen, with one gap counted for every place where numbers are missing. Only what is missing before the
first number it saw escapes it.
-/

namespace Mdfh
open LittleEndian (Bytes)

variable {n : NumShards} {symOf : OrderId → Symbol}

/-! ### The detector on increasing numbers -/

/-- The places where the next number is not the successor. -/
def breaks : List SeqNum → Nat
  | a :: b :: ns => (if b.toNat = a.toNat + 1 then 0 else 1) + breaks (b :: ns)
  | _ => 0

theorem breaks_lt (a : SeqNum) (ns : List SeqNum) : breaks (a :: ns) ≤ ns.length := by
  induction ns generalizing a with
  | nil => exact le_rfl
  | cons b ns ih =>
    have := ih b
    rw [breaks, List.length_cons]
    split <;> omega

namespace GapDetector
variable {g : GapDetector}

theorem observe_above (hl : g.hasLastSeqNum = true) {b : SeqNum} (hb : g.lastSeqNum.toNat < b.toNat) :
    (g.observe b).2.hasLastSeqNum = true ∧ (g.observe b).2.lastSeqNum = b ∧ (g.observe b).2.sequenceGapsTotal =
      g.sequenceGapsTotal + UInt64.ofNat (if b.toNat = g.lastSeqNum.toNat + 1 then 0 else 1) := by
  have hlt := b.toNat_lt
  have hexp : (g.lastSeqNum + 1).toNat = g.lastSeqNum.toNat + 1 := by
    rw [UInt64.toNat_add]
    exact Nat.mod_eq_of_lt (show g.lastSeqNum.toNat + 1 < 2 ^ 64 by omega)
  unfold observe
  rw [hl, if_neg (by simp)]
  by_cases hnext : b = g.lastSeqNum + 1
  · have hnat : b.toNat = g.lastSeqNum.toNat + 1 := by rw [hnext, hexp]
    rw [if_pos hnext, if_pos hnat]
    exact ⟨rfl, rfl, (UInt64.add_zero _).symm⟩
  · have hnat : b.toNat ≠ g.lastSeqNum.toNat + 1 := fun e => hnext (UInt64.toNat_inj.1 (e.trans hexp.symm))
    have hnlt : ¬ b < g.lastSeqNum + 1 := by
      rw [UInt64.lt_iff_toNat_lt, hexp]
      omega
    rw [if_neg hnext, if_neg hnlt, if_neg hnat]
    exact ⟨rfl, rfl, rfl⟩

theorem observeAll_above (hl : g.hasLastSeqNum = true) {ns : List SeqNum}
    (hns : (g.lastSeqNum :: ns).Pairwise fun a b => a.toNat < b.toNat) :
    (g.observeAll ns).lastSeqNum? = (g.lastSeqNum :: ns).getLast? ∧
      (g.observeAll ns).sequenceGapsTotal = g.sequenceGapsTotal + UInt64.ofNat (breaks (g.lastSeqNum :: ns)) := by
  induction ns generalizing g with
  | nil =>
    refine ⟨?_, (UInt64.add_zero _).symm⟩
    rw [observeAll_nil, lastSeqNum?, if_pos hl]
    rfl
  | cons b ns ih =>
    obtain ⟨hb, hns⟩ := List.pairwise_cons.1 hns
    obtain ⟨hl', hlast, hgaps⟩ := observe_above hl (hb b List.mem_cons_self)
    obtain ⟨h₁, h₂⟩ := ih hl' (by rw [hlast]; exact hns)
    rw [hlast] at h₁ h₂
    refine ⟨h₁, ?_⟩
    rw [observeAll_cons, h₂, hgaps, breaks, UInt64.ofNat_add, UInt64.add_assoc]

/-- A new detector on increasing numbers. -/
theorem observeAll_increasing {ns : List SeqNum} (hns : ns.Pairwise fun a b => a.toNat < b.toNat) :
    (({} : GapDetector).observeAll ns).lastSeqNum? = ns.getLast? ∧
      (({} : GapDetector).observeAll ns).sequenceGapsTotal = UInt64.ofNat (breaks ns) := by
  cases ns with
  | nil => exact ⟨rfl, rfl⟩
  | cons b ns =>
    have h := observeAll_above (g := (({} : GapDetector).observe b).2) rfl hns
    exact ⟨h.1, h.2.trans (UInt64.zero_add _)⟩

end GapDetector

namespace NumberedFrom
variable {k : Nat} {l s : List DecodedMessage}

theorem increasing (h : NumberedFrom k l) : l.Pairwise fun m m' => m.seqNum.toNat < m'.seqNum.toNat := by
  induction l generalizing k with
  | nil => exact List.Pairwise.nil
  | cons m l ih =>
    refine List.pairwise_cons.2 ⟨fun m' hm' => ?_, ih h.tail⟩
    rw [h.head]
    exact h.tail.lt_of_mem hm'

theorem onTrack_first {m : DecodedMessage} (hm : m.seqNum.toNat = k + 1) :
    (({} : GapDetector).observe m.seqNum).2.OnTrack (k + 1) :=
  ⟨(decide_eq_true (Nat.succ_pos k)).symm, fun _ => hm, rfl, rfl⟩

/-- A detector is live exactly if what it saw of the stream is in one piece. -/
theorem live_iff (h : NumberedFrom k l) (hs : s.Sublist l) :
    (({} : GapDetector).observeAll (s.map (·.seqNum))).state = .live ↔ s <:+: l := by
  constructor
  · intro hl
    induction hs generalizing k with
    | slnil => exact List.infix_rfl
    | cons m hs ih => exact List.infix_cons (ih h.tail hl)
    | cons_cons m hs ih =>
      have hpre := h.tail.prefix_of_onTrack (onTrack_first h.head) (Nat.succ_pos k) hs hl
      exact (List.cons_prefix_cons.2 ⟨rfl, hpre⟩).isInfix
  · rintro ⟨a, b, rfl⟩
    cases s with
    | nil => rfl
    | cons m s =>
      have hget : ∀ j m', (m :: s)[j]? = some m' → m'.seqNum.toNat = k + a.length + j + 1 := by
        intro j m' hj
        rw [Nat.add_assoc k]
        refine h (a.length + j) m' ?_
        rw [List.append_assoc, List.getElem?_append_right (Nat.le_add_right _ _), Nat.add_sub_cancel_left,
          List.getElem?_append_left (List.getElem?_eq_some_iff.1 hj).1, hj]
      refine ((onTrack_first (hget 0 m rfl)).observeAll fun j q hq => ?_).live
      rw [List.getElem?_map] at hq
      obtain ⟨m', hm', rfl⟩ := Option.map_eq_some_iff.1 hq
      rw [hget (j + 1) m' hm']
      omega

end NumberedFrom

/-! ### What reaches a shard -/

namespace PipelineRunner
variable {s s' : PipelineRunner n} {kept : List DecodedMessage}

/-- What was demuxed of the packets taken so far went to its home, in order. -/
structure Homing (symOf : OrderId → Symbol) (kept : List DecodedMessage) (s : PipelineRunner n) : Prop where
  routes : RouteOk symOf s.orderRoute
  demuxed : ∃ taken rest, taken ++ rest = kept ∧ s.unread = rest.map (·.packet) ∧
    ∀ i, (s.lanes i).demuxed.Sublist ((shardStream n symOf taken i).map (queuedAs symOf))

namespace Homing

theorem start {feed : List (Option Bytes)} (hf : feed.reduceOption = kept.map (·.packet)) :
    (PipelineRunner.start n feed).Homing symOf kept :=
  ⟨.empty, [], kept, rfl, hf, fun _ => List.nil_sublist _⟩

theorem congr (h : s.Homing symOf kept) (hr : RouteOk symOf s'.orderRoute) (hu : s'.unread = s.unread)
    (hd : ∀ i, (s'.lanes i).demuxed = (s.lanes i).demuxed) : s'.Homing symOf kept := by
  obtain ⟨taken, rest, ht, hrest, hsub⟩ := h.demuxed
  exact ⟨hr, taken, rest, ht, hu.trans hrest, fun i => hd i ▸ hsub i⟩

theorem setLane (h : s.Homing symOf kept) {i : Fin n.1} {l : Lane} (hl : l.demuxed = (s.lanes i).demuxed)
    {r : RouteTable n} (hr : RouteOk symOf r) : Homing symOf kept { s.setLane i l with orderRoute := r } := by
  refine h.congr hr rfl fun j => ?_
  show ((s.setLane i l).lanes j).demuxed = _
  rw [lanes_setLane]
  split
  · next hj => rw [hl, hj]
  · rfl

theorem demux (h : s.Homing symOf kept) (ho : ∀ m ∈ kept, Owned symOf m) {raw : Bytes} (hpc : s.net = .demux raw)
    (hs : s.netStep = some s') : s'.Homing symOf kept := by
  obtain ⟨taken, rest, ht, hrest, hsub⟩ := h.demuxed
  rw [unread, hpc] at hrest
  cases rest with
  | nil => cases hrest
  | cons m rest =>
    obtain ⟨rfl, hrest'⟩ := List.cons.inj hrest
    have hm : Owned symOf m := ho m (by rw [← ht]; simp)
    have ht' : (taken ++ [m]) ++ rest = kept := by rw [← ht, List.append_assoc]; rfl
    have hstream : ∀ i, shardStream n symOf (taken ++ [m]) i = shardStream n symOf taken i ++ shardStream n symOf [m] i :=
      fun i => shardStream_append taken [m] i
    unfold netStep at hs
    rw [hpc] at hs
    simp only [DecodedMessage.decode_packet, route_eq_destination, destination_eq h.routes hm] at hs
    cases hroute : routable s.orderRoute m with
    | false =>
      rw [hroute] at hs
      cases hs
      refine ⟨h.routes, taken ++ [m], rest, ht', hrest', fun i => (hsub i).trans ?_⟩
      rw [hstream, List.map_append]
      exact List.sublist_append_left _ _
    | true =>
      rw [hroute] at hs
      obtain ⟨q, hq, rfl⟩ := Option.map_eq_some_iff.1 hs
      refine ⟨h.routes.after hm, taken ++ [m], rest, ht', hrest', fun i => ?_⟩
      show ((s.setLane _ _).lanes i).demuxed.Sublist _
      rw [lanes_setLane, hstream, List.map_append, shardStream_single]
      by_cases hi : i = (home n symOf m.orderId).shardIndex
      · have hi' : i = shardForSymbol n (symOf m.orderId) := hi
        rw [if_pos hi, if_pos hi', ← hi]
        exact (hsub i).append (List.Sublist.refl _)
      · have hi' : ¬ i = shardForSymbol n (symOf m.orderId) := hi
        rw [if_neg hi, if_neg hi']
        exact (hsub i).trans (List.sublist_append_left _ _)

theorem net (h : s.Homing symOf kept) (ho : ∀ m ∈ kept, Owned symOf m) (hs : s.netStep = some s') :
    s'.Homing symOf kept := by
  have hqueue : ∀ {i : Fin n.1} {q : Ring QueuedMessage kShardQueueCapacity} (j : Fin n.1),
      ((s.setQueue i q).lanes j).demuxed = (s.lanes j).demuxed := by
    intro i q j
    rw [setQueue, lanes_setLane]
    split
    · next hj => rw [hj]
    · rfl
  by_cases hpc : ∃ raw, s.net = .demux raw
  · obtain ⟨raw, hpc⟩ := hpc
    exact h.demux ho hpc hs
  · cases netStep_cases hs with
    | stopped hnet => exact h.congr h.routes (by rw [unread, unread, hnet]; rfl) fun _ => rfl
    | running hnet => exact h.congr h.routes (by rw [unread, unread, hnet]; rfl) fun _ => rfl
    | exhausted hnet => exact h.congr h.routes (by rw [unread, unread, hnet]; rfl) fun _ => rfl
    | lost hnet hfeed => exact h.congr h.routes (by rw [unread, unread, hnet, hfeed]; rfl) fun _ => rfl
    | packet hnet hfeed => exact h.congr h.routes (by rw [unread, unread, hnet, hfeed]; rfl) fun _ => rfl
    | refused hnet => exact absurd ⟨_, hnet⟩ hpc
    | routed hnet => exact absurd ⟨_, hnet⟩ hpc
    | push hnet hp => exact h.congr h.routes rfl hqueue
    | pushed hnet hq => exact h.congr h.routes (by rw [unread, unread, hnet]; rfl) fun _ => rfl
    | resumed hnet => exact h.congr h.routes (by rw [unread, unread, hnet]; rfl) fun _ => rfl
    | done hnet => exact h.congr h.routes (by rw [unread, unread, hnet]; rfl) fun _ => rfl
    | notify hnet hn => exact h.congr h.routes (by rw [unread, unread, hnet]; rfl) hqueue
    | finished hnet hk => exact h.congr h.routes (by rw [unread, unread, hnet]; rfl) fun _ => rfl

theorem step (h : s.Homing symOf kept) (ho : ∀ m ∈ kept, Owned symOf m) {a : Actor n} (hs : s.step a = some s') :
    s'.Homing symOf kept := by
  cases a with
  | stop => cases hs; exact h.congr h.routes rfl fun _ => rfl
  | net => exact h.net ho hs
  | decoder i =>
    obtain ⟨⟨l, r⟩, hd, rfl⟩ := Option.map_eq_some_iff.1 hs
    refine h.setLane ?_ ?_
    · cases Lane.decoderStep_cases hd <;> rfl
    · rcases Lane.decoderStep_route hd with ⟨final, qm, ds, -, rfl⟩ | ⟨-, rfl⟩
      · exact h.routes.eraseFilled _ _
      · exact h.routes
  | publisher i =>
    obtain ⟨l, hp, rfl⟩ := Option.map_eq_some_iff.1 hs
    refine h.setLane ?_ h.routes
    cases Lane.publisherStep_cases hp <;> rfl

end Homing

end PipelineRunner

/-- What a lane made of its stream: it applied `got`, and its detector is exact about it. -/
structure Lane.Observed (symOf : OrderId → Symbol) (stream got : List DecodedMessage) (l : Lane) : Prop where
  inOrder : got.Sublist stream
  applied : l.applied = got.map (queuedAs symOf)
  books : ∀ sym, l.state.book sym = refBook symOf got sym
  live : l.state.gapDetector.state = .live ↔ got <:+: stream
  gaps : l.state.gapDetector.sequenceGapsTotal.toNat = breaks (got.map (·.seqNum))
  last : l.state.gapDetector.lastSeqNum? = (got.map (·.seqNum)).getLast?

theorem messagesFor_map_queuedAs (sym : Symbol) (ms : List DecodedMessage) :
    messagesFor sym (ms.map (queuedAs symOf)) = ms.filter fun m => symOf m.orderId = sym := by
  unfold messagesFor
  rw [List.filter_map, List.map_map]
  exact List.map_id _

/-- What a lane applied is left over from what was demuxed to it. -/
theorem Lane.Inv.applied_sublist {up : Bool} {l : Lane} (h : l.Inv up) : l.applied.Sublist l.demuxed := by
  have hpop : l.applied.Sublist (l.queue.delivered.map Prod.snd) := by
    rw [h.applied, List.append_assoc]
    exact List.sublist_append_left _ _
  rw [← h.demuxed]
  exact (hpop.trans h.queue.delivered_sublist).trans (List.sublist_append_left _ _)

theorem Lane.Inv.gapDetector_eq {up : Bool} {l : Lane} (h : l.Inv up) {got : List DecodedMessage}
    (happ : l.applied = got.map (queuedAs symOf)) :
    l.state.gapDetector = ({} : GapDetector).observeAll (got.map (·.seqNum)) := by
  rw [h.state, ShardState.gapDetector_applyMessages, happ, List.map_map]
  rfl

theorem Lane.Inv.observed {up : Bool} {l : Lane} (h : l.Inv up) {stream got : List DecodedMessage}
    (hnum : NumberedFrom 0 stream) (hsub : got.Sublist stream) (happ : l.applied = got.map (queuedAs symOf))
    (hlen : l.demuxed.length < 2 ^ 64) : l.Observed symOf stream got := by
  have hgap := h.gapDetector_eq happ
  have hinc : (got.map (·.seqNum)).Pairwise fun a b => a.toNat < b.toNat :=
    List.pairwise_map.2 (hnum.increasing.sublist hsub)
  obtain ⟨hlast, hgaps⟩ := GapDetector.observeAll_increasing hinc
  have hbreaks : breaks (got.map (·.seqNum)) < 2 ^ 64 := by
    have hle : breaks (got.map (·.seqNum)) ≤ (got.map (·.seqNum)).length := by
      cases hns : got.map (·.seqNum) with
      | nil => exact Nat.zero_le _
      | cons a ns => exact (breaks_lt a ns).trans (Nat.le_succ _)
    have hl := h.applied_sublist.length_le
    rw [happ, List.length_map] at hl
    rw [List.length_map] at hle
    omega
  refine ⟨hsub, happ, fun sym => ?_, ?_, ?_, ?_⟩
  · rw [h.state, ShardState.book_applyMessages, happ, messagesFor_map_queuedAs, refBook]
  · rw [hgap]
    exact hnum.live_iff hsub
  · rw [hgap, hgaps, UInt64.toNat_ofNat']
    exact Nat.mod_eq_of_lt hbreaks
  · rw [hgap, hlast]

namespace PipelineRunner

theorem Homing.demuxed_sublist {s : PipelineRunner n} {kept : List DecodedMessage} (h : s.Homing symOf kept)
    (i : Fin n.1) : (s.lanes i).demuxed.Sublist ((shardStream n symOf kept i).map (queuedAs symOf)) := by
  obtain ⟨taken, rest, rfl, -, hsub⟩ := h.demuxed
  exact (hsub i).trans (((List.sublist_append_left taken rest).filter _).map _)

theorem homing_of_run {kept : List DecodedMessage} (ho : ∀ m ∈ kept, Owned symOf m) {feed : List (Option Bytes)}
    (hfeed : feed.reduceOption = kept.map (·.packet)) (hlen : 2 * feed.length < 2 ^ 64) {acts : List (Actor n)}
    {s : PipelineRunner n} (hrun : Runs.exec step (PipelineRunner.start n feed) acts = some s) :
    s.Homing symOf kept ∧ ∀ i, (s.lanes i).Inv s.producerDone ∧ (s.lanes i).demuxed.length < 2 ^ 64 := by
  have htracked : s.Tracked feed.length := Runs.invariant (P := Tracked feed.length)
    (fun _ _ _ h hs => h.step hlen hs) (.start feed) hrun
  refine ⟨Runs.invariant (P := Homing symOf kept) (fun _ _ _ h hs => h.step ho hs) (.start hfeed) hrun, fun i => ?_⟩
  have hbound := htracked.bound i
  exact ⟨htracked.lanes i, by omega⟩

/-- For every feed whose ids each belong to one symbol and whose messages each shard's counter stamped,
any losses, any evictions, any stop request and any interleaving: a shard has applied a part of its
stream, its books are what that part makes, and its detector is exact about what is missing in between. -/
theorem losses_detected (n : NumShards) (symOf : OrderId → Symbol) (ms kept : List DecodedMessage)
    (ho : ∀ m ∈ ms, Owned symOf m) (hst : Stamped n symOf ms) (hk : kept.Sublist ms) (feed : List (Option Bytes))
    (hfeed : feed.reduceOption = kept.map (·.packet)) (hlen : 2 * feed.length < 2 ^ 64) (acts : List (Actor n))
    (s : PipelineRunner n) (hrun : Runs.exec step (PipelineRunner.start n feed) acts = some s) (i : Fin n.1) :
    ∃ got, (s.lanes i).Observed symOf (shardStream n symOf ms i) got := by
  obtain ⟨h, hlanes⟩ := homing_of_run (fun m hm => ho m (hk.subset hm)) hfeed hlen hrun
  obtain ⟨hinv, hbound⟩ := hlanes i
  obtain ⟨got, hgot, happ⟩ := List.sublist_map_iff.1 (hinv.applied_sublist.trans (h.demuxed_sublist i))
  exact ⟨got, hinv.observed (hst.numbered i) (hgot.trans (hk.filter _)) happ hbound⟩

/-- Two packets and a lost one between them, the decoder behind the network thread. -/
def lossyRun : List (Actor oneShard) := List.replicate 30 .net ++ List.replicate 40 (.decoder 0)

theorem losses_detected_between :
    ∃ s, Runs.exec step (PipelineRunner.start oneShard [some sampleAdd.packet, none, some sampleAdd₃.packet]) lossyRun =
        some s ∧ ((s.lanes 0).state.gapDetector.state = .stale ∧ (s.lanes 0).applied.length = 2) ∧
      ∃ got, (s.lanes 0).Observed (fun _ => sampleSymbol)
        (shardStream oneShard (fun _ => sampleSymbol) [sampleAdd, sampleFill, sampleAdd₃] 0) got := by
  have h : ((Runs.exec step (PipelineRunner.start oneShard [some sampleAdd.packet, none, some sampleAdd₃.packet])
      lossyRun).map fun s => decide ((s.lanes 0).state.gapDetector.state = .stale ∧ (s.lanes 0).applied.length = 2)) =
        some true := by decide +kernel
  have howned : ∀ m ∈ [sampleAdd, sampleFill, sampleAdd₃], Owned (fun _ => sampleSymbol) m := by
    simp [sampleAdd, sampleFill, sampleAdd₃, Owned]
  obtain ⟨s, hs, hd⟩ := Option.map_eq_some_iff.1 h
  exact ⟨s, hs, of_decide_eq_true hd, losses_detected oneShard _ [sampleAdd, sampleFill, sampleAdd₃] [sampleAdd, sampleAdd₃]
    howned sampleAdd₃_stamped (by decide) _ rfl (by decide) lossyRun s hs 0⟩

end PipelineRunner

end Mdfh
