import Mdfh.Io.FeedCoherence
import Mdfh.Io.ThreadedGaps

/-!
# The simulated exchange and the running pipeline

The feed of the runner is the generator itself: `read_packets_async` takes what each call of `next()`
brings until one is exhausted. The exchange has its own books, of every message it generated, lost or
not. Whatever the draws, the losses and the interleaving, a shard that has seen its first number and is
live shows the exchange's books as they were at some moment (`live_shows_exchange`); and a run that loses
nothing ends with the exchange's books as they are at the end (`lossless_shows_exchange`).
-/

namespace Mdfh
open TreeMapLib
open LittleEndian (Bytes)
open FeedGenerator (Config Draw StampedMessage delivered)

variable {numShards : Nat} {cfg : Config numShards}

namespace FeedGenerator

/-- What the calls of `next()` bring, up to the one that is exhausted. -/
def feed (g : FeedGenerator cfg) : List Draw → List (Option Bytes)
  | [] => []
  | d :: ds => if g.emittedCount ≥ cfg.messageCount then [] else (g.next d).1.bytes :: (g.next d).2.feed ds

theorem feed_eq_trace (g : FeedGenerator cfg) (ds : List Draw) :
    g.feed ds = (g.trace ds).map fun e => if e.lost then none else some e.message.packet := by
  induction ds generalizing g with
  | nil => rfl
  | cons d ds ih =>
    rw [feed, trace]
    split
    · rfl
    · next h => rw [ih, next_bytes (UInt64.not_le.1 h), List.map_cons]

theorem reduceOption_feed (g : FeedGenerator cfg) (ds : List Draw) :
    (g.feed ds).reduceOption = ((delivered (g.trace ds)).map (·.message)).map (·.packet) := by
  rw [feed_eq_trace]
  unfold List.reduceOption delivered
  induction g.trace ds with
  | nil => rfl
  | cons e t ih =>
    rw [List.map_cons, List.filterMap_cons, ih, List.filter_cons]
    cases e.lost <;> rfl

theorem emittedCount_next {g : FeedGenerator cfg} (h : g.emittedCount < cfg.messageCount) (d : Draw) :
    (g.next d).2.emittedCount = g.emittedCount + 1 := by
  obtain ⟨c, hc⟩ := next_state h d
  rw [hc]
  unfold emit generateNextMessage
  dsimp only
  split_ifs <;> rfl

theorem length_feed (g : FeedGenerator cfg) (ds : List Draw) :
    (g.feed ds).length ≤ cfg.messageCount.toNat - g.emittedCount.toNat := by
  induction ds generalizing g with
  | nil => exact Nat.zero_le _
  | cons d ds ih =>
    rw [feed]
    split
    · exact Nat.zero_le _
    · next h =>
      have hlt := UInt64.lt_iff_toNat_lt.1 (UInt64.not_le.1 h)
      have hcount := cfg.messageCount.toNat_lt
      have hnext : (g.next d).2.emittedCount.toNat = g.emittedCount.toNat + 1 := by
        rw [emittedCount_next (UInt64.not_le.1 h), UInt64.toNat_add]
        exact Nat.mod_eq_of_lt (show g.emittedCount.toNat + 1 < 2 ^ 64 by omega)
      have := ih (g.next d).2
      rw [List.length_cons]
      omega

theorem Stamping.owned_map {g : FeedGenerator cfg} {symOf : OrderId → Symbol} {t : List (StampedMessage cfg)} {k : Nat}
    (h : Stamping g symOf t k) {l : List (StampedMessage cfg)} (hl : l.Sublist t) :
    ∀ m ∈ l.map (·.message), Owned symOf m := by
  intro m hm
  obtain ⟨e, he, rfl⟩ := List.mem_map.1 hm
  exact (h.owned e (hl.subset he)).1

namespace Stamping
variable {n : NumShards} {cfg : Config n.1} {g : FeedGenerator cfg} {symOf : OrderId → Symbol} {t : List (StampedMessage cfg)} {k : Nat}

theorem shardStream_eq (h : Stamping g symOf t k) {l : List (StampedMessage cfg)} (hl : l.Sublist t)
    (i : Fin n.1) :
    shardStream n symOf (l.map (·.message)) i = (l.filter (·.shard = i)).map (·.message) := by
  unfold shardStream
  rw [List.filter_map]
  refine congrArg _ (List.filter_congr fun e he => ?_)
  obtain ⟨-, hsym, hshard⟩ := h.owned_shard (hl.subset he)
  rw [Function.comp_apply, hsym, hshard]

theorem stamped (h : Stamping g symOf t k) : Stamped n symOf (t.map (·.message)) := by
  intro i j m hm
  rw [h.shardStream_eq (List.Sublist.refl t), List.getElem?_map] at hm
  obtain ⟨e, he, rfl⟩ := Option.map_eq_some_iff.1 hm
  exact h.numbered i j e he

end Stamping

end FeedGenerator

/-! ### The exchange's books -/

theorem Books.applyAll_apply (books : Books) (t : List (StampedMessage cfg)) (sym : Symbol) :
    books.applyAll t sym = (books sym).applyAll ((t.filter (·.symbol = sym)).map (·.message)) := by
  induction t generalizing books with
  | nil => rfl
  | cons e t ih =>
    show (books.apply e).applyAll t sym = _
    rw [ih, List.filter_cons]
    by_cases hs : e.symbol = sym
    · subst hs
      have hself : books.apply e e.symbol = ((books e.symbol).apply e.message).2 := Function.update_self _ _ _
      rw [hself, if_pos (decide_eq_true rfl)]
      rfl
    · have hother : books.apply e sym = books sym := Function.update_of_ne (Ne.symm hs) _ _
      rw [hother, if_neg (by simpa using hs)]

/-- The books of the exchange after the messages of `t`. -/
def exchangeBooks (t : List (StampedMessage cfg)) : Books := Books.applyAll (fun _ => OrderBook.empty) t

theorem exchangeBooks_eq {symOf : OrderId → Symbol} {t : List (StampedMessage cfg)}
    (h : ∀ e ∈ t, symOf e.message.orderId = e.symbol) (sym : Symbol) :
    exchangeBooks t sym = refBook symOf (t.map (·.message)) sym := by
  have hfilter : t.filter (·.symbol = sym) = t.filter fun e => symOf e.message.orderId = sym :=
    List.filter_congr fun e he => by rw [h e he]
  rw [exchangeBooks, Books.applyAll_apply, refBook, List.filter_map, hfilter]
  rfl

/-- A shard's symbols only take the messages stamped for the shard. -/
theorem exchangeBooks_filter {n : NumShards} {cfg : Config n.1} {t : List (StampedMessage cfg)}
    (h : ∀ e ∈ t, e.shard = shardForSymbol n e.symbol) (sym : Symbol) :
    exchangeBooks (t.filter (·.shard = shardForSymbol n sym)) sym = exchangeBooks t sym := by
  have hfilter : (t.filter (·.shard = shardForSymbol n sym)).filter (·.symbol = sym) =
      t.filter (·.symbol = sym) := by
    rw [List.filter_filter]
    refine List.filter_congr fun e he => ?_
    by_cases hs : e.symbol = sym
    · simp [h e he, hs]
    · simp [hs]
  rw [exchangeBooks, exchangeBooks, Books.applyAll_apply, Books.applyAll_apply, hfilter]

/-! ### Any run -/

/-- What a lane shows of the exchange whose messages are `t`. -/
structure Lane.Mirrors {n : NumShards} {cfg : Config n.1} (t : List (StampedMessage cfg)) (i : Fin n.1) (l : Lane) : Prop where
  received : ∃ got, got.Sublist ((delivered t).filter (·.shard = i)) ∧ l.applied = got.map (fun e => ⟨e.symbol, e.message⟩) ∧
    ∀ sym, l.state.book sym = exchangeBooks got sym
  live : l.state.gapDetector.state = .live → (l.applied.map (·.message.seqNum)).head? = some 1 →
    ∃ pre, pre <+: t ∧ l.applied.length = (pre.filter (·.shard = i)).length ∧
      ∀ sym, shardForSymbol n sym = i → l.state.book sym = exchangeBooks pre sym

namespace PipelineRunner

/-- For every configuration, all draws, any packets lost on the way, any evictions, any stop request and any
interleaving: a shard's books are the exchange's books of the messages that reached it, and while the shard is
live and has not missed its first message, they are the exchange's books after some of its messages. -/
theorem live_shows_exchange (n : NumShards) (cfg : Config n.1) (hcount : cfg.messageCount.toNat < 2 ^ 63) (ds : List Draw)
    (acts : List (Actor n)) (s : PipelineRunner n)
    (hrun : Runs.exec step (PipelineRunner.start n (({} : FeedGenerator cfg).feed ds)) acts = some s)
    (i : Fin n.1) : (s.lanes i).Mirrors (({} : FeedGenerator cfg).trace ds) i := by
  have h₀ : FeedGenerator.Stamping ({} : FeedGenerator cfg) (fun _ => default) [] 1 := .init _
  obtain ⟨g', symOf, k, h⟩ := h₀.trace ds
  rw [List.nil_append] at h
  set t := ({} : FeedGenerator cfg).trace ds
  have hdel : (delivered t).Sublist t := List.filter_sublist
  have hlen : 2 * (({} : FeedGenerator cfg).feed ds).length < 2 ^ 64 := by
    have hle := FeedGenerator.length_feed ({} : FeedGenerator cfg) ds
    omega
  obtain ⟨hh, hlanes⟩ := homing_of_run (h.owned_map hdel) (FeedGenerator.reduceOption_feed _ ds) hlen hrun
  obtain ⟨hinv, hbound⟩ := hlanes i
  have hsub := hinv.applied_sublist.trans (hh.demuxed_sublist i)
  rw [h.shardStream_eq hdel, List.map_map] at hsub
  obtain ⟨got, hgot, happ⟩ := List.sublist_map_iff.1 hsub
  have hmem : ∀ e ∈ got, e ∈ t := fun e he => hdel.subset (List.mem_filter.1 (hgot.subset he)).1
  have hsym : ∀ e ∈ got, symOf e.message.orderId = e.symbol := fun e he => (h.owned e (hmem e he)).2.1
  have happ' : (s.lanes i).applied = (got.map (·.message)).map (queuedAs symOf) := by rw [happ, List.map_map]
  have hobs := hinv.observed (h.stamped.numbered i) (by
    rw [h.shardStream_eq (List.Sublist.refl t)]
    exact (hgot.trans (hdel.filter _)).map _) happ' hbound
  refine ⟨⟨got, hgot, happ.trans (List.map_congr_left fun e he => ?_), fun sym => ?_⟩, fun hlive hfirst => ?_⟩
  · rw [Function.comp_apply, queuedAs, hsym e he]
  · rw [hobs.books, exchangeBooks_eq hsym]
  · rw [hinv.gapDetector_eq happ'] at hlive
    have hpre := (h.stamped.numbered i).prefix_of_live hobs.inOrder (by
      rw [happ', List.map_map] at hfirst
      exact hfirst) hlive
    rw [h.shardStream_eq (List.Sublist.refl t)] at hpre
    obtain ⟨later, hlater⟩ := hpre
    obtain ⟨got', rest, hsplit, hgot', -⟩ := List.map_eq_append_iff.1 hlater.symm
    obtain ⟨pre, post, ht, hpre, -⟩ := List.filter_eq_append_iff.1 hsplit
    have htpre : ∀ e ∈ pre, e ∈ t := fun e he => by rw [ht]; exact List.mem_append_left _ he
    refine ⟨pre, ⟨post, ht.symm⟩, ?_, ?_⟩
    · rw [hpre, happ', List.length_map, ← hgot', List.length_map]
    · rintro sym rfl
      rw [← exchangeBooks_filter (fun e he => (h.owned_shard (htpre e he)).2.2), hpre, hobs.books, ← hgot',
        exchangeBooks_eq fun e he => (h.owned e (htpre e ?_)).2.1]
      rw [← hpre] at he
      exact (List.mem_filter.1 he).1

/-- Three Adds, the last of them lost. -/
def lastLostDraws : List Draw :=
  [{ sampleDraw 0 0 with lossPick := 5 / 8, lossPick_nonneg := by norm_num },
    { sampleDraw 0 0 with lossPick := 5 / 8, lossPick_nonneg := by norm_num }, sampleDraw 0 0]

theorem live_shows_exchange_lossy :
    ∃ s, Runs.exec step (PipelineRunner.start oneShard (({} : FeedGenerator lossyConfig).feed lastLostDraws)) lossyRun =
        some s ∧
      (({} : FeedGenerator lossyConfig).trace lastLostDraws).length = 3 ∧ (s.lanes 0).applied.length = 2 ∧
      (s.lanes 0).Mirrors (({} : FeedGenerator lossyConfig).trace lastLostDraws) 0 := by
  have h : ((Runs.exec step (PipelineRunner.start oneShard (({} : FeedGenerator lossyConfig).feed lastLostDraws))
      lossyRun).map fun s => decide ((s.lanes 0).applied.length = 2)) = some true := by decide +kernel
  obtain ⟨s, hs, hd⟩ := Option.map_eq_some_iff.1 h
  exact ⟨s, hs, by decide +kernel, of_decide_eq_true hd,
    live_shows_exchange oneShard lossyConfig (by decide) lastLostDraws lossyRun s hs 0⟩

end PipelineRunner

/-! ### A run that loses nothing -/

namespace FeedGenerator

/-- The generator after the calls of `next()`. -/
def after (g : FeedGenerator cfg) (ds : List Draw) : FeedGenerator cfg := ds.foldl (fun g d => (g.next d).2) g

/-- The generator lists every live order. -/
def Listed (g : FeedGenerator cfg) (l : Live) : Prop := ∀ id, l id ≠ none → ∃ j, id ∈ g.restingOrdersPerSymbol j

theorem Generated.kept {g : FeedGenerator cfg} {d : Draw} {seq : SeqNum} {m : DecodedMessage} {id' : OrderId}
    {l' : List OrderId} (h : Generated g d seq m id' l') {l : Live} {id : OrderId} (hl : l.apply m id ≠ none)
    (hid : id = m.orderId ∨ m.introduced = some id ∨ id ∈ g.restingOrdersPerSymbol (cfg.symbolIdx d.symbolPick)) :
    id ∈ l' := by
  cases h with
  | add =>
    rcases hid with rfl | hid | hid
    · exact List.mem_append_right _ List.mem_cons_self
    · cases hid
      exact List.mem_append_right _ List.mem_cons_self
    · exact List.mem_append_left _ hid
  | @cancel l₁ l₂ id₀ hr =>
    have hne : id ≠ id₀ := by
      rintro rfl
      exact hl (Function.update_self _ _ _)
    rcases hid with hid | hid | hid
    · exact absurd hid hne
    · cases hid
    · rw [hr, List.mem_append, List.mem_cons] at hid
      rw [List.mem_append]
      exact hid.imp_right (Or.resolve_left · hne)
  | @execute l₁ l₂ id₀ hr =>
    rcases hid with rfl | hid | hid
    · exact List.mem_append_right _ List.mem_cons_self
    · cases hid
    · exact hr ▸ hid
  | @replace l₁ l₂ id₀ hr =>
    by_cases hnew : id = g.nextOrderId
    · rw [hnew]
      exact List.mem_append_right _ List.mem_cons_self
    · have hne : id ≠ id₀ := by
        rintro rfl
        refine hl ?_
        cases hq : l id with
        | none => simp only [Live.apply, hq]
        | some e =>
          simp only [Live.apply, hq]
          rw [Function.update_of_ne hnew, Function.update_self]
      rcases hid with hid | hid | hid
      · exact absurd hid hne
      · cases hid
        exact absurd rfl hnew
      · rw [hr, List.mem_append, List.mem_cons] at hid
        rw [List.mem_append, List.mem_cons]
        exact hid.imp_right fun h => .inr (h.resolve_left hne)

theorem Listed.emit {g : FeedGenerator cfg} {l : Live} (h : g.Listed l)
    (hseqs : ∀ i, (g.nextSeqPerShard i).toNat ≤ g.emittedCount.toNat) (he : g.emittedCount < cfg.messageCount) (d : Draw) :
    (g.emit d).2.Listed (l.apply (g.emit d).1) := by
  obtain ⟨id', l', hg, -, hids, -⟩ := emit_spec hseqs he d
  intro id hid
  rw [hids]
  by_cases hown : id = (g.emit d).1.orderId ∨ (g.emit d).1.introduced = some id
  · refine ⟨cfg.symbolIdx d.symbolPick, ?_⟩
    rw [Function.update_self]
    exact hg.kept hid (hown.imp_right .inl)
  · rw [not_or] at hown
    have hl := hid
    rw [Live.apply_of_ne hown.1 hown.2] at hl
    obtain ⟨j, hj⟩ := h id hl
    refine ⟨j, ?_⟩
    rw [Function.update_apply]
    split
    · next e => exact hg.kept hid (.inr (.inr (e ▸ hj)))
    · exact hj

end FeedGenerator

namespace Exchange
variable {g : FeedGenerator cfg} {l : Live} {ms : List DecodedMessage} {k : Nat} {books : Books}

theorem run (h : Exchange g l ms k books) (hl : g.Listed l) (ds : List Draw)
    (hu : FeedGenerator.Unfilled (ms ++ g.messages ds)) :
    ∃ l' k', Exchange (g.after ds) l' (ms ++ g.messages ds) k' (books.applyAll (g.trace ds)) ∧ (g.after ds).Listed l' := by
  induction ds generalizing g l ms k books with
  | nil =>
    rw [FeedGenerator.messages, List.append_nil]
    exact ⟨l, k, h, hl⟩
  | cons d ds ih =>
    by_cases he : g.emittedCount < cfg.messageCount
    · rw [FeedGenerator.messages, if_neg (UInt64.not_le.2 he), ← List.singleton_append, ← List.append_assoc] at hu
      obtain ⟨k', h'⟩ := h.emit he hu.left
      obtain ⟨c, hc⟩ := FeedGenerator.next_state he d
      have h₁ := h'.of_totalDropped c
      have hl₁ : (g.next d).2.Listed (l.apply (g.emit d).1) := by
        rw [hc]
        exact hl.emit h.seqs he d
      rw [← hc] at h₁
      obtain ⟨l'', k'', h₂, hl₂⟩ := ih h₁ hl₁ hu
      rw [FeedGenerator.messages, FeedGenerator.trace, if_neg (UInt64.not_le.2 he), if_neg (UInt64.not_le.2 he)]
      refine ⟨l'', k'', ?_, hl₂⟩
      rw [List.append_assoc] at h₂
      exact h₂
    · have ht : g.trace (d :: ds) = [] := by rw [FeedGenerator.trace, if_pos (UInt64.not_lt.1 he)]
      have hg : ∀ ds : List Draw, g.after ds = g := by
        intro ds
        induction ds with
        | nil => rfl
        | cons d ds ih =>
          show (g.next d).2.after ds = g
          rw [FeedGenerator.next, if_pos (UInt64.not_lt.1 he)]
          exact ih
      rw [ht, (FeedGenerator.exhausted he _).2, List.append_nil, hg]
      exact ⟨l, k, h, hl⟩

theorem hasOrder_iff_listed (h : Exchange g l ms k books) (hl : g.Listed l) (sym : Symbol) (id : OrderId) :
    (books sym).hasOrder id = true ↔ ∃ j, cfg.symbols.get j = sym ∧ id ∈ g.restingOrdersPerSymbol j := by
  rw [h.hasOrder_iff]
  constructor
  · rintro ⟨q, hq⟩
    obtain ⟨j, hj⟩ := hl id (by rw [hq]; exact Option.some_ne_none _)
    obtain ⟨q', hq', -⟩ := h.resting hj
    rw [hq] at hq'
    cases hq'
    exact ⟨j, rfl, hj⟩
  · rintro ⟨j, rfl, hj⟩
    obtain ⟨q, hq, -⟩ := h.resting hj
    exact ⟨q, hq⟩

end Exchange

theorem CoherentAt.references {b : OrderBook} {m : DecodedMessage} (h : CoherentAt b m) : References b m := by
  cases m with
  | add a => trivial
  | cancel c => exact h.rests nofun
  | execute x =>
    obtain ⟨o, ho, hle, -⟩ := h.executed x rfl
    exact ⟨o, ho, hle⟩
  | replace r => exact h.rests nofun

namespace FeedGenerator
variable {g : FeedGenerator cfg} {symOf : OrderId → Symbol} {k : Nat}

/-- A feed that fills no order is valid. -/
theorem Stamping.validFeed {ds : List Draw} (h : Stamping g symOf (({} : FeedGenerator cfg).trace ds) k)
    (hu : Unfilled (({} : FeedGenerator cfg).messages ds)) :
    ValidFeed symOf ((({} : FeedGenerator cfg).trace ds).map (·.message)) := by
  refine ⟨h.owned_map (List.Sublist.refl _), ?_, fun pre m post hs => ?_⟩
  · rw [List.filterMap_map]
    exact h.distinct
  · obtain ⟨pre', rest, ht, rfl, hrest⟩ := List.map_eq_append_iff.1 hs
    obtain ⟨e, post', rfl, rfl, -⟩ := List.map_eq_cons_iff.1 hrest
    have hmem : ∀ e' ∈ pre' ++ e :: post', symOf e'.message.orderId = e'.symbol := fun e' he' =>
      (h.owned e' (ht ▸ he')).2.1
    have hc := (Exchange.init.trace_iff ds).2 hu pre' e post' ht
    rw [hmem e (by simp), ← exchangeBooks_eq fun e' he' => hmem e' (List.mem_append_left _ he')]
    exact hc.references

theorem side_of_trace (g : FeedGenerator cfg) (ds : List Draw) {e : StampedMessage cfg} (he : e ∈ g.trace ds)
    {a : AddOrder} (ha : e.message = .add a) : a.side.Defined := by
  induction ds generalizing g with
  | nil => cases he
  | cons d ds ih =>
    rw [trace] at he
    split at he
    · cases he
    · rcases List.mem_cons.1 he with rfl | he
      · have hm : (g.emit d).1 = .add a := ha
        unfold emit generateNextMessage at hm
        dsimp only at hm
        split_ifs at hm
        cases hm
        show (sideOf _).Defined
        unfold sideOf
        split
        · exact .inl rfl
        · exact .inr rfl
      · exact ih _ he

end FeedGenerator

namespace PipelineRunner

/-- The pipeline shows what the exchange shows after its messages `t`, and the routes are its resting orders. -/
structure Agrees {n : NumShards} {cfg : Config n.1} (g : FeedGenerator cfg) (t : List (StampedMessage cfg)) (s : PipelineRunner n) : Prop where
  books : ∀ sym, s.book sym = exchangeBooks t sym
  routes : ∀ id, s.orderRoute.contains id = true ↔ ∃ j, id ∈ g.restingOrdersPerSymbol j
  sinks : ∀ sym, (s.laneOf sym).outputQueue.mem.droppedUpdatesTotal = 0 →
    ∀ key, replaySink (s.laneOf sym).sink (sym, key) = (exchangeBooks t sym).1.levelTotals key

/-- For every configuration and all draws that lose no packet and fill no order, and any interleaving in which no
input queue evicts: every shard stays live and every book is at every moment the exchange's after some of its
messages; and when the threads have ended, unless stopped, the pipeline agrees with the exchange. -/
theorem lossless_shows_exchange (n : NumShards) (cfg : Config n.1) (hcount : cfg.messageCount.toNat < 2 ^ 63) (ds : List Draw)
    (hlost : ∀ e ∈ ({} : FeedGenerator cfg).trace ds, e.lost = false)
    (hu : FeedGenerator.Unfilled (({} : FeedGenerator cfg).messages ds)) (acts : List (Actor n))
    (s : PipelineRunner n)
    (hrun : Runs.exec step (PipelineRunner.start n (({} : FeedGenerator cfg).feed ds)) acts = some s)
    (hkept : ∀ i, (s.lanes i).queue.evicted = []) :
    (∀ i, (s.lanes i).state.gapDetector.state = .live ∧ (s.lanes i).state.gapDetector.sequenceGapsTotal = 0) ∧
      (∀ sym, ∃ pre, pre <+: ({} : FeedGenerator cfg).trace ds ∧ s.book sym = exchangeBooks pre sym) ∧
      ((∀ i, (s.lanes i).publisher = .left) → s.stopRequested = false →
        s.Agrees (({} : FeedGenerator cfg).after ds) (({} : FeedGenerator cfg).trace ds)) := by
  have h₀ : FeedGenerator.Stamping ({} : FeedGenerator cfg) (fun _ => default) [] 1 := .init _
  obtain ⟨g', symOf, k, hst⟩ := h₀.trace ds
  rw [List.nil_append] at hst
  have hv := hst.validFeed hu
  have hfeed := FeedGenerator.reduceOption_feed ({} : FeedGenerator cfg) ds
  have hall : delivered (({} : FeedGenerator cfg).trace ds) = ({} : FeedGenerator cfg).trace ds :=
    List.filter_eq_self.2 fun e he => by rw [hlost e he]; rfl
  have hlen := FeedGenerator.length_feed ({} : FeedGenerator cfg) ds
  obtain ⟨l, k', hx, hl⟩ := Exchange.init.run (fun _ h => absurd rfl h) ds hu
  have hsides := fun e => FeedGenerator.side_of_trace ({} : FeedGenerator cfg) ds (e := e)
  set t := ({} : FeedGenerator cfg).trace ds
  rw [hall] at hfeed
  have hsym : ∀ e ∈ t, symOf e.message.orderId = e.symbol := fun e he => (hst.owned e he).2.1
  obtain ⟨hloss, h, hended⟩ := onFeed_of_run hv hfeed (by omega) hrun hkept
  obtain ⟨taken, rest, htaken, hunread, hfol⟩ := h.follows
  rw [← htaken] at hv
  have hin := h.inStep hloss hfol hv.left (Stamped.left (htaken ▸ hst.stamped))
  refine ⟨hin.live, fun sym => ?_, fun hexit hstop => ?_⟩
  · obtain ⟨pre, ⟨post, hpre⟩, hbook⟩ := hin.books sym
    rw [← hpre, List.append_assoc] at htaken
    obtain ⟨pre', post', ht, hpre', -⟩ := List.map_eq_append_iff.1 htaken.symm
    refine ⟨pre', ⟨post', ht.symm⟩, ?_⟩
    rw [hbook, exchangeBooks_eq fun e he => hsym e (by rw [ht]; exact List.mem_append_left _ he), hpre']
  · have hc := h.complete hloss hfol hv.left hexit
    rw [h.unread_eq_nil hended hexit hstop] at hunread
    rw [List.map_eq_nil_iff.1 hunread.symm, List.append_nil] at htaken
    subst htaken
    have hbooks : ∀ sym, s.book sym = exchangeBooks t sym := fun sym => by
      rw [hc.books, exchangeBooks_eq hsym]
    refine ⟨hbooks, fun id => ?_, fun sym h0 key => ?_⟩
    · rw [contains_iff]
      constructor
      · rintro ⟨dest, hdest⟩
        obtain ⟨-, hid⟩ := (hc.routes id dest).1 hdest
        rw [hbooks] at hid
        obtain ⟨j, -, hj⟩ := (hx.hasOrder_iff_listed hl _ _).1 hid
        exact ⟨j, hj⟩
      · rintro ⟨j, hj⟩
        have hid := (hx.hasOrder_iff_listed hl (cfg.symbols.get j) id).2 ⟨j, rfl, hj⟩
        refine ⟨⟨shardForSymbol n (cfg.symbols.get j), cfg.symbols.get j⟩, (hc.routes id _).2 ⟨rfl, ?_⟩⟩
        rw [hbooks]
        exact hid
    · rw [exchangeBooks_eq hsym]
      refine hc.sinks (fun a ha => ?_) sym h0 key
      obtain ⟨e, he, hea⟩ := List.mem_map.1 ha
      exact hsides e he hea

/-- Two Adds and the Cancel of the first of them. -/
def cancelDraws : List Draw := [sampleDraw 0 0, sampleDraw 0 0, sampleDraw (5 / 8) 0]

/-- One thread after the other. -/
def sequentialRun : List (Actor oneShard) :=
  List.replicate 38 .net ++ List.replicate 69 (.decoder 0) ++ List.replicate 40 (.publisher 0)

theorem lossless_shows_exchange_cancel :
    ∃ s, Runs.exec step (PipelineRunner.start oneShard (({} : FeedGenerator sampleConfig).feed cancelDraws))
        sequentialRun = some s ∧
      s.Agrees (({} : FeedGenerator sampleConfig).after cancelDraws) (({} : FeedGenerator sampleConfig).trace cancelDraws) := by
  have h : ((Runs.exec step (PipelineRunner.start oneShard (({} : FeedGenerator sampleConfig).feed cancelDraws))
      sequentialRun).map fun s => decide ((∀ i, (s.lanes i).publisher = .left) ∧ s.stopRequested = false ∧
        ∀ i, (s.lanes i).queue.evicted = [])) = some true := by decide +kernel
  have hnone : ∀ m ∈ ({} : FeedGenerator sampleConfig).messages cancelDraws, ∀ x, m ≠ .execute x := by
    have hm : ({} : FeedGenerator sampleConfig).messages cancelDraws =
        [.add ⟨1, 1, sampleSymbol, .sell, 101, 11, 1⟩, .add ⟨2, 2, sampleSymbol, .buy, 102, 12, 2⟩, .cancel ⟨3, 1, 3⟩] := by
      decide +kernel
    rw [hm]
    simp
  obtain ⟨s, hs, hd⟩ := Option.map_eq_some_iff.1 h
  obtain ⟨hexit, hstop, hkept⟩ := of_decide_eq_true hd
  have hu : FeedGenerator.Unfilled (({} : FeedGenerator sampleConfig).messages cancelDraws) := by
    intro id
    have hzero : FeedGenerator.executionsOf id (({} : FeedGenerator sampleConfig).messages cancelDraws) = 0 := by
      refine List.countP_eq_zero.2 fun m hm => ?_
      cases m with
      | execute x => exact absurd rfl (hnone _ hm x)
      | _ => exact Bool.false_ne_true
    rw [hzero, FeedGenerator.quantityOf_toNat]
    omega
  exact ⟨s, hs, (lossless_shows_exchange oneShard sampleConfig (by decide) cancelDraws (by decide +kernel) hu sequentialRun s hs
    hkept).2.2 hexit hstop⟩

end PipelineRunner

end Mdfh
