import Mdfh.Io.FeedRuns

/-!
# The shard a message is stamped for is the shard it is queued on

The generator stamps a message with the next number of the shard its symbol hashes to; `demux` recovers
symbol and shard of a Cancel, Execute or Replace from the order id. `trace` records, for every generated
message, the symbol and the shard it was generated for and whether it was lost. The order ids it hands out
are all new, so one assignment of symbols to ids explains the whole trace (`Stamping`); a route the
pipeline ever holds follows that assignment, whatever was lost and whatever was processed in between.
-/

namespace Mdfh
open LittleEndian (Bytes)
open FeedGenerator (Config Draw Generated symbolOf shardOf)

variable {numShards : Nat} {cfg : Config numShards}

theorem Owned.congr {symOf symOf' : OrderId → Symbol} {m : DecodedMessage} (h : Owned symOf m)
    (ho : symOf' m.orderId = symOf m.orderId) (hi : ∀ id, m.introduced = some id → symOf' id = symOf id) :
    Owned symOf' m := by
  cases m with
  | add a => exact Eq.trans h ho.symm
  | cancel c => trivial
  | execute x => trivial
  | replace x => exact (hi _ rfl).trans (Eq.trans h ho.symm)

namespace FeedGenerator

/-- A generated message with the symbol it was picked for and the shard whose counter stamped it. -/
structure StampedMessage {numShards : Nat} (cfg : Config numShards) where
  symbol : Symbol
  shard : Fin numShards
  message : DecodedMessage
  lost : Bool
deriving DecidableEq

/-- What a call of `next()` that is not exhausted generates. -/
def stamp (g : FeedGenerator cfg) (d : Draw) : StampedMessage cfg where
  symbol := symbolOf cfg d
  shard := shardOf cfg d
  message := (g.emit d).1
  lost := d.lossPick < cfg.packetLossRate

/-- The messages generated by the calls of `next()`, lost ones included. -/
def trace (g : FeedGenerator cfg) : List Draw → List (StampedMessage cfg)
  | [] => []
  | d :: ds => if g.emittedCount ≥ cfg.messageCount then [] else g.stamp d :: (g.next d).2.trace ds

/-- The messages that get through. -/
def delivered (t : List (StampedMessage cfg)) : List (StampedMessage cfg) := t.filter (!·.lost)

theorem next_bytes {g : FeedGenerator cfg} (h : g.emittedCount < cfg.messageCount) (d : Draw) :
    (g.next d).1.bytes = if (g.stamp d).lost then none else some (g.stamp d).message.packet := by
  rw [next, if_neg (UInt64.not_le.2 h)]
  unfold stamp
  dsimp only
  by_cases hl : d.lossPick < cfg.packetLossRate
  · simp only [hl, if_true, decide_true]
  · simp only [hl, if_false, decide_false, Bool.false_eq_true]
    rfl

theorem next_state {g : FeedGenerator cfg} (h : g.emittedCount < cfg.messageCount) (d : Draw) :
    ∃ c, (g.next d).2 = { (g.emit d).2 with totalDropped := c } := by
  rw [next, if_neg (UInt64.not_le.2 h)]
  dsimp only
  split
  · exact ⟨_, rfl⟩
  · exact ⟨(g.emit d).2.totalDropped, rfl⟩

theorem packets_eq_trace (g : FeedGenerator cfg) (ds : List Draw) :
    g.packets ds = (delivered (g.trace ds)).map (·.message.packet) := by
  induction ds generalizing g with
  | nil => rfl
  | cons d ds ih =>
    by_cases h : g.emittedCount < cfg.messageCount
    · rw [packets, trace, if_neg (UInt64.not_le.2 h), ih, next_bytes h]
      unfold delivered
      rw [List.filter_cons]
      cases (g.stamp d).lost <;> simp
    · rw [(exhausted h _).1, trace, if_pos (UInt64.not_lt.1 h)]
      rfl

/-! ### One assignment of symbols for the whole trace -/

/-- The generator after the messages of `t`: `symOf` has the symbol of every id so far, ids from `k` on are still to
come, and a shard's messages are numbered from one. -/
structure Stamping (g : FeedGenerator cfg) (symOf : OrderId → Symbol) (t : List (StampedMessage cfg)) (k : Nat) : Prop where
  emitted : g.emittedCount.toNat = t.length
  next : g.nextOrderId = UInt64.ofNat k
  next_le : k ≤ t.length + 1
  seqs : ∀ i, (g.nextSeqPerShard i).toNat = (t.filter (·.shard = i)).length
  numbered : ∀ i (j : Nat) e, (t.filter (·.shard = i))[j]? = some e → e.message.seqNum.toNat = j + 1
  distinct : (t.filterMap (·.message.introduced)).Nodup
  known : ∀ e ∈ t, e.message.orderId.toNat < k ∧ ∀ id, e.message.introduced = some id → id.toNat < k
  owned : ∀ e ∈ t, Owned symOf e.message ∧ symOf e.message.orderId = e.symbol ∧
    e.shard = shardForSymbolIn cfg.numShards_pos e.symbol
  resting : ∀ j, ∀ id ∈ g.restingOrdersPerSymbol j, id.toNat < k ∧ symOf id = cfg.symbols.get j

/-- A generated message introduces at most the next id, and speaks of an order on the list of its symbol otherwise. -/
theorem Generated.ids {g : FeedGenerator cfg} {d : Draw} {seq : SeqNum} {m : DecodedMessage} {id' : OrderId}
    {l' : List OrderId} (h : Generated g d seq m id' l') :
    (∀ id ∈ l', id ∈ g.restingOrdersPerSymbol (cfg.symbolIdx d.symbolPick) ∨ m.introduced = some id) ∧
      (m.introduced = none ∧ id' = g.nextOrderId ∨ m.introduced = some g.nextOrderId ∧ id' = g.nextOrderId + 1) ∧
      (m.orderId ∈ g.restingOrdersPerSymbol (cfg.symbolIdx d.symbolPick) ∧ (∀ a, m ≠ .add a) ∨
        ∃ a, m = .add a ∧ a.orderId = g.nextOrderId ∧ a.symbol = symbolOf cfg d) := by
  cases h with
  | add =>
    refine ⟨fun id hid => ?_, .inr ⟨rfl, rfl⟩, .inr ⟨_, rfl, rfl, rfl⟩⟩
    rcases List.mem_append.1 hid with hid | hid
    · exact .inl hid
    · rw [List.mem_singleton.1 hid]
      exact .inr rfl
  | cancel hl =>
    refine ⟨fun id hid => .inl ?_, .inl ⟨rfl, rfl⟩, .inl ⟨?_, by simp⟩⟩
    · rw [hl]
      exact List.mem_append.2 ((List.mem_append.1 hid).imp_right (List.mem_cons_of_mem _))
    · simp [hl, DecodedMessage.orderId]
  | execute hl =>
    refine ⟨fun id hid => .inl ?_, .inl ⟨rfl, rfl⟩, .inl ⟨?_, by simp⟩⟩
    · rw [hl]
      exact hid
    · simp [hl, DecodedMessage.orderId]
  | replace hl =>
    refine ⟨fun id hid => ?_, .inr ⟨rfl, rfl⟩, .inl ⟨?_, by simp⟩⟩
    · rw [hl]
      rcases List.mem_append.1 hid with hid | hid
      · exact .inl (List.mem_append_left _ hid)
      · rcases List.mem_cons.1 hid with rfl | hid
        · exact .inr rfl
        · exact .inl (List.mem_append_right _ (List.mem_cons_of_mem _ hid))
    · simp [hl, DecodedMessage.orderId]

namespace Stamping
variable {g : FeedGenerator cfg} {symOf : OrderId → Symbol} {t : List (StampedMessage cfg)} {k : Nat} {d : Draw}

theorem init (symOf : OrderId → Symbol) : Stamping ({} : FeedGenerator cfg) symOf [] 1 := by
  refine ⟨rfl, rfl, le_rfl, fun i => rfl, ?_, List.nodup_nil, ?_, ?_, ?_⟩
  · intro i j e he
    simp at he
  · intro e he
    cases he
  · intro e he
    cases he
  · intro j id hid
    cases hid

theorem of_totalDropped (h : Stamping g symOf t k) (c : UInt64) : Stamping { g with totalDropped := c } symOf t k :=
  ⟨h.emitted, h.next, h.next_le, h.seqs, h.numbered, h.distinct, h.known, h.owned, h.resting⟩

/-- `symOf` with the symbol of the id the message introduces. -/
def extend (symOf : OrderId → Symbol) (m : DecodedMessage) (sym : Symbol) : OrderId → Symbol :=
  fun id => if m.introduced = some id then sym else symOf id

theorem filter_snoc (t : List (StampedMessage cfg)) (e : StampedMessage cfg) (i : Fin numShards) :
    (t ++ [e]).filter (·.shard = i) = t.filter (·.shard = i) ++ if i = e.shard then [e] else [] := by
  rw [List.filter_append]
  by_cases hi : e.shard = i
  · simp [hi]
  · simp [hi, Ne.symm hi]

theorem numbered_snoc {l : List (StampedMessage cfg)} (h : ∀ (j : Nat) e, l[j]? = some e → e.message.seqNum.toNat = j + 1)
    {e : StampedMessage cfg} (he : e.message.seqNum.toNat = l.length + 1) (j : Nat) (e' : StampedMessage cfg)
    (hj : (l ++ [e])[j]? = some e') : e'.message.seqNum.toNat = j + 1 := by
  rcases Nat.lt_trichotomy j l.length with hlt | rfl | hgt
  · rw [List.getElem?_append_left hlt] at hj
    exact h j e' hj
  · rw [List.getElem?_concat_length, Option.some.injEq] at hj
    exact hj ▸ he
  · rw [List.getElem?_eq_none (by rw [List.length_append, List.length_singleton]; omega)] at hj
    cases hj

section Generated
variable {seq : SeqNum} {m : DecodedMessage} {id' : OrderId} {l' : List OrderId}

theorem next_id (h : Stamping g symOf t k) (hk : k < 2 ^ 64) (hg : Generated g d seq m id' l') :
    ∃ k', k ≤ k' ∧ k' ≤ k + 1 ∧ id' = UInt64.ofNat k' ∧ ∀ id, m.introduced = some id → id.toNat = k ∧ k < k' := by
  have hnew : g.nextOrderId.toNat = k := by rw [h.next, UInt64.toNat_ofNat', Nat.mod_eq_of_lt hk]
  rcases hg.ids.2.1 with ⟨hn, he⟩ | ⟨hs, he⟩
  · exact ⟨k, le_rfl, Nat.le_succ k, he.trans h.next, fun id e => by rw [hn] at e; cases e⟩
  · refine ⟨k + 1, Nat.le_succ k, le_rfl, ?_, fun id e => ?_⟩
    · rw [he, UInt64.ofNat_add]
      exact congrArg (· + 1) h.next
    · rw [hs, Option.some.injEq] at e
      exact ⟨e ▸ hnew, Nat.lt_succ_self k⟩

variable {k' : Nat} (hle : k ≤ k') (hk' : ∀ id, m.introduced = some id → id.toNat = k ∧ k < k')
include hk'

/-- The assignment is extended at an id that nothing so far mentions. -/
theorem extend_of_lt {sym : Symbol} {id : OrderId} (hlt : id.toNat < k) : extend symOf m sym id = symOf id :=
  if_neg fun e => absurd (hk' id e).1 (Nat.ne_of_lt hlt)

include hle

theorem extend_orderId (h : Stamping g symOf t k) (hg : Generated g d seq m id' l') :
    extend symOf m (symbolOf cfg d) m.orderId = symbolOf cfg d ∧ m.orderId.toNat < k' := by
  rcases hg.ids.2.2 with ⟨hmem, -⟩ | ⟨a, rfl, -, -⟩
  · obtain ⟨hlt, hs⟩ := h.resting _ _ hmem
    exact ⟨(extend_of_lt hk' hlt).trans hs, by omega⟩
  · obtain ⟨h₁, h₂⟩ := hk' a.orderId rfl
    refine ⟨if_pos rfl, ?_⟩
    show a.orderId.toNat < k'
    omega

theorem owned_extend (h : Stamping g symOf t k) (hg : Generated g d seq m id' l') :
    Owned (extend symOf m (symbolOf cfg d)) m := by
  have hsym := (extend_orderId hle hk' h hg).1
  rcases hg.ids.2.2 with ⟨-, hna⟩ | ⟨a, rfl, -, hs⟩
  · cases m with
    | add a => exact absurd rfl (hna a)
    | cancel c => trivial
    | execute x => trivial
    | replace x => exact (if_pos rfl).trans hsym.symm
  · exact hs.trans hsym.symm

theorem resting_extend (h : Stamping g symOf t k) (hg : Generated g d seq m id' l') (j : Fin cfg.symbols.length)
    {id : OrderId} (hid : id ∈ Function.update g.restingOrdersPerSymbol (cfg.symbolIdx d.symbolPick) l' j) :
    id.toNat < k' ∧ extend symOf m (symbolOf cfg d) id = cfg.symbols.get j := by
  have hkeep : ∀ j, id ∈ g.restingOrdersPerSymbol j → id.toNat < k' ∧
      extend symOf m (symbolOf cfg d) id = cfg.symbols.get j := by
    intro j hmem
    obtain ⟨hlt, hs⟩ := h.resting j id hmem
    exact ⟨by omega, (extend_of_lt hk' hlt).trans hs⟩
  rw [Function.update_apply] at hid
  split at hid
  · next hj =>
    subst hj
    rcases hg.ids.1 id hid with hmem | hi
    · exact hkeep _ hmem
    · have := hk' id hi
      exact ⟨by omega, if_pos hi⟩
  · exact hkeep j hid

end Generated

theorem emit (h : Stamping g symOf t k) (he : g.emittedCount < cfg.messageCount) (d : Draw) :
    ∃ k', Stamping (g.emit d).2 (extend symOf (g.emit d).1 (symbolOf cfg d)) (t ++ [g.stamp d]) k' := by
  have hseqs : ∀ i, (g.nextSeqPerShard i).toNat ≤ g.emittedCount.toNat := by
    intro i
    rw [h.seqs, h.emitted]
    exact List.length_filter_le _ _
  obtain ⟨id', l', hg, hid, hl, hcount, hseq, hnext⟩ := emit_spec hseqs he d
  have hk : k < 2 ^ 64 := id_lt (h.emitted ▸ h.next_le) he
  obtain ⟨k', hle, hle', hid', hk'⟩ := h.next_id hk hg
  obtain ⟨hsym, hlt⟩ := extend_orderId hle hk' h hg
  refine ⟨k', ?_, hid.trans hid', ?_, ?_, ?_, ?_, ?_, ?_, ?_⟩
  · rw [hcount, h.emitted, List.length_append]
    rfl
  · have := h.next_le
    rw [List.length_append, List.length_singleton]
    omega
  · intro i
    rw [hnext, filter_snoc, List.length_append, h.seqs]
    show _ + _ = _ + (if i = shardOf cfg d then [g.stamp d] else []).length
    split <;> rfl
  · intro i j e hj
    rw [filter_snoc] at hj
    split at hj
    · next hi =>
      refine numbered_snoc (h.numbered i) ?_ j e hj
      rw [← h.seqs, hi]
      exact hseq
    · rw [List.append_nil] at hj
      exact h.numbered i j e hj
  · rw [List.filterMap_append, List.nodup_append]
    refine ⟨h.distinct, ?_, fun id hid id₁ hid₁ => ?_⟩
    · cases hi : (g.stamp d).message.introduced <;> simp [hi]
    · obtain ⟨e, het, hei⟩ := List.mem_filterMap.1 hid
      obtain ⟨e₁, het₁, hei₁⟩ := List.mem_filterMap.1 hid₁
      rw [List.mem_singleton.1 het₁] at hei₁
      have h₁ := (h.known e het).2 id hei
      have h₂ := (hk' id₁ hei₁).1
      intro heq
      rw [heq] at h₁
      omega
  · intro e het
    rcases List.mem_append.1 het with het | het
    · obtain ⟨h₁, h₂⟩ := h.known e het
      exact ⟨by omega, fun id hi => (h₂ id hi).trans_le hle⟩
    · rw [List.mem_singleton.1 het]
      exact ⟨hlt, fun id hi => by have := hk' id hi; omega⟩
  · intro e het
    rcases List.mem_append.1 het with het | het
    · obtain ⟨ho, hs, hsh⟩ := h.owned e het
      obtain ⟨h₁, h₂⟩ := h.known e het
      exact ⟨ho.congr (extend_of_lt hk' h₁) fun id hi => extend_of_lt hk' (h₂ id hi), (extend_of_lt hk' h₁).trans hs, hsh⟩
    · rw [List.mem_singleton.1 het]
      exact ⟨owned_extend hle hk' h hg, hsym, rfl⟩
  · intro j id hid
    rw [hl] at hid
    exact resting_extend hle hk' h hg j hid

theorem trace (h : Stamping g symOf t k) (ds : List Draw) :
    ∃ (g' : FeedGenerator cfg) (symOf' : OrderId → Symbol) (k' : Nat), Stamping g' symOf' (t ++ g.trace ds) k' := by
  induction ds generalizing g symOf t k with
  | nil => exact ⟨g, symOf, k, by rw [FeedGenerator.trace, List.append_nil]; exact h⟩
  | cons d ds ih =>
    rw [FeedGenerator.trace]
    split
    · exact ⟨g, symOf, k, by rw [List.append_nil]; exact h⟩
    · next he =>
      have he' := UInt64.not_le.1 he
      obtain ⟨k', h'⟩ := h.emit he' d
      obtain ⟨c, hc⟩ := next_state he' d
      have := h'.of_totalDropped c
      rw [← hc] at this
      obtain ⟨g'', symOf'', k'', h''⟩ := ih this
      exact ⟨g'', symOf'', k'', by rwa [List.append_assoc] at h''⟩

theorem owned_shard {n : NumShards} {cfg : Config n.1} {g : FeedGenerator cfg} {t : List (StampedMessage cfg)}
    (h : Stamping g symOf t k) {e : StampedMessage cfg} (he : e ∈ t) :
    Owned symOf e.message ∧ symOf e.message.orderId = e.symbol ∧ e.shard = shardForSymbol n e.symbol :=
  h.owned e he

end Stamping

end FeedGenerator

/-! ### Routes under the feed -/

section Routes
variable {n : NumShards} {symOf : OrderId → Symbol} {r : Run n}

theorem RouteOk.step (h : RouteOk symOf r.pipeline.orderRoute) {op : Op n}
    (ho : ∀ raw, op = .demux raw → ∀ m, decode raw = .ok m → Owned symOf m) :
    RouteOk symOf (r.step op).pipeline.orderRoute := by
  cases op with
  | demux raw =>
    show RouteOk symOf (r.pipeline.demux raw).2.orderRoute
    rcases ShardedPipeline.demux_cases h (ho raw rfl) with ⟨e, he, -⟩ | ⟨m, hm, -, he⟩
    · rw [he]
      exact h
    · rw [he]
      exact h.after (ho raw rfl m hm)
  | process i =>
    rcases r.step_process i with ⟨-, hr⟩ | ⟨qm, result, p', hp, hr⟩
    · rw [hr]
      exact h
    · rw [hr, hp.orderRoute]
      exact h.eraseFilled _ _
  | publish i => exact h
  | resync i s => exact h

theorem RouteOk.exec (h : RouteOk symOf r.pipeline.orderRoute) {ops : List (Op n)}
    (ho : ∀ raw ∈ packetsOf ops, ∀ m, decode raw = .ok m → Owned symOf m) :
    RouteOk symOf (r.exec ops).pipeline.orderRoute := by
  induction ops generalizing r with
  | nil => exact h
  | cons op ops ih =>
    refine ih (r := r.step op) (h.step ?_) fun raw hraw => ho raw ?_
    · rintro raw rfl
      exact ho raw List.mem_cons_self
    · exact (List.sublist_cons_self op ops).filterMap _ |>.subset hraw

end Routes

open FeedGenerator in
/-- A shard's counter stamps `1, 2, 3, …`, the introduced ids are distinct, and in every schedule of the delivered packets a
message that `demux` takes is queued on the shard that stamped it, under the symbol it was generated for. -/
theorem feed_routed (n : NumShards) (cfg : Config n.1) (ds : List Draw) :
    (∀ i (j : Nat) e, ((({} : FeedGenerator cfg).trace ds).filter (·.shard = i))[j]? = some e →
      e.message.seqNum.toNat = j + 1) ∧
    ((({} : FeedGenerator cfg).trace ds).filterMap (·.message.introduced)).Nodup ∧
    ∀ (pre post : List (Op n)) raw,
      packetsOf (pre ++ .demux raw :: post) <+: ({} : FeedGenerator cfg).packets ds →
      ∃ e, (delivered (({} : FeedGenerator cfg).trace ds))[(packetsOf pre).length]? = some e ∧ raw = e.message.packet ∧
        ∀ i p', (Run.exec {} pre).pipeline.demux raw = (.ok i, p') →
          i = e.shard ∧ ∀ j, (p'.shards j).queue =
            if j = e.shard then ((Run.exec {} pre).pipeline.shards j).queue.push ⟨e.symbol, e.message⟩
            else ((Run.exec {} pre).pipeline.shards j).queue := by
  have h₀ : Stamping ({} : FeedGenerator cfg) (fun _ => default) [] 1 := .init _
  obtain ⟨g', symOf, k, h⟩ := h₀.trace ds
  rw [List.nil_append] at h
  refine ⟨h.numbered, h.distinct, fun pre post raw hp => ?_⟩
  obtain ⟨rest, hrest⟩ := hp
  have hpre : packetsOf (pre ++ .demux raw :: post) = packetsOf pre ++ raw :: packetsOf post := List.filterMap_append
  rw [packets_eq_trace, hpre, List.append_assoc, List.cons_append] at hrest
  have hget := congrArg (·[(packetsOf pre).length]?) hrest
  simp only [List.getElem?_append_right (Nat.le_refl _), Nat.sub_self, List.getElem?_cons_zero, List.getElem?_map] at hget
  obtain ⟨e, he, hraw⟩ := Option.map_eq_some_iff.1 hget.symm
  refine ⟨e, he, hraw.symm, fun i p' hdem => ?_⟩
  -- whatever was sent so far is owned
  have howned : ∀ raw', raw' ∈ packetsOf pre ∨ raw' = raw → ∀ m, decode raw' = .ok m → Owned symOf m := by
    intro raw' hmem m hm
    have hmem' : raw' ∈ (delivered (({} : FeedGenerator cfg).trace ds)).map (·.message.packet) := by
      rw [← hrest]
      rcases hmem with hmem | rfl
      · exact List.mem_append_left _ hmem
      · exact List.mem_append_right _ List.mem_cons_self
    obtain ⟨e', he', rfl⟩ := List.mem_map.1 hmem'
    rw [DecodedMessage.decode_packet] at hm
    cases hm
    exact (h.owned e' (List.mem_filter.1 he').1).1
  have hroute : RouteOk symOf (Run.exec {} pre : Run n).pipeline.orderRoute :=
    RouteOk.exec (r := {}) .empty fun raw' hmem => howned raw' (.inl hmem)
  obtain ⟨-, hsym, hshard⟩ := h.owned_shard (List.mem_filter.1 (List.mem_of_getElem? he)).1
  rcases ShardedPipeline.demux_cases hroute (howned raw (.inr rfl)) with ⟨err, herr, -⟩ | ⟨m, hm, -, hok⟩
  · rw [herr] at hdem
    cases hdem
  · rw [← hraw, DecodedMessage.decode_packet] at hm
    cases hm
    rw [hok] at hdem
    obtain ⟨hi, rfl⟩ := Prod.mk.inj hdem
    rw [hsym, ← hshard] at hi ⊢
    refine ⟨(Except.ok.inj hi).symm, fun j => ?_⟩
    rw [ShardedPipeline.queue_enqueue]
    split
    · next hj => rw [hj]
    · rfl

def lossyConfig : Config oneShard.1 := { sampleConfig with numShards_pos := oneShard.pos, packetLossRate := 1 / 2 }

/-- An Add that gets through, a lost Replace of its order, another Add. -/
def lossyDraws : List Draw :=
  [{ sampleDraw 0 0 with lossPick := 3 / 4, lossPick_nonneg := by norm_num }, sampleDraw (7 / 8) 0,
    { sampleDraw 0 0 with lossPick := 1 / 2, lossPick_nonneg := by norm_num }]

open FeedGenerator in
/-- The second packet that gets through is the third message stamped. -/
theorem feed_routed_after_loss :
    ∃ first second, ({} : FeedGenerator lossyConfig).packets lossyDraws = [first, second] ∧
      ∃ e, (delivered (({} : FeedGenerator lossyConfig).trace lossyDraws))[1]? = some e ∧ second = e.message.packet ∧
        ∀ i p', (Run.exec {} [.demux first]).pipeline.demux second = (.ok i, p') → i = e.shard := by
  have hlen : (({} : FeedGenerator lossyConfig).packets lossyDraws).length = 2 := by decide +kernel
  obtain ⟨first, second, hp⟩ := List.length_eq_two.1 hlen
  obtain ⟨e, he, hraw, hroute⟩ :=
    (feed_routed oneShard lossyConfig lossyDraws).2.2 [.demux first] [] second (by rw [hp]; exact List.prefix_rfl)
  exact ⟨first, second, hp, e, he, hraw, fun i p' hdem => (hroute i p' hdem).1⟩

end Mdfh
