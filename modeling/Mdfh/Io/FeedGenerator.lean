import Mdfh.Io.LiveOrders
import Mathlib.Data.Rat.Cast.Order

/-!
# The simulated feed (`io/feed_generator.hpp`, `io/feed_generator.cpp`)

The generator keeps, per configured symbol, the orders it takes to be resting. It drops an order from
that list on a Cancel and renames it on a Replace, but never on an Execute: "small partial fill; the
order stays resting". `Tracks` sets the list against the reference: an order on it is live until its
Executes have filled it, which they do exactly when the executed quantity divides the order's
(`leftAfter_eq_none_iff`).
-/

namespace Mdfh
open LittleEndian (Bytes)

/-- A configuration with at least one symbol and one shard. The seed only feeds the random draws. -/
structure FeedGenerator.Config (numShards : Nat) where
  numShards_pos : 0 < numShards
  symbols : List Symbol
  symbols_pos : 0 < symbols.length
  messageCount : UInt64
  packetLossRate : ℚ := 0

/-- The outcomes of the random draws of one message. -/
structure FeedGenerator.Draw where
  symbolPick : Nat
  roll : ℚ
  orderPick : Nat
  lossPick : ℚ
  lossPick_nonneg : 0 ≤ lossPick

structure FeedGenerator.Packet where
  exhausted : Bool := false
  bytes : Option Bytes

open FeedGenerator (Config Draw)

structure FeedGenerator {numShards : Nat} (cfg : Config numShards) where
  emittedCount : UInt64 := 0
  totalDropped : UInt64 := 0
  nextOrderId : OrderId := 1
  nextSeqPerShard : Fin numShards → SeqNum := fun _ => 0
  restingOrdersPerSymbol : Fin cfg.symbols.length → List OrderId := fun _ => []

namespace FeedGenerator
variable {numShards : Nat} {cfg : Config numShards}

/-- A pick between `0` and `symbols.size() - 1`. -/
def Config.symbolIdx (cfg : Config numShards) (pick : Nat) : Fin cfg.symbols.length :=
  ⟨pick % cfg.symbols.length, Nat.mod_lt _ cfg.symbols_pos⟩

def sideOf (id : OrderId) : Side := if id % 2 = 0 then .buy else .sell
def priceOf (id : OrderId) : Price := 100 + (id % 50).toInt64
def quantityOf (id : OrderId) : Quantity := 10 + (id % 20).toUInt32
def execQtyOf (id : OrderId) : Quantity := 1 + (id % 5).toUInt32

/-- The `double` nearest to `0.65`, over `2 ^ 53`. -/
def cancelBelow : ℚ := 5854679515581645 / 9007199254740992

/-- The `double` nearest to `0.85`, over `2 ^ 53`. -/
def executeBelow : ℚ := 7656119366529843 / 9007199254740992

def generateNextMessage (g : FeedGenerator cfg) (d : Draw) : DecodedMessage × FeedGenerator cfg :=
  let symbolIdx := cfg.symbolIdx d.symbolPick
  let symbol := cfg.symbols.get symbolIdx
  let shard := shardForSymbolIn cfg.numShards_pos symbol
  let seq := g.nextSeqPerShard shard + 1
  let g := { g with nextSeqPerShard := Function.update g.nextSeqPerShard shard seq }
  let resting := g.restingOrdersPerSymbol symbolIdx
  let setResting := Function.update g.restingOrdersPerSymbol symbolIdx
  if resting = [] ∨ d.roll < 1 / 2 then
    let id := g.nextOrderId
    (.add ⟨seq, id, symbol, sideOf id, priceOf id, quantityOf id, seq⟩,
      { g with nextOrderId := id + 1, restingOrdersPerSymbol := setResting (resting ++ [id]) })
  else
    -- a pick between `0` and `resting.size() - 1`
    let idx := d.orderPick % resting.length
    let id := resting.getD idx 0
    if d.roll < cancelBelow then
      (.cancel ⟨seq, id, seq⟩, { g with restingOrdersPerSymbol := setResting (resting.eraseIdx idx) })
    else if d.roll < executeBelow then
      (.execute ⟨seq, id, execQtyOf id, seq⟩, g)
    else
      let newId := g.nextOrderId
      (.replace ⟨seq, id, newId, priceOf newId, quantityOf newId, seq⟩,
        { g with nextOrderId := newId + 1, restingOrdersPerSymbol := setResting (resting.set idx newId) })

def next (g : FeedGenerator cfg) (d : Draw) : Packet × FeedGenerator cfg :=
  if g.emittedCount ≥ cfg.messageCount then ({ exhausted := true, bytes := none }, g)
  else
    let r := { g with emittedCount := g.emittedCount + 1 }.generateNextMessage d
    if d.lossPick < cfg.packetLossRate then ({ bytes := none }, { r.2 with totalDropped := r.2.totalDropped + 1 })
    else ({ bytes := some r.1.packet }, r.2)

/-- The packets that get through. -/
def packets (g : FeedGenerator cfg) : List Draw → List Bytes
  | [] => []
  | d :: ds => (g.next d).1.bytes.toList ++ (g.next d).2.packets ds

/-- The message of a call of `next()` that is not exhausted, lost or not. -/
def emit (g : FeedGenerator cfg) (d : Draw) : DecodedMessage × FeedGenerator cfg :=
  { g with emittedCount := g.emittedCount + 1 }.generateNextMessage d

def messages (g : FeedGenerator cfg) : List Draw → List DecodedMessage
  | [] => []
  | d :: ds => if g.emittedCount ≥ cfg.messageCount then [] else (g.emit d).1 :: (g.next d).2.messages ds

theorem next_of_lt {g : FeedGenerator cfg} (hloss : cfg.packetLossRate = 0) (h : g.emittedCount < cfg.messageCount)
    (d : Draw) : g.next d = ({ bytes := some (g.emit d).1.packet }, (g.emit d).2) := by
  have hkeep : ¬ d.lossPick < cfg.packetLossRate := by rw [hloss]; exact not_lt.2 d.lossPick_nonneg
  rw [next, if_neg (UInt64.not_le.2 h)]
  simp only [hkeep, if_false]
  rfl

theorem messages_of_lt {g : FeedGenerator cfg} (hloss : cfg.packetLossRate = 0) (h : g.emittedCount < cfg.messageCount)
    (d : Draw) (ds : List Draw) : g.messages (d :: ds) = (g.emit d).1 :: (g.emit d).2.messages ds := by
  rw [messages, if_neg (UInt64.not_le.2 h), next_of_lt hloss h]

theorem exhausted {g : FeedGenerator cfg} (h : ¬ g.emittedCount < cfg.messageCount) (ds : List Draw) :
    g.packets ds = [] ∧ g.messages ds = [] := by
  have hge : g.emittedCount ≥ cfg.messageCount := UInt64.not_lt.1 h
  induction ds with
  | nil => exact ⟨rfl, rfl⟩
  | cons d ds ih =>
    refine ⟨?_, by rw [messages, if_pos hge]⟩
    rw [packets, next, if_pos hge]
    exact ih.1

theorem packets_eq (hloss : cfg.packetLossRate = 0) (g : FeedGenerator cfg) (ds : List Draw) :
    g.packets ds = (g.messages ds).map (·.packet) := by
  induction ds generalizing g with
  | nil => rfl
  | cons d ds ih =>
    by_cases h : g.emittedCount < cfg.messageCount
    · rw [messages_of_lt hloss h, packets, next_of_lt hloss h, ih]
      rfl
    · rw [(exhausted h _).1, (exhausted h _).2]
      rfl

/-! ### What the Executes of an order leave of it -/

/-- How many of the messages are Executes of `id`. -/
def executionsOf (id : OrderId) (ms : List DecodedMessage) : Nat :=
  ms.countP fun m => match m with
    | .execute x => x.orderId == id
    | _ => false

theorem executionsOf_append (id : OrderId) (ms ms' : List DecodedMessage) :
    executionsOf id (ms ++ ms') = executionsOf id ms + executionsOf id ms' :=
  List.countP_append

/-- The messages have executed the generated order `id` down to nothing. -/
def Filled (ms : List DecodedMessage) (id : OrderId) : Prop :=
  (execQtyOf id).toNat ∣ (quantityOf id).toNat ∧
    (quantityOf id).toNat ≤ (execQtyOf id).toNat * executionsOf id ms

instance (ms : List DecodedMessage) (id : OrderId) : Decidable (Filled ms id) :=
  inferInstanceAs (Decidable (_ ∧ _))

/-- One Execute as the book applies it: too much is rejected. -/
def executeOnce (e q : Quantity) : Option Quantity :=
  if q < e then some q else if q - e = 0 then none else some (q - e)

/-- What a generated order has left after so many Executes. -/
def leftAfter (id : OrderId) : Nat → Option Quantity
  | 0 => some (quantityOf id)
  | k + 1 => (leftAfter id k).bind (executeOnce (execQtyOf id))

theorem quantityOf_toNat (id : OrderId) : (quantityOf id).toNat = 10 + id.toNat % 20 := by
  have h : id.toNat % 20 < 20 := Nat.mod_lt _ (by decide)
  rw [quantityOf, UInt32.toNat_add, UInt64.toNat_toUInt32, UInt64.toNat_mod]
  change (10 + id.toNat % 20 % 2 ^ 32) % 2 ^ 32 = 10 + id.toNat % 20
  omega

theorem execQtyOf_toNat (id : OrderId) : (execQtyOf id).toNat = 1 + id.toNat % 5 := by
  have h : id.toNat % 5 < 5 := Nat.mod_lt _ (by decide)
  rw [execQtyOf, UInt32.toNat_add, UInt64.toNat_toUInt32, UInt64.toNat_mod]
  change (1 + id.toNat % 5 % 2 ^ 32) % 2 ^ 32 = 1 + id.toNat % 5
  omega

/-- Either everything went in whole steps, or `j` steps went through and something is left, less than
a step if further ones were tried. -/
theorem leftAfter_spec (id : OrderId) (k : Nat) :
    (leftAfter id k = none ∧ (execQtyOf id).toNat ∣ (quantityOf id).toNat ∧
      (quantityOf id).toNat ≤ (execQtyOf id).toNat * k) ∨
    ∃ q j, leftAfter id k = some q ∧ 0 < q.toNat ∧ q.toNat + (execQtyOf id).toNat * j = (quantityOf id).toNat ∧
      (j = k ∨ q.toNat < (execQtyOf id).toNat) := by
  have he : 0 < (execQtyOf id).toNat := by rw [execQtyOf_toNat]; omega
  induction k with
  | zero =>
    refine .inr ⟨quantityOf id, 0, rfl, ?_, ?_, .inl rfl⟩
    · rw [quantityOf_toNat]; omega
    · omega
  | succ k ih =>
    rcases ih with ⟨hn, hdvd, hle⟩ | ⟨q, j, hs, hq, hj, hk⟩
    · refine .inl ⟨by rw [leftAfter, hn]; rfl, hdvd, hle.trans ?_⟩
      exact Nat.mul_le_mul_left _ (Nat.le_succ k)
    · have hstep : leftAfter id (k + 1) = executeOnce (execQtyOf id) q := by rw [leftAfter, hs]; rfl
      rw [hstep, executeOnce]
      by_cases hlt : q < execQtyOf id
      · rw [if_pos hlt]
        exact .inr ⟨q, j, rfl, hq, hj, .inr (UInt32.lt_iff_toNat_lt.1 hlt)⟩
      · have hle : execQtyOf id ≤ q := UInt32.not_lt.1 hlt
        have hle' := UInt32.le_iff_toNat_le.1 hle
        have hsub : (q - execQtyOf id).toNat = q.toNat - (execQtyOf id).toNat := UInt32.toNat_sub_of_le _ _ hle
        obtain rfl : j = k := hk.resolve_right (by omega)
        have hmul : (execQtyOf id).toNat * (j + 1) = (execQtyOf id).toNat * j + (execQtyOf id).toNat := Nat.mul_succ _ _
        rw [if_neg hlt]
        by_cases hz : q - execQtyOf id = 0
        · rw [if_pos hz]
          rw [hz, UInt32.toNat_zero] at hsub
          have hall : (quantityOf id).toNat = (execQtyOf id).toNat * (j + 1) := by omega
          exact .inl ⟨rfl, ⟨j + 1, hall⟩, hall.le⟩
        · rw [if_neg hz]
          refine .inr ⟨_, j + 1, rfl, ?_, by omega, .inl rfl⟩
          have : (q - execQtyOf id).toNat ≠ 0 := fun h0 => hz (UInt32.toNat_inj.1 h0)
          omega

theorem leftAfter_eq_none_iff {id : OrderId} {ms : List DecodedMessage} :
    leftAfter id (executionsOf id ms) = none ↔ Filled ms id := by
  rcases leftAfter_spec id (executionsOf id ms) with ⟨hn, hf⟩ | ⟨q, j, hs, hq, hj, hk⟩
  · exact ⟨fun _ => hf, fun _ => hn⟩
  · rw [hs]
    constructor
    · intro h
      cases h
    · rintro ⟨hdvd, hle⟩
      -- a remainder of whole steps is at least one step
      have hstep : (execQtyOf id).toNat ∣ q.toNat := by
        rw [← hj] at hdvd
        exact (Nat.dvd_add_left ⟨j, rfl⟩).1 hdvd
      have := Nat.le_of_dvd hq hstep
      obtain rfl : j = executionsOf id ms := hk.resolve_right (by omega)
      omega

/-! ### The generator's orders and the reference -/

/-- The symbol of the next message, and its shard. -/
def symbolOf (cfg : Config numShards) (d : Draw) : Symbol := cfg.symbols.get (cfg.symbolIdx d.symbolPick)
def shardOf (cfg : Config numShards) (d : Draw) : Fin numShards := shardForSymbolIn cfg.numShards_pos (symbolOf cfg d)

theorem split_at {α : Type} {l : List α} {i : Nat} (hi : i < l.length) (a : α) :
    ∃ l₁ l₂, l = l₁ ++ l.getD i a :: l₂ ∧ l.eraseIdx i = l₁ ++ l₂ ∧ ∀ b, l.set i b = l₁ ++ b :: l₂ := by
  refine ⟨l.take i, l.drop (i + 1), ?_, List.eraseIdx_eq_take_drop_succ .., fun b => ?_⟩
  · have : l.getD i a = l[i] := by simp [hi]
    rw [this, List.getElem_cons_drop, List.take_append_drop]
  · rw [List.set_eq_take_append_cons_drop, if_pos hi]

/-- The four kinds of message, and what each does to the list of its symbol. -/
inductive Generated (g : FeedGenerator cfg) (d : Draw) (seq : SeqNum) : DecodedMessage → OrderId → List OrderId → Prop
  | add : Generated g d seq
      (.add ⟨seq, g.nextOrderId, symbolOf cfg d, sideOf g.nextOrderId, priceOf g.nextOrderId, quantityOf g.nextOrderId, seq⟩)
      (g.nextOrderId + 1) (g.restingOrdersPerSymbol (cfg.symbolIdx d.symbolPick) ++ [g.nextOrderId])
  | cancel {l₁ l₂ : List OrderId} {id : OrderId}
      (h : g.restingOrdersPerSymbol (cfg.symbolIdx d.symbolPick) = l₁ ++ id :: l₂) :
      Generated g d seq (.cancel ⟨seq, id, seq⟩) g.nextOrderId (l₁ ++ l₂)
  | execute {l₁ l₂ : List OrderId} {id : OrderId}
      (h : g.restingOrdersPerSymbol (cfg.symbolIdx d.symbolPick) = l₁ ++ id :: l₂) :
      Generated g d seq (.execute ⟨seq, id, execQtyOf id, seq⟩) g.nextOrderId (l₁ ++ id :: l₂)
  | replace {l₁ l₂ : List OrderId} {id : OrderId}
      (h : g.restingOrdersPerSymbol (cfg.symbolIdx d.symbolPick) = l₁ ++ id :: l₂) :
      Generated g d seq
        (.replace ⟨seq, id, g.nextOrderId, priceOf g.nextOrderId, quantityOf g.nextOrderId, seq⟩)
        (g.nextOrderId + 1) (l₁ ++ g.nextOrderId :: l₂)

theorem Generated.seqNum {g : FeedGenerator cfg} {d : Draw} {seq : SeqNum} {m : DecodedMessage} {id : OrderId}
    {l : List OrderId} (h : Generated g d seq m id l) : m.seqNum = seq := by
  cases h <;> rfl

theorem Generated.of_emittedCount {g : FeedGenerator cfg} {c : UInt64} {d : Draw} {seq : SeqNum} {m : DecodedMessage}
    {id : OrderId} {l : List OrderId} (h : Generated { g with emittedCount := c } d seq m id l) :
    Generated g d seq m id l := by
  cases h with
  | add => exact .add
  | cancel hl => exact .cancel hl
  | execute hl => exact .execute hl
  | replace hl => exact .replace hl

theorem generate_spec (g : FeedGenerator cfg) (d : Draw) : ∃ seq m id l, Generated g d seq m id l ∧
    seq = g.nextSeqPerShard (shardOf cfg d) + 1 ∧ g.generateNextMessage d =
      (m, { g with
        nextOrderId := id
        nextSeqPerShard := Function.update g.nextSeqPerShard (shardOf cfg d) seq
        restingOrdersPerSymbol := Function.update g.restingOrdersPerSymbol (cfg.symbolIdx d.symbolPick) l }) := by
  generalize hr : g.generateNextMessage d = r
  unfold generateNextMessage at hr
  dsimp only at hr
  split at hr
  · subst hr
    exact ⟨_, _, _, _, .add, rfl, rfl⟩
  · next hne =>
    have hpos : 0 < (g.restingOrdersPerSymbol (cfg.symbolIdx d.symbolPick)).length :=
      List.length_pos_iff.2 fun e => hne (.inl e)
    obtain ⟨l₁, l₂, hl, herase, hset⟩ := split_at (Nat.mod_lt d.orderPick hpos) 0
    split at hr
    · subst hr
      rw [herase]
      exact ⟨_, _, _, _, .cancel hl, rfl, rfl⟩
    · split at hr
      · subst hr
        refine ⟨_, _, _, _, .execute hl, rfl, ?_⟩
        rw [← hl, Function.update_eq_self]
        rfl
      · subst hr
        rw [hset]
        exact ⟨_, _, _, _, .replace hl, rfl, rfl⟩

/-- The next message, as far as the proofs need it: no counter wraps before the generator is exhausted. -/
theorem emit_spec {g : FeedGenerator cfg} (hseqs : ∀ i, (g.nextSeqPerShard i).toNat ≤ g.emittedCount.toNat)
    (he : g.emittedCount < cfg.messageCount) (d : Draw) :
    ∃ id ids, Generated g d (g.nextSeqPerShard (shardOf cfg d) + 1) (g.emit d).1 id ids ∧
      (g.emit d).2.nextOrderId = id ∧
      (g.emit d).2.restingOrdersPerSymbol =
        Function.update g.restingOrdersPerSymbol (cfg.symbolIdx d.symbolPick) ids ∧
      (g.emit d).2.emittedCount.toNat = g.emittedCount.toNat + 1 ∧
      (g.emit d).1.seqNum.toNat = (g.nextSeqPerShard (shardOf cfg d)).toNat + 1 ∧
      ∀ i, ((g.emit d).2.nextSeqPerShard i).toNat =
        (g.nextSeqPerShard i).toNat + if i = shardOf cfg d then 1 else 0 := by
  have h₂ := UInt64.lt_iff_toNat_lt.1 he
  have h₃ := cfg.messageCount.toNat_lt
  have hsucc : ∀ a : UInt64, a.toNat ≤ g.emittedCount.toNat → (a + 1).toNat = a.toNat + 1 := by
    intro a ha
    rw [UInt64.toNat_add]
    exact Nat.mod_eq_of_lt (show a.toNat + 1 < 2 ^ 64 by omega)
  obtain ⟨seq, m, id, ids, hg, rfl, hemit⟩ := generate_spec { g with emittedCount := g.emittedCount + 1 } d
  rw [show g.emit d = _ from hemit]
  refine ⟨id, ids, hg.of_emittedCount, rfl, rfl, hsucc _ le_rfl, ?_, ?_⟩
  · rw [hg.seqNum]
    exact hsucc _ (hseqs _)
  · intro i
    dsimp only
    rw [Function.update_apply]
    split
    · next hi => rw [hi]; exact hsucc _ (hseqs _)
    · rfl

/-- After the messages `ms` the orders on the generator's lists are what the reference has left of
them; ids from `k` on are still to come. -/
structure Tracks (g : FeedGenerator cfg) (l : Live) (ms : List DecodedMessage) (k : Nat) : Prop where
  next : g.nextOrderId = UInt64.ofNat k
  fresh : ∀ id : OrderId, k ≤ id.toNat → l id = none ∧ executionsOf id ms = 0
  resting : ∀ j, ∀ id ∈ g.restingOrdersPerSymbol j, id.toNat < k ∧
    l id = (leftAfter id (executionsOf id ms)).map (cfg.symbols.get j, ·)
  nodup : ∀ j, (g.restingOrdersPerSymbol j).Nodup
  disjoint : ∀ j j' id, id ∈ g.restingOrdersPerSymbol j → id ∈ g.restingOrdersPerSymbol j' → j = j'

/-- Ids do not wrap before the generator is exhausted: there are no more of them than messages. -/
theorem id_lt {g : FeedGenerator cfg} {k : Nat} (hids : k ≤ g.emittedCount.toNat + 1)
    (he : g.emittedCount < cfg.messageCount) : k < 2 ^ 64 := by
  have h₁ := UInt64.lt_iff_toNat_lt.1 he
  have h₂ := cfg.messageCount.toNat_lt
  omega

theorem executionsOf_of_ne {m : DecodedMessage} {id : OrderId} (h : id ≠ m.orderId) (ms : List DecodedMessage) :
    executionsOf id (ms ++ [m]) = executionsOf id ms := by
  rw [executionsOf_append]
  cases m with
  | execute x =>
    have : ¬ x.orderId = id := fun e => h e.symm
    simp [executionsOf, this]
  | add x => rfl
  | cancel x => rfl
  | replace x => rfl

theorem executionsOf_execute (x : ExecuteOrder) (ms : List DecodedMessage) :
    executionsOf x.orderId (ms ++ [.execute x]) = executionsOf x.orderId ms + 1 := by
  simp [executionsOf]

namespace Tracks
variable {g : FeedGenerator cfg} {l : Live} {ms : List DecodedMessage} {k : Nat} {d : Draw}
  {seq : SeqNum} {m : DecodedMessage} {id' : OrderId} {l' : List OrderId}

theorem init : Tracks ({} : FeedGenerator cfg) Live.empty [] 1 := by
  refine ⟨rfl, fun id _ => ⟨rfl, rfl⟩, ?_, fun j => List.nodup_nil, ?_⟩
  · intro j id hid
    cases hid
  · intro j j' id hid
    cases hid

theorem next_toNat (h : Tracks g l ms k) (hk : k < 2 ^ 64) : g.nextOrderId.toNat = k := by
  rw [h.next, UInt64.toNat_ofNat', Nat.mod_eq_of_lt hk]

theorem succ_next (h : Tracks g l ms k) : g.nextOrderId + 1 = UInt64.ofNat (k + 1) := by
  rw [h.next, UInt64.ofNat_add]
  rfl

theorem ne_next (h : Tracks g l ms k) (hk : k < 2 ^ 64) {j : Fin cfg.symbols.length} {id : OrderId}
    (hid : id ∈ g.restingOrdersPerSymbol j) : id ≠ g.nextOrderId := by
  intro e
  have := (h.resting j id hid).1
  rw [e, h.next_toNat hk] at this
  omega

theorem apart (h : Tracks g l ms k) (hk : k < 2 ^ 64) (j₀ : Fin cfg.symbols.length) (hnd : l'.Nodup)
    (hsub : ∀ id ∈ l', id ∈ g.restingOrdersPerSymbol j₀ ∨ id = g.nextOrderId) :
    (∀ j, (Function.update g.restingOrdersPerSymbol j₀ l' j).Nodup) ∧
      ∀ j j' id, id ∈ Function.update g.restingOrdersPerSymbol j₀ l' j →
        id ∈ Function.update g.restingOrdersPerSymbol j₀ l' j' → j = j' := by
  have hnew : ∀ j, g.nextOrderId ∉ g.restingOrdersPerSymbol j := fun j hj => h.ne_next hk hj rfl
  have hother : ∀ j id, j ≠ j₀ → id ∈ l' → id ∉ g.restingOrdersPerSymbol j := by
    intro j id hj hid hid'
    rcases hsub id hid with hid | rfl
    · exact hj (h.disjoint j j₀ id hid' hid)
    · exact hnew j hid'
  constructor
  · intro j
    rw [Function.update_apply]
    split
    · exact hnd
    · exact h.nodup j
  · intro j j' id hj hj'
    rw [Function.update_apply] at hj hj'
    split at hj
    · next e =>
      split at hj'
      · next e' => rw [e, e']
      · next e' => exact absurd hj' (hother j' id e' hj)
    · next e =>
      split at hj'
      · exact absurd hj (hother j id e hj')
      · exact h.disjoint j j' id hj hj'

theorem picked (h : Tracks g l ms k) {l₁ l₂ : List OrderId} {id : OrderId}
    (hl : g.restingOrdersPerSymbol (cfg.symbolIdx d.symbolPick) = l₁ ++ id :: l₂) :
    id ∈ g.restingOrdersPerSymbol (cfg.symbolIdx d.symbolPick) ∧ id.toNat < k ∧
      l id = (leftAfter id (executionsOf id ms)).map (symbolOf cfg d, ·) := by
  have hmem : id ∈ g.restingOrdersPerSymbol (cfg.symbolIdx d.symbolPick) := by simp [hl]
  exact ⟨hmem, h.resting _ _ hmem⟩

theorem picked_live_iff (h : Tracks g l ms k) {l₁ l₂ : List OrderId} {id : OrderId}
    (hl : g.restingOrdersPerSymbol (cfg.symbolIdx d.symbolPick) = l₁ ++ id :: l₂) :
    l id ≠ none ↔ ¬ Filled ms id := by
  rw [(h.picked hl).2.2, ne_eq, Option.map_eq_none_iff, leftAfter_eq_none_iff]

/-- The generated message is right about the reference unless it picks a filled order. -/
theorem refers_iff (h : Tracks g l ms k) (hk : k < 2 ^ 64) (hg : Generated g d seq m id' l') :
    l.Refers m ↔ (∃ a, m = .add a) ∨ ¬ Filled ms m.orderId := by
  have hnew : l g.nextOrderId = none := (h.fresh _ (h.next_toNat hk).ge).1
  cases hg with
  | add => exact ⟨fun _ => .inl ⟨_, rfl⟩, fun _ => hnew⟩
  | cancel hl =>
    simp only [reduceCtorEq, exists_false, false_or]
    exact h.picked_live_iff hl
  | execute hl =>
    simp only [reduceCtorEq, exists_false, false_or]
    exact h.picked_live_iff hl
  | replace hl =>
    simp only [reduceCtorEq, exists_false, false_or]
    exact (and_iff_left hnew).trans (h.picked_live_iff hl)

theorem refers_of_live (h : Tracks g l ms k) (hk : k < 2 ^ 64) (hg : Generated g d seq m id' l')
    (hl : (∀ a, m ≠ .add a) → l m.orderId ≠ none) : l.Refers m := by
  have hnew : l g.nextOrderId = none := (h.fresh _ (h.next_toNat hk).ge).1
  cases hg with
  | add => exact hnew
  | cancel _ => exact hl (by simp)
  | execute _ => exact hl (by simp)
  | replace _ => exact ⟨hl (by simp), hnew⟩

theorem home (h : Tracks g l ms k) (hg : Generated g d seq m id' l') (hr : l.Refers m) :
    l.Home m (symbolOf cfg d) := by
  have key : ∀ {l₁ l₂ id}, g.restingOrdersPerSymbol (cfg.symbolIdx d.symbolPick) = l₁ ++ id :: l₂ → l id ≠ none →
      ∃ q, l id = some (symbolOf cfg d, q) := by
    intro l₁ l₂ id hl hne
    rw [(h.picked hl).2.2] at hne ⊢
    cases hq : leftAfter id (executionsOf id ms) with
    | none => simp [hq] at hne
    | some q => exact ⟨q, rfl⟩
  cases hg with
  | add => rfl
  | cancel hl => exact key hl hr
  | execute hl => exact key hl hr
  | replace hl => exact key hl hr.1

theorem introduced_eq (hg : Generated g d seq m id' l') {id : OrderId} (hid : m.introduced = some id) :
    id = g.nextOrderId := by
  cases hg <;> cases hid <;> rfl

theorem executed_lt (h : Tracks g l ms k) (hg : Generated g d seq m id' l') {x : ExecuteOrder} (hx : m = .execute x) :
    x.orderId.toNat < k := by
  cases hg with
  | execute hl =>
    cases hx
    exact (h.picked hl).2.1
  | add => cases hx
  | cancel hl => cases hx
  | replace hl => cases hx

theorem apply_execute_left (h : Tracks g l ms k) {l₁ l₂ : List OrderId} {id : OrderId}
    (hl : g.restingOrdersPerSymbol (cfg.symbolIdx d.symbolPick) = l₁ ++ id :: l₂) (hne : l id ≠ none) :
    l.apply (.execute ⟨seq, id, execQtyOf id, seq⟩) id =
      (leftAfter id (executionsOf id ms + 1)).map (symbolOf cfg d, ·) := by
  have hl' := (h.picked hl).2.2
  cases hq : leftAfter id (executionsOf id ms) with
  | none =>
    rw [hq] at hl'
    exact absurd hl' hne
  | some q =>
    rw [hq] at hl'
    rw [Live.apply_execute (m := ⟨seq, id, execQtyOf id, seq⟩) hl', leftAfter, hq, Option.bind_some, executeOnce]
    by_cases hlt : q < execQtyOf id
    · rw [if_pos hlt, if_pos hlt, hl']
    · rw [if_neg hlt, if_neg hlt, Function.update_self]
      by_cases hz : q - execQtyOf id = 0
      · rw [if_pos hz, if_pos hz]
        rfl
      · rw [if_neg hz, if_neg hz]
        rfl

/-! ### One more message -/

section Generate

theorem ne_next_of_later (h : Tracks g l ms k) (hk : k < 2 ^ 64) {id : OrderId} (hid : k + 1 ≤ id.toNat) :
    id ≠ g.nextOrderId := by
  intro e
  rw [e, h.next_toNat hk] at hid
  omega

/-- The message leaves every listed order but its own as it was. -/
theorem resting_kept (h : Tracks g l ms k) (hk : k < 2 ^ 64) (hg : Generated g d seq m id' l')
    {j : Fin cfg.symbols.length} {id : OrderId} (hid : id ∈ g.restingOrdersPerSymbol j) (hne : id ≠ m.orderId) :
    id.toNat < k ∧ l.apply m id = (leftAfter id (executionsOf id (ms ++ [m]))).map (cfg.symbols.get j, ·) := by
  rw [Live.apply_of_ne hne fun hi => h.ne_next hk hid (introduced_eq hg hi), executionsOf_of_ne hne]
  exact h.resting j id hid

theorem fresh_kept (h : Tracks g l ms k) {id : OrderId} (hid : k ≤ id.toNat) (hne : id ≠ m.orderId)
    (hnew : m.introduced ≠ some id) : l.apply m id = none ∧ executionsOf id (ms ++ [m]) = 0 := by
  rw [Live.apply_of_ne hne hnew, executionsOf_of_ne hne]
  exact h.fresh id hid

section Picked
variable {l₁ l₂ : List OrderId} {id₀ : OrderId}

theorem ne_picked (h : Tracks g l ms k) (hl : g.restingOrdersPerSymbol (cfg.symbolIdx d.symbolPick) = l₁ ++ id₀ :: l₂)
    {j : Fin cfg.symbols.length} (hj : j ≠ cfg.symbolIdx d.symbolPick) {id : OrderId}
    (hid : id ∈ g.restingOrdersPerSymbol j) : id ≠ id₀ := by
  intro e
  exact hj (h.disjoint j _ id₀ (e ▸ hid) (h.picked hl).1)

theorem picked_split (h : Tracks g l ms k)
    (hl : g.restingOrdersPerSymbol (cfg.symbolIdx d.symbolPick) = l₁ ++ id₀ :: l₂) :
    (l₁ ++ l₂).Nodup ∧ id₀ ∉ l₁ ++ l₂ ∧
      ∀ id ∈ l₁ ++ l₂, id ∈ g.restingOrdersPerSymbol (cfg.symbolIdx d.symbolPick) := by
  have := h.nodup (cfg.symbolIdx d.symbolPick)
  rw [hl, List.nodup_middle, List.nodup_cons] at this
  refine ⟨this.2, this.1, ?_⟩
  intro id hid
  rw [hl]
  exact List.mem_append.2 ((List.mem_append.1 hid).imp_right (List.mem_cons_of_mem _))

end Picked

variable {g' : FeedGenerator cfg}

theorem generate_add {a : AddOrder} (h : Tracks g l ms k) (hk : k < 2 ^ 64) (hg : Generated g d seq (.add a) id' l')
    (hn : g'.nextOrderId = id')
    (hR : g'.restingOrdersPerSymbol = Function.update g.restingOrdersPerSymbol (cfg.symbolIdx d.symbolPick) l') :
    Tracks g' (l.apply (.add a)) (ms ++ [.add a]) (k + 1) := by
  cases hg with
  | add =>
    have hnd : (g.restingOrdersPerSymbol (cfg.symbolIdx d.symbolPick) ++ [g.nextOrderId]).Nodup := by
      refine List.nodup_append.2 ⟨h.nodup _, List.nodup_singleton _, fun id hid id' hid' => ?_⟩
      rw [List.mem_singleton.1 hid']
      exact h.ne_next hk hid
    obtain ⟨hnd, hdisj⟩ := h.apart hk _ hnd fun id hid => (List.mem_append.1 hid).imp_right List.mem_singleton.1
    refine ⟨hn.trans h.succ_next, ?_, ?_, hR ▸ hnd, hR ▸ hdisj⟩
    · intro id hid
      have hne := h.ne_next_of_later hk hid
      exact h.fresh_kept (by omega) hne fun e => hne (Option.some.inj e).symm
    · intro j id hid
      rw [hR, Function.update_apply] at hid
      split at hid
      · next hj =>
        rcases List.mem_append.1 hid with hid | hid
        · obtain ⟨h₁, h₂⟩ := h.resting_kept hk .add hid (h.ne_next hk hid)
          rw [hj]
          exact ⟨by omega, h₂⟩
        · -- the new order
          obtain rfl := List.mem_singleton.1 hid
          have hnext := h.next_toNat hk
          have hzero : executionsOf g.nextOrderId ms = 0 := (h.fresh _ hnext.ge).2
          refine ⟨by omega, ?_⟩
          rw [executionsOf_append, hzero, Live.apply, Function.update_self, hj]
          rfl
      · obtain ⟨h₁, h₂⟩ := h.resting_kept hk .add hid (h.ne_next hk hid)
        exact ⟨by omega, h₂⟩

theorem generate_cancel {c : CancelOrder} (h : Tracks g l ms k) (hk : k < 2 ^ 64)
    (hg : Generated g d seq (.cancel c) id' l') (hn : g'.nextOrderId = id')
    (hR : g'.restingOrdersPerSymbol = Function.update g.restingOrdersPerSymbol (cfg.symbolIdx d.symbolPick) l') :
    Tracks g' (l.apply (.cancel c)) (ms ++ [.cancel c]) k := by
  cases hg with
  | @cancel l₁ l₂ id₀ hl =>
    obtain ⟨hnd, hout, hsub⟩ := h.picked_split hl
    obtain ⟨hnd, hdisj⟩ := h.apart hk _ hnd fun id hid => .inl (hsub id hid)
    have hpick := (h.picked hl).2.1
    refine ⟨hn.trans h.next, ?_, ?_, hR ▸ hnd, hR ▸ hdisj⟩
    · intro id hid
      have hne : id ≠ id₀ := fun e => by rw [e] at hid; omega
      exact h.fresh_kept hid hne (by simp [DecodedMessage.introduced])
    · intro j id hid
      rw [hR, Function.update_apply] at hid
      split at hid
      · next hj =>
        rw [hj]
        exact h.resting_kept hk (.cancel hl) (hsub id hid) fun (e : id = id₀) => hout (e ▸ hid)
      · next hj => exact h.resting_kept hk (.cancel hl) hid (h.ne_picked hl hj hid)

theorem generate_execute {x : ExecuteOrder} (h : Tracks g l ms k) (hk : k < 2 ^ 64)
    (hg : Generated g d seq (.execute x) id' l') (hr : l.Refers (.execute x)) (hn : g'.nextOrderId = id')
    (hR : g'.restingOrdersPerSymbol = Function.update g.restingOrdersPerSymbol (cfg.symbolIdx d.symbolPick) l') :
    Tracks g' (l.apply (.execute x)) (ms ++ [.execute x]) k := by
  cases hg with
  | @execute l₁ l₂ id₀ hl =>
    rw [← hl, Function.update_eq_self] at hR
    have hpick := (h.picked hl).2.1
    refine ⟨hn.trans h.next, ?_, ?_, hR ▸ h.nodup, hR ▸ h.disjoint⟩
    · intro id hid
      have hne : id ≠ id₀ := fun e => by rw [e] at hid; omega
      exact h.fresh_kept hid hne (by simp [DecodedMessage.introduced])
    · intro j id hid
      rw [hR] at hid
      by_cases hne : id = id₀
      · subst hne
        obtain rfl := h.disjoint j _ id hid (h.picked hl).1
        refine ⟨hpick, ?_⟩
        rw [executionsOf_execute ⟨seq, id, execQtyOf id, seq⟩ ms]
        exact h.apply_execute_left hl hr
      · exact h.resting_kept hk (.execute hl) hid hne

theorem generate_replace {x : ReplaceOrder} (h : Tracks g l ms k) (hk : k < 2 ^ 64)
    (hg : Generated g d seq (.replace x) id' l') (hr : l.Refers (.replace x)) (hn : g'.nextOrderId = id')
    (hR : g'.restingOrdersPerSymbol = Function.update g.restingOrdersPerSymbol (cfg.symbolIdx d.symbolPick) l') :
    Tracks g' (l.apply (.replace x)) (ms ++ [.replace x]) (k + 1) := by
  cases hg with
  | @replace l₁ l₂ id₀ hl =>
    obtain ⟨hnd₀, hout, hsub⟩ := h.picked_split hl
    have hnd : (l₁ ++ g.nextOrderId :: l₂).Nodup := by
      rw [List.nodup_middle, List.nodup_cons]
      exact ⟨fun hid => h.ne_next hk (hsub _ hid) rfl, hnd₀⟩
    have hmem : ∀ id ∈ l₁ ++ g.nextOrderId :: l₂, id ∈ l₁ ++ l₂ ∨ id = g.nextOrderId := by
      intro id hid
      rw [List.mem_append, List.mem_cons] at hid
      rw [List.mem_append]
      tauto
    obtain ⟨hnd, hdisj⟩ := h.apart hk _ hnd fun id hid => (hmem id hid).imp_left (hsub id)
    have hpick := (h.picked hl).2.1
    refine ⟨hn.trans h.succ_next, ?_, ?_, hR ▸ hnd, hR ▸ hdisj⟩
    · intro id hid
      have hne : id ≠ id₀ := fun e => by rw [e] at hid; omega
      exact h.fresh_kept (by omega) hne fun e => h.ne_next_of_later hk hid (Option.some.inj e).symm
    · intro j id hid
      rw [hR, Function.update_apply] at hid
      split at hid
      · next hj =>
        rw [hj]
        rcases hmem id hid with hid | rfl
        · obtain ⟨h₁, h₂⟩ := h.resting_kept hk (.replace hl) (hsub id hid) fun (e : id = id₀) => hout (e ▸ hid)
          exact ⟨by omega, h₂⟩
        · -- the new name of the order
          have hnext := h.next_toNat hk
          have hzero : executionsOf g.nextOrderId ms = 0 := (h.fresh _ hnext.ge).2
          obtain ⟨q, hq⟩ := h.home (.replace hl) hr
          refine ⟨by omega, ?_⟩
          rw [executionsOf_append, hzero, Live.apply_replace hq, Function.update_self]
          rfl
      · next hj =>
        obtain ⟨h₁, h₂⟩ := h.resting_kept hk (.replace hl) hid (h.ne_picked hl hj hid)
        exact ⟨by omega, h₂⟩

end Generate

theorem generate (h : Tracks g l ms k) (hk : k < 2 ^ 64) (hg : Generated g d seq m id' l') (hr : l.Refers m) :
    ∃ k', k ≤ k' ∧ k' ≤ k + 1 ∧ ∀ g' : FeedGenerator cfg, g'.nextOrderId = id' →
      g'.restingOrdersPerSymbol = Function.update g.restingOrdersPerSymbol (cfg.symbolIdx d.symbolPick) l' →
      Tracks g' (l.apply m) (ms ++ [m]) k' := by
  cases m with
  | add a => exact ⟨k + 1, by omega, le_rfl, fun g' hn hR => h.generate_add hk hg hn hR⟩
  | cancel c => exact ⟨k, le_rfl, by omega, fun g' hn hR => h.generate_cancel hk hg hn hR⟩
  | execute x => exact ⟨k, le_rfl, by omega, fun g' hn hR => h.generate_execute hk hg hr hn hR⟩
  | replace x => exact ⟨k + 1, by omega, le_rfl, fun g' hn hR => h.generate_replace hk hg hr hn hR⟩

end Tracks

end FeedGenerator

end Mdfh
