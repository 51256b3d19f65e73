import Mdfh.OrderBook.Totals

/-!
# Total `0` as the sign of a removed level

Downstream reads a record with total `0` as "this level is gone". After an accepted message the final
record of a level carries the 32-bit sum of the orders left there, so the sign is right unless orders
are left whose quantities sum to a multiple of `2 ^ 32`: orders of quantity `0` only (an Add or a
Replace with quantity `0` at a price of its own), or a sum that wraps.
-/

namespace Mdfh
open TreeMapLib

/-- `d` is the last record of the result for its side and price. -/
def FinalRecord (ds : ApplyResult) (d : LevelDelta) : Prop :=
  ∃ before after, ds = before ++ d :: after ∧ ∀ d' ∈ after, ¬ (d'.side = d.side ∧ d'.price = d.price)

namespace OrderBookT

/-- The views of one side (`true` for bids) in a depth snapshot. -/
def shown (b : OrderBookT) (s : Bool) (n : Nat) : List PriceLevelView :=
  if s then (b.depthSnapshot n).bids else (b.depthSnapshot n).asks

/-- What `insert_resting_order` returns while `m` is applied, where it is called. -/
def insertedTotal (b : OrderBookT) : DecodedMessage → Option Quantity
  | .add m => some (b.insertRestingOrder ⟨m.orderId, m.side, m.price, m.quantity⟩).1
  | .cancel _ | .execute _ => none
  | .replace m => do
    let loc ← b.orderIndex[m.oldOrderId]?
    let (_, b) ← b.removeRestingOrder m.oldOrderId
    return (b.insertRestingOrder ⟨m.newOrderId, loc.side, m.price, m.quantity⟩).1

end OrderBookT

/-- Each final record has total `0` exactly when no order rests at its level after the call, that is
when no depth snapshot shows the level; and `insert_resting_order` returned more than `0`. -/
structure ZeroMeansRemoved (b : OrderBookT) (m : DecodedMessage) (ds : ApplyResult) (b' : OrderBookT) : Prop where
  rests : ∀ d, FinalRecord ds d → (d.totalQuantity = 0 ↔ b'.queue d.side.isBuy d.price = [])
  shown : ∀ d, FinalRecord ds d →
    (d.totalQuantity = 0 ↔ ∀ n, ∀ v ∈ b'.shown d.side.isBuy n, v.price ≠ d.price)
  inserted : ∀ q ∈ b.insertedTotal m, 0 < q

namespace OrderBookT

theorem mem_levelViews_of_getElem? {cmp : Price → Price → Ordering} [Std.TransCmp cmp] [Std.LawfulEqCmp cmp]
    {levels : Std.ExtTreeMap Price Level cmp} {p : Price} {l : Level} (hl : levels[p]? = some l) :
    ∃ v ∈ levelViews levels, v.price = p :=
  ⟨_, List.mem_map_of_mem (Std.ExtTreeMap.mem_toList_iff_getElem?_eq_some.2 hl), rfl⟩

theorem level_eq_none_iff_shown (b : OrderBookT) (s : Bool) (p : Price) :
    b.level s p = none ↔ ∀ n, ∀ v ∈ b.shown s n, v.price ≠ p := by
  -- one side at a time, over its own map
  have hside : ∀ {cmp : Price → Price → Ordering} [Std.TransCmp cmp] [Std.LawfulEqCmp cmp]
      (levels : Std.ExtTreeMap Price Level cmp),
      levels[p]? = none ↔ ∀ n, ∀ v ∈ (levelViews levels).take n, v.price ≠ p := by
    intro cmp _ _ levels
    constructor
    · rintro hl n v hv rfl
      obtain ⟨l, hl', -⟩ := levelViews_mem (List.mem_of_mem_take hv)
      rw [hl] at hl'
      cases hl'
    · intro h
      cases hl : levels[p]? with
      | none => rfl
      | some l =>
        obtain ⟨v, hv, hp⟩ := mem_levelViews_of_getElem? hl
        exact absurd hp (h (levelViews levels).length v (by rwa [List.take_length]))
  cases s with
  | true => exact hside b.bids
  | false => exact hside b.asks

end OrderBookT

namespace FlatBook

theorem restingAt_append {f : FlatBook} {o : RestingOrder} {s : Bool} {p : Price}
    (h : ¬ (o.side.isBuy = s ∧ o.price = p)) : restingAt (f ++ [o]) s p = f.restingAt s p := by
  have hn : restsAt s p o = false := by
    rw [← Bool.not_eq_true, restsAt, Bool.and_eq_true, beq_iff_eq, beq_iff_eq]
    exact h
  simp [restingAt, hn]

/-- The levels that an accepted message touched and that still hold orders have a true sum the 32-bit
total can tell from `0`. -/
def TouchedNonZero (f : FlatBook) (m : DecodedMessage) : Prop :=
  ∀ t ∈ f.touched m, (f.apply m).2.restingAt t.side.isBuy t.price = [] ∨
    ¬ 2 ^ 32 ∣ (f.apply m).2.trueTotal t.side.isBuy t.price

theorem final_total {f : FlatBook} {m : DecodedMessage} (hok : (f.apply m).1 = .ok ()) {d : LevelDelta}
    (hd : FinalRecord ((f.touched m).map TouchedLevel.delta) d) :
    d.totalQuantity = sumQuantity ((f.apply m).2.restingAt d.side.isBuy d.price) := by
  obtain ⟨before, after, he, hafter⟩ := hd
  have hmem : d ∈ (f.touched m).map TouchedLevel.delta := by rw [he]; simp
  cases m with
  | add a =>
    rw [List.mem_singleton.1 hmem]
    rfl
  | cancel c =>
    rw [touched, List.map_map] at hmem
    obtain ⟨o, -, rfl⟩ := List.mem_map.1 hmem
    rfl
  | execute x =>
    rw [touched, List.map_map] at hmem
    obtain ⟨o, -, rfl⟩ := List.mem_map.1 hmem
    rfl
  | replace r =>
    cases hf : f.find r.oldOrderId with
    | none => simp [touched, hf] at hmem
    | some o =>
      cases hn : f.find r.newOrderId with
      | some o' => simp [FlatBook.apply, hf, hn] at hok
      | none =>
        have happ : (f.apply (.replace r)).2 = f.delete r.oldOrderId ++ [⟨r.newOrderId, o.side, r.price, r.quantity⟩] := by
          simp [FlatBook.apply, hf, hn]
        simp only [touched, hf, Option.toList_some, List.flatMap_cons, List.flatMap_nil, List.append_nil,
          List.map_cons, List.map_nil] at he
        rcases before with _ | ⟨d₁, before⟩
        · -- the vacated level is final only when the new order went to another price
          simp only [List.nil_append, List.cons.injEq] at he
          obtain ⟨rfl, rfl⟩ := he
          have hp : r.price ≠ o.price := fun e => hafter _ (List.mem_singleton_self _) ⟨rfl, e⟩
          rw [happ]
          exact congrArg sumQuantity (restingAt_append fun e => hp e.2).symm
        · simp only [List.cons_append, List.cons.injEq] at he
          have hlast : d = ((f.apply (.replace r)).2.levelAt o.side r.price).delta := by
            rcases before with _ | ⟨d₂, before⟩
            · simp only [List.nil_append, List.cons.injEq] at he
              exact he.2.1.symm
            · simp at he
          rw [hlast]
          rfl

theorem final_of_touched {f : FlatBook} {m : DecodedMessage} {t : TouchedLevel} (ht : t ∈ f.touched m) :
    ∃ d, FinalRecord ((f.touched m).map TouchedLevel.delta) d ∧ d.side = t.side ∧ d.price = t.price := by
  cases m with
  | add a => exact ⟨t.delta, ⟨[], [], by rw [List.mem_singleton.1 ht]; rfl, by simp⟩, rfl, rfl⟩
  | cancel c =>
    cases hf : f.find c.orderId with
    | none => simp [touched, hf] at ht
    | some o =>
      simp only [touched, hf, Option.toList_some, List.map_cons, List.map_nil, List.mem_singleton] at ht ⊢
      exact ⟨t.delta, ⟨[], [], by rw [ht]; rfl, by simp⟩, rfl, rfl⟩
  | execute x =>
    cases hf : f.find x.orderId with
    | none => simp [touched, hf] at ht
    | some o =>
      simp only [touched, hf, Option.toList_some, List.map_cons, List.map_nil, List.mem_singleton] at ht ⊢
      exact ⟨t.delta, ⟨[], [], by rw [ht]; rfl, by simp⟩, rfl, rfl⟩
  | replace r =>
    cases hf : f.find r.oldOrderId with
    | none => simp [touched, hf] at ht
    | some o =>
      simp only [touched, hf, Option.toList_some, List.flatMap_cons, List.flatMap_nil, List.append_nil,
        List.map_cons, List.map_nil, List.mem_cons, List.not_mem_nil, or_false] at ht ⊢
      rcases ht with rfl | rfl
      · by_cases hp : r.price = o.price
        · exact ⟨_, ⟨[_], [], rfl, by simp⟩, rfl, hp⟩
        · refine ⟨_, ⟨[], [_], rfl, fun d' hd' e => hp ?_⟩, rfl, rfl⟩
          rw [List.mem_singleton.1 hd'] at e
          exact e.2
      · exact ⟨_, ⟨[_], [], rfl, by simp⟩, rfl, rfl⟩

end FlatBook

/-- The value `insert_resting_order` returned is the final record of a level that holds the new order. -/
theorem OrderBookT.inserted_final {b b' : OrderBookT} {m : DecodedMessage} {ds : ApplyResult} {q : Quantity}
    (ha : b.apply m = some (.ok ds, b')) (hq : q ∈ b.insertedTotal m) :
    ∃ d, FinalRecord ds d ∧ d.totalQuantity = q ∧ b'.queue d.side.isBuy d.price ≠ [] := by
  -- in both calls the inserted order is the last thing `apply` does
  have hins : ∀ (b₁ : OrderBookT) (o : RestingOrder) (before : ApplyResult),
      ds = before ++ [⟨o.side, o.price, (b₁.insertRestingOrder o).1⟩] → b' = (b₁.insertRestingOrder o).2 →
      (b₁.insertRestingOrder o).1 = q → ∃ d, FinalRecord ds d ∧ d.totalQuantity = q ∧
        b'.queue d.side.isBuy d.price ≠ [] := by
    intro b₁ o before hds hb' hq
    refine ⟨_, ⟨before, [], hds, by simp⟩, hq, ?_⟩
    rw [hb', queue_insert, if_pos ⟨rfl, rfl⟩]
    simp
  cases m with
  | add a =>
    rw [insertedTotal, Option.mem_some_iff] at hq
    rw [OrderBookT.apply, applyAdd] at ha
    split at ha
    · cases ha
    · cases ha
      exact hins b ⟨a.orderId, a.side, a.price, a.quantity⟩ [] rfl rfl hq
  | cancel c => cases hq
  | execute x => cases hq
  | replace r =>
    obtain ⟨loc, hloc, hq⟩ := Option.bind_eq_some_iff.1 hq
    obtain ⟨⟨vacated, b₁⟩, hrem, hq⟩ := Option.bind_eq_some_iff.1 hq
    cases hq
    simp only [OrderBookT.apply, applyReplace, hloc, hrem, Option.bind_eq_bind, Option.bind_some] at ha
    split at ha
    · cases ha
    · cases ha
      exact hins b₁ ⟨r.newOrderId, loc.side, r.price, r.quantity⟩ [⟨vacated.side, vacated.price, vacated.totalQuantity⟩]
        rfl rfl rfl

/-- On every reachable book and accepted message, total `0` means removed exactly when no level the
message touched is left with orders whose quantities sum to a multiple of `2 ^ 32`. -/
theorem zeroMeansRemoved_iff {ms : List DecodedMessage} {m : DecodedMessage} {b b' : OrderBookT}
    {rs : List (Except ApplyError ApplyResult)} {ds : ApplyResult} (hrun : OrderBookT.run {} ms = some (rs, b))
    (ha : b.apply m = some (.ok ds, b')) :
    ZeroMeansRemoved b m ds b' ↔ (FlatBook.run [] ms).2.TouchedNonZero m := by
  obtain ⟨rs', b₁, hrun', -, hb⟩ := Represents.empty.run ms
  rw [hrun, Option.some.injEq, Prod.mk.injEq] at hrun'
  obtain ⟨rfl, rfl⟩ := hrun'
  set f := (FlatBook.run [] ms).2
  obtain ⟨hds, hb', hok⟩ := hb.deltas_eq ha
  have htotal : ∀ d, FinalRecord ds d →
      (d.totalQuantity = 0 ↔ 2 ^ 32 ∣ (f.apply m).2.trueTotal d.side.isBuy d.price) := by
    intro d hd
    rw [hds] at hd
    rw [FlatBook.final_total hok hd, sumQuantity_eq_zero_iff, FlatBook.trueTotal]
  constructor
  · intro hz t ht
    obtain ⟨d, hd, hs, hp⟩ := FlatBook.final_of_touched ht
    rw [← hds] at hd
    rw [← hs, ← hp, ← hb'.restingAt_eq, ← hz.rests d hd, htotal d hd]
    exact em _
  · intro hc
    have hrests : ∀ d, FinalRecord ds d → (d.totalQuantity = 0 ↔ b'.queue d.side.isBuy d.price = []) := by
      intro d hd
      rw [htotal d hd, hb'.restingAt_eq]
      have hmem : d ∈ (f.touched m).map TouchedLevel.delta := by
        obtain ⟨before, after, he, -⟩ := hd
        rw [← hds, he]
        simp
      obtain ⟨t, ht, rfl⟩ := List.mem_map.1 hmem
      constructor
      · intro hdvd
        exact (hc t ht).resolve_right (not_not.2 hdvd)
      · intro he
        rw [FlatBook.trueTotal, he]
        exact dvd_zero _
    refine ⟨hrests, fun d hd => ?_, fun q hq => ?_⟩
    · rw [hrests d hd, ← hb'.inv.level_eq_none_iff, OrderBookT.level_eq_none_iff_shown]
    · obtain ⟨d, hd, rfl, hne⟩ := OrderBookT.inserted_final ha hq
      refine UInt32.pos_iff_ne_zero.2 fun h0 => hne ((hrests d hd).1 h0)

def twoLevels : List DecodedMessage :=
  [.add ⟨1, 7, Vector.replicate 8 65, .buy, 100, 5, 0⟩, .add ⟨2, 8, Vector.replicate 8 65, .buy, 101, 3, 0⟩]

/-- Order `8` moves from a level of its own to the one where order `7` rests. -/
theorem zeroMeansRemoved_move :
    ∃ rs b ds b', OrderBookT.run {} twoLevels = some (rs, b) ∧ b.apply (.replace ⟨3, 8, 9, 100, 4, 0⟩) = some (.ok ds, b') ∧
      ZeroMeansRemoved b (.replace ⟨3, 8, 9, 100, 4, 0⟩) ds b' := by
  refine ⟨_, _, _, _, rfl, rfl, (zeroMeansRemoved_iff (show OrderBookT.run {} twoLevels = some _ from rfl) rfl).2 ?_⟩
  show ∀ t ∈ _, _ ∨ _
  decide +kernel

/-- An Add of quantity `0` to the empty book is accepted and reported with total `0`, and the order
rests there. -/
theorem zero_quantity_add_rests :
    OrderBookT.run {} [] = some ([], {}) ∧
      ∃ b', OrderBookT.apply {} (.add ⟨1, 7, Vector.replicate 8 65, .buy, 100, 0, 0⟩) =
          some (.ok [⟨.buy, 100, 0⟩], b') ∧
        b'.queue true 100 = [⟨7, .buy, 100, 0⟩] ∧
        ¬ ZeroMeansRemoved {} (.add ⟨1, 7, Vector.replicate 8 65, .buy, 100, 0, 0⟩) [⟨.buy, 100, 0⟩] b' := by
  have hq : (OrderBookT.insertRestingOrder {} ⟨7, .buy, 100, 0⟩).2.queue true 100 = [⟨7, .buy, 100, 0⟩] := by
    decide +kernel
  refine ⟨rfl, (OrderBookT.insertRestingOrder {} ⟨7, .buy, 100, 0⟩).2, rfl, hq, fun h => ?_⟩
  have hgone := (h.rests ⟨.buy, 100, 0⟩ ⟨[], [], rfl, by simp⟩).1 rfl
  rw [show Side.buy.isBuy = true from rfl, hq] at hgone
  cases hgone

end Mdfh
