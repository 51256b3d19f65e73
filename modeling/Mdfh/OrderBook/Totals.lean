import Mdfh.OrderBook.FlatBook
import Mathlib.Algebra.Order.BigOperators.Group.List

/-!
# Aggregate quantities against the true sums

A level's `total_quantity` is a 32-bit counter that is only ever updated in place. `trueTotal` is the
unbounded sum of the remaining quantities at a level of the reference book, `touched` lists the levels
a message reports with the orders resting there at that moment, and `Represents.deltas_eq` ties the
reported records to them. The counter is the true sum modulo `2 ^ 32`: it is exact as long as every
level's true sum stays below that, and a level that still holds orders is reported as removed when its
true sum is a multiple of `2 ^ 32`.
-/

namespace Mdfh
open TreeMapLib

theorem sumQuantity_eq_zero_iff (l : List RestingOrder) : sumQuantity l = 0 ↔ 2 ^ 32 ∣ trueSum l := by
  rw [← UInt32.toNat_inj, toNat_sumQuantity, Nat.dvd_iff_mod_eq_zero]
  rfl

theorem le_trueSum {l : List RestingOrder} {o : RestingOrder} (h : o ∈ l) : o.quantity.toNat ≤ trueSum l :=
  List.single_le_sum (by simp) _ (List.mem_map_of_mem h)

theorem trueSum_le_of_sublist {l l' : List RestingOrder} (h : l.Sublist l') : trueSum l ≤ trueSum l' :=
  (h.map _).sum_le_sum (by simp)

/-- A level as a message reports it: the orders resting there at that moment. -/
structure TouchedLevel where
  side : Side
  price : Price
  orders : List RestingOrder

namespace FlatBook

/-- The orders on side `s` (`true` for bids) at price `p`. -/
def restingAt (f : FlatBook) (s : Bool) (p : Price) : List RestingOrder := f.filter (restsAt s p)

def trueTotal (f : FlatBook) (s : Bool) (p : Price) : Nat := trueSum (f.restingAt s p)

def levelAt (f : FlatBook) (side : Side) (price : Price) : TouchedLevel := ⟨side, price, f.restingAt side.isBuy price⟩

/-- The levels a message reports when it is accepted, in order. A Replace reports the level it vacates
before the new order is queued. -/
def touched (f : FlatBook) (m : DecodedMessage) : List TouchedLevel :=
  match m with
  | .add a => [(f.apply m).2.levelAt a.side a.price]
  | .cancel c => (f.find c.orderId).toList.map fun o => (f.apply m).2.levelAt o.side o.price
  | .execute e => (f.find e.orderId).toList.map fun o => (f.apply m).2.levelAt o.side o.price
  | .replace r => (f.find r.oldOrderId).toList.flatMap fun o =>
      [(f.delete r.oldOrderId).levelAt o.side o.price, (f.apply m).2.levelAt o.side r.price]

end FlatBook

/-- The record of a touched level, with the 32-bit total. -/
def TouchedLevel.delta (t : TouchedLevel) : LevelDelta := ⟨t.side, t.price, sumQuantity t.orders⟩

namespace Represents
variable {b b' : OrderBookT} {f : FlatBook} {m : DecodedMessage} {ds : ApplyResult}

theorem restingAt_eq (h : Represents b f) (s : Bool) (p : Price) : b.queue s p = f.restingAt s p := h.queue s p

/-- An accepted message reports the levels it touched, each with the 32-bit sum of its orders. -/
theorem deltas_eq (h : Represents b f) (ha : b.apply m = some (.ok ds, b')) :
    ds = (f.touched m).map TouchedLevel.delta ∧ Represents b' (f.apply m).2 ∧ (f.apply m).1 = .ok () := by
  obtain ⟨r, b₁, e, h', hr⟩ := h.apply m
  rw [ha, Option.some.injEq, Prod.mk.injEq] at e
  obtain ⟨rfl, rfl⟩ := e
  obtain ⟨_, he, -⟩ | ⟨ds', hds, hok⟩ := hr
  · cases he
  refine ⟨?_, h', hok⟩
  have hinj : ∀ {ds₁ : ApplyResult} {b₁ : OrderBookT}, b.apply m = some (.ok ds₁, b₁) → ds = ds₁ ∧ b' = b₁ := by
    intro ds₁ b₁ e
    rw [ha, Option.some.injEq, Prod.mk.injEq, Except.ok.injEq] at e
    exact e
  cases m with
  | add a =>
    cases hd : b.hasOrder a.orderId with
    | true => rw [show b.apply (.add a) = b.applyAdd a from rfl, OrderBookT.applyAdd_dup a hd] at ha; cases ha
    | false =>
      obtain ⟨b₁, e, -⟩ := h.inv.applyAdd_ok a hd
      obtain ⟨rfl, rfl⟩ := hinj e
      simp only [FlatBook.touched, List.map_cons, List.map_nil, TouchedLevel.delta, FlatBook.levelAt, ← h'.restingAt_eq]
  | cancel c =>
    cases hf : f.find c.orderId with
    | none => simp [FlatBook.apply, hf] at hok
    | some o =>
      obtain ⟨b₁, e, -⟩ := h.inv.applyCancel_ok c ((h.resting_eq _).trans hf)
      obtain ⟨rfl, rfl⟩ := hinj e
      simp only [FlatBook.touched, hf, Option.toList_some, List.map_cons, List.map_nil, TouchedLevel.delta,
        FlatBook.levelAt, ← h'.restingAt_eq]
  | execute x =>
    cases hf : f.find x.orderId with
    | none => simp [FlatBook.apply, hf] at hok
    | some o =>
      have hres := (h.resting_eq _).trans hf
      have hx : ¬ o.quantity < x.executedQuantity := fun hx => by simp [FlatBook.apply, hf, hx] at hok
      have hrep : ds = [⟨o.side, o.price, sumQuantity (b'.queue o.side.isBuy o.price)⟩] := by
        by_cases hz : o.quantity - x.executedQuantity = 0
        · obtain ⟨b₁, e, -⟩ := h.inv.applyExecute_all x hres (UInt32.not_lt.1 hx) hz
          obtain ⟨rfl, rfl⟩ := hinj e
          rfl
        · obtain ⟨b₁, e, -⟩ := h.inv.applyExecute_rest x hres (UInt32.not_lt.1 hx) hz
          obtain ⟨rfl, rfl⟩ := hinj e
          rfl
      simp only [hrep, FlatBook.touched, hf, Option.toList_some, List.map_cons, List.map_nil, TouchedLevel.delta,
        FlatBook.levelAt, ← h'.restingAt_eq]
  | replace r =>
    cases hf : f.find r.oldOrderId with
    | none => simp [FlatBook.apply, hf] at hok
    | some o =>
      cases hn : b.hasOrder r.newOrderId with
      | true =>
        rw [h.hasOrder_eq, Option.isSome_iff_exists] at hn
        obtain ⟨o', ho'⟩ := hn
        simp [FlatBook.apply, hf, ho'] at hok
      | false =>
        obtain ⟨b₁, b₂, e, hb₁, -, hq₁, -⟩ := h.inv.applyReplace_ok r ((h.resting_eq _).trans hf) hn
        obtain ⟨rfl, rfl⟩ := hinj e
        have h₁ := h.delete r.oldOrderId hb₁ hq₁
        simp only [FlatBook.touched, hf, Option.toList_some, List.flatMap_cons, List.flatMap_nil, List.append_nil,
          List.map_cons, List.map_nil, TouchedLevel.delta, FlatBook.levelAt, ← h'.restingAt_eq, ← h₁.restingAt_eq]

end Represents

/-! ### Exact totals -/

namespace OrderBookT

/-- The operands of the one subtraction in `remove_resting_order`: the level's total and the quantity
of the order that leaves. -/
def removalSubtraction (b : OrderBookT) (id : OrderId) : List (Quantity × Quantity) :=
  (b.resting id).toList.map fun o => (((b.levelFor o.side o.price).getD {}).totalQuantity, o.quantity)

/-- The operands of every `-=` that `apply` performs, in order. -/
def subtractions (b : OrderBookT) : DecodedMessage → List (Quantity × Quantity)
  | .add _ => []
  | .cancel m => b.removalSubtraction m.orderId
  | .execute m =>
    match b.resting m.orderId with
    | none => []
    | some o =>
      if m.executedQuantity > o.quantity then []
      else
        let total := ((b.levelFor o.side o.price).getD {}).totalQuantity
        [(total, m.executedQuantity), (o.quantity, m.executedQuantity)] ++
          -- a filled order is removed with the quantity it has left
          if o.quantity - m.executedQuantity = 0 then
            [(total - m.executedQuantity, o.quantity - m.executedQuantity)]
          else []
  | .replace m => if b.hasOrder m.newOrderId then [] else b.removalSubtraction m.oldOrderId

end OrderBookT

/-- Every total the book stores or shows is the true sum of its level. -/
structure TotalsExact (b : OrderBookT) (f : FlatBook) : Prop where
  level : ∀ s p l, b.level s p = some l → l.totalQuantity.toNat = f.trueTotal s p
  bids : ∀ n, ∀ v ∈ (b.depthSnapshot n).bids, v.totalQuantity.toNat = f.trueTotal true v.price
  asks : ∀ n, ∀ v ∈ (b.depthSnapshot n).asks, v.totalQuantity.toNat = f.trueTotal false v.price
  bestBid : ∀ v ∈ b.bestBidAsk.bid, v.totalQuantity.toNat = f.trueTotal true v.price
  bestAsk : ∀ v ∈ b.bestBidAsk.ask, v.totalQuantity.toNat = f.trueTotal false v.price

/-- When `m` is accepted, each reported total is the true sum of its level at that moment, and no
subtraction goes below zero. -/
def StepExact (b : OrderBookT) (f : FlatBook) (m : DecodedMessage) : Prop :=
  ∀ ds b', b.apply m = some (.ok ds, b') →
    (ds.map fun d => (d.side, d.price, d.totalQuantity.toNat)) =
      ((f.touched m).map fun t => (t.side, t.price, trueSum t.orders)) ∧
    ∀ s ∈ b.subtractions m, s.2 ≤ s.1

/-- All totals are exact throughout the run of `ms`: in every book it passes through, and in every
step. -/
def ExactRun (ms : List DecodedMessage) : Prop :=
  ∀ done rest, ms = done ++ rest → ∃ rs b, OrderBookT.run {} done = some (rs, b) ∧
    TotalsExact b (FlatBook.run [] done).2 ∧ ∀ m ∈ rest.head?, StepExact b (FlatBook.run [] done).2 m

/-- No level's true sum exceeds 32 bits. -/
def FlatBook.SumsFit (f : FlatBook) : Prop := ∀ s p, f.trueTotal s p < 2 ^ 32

theorem levelViews_mem {cmp : Price → Price → Ordering} [Std.TransCmp cmp] [Std.LawfulEqCmp cmp]
    {levels : Std.ExtTreeMap Price Level cmp} {v : PriceLevelView} (hv : v ∈ levelViews levels) :
    ∃ l, levels[v.price]? = some l ∧ v.totalQuantity = l.totalQuantity := by
  obtain ⟨⟨p, l⟩, he, rfl⟩ := List.mem_map.1 hv
  exact ⟨l, Std.ExtTreeMap.mem_toList_iff_getElem?_eq_some.1 he, rfl⟩

namespace Represents
variable {b b' : OrderBookT} {f : FlatBook} {m : DecodedMessage} {ds : ApplyResult}

theorem total_eq (h : Represents b f) (s : Bool) (p : Price) :
    ((b.level s p).getD {}).totalQuantity.toNat = f.trueTotal s p % 2 ^ 32 := by
  rw [h.inv.totals_eq, h.restingAt_eq, toNat_sumQuantity, FlatBook.trueTotal]

/-- Where the sums fit, every stored and shown total is exact. -/
theorem totalsExact (h : Represents b f) (hfit : f.SumsFit) : TotalsExact b f := by
  have hlevel : ∀ s p l, b.level s p = some l → l.totalQuantity.toNat = f.trueTotal s p := by
    intro s p l hl
    have ht := h.total_eq s p
    rwa [hl, Option.getD_some, Nat.mod_eq_of_lt (hfit s p)] at ht
  have hbids : ∀ v ∈ levelViews b.bids, v.totalQuantity.toNat = f.trueTotal true v.price := by
    intro v hv
    obtain ⟨l, hl, ht⟩ := levelViews_mem hv
    rw [ht]
    exact hlevel true v.price l hl
  have hasks : ∀ v ∈ levelViews b.asks, v.totalQuantity.toNat = f.trueTotal false v.price := by
    intro v hv
    obtain ⟨l, hl, ht⟩ := levelViews_mem hv
    rw [ht]
    exact hlevel false v.price l hl
  exact ⟨hlevel, fun n v hv => hbids v (List.mem_of_mem_take hv), fun n v hv => hasks v (List.mem_of_mem_take hv),
    fun v hv => hbids v (List.mem_of_head? hv), fun v hv => hasks v (List.mem_of_head? hv)⟩

theorem sumsFit (h : Represents b f) (he : TotalsExact b f) : f.SumsFit := by
  intro s p
  cases hl : b.level s p with
  | none =>
    have hq := (h.inv.level_eq_none_iff s p).1 hl
    rw [h.restingAt_eq] at hq
    rw [FlatBook.trueTotal, hq]
    decide
  | some l =>
    rw [← he.level s p l hl]
    exact UInt32.toNat_lt _

theorem quantity_le_total (h : Represents b f) (hfit : f.SumsFit) {id : OrderId} {o : RestingOrder}
    (hr : b.resting id = some o) : o.quantity ≤ ((b.levelFor o.side o.price).getD {}).totalQuantity := by
  obtain ⟨-, hmem⟩ := h.inv.resting_eq_some_iff.1 hr
  rw [h.restingAt_eq] at hmem
  have ht := h.total_eq o.side.isBuy o.price
  rw [Nat.mod_eq_of_lt (hfit _ _)] at ht
  rw [UInt32.le_iff_toNat_le, OrderBookT.levelFor_eq, ht]
  exact le_trueSum hmem

theorem removal_le (h : Represents b f) (hfit : f.SumsFit) (id : OrderId) :
    ∀ s ∈ b.removalSubtraction id, s.2 ≤ s.1 := by
  intro s hs
  obtain ⟨o, ho, rfl⟩ := List.mem_map.1 hs
  exact h.quantity_le_total hfit (Option.mem_toList.1 ho)

theorem subtractions_le (h : Represents b f) (hfit : f.SumsFit) (m : DecodedMessage) :
    ∀ s ∈ b.subtractions m, s.2 ≤ s.1 := by
  cases m with
  | add a => simp [OrderBookT.subtractions]
  | cancel c => exact h.removal_le hfit c.orderId
  | execute x =>
    intro s hs
    simp only [OrderBookT.subtractions] at hs
    cases ho : b.resting x.orderId with
    | none => simp [ho] at hs
    | some o =>
      have hle := h.quantity_le_total hfit ho
      rw [ho] at hs
      dsimp only at hs
      split at hs
      · cases hs
      next hx =>
      have hx := UInt32.not_lt.1 hx
      rcases List.mem_append.1 hs with hs | hs
      · simp only [List.mem_cons, List.not_mem_nil, or_false] at hs
        rcases hs with rfl | rfl
        · exact UInt32.le_trans hx hle
        · exact hx
      · split at hs
        · next hz =>
          rw [List.mem_singleton.1 hs]
          show o.quantity - x.executedQuantity ≤ _
          rw [hz]
          exact UInt32.zero_le
        · cases hs
  | replace r =>
    intro s hs
    simp only [OrderBookT.subtractions] at hs
    split at hs
    · cases hs
    · exact h.removal_le hfit r.oldOrderId s hs

theorem touched_fits (hfit : f.SumsFit) (hfit' : (f.apply m).2.SumsFit) :
    ∀ t ∈ f.touched m, trueSum t.orders < 2 ^ 32 := by
  intro t ht
  cases m with
  | add a =>
    rw [List.mem_singleton.1 ht]
    exact hfit' _ _
  | cancel c =>
    obtain ⟨o, -, rfl⟩ := List.mem_map.1 ht
    exact hfit' _ _
  | execute x =>
    obtain ⟨o, -, rfl⟩ := List.mem_map.1 ht
    exact hfit' _ _
  | replace r =>
    obtain ⟨o, -, ht⟩ := List.mem_flatMap.1 ht
    simp only [List.mem_cons, List.not_mem_nil, or_false] at ht
    rcases ht with rfl | rfl
    · -- the vacated level lost an order of the level before
      refine lt_of_le_of_lt (trueSum_le_of_sublist ?_) (hfit o.side.isBuy o.price)
      exact List.filter_sublist.filter _
    · exact hfit' _ _

theorem stepExact (h : Represents b f) (hfit : f.SumsFit) (hfit' : (f.apply m).2.SumsFit) : StepExact b f m := by
  intro ds b' ha
  obtain ⟨hds, -, -⟩ := h.deltas_eq ha
  refine ⟨?_, h.subtractions_le hfit m⟩
  rw [hds, List.map_map]
  refine List.map_congr_left fun t ht => ?_
  have hlt := touched_fits hfit hfit' t ht
  simp only [Function.comp, TouchedLevel.delta, toNat_sumQuantity, Nat.mod_eq_of_lt hlt]

end Represents

theorem FlatBook.run_concat (f : FlatBook) (ms : List DecodedMessage) (m : DecodedMessage) :
    (f.run (ms ++ [m])).2 = ((f.run ms).2.apply m).2 := by
  induction ms generalizing f with
  | nil => rfl
  | cons m' ms ih => exact ih _

/-- In an exact run no level's true sum outgrows its counter. -/
theorem ExactRun.sumsFit {ms : List DecodedMessage} (h : ExactRun ms) {done : List DecodedMessage} (hd : done <+: ms) :
    (FlatBook.run [] done).2.SumsFit := by
  obtain ⟨rest, hrest⟩ := hd
  obtain ⟨rs, b, hrun, hex, -⟩ := h done rest hrest.symm
  obtain ⟨rs', b₁, hrun', -, hb⟩ := Represents.empty.run done
  rw [hrun, Option.some.injEq, Prod.mk.injEq] at hrun'
  obtain ⟨rfl, rfl⟩ := hrun'
  exact hb.sumsFit hex

/-- The totals of a run are exact, and its subtractions stay above zero, exactly when no level's true
sum ever reaches `2 ^ 32`. -/
theorem exactRun_iff (ms : List DecodedMessage) :
    ExactRun ms ↔ ∀ done, done <+: ms → ∀ s p, (FlatBook.run [] done).2.trueTotal s p < 2 ^ 32 := by
  constructor
  · intro h done hd
    exact h.sumsFit hd
  · intro hfit done rest hms
    obtain ⟨rs, b, hrun, -, hb⟩ := Represents.empty.run done
    have hdone : (FlatBook.run [] done).2.SumsFit := hfit done ⟨rest, hms.symm⟩
    refine ⟨rs, b, hrun, hb.totalsExact hdone, fun m hm => hb.stepExact hdone ?_⟩
    obtain ⟨rest', rfl⟩ := List.head?_eq_some_iff.1 hm
    rw [← FlatBook.run_concat]
    exact hfit (done ++ [m]) ⟨rest', by rw [hms, List.append_assoc]; rfl⟩

/-- Two buy orders of `2 ^ 31` at one price. -/
def bigAdds : List DecodedMessage :=
  [.add ⟨1, 1, Vector.replicate 8 65, .buy, 100, 2147483648, 0⟩,
   .add ⟨2, 2, Vector.replicate 8 65, .buy, 100, 2147483648, 0⟩]

/-- Both are accepted, the level then holds `2 ^ 32`, and its total, the second record and the best bid
all say `0`. -/
theorem bigAdds_total_wraps :
    (OrderBookT.run {} bigAdds).map (fun r => (r.1, r.2.bestBidAsk.bid)) =
        some ([.ok [⟨.buy, 100, 2147483648⟩], .ok [⟨.buy, 100, 0⟩]], some ⟨100, 0, 2⟩) ∧
      (FlatBook.run [] bigAdds).2.trueTotal true 100 = 2 ^ 32 ∧ ¬ ExactRun bigAdds := by
  refine ⟨by decide +kernel, by decide +kernel, fun h => ?_⟩
  have hfit := h.sumsFit (List.prefix_refl bigAdds) true 100
  exact absurd hfit (by decide +kernel)

end Mdfh
