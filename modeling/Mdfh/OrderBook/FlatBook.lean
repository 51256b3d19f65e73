import Mdfh.OrderBook.BookApply

/-!
# The order book refines a flat list of orders

`FlatBook` is what the book is for: one list of resting orders in arrival order, with the four
operations read off the message semantics. `Represents b f` relates the three containers to it (each
level's queue is the sublist of that side and price), every `apply` keeps the relation and returns
what the reference returns; `Refines b f` adds that every order is on one of the two sides, and then
the views of the book are the views computed from the list.
-/

namespace Mdfh

/-- Resting orders in arrival order. -/
abbrev FlatBook := List RestingOrder

namespace FlatBook

def find (f : FlatBook) (id : OrderId) : Option RestingOrder := f.find? (·.orderId == id)
def delete (f : FlatBook) (id : OrderId) : FlatBook := f.filter (·.orderId != id)

/-- The reference semantics of the four messages. -/
def apply (f : FlatBook) : DecodedMessage → Except ApplyError Unit × FlatBook
  | .add m =>
    if (f.find m.orderId).isSome then (.error .duplicateOrderId, f)
    else (.ok (), f ++ [⟨m.orderId, m.side, m.price, m.quantity⟩])
  | .cancel m =>
    if (f.find m.orderId).isSome then (.ok (), f.delete m.orderId) else (.error .orderNotFound, f)
  | .execute m =>
    match f.find m.orderId with
    | none => (.error .orderNotFound, f)
    | some o =>
      if o.quantity < m.executedQuantity then (.error .executedQuantityExceedsRemaining, f)
      else if o.quantity - m.executedQuantity = 0 then (.ok (), f.delete m.orderId)
      else (.ok (), f.map fun o => if o.orderId = m.orderId then o.reduce m.executedQuantity else o)
  | .replace m =>
    match f.find m.oldOrderId with
    | none => (.error .orderNotFound, f)
    | some o =>
      if (f.find m.newOrderId).isSome then (.error .duplicateOrderId, f)
      else (.ok (), f.delete m.oldOrderId ++ [⟨m.newOrderId, o.side, m.price, m.quantity⟩])

/-- The reference run: its results in order, and the orders it leaves. -/
def run (f : FlatBook) : List DecodedMessage → List (Except ApplyError Unit) × FlatBook
  | [] => ([], f)
  | m :: ms => ((f.apply m).1 :: ((f.apply m).2.run ms).1, ((f.apply m).2.run ms).2)

/-- The orders of one side and price. -/
def ordersAt (f : FlatBook) (side : Side) (price : Price) : List RestingOrder :=
  f.filter fun o => o.side = side ∧ o.price = price

/-- The price levels of one side, best first according to `cmp`. -/
def levelViews (f : FlatBook) (side : Side) (cmp : Price → Price → Ordering) : List PriceLevelView :=
  (((f.filter (·.side = side)).map (·.price)).dedup.mergeSort fun p q => (cmp p q).isLE).map fun p =>
    ⟨p, sumQuantity (f.ordersAt side p), (f.ordersAt side p).length⟩

def depthSnapshot (f : FlatBook) (levels : Nat) : DepthSnapshot :=
  ⟨(f.levelViews .buy greater).take levels, (f.levelViews .sell compare).take levels⟩

def bestBidAsk (f : FlatBook) : BestBidAsk :=
  ⟨(f.levelViews .buy greater).head?, (f.levelViews .sell compare).head?⟩

theorem mem_of_find {f : FlatBook} {id : OrderId} {o : RestingOrder} (h : f.find id = some o) :
    o ∈ f ∧ o.orderId = id :=
  ⟨List.mem_of_find?_eq_some h, by simpa using List.find?_some h⟩

theorem find_eq_none {f : FlatBook} {id : OrderId} : f.find id = none ↔ ∀ o ∈ f, o.orderId ≠ id := by
  simp [find, List.find?_eq_none]

end FlatBook

/-- The error of an outcome, if it is one. -/
def errorOf {α : Type} : Except ApplyError α → Option ApplyError
  | .error e => some e
  | .ok _ => none

/-- The order rests on side `s` (`true` for bids) at price `p`. -/
def restsAt (s : Bool) (p : Price) (o : RestingOrder) : Bool := o.side.isBuy == s && o.price == p

/-- The book's containers hold the orders of `f`, whatever their sides. -/
structure Represents (b : OrderBookT) (f : FlatBook) : Prop where
  inv : b.RepInv
  queue : ∀ s p, b.queue s p = f.filter (restsAt s p)

/-- The book's containers hold the orders of `f`. -/
structure Refines (b : OrderBookT) (f : FlatBook) : Prop extends Represents b f where
  sides : ∀ o ∈ f, o.side.Defined

namespace Represents
variable {b : OrderBookT} {f : FlatBook}

theorem mem_iff (h : Represents b f) (o : RestingOrder) : o ∈ f ↔ o ∈ b.queue o.side.isBuy o.price := by
  rw [h.queue, List.mem_filter]
  simp [restsAt]

theorem resting_eq (h : Represents b f) (id : OrderId) : b.resting id = f.find id := by
  cases hf : f.find id with
  | none =>
    cases hr : b.resting id with
    | none => rfl
    | some o =>
      obtain ⟨hid, hmem⟩ := h.inv.resting_eq_some_iff.1 hr
      exact absurd hid (FlatBook.find_eq_none.1 hf o ((h.mem_iff o).2 hmem))
  | some o =>
    obtain ⟨hmem, hid⟩ := FlatBook.mem_of_find hf
    exact h.inv.resting_eq_some_iff.2 ⟨hid, (h.mem_iff o).1 hmem⟩

theorem hasOrder_eq (h : Represents b f) (id : OrderId) : b.hasOrder id = (f.find id).isSome := by
  rw [← h.resting_eq, Bool.eq_iff_iff, h.inv.hasOrder_iff_resting, Option.isSome_iff_exists]

theorem empty : Represents {} [] :=
  ⟨.empty, fun s p => by simp [OrderBookT.queue, OrderBookT.level_empty, Level.queue]⟩

theorem delete (h : Represents b f) {b' : OrderBookT} (id : OrderId) (hb' : b'.RepInv)
    (hq : ∀ s q, b'.queue s q = (b.queue s q).filter (·.orderId != id)) : Represents b' (f.delete id) := by
  refine ⟨hb', fun s p => ?_⟩
  rw [hq, h.queue, FlatBook.delete, List.filter_comm]

theorem append (h : Represents b f) {b' : OrderBookT} (o : RestingOrder) (hb' : b'.RepInv)
    (hq : ∀ s q, b'.queue s q = if s = o.side.isBuy ∧ q = o.price then b.queue s q ++ [o] else b.queue s q) :
    Represents b' (f ++ [o]) := by
  refine ⟨hb', fun s p => ?_⟩
  rw [hq, h.queue, List.filter_append]
  by_cases hat : s = o.side.isBuy ∧ p = o.price
  · simp [hat, restsAt]
  · have : restsAt s p o = false := by
      rw [← Bool.not_eq_true]; simp only [restsAt, Bool.and_eq_true, beq_iff_eq]
      exact fun e => hat ⟨e.1.symm, e.2.symm⟩
    simp [hat, this]

theorem reduce (h : Represents b f) {b' : OrderBookT} (id : OrderId) (q : Quantity) (hb' : b'.RepInv)
    (hq : ∀ s p, b'.queue s p = (b.queue s p).map fun o => if o.orderId = id then o.reduce q else o) :
    Represents b' (f.map fun o => if o.orderId = id then o.reduce q else o) := by
  refine ⟨hb', fun s p => ?_⟩
  rw [hq, h.queue, List.filter_map]
  congr 1
  refine List.filter_congr fun o _ => ?_
  simp only [Function.comp]
  split <;> rfl

/-- One message: the book and the reference return the same error or both succeed, and stay related. -/
theorem apply (h : Represents b f) (m : DecodedMessage) :
    ∃ r b', b.apply m = some (r, b') ∧ Represents b' (f.apply m).2 ∧
      ((∃ e, r = .error e ∧ (f.apply m).1 = .error e ∧ b' = b) ∨ ∃ ds, r = .ok ds ∧ (f.apply m).1 = .ok ()) := by
  cases m with
  | add m =>
    have hd := h.hasOrder_eq m.orderId
    cases hf : f.find m.orderId with
    | some o =>
      rw [hf] at hd
      exact ⟨_, _, OrderBookT.applyAdd_dup m hd, by simpa [FlatBook.apply, hf] using h,
        .inl ⟨_, rfl, by simp [FlatBook.apply, hf], rfl⟩⟩
    | none =>
      rw [hf] at hd
      obtain ⟨b', ha, hb', hq, -⟩ := h.inv.applyAdd_ok m hd
      refine ⟨_, _, ha, ?_, .inr ⟨_, rfl, by simp [FlatBook.apply, hf]⟩⟩
      simpa [FlatBook.apply, hf] using h.append _ hb' hq
  | cancel m =>
    have hd := h.hasOrder_eq m.orderId
    cases hf : f.find m.orderId with
    | none =>
      rw [hf] at hd
      exact ⟨_, _, OrderBookT.applyCancel_notFound m hd, by simpa [FlatBook.apply, hf] using h,
        .inl ⟨_, rfl, by simp [FlatBook.apply, hf], rfl⟩⟩
    | some o =>
      obtain ⟨b', ha, hb', hq, -⟩ := h.inv.applyCancel_ok m ((h.resting_eq _).trans hf)
      refine ⟨_, _, ha, ?_, .inr ⟨_, rfl, by simp [FlatBook.apply, hf]⟩⟩
      simpa [FlatBook.apply, hf] using h.delete m.orderId hb' hq
  | execute m =>
    have hd := h.hasOrder_eq m.orderId
    cases hf : f.find m.orderId with
    | none =>
      rw [hf] at hd
      exact ⟨_, _, OrderBookT.applyExecute_notFound m hd, by simpa [FlatBook.apply, hf] using h,
        .inl ⟨_, rfl, by simp [FlatBook.apply, hf], rfl⟩⟩
    | some o =>
      have hr := (h.resting_eq _).trans hf
      by_cases hx : o.quantity < m.executedQuantity
      · exact ⟨_, _, OrderBookT.applyExecute_exceeds m hr hx, by simpa [FlatBook.apply, hf, hx] using h,
          .inl ⟨_, rfl, by simp [FlatBook.apply, hf, hx], rfl⟩⟩
      by_cases hz : o.quantity - m.executedQuantity = 0
      · obtain ⟨b', ha, hb', hq, -⟩ := h.inv.applyExecute_all m hr (UInt32.not_lt.1 hx) hz
        refine ⟨_, _, ha, ?_, .inr ⟨_, rfl, by simp [FlatBook.apply, hf, hx, hz]⟩⟩
        simpa [FlatBook.apply, hf, hx, hz] using h.delete m.orderId hb' hq
      · obtain ⟨b', ha, hb', hq, -⟩ := h.inv.applyExecute_rest m hr (UInt32.not_lt.1 hx) hz
        refine ⟨_, _, ha, ?_, .inr ⟨_, rfl, by simp [FlatBook.apply, hf, hx, hz]⟩⟩
        simpa [FlatBook.apply, hf, hx, hz] using h.reduce m.orderId m.executedQuantity hb' hq
  | replace m =>
    have hd := h.hasOrder_eq m.oldOrderId
    cases hf : f.find m.oldOrderId with
    | none =>
      rw [hf] at hd
      exact ⟨_, _, OrderBookT.applyReplace_notFound m hd, by simpa [FlatBook.apply, hf] using h,
        .inl ⟨_, rfl, by simp [FlatBook.apply, hf], rfl⟩⟩
    | some o =>
      rw [hf] at hd
      have hn := h.hasOrder_eq m.newOrderId
      cases hg : f.find m.newOrderId with
      | some o' =>
        rw [hg] at hn
        exact ⟨_, _, OrderBookT.applyReplace_dup m hd hn, by simpa [FlatBook.apply, hf, hg] using h,
          .inl ⟨_, rfl, by simp [FlatBook.apply, hf, hg], rfl⟩⟩
      | none =>
        rw [hg] at hn
        obtain ⟨b₁, b', ha, hb₁, hb', hq₁, hq, -⟩ := h.inv.applyReplace_ok m ((h.resting_eq _).trans hf) hn
        refine ⟨_, _, ha, ?_, .inr ⟨_, rfl, by simp [FlatBook.apply, hf, hg]⟩⟩
        have h₁ := h.delete m.oldOrderId hb₁ hq₁
        simpa [FlatBook.apply, hf, hg] using h₁.append ⟨m.newOrderId, o.side, m.price, m.quantity⟩ hb' hq

theorem run (h : Represents b f) (ms : List DecodedMessage) :
    ∃ rs b', b.run ms = some (rs, b') ∧ rs.map errorOf = (f.run ms).1.map errorOf ∧ Represents b' (f.run ms).2 := by
  induction ms generalizing b f with
  | nil => exact ⟨[], b, rfl, rfl, h⟩
  | cons m ms ih =>
    obtain ⟨r, b₁, ha, h₁, hr⟩ := h.apply m
    obtain ⟨rs, b', hrun, hrs, h'⟩ := ih h₁
    refine ⟨r :: rs, b', by simp [OrderBookT.run, ha, hrun], ?_, h'⟩
    have he : errorOf r = errorOf (f.apply m).1 := by
      rcases hr with ⟨e, rfl, hf, -⟩ | ⟨ds, rfl, hf⟩ <;> rw [hf] <;> rfl
    simp [FlatBook.run, he, hrs]

end Represents

theorem FlatBook.apply_sides {f : FlatBook} (h : ∀ o ∈ f, o.side.Defined) {m : DecodedMessage}
    (hs : ∀ a, m = .add a → a.side.Defined) : ∀ o ∈ (f.apply m).2, o.side.Defined := by
  have hdel : ∀ id, ∀ o ∈ f.delete id, o.side.Defined := fun id o ho => h o (List.mem_filter.1 ho).1
  have happ : ∀ (g : FlatBook) (o' : RestingOrder), (∀ o ∈ g, o.side.Defined) → o'.side.Defined →
      ∀ o ∈ g ++ [o'], o.side.Defined := by
    intro g o' hg ho' o ho
    rcases List.mem_append.1 ho with ho | ho
    · exact hg o ho
    · rw [List.mem_singleton.1 ho]
      exact ho'
  cases m with
  | add m =>
    rw [FlatBook.apply]
    split
    · exact h
    · exact happ f _ h (hs m rfl)
  | cancel m =>
    rw [FlatBook.apply]
    split
    · exact hdel m.orderId
    · exact h
  | execute m =>
    rw [FlatBook.apply]
    split
    · exact h
    split_ifs
    · exact h
    · exact hdel m.orderId
    · intro o ho
      obtain ⟨o', ho', rfl⟩ := List.mem_map.1 ho
      have := h o' ho'
      split <;> exact this
  | replace m =>
    rw [FlatBook.apply]
    split
    · exact h
    next o hf =>
    split
    · exact h
    · exact happ _ _ (hdel m.oldOrderId) (h o (FlatBook.mem_of_find hf).1)

theorem FlatBook.run_sides {f : FlatBook} (h : ∀ o ∈ f, o.side.Defined) {ms : List DecodedMessage}
    (hs : SidesDefined ms) : ∀ o ∈ (f.run ms).2, o.side.Defined := by
  induction ms generalizing f with
  | nil => exact h
  | cons m ms ih =>
    exact ih (FlatBook.apply_sides h fun a e => hs a (by simp [e])) fun a ha => hs a (by simp [ha])

namespace Refines
variable {b : OrderBookT} {f : FlatBook}

theorem empty : Refines {} [] := ⟨.empty, by simp⟩

/-! ### The views -/

theorem restsAt_eq {o : RestingOrder} (ho : o.side.Defined) {side : Side} (hs : side.Defined) (p : Price) :
    restsAt side.isBuy p o = decide (o.side = side ∧ o.price = p) := by
  have hb : Side.sell.isBuy = false := rfl
  have ha : Side.buy.isBuy = true := rfl
  have hne : Side.buy ≠ Side.sell := by decide
  rcases ho with ho | ho <;> rcases hs with hs | hs <;> simp [restsAt, ho, hs, ha, hb, hne, hne.symm] <;> rfl

theorem queue_eq (h : Refines b f) {side : Side} (hs : side.Defined) (p : Price) :
    b.queue side.isBuy p = f.ordersAt side p := by
  rw [h.queue]
  exact List.filter_congr fun o ho => restsAt_eq (h.sides o ho) hs p

/-- The levels of one side's map, in map order, are the price levels of the list. -/
theorem levelViews_eq (h : Refines b f) {side : Side} (hs : side.Defined) {cmp : Price → Price → Ordering}
    [Std.TransCmp cmp] [Std.LawfulEqCmp cmp] (levels : Std.ExtTreeMap Price Level cmp)
    (hl : ∀ p, levels[p]? = b.level side.isBuy p) : levelViews levels = f.levelViews side cmp := by
  have hkeys : levels.keys =
      ((f.filter (·.side = side)).map (·.price)).dedup.mergeSort (fun p q => (cmp p q).isLE) := by
    refine TreeMapLib.keys_eq_mergeSort _ _ fun p => ?_
    rw [Std.ExtTreeMap.mem_iff_isSome_getElem?, hl, Option.isSome_iff_ne_none, ne_eq,
      h.inv.level_eq_none_iff, h.queue_eq hs, FlatBook.ordersAt, List.filter_eq_nil_iff]
    simp [and_assoc, and_comm]
  unfold levelViews FlatBook.levelViews
  rw [← hkeys, ← Std.ExtTreeMap.map_fst_toList_eq_keys, List.map_map]
  refine List.map_congr_left fun e he => ?_
  have he' : b.level side.isBuy e.1 = some e.2 := by
    rw [← hl]; exact Std.ExtTreeMap.mem_toList_iff_getElem?_eq_some.1 he
  have hlen : e.2.orders.length = (b.queue side.isBuy e.1).length := by
    simp [OrderBookT.queue, he', Level.queue]
  simp only [Function.comp, ← h.queue_eq hs, h.inv.total_eq he', hlen]

theorem bids_eq (h : Refines b f) : levelViews b.bids = f.levelViews .buy greater :=
  h.levelViews_eq (.inl rfl) b.bids fun _ => rfl

theorem asks_eq (h : Refines b f) : levelViews b.asks = f.levelViews .sell compare :=
  h.levelViews_eq (.inr rfl) b.asks fun _ => rfl

theorem run (h : Refines b f) (ms : List DecodedMessage) (hs : SidesDefined ms) :
    ∃ rs b', b.run ms = some (rs, b') ∧ rs.map errorOf = (f.run ms).1.map errorOf ∧ Refines b' (f.run ms).2 := by
  obtain ⟨rs, b', hrun, hrs, h'⟩ := h.toRepresents.run ms
  exact ⟨rs, b', hrun, hrs, h', FlatBook.run_sides h.sides hs⟩

end Refines

theorem FlatBook.levelViews_pairwise {b : OrderBookT} {f : FlatBook} (h : Refines b f) :
    (f.levelViews .buy greater).Pairwise (fun v w => w.price < v.price) ∧
      (f.levelViews .sell compare).Pairwise (fun v w => v.price < w.price) := by
  rw [← h.bids_eq, ← h.asks_eq]
  constructor <;> refine List.pairwise_map.2 (Std.ExtTreeMap.ordered_keys_toList.imp fun {e e'} hlt => ?_)
  · exact compareOfLessAndEq_eq_lt.1 hlt
  · exact compareOfLessAndEq_eq_lt.1 hlt

/-- Over every message sequence the book is the reference book: the same outcome for each message, no
change on an error, the reference's orders of a side and price in each level's queue, the same
resting ids, and the views computed from the reference (totals are sums modulo `2 ^ 32`). -/
theorem run_refines_flatBook (ms : List DecodedMessage) (hs : SidesDefined ms) :
    ∃ rs b, OrderBookT.run {} ms = some (rs, b) ∧
      let f := (FlatBook.run [] ms).2
      rs.map errorOf = (FlatBook.run [] ms).1.map errorOf ∧
      (∀ m r b', b.apply m = some (r, b') → errorOf r ≠ none → b' = b) ∧
      (∀ side price, side.Defined → ((b.levelFor side price).getD {}).queue = f.ordersAt side price) ∧
      (∀ id, b.hasOrder id = (f.find id).isSome) ∧
      (∀ n, b.depthSnapshot n = f.depthSnapshot n) ∧ b.bestBidAsk = f.bestBidAsk ∧
      (f.levelViews .buy greater).Pairwise (fun v w => w.price < v.price) ∧
      (f.levelViews .sell compare).Pairwise (fun v w => v.price < w.price) := by
  obtain ⟨rs, b, hrun, hrs, h⟩ := Refines.empty.run ms hs
  refine ⟨rs, b, hrun, hrs, ?_, fun side price hside => h.queue_eq hside price, h.toRepresents.hasOrder_eq, fun n => ?_, ?_,
    FlatBook.levelViews_pairwise h⟩
  · intro m r b' ha he
    cases r with
    | error e => exact h.inv.apply_error ha
    | ok ds => exact absurd rfl he
  · rw [OrderBookT.depthSnapshot, h.bids_eq, h.asks_eq, FlatBook.depthSnapshot]
  · rw [OrderBookT.bestBidAsk, h.bids_eq, h.asks_eq, FlatBook.bestBidAsk]

theorem run_refines_flatBook_add_execute :
    ∃ rs b, OrderBookT.run {} [.add ⟨1, 7, Vector.replicate 8 0, .buy, 100, 10, 1⟩, .execute ⟨2, 7, 4, 2⟩] =
        some (rs, b) ∧ ((b.levelFor .buy 100).getD {}).queue = [⟨7, .buy, 100, 6⟩] := by
  obtain ⟨rs, b, hrun, -, -, hq, -⟩ := run_refines_flatBook
    [.add ⟨1, 7, Vector.replicate 8 0, .buy, 100, 10, 1⟩, .execute ⟨2, 7, 4, 2⟩] (by
      intro a ha
      simp only [List.mem_cons, DecodedMessage.add.injEq, reduceCtorEq, List.not_mem_nil, or_false] at ha
      rw [ha]
      exact .inl rfl)
  refine ⟨rs, b, hrun, ?_⟩
  rw [hq .buy 100 (.inl rfl)]
  decide

end Mdfh
