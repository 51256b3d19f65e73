import Mdfh.OrderBook.Accepts

/-!
# A book as the remaining quantities of its orders

For the question which orders still rest, a book is a map from ids to remaining quantities, and a
message acts on that map alone: `remaining_apply` says that `apply` and `applyRemaining` agree on every
message, accepted or not.
-/

namespace Mdfh
open OrderBookT

/-- The remaining quantity of each resting order. -/
abbrev Remaining := OrderId → Option Quantity

/-- What a message does to the remaining quantities; a message the book rejects does nothing. -/
def applyRemaining (f : Remaining) : DecodedMessage → Remaining
  | .add m => if (f m.orderId).isSome then f else Function.update f m.orderId (some m.quantity)
  | .cancel m => Function.update f m.orderId none
  | .execute m =>
    match f m.orderId with
    | none => f
    | some q =>
      if q < m.executedQuantity then f
      else Function.update f m.orderId (if q - m.executedQuantity = 0 then none else some (q - m.executedQuantity))
  | .replace m =>
    if (f m.oldOrderId).isSome ∧ (f m.newOrderId).isNone then
      Function.update (Function.update f m.oldOrderId none) m.newOrderId (some m.quantity)
    else f

namespace OrderBookT.RepInv
variable {b b' : OrderBookT}

theorem resting_append (h : b.RepInv) (h' : b'.RepInv) {o : RestingOrder} (hnew : b.hasOrder o.orderId = false)
    (hq : ∀ s q, b'.queue s q = if s = o.side.isBuy ∧ q = o.price then b.queue s q ++ [o] else b.queue s q)
    (id : OrderId) : b'.resting id = if id = o.orderId then some o else b.resting id := by
  ext o'
  rw [h'.resting_eq_some_iff, hq]
  by_cases hid : id = o.orderId
  · subst hid
    rw [if_pos rfl, Option.some.injEq]
    constructor
    · rintro ⟨hid, hmem⟩
      -- no order under this id was there before
      have hold : ∀ s q, o' ∉ b.queue s q := fun s q hm => by
        have := (h.hasOrder_iff o.orderId).2 ⟨s, q, o', hm, hid⟩
        rw [hnew] at this
        cases this
      split at hmem
      · rcases List.mem_append.1 hmem with hm | hm
        · exact absurd hm (hold _ _)
        · exact (List.mem_singleton.1 hm).symm
      · exact absurd hmem (hold _ _)
    · rintro rfl
      exact ⟨rfl, by simp⟩
  · rw [if_neg hid, h.resting_eq_some_iff]
    refine and_congr_right fun ho' => ?_
    split
    · rw [List.mem_append, List.mem_singleton]
      refine ⟨fun hm => hm.resolve_right ?_, .inl⟩
      rintro rfl
      exact hid ho'.symm
    · rfl

theorem resting_filter (h : b.RepInv) (h' : b'.RepInv) {id₀ : OrderId}
    (hq : ∀ s q, b'.queue s q = (b.queue s q).filter (·.orderId != id₀)) (id : OrderId) :
    b'.resting id = if id = id₀ then none else b.resting id := by
  ext o'
  rw [h'.resting_eq_some_iff, hq, List.mem_filter, bne_iff_ne]
  split
  · next hid =>
    subst hid
    constructor
    · rintro ⟨ho', -, hne⟩
      exact absurd ho' hne
    · rintro ⟨⟩
  · next hid =>
    rw [h.resting_eq_some_iff]
    refine and_congr_right fun ho' => and_iff_left ?_
    rw [ho']
    exact hid

theorem resting_reduce (h : b.RepInv) (h' : b'.RepInv) {id₀ : OrderId} {q₀ : Quantity}
    (hq : ∀ s q, b'.queue s q = (b.queue s q).map fun o => if o.orderId = id₀ then o.reduce q₀ else o)
    (id : OrderId) : b'.resting id = if id = id₀ then (b.resting id).map (·.reduce q₀) else b.resting id := by
  ext o'
  rw [h'.resting_eq_some_iff, hq, List.mem_map]
  split
  · next hid =>
    subst hid
    rw [Option.map_eq_some_iff]
    constructor
    · rintro ⟨hid', o, hm, he⟩
      by_cases ho : o.orderId = id
      · rw [if_pos ho] at he
        subst he
        exact ⟨o, h.resting_eq_some_iff.2 ⟨ho, hm⟩, rfl⟩
      · rw [if_neg ho] at he
        subst he
        exact absurd hid' ho
    · rintro ⟨o, ho, rfl⟩
      obtain ⟨hid', hm⟩ := h.resting_eq_some_iff.1 ho
      exact ⟨hid', o, hm, by rw [if_pos hid']⟩
  · next hid =>
    rw [h.resting_eq_some_iff]
    refine and_congr_right fun ho' => ?_
    constructor
    · rintro ⟨o, hm, he⟩
      by_cases ho : o.orderId = id₀
      · rw [if_pos ho] at he
        subst he
        exact absurd (ho'.symm.trans ho) hid
      · rw [if_neg ho] at he
        subst he
        exact hm
    · intro hm
      exact ⟨o', hm, if_neg fun e => hid (ho'.symm.trans e)⟩

end OrderBookT.RepInv

namespace OrderBook
variable {b : OrderBook}

def remaining (b : OrderBook) : Remaining := fun id => (b.resting id).map (·.quantity)

theorem hasOrder_eq_remaining (b : OrderBook) (id : OrderId) : b.hasOrder id = (b.remaining id).isSome := by
  rw [Bool.eq_iff_iff, hasOrder_iff, remaining, Option.isSome_map, Option.isSome_iff_exists]

@[simp] theorem remaining_empty (id : OrderId) : empty.remaining id = none := by
  have h := hasOrder_empty id
  rwa [hasOrder_eq_remaining, Option.isSome_eq_false_iff, Option.isNone_iff_eq_none] at h

theorem resting_of_remaining {id : OrderId} {q : Quantity} (h : b.remaining id = some q) :
    ∃ o, b.resting id = some o ∧ o.quantity = q :=
  Option.map_eq_some_iff.1 h

theorem apply_error {m : DecodedMessage} {e : ApplyError} (ha : b.1.apply m = some (.error e, b.1)) :
    (b.apply m).2 = b :=
  Subtype.ext (apply_eq ha).2

/-- The map after an accepted message, from where each id is found after it. -/
theorem remaining_of_ok {m : DecodedMessage} {ds : ApplyResult} {b' : OrderBookT}
    (ha : b.1.apply m = some (.ok ds, b'))
    (hr : ∀ id, (b'.resting id).map (·.quantity) = applyRemaining b.remaining m id) :
    (b.apply m).2.remaining = applyRemaining b.remaining m := by
  funext id
  rw [← hr, remaining, resting, (apply_eq ha).2]

theorem remaining_apply_add (b : OrderBook) (a : AddOrder) :
    (b.apply (.add a)).2.remaining = applyRemaining b.remaining (.add a) := by
  cases hd : b.hasOrder a.orderId with
  | true =>
    rw [apply_error (m := .add a) (applyAdd_dup a hd), applyRemaining, if_pos (by rw [← hasOrder_eq_remaining, hd])]
  | false =>
    obtain ⟨b', ha, hb', hq, -⟩ := b.2.applyAdd_ok a hd
    have hno : ¬ (b.remaining a.orderId).isSome = true := by
      rw [← hasOrder_eq_remaining, hd]
      exact Bool.false_ne_true
    refine remaining_of_ok ha fun id => ?_
    rw [applyRemaining, if_neg hno, b.2.resting_append hb' (o := ⟨a.orderId, a.side, a.price, a.quantity⟩) hd hq,
      Function.update_apply]
    split <;> rfl

theorem remaining_apply_cancel (b : OrderBook) (c : CancelOrder) :
    (b.apply (.cancel c)).2.remaining = applyRemaining b.remaining (.cancel c) := by
  cases hd : b.hasOrder c.orderId with
  | false =>
    rw [apply_error (m := .cancel c) (applyCancel_notFound c hd), applyRemaining]
    rw [hasOrder_eq_remaining, Option.isSome_eq_false_iff, Option.isNone_iff_eq_none] at hd
    rw [← hd, Function.update_eq_self]
  | true =>
    obtain ⟨o, ho⟩ := hasOrder_iff.1 hd
    obtain ⟨b', ha, hb', hq, -⟩ := b.2.applyCancel_ok c ho
    refine remaining_of_ok ha fun id => ?_
    rw [b.2.resting_filter hb' hq, applyRemaining, Function.update_apply]
    split <;> rfl

theorem remaining_apply_execute (b : OrderBook) (x : ExecuteOrder) :
    (b.apply (.execute x)).2.remaining = applyRemaining b.remaining (.execute x) := by
  cases hd : b.remaining x.orderId with
  | none =>
    have hno : b.hasOrder x.orderId = false := by rw [hasOrder_eq_remaining, hd]; rfl
    rw [apply_error (m := .execute x) (applyExecute_notFound x hno), applyRemaining, hd]
  | some q =>
    obtain ⟨o, ho, rfl⟩ := resting_of_remaining hd
    by_cases hx : o.quantity < x.executedQuantity
    · rw [apply_error (m := .execute x) (applyExecute_exceeds x ho hx)]
      simp only [applyRemaining, hd, hx, ↓reduceIte]
    by_cases hz : o.quantity - x.executedQuantity = 0
    · obtain ⟨b', ha, hb', hq, -⟩ := b.2.applyExecute_all x ho (UInt32.not_lt.1 hx) hz
      refine remaining_of_ok ha fun id => ?_
      simp only [applyRemaining, hd, hx, hz, ↓reduceIte]
      rw [b.2.resting_filter hb' hq, Function.update_apply]
      split <;> rfl
    · obtain ⟨b', ha, hb', hq, -⟩ := b.2.applyExecute_rest x ho (UInt32.not_lt.1 hx) hz
      refine remaining_of_ok ha fun id => ?_
      simp only [applyRemaining, hd, hx, hz, ↓reduceIte]
      rw [b.2.resting_reduce hb' hq, Function.update_apply]
      split
      · next hid =>
        subst hid
        rw [show b.1.resting x.orderId = some o from ho]
        rfl
      · rfl

theorem remaining_apply_replace (b : OrderBook) (r : ReplaceOrder) :
    (b.apply (.replace r)).2.remaining = applyRemaining b.remaining (.replace r) := by
  cases hd : b.hasOrder r.oldOrderId with
  | false =>
    rw [apply_error (m := .replace r) (applyReplace_notFound r hd), applyRemaining, if_neg]
    rw [← hasOrder_eq_remaining, hd]
    simp
  | true =>
    cases hn : b.hasOrder r.newOrderId with
    | true =>
      rw [apply_error (m := .replace r) (applyReplace_dup r hd hn), applyRemaining, if_neg]
      rw [← Option.not_isSome, ← hasOrder_eq_remaining, ← hasOrder_eq_remaining, hn]
      simp
    | false =>
      obtain ⟨o, ho⟩ := hasOrder_iff.1 hd
      obtain ⟨b₁, b', ha, hb₁, hb', hq₁, hq, -⟩ := b.2.applyReplace_ok r ho hn
      have hcond : (b.remaining r.oldOrderId).isSome = true ∧ (b.remaining r.newOrderId).isNone = true := by
        rw [← Option.not_isSome, ← hasOrder_eq_remaining, ← hasOrder_eq_remaining, hd, hn]
        exact ⟨rfl, rfl⟩
      have hmid := b.2.resting_filter hb₁ hq₁
      have hnew : b₁.hasOrder r.newOrderId = false := by
        rw [← Bool.not_eq_true]
        intro hb
        obtain ⟨o', ho'⟩ := hb₁.hasOrder_iff_resting.1 hb
        rw [hmid] at ho'
        split at ho'
        · cases ho'
        · have := b.2.hasOrder_iff_resting.2 ⟨o', ho'⟩
          rw [show b.1.hasOrder r.newOrderId = false from hn] at this
          cases this
      refine remaining_of_ok ha fun id => ?_
      rw [applyRemaining, if_pos hcond, hb₁.resting_append hb' (o := ⟨r.newOrderId, o.side, r.price, r.quantity⟩) hnew hq,
        hmid, Function.update_apply, Function.update_apply]
      split
      · rfl
      · split <;> rfl

/-- A book and its map of remaining quantities change alike. -/
theorem remaining_apply (b : OrderBook) (m : DecodedMessage) : (b.apply m).2.remaining = applyRemaining b.remaining m := by
  cases m with
  | add a => exact b.remaining_apply_add a
  | cancel c => exact b.remaining_apply_cancel c
  | execute x => exact b.remaining_apply_execute x
  | replace r => exact b.remaining_apply_replace r

end OrderBook

end Mdfh
