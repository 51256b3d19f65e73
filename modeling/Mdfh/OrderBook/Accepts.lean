import Mdfh.OrderBook.BookApply

/-!
# When a book accepts a message

`Accepts b m` is the condition the four `apply` overloads check before they change anything. An
accepted message reports at least one level; a rejected one returns an error and leaves the book as
it was. `hasOrder_apply` says which ids rest afterwards.
-/

namespace Mdfh
open OrderBookT

/-- The id a message is looked up by: an Add's own id, a Replace's old one. -/
def DecodedMessage.orderId : DecodedMessage → OrderId
  | .add m => m.orderId
  | .cancel m => m.orderId
  | .execute m => m.orderId
  | .replace m => m.oldOrderId

namespace OrderBook
variable {b : OrderBook}

def Accepts (b : OrderBook) : DecodedMessage → Prop
  | .add m => b.hasOrder m.orderId = false
  | .cancel m => b.hasOrder m.orderId = true
  | .execute m => ∃ o, b.resting m.orderId = some o ∧ m.executedQuantity ≤ o.quantity
  | .replace m => b.hasOrder m.oldOrderId = true ∧ b.hasOrder m.newOrderId = false

theorem hasOrder_iff {id : OrderId} : b.hasOrder id = true ↔ ∃ o, b.resting id = some o :=
  b.2.hasOrder_iff_resting

@[simp] theorem hasOrder_empty (id : OrderId) : empty.hasOrder id = false := by
  simp [hasOrder, OrderBookT.hasOrder, empty]

/-- The ids resting after a message that was accepted. An Execute removes its own id or nothing. -/
def restsAfter (b : OrderBook) (m : DecodedMessage) (id : OrderId) : Bool :=
  match m with
  | .add m => b.hasOrder id || id == m.orderId
  | .cancel m => b.hasOrder id && id != m.orderId
  | .execute m => b.hasOrder id && (id != m.orderId || (b.apply (.execute m)).2.hasOrder m.orderId)
  | .replace m => (b.hasOrder id && id != m.oldOrderId) || id == m.newOrderId

theorem apply_spec_of_eq {m : DecodedMessage} {ds : ApplyResult} {b' : OrderBookT} (ha : b.1.apply m = some (.ok ds, b'))
    (hds : ds ≠ []) (hrest : ∀ id, b'.hasOrder id = b.restsAfter m id) :
    ∃ ds, ds ≠ [] ∧ (b.apply m).1 = .ok ds ∧ ∀ id, (b.apply m).2.hasOrder id = b.restsAfter m id := by
  obtain ⟨h₁, h₂⟩ := apply_eq ha
  refine ⟨ds, hds, h₁, fun id => ?_⟩
  show (b.apply m).2.1.hasOrder id = _
  rw [h₂, hrest]

theorem apply_of_accepts {m : DecodedMessage} (h : b.Accepts m) :
    ∃ ds, ds ≠ [] ∧ (b.apply m).1 = .ok ds ∧ ∀ id, (b.apply m).2.hasOrder id = b.restsAfter m id := by
  cases m with
  | add m =>
    obtain ⟨b', ha, -, -, hid⟩ := b.2.applyAdd_ok m h
    exact apply_spec_of_eq ha (List.cons_ne_nil _ _) hid
  | cancel m =>
    obtain ⟨o, ho⟩ := b.2.hasOrder_iff_resting.1 h
    obtain ⟨b', ha, -, -, hid⟩ := b.2.applyCancel_ok m ho
    exact apply_spec_of_eq ha (List.cons_ne_nil _ _) hid
  | execute m =>
    obtain ⟨o, ho, hx⟩ := h
    have hold : b.hasOrder m.orderId = true := hasOrder_iff.2 ⟨o, ho⟩
    by_cases hz : o.quantity - m.executedQuantity = 0
    · obtain ⟨b', ha, -, -, hid⟩ := b.2.applyExecute_all m ho hx hz
      refine apply_spec_of_eq ha (List.cons_ne_nil _ _) fun id => ?_
      have hout : (b.apply (.execute m)).2.hasOrder m.orderId = false := by
        show (b.apply (.execute m)).2.1.hasOrder _ = _
        rw [(apply_eq (m := .execute m) ha).2, hid]; simp
      rw [hid, restsAfter, hout, Bool.or_false]
      rfl
    · obtain ⟨b', ha, -, -, hid⟩ := b.2.applyExecute_rest m ho hx hz
      refine apply_spec_of_eq ha (List.cons_ne_nil _ _) fun id => ?_
      have hout : (b.apply (.execute m)).2.hasOrder m.orderId = true := by
        show (b.apply (.execute m)).2.1.hasOrder _ = _
        rw [(apply_eq (m := .execute m) ha).2, hid]; exact hold
      rw [hid, restsAfter, hout, Bool.or_true, Bool.and_true]
      rfl
  | replace m =>
    obtain ⟨o, ho⟩ := b.2.hasOrder_iff_resting.1 h.1
    obtain ⟨_, b', ha, -, -, -, -, hid⟩ := b.2.applyReplace_ok m ho h.2
    exact apply_spec_of_eq ha (List.cons_ne_nil _ _) hid

theorem hasOrder_apply {m : DecodedMessage} (h : b.Accepts m) (id : OrderId) :
    (b.apply m).2.hasOrder id = b.restsAfter m id := by
  obtain ⟨_, -, -, hid⟩ := apply_of_accepts h
  exact hid id

theorem apply_of_not_accepts {m : DecodedMessage} (h : ¬ b.Accepts m) :
    ∃ e, (b.apply m).1 = .error e ∧ (b.apply m).2 = b := by
  have herr : ∀ {e}, b.1.apply m = some (.error e, b.1) → ∃ e, (b.apply m).1 = .error e ∧ (b.apply m).2 = b :=
    fun ha => ⟨_, (apply_eq ha).1, Subtype.ext (apply_eq ha).2⟩
  cases m with
  | add m => exact herr (applyAdd_dup m (Bool.not_eq_false _ ▸ h))
  | cancel m => exact herr (applyCancel_notFound m (Bool.not_eq_true _ ▸ h))
  | execute m =>
    cases hd : b.hasOrder m.orderId with
    | false => exact herr (applyExecute_notFound m hd)
    | true =>
      obtain ⟨o, ho⟩ := hasOrder_iff.1 hd
      refine herr (applyExecute_exceeds m ho ?_)
      rw [← UInt32.not_le]
      exact fun hx => h ⟨o, ho, hx⟩
  | replace m =>
    cases hd : b.hasOrder m.oldOrderId with
    | false => exact herr (applyReplace_notFound m hd)
    | true =>
      cases hn : b.hasOrder m.newOrderId with
      | true => exact herr (applyReplace_dup m hd hn)
      | false => exact absurd ⟨hd, hn⟩ h

theorem hasOrder_apply_sub {m : DecodedMessage} {id : OrderId} (h : (b.apply m).2.hasOrder id = true) :
    b.hasOrder id = true ∨ (∃ a, m = .add a ∧ id = a.orderId) ∨ ∃ r, m = .replace r ∧ id = r.newOrderId := by
  by_cases ha : b.Accepts m
  · rw [hasOrder_apply ha] at h
    cases m with
    | add m =>
      rcases Bool.or_eq_true _ _ ▸ h with h | h
      · exact .inl h
      · exact .inr (.inl ⟨m, rfl, beq_iff_eq.1 h⟩)
    | cancel m => exact .inl (Bool.and_eq_true _ _ ▸ h).1
    | execute m => exact .inl (Bool.and_eq_true _ _ ▸ h).1
    | replace m =>
      rcases Bool.or_eq_true _ _ ▸ h with h | h
      · exact .inl (Bool.and_eq_true _ _ ▸ h).1
      · exact .inr (.inr ⟨m, rfl, beq_iff_eq.1 h⟩)
  · obtain ⟨_, -, hb⟩ := apply_of_not_accepts ha
    rw [hb] at h
    exact .inl h

end OrderBook

end Mdfh
