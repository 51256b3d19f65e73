import Mdfh.OrderBook.FlatBook

/-!
# Replaying level deltas rebuilds the book

A consumer that folds the reported `LevelDelta`s into a map (erase on total `0`, overwrite otherwise)
holds the book's non-zero levels after every message. A successful `apply` is one or two `Reported`
steps: each sets one level's total and leaves every other queue alone, so the fold follows the book
step by step; Replace is the two-step case, also when both steps hit the same level.
-/

namespace Mdfh

/-- A consumer's map from side and price to the level's total. -/
abbrev LevelTotals := Side × Price → Option Quantity

/-- A total, with `0` standing for an absent level. -/
def nonZero (q : Quantity) : Option Quantity := if q = 0 then none else some q

def LevelTotals.applyDelta (t : LevelTotals) (d : LevelDelta) : LevelTotals :=
  Function.update t (d.side, d.price) (nonZero d.totalQuantity)

/-- Folds the deltas into the empty map. -/
def replay (ds : List LevelDelta) : LevelTotals := ds.foldl LevelTotals.applyDelta fun _ => none

/-- The deltas of the successful calls, in order. -/
def deltasOf (rs : List (Except ApplyError ApplyResult)) : List LevelDelta :=
  rs.flatMap fun r => match r with
    | .ok ds => ds
    | .error _ => []

/-- A level without the node addresses. -/
def Level.contents (l : Level) : Quantity × List RestingOrder := (l.totalQuantity, l.queue)

namespace OrderBookT

/-- The levels present in the book with a non-zero total. -/
def levelTotals (b : OrderBookT) : LevelTotals := fun k =>
  if k.1.Defined then (b.levelFor k.1 k.2).bind fun l => nonZero l.totalQuantity else none

/-- Every resting order is on one of the two sides. -/
def SidesOk (b : OrderBookT) : Prop := ∀ s p, ∀ o ∈ b.queue s p, o.side.Defined

/-- The step from `b` to `b'` changed only the level `d` names, and `d` carries its new total. -/
structure Reported (b b' : OrderBookT) (d : LevelDelta) : Prop where
  total : d.totalQuantity = sumQuantity (b'.queue d.side.isBuy d.price)
  frame : ∀ s q, ¬ (s = d.side.isBuy ∧ q = d.price) → b'.queue s q = b.queue s q
  side : d.side.Defined

variable {b b' : OrderBookT}

theorem RepInv.levelTotals_eq (h : b.RepInv) (k : Side × Price) :
    b.levelTotals k = if k.1.Defined then nonZero (sumQuantity (b.queue k.1.isBuy k.2)) else none := by
  unfold levelTotals
  split
  · rw [← h.totals_eq, levelFor_eq]
    cases b.level k.1.isBuy k.2 <;> rfl
  · rfl

theorem isBuy_injOn {s t : Side} (hs : s.Defined) (ht : t.Defined) (h : s.isBuy = t.isBuy) : s = t := by
  rcases hs with rfl | rfl <;> rcases ht with rfl | rfl
  · rfl
  · cases h
  · cases h
  · rfl

/-- Folding in the delta of a reported step follows the book. -/
theorem Reported.applyDelta {d : LevelDelta} (hr : Reported b b' d) (h : b.RepInv) (h' : b'.RepInv) :
    b.levelTotals.applyDelta d = b'.levelTotals := by
  funext ⟨side, p⟩
  rw [h'.levelTotals_eq, LevelTotals.applyDelta, Function.update_apply]
  split
  · next hk =>
    obtain ⟨rfl, rfl⟩ := Prod.mk.inj hk
    rw [if_pos hr.side, hr.total]
  · next hk =>
    rw [h.levelTotals_eq]
    split
    · next hd =>
      rw [hr.frame _ _ fun e => hk (Prod.ext (isBuy_injOn hd hr.side e.1) e.2)]
    · rfl

theorem RepInv.filter_frame (h : b.RepInv) {id : OrderId} {o : RestingOrder} (hr : b.resting id = some o) {s : Bool}
    {q : Price} (hsq : ¬ (s = o.side.isBuy ∧ q = o.price)) {o' : RestingOrder} (ho' : o' ∈ b.queue s q) :
    o'.orderId ≠ id := by
  intro hid
  obtain ⟨ho, hmem⟩ := h.resting_eq_some_iff.1 hr
  obtain ⟨-, hs, hp⟩ := h.unique ho' hmem (hid.trans ho.symm)
  exact hsq ⟨hs, hp⟩

theorem RepInv.reported_filter (h : b.RepInv) (hso : b.SidesOk) {id : OrderId} {o : RestingOrder}
    (hr : b.resting id = some o) (hq : ∀ s q, b'.queue s q = (b.queue s q).filter (·.orderId != id)) :
    Reported b b' ⟨o.side, o.price, sumQuantity (b'.queue o.side.isBuy o.price)⟩ ∧ b'.SidesOk := by
  refine ⟨⟨rfl, ?_, hso _ _ o (h.resting_eq_some_iff.1 hr).2⟩, ?_⟩
  · intro s q hsq
    rw [hq, List.filter_eq_self]
    intro o' ho'
    simpa using h.filter_frame hr hsq ho'
  · intro s q o' ho'
    rw [hq] at ho'
    exact hso s q o' (List.mem_filter.1 ho').1

theorem reported_append (hso : b.SidesOk) (o : RestingOrder) (hs : o.side.Defined)
    (hq : ∀ s q, b'.queue s q = if s = o.side.isBuy ∧ q = o.price then b.queue s q ++ [o] else b.queue s q) :
    Reported b b' ⟨o.side, o.price, sumQuantity (b'.queue o.side.isBuy o.price)⟩ ∧ b'.SidesOk := by
  refine ⟨⟨rfl, ?_, hs⟩, ?_⟩
  · intro s q hsq
    rw [hq, if_neg hsq]
  · intro s q o' ho'
    rw [hq] at ho'
    split at ho'
    · rcases List.mem_append.1 ho' with ho' | ho'
      · exact hso s q o' ho'
      · rw [List.mem_singleton.1 ho']; exact hs
    · exact hso s q o' ho'

/-- A successful `apply` is one reported step, or two for Replace. -/
inductive ReportedChain : OrderBookT → List LevelDelta → OrderBookT → Prop
  | nil {b : OrderBookT} : ReportedChain b [] b
  | cons {b b₁ b' : OrderBookT} {d : LevelDelta} {ds : List LevelDelta} (h : Reported b b₁ d) (hb₁ : b₁.RepInv)
      (hds : ReportedChain b₁ ds b') : ReportedChain b (d :: ds) b'

theorem RepInv.apply_reported (h : b.RepInv) (hso : b.SidesOk) {m : DecodedMessage}
    (hs : ∀ a, m = .add a → a.side.Defined) {ds : ApplyResult} (ha : b.apply m = some (.ok ds, b')) :
    ReportedChain b ds b' ∧ b'.SidesOk ∧ b'.RepInv := by
  have hinj : ∀ {r : Except ApplyError ApplyResult} {b₁ : OrderBookT}, b.apply m = some (r, b₁) → r = .ok ds ∧ b₁ = b' := by
    intro r b₁ e
    rw [ha, Option.some.injEq, Prod.mk.injEq] at e
    exact ⟨e.1.symm, e.2.symm⟩
  have herr : ∀ {e : ApplyError} {b₁ : OrderBookT}, b.apply m = some (.error e, b₁) → False := by
    intro e b₁ h₁
    cases (hinj h₁).1
  have hone : ∀ {d : LevelDelta} {b₁ : OrderBookT}, b.apply m = some (.ok [d], b₁) → Reported b b₁ d ∧ b₁.SidesOk →
      b₁.RepInv → ReportedChain b ds b' ∧ b'.SidesOk ∧ b'.RepInv := by
    intro d b₁ e hr hb₁
    obtain ⟨hd, rfl⟩ := hinj e
    cases hd
    exact ⟨.cons hr.1 hb₁ .nil, hr.2, hb₁⟩
  cases m with
  | add m =>
    cases hd : b.hasOrder m.orderId with
    | true => exact (herr (applyAdd_dup m hd)).elim
    | false =>
      obtain ⟨b₁, e, hb₁, hq, -⟩ := h.applyAdd_ok m hd
      exact hone e (reported_append hso ⟨m.orderId, m.side, m.price, m.quantity⟩ (hs m rfl) hq) hb₁
  | cancel m =>
    cases hd : b.hasOrder m.orderId with
    | false => exact (herr (applyCancel_notFound m hd)).elim
    | true =>
      obtain ⟨o, ho⟩ := h.hasOrder_iff_resting.1 hd
      obtain ⟨b₁, e, hb₁, hq, -⟩ := h.applyCancel_ok m ho
      exact hone e (h.reported_filter hso ho hq) hb₁
  | execute m =>
    cases hd : b.hasOrder m.orderId with
    | false => exact (herr (applyExecute_notFound m hd)).elim
    | true =>
      obtain ⟨o, ho⟩ := h.hasOrder_iff_resting.1 hd
      by_cases hx : o.quantity < m.executedQuantity
      · exact (herr (applyExecute_exceeds m ho hx)).elim
      by_cases hz : o.quantity - m.executedQuantity = 0
      · obtain ⟨b₁, e, hb₁, hq, -⟩ := h.applyExecute_all m ho (UInt32.not_lt.1 hx) hz
        exact hone e (h.reported_filter hso ho hq) hb₁
      · obtain ⟨b₁, e, hb₁, hq, -⟩ := h.applyExecute_rest m ho (UInt32.not_lt.1 hx) hz
        refine hone e ⟨⟨rfl, ?_, hso _ _ o (h.resting_eq_some_iff.1 ho).2⟩, ?_⟩ hb₁
        · intro s q hsq
          rw [hq]
          conv_rhs => rw [← List.map_id (b.queue s q)]
          refine List.map_congr_left fun o' ho' => ?_
          simp [h.filter_frame ho hsq ho']
        · intro s q o' ho'
          rw [hq] at ho'
          obtain ⟨o₁, ho₁, rfl⟩ := List.mem_map.1 ho'
          have := hso s q o₁ ho₁
          split <;> exact this
  | replace m =>
    cases hd : b.hasOrder m.oldOrderId with
    | false => exact (herr (applyReplace_notFound m hd)).elim
    | true =>
      cases hn : b.hasOrder m.newOrderId with
      | true => exact (herr (applyReplace_dup m hd hn)).elim
      | false =>
        obtain ⟨o, ho⟩ := h.hasOrder_iff_resting.1 hd
        obtain ⟨b₁, b₂, e, hb₁, hb₂, hq₁, hq, -⟩ := h.applyReplace_ok m ho hn
        obtain ⟨r₁, hso₁⟩ := h.reported_filter hso ho hq₁
        obtain ⟨r₂, hso₂⟩ := reported_append hso₁ ⟨m.newOrderId, o.side, m.price, m.quantity⟩ r₁.side hq
        obtain ⟨hd, rfl⟩ := hinj e
        cases hd
        exact ⟨.cons r₁ hb₁ (.cons r₂ hb₂ .nil), hso₂, hb₂⟩

theorem ReportedChain.applyDeltas {ds : List LevelDelta} (hc : ReportedChain b ds b') (h : b.RepInv) :
    ds.foldl LevelTotals.applyDelta b.levelTotals = b'.levelTotals := by
  induction hc with
  | nil => rfl
  | cons hr hb₁ _ ih => rw [List.foldl_cons, hr.applyDelta h hb₁, ih hb₁]

/-- What no delta names did not change. -/
theorem ReportedChain.frame {ds : List LevelDelta} (hc : ReportedChain b ds b') {s : Bool} {q : Price}
    (hsq : ∀ d ∈ ds, ¬ (s = d.side.isBuy ∧ q = d.price)) : b'.queue s q = b.queue s q := by
  induction hc with
  | nil => rfl
  | cons hr _ _ ih =>
    rw [ih fun d hd => hsq d (by simp [hd]), hr.frame s q (hsq _ (by simp))]

theorem ReportedChain.sides {ds : List LevelDelta} (hc : ReportedChain b ds b') : ∀ d ∈ ds, d.side.Defined := by
  induction hc with
  | nil => simp
  | cons hr _ _ ih =>
    intro d hd
    rcases List.mem_cons.1 hd with rfl | hd
    · exact hr.side
    · exact ih d hd

theorem RepInv.contents_eq (h : b.RepInv) (s : Bool) (p : Price) :
    (b.level s p).map Level.contents =
      if b.queue s p = [] then none else some (sumQuantity (b.queue s p), b.queue s p) := by
  cases hl : b.level s p with
  | none => rw [if_pos ((h.level_eq_none_iff s p).1 hl)]; rfl
  | some l =>
    have hne : b.queue s p ≠ [] := fun e => by simp [(h.level_eq_none_iff s p).2 e] at hl
    rw [if_neg hne, Option.map_some, Level.contents, h.total_eq hl, queue, hl]
    rfl

/-- The fold over a whole run, from a book the consumer already mirrors. -/
theorem RepInv.run_replay (h : b.RepInv) (hso : b.SidesOk) (ms : List DecodedMessage) (hs : SidesDefined ms) :
    ∃ rs b', b.run ms = some (rs, b') ∧ b'.RepInv ∧ b'.SidesOk ∧
      (deltasOf rs).foldl LevelTotals.applyDelta b.levelTotals = b'.levelTotals := by
  induction ms generalizing b with
  | nil => exact ⟨[], b, rfl, h, hso, rfl⟩
  | cons m ms ih =>
    obtain ⟨r, b₁, ha, hb₁, -⟩ := h.apply m
    have hs₁ : SidesDefined ms := fun a hm => hs a (by simp [hm])
    cases r with
    | error e =>
      obtain rfl := h.apply_error ha
      obtain ⟨rs, b', hrun, hb', hso', hfold⟩ := ih h hso hs₁
      exact ⟨.error e :: rs, b', by simp [run, ha, hrun], hb', hso', hfold⟩
    | ok ds =>
      obtain ⟨hc, hso₁, -⟩ := h.apply_reported hso (fun a e => hs a (by simp [e])) ha
      obtain ⟨rs, b', hrun, hb', hso', hfold⟩ := ih hb₁ hso₁ hs₁
      refine ⟨.ok ds :: rs, b', by simp [run, ha, hrun], hb', hso', ?_⟩
      show (ds ++ deltasOf rs).foldl LevelTotals.applyDelta b.levelTotals = b'.levelTotals
      rw [List.foldl_append, hc.applyDeltas h, hfold]

theorem levelTotals_empty : ({} : OrderBookT).levelTotals = fun _ => none := by
  funext k
  simp [levelTotals, levelFor_eq, level_empty]

theorem SidesOk.empty : SidesOk {} := by
  intro s p o ho
  simp [queue, level_empty, Level.queue] at ho

end OrderBookT

/-- Folding the deltas of the successful calls gives the book's non-zero levels, and no call changes a
level it does not report. -/
theorem replay_run (ms : List DecodedMessage) (hs : SidesDefined ms) :
    ∃ rs b, OrderBookT.run {} ms = some (rs, b) ∧ replay (deltasOf rs) = b.levelTotals ∧
      ∀ m ds b', (∀ a, m = .add a → a.side.Defined) → b.apply m = some (.ok ds, b') →
        ∀ side price, side.Defined → (∀ d ∈ ds, (d.side, d.price) ≠ (side, price)) →
          (b'.levelFor side price).map Level.contents = (b.levelFor side price).map Level.contents := by
  obtain ⟨rs, b, hrun, hb, hso, hfold⟩ := OrderBookT.RepInv.empty.run_replay .empty ms hs
  refine ⟨rs, b, hrun, ?_, ?_⟩
  · rw [OrderBookT.levelTotals_empty] at hfold
    exact hfold
  · intro m ds b' hm ha side price hside hds
    obtain ⟨hc, -, hb'⟩ := hb.apply_reported hso hm ha
    have hq : b'.queue side.isBuy price = b.queue side.isBuy price := by
      refine hc.frame fun d hd e => hds d hd (Prod.ext ?_ e.2.symm)
      exact OrderBookT.isBuy_injOn (hc.sides d hd) hside e.1.symm
    rw [OrderBookT.levelFor_eq, OrderBookT.levelFor_eq, hb'.contents_eq, hb.contents_eq, hq]

theorem replay_run_same_price :
    ∃ rs b, OrderBookT.run {} [.add ⟨1, 7, Vector.replicate 8 0, .buy, 100, 10, 1⟩, .replace ⟨2, 7, 8, 100, 4, 2⟩] =
        some (rs, b) ∧ replay (deltasOf rs) = b.levelTotals :=
  let ⟨rs, b, hrun, hr, _⟩ := replay_run _ (by
    intro a ha
    simp only [List.mem_cons, DecodedMessage.add.injEq, reduceCtorEq, List.not_mem_nil, or_false] at ha
    rw [ha]
    exact .inl rfl)
  ⟨rs, b, hrun, hr⟩

end Mdfh
