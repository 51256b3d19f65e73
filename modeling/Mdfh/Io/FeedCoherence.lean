import Mdfh.Io.FeedStamps

/-!
# The exchange's own view of the generated feed

The generated messages, lost or not, applied in order to one book per symbol. The generator never looks at
what is left of an order ("small partial fill; the order stays resting"), but each Execute of order `id` takes
the same `1 + id % 5` off its `10 + id % 20`. So the feed is coherent (every message is applied, an Execute
leaves its order resting) as long as no order is executed as often as its quantity has room for, and no longer.
-/

namespace Mdfh
open FeedGenerator (Config Draw StampedMessage executionsOf execQtyOf quantityOf leftAfter executeOnce symbolOf shardOf)

variable {numShards : Nat} {cfg : Config numShards}

/-- One `OrderBook` per symbol. -/
abbrev Books := Symbol → OrderBook

/-- `apply` on the book of the message's symbol. -/
def Books.apply (books : Books) (e : StampedMessage cfg) : Books :=
  Function.update books e.symbol ((books e.symbol).apply e.message).2

def Books.applyAll (books : Books) (t : List (StampedMessage cfg)) : Books := t.foldl Books.apply books

/-- The book applies the message, an order it refers to rests, and an Execute leaves some of its order. -/
structure CoherentAt (b : OrderBook) (m : DecodedMessage) : Prop where
  applied : ∃ ds, (b.apply m).1 = .ok ds
  rests : (∀ a, m ≠ .add a) → b.hasOrder m.orderId = true
  executed : ∀ x, m = .execute x → ∃ o, b.resting x.orderId = some o ∧ x.executedQuantity ≤ o.quantity ∧
    (b.apply m).2.hasOrder x.orderId = true

/-- Every message of the feed is coherent with the books the messages before it leave, and no id comes twice. -/
def FeedCoherent (cfg : Config numShards) (ds : List Draw) : Prop :=
  (∀ pre e post, ({} : FeedGenerator cfg).trace ds = pre ++ e :: post →
    CoherentAt (Books.applyAll (fun _ => OrderBook.empty) pre e.symbol) e.message) ∧
  ((({} : FeedGenerator cfg).trace ds).filterMap (·.message.introduced)).Nodup

theorem OrderBook.hasOrder_execute_iff {b : OrderBook} {x : ExecuteOrder} {o : RestingOrder}
    (ho : b.resting x.orderId = some o) (hle : x.executedQuantity ≤ o.quantity) :
    (b.apply (.execute x)).2.hasOrder x.orderId = true ↔ x.executedQuantity < o.quantity := by
  have hrem : b.remaining x.orderId = some o.quantity := by rw [remaining, ho]; rfl
  have hsub : (o.quantity - x.executedQuantity).toNat = o.quantity.toNat - x.executedQuantity.toNat :=
    UInt32.toNat_sub_of_le _ _ hle
  have hzero : o.quantity - x.executedQuantity = 0 ↔ ¬ x.executedQuantity < o.quantity := by
    rw [UInt32.le_iff_toNat_le] at hle
    rw [← UInt32.toNat_inj, hsub, UInt32.lt_iff_toNat_lt, UInt32.toNat_zero]
    omega
  rw [hasOrder_eq_remaining, remaining_apply, applyRemaining, hrem]
  simp only [UInt32.not_lt.2 hle, if_false, Function.update_self, hzero]
  split <;> simp_all

theorem CoherentAt.of_accepts {b : OrderBook} {m : DecodedMessage} (h : b.Accepts m)
    (hx : ∀ x, m = .execute x → ∃ o, b.resting x.orderId = some o ∧ x.executedQuantity < o.quantity) : CoherentAt b m := by
  obtain ⟨ds, -, hds, -⟩ := OrderBook.apply_of_accepts h
  refine ⟨⟨ds, hds⟩, fun hna => ?_, ?_⟩
  · cases m with
    | add a => exact absurd rfl (hna a)
    | cancel c => exact h
    | execute x =>
      obtain ⟨o, ho, -⟩ := h
      exact OrderBook.hasOrder_iff.2 ⟨o, ho⟩
    | replace r => exact h.1
  · rintro x rfl
    obtain ⟨o, ho, hlt⟩ := hx x rfl
    have hle : x.executedQuantity ≤ o.quantity := UInt32.le_of_lt hlt
    exact ⟨o, ho, hle, (OrderBook.hasOrder_execute_iff ho hle).2 hlt⟩

namespace FeedGenerator

/-- While the Executes leave something, each of them went through. -/
theorem leftAfter_of_lt {id : OrderId} {n : Nat} (h : (execQtyOf id).toNat * n < (quantityOf id).toNat) :
    ∃ q, leftAfter id n = some q ∧ q.toNat = (quantityOf id).toNat - (execQtyOf id).toNat * n := by
  induction n with
  | zero => exact ⟨quantityOf id, rfl, by simp⟩
  | succ n ih =>
    have hmul : (execQtyOf id).toNat * (n + 1) = (execQtyOf id).toNat * n + (execQtyOf id).toNat := Nat.mul_succ _ _
    obtain ⟨q, hq, hqn⟩ := ih (by omega)
    have hle : execQtyOf id ≤ q := UInt32.le_iff_toNat_le.2 (by omega)
    have hsub : (q - execQtyOf id).toNat = q.toNat - (execQtyOf id).toNat := UInt32.toNat_sub_of_le _ _ hle
    have hne : q - execQtyOf id ≠ 0 := fun e => by
      rw [e, UInt32.toNat_zero] at hsub
      omega
    refine ⟨q - execQtyOf id, ?_, by omega⟩
    rw [leftAfter, hq, Option.bind_some, executeOnce, if_neg (UInt32.not_lt.2 hle), if_neg hne]

/-- No order has been executed down to nothing or further. -/
def Unfilled (ms : List DecodedMessage) : Prop :=
  ∀ id, (execQtyOf id).toNat * executionsOf id ms < (quantityOf id).toNat

theorem Unfilled.nil : Unfilled [] := by
  intro id
  rw [quantityOf_toNat]
  show _ * 0 < _
  omega

theorem Unfilled.left {ms ms' : List DecodedMessage} (h : Unfilled (ms ++ ms')) : Unfilled ms := by
  intro id
  have := h id
  rw [executionsOf_append, Nat.mul_add] at this
  omega

theorem Unfilled.snoc_iff {ms : List DecodedMessage} (h : Unfilled ms) (m : DecodedMessage) :
    Unfilled (ms ++ [m]) ↔ ∀ x, m = .execute x →
      (execQtyOf x.orderId).toNat * (executionsOf x.orderId ms + 1) < (quantityOf x.orderId).toNat := by
  constructor
  · rintro h' x rfl
    rw [← executionsOf_execute]
    exact h' x.orderId
  · intro hx id
    by_cases hid : ∃ x, m = .execute x ∧ x.orderId = id
    · obtain ⟨x, rfl, rfl⟩ := hid
      rw [executionsOf_execute]
      exact hx x rfl
    · have hzero : executionsOf id [m] = 0 := by
        cases m with
        | execute x => simpa [executionsOf] using fun e => hid ⟨x, rfl, e⟩
        | add a => rfl
        | cancel c => rfl
        | replace r => rfl
      rw [executionsOf_append, hzero]
      exact h id

end FeedGenerator

/-- The generator, the reference and the books after the same messages, none of which filled an order. -/
structure Exchange (g : FeedGenerator cfg) (l : Live) (ms : List DecodedMessage) (k : Nat) (books : Books) : Prop where
  tracks : g.Tracks l ms k
  ids : k ≤ g.emittedCount.toNat + 1
  seqs : ∀ i, (g.nextSeqPerShard i).toNat ≤ g.emittedCount.toNat
  books : ∀ sym, (books sym).remaining = l.ofSymbol sym
  unfilled : FeedGenerator.Unfilled ms

namespace Exchange
variable {g : FeedGenerator cfg} {l : Live} {ms : List DecodedMessage} {k : Nat} {books : Books} {d : Draw}

theorem init : Exchange ({} : FeedGenerator cfg) Live.empty [] 1 fun _ => OrderBook.empty := by
  refine ⟨.init, le_rfl, fun i => le_rfl, fun sym => ?_, .nil⟩
  funext id
  simp [Live.ofSymbol, Live.empty]

theorem of_totalDropped (h : Exchange g l ms k books) (c : UInt64) :
    Exchange { g with totalDropped := c } l ms k books :=
  ⟨⟨h.tracks.next, h.tracks.fresh, h.tracks.resting, h.tracks.nodup, h.tracks.disjoint⟩, h.ids, h.seqs, h.books, h.unfilled⟩

theorem resting (h : Exchange g l ms k books) {j : Fin cfg.symbols.length} {id : OrderId}
    (hid : id ∈ g.restingOrdersPerSymbol j) :
    ∃ q, l id = some (cfg.symbols.get j, q) ∧
      q.toNat = (quantityOf id).toNat - (execQtyOf id).toNat * executionsOf id ms := by
  obtain ⟨q, hq, hqn⟩ := FeedGenerator.leftAfter_of_lt (h.unfilled id)
  refine ⟨q, ?_, hqn⟩
  rw [(h.tracks.resting j id hid).2, hq]
  rfl

theorem refers (h : Exchange g l ms k books) (he : g.emittedCount < cfg.messageCount) (d : Draw) :
    l.Refers (g.emit d).1 ∧ l.Home (g.emit d).1 (symbolOf cfg d) := by
  obtain ⟨id, ids, hg, -⟩ := FeedGenerator.emit_spec h.seqs he d
  have hr : l.Refers (g.emit d).1 := by
    refine h.tracks.refers_of_live (FeedGenerator.id_lt h.ids he) hg fun hna => ?_
    rcases hg.ids.2.2 with ⟨hmem, -⟩ | ⟨a, ha, -⟩
    · obtain ⟨q, hq, -⟩ := h.resting hmem
      simp [hq]
    · exact absurd ha (hna a)
  exact ⟨hr, h.tracks.home hg hr⟩

theorem hasOrder_iff (h : Exchange g l ms k books) (sym : Symbol) (id : OrderId) :
    (books sym).hasOrder id = true ↔ ∃ q, l id = some (sym, q) := by
  rw [OrderBook.hasOrder_eq_remaining, h.books, Option.isSome_iff_exists]
  exact exists_congr fun q => Live.ofSymbol_eq_some_iff

/-- What the generator executes of an order: always the same quantity, of an order on its list. -/
theorem executed (h : Exchange g l ms k books) (he : g.emittedCount < cfg.messageCount) {x : ExecuteOrder}
    (hx : (g.emit d).1 = .execute x) :
    x.executedQuantity = execQtyOf x.orderId ∧ ∃ o, (books (symbolOf cfg d)).resting x.orderId = some o ∧
      o.quantity.toNat = (quantityOf x.orderId).toNat - (execQtyOf x.orderId).toNat * executionsOf x.orderId ms := by
  obtain ⟨id, ids, hg, -⟩ := FeedGenerator.emit_spec h.seqs he d
  have hq : x.executedQuantity = execQtyOf x.orderId := by
    rw [hx] at hg
    cases hg
    rfl
  refine ⟨hq, ?_⟩
  rcases hg.ids.2.2 with ⟨hmem, -⟩ | ⟨a, ha, -⟩
  · rw [hx] at hmem
    obtain ⟨q, hl, hqn⟩ := h.resting hmem
    have hrem : (books (symbolOf cfg d)).remaining x.orderId = some q := by
      rw [h.books]
      exact Live.ofSymbol_eq_some_iff.2 hl
    obtain ⟨o, ho, rfl⟩ := OrderBook.resting_of_remaining hrem
    exact ⟨o, ho, hqn⟩
  · rw [hx] at ha
    cases ha

/-- The books accept every message but an Execute of too much. -/
theorem accepts (h : Exchange g l ms k books) (he : g.emittedCount < cfg.messageCount)
    (hx : ∀ x, (g.emit d).1 = .execute x →
      ∃ o, (books (symbolOf cfg d)).resting x.orderId = some o ∧ x.executedQuantity ≤ o.quantity) :
    (books (symbolOf cfg d)).Accepts (g.emit d).1 := by
  obtain ⟨hr, hhome⟩ := h.refers he d
  have hnone : ∀ id, l id = none → (books (symbolOf cfg d)).hasOrder id = false := by
    intro id hid
    rw [← Bool.not_eq_true, h.hasOrder_iff, hid]
    simp
  cases hm : (g.emit d).1 with
  | add a =>
    rw [hm] at hr
    exact hnone _ hr
  | cancel c =>
    rw [hm] at hhome
    exact (h.hasOrder_iff _ _).2 hhome
  | execute x => exact hx x hm
  | replace x =>
    rw [hm] at hr hhome
    exact ⟨(h.hasOrder_iff _ _).2 hhome, hnone _ hr.2⟩

/-- A message is coherent with the books unless it is an Execute that takes the last of its order. -/
theorem coherentAt_iff (h : Exchange g l ms k books) (he : g.emittedCount < cfg.messageCount) (d : Draw) :
    CoherentAt (books (symbolOf cfg d)) (g.emit d).1 ↔ FeedGenerator.Unfilled (ms ++ [(g.emit d).1]) := by
  rw [h.unfilled.snoc_iff]
  have hmul : ∀ a n : Nat, a * (n + 1) = a * n + a := fun a n => Nat.mul_succ a n
  constructor
  · intro hc x hx
    obtain ⟨o, ho, hle, hrest⟩ := hc.executed x hx
    obtain ⟨hq, o', ho', hn⟩ := h.executed he hx
    rw [ho, Option.some.injEq] at ho'
    subst ho'
    rw [hx, OrderBook.hasOrder_execute_iff ho hle, hq, UInt32.lt_iff_toNat_lt, hn] at hrest
    rw [hmul]
    omega
  · intro hx
    refine .of_accepts (h.accepts he fun x hm => ?_) fun x hm => ?_
    all_goals
      obtain ⟨hq, o, ho, hn⟩ := h.executed he hm
      have hlt := hx x hm
      rw [hmul] at hlt
    · exact ⟨o, ho, by rw [hq, UInt32.le_iff_toNat_le]; omega⟩
    · exact ⟨o, ho, by rw [hq, UInt32.lt_iff_toNat_lt]; omega⟩

theorem emit (h : Exchange g l ms k books) (he : g.emittedCount < cfg.messageCount)
    (hu : FeedGenerator.Unfilled (ms ++ [(g.emit d).1])) :
    ∃ k', Exchange (g.emit d).2 (l.apply (g.emit d).1) (ms ++ [(g.emit d).1]) k' (books.apply (g.stamp d)) := by
  obtain ⟨hr, hhome⟩ := h.refers he d
  obtain ⟨id, ids, hg, hid, hids, hcount, -, hseqs⟩ := FeedGenerator.emit_spec h.seqs he d
  obtain ⟨k', -, hk', htracks⟩ := h.tracks.generate (FeedGenerator.id_lt h.ids he) hg hr
  refine ⟨k', htracks _ hid hids, ?_, fun i => ?_, fun sym => ?_, hu⟩
  · have := h.ids
    omega
  · have := h.seqs i
    rw [hseqs, hcount]
    split <;> omega
  · rw [Live.ofSymbol_apply hr hhome]
    by_cases hs : sym = symbolOf cfg d
    · subst hs
      have hself : books.apply (g.stamp d) (symbolOf cfg d) = ((books (symbolOf cfg d)).apply (g.emit d).1).2 :=
        Function.update_self _ _ _
      rw [hself, if_pos rfl, OrderBook.remaining_apply, h.books]
    · have hother : books.apply (g.stamp d) sym = books sym := Function.update_of_ne hs _ _
      rw [hother, if_neg hs, h.books]

/-- The rest of the feed is coherent exactly when it fills no order. -/
theorem trace_iff (h : Exchange g l ms k books) (ds : List Draw) :
    (∀ pre e post, g.trace ds = pre ++ e :: post → CoherentAt (books.applyAll pre e.symbol) e.message) ↔
      FeedGenerator.Unfilled (ms ++ g.messages ds) := by
  induction ds generalizing g l ms k books with
  | nil =>
    refine ⟨fun _ => ?_, fun _ pre e post hp => by simp [FeedGenerator.trace] at hp⟩
    rw [FeedGenerator.messages, List.append_nil]
    exact h.unfilled
  | cons d ds ih =>
    by_cases he : g.emittedCount < cfg.messageCount
    · rw [FeedGenerator.trace, FeedGenerator.messages, if_neg (UInt64.not_le.2 he), if_neg (UInt64.not_le.2 he)]
      by_cases hu : FeedGenerator.Unfilled (ms ++ [(g.emit d).1])
      · obtain ⟨k', h'⟩ := h.emit he hu
        obtain ⟨c, hc⟩ := FeedGenerator.next_state he d
        have h₁ := h'.of_totalDropped c
        rw [← hc] at h₁
        have := ih h₁
        rw [List.append_assoc, List.singleton_append] at this
        rw [← this]
        constructor
        · intro hall pre e post hp
          exact hall (g.stamp d :: pre) e post (by rw [hp]; rfl)
        · intro hall pre e post hp
          cases pre with
          | nil =>
            obtain ⟨rfl, -⟩ := List.cons.inj hp
            exact (h.coherentAt_iff he d).2 hu
          | cons e' pre =>
            obtain ⟨rfl, hp'⟩ := List.cons.inj hp
            exact hall pre e post hp'
      · -- the message that fills an order is the first that is not coherent
        refine ⟨fun hall => absurd ((h.coherentAt_iff he d).1 (hall [] _ _ rfl)) hu, fun hall => ?_⟩
        rw [← List.singleton_append, ← List.append_assoc] at hall
        exact absurd hall.left hu
    · have ht : g.trace (d :: ds) = [] := by rw [FeedGenerator.trace, if_pos (UInt64.not_lt.1 he)]
      rw [ht, (FeedGenerator.exhausted he _).2, List.append_nil]
      exact ⟨fun _ => h.unfilled, fun _ pre e post hp => by simp at hp⟩

end Exchange

/-- The generated feed is coherent exactly when no order is executed as often as fills it. -/
theorem feedCoherent_iff (cfg : Config numShards) (ds : List Draw) :
    FeedCoherent cfg ds ↔ ∀ id, (execQtyOf id).toNat * executionsOf id (({} : FeedGenerator cfg).messages ds) <
      (quantityOf id).toNat := by
  have h₀ : FeedGenerator.Stamping ({} : FeedGenerator cfg) (fun _ => default) [] 1 := .init _
  obtain ⟨g', symOf, k, h⟩ := h₀.trace ds
  exact (and_iff_left h.distinct).trans (Exchange.init.trace_iff ds)

/-- Order `1` of quantity `11` is picked for six Executes of `2`. -/
def sixExecutes : List Draw := sampleDraw 0 0 :: List.replicate 6 (sampleDraw (3 / 4) 0)

/-- The sixth is rejected by the book. -/
theorem sixth_execute_rejected :
    ((Books.applyAll (fun _ => OrderBook.empty) ((({} : FeedGenerator sampleConfig).trace sixExecutes).take 6)
        sampleSymbol).apply (.execute ⟨7, 1, 2, 7⟩)).1 = .error .executedQuantityExceedsRemaining ∧
      ¬ FeedCoherent sampleConfig sixExecutes := by
  have hrej : ((Books.applyAll (fun _ => OrderBook.empty) ((({} : FeedGenerator sampleConfig).trace sixExecutes).take 6)
      sampleSymbol).apply (.execute ⟨7, 1, 2, 7⟩)).1 = .error .executedQuantityExceedsRemaining := by decide +kernel
  refine ⟨hrej, fun h => ?_⟩
  have ht : ({} : FeedGenerator sampleConfig).trace sixExecutes =
      (({} : FeedGenerator sampleConfig).trace sixExecutes).take 6 ++
        ⟨sampleSymbol, ⟨0, by decide⟩, .execute ⟨7, 1, 2, 7⟩, false⟩ :: [] := by decide +kernel
  obtain ⟨ds, hds⟩ := (h.1 _ _ _ ht).applied
  rw [hrej] at hds
  cases hds

end Mdfh
