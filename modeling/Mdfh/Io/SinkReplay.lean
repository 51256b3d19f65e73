import Mdfh.Io.Routing
import Mdfh.OrderBook.Replay

/-!
# A shard's published deltas rebuild its books

`replay_run` for one book, carried to a shard: the messages of all its symbols are applied one by one,
each to the book of its own symbol, and the deltas of a message name that symbol, so folding them by
symbol, side and price follows every book of the shard at once.
-/

namespace Mdfh

/-- The shard after the messages, in order. -/
def ShardState.applyMessages (s : ShardState) (qms : List QueuedMessage) : ShardState :=
  qms.foldl (fun s qm => (s.applyMessage qm).2) s

/-- The deltas of the messages, in order. -/
def ShardState.deltasOf (s : ShardState) : List QueuedMessage → List BookDelta
  | [] => []
  | qm :: qms => qm.deltas (s.applyMessage qm).1 ++ (s.applyMessage qm).2.deltasOf qms

/-- A sink's map from symbol, side and price to the level's total. -/
abbrev SinkTotals := Symbol × Side × Price → Option Quantity

def SinkTotals.applyDelta (t : SinkTotals) (d : BookDelta) : SinkTotals :=
  Function.update t (d.symbol, d.side, d.price) (nonZero d.totalQuantity)

/-- Folds the published deltas into the empty map. -/
def replaySink (ds : List BookDelta) : SinkTotals := ds.foldl SinkTotals.applyDelta fun _ => none

namespace ShardState
variable {s : ShardState}

/-- The non-zero levels of the live books. -/
def levelTotals (s : ShardState) : SinkTotals := fun k => (s.book k.1).1.levelTotals k.2

def SidesOk (s : ShardState) : Prop := ∀ sym, (s.book sym).1.SidesOk

theorem applyMessages_concat (qms : List QueuedMessage) (qm : QueuedMessage) :
    s.applyMessages (qms ++ [qm]) = ((s.applyMessages qms).applyMessage qm).2 := by
  simp [applyMessages]

theorem deltasOf_concat (qms : List QueuedMessage) (qm : QueuedMessage) :
    s.deltasOf (qms ++ [qm]) = s.deltasOf qms ++ qm.deltas ((s.applyMessages qms).applyMessage qm).1 := by
  induction qms generalizing s with
  | nil => simp [deltasOf, applyMessages]
  | cons qm' qms ih =>
    rw [List.cons_append, deltasOf, ih, deltasOf, List.append_assoc]
    rfl

/-- The deltas of one symbol change that symbol's part of the map, as a book's own replay does. -/
theorem foldl_deltas (t : SinkTotals) (qm : QueuedMessage) (ls : List LevelDelta) (k : Symbol × Side × Price) :
    (qm.deltas (.ok ls)).foldl SinkTotals.applyDelta t k =
      if k.1 = qm.symbol then ls.foldl LevelTotals.applyDelta (fun k' => t (qm.symbol, k')) k.2 else t k := by
  induction ls generalizing t with
  | nil =>
    split
    · next hk => rw [← hk]; rfl
    · rfl
  | cons l ls ih =>
    show (qm.deltas (.ok ls)).foldl SinkTotals.applyDelta (t.applyDelta _) k = _
    rw [ih]
    split
    · next hk =>
      rw [List.foldl_cons]
      refine congrFun (congrArg (fun t' => ls.foldl LevelTotals.applyDelta t') ?_) k.2
      funext k'
      simp [SinkTotals.applyDelta, LevelTotals.applyDelta, Function.update_apply]
    · next hk =>
      rw [SinkTotals.applyDelta, Function.update_of_ne]
      rintro rfl
      exact hk rfl

theorem replay_applyMessage (hso : s.SidesOk) (qm : QueuedMessage) (hs : ∀ a, qm.message = .add a → a.side.Defined) :
    (qm.deltas (s.applyMessage qm).1).foldl SinkTotals.applyDelta s.levelTotals = (s.applyMessage qm).2.levelTotals ∧
      (s.applyMessage qm).2.SidesOk := by
  obtain ⟨r, b', ha, hb', -⟩ := (s.book qm.symbol).2.apply qm.message
  obtain ⟨h₁, h₂⟩ := OrderBook.apply_eq ha
  have hbook : ∀ sym, ((s.applyMessage qm).2.book sym).1 = if sym = qm.symbol then b' else (s.book sym).1 := by
    intro sym
    rw [book_applyMessage]
    split
    · exact h₂
    · rfl
  have hres : (s.applyMessage qm).1 = r := h₁
  -- a rejected message leaves its book as it was, an accepted one is a chain of reported steps
  have hchain : (∀ k, (qm.deltas r).foldl SinkTotals.applyDelta s.levelTotals k =
      if k.1 = qm.symbol then b'.levelTotals k.2 else s.levelTotals k) ∧ b'.SidesOk := by
    cases r with
    | error e =>
      obtain rfl := (s.book qm.symbol).2.apply_error ha
      refine ⟨fun k => ?_, hso qm.symbol⟩
      split
      · next hk => rw [← hk]; rfl
      · rfl
    | ok ls =>
      obtain ⟨hc, hso', -⟩ := (s.book qm.symbol).2.apply_reported (hso qm.symbol) hs ha
      refine ⟨fun k => ?_, hso'⟩
      rw [foldl_deltas, ← hc.applyDeltas (s.book qm.symbol).2]
      rfl
  rw [hres]
  refine ⟨?_, fun sym => ?_⟩
  · funext k
    rw [hchain.1]
    show _ = ((s.applyMessage qm).2.book k.1).1.levelTotals k.2
    rw [hbook]
    split <;> rfl
  · rw [hbook]
    split
    · exact hchain.2
    · exact hso sym

theorem replay_applyMessages (hso : s.SidesOk) (qms : List QueuedMessage)
    (hs : ∀ qm ∈ qms, ∀ a, qm.message = .add a → a.side.Defined) :
    (s.deltasOf qms).foldl SinkTotals.applyDelta s.levelTotals = (s.applyMessages qms).levelTotals := by
  induction qms generalizing s with
  | nil => rfl
  | cons qm qms ih =>
    obtain ⟨hfold, hso'⟩ := replay_applyMessage hso qm (hs qm List.mem_cons_self)
    rw [deltasOf, List.foldl_append, hfold, ih hso' fun qm' h => hs qm' (List.mem_cons_of_mem _ h)]
    rfl

/-- From an empty shard: the sink that got every delta holds the shard's non-zero levels. -/
theorem replaySink_deltasOf (qms : List QueuedMessage)
    (hs : ∀ qm ∈ qms, ∀ a, qm.message = .add a → a.side.Defined) :
    replaySink (({} : ShardState).deltasOf qms) = (({} : ShardState).applyMessages qms).levelTotals := by
  have hempty : ∀ sym, ({} : ShardState).book sym = .empty := fun sym => by simp [book]
  rw [← replay_applyMessages (fun sym => by rw [hempty]; exact .empty) qms hs]
  have : ({} : ShardState).levelTotals = fun _ => none := by
    funext k
    rw [levelTotals, hempty]
    exact congrFun OrderBookT.levelTotals_empty k.2
  rw [this]
  rfl

end ShardState

end Mdfh
