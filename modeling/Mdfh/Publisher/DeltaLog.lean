import Mdfh.Io.ShardDemux
import Mdfh.Lib.TextLines
import Mathlib.Tactic.IntervalCases

/-!
# The delta log (`publisher/publisher.cpp`)

`FileDeltaSink` appends one line for each delta it is given. The symbol is up to eight bytes of the
wire, printed as they are, so a line can hold any byte, a line break included, and the file is not read
back line by line. It is read back from the left: a number ends at the space after it, and a symbol ends at
the first `" side="` that can follow, since none of the next eight bytes after that space is a space.
-/

namespace Mdfh

open LittleEndian (Bytes)
open TextLines

/-- `symbol_view`: the bytes before the first zero. -/
def symbolView (symbol : Symbol) : Bytes := symbol.toList.takeWhile (· ≠ 0)

def sideText (side : Side) : String := if side = .buy then "BUY" else "SELL"

def quantityText (q : Quantity) : String := if q = 0 then "REMOVED" else toString q.toNat

def formatDeltaLine (delta : BookDelta) : Bytes :=
  text "seq=" ++ text (toString delta.seqNum.toNat) ++ text " ts=" ++ text (toString delta.timestamp.toNat) ++
  text " symbol=" ++ symbolView delta.symbol ++
  text " side=" ++ text (sideText delta.side) ++ text " price=" ++ text (toString delta.price.toInt) ++
  text " qty=" ++ text (quantityText delta.totalQuantity)

/-- A sink with the content of its file. -/
structure FileDeltaSink where
  out : Bytes := []
deriving DecidableEq, Repr

def FileDeltaSink.publish (s : FileDeltaSink) (delta : BookDelta) : FileDeltaSink :=
  { s with out := s.out ++ (formatDeltaLine delta ++ text "\n") }

/-- The content of the file after the deltas of `ds`. -/
def deltaLog (ds : List BookDelta) : Bytes := (ds.foldl FileDeltaSink.publish {}).out

theorem deltaLog_eq (ds : List BookDelta) : deltaLog ds = ds.flatMap fun d => formatDeltaLine d ++ text "\n" := by
  have hall : ∀ s : FileDeltaSink, (ds.foldl FileDeltaSink.publish s).out =
      s.out ++ ds.flatMap fun d => formatDeltaLine d ++ text "\n" := by
    induction ds with
    | nil => exact fun s => (List.append_nil _).symm
    | cons d ds ih =>
      intro s
      rw [List.foldl_cons, ih, FileDeltaSink.publish, List.flatMap_cons, List.append_assoc]
  exact hall {}

/-- No non-zero byte after a zero byte. -/
def ZeroPadded (symbol : Symbol) : Prop := symbol.toList.Pairwise fun a b => a = 0 → b = 0

instance (symbol : Symbol) : Decidable (ZeroPadded symbol) :=
  inferInstanceAs (Decidable (symbol.toList.Pairwise fun a b => a = 0 → b = 0))

/-- A delta with an enumerator of `Side` and a symbol as `make_symbol` pads it. -/
structure BookDelta.Printable (d : BookDelta) : Prop where
  side : d.side.Defined
  symbol : ZeroPadded d.symbol

/-! ### One field after the other -/

theorem eq_takeWhile_append_replicate {l : Bytes} (h : l.Pairwise fun a b => a = 0 → b = 0) :
    l = l.takeWhile (· ≠ 0) ++ List.replicate (l.length - (l.takeWhile (· ≠ 0)).length) 0 := by
  induction l with
  | nil => rfl
  | cons b bs ih =>
    rw [List.pairwise_cons] at h
    by_cases hb : b = 0
    · have hzero : ∀ c ∈ b :: bs, c = 0 := by
        intro c hc
        rcases List.mem_cons.1 hc with rfl | hc
        · exact hb
        · exact h.1 c hc hb
      have hnone : (b :: bs).takeWhile (· ≠ 0) = [] := by simp [hb]
      rw [hnone]
      exact List.eq_replicate_iff.2 ⟨rfl, hzero⟩
    · have hone : (b :: bs).takeWhile (· ≠ 0) = b :: bs.takeWhile (· ≠ 0) := by simp [hb]
      rw [hone, List.length_cons, List.length_cons, Nat.add_sub_add_right, List.cons_append, ← ih h.2]

theorem symbolView_inj {s s' : Symbol} (h : ZeroPadded s) (h' : ZeroPadded s') (e : symbolView s = symbolView s') : s = s' := by
  have hlen : s.toList.length = s'.toList.length := by simp
  refine Vector.toList_inj.1 ?_
  rw [eq_takeWhile_append_replicate h, eq_takeWhile_append_replicate h', hlen]
  have e' : s.toList.takeWhile (· ≠ 0) = s'.toList.takeWhile (· ≠ 0) := e
  rw [e']

theorem length_symbolView_le (s : Symbol) : (symbolView s).length ≤ 8 := by
  have := (List.takeWhile_sublist (l := s.toList) (· ≠ 0)).length_le
  simpa [symbolView] using this

theorem side_marked (side : Side) (r : Bytes) : MarkedBy 32 8 (text " side=" ++ (text (sideText side) ++ (text " price=" ++ r))) := by
  refine ⟨rfl, fun k hk hk' => ?_⟩
  unfold sideText
  split
  · show ([32, 115, 105, 100, 101, 61, 66, 85, 89] ++ (text " price=" ++ r))[k]? ≠ _
    interval_cases k <;> simp
  · show ([32, 115, 105, 100, 101, 61, 83, 69, 76, 76] ++ (text " price=" ++ r))[k]? ≠ _
    interval_cases k <;> simp

theorem symbol_append_inj {s s' : Symbol} {side side' : Side} {r r' : Bytes} (h : ZeroPadded s) (h' : ZeroPadded s')
    (e : symbolView s ++ (text " side=" ++ (text (sideText side) ++ (text " price=" ++ r))) =
      symbolView s' ++ (text " side=" ++ (text (sideText side') ++ (text " price=" ++ r')))) :
    s = s' ∧ text (sideText side) ++ (text " price=" ++ r) = text (sideText side') ++ (text " price=" ++ r') := by
  obtain ⟨hview, hrest⟩ := append_inj_of_marker (length_symbolView_le s) (length_symbolView_le s') (side_marked side r)
    (side_marked side' r') e
  exact ⟨symbolView_inj h h' hview, List.append_cancel_left hrest⟩

theorem side_append_inj {s s' : Side} {r r' : Bytes} (h : s.Defined) (h' : s'.Defined)
    (e : text (sideText s) ++ r = text (sideText s') ++ r') : s = s' ∧ r = r' := by
  have hbuy : text (sideText .buy) = [66, 85, 89] := rfl
  have hsell : text (sideText .sell) = [83, 69, 76, 76] := rfl
  rcases h with rfl | rfl <;> rcases h' with rfl | rfl
  · exact ⟨rfl, List.append_cancel_left e⟩
  · rw [hbuy, hsell] at e
    cases e
  · rw [hbuy, hsell] at e
    cases e
  · exact ⟨rfl, List.append_cancel_left e⟩

theorem quantity_append_inj {q q' : Quantity} {r r' : Bytes} (e : text (quantityText q) ++ (text "\n" ++ r) =
    text (quantityText q') ++ (text "\n" ++ r')) : q = q' ∧ r = r' := by
  have hremoved : ∀ (k : Nat) (u v : Bytes), text "REMOVED" ++ u ≠ text (toString k) ++ v :=
    fun k _ => cons_ne_nat (b := 82) (by decide) k _
  have hbreak : ∀ u : Bytes, ∀ b ∈ (text "\n" ++ u).head?, ¬ IsDigit b := ends_number (b := 10) (by decide)
  unfold quantityText at e
  split at e
  · next hq =>
    split at e
    · next hq' => exact ⟨hq.trans hq'.symm, List.append_cancel_left (List.append_cancel_left e)⟩
    · exact absurd e (hremoved _ _ _)
  · split at e
    · exact absurd e.symm (hremoved _ _ _)
    · obtain ⟨hq, hrest⟩ := nat_append_inj (hbreak r) (hbreak r') e
      exact ⟨UInt32.toNat_inj.1 hq, List.append_cancel_left hrest⟩

/-- A line and its line break are read back, whatever comes after them. -/
theorem line_append_inj {d d' : BookDelta} {r r' : Bytes} (h : d.Printable) (h' : d'.Printable)
    (e : (formatDeltaLine d ++ text "\n") ++ r = (formatDeltaLine d' ++ text "\n") ++ r') : d = d' ∧ r = r' := by
  have hspace : ¬ IsDigit 32 := by decide
  have hseqEnd : ∀ u : Bytes, ∀ b ∈ (text " ts=" ++ u).head?, ¬ IsDigit b := fun _ => ends_number hspace _
  have htsEnd : ∀ u : Bytes, ∀ b ∈ (text " symbol=" ++ u).head?, ¬ IsDigit b := fun _ => ends_number hspace _
  have hpriceEnd : ∀ u : Bytes, ∀ b ∈ (text " qty=" ++ u).head?, ¬ IsDigit b := fun _ => ends_number hspace _
  simp only [formatDeltaLine, List.append_assoc] at e
  obtain ⟨hseq, e⟩ := nat_append_inj (hseqEnd _) (hseqEnd _) (List.append_cancel_left e)
  obtain ⟨hts, e⟩ := nat_append_inj (htsEnd _) (htsEnd _) (List.append_cancel_left e)
  obtain ⟨hsymbol, e⟩ := symbol_append_inj h.symbol h'.symbol (List.append_cancel_left e)
  obtain ⟨hside, e⟩ := side_append_inj h.side h'.side e
  obtain ⟨hprice, e⟩ := int_append_inj (hpriceEnd _) (hpriceEnd _) (List.append_cancel_left e)
  obtain ⟨hqty, e⟩ := quantity_append_inj (List.append_cancel_left e)
  refine ⟨?_, e⟩
  rcases d with ⟨symbol, side, price, qty, seq, ts⟩
  rcases d' with ⟨symbol', side', price', qty', seq', ts'⟩
  rw [BookDelta.mk.injEq]
  exact ⟨hsymbol, hside, Int64.toInt_inj.1 hprice, hqty, UInt64.toNat_inj.1 hseq, UInt64.toNat_inj.1 hts⟩

/-- Two logs with the same content are logs of the same deltas. -/
theorem deltaLog_injective {ds ds' : List BookDelta} (h : ∀ d ∈ ds, d.Printable) (h' : ∀ d ∈ ds', d.Printable)
    (e : deltaLog ds = deltaLog ds') : ds = ds' := by
  rw [deltaLog_eq, deltaLog_eq] at e
  refine flatMap_inj (fun d => ?_) (fun d d' r r' => line_append_inj) h h' e
  exact List.append_ne_nil_of_right_ne_nil _ (by decide)

/-- The symbols `" side=BU"` and `"A\n"`. -/
def spacedDeltas : List BookDelta :=
  [⟨#v[32, 115, 105, 100, 101, 61, 66, 85], .buy, -5, 0, 1, 2⟩, ⟨#v[65, 10, 0, 0, 0, 0, 0, 0], .sell, 7, 30, 2, 3⟩]

theorem deltaLog_injective_spaced : deltaLog spacedDeltas = deltaLog (spacedDeltas.take 1 ++ spacedDeltas.drop 1) ∧
    spacedDeltas = spacedDeltas.take 1 ++ spacedDeltas.drop 1 := by
  have hprint : ∀ d ∈ spacedDeltas, d.Printable := by
    intro d hd
    rcases List.mem_cons.1 hd with rfl | hd
    · exact ⟨.inl rfl, by decide⟩
    · rw [List.mem_singleton.1 hd]
      exact ⟨.inr rfl, by decide⟩
  have hlog := congrArg deltaLog (List.take_append_drop 1 spacedDeltas).symm
  exact ⟨hlog, deltaLog_injective hprint hprint hlog⟩

example : deltaLog (spacedDeltas.take 1) = text "seq=1 ts=2 symbol= side=BU side=BUY price=-5 qty=REMOVED\n" := by
  decide +kernel

end Mdfh
