import Mdfh.Concurrency.RingSafety
import Mdfh.Concurrency.GapDetector
import Mathlib.Order.Interval.Finset.Nat

/-!
# Evictions are visible as sequence gaps

When the items pushed onto a ring carry consecutive sequence numbers, the numbers that come out of
`try_pop` tell which items the ring evicted: the indices delivered are the indices not evicted, in
order, so between two consecutive pops every missing number is an eviction and every eviction a missing
number. A detector that observes the pops reports `Gap` at exactly those places; `Tracks` is its state
after any number of pops, with the evictions since the first one counted by `skipped`.
-/

namespace Mdfh

/-- How many of the indices strictly between `a` and `b` are in `lost`. -/
def skipped (lost : List Nat) (a b : Nat) : Nat := ((Finset.Ioo a b).filter (· ∈ lost)).card

section Skipped
variable {lost : List Nat} {a b c : Nat}

theorem skipped_self (lost : List Nat) (a : Nat) : skipped lost a a = 0 := by
  simp [skipped]

theorem skipped_pos_iff : 0 < skipped lost a b ↔ ∃ i ∈ lost, a < i ∧ i < b := by
  rw [skipped, Finset.card_pos]
  constructor
  · rintro ⟨i, hi⟩
    rw [Finset.mem_filter, Finset.mem_Ioo] at hi
    exact ⟨i, hi.2, hi.1⟩
  · rintro ⟨i, hi, hab⟩
    exact ⟨i, Finset.mem_filter.2 ⟨Finset.mem_Ioo.2 hab, hi⟩⟩

theorem skipped_split (hab : a ≤ b) (hbc : b < c) (hb : b ∉ lost) :
    skipped lost a c = skipped lost a b + skipped lost b c := by
  have hunion : (Finset.Ioo a c).filter (· ∈ lost) =
      (Finset.Ioo a b).filter (· ∈ lost) ∪ (Finset.Ioo b c).filter (· ∈ lost) := by
    ext i
    simp only [Finset.mem_filter, Finset.mem_union, Finset.mem_Ioo]
    constructor
    · rintro ⟨⟨hai, hic⟩, hi⟩
      rcases Nat.lt_trichotomy i b with hib | rfl | hbi
      · exact .inl ⟨⟨hai, hib⟩, hi⟩
      · exact absurd hi hb
      · exact .inr ⟨⟨hbi, hic⟩, hi⟩
    · rintro (⟨⟨hai, hib⟩, hi⟩ | ⟨⟨hbi, hic⟩, hi⟩)
      · exact ⟨⟨hai, hib.trans hbc⟩, hi⟩
      · exact ⟨⟨by omega, hic⟩, hi⟩
  have hdisj : Disjoint ((Finset.Ioo a b).filter (· ∈ lost)) ((Finset.Ioo b c).filter (· ∈ lost)) := by
    refine Finset.disjoint_left.2 fun i hi hi' => ?_
    have h₁ := Finset.mem_Ioo.1 (Finset.mem_filter.1 hi).1
    have h₂ := Finset.mem_Ioo.1 (Finset.mem_filter.1 hi').1
    omega
  rw [skipped, hunion, Finset.card_union_of_disjoint hdisj]
  rfl

theorem skipped_eq_of_all (h : ∀ i, a < i → i < b → i ∈ lost) : skipped lost a b = b - a - 1 := by
  have hall : (Finset.Ioo a b).filter (· ∈ lost) = Finset.Ioo a b :=
    Finset.filter_true_of_mem fun i hi => h i (Finset.mem_Ioo.1 hi).1 (Finset.mem_Ioo.1 hi).2
  rw [skipped, hall, Nat.card_Ioo]

end Skipped

/-! ### The detector on numbers with holes -/

namespace GapDetector
variable {g : GapDetector} {n₀ first last pops : Nat} {lost : List Nat}

theorem observe_later (hl : g.hasLastSeqNum = true) {n : SeqNum} (hlt : g.lastSeqNum.toNat < n.toNat) :
    (g.observe n).2.hasLastSeqNum = true ∧ (g.observe n).2.lastSeqNum = n ∧
      ((n.toNat = g.lastSeqNum.toNat + 1 ∧ (g.observe n).1 = .inOrder ∧ (g.observe n).2.state = g.state) ∨
        g.lastSeqNum.toNat + 1 < n.toNat ∧ (g.observe n).1 = .gap ∧ (g.observe n).2.state = .stale) := by
  have hn := n.toNat_lt
  have hexp : (g.lastSeqNum + 1).toNat = g.lastSeqNum.toNat + 1 := by
    rw [UInt64.toNat_add]
    exact Nat.mod_eq_of_lt (show g.lastSeqNum.toNat + 1 < 2 ^ 64 by omega)
  by_cases he : n = g.lastSeqNum + 1
  · have hnat : n.toNat = g.lastSeqNum.toNat + 1 := by rw [he, hexp]
    rw [observe, hl, if_neg (by simp), if_pos he]
    exact ⟨rfl, rfl, .inl ⟨hnat, rfl, rfl⟩⟩
  · have hne : n.toNat ≠ g.lastSeqNum.toNat + 1 := by
      rw [← hexp]
      exact fun e => he (UInt64.toNat_inj.1 e)
    have hnlt : ¬ n < g.lastSeqNum + 1 := by
      rw [UInt64.lt_iff_toNat_lt, hexp]
      omega
    rw [observe, hl, if_neg (by simp), if_neg he, if_neg hnlt]
    exact ⟨rfl, rfl, .inr ⟨by omega, rfl, rfl⟩⟩

/-- The detector after `pops` observations, from index `first` to index `last` of a numbering that
starts at `n₀`, with the indices of `lost` left out. -/
structure Tracks (g : GapDetector) (n₀ : Nat) (lost : List Nat) (first last pops : Nat) : Prop where
  hasLast : g.hasLastSeqNum = true
  lastNum : g.lastSeqNum.toNat = n₀ + last
  le : first ≤ last
  count : last + 1 = first + pops + skipped lost first last
  stale : g.state = .stale ↔ 0 < skipped lost first last

theorem Tracks.start {n : SeqNum} (hn : n.toNat = n₀ + first) :
    Tracks (observe {} n).2 n₀ lost first first 1 := by
  refine ⟨rfl, hn, Nat.le_refl _, by rw [skipped_self], ?_⟩
  rw [skipped_self]
  exact ⟨nofun, nofun⟩

theorem Tracks.next {next : Nat} (h : Tracks g n₀ lost first last pops) {n : SeqNum} (hn : n.toNat = n₀ + next)
    (hlt : last < next) (hkept : last ∉ lost) (hall : ∀ i, last < i → i < next → i ∈ lost) :
    ((g.observe n).1 = .gap ↔ ∃ i ∈ lost, last < i ∧ i < next) ∧ (g.observe n).1 ≠ .duplicate ∧
      Tracks (g.observe n).2 n₀ lost first next (pops + 1) := by
  have hlast := h.lastNum
  have hcount := h.count
  have hsplit := skipped_split h.le hlt hkept
  have hhole := skipped_eq_of_all hall
  obtain ⟨hl', hnum, hcase⟩ := observe_later h.hasLast (n := n) (by omega)
  have hle : first ≤ next := h.le.trans (Nat.le_of_lt hlt)
  rw [← skipped_pos_iff, hhole]
  rcases hcase with ⟨he, hobs, hstate⟩ | ⟨he, hobs, hstate⟩
  · rw [hobs]
    refine ⟨⟨nofun, fun hpos => by omega⟩, nofun, hl', by rw [hnum, hn], hle, by omega, ?_⟩
    rw [hstate, h.stale, hsplit, hhole]
    omega
  · rw [hobs]
    refine ⟨⟨fun _ => by omega, fun _ => rfl⟩, nofun, hl', by rw [hnum, hn], hle, by omega, ?_⟩
    rw [hstate, hsplit, hhole]
    exact ⟨fun _ => by omega, fun _ => rfl⟩

end GapDetector

/-! ### The detector behind the ring -/

namespace Ring
variable {α : Type} [Inhabited α] {cap : Nat} [NeZero cap] {s : Ring α cap}

/-- Two consecutive pops: everything between their indices was evicted. -/
theorem Inv.evicted_between (h : s.Inv) {before after : List (Nat × α)} {a b : Nat × α}
    (hd : s.delivered = before ++ a :: b :: after) :
    a.1 < b.1 ∧ ∀ i, a.1 < i → i < b.1 → i ∈ s.evicted := by
  have hclaimed := h.claimed
  rw [hd, List.map_append, List.map_cons, List.map_cons, List.append_assoc, List.cons_append, List.cons_append] at hclaimed
  set before' := before.map Prod.fst
  set after' := after.map Prod.fst ++ s.pop.holding
  have hsorted : (before' ++ a.1 :: b.1 :: after').Pairwise (· < ·) := by
    rw [hclaimed]
    exact List.pairwise_lt_range.filter _
  obtain ⟨-, htail, hbefore⟩ := List.pairwise_append.1 hsorted
  obtain ⟨ha, hrest⟩ := List.pairwise_cons.1 htail
  have hbetween := (List.pairwise_cons.1 hrest).1
  refine ⟨ha b.1 (by simp), fun i hai hib => ?_⟩
  by_contra hi
  -- an index that was not evicted is one of the claims, on one side of the pair or the other
  have hbmem : b.1 ∈ (List.range s.mem.head.toNat).filter (· ∉ s.evicted) := by rw [← hclaimed]; simp
  have hblt := List.mem_range.1 (List.mem_filter.1 hbmem).1
  have hmem : i ∈ before' ++ a.1 :: b.1 :: after' := by
    rw [hclaimed]
    exact List.mem_filter.2 ⟨List.mem_range.2 (hib.trans hblt), by simpa using hi⟩
  rcases List.mem_append.1 hmem with hm | hm
  · have := hbefore i hm a.1 (by simp)
    omega
  · rcases List.mem_cons.1 hm with rfl | hm
    · omega
    rcases List.mem_cons.1 hm with rfl | hm
    · omega
    · have := hbetween i hm
      omega

theorem Inv.delivered_kept (h : s.Inv) {e : Nat × α} (he : e ∈ s.delivered) : e.1 ∉ s.evicted := by
  have hmem : e.1 ∈ (List.range s.mem.head.toNat).filter (· ∉ s.evicted) := by
    rw [← h.claimed]
    exact List.mem_append_left _ (List.mem_map_of_mem he)
  simpa using (List.mem_filter.1 hmem).2

variable {seq : α → SeqNum} {n₀ : Nat}

/-- The items carry consecutive numbers from `n₀` on; neither these nor the ring's own index wraps. -/
structure Consecutive (seq : α → SeqNum) (n₀ : Nat) (items : List α) : Prop where
  number : ∀ i x, items[i]? = some x → (seq x).toNat = n₀ + i
  noWrap : items.length < 2 ^ 64

/-- The detector after the pops `ds`. -/
def detector (seq : α → SeqNum) (ds : List (Nat × α)) : GapDetector := GapDetector.observeAll {} (ds.map fun e => seq e.2)

omit [Inhabited α] [NeZero cap] in
theorem detector_concat (ds : List (Nat × α)) (e : Nat × α) :
    detector seq (ds ++ [e]) = ((detector seq ds).observe (seq e.2)).2 := by
  rw [detector, List.map_append, GapDetector.observeAll_append]
  rfl

theorem Inv.number (h : s.Inv) (hc : Consecutive seq n₀ s.pushed) {e : Nat × α} (he : e ∈ s.delivered) :
    (seq e.2).toNat = n₀ + e.1 :=
  hc.number e.1 e.2 (h.values e he)

/-- After any number of pops the detector has counted the evictions since the first one. -/
theorem Inv.tracks (h : s.Inv) (hc : Consecutive seq n₀ s.pushed) (first : Nat × α) (rest : List (Nat × α)) :
    first :: rest <+: s.delivered →
      (detector seq (first :: rest)).Tracks n₀ s.evicted first.1 ((first :: rest).getLast (List.cons_ne_nil _ _)).1
        (first :: rest).length := by
  induction rest using List.reverseRecOn with
  | nil =>
    intro hp
    exact GapDetector.Tracks.start (h.number hc (hp.subset (by simp)))
  | append_singleton rest b ih =>
    intro hp
    obtain ⟨after, hd⟩ := hp
    obtain ⟨before, ha⟩ : ∃ before, first :: rest = before ++ [(first :: rest).getLast (List.cons_ne_nil _ _)] :=
      ⟨_, (List.dropLast_append_getLast _).symm⟩
    set a := (first :: rest).getLast (List.cons_ne_nil _ _)
    have hd' : s.delivered = before ++ a :: b :: after := by
      rw [← hd, ← List.cons_append, ha]
      simp
    obtain ⟨hlt, hall⟩ := h.evicted_between hd'
    have hamem : a ∈ s.delivered := by rw [hd']; simp
    have hbmem : b ∈ s.delivered := by rw [hd']; simp
    have hprev := ih ⟨b :: after, by rw [← hd]; simp⟩
    have hlast : (first :: (rest ++ [b])).getLast (List.cons_ne_nil _ _) = b := by simp
    have hlen : (first :: (rest ++ [b])).length = (first :: rest).length + 1 := by simp
    rw [hlast, hlen, ← List.cons_append, detector_concat]
    exact (hprev.next (h.number hc hbmem) hlt (h.delivered_kept hamem) hall).2.2

/-- What the detector behind the ring says about the ring's evictions. -/
structure DropsVisible (seq : α → SeqNum) (s : Ring α cap) : Prop where
  gap_iff : ∀ before a b after, s.delivered = before ++ a :: b :: after →
    (((detector seq (before ++ [a])).observe (seq b.2)).1 = .gap ↔ ∃ i ∈ s.evicted, a.1 < i ∧ i < b.1)
  not_duplicate : ∀ before b after, s.delivered = before ++ b :: after →
    ((detector seq before).observe (seq b.2)).1 ≠ .duplicate
  counted : ∀ first rest, first :: rest <+: s.delivered →
    ((detector seq (first :: rest)).lastSeqNum.toNat : Int) - (seq first.2).toNat + 1 - (first :: rest).length =
      skipped s.evicted first.1 ((first :: rest).getLast (List.cons_ne_nil _ _)).1
  stale_iff : ∀ first rest, first :: rest <+: s.delivered →
    ((detector seq (first :: rest)).state = .stale ↔
      0 < skipped s.evicted first.1 ((first :: rest).getLast (List.cons_ne_nil _ _)).1)

theorem Inv.dropsVisible (h : s.Inv) (hc : Consecutive seq n₀ s.pushed) : DropsVisible seq s := by
  -- one observation after the pops up to `a`
  have hpair : ∀ before a b after, s.delivered = before ++ a :: b :: after →
      (((detector seq (before ++ [a])).observe (seq b.2)).1 = .gap ↔ ∃ i ∈ s.evicted, a.1 < i ∧ i < b.1) ∧
        ((detector seq (before ++ [a])).observe (seq b.2)).1 ≠ .duplicate := by
    intro before a b after hd
    obtain ⟨hlt, hall⟩ := h.evicted_between hd
    have hamem : a ∈ s.delivered := by rw [hd]; simp
    have hbmem : b ∈ s.delivered := by rw [hd]; simp
    obtain ⟨first, rest, hfr⟩ : ∃ first rest, before ++ [a] = first :: rest :=
      List.exists_cons_of_ne_nil (by simp)
    have htracks := h.tracks hc first rest ⟨b :: after, by rw [← hfr, hd]; simp⟩
    have hlast : (first :: rest).getLast (List.cons_ne_nil _ _) = a := by
      simp only [← hfr, List.getLast_concat]
    rw [hlast] at htracks
    rw [hfr]
    obtain ⟨hgap, hdup, -⟩ := htracks.next (h.number hc hbmem) hlt (h.delivered_kept hamem) hall
    exact ⟨hgap, hdup⟩
  refine ⟨fun before a b after hd => (hpair before a b after hd).1, fun before b after hd => ?_,
    fun first rest hp => ?_, fun first rest hp => (h.tracks hc first rest hp).stale⟩
  · rcases List.eq_nil_or_concat' before with rfl | ⟨before', a, rfl⟩
    · exact nofun
    · exact (hpair before' a b after (by rw [hd]; simp)).2
  · have ht := h.tracks hc first rest hp
    have hcount := ht.count
    rw [ht.lastNum, h.number hc (hp.subset (by simp))]
    omega

/-- In every run of one producer and one consumer over consecutively numbered items, with any overflow,
the detector reports a gap exactly where the ring evicted, never a duplicate, and its last number counts
the evictions since the first pop. -/
theorem drops_visible (n₀ : Nat) (acts : List (Act α)) (s : Ring α cap) (hrun : Runs.exec Ring.step {} acts = some s)
    (hc : Consecutive seq n₀ s.pushed) : DropsVisible seq s :=
  (Inv.init.exec hrun hc.noWrap).dropsVisible hc

/-- A push and a pop, then two pushes and a pop. -/
def gapCalls : List (Act SeqNum) :=
  .push 5 :: List.replicate 6 .producer ++ .tryPop :: List.replicate 6 .consumer ++ .ret ::
    .push 6 :: List.replicate 6 .producer ++ .push 7 :: List.replicate 8 .producer ++
    .tryPop :: List.replicate 6 .consumer

/-- At capacity one the third push evicts the second item, and the second pop is a gap. -/
theorem drops_visible_one_lost :
    ∃ s : Ring SeqNum 1, Runs.exec Ring.step {} gapCalls = some s ∧
      (s.delivered = [(0, 5), (2, 7)] ∧ s.evicted = [1] ∧ (detector id s.delivered).state = .stale) ∧
      DropsVisible id s := by
  have hend : (Runs.exec Ring.step ({} : Ring SeqNum 1) gapCalls).map (fun s => (s.pushed, s.delivered, s.evicted)) =
      some ([5, 6, 7], [(0, 5), (2, 7)], [1]) := by decide +kernel
  obtain ⟨s, hrun, hs⟩ := Option.map_eq_some_iff.1 hend
  rw [Prod.mk.injEq, Prod.mk.injEq] at hs
  obtain ⟨hpushed, hdelivered, hevicted⟩ := hs
  refine ⟨s, hrun, ⟨hdelivered, hevicted, ?_⟩, drops_visible 5 gapCalls s hrun ?_⟩
  · rw [hdelivered]
    rfl
  · rw [hpushed]
    refine ⟨fun i x hi => ?_, by decide⟩
    rcases i with _ | _ | _ | i <;> cases hi <;> rfl

end Ring

end Mdfh
