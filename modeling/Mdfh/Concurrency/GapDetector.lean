import Mdfh.Protocol.MessageTypes

/-!
# Sequence gaps (`concurrency/gap_detector.hpp`)

`expected` is `last + 1` in 64 bits. The first number observed is taken as in order whatever it is;
a number behind the last one is a duplicate and changes nothing; a number ahead marks the shard
`stale` for good, unless `resync` is called. `OnTrack k` is the detector of a shard that has seen the
numbers `1 … k` and nothing else.
-/

namespace Mdfh

inductive BookState where
  | live
  | stale
deriving DecidableEq, Repr

inductive SequenceObservation where
  | inOrder
  | gap
  | duplicate
deriving DecidableEq, Repr

structure GapDetector where
  hasLastSeqNum : Bool := false
  lastSeqNum : SeqNum := 0
  state : BookState := .live
  sequenceGapsTotal : UInt64 := 0
deriving DecidableEq, Repr

namespace GapDetector

def observe (g : GapDetector) (seqNum : SeqNum) : SequenceObservation × GapDetector :=
  if !g.hasLastSeqNum then (.inOrder, { g with lastSeqNum := seqNum, hasLastSeqNum := true })
  else
    let expected := g.lastSeqNum + 1
    if seqNum = expected then (.inOrder, { g with lastSeqNum := seqNum })
    else if seqNum < expected then (.duplicate, g)
    else
      (.gap, { g with sequenceGapsTotal := g.sequenceGapsTotal + 1, state := .stale, lastSeqNum := seqNum })

def resync (g : GapDetector) (resyncSeqNum : SeqNum) : GapDetector :=
  { g with lastSeqNum := resyncSeqNum, hasLastSeqNum := true, state := .live }

/-- `last_seq_num()`. -/
def lastSeqNum? (g : GapDetector) : Option SeqNum := if g.hasLastSeqNum then some g.lastSeqNum else none

/-- A series of observations. -/
def observeAll (g : GapDetector) (ns : List SeqNum) : GapDetector := ns.foldl (fun g n => (g.observe n).2) g

variable {g : GapDetector}

@[simp] theorem observeAll_nil : g.observeAll [] = g := rfl
@[simp] theorem observeAll_cons (n : SeqNum) (ns : List SeqNum) :
    g.observeAll (n :: ns) = (g.observe n).2.observeAll ns := rfl

theorem observeAll_append (ns ms : List SeqNum) : g.observeAll (ns ++ ms) = (g.observeAll ns).observeAll ms :=
  List.foldl_append

theorem stale_observe (h : g.state = .stale) (n : SeqNum) : (g.observe n).2.state = .stale := by
  simp only [observe]
  split
  · exact h
  · split
    · exact h
    · split
      · exact h
      · rfl

theorem stale_observeAll (h : g.state = .stale) (ns : List SeqNum) : (g.observeAll ns).state = .stale := by
  induction ns generalizing g with
  | nil => exact h
  | cons n ns ih => exact ih (stale_observe h n)

/-- The detector after the numbers `1 … k`. -/
structure OnTrack (g : GapDetector) (k : Nat) : Prop where
  hasLast : g.hasLastSeqNum = decide (0 < k)
  last : 0 < k → g.lastSeqNum.toNat = k
  live : g.state = .live
  gaps : g.sequenceGapsTotal = 0

theorem OnTrack.init : OnTrack {} 0 := ⟨rfl, fun h => absurd h (by omega), rfl, rfl⟩

theorem OnTrack.lastSeqNum?_eq {k : Nat} (h : g.OnTrack k) {n : SeqNum} (hn : g.lastSeqNum? = some n) : n.toNat = k := by
  unfold lastSeqNum? at hn
  split at hn
  · next hl =>
    rw [h.hasLast, decide_eq_true_eq] at hl
    rw [← Option.some.inj hn, h.last hl]
  · cases hn

theorem OnTrack.observe_next {k : Nat} (h : g.OnTrack k) {n : SeqNum} (hn : n.toNat = k + 1) :
    (g.observe n).1 = .inOrder ∧ (g.observe n).2.OnTrack (k + 1) := by
  unfold observe
  by_cases hk : 0 < k
  · have hexp : n = g.lastSeqNum + 1 := by
      have hlt := n.toNat_lt
      rw [hn] at hlt
      rw [← UInt64.toNat_inj, UInt64.toNat_add, h.last hk, hn]
      exact (Nat.mod_eq_of_lt hlt).symm
    have hl : g.hasLastSeqNum = true := by rw [h.hasLast]; exact decide_eq_true hk
    rw [hl, if_neg (by simp), if_pos hexp]
    exact ⟨rfl, by simp, fun _ => hn, h.live, h.gaps⟩
  · have hl : g.hasLastSeqNum = false := by rw [h.hasLast]; exact decide_eq_false hk
    rw [hl, if_pos (by simp)]
    exact ⟨rfl, by simp, fun _ => hn, h.live, h.gaps⟩

theorem OnTrack.observeAll {k : Nat} (h : g.OnTrack k) {ns : List SeqNum}
    (hns : ∀ (j : Nat) n, ns[j]? = some n → n.toNat = k + j + 1) : (g.observeAll ns).OnTrack (k + ns.length) := by
  induction ns generalizing g k with
  | nil => exact h
  | cons n ns ih =>
    have hn : n.toNat = k + 1 := hns 0 n rfl
    have := ih (h.observe_next hn).2 fun j m hm => by
      rw [hns (j + 1) m hm]
      omega
    rw [List.length_cons, ← Nat.add_assoc, Nat.add_right_comm]
    exact this

/-- A number further ahead, once there is a last one, makes the detector stale. -/
theorem OnTrack.observe_ahead {k : Nat} (h : g.OnTrack k) (hk : 0 < k) {n : SeqNum} (hn : k + 1 < n.toNat) :
    (g.observe n).2.state = .stale := by
  have hlt := n.toNat_lt
  have hexp : (g.lastSeqNum + 1).toNat = k + 1 := by
    rw [UInt64.toNat_add, h.last hk]
    exact Nat.mod_eq_of_lt (show k + 1 < 2 ^ 64 by omega)
  have hl : g.hasLastSeqNum = true := by rw [h.hasLast]; exact decide_eq_true hk
  have hne : n ≠ g.lastSeqNum + 1 := by
    intro e
    rw [← e] at hexp
    omega
  have hnlt : ¬ n < g.lastSeqNum + 1 := by
    rw [UInt64.lt_iff_toNat_lt, hexp]
    omega
  simp [observe, hl, hne, hnlt]

end GapDetector

end Mdfh
