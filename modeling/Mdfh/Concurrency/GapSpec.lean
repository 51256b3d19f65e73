import Mdfh.Concurrency.GapDetector
import Mathlib.Data.List.Induction
import Mathlib.Data.UInt
import Mathlib.Tactic.Linarith

/-!
# The gap detector over whole runs

What `observe` and `resync` are to compute, said over the history of calls: the numbers since the latest
`resync` (`since`) and their maximum, without any arithmetic in 64 bits. The source compares with
`last + 1`, which is `0` once the maximum is `2 ^ 64 - 1`; from there on no number is a duplicate any more.
`meetsSpec_iff`: a run computes the specification exactly when it observes nothing at that point and its
gaps fit the 64-bit counter.
-/

namespace Mdfh
namespace GapDetector

inductive Call where
  | observe (seqNum : SeqNum)
  | resync (seqNum : SeqNum)
deriving DecidableEq, Repr

/-- The calls on a new detector: the detector they leave, and what its `observe` calls returned. -/
def runCalls (cs : List Call) : GapDetector × List SequenceObservation :=
  cs.foldl (fun r c => match c with
    | .observe s => ((r.1.observe s).2, r.2 ++ [(r.1.observe s).1])
    | .resync s => (r.1.resync s, r.2)) ({}, [])

/-- What `observe` returns after the calls. -/
def resultOf (cs : List Call) (s : SeqNum) : SequenceObservation := ((runCalls cs).1.observe s).1

/-! ### The specification -/

def specObservation (max : Option Nat) (s : SeqNum) : SequenceObservation :=
  match max with
  | none => .inOrder
  | some max => if s.toNat = max + 1 then .inOrder else if max + 1 < s.toNat then .gap else .duplicate

def maximum (ns : List SeqNum) : Option Nat := (ns.map (·.toNat)).max?

/-- The latest `resync` value with the numbers observed since, and the results specified for the run. -/
def specCalls (cs : List Call) : List SeqNum × List SequenceObservation :=
  cs.foldl (fun r c => match c with
    | .observe s => (r.1 ++ [s], r.2 ++ [specObservation (maximum r.1) s])
    | .resync s => ([s], r.2)) ([], [])

def runningMax (cs : List Call) : Option Nat := maximum (specCalls cs).1

/-- Some `observe` since the last `resync` returned `gap`. -/
def GapSinceResync (cs : List Call) : Prop :=
  ∃ pre s post, cs = pre ++ .observe s :: post ∧ (∀ r, .resync r ∉ post) ∧ resultOf pre s = .gap

/-- The detector after the calls shows what it should. -/
structure StateMeets (cs : List Call) : Prop where
  last : (runCalls cs).1.lastSeqNum?.map (·.toNat) = runningMax cs
  gaps : (runCalls cs).1.sequenceGapsTotal.toNat = (runCalls cs).2.count .gap
  stale : (runCalls cs).1.state = .stale ↔ GapSinceResync cs

/-- So does the next `observe`. -/
structure ObserveMeets (cs : List Call) (s : SeqNum) : Prop where
  result : resultOf cs s = specObservation (runningMax cs) s
  unchanged : resultOf cs s = .duplicate → ((runCalls cs).1.observe s).2 = (runCalls cs).1

/-- Every state of the run and every `observe` of it is as specified. -/
def MeetsSpec (cs : List Call) : Prop :=
  (∀ pre, pre <+: cs → StateMeets pre) ∧ ∀ pre s, pre ++ [.observe s] <+: cs → ObserveMeets pre s

/-- No number is observed when the running maximum is the largest number there is. -/
def NoneAtTop (cs : List Call) : Prop := ∀ pre s, pre ++ [.observe s] <+: cs → runningMax pre ≠ some (2 ^ 64 - 1)

/-! ### One call more -/

variable (cs : List Call) (s : SeqNum)

theorem runCalls_observe : runCalls (cs ++ [.observe s]) =
    (((runCalls cs).1.observe s).2, (runCalls cs).2 ++ [resultOf cs s]) := by
  simp only [runCalls, resultOf, List.foldl_append, List.foldl_cons, List.foldl_nil]

theorem runCalls_resync : runCalls (cs ++ [.resync s]) = ((runCalls cs).1.resync s, (runCalls cs).2) := by
  simp only [runCalls, List.foldl_append, List.foldl_cons, List.foldl_nil]

theorem specCalls_observe : specCalls (cs ++ [.observe s]) =
    ((specCalls cs).1 ++ [s], (specCalls cs).2 ++ [specObservation (runningMax cs) s]) := by
  simp only [specCalls, runningMax, List.foldl_append, List.foldl_cons, List.foldl_nil]

theorem specCalls_resync : specCalls (cs ++ [.resync s]) = ([s], (specCalls cs).2) := by
  simp only [specCalls, List.foldl_append, List.foldl_cons, List.foldl_nil]

theorem specCalls_isPrefix {pre : List Call} (hp : pre <+: cs) : (specCalls pre).2 <+: (specCalls cs).2 := by
  obtain ⟨post, rfl⟩ := hp
  induction post using List.reverseRecOn with
  | nil => simp
  | append_singleton post c ih =>
    rw [← List.append_assoc]
    cases c with
    | observe s =>
      rw [specCalls_observe]
      exact ih.trans (List.prefix_append _ _)
    | resync s =>
      rw [specCalls_resync]
      exact ih

theorem runningMax_observe :
    runningMax (cs ++ [.observe s]) = some (((runningMax cs).map (max · s.toNat)).getD s.toNat) := by
  unfold runningMax maximum
  rw [specCalls_observe, List.map_append]
  cases (specCalls cs).1.map (·.toNat) with
  | nil => rfl
  | cons n ns =>
    rw [List.cons_append, List.max?_cons', List.max?_cons', List.foldl_append]
    rfl

theorem runningMax_resync : runningMax (cs ++ [.resync s]) = some s.toNat := by
  rw [runningMax, specCalls_resync]
  rfl

theorem gapSinceResync_observe : GapSinceResync (cs ++ [.observe s]) ↔ resultOf cs s = .gap ∨ GapSinceResync cs := by
  constructor
  · rintro ⟨pre, s', post, he, hpost, hgap⟩
    rcases List.eq_nil_or_concat post with rfl | ⟨post, c, rfl⟩
    · obtain ⟨rfl, hc⟩ := List.append_inj' he rfl
      cases hc
      exact .inl hgap
    · rw [List.concat_eq_append, ← List.cons_append, ← List.append_assoc] at he
      obtain ⟨rfl, -⟩ := List.append_inj' he rfl
      exact .inr ⟨pre, s', post, rfl, fun r hr => hpost r (by simp [hr]), hgap⟩
  · rintro (hgap | ⟨pre, s', post, rfl, hpost, hgap⟩)
    · exact ⟨cs, s, [], rfl, by simp, hgap⟩
    · exact ⟨pre, s', post ++ [.observe s], by simp, by simpa using hpost, hgap⟩

theorem not_gapSinceResync_resync : ¬ GapSinceResync (cs ++ [.resync s]) := by
  rintro ⟨pre, s', post, he, hpost, -⟩
  rcases List.eq_nil_or_concat post with rfl | ⟨post, c, rfl⟩
  · obtain ⟨-, hc⟩ := List.append_inj' he rfl
    cases hc
  · rw [List.concat_eq_append, ← List.cons_append, ← List.append_assoc] at he
    obtain ⟨-, hc⟩ := List.append_inj' he rfl
    cases hc
    exact hpost s (by simp)

/-- What `observe` can do, the wrap of `last + 1` included. -/
theorem observe_cases (g : GapDetector) (s : SeqNum) :
    (g.hasLastSeqNum = false ∧ g.observe s = (.inOrder, { g with lastSeqNum := s, hasLastSeqNum := true })) ∨
    (g.hasLastSeqNum = true ∧
      ((s = g.lastSeqNum + 1 ∧ g.observe s = (.inOrder, { g with lastSeqNum := s })) ∨
      (s < g.lastSeqNum + 1 ∧ g.observe s = (.duplicate, g)) ∨
      (g.lastSeqNum + 1 < s ∧ g.observe s =
        (.gap, { g with sequenceGapsTotal := g.sequenceGapsTotal + 1, state := .stale, lastSeqNum := s })))) := by
  unfold observe
  cases g.hasLastSeqNum with
  | false => exact .inl ⟨rfl, by simp⟩
  | true =>
    refine .inr ⟨rfl, ?_⟩
    by_cases heq : s = g.lastSeqNum + 1
    · exact .inl ⟨heq, by simp [heq]⟩
    by_cases hlt : s < g.lastSeqNum + 1
    · exact .inr (.inl ⟨hlt, by simp [hlt, heq]⟩)
    · have hgt := UInt64.lt_of_le_of_ne (UInt64.not_lt.1 hlt) (Ne.symm heq)
      exact .inr (.inr ⟨hgt, by simp [hlt, heq]⟩)

/-! ### What holds of every run -/

theorem observe_duplicate {g : GapDetector} (h : (g.observe s).1 = .duplicate) : (g.observe s).2 = g := by
  rcases g.observe_cases s with ⟨-, ho⟩ | ⟨-, ⟨-, ho⟩ | ⟨-, ho⟩ | ⟨-, ho⟩⟩ <;> rw [ho] at h ⊢ <;> cases h

theorem state_observe (g : GapDetector) :
    (g.observe s).2.state = .stale ↔ (g.observe s).1 = .gap ∨ g.state = .stale := by
  rcases g.observe_cases s with ⟨-, ho⟩ | ⟨-, ⟨-, ho⟩ | ⟨-, ho⟩ | ⟨-, ho⟩⟩ <;> simp [ho]

theorem gaps_observe (g : GapDetector) :
    (g.observe s).2.sequenceGapsTotal = g.sequenceGapsTotal + if (g.observe s).1 = .gap then 1 else 0 := by
  rcases g.observe_cases s with ⟨-, ho⟩ | ⟨-, ⟨-, ho⟩ | ⟨-, ho⟩ | ⟨-, ho⟩⟩ <;> simp [ho]

theorem stale_iff : (runCalls cs).1.state = .stale ↔ GapSinceResync cs := by
  induction cs using List.reverseRecOn with
  | nil => simp [runCalls, GapSinceResync]
  | append_singleton cs c ih =>
    cases c with
    | observe s => rw [runCalls_observe, gapSinceResync_observe, state_observe, ih]; rfl
    | resync s => simp [runCalls_resync, resync, not_gapSinceResync_resync]

/-- The counter counts the gaps modulo `2 ^ 64`. -/
theorem gaps_eq : (runCalls cs).1.sequenceGapsTotal = UInt64.ofNat ((runCalls cs).2.count .gap) := by
  induction cs using List.reverseRecOn with
  | nil => rfl
  | append_singleton cs c ih =>
    cases c with
    | observe s =>
      rw [runCalls_observe, gaps_observe, ih, List.count_append, List.count_singleton, UInt64.ofNat_add]
      unfold resultOf
      split <;> simp_all
    | resync s => rw [runCalls_resync]; exact ih

/-! ### What needs room above the maximum -/

theorem observe_spec {g : GapDetector} {m : Option Nat} (hm : g.lastSeqNum?.map (·.toNat) = m)
    (htop : m ≠ some (2 ^ 64 - 1)) :
    (g.observe s).1 = specObservation m s ∧
      (g.observe s).2.lastSeqNum?.map (·.toNat) = some ((m.map (max · s.toNat)).getD s.toNat) := by
  subst hm
  unfold lastSeqNum? at htop ⊢
  rcases g.observe_cases s with ⟨hl, ho⟩ | ⟨hl, h⟩
  · simp [ho, hl, specObservation]
  · -- below the largest number `last + 1` does not wrap
    have hexp : (g.lastSeqNum + 1).toNat = g.lastSeqNum.toNat + 1 := by
      have hne : g.lastSeqNum.toNat ≠ 2 ^ 64 - 1 := by simpa [hl] using htop
      have hlt := g.lastSeqNum.toNat_lt
      rw [UInt64.toNat_add]
      exact Nat.mod_eq_of_lt (show g.lastSeqNum.toNat + 1 < 2 ^ 64 by omega)
    rcases h with ⟨he, ho⟩ | ⟨hlt, ho⟩ | ⟨hgt, ho⟩
    · have hs := congrArg UInt64.toNat he
      rw [hexp] at hs
      simp only [ho, hl, if_true, Option.map_some, Option.getD_some, specObservation, hs, true_and, Option.some.injEq]
      omega
    · rw [UInt64.lt_iff_toNat_lt, hexp] at hlt
      simp only [ho, hl, if_true, Option.map_some, Option.getD_some, specObservation, Option.some.injEq]
      rw [if_neg (by omega), if_neg (by omega)]
      exact ⟨rfl, by omega⟩
    · rw [UInt64.lt_iff_toNat_lt, hexp] at hgt
      simp only [ho, hl, if_true, Option.map_some, Option.getD_some, specObservation, Option.some.injEq]
      rw [if_neg (by omega), if_pos hgt]
      exact ⟨rfl, by omega⟩

variable {cs}

theorem NoneAtTop.of_isPrefix {pre : List Call} (h : NoneAtTop cs) (hp : pre <+: cs) : NoneAtTop pre :=
  fun pre' s' hp' => h pre' s' (hp'.trans hp)

/-- The last number is the running maximum, and every result is the specified one. -/
theorem NoneAtTop.run_eq (h : NoneAtTop cs) :
    (runCalls cs).1.lastSeqNum?.map (·.toNat) = runningMax cs ∧ (runCalls cs).2 = (specCalls cs).2 := by
  induction cs using List.reverseRecOn with
  | nil => exact ⟨rfl, rfl⟩
  | append_singleton cs c ih =>
    obtain ⟨hlast, hres⟩ := ih (h.of_isPrefix (List.prefix_append cs [c]))
    cases c with
    | observe s =>
      obtain ⟨ho, hl⟩ := observe_spec s hlast (h cs s List.prefix_rfl)
      rw [runCalls_observe, runningMax_observe, specCalls_observe]
      exact ⟨hl, by rw [hres, resultOf, ho]⟩
    | resync s =>
      rw [runCalls_resync, runningMax_resync, specCalls_resync]
      exact ⟨rfl, hres⟩

/-- At the largest number nothing counts as a duplicate. -/
theorem observe_top {g : GapDetector} (hlast : g.lastSeqNum?.map (·.toNat) = some (2 ^ 64 - 1)) :
    (g.observe s).1 ≠ .duplicate := by
  obtain ⟨n, hn, htop⟩ := Option.map_eq_some_iff.1 hlast
  have hexp : g.lastSeqNum + 1 = 0 := by
    unfold lastSeqNum? at hn
    split at hn
    · rw [Option.some.injEq] at hn
      subst hn
      rw [← UInt64.toNat_inj, UInt64.toNat_add, htop]
      rfl
    · cases hn
  rcases g.observe_cases s with ⟨-, ho⟩ | ⟨-, ⟨-, ho⟩ | ⟨hlt, -⟩ | ⟨-, ho⟩⟩
  · simp [ho]
  · simp [ho]
  · rw [hexp] at hlt
    exact absurd hlt UInt64.not_lt_zero
  · simp [ho]

theorem MeetsSpec.noneAtTop (h : MeetsSpec cs) : NoneAtTop cs := by
  intro pre s hp htop
  have hlast := (h.1 pre ((List.prefix_append pre [.observe s]).trans hp)).last
  have hres := (h.2 pre s hp).result
  rw [htop] at hlast hres
  refine observe_top s hlast ?_
  rw [← resultOf, hres, specObservation]
  have hlt := s.toNat_lt
  rw [if_neg (by omega), if_neg (by omega)]

end GapDetector

open GapDetector in
/-- A run computes the specification, in every state and every result, exactly when no number is observed at running
maximum `2 ^ 64 - 1` and fewer than `2 ^ 64` of its numbers are gaps. -/
theorem meetsSpec_iff (cs : List Call) : MeetsSpec cs ↔ NoneAtTop cs ∧ (specCalls cs).2.count .gap < 2 ^ 64 := by
  constructor
  · intro h
    have htop := h.noneAtTop
    refine ⟨htop, ?_⟩
    rw [← htop.run_eq.2, ← (h.1 cs List.prefix_rfl).gaps]
    exact UInt64.toNat_lt _
  · rintro ⟨htop, hgaps⟩
    refine ⟨fun pre hp => ?_, fun pre s hp => ?_⟩
    · obtain ⟨hlast, hres⟩ := (htop.of_isPrefix hp).run_eq
      refine ⟨hlast, ?_, stale_iff pre⟩
      have hle : (runCalls pre).2.count .gap ≤ (specCalls cs).2.count .gap := by
        rw [hres]
        exact (specCalls_isPrefix cs hp).sublist.count_le _
      rw [gaps_eq, UInt64.toNat_ofNat', Nat.mod_eq_of_lt (by omega)]
    · obtain ⟨hlast, -⟩ := ((htop.of_isPrefix hp).of_isPrefix (List.prefix_append pre [.observe s])).run_eq
      exact ⟨(observe_spec s hlast (htop pre s hp)).1, observe_duplicate s⟩

open GapDetector in
/-- Right after the largest number, `0` is taken as the next one and becomes the last number seen. -/
theorem observe_zero_after_max :
    resultOf [.observe 18446744073709551615] 0 = .inOrder ∧
      (runCalls [.observe 18446744073709551615, .observe 0]).1.lastSeqNum? = some 0 ∧
      specObservation (runningMax [.observe 18446744073709551615]) 0 = .duplicate ∧
      ¬ MeetsSpec [.observe 18446744073709551615, .observe 0] := by
  refine ⟨by decide, by decide, by decide, fun h => ?_⟩
  have hres := (h.2 [.observe 18446744073709551615] 0 List.prefix_rfl).result
  revert hres
  decide

end Mdfh
