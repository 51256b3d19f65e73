import Mathlib.Data.List.Perm.Subperm
import Mathlib.Data.List.Induction
import Mdfh.Concurrency.RingInv

/-!
# Safety of the ring buffer under every interleaving

What each half of the ring leaves alone, the safety properties read off the invariant, and what a ring
that was drained has lost.
-/

namespace Mdfh

variable {α : Type} [Inhabited α] {cap : Nat} [NeZero cap]

/-- The item of a `push` that has not published it yet. -/
def PushPc.pending : PushPc α → List α
  | .idle => []
  | .loadTail item => [item]
  | .loadHead item _ => [item]
  | .evict item _ _ => [item]
  | .count item _ => [item]
  | .spin item _ => [item]
  | .write item _ => [item]
  | .publish item _ => [item]
  | .wake => []

/-- The item of a `try_pop` that has returned and whose caller has not looked yet. -/
def PopPc.hand : PopPc α → List α
  | .returned (some x) => [x]
  | _ => []

namespace Ring
variable {s s' : Ring α cap}

/-- Every item whose `push` has begun, in order. -/
def started (s : Ring α cap) : List α := s.pushed ++ s.push.pending

/-! ### What a step leaves alone -/

/-- A step of `push` is invisible to the consumer's history and starts no item. -/
structure PushFrame (s s' : Ring α cap) : Prop where
  pop : s'.pop = s.pop
  delivered : s'.delivered = s.delivered
  started : s'.started = s.started
  pushed : s.pushed <+: s'.pushed

theorem pushStep_frame (hs : s.pushStep = some s') : PushFrame s s' := by
  have key : ∀ {m : SpscRingBuffer α cap} {pc : PushPc α} {e : List Nat}, pc.pending = s.push.pending →
      PushFrame s { s with mem := m, push := pc, evicted := e } := by
    intro m pc e hp
    exact ⟨rfl, rfl, by rw [started, started, hp], List.prefix_refl _⟩
  cases pushStep_cases hs with
  | loadTail hpc => exact key (by rw [hpc]; rfl)
  | full hpc => exact key (by rw [hpc]; rfl)
  | room hpc => exact key (by rw [hpc]; rfl)
  | evictWon hpc => exact key (by rw [hpc]; rfl)
  | evictLost hpc => exact key (by rw [hpc]; rfl)
  | count hpc => exact key (by rw [hpc]; rfl)
  | spin => exact key rfl
  | clear hpc => exact key (by rw [hpc]; rfl)
  | write hpc => exact key (by rw [hpc]; rfl)
  | publish hpc =>
    refine ⟨rfl, rfl, ?_, List.prefix_append _ _⟩
    rw [started, started, hpc]
    exact List.append_nil _
  | wake hpc => exact key (by rw [hpc]; rfl)

/-- A step of the consumer is invisible to the producer's history, and records what it returns. -/
structure PopFrame (s s' : Ring α cap) : Prop where
  push : s'.push = s.push
  pushed : s'.pushed = s.pushed
  delivered : s'.delivered.map Prod.snd = s.delivered.map Prod.snd ++ s'.pop.hand
  hand : s.pop.hand = []

theorem popStep_frame (hs : s.popStep = some s') : PopFrame s s' := by
  have key : ∀ {m : SpscRingBuffer α cap} {pc : PopPc α}, pc.hand = [] → s.pop.hand = [] →
      PopFrame s { s with mem := m, pop := pc } := by
    intro m pc h₁ h₂
    exact ⟨rfl, rfl, by rw [h₁, List.append_nil], h₂⟩
  cases popStep_cases hs with
  | loadHead hpc => exact key rfl (by rw [hpc]; rfl)
  | empty hpc => exact key rfl (by rw [hpc]; rfl)
  | nonEmpty hpc => exact key rfl (by rw [hpc]; rfl)
  | announce hpc => exact key rfl (by rw [hpc]; rfl)
  | claimWon hpc => exact key rfl (by rw [hpc]; rfl)
  | claimLost hpc => exact key rfl (by rw [hpc]; rfl)
  | retract hpc => exact key rfl (by rw [hpc]; rfl)
  | read hpc => exact key rfl (by rw [hpc]; rfl)
  | release hpc =>
    refine ⟨rfl, rfl, ?_, by rw [hpc]; rfl⟩
    rw [List.map_append]
    rfl
  | waitTail hpc => exact key rfl (by rw [hpc]; rfl)
  | waitEmpty hpc => exact key rfl (by rw [hpc]; rfl)
  | waitNonEmpty hpc => exact key rfl (by rw [hpc]; rfl)
  | snapshot hpc => exact key rfl (by rw [hpc]; rfl)
  | recheckTail hpc => exact key rfl (by rw [hpc]; rfl)
  | block hpc => exact key rfl (by rw [hpc]; rfl)
  | recheckNonEmpty hpc => exact key rfl (by rw [hpc]; rfl)
  | woken hpc => exact key rfl (by rw [hpc]; rfl)

theorem pushed_grows {a : Act α} (hs : s.step a = some s') : s.pushed <+: s'.pushed := by
  cases a with
  | push item => obtain ⟨-, rfl⟩ := step_push hs; exact List.prefix_refl _
  | producer => exact (pushStep_frame hs).pushed
  | tryPop => obtain ⟨-, rfl⟩ := step_tryPop hs; exact List.prefix_refl _
  | waitForData => obtain ⟨-, rfl⟩ := step_waitForData hs; exact List.prefix_refl _
  | consumer => exact (popStep_frame hs).pushed ▸ List.prefix_refl _
  | ret => obtain ⟨-, -, rfl⟩ := step_ret hs; exact List.prefix_refl _
  | notifyWaiters => cases hs; exact List.prefix_refl _

/-! ### Safety -/

/-- No call is in progress; a result may still wait for its caller. -/
def NoCall (s : Ring α cap) : Prop := s.push = .idle ∧ (s.pop = .idle ∨ ∃ out, s.pop = .returned out)

/-- The indices claimed by `try_pop`, the one being read included. -/
def claims (s : Ring α cap) : List Nat := s.delivered.map Prod.fst ++ s.pop.holding

structure Safe (s : Ring α cap) : Prop where
  no_torn_read : ∀ item tail head, s.push = .write item tail → s.pop = .read head →
    slotAt cap tail.toNat ≠ slotAt cap head.toNat
  returns_pushed : ∀ e ∈ s.delivered, s.pushed[e.1]? = some e.2
  increasing : s.claims.Pairwise (· < ·)
  once : ∀ i ∈ s.claims, i ∉ s.evicted
  evicts_full : ∀ item tail head, s.push = .evict item tail head → s.mem.head = head →
    (s.mem.tail - s.mem.head).toNat = cap
  le_cap : (s.mem.tail - s.mem.head).toNat ≤ cap
  accounted : s.NoCall →
    s.delivered.length + s.mem.droppedUpdatesTotal.toNat + (s.mem.tail - s.mem.head).toNat = s.pushed.length

namespace Inv

theorem toNat_sub (h : s.Inv) : (s.mem.tail - s.mem.head).toNat = s.pushed.length - s.mem.head.toNat := by
  have hle : s.mem.head ≤ s.mem.tail := by
    rw [UInt64.le_iff_toNat_le, h.tail]
    exact h.head_le
  rw [UInt64.toNat_sub_of_le _ _ hle, h.tail]

theorem safe (h : s.Inv) : s.Safe := by
  have hle := h.head_le
  have hcap := h.le_cap
  refine ⟨?_, h.values, ?_, ?_, ?_, ?_, ?_⟩
  · intro item tail head hpush hpop
    exact h.apart tail.toNat (by rw [hpush]; rfl) head.toNat (by rw [hpop]; exact List.mem_singleton_self _)
  · rw [claims, h.claimed]
    exact List.pairwise_lt_range.filter _
  · intro i hi
    rw [claims, h.claimed, List.mem_filter] at hi
    simpa using hi.2
  · intro item tail head hpush hhead
    have hprod := h.producer
    rw [hpush] at hprod
    obtain ⟨-, hfull, -⟩ := hprod
    rw [h.toNat_sub, hhead]
    omega
  · rw [h.toNat_sub]
    omega
  · rintro ⟨hpush, hpop⟩
    have htotal := h.total
    have hdrop : s.mem.droppedUpdatesTotal.toNat = s.evicted.length := by
      have := h.dropped
      rwa [hpush] at this
    have hhold : s.pop.holding = [] := by
      rcases hpop with hpop | ⟨out, hpop⟩ <;> rw [hpop] <;> rfl
    rw [hhold, List.length_nil] at htotal
    rw [h.toNat_sub]
    omega

theorem exec (h : s.Inv) {acts : List (Act α)} (hrun : Runs.exec Ring.step s acts = some s')
    (hN : s'.pushed.length < 2 ^ 64) : s'.Inv :=
  Runs.invariant_while (P := Inv) (Q := fun r => r.pushed.length < 2 ^ 64)
    (fun _ _ _ hs hQ => (pushed_grows hs).length_le.trans_lt hQ) (fun _ _ _ hP hQ hs => hP.step hs hQ) h hrun hN

end Inv

/-- One producer and one consumer, any items, any capacity, any interleaving. -/
theorem ring_safe (acts : List (Act α)) (s : Ring α cap) (hrun : Runs.exec Ring.step {} acts = some s)
    (hN : s.pushed.length < 2 ^ 64) : s.Safe :=
  (Inv.init.exec hrun hN).safe

/-- Two pushes, four steps of a `try_pop`, two steps of a third push. -/
def sampleCalls : List (Act Nat) :=
  .push 10 :: List.replicate 6 .producer ++ .push 20 :: List.replicate 8 .producer ++
    [.tryPop, .consumer, .consumer, .consumer, .consumer, .push 30, .producer, .producer]

/-- At capacity one the second push evicts the first item, and the third comes in the middle of the read. -/
theorem ring_safe_evicting :
    ∃ s : Ring Nat 1, Runs.exec Ring.step {} sampleCalls = some s ∧
      (s.evicted = [0] ∧ s.claims = [1] ∧ s.pop = .read 1 ∧ s.push = .spin 30 2) ∧ s.Safe :=
  ⟨_, rfl, ⟨rfl, rfl, rfl, rfl⟩, ring_safe sampleCalls _ rfl (by decide)⟩

/-! ### A drained ring -/

/-- What came out is what was sent, in order, but for the evicted indices, and those are counted. -/
structure Accounted (q : Ring α cap) (sent got : List α) : Prop where
  pushed : q.pushed = sent
  lost_lt : ∀ i ∈ q.evicted, i < sent.length
  lost_once : q.evicted.Nodup
  counted : q.mem.droppedUpdatesTotal.toNat = q.evicted.length
  kept : got = ((List.range sent.length).filter (· ∉ q.evicted)).filterMap (sent[·]?)

omit [Inhabited α] in
theorem filterMap_getElem?_range (l : List α) : (List.range l.length).filterMap (l[·]?) = l := by
  induction l using List.reverseRec with
  | nil => rfl
  | append_singleton l a ih =>
    have hl : (List.range l.length).filterMap ((l ++ [a])[·]?) = (List.range l.length).filterMap (l[·]?) := by
      refine List.filterMap_congr fun i hi => ?_
      rw [List.getElem?_append_left (List.mem_range.1 hi)]
    rw [List.length_append, List.length_singleton, List.range_succ, List.filterMap_append, hl, ih]
    simp

omit [NeZero cap] in
theorem Accounted.eq_of_dropped_eq_zero {q : Ring α cap} {sent got : List α} (h : q.Accounted sent got)
    (h0 : q.mem.droppedUpdatesTotal = 0) : got = sent := by
  have hnil : q.evicted = [] := by
    have := h.counted
    rw [h0] at this
    exact List.length_eq_zero_iff.1 this.symm
  rw [h.kept, hnil, List.filter_eq_self.2 (by simp), filterMap_getElem?_range]

omit [NeZero cap] in
theorem Accounted.mem_sent {q : Ring α cap} {sent got : List α} (h : q.Accounted sent got) {x : α} (hx : x ∈ got) :
    x ∈ sent := by
  rw [h.kept, List.mem_filterMap] at hx
  obtain ⟨i, -, hi⟩ := hx
  exact List.mem_of_getElem? hi

namespace Inv

theorem evicted_nodup (h : s.Inv) : s.evicted.Nodup := by
  -- as many indices below `H` are evicted as there are evictions
  have hlen : ((List.range s.mem.head.toNat).filter (· ∈ s.evicted)).length = s.evicted.length := by
    have hsplit := List.length_eq_length_filter_add (l := List.range s.mem.head.toNat) (fun i => decide (i ∈ s.evicted))
    have hclaim := congrArg List.length h.claimed
    have htotal := h.total
    rw [List.length_range] at hsplit
    simp only [List.length_append, List.length_map, decide_not] at hclaim
    omega
  have hsub : (List.range s.mem.head.toNat).filter (· ∈ s.evicted) ⊆ s.evicted := by
    intro i hi
    simpa using (List.mem_filter.1 hi).2
  have hnodup : ((List.range s.mem.head.toNat).filter (· ∈ s.evicted)).Nodup := List.nodup_range.filter _
  have hperm := (List.Nodup.subperm hnodup hsub).perm_of_length_le hlen.ge
  exact hperm.nodup_iff.1 hnodup

theorem accounted (h : s.Inv) (hpush : s.push = .idle) (hpop : s.pop = .idle) (hempty : s.mem.tail = s.mem.head) :
    s.Accounted s.pushed (s.delivered.map Prod.snd) := by
  have hhead : s.mem.head.toNat = s.pushed.length := by rw [← hempty, h.tail]
  refine ⟨rfl, fun i hi => hhead ▸ h.evicted_lt i hi, h.evicted_nodup, ?_, ?_⟩
  · have := h.dropped
    rwa [hpush] at this
  · have hclaim := h.claimed
    rw [hpop, hhead] at hclaim
    have hclaim' : s.delivered.map Prod.fst = (List.range s.pushed.length).filter (· ∉ s.evicted) :=
      (List.append_nil _).symm.trans hclaim
    have hvalues : s.delivered.filterMap ((s.pushed[·]?) ∘ Prod.fst) = s.delivered.filterMap (some ∘ Prod.snd) :=
      List.filterMap_congr h.values
    rw [← hclaim', List.filterMap_map, hvalues, List.filterMap_eq_map]

theorem delivered_sublist (h : s.Inv) : (s.delivered.map Prod.snd).Sublist s.pushed := by
  have hclaim : (s.delivered.map Prod.fst).Sublist (List.range s.pushed.length) := by
    refine (List.sublist_append_left _ s.pop.holding).trans ?_
    rw [h.claimed]
    exact List.filter_sublist.trans (List.range_sublist.2 h.head_le)
  have hvalues : s.delivered.filterMap ((s.pushed[·]?) ∘ Prod.fst) = s.delivered.filterMap (some ∘ Prod.snd) :=
    List.filterMap_congr h.values
  have hsub := hclaim.filterMap (s.pushed[·]?)
  rwa [List.filterMap_map, hvalues, List.filterMap_eq_map, filterMap_getElem?_range] at hsub

end Inv

end Ring

end Mdfh
