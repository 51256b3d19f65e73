import Mdfh.Concurrency.RingSafety
import Mdfh.Lib.DropOldest

/-!
# Calls one at a time are the abstract queue

The concurrent ring refines `DropOldest`: between calls it holds the list of its unclaimed items, and a
`push` or `try_pop` that nothing interrupts does to that list what the abstract operation does. The
modules on `ShardedPipeline` use the abstract queue, those on the running pipeline the ring.
-/

namespace Mdfh

variable {α : Type} [Inhabited α] {cap : Nat} [NeZero cap]

namespace Ring
variable {s s' : Ring α cap}

/-- The unclaimed items, oldest first, and the drop counter. -/
def view (s : Ring α cap) (h : s.Inv) : DropOldest α cap :=
  ⟨s.pushed.drop s.mem.head.toNat, s.mem.droppedUpdatesTotal.toNat, by
    have := h.le_cap
    rw [List.length_drop]
    omega⟩

/-- Between calls. -/
structure Quiet (s : Ring α cap) : Prop where
  push : s.push = .idle
  pop : s.pop = .idle
  flags : ∀ j, (s.mem.buffer j).readerActive = false

omit [NeZero cap] in
theorem Quiet.init : Quiet ({} : Ring α cap) := ⟨rfl, rfl, fun _ => rfl⟩

omit [NeZero cap] in
theorem readerActive_setValue {b : SpscRingBuffer α cap} (hf : ∀ j, (b.buffer j).readerActive = false) (i : Fin cap)
    (x : α) (j : Fin cap) : ((b.setValue i x).buffer j).readerActive = false := by
  simp only [SpscRingBuffer.setValue, Function.update_apply]
  split
  · exact hf i
  · exact hf j

/-! ### The steps of a call that nothing interrupts -/

theorem exec_push_room (hq : s.Quiet) (x : α) (hroom : ¬ cap ≤ (s.mem.tail - s.mem.head).toNat) :
    Runs.exec Ring.step s (.push x :: List.replicate 6 .producer) = some { s with
      mem := { s.mem.setValue (slotAt cap s.mem.tail.toNat) x with
        tail := s.mem.tail + 1, wakeGeneration := s.mem.wakeGeneration + 1 }
      pushed := s.pushed ++ [x] } := by
  have hflag := hq.flags (slotAt cap s.mem.tail.toNat)
  simp [Runs.exec, List.replicate, Ring.step, pushStep, hq.push, hroom, hflag, SpscRingBuffer.setValue]

theorem exec_push_full (hq : s.Quiet) (x : α) (hfull : cap ≤ (s.mem.tail - s.mem.head).toNat) :
    Runs.exec Ring.step s (.push x :: List.replicate 8 .producer) = some { s with
      mem := { s.mem.setValue (slotAt cap s.mem.tail.toNat) x with
        tail := s.mem.tail + 1, head := s.mem.head + 1, wakeGeneration := s.mem.wakeGeneration + 1
        droppedUpdatesTotal := s.mem.droppedUpdatesTotal + 1 }
      pushed := s.pushed ++ [x], evicted := s.evicted ++ [s.mem.head.toNat] } := by
  have hflag := hq.flags (slotAt cap s.mem.tail.toNat)
  simp [Runs.exec, List.replicate, Ring.step, pushStep, hq.push, hfull, hflag, SpscRingBuffer.setValue]

theorem exec_tryPop_empty (hq : s.Quiet) (he : s.mem.tail = s.mem.head) :
    Runs.exec Ring.step s (.tryPop :: List.replicate 2 .consumer) = some { s with pop := .returned none } := by
  simp [Runs.exec, List.replicate, Ring.step, popStep, hq.pop, he]

theorem exec_tryPop_oldest (hq : s.Quiet) (hne : s.mem.tail ≠ s.mem.head) :
    Runs.exec Ring.step s (.tryPop :: List.replicate 6 .consumer) = some { s with
      mem := { s.mem with head := s.mem.head + 1 }
      pop := .returned (some (s.mem.buffer (slotAt cap s.mem.head.toNat)).value)
      delivered := s.delivered ++ [(s.mem.head.toNat, (s.mem.buffer (slotAt cap s.mem.head.toNat)).value)] } := by
  have hflag := hq.flags (slotAt cap s.mem.head.toNat)
  -- the flag of the slot is set and cleared again
  have hslot : Function.update s.mem.buffer (slotAt cap s.mem.head.toNat)
      { value := (s.mem.buffer (slotAt cap s.mem.head.toNat)).value, readerActive := false } = s.mem.buffer := by
    rw [← hflag]
    exact Function.update_eq_self _ _
  simp [Runs.exec, List.replicate, Ring.step, popStep, hq.pop, hne, SpscRingBuffer.setReaderActive, hslot]

/-- From `s` the calls popped `outs`, and `s'` is between calls and holds `q`. -/
structure Returns (s s' : Ring α cap) (outs : List α) (q : DropOldest α cap) : Prop where
  quiet : s'.Quiet
  inv : s'.Inv
  view : s'.view inv = q
  delivered : s'.delivered.map Prod.snd = s.delivered.map Prod.snd ++ outs

theorem push_call (h : s.Inv) (hq : s.Quiet) (x : α) (hN : s.pushed.length + 1 < 2 ^ 64) :
    ∃ k s', Runs.exec Ring.step s (.push x :: List.replicate k .producer) = some s' ∧
      s'.pushed.length = s.pushed.length + 1 ∧ Returns s s' [] ((s.view h).push x) := by
  have hlen : (s.pushed ++ [x]).length = s.pushed.length + 1 := by simp
  have hle := h.head_le
  have hcap := h.le_cap
  have hfull := h.toNat_sub
  have hitems : (s.view h).items.length = s.pushed.length - s.mem.head.toNat := List.length_drop ..
  by_cases hroom : s.pushed.length - s.mem.head.toNat < cap
  · have hrun := exec_push_room hq x (by omega)
    refine ⟨6, _, hrun, hlen, ⟨hq.push, hq.pop, readerActive_setValue hq.flags _ x⟩, h.exec hrun (by simpa using hN), ?_,
      (List.append_nil _).symm⟩
    obtain ⟨h₁, h₂⟩ := DropOldest.push_of_lt (x := x) (hitems ▸ hroom)
    refine DropOldest.ext ?_ h₂.symm
    rw [h₁]
    exact List.drop_append_of_le_length hle
  · have hcap' := NeZero.pos cap
    have hrun := exec_push_full hq x (by omega)
    refine ⟨8, _, hrun, hlen, ⟨hq.push, hq.pop, readerActive_setValue hq.flags _ x⟩, h.exec hrun (by simpa using hN), ?_,
      (List.append_nil _).symm⟩
    obtain ⟨h₁, h₂⟩ := DropOldest.push_of_not_lt (x := x) (hitems ▸ hroom)
    have hhead : (s.mem.head + 1).toNat = s.mem.head.toNat + 1 :=
      Inv.toNat_succ (show s.mem.head.toNat < s.pushed.length by omega) h.length_lt
    have hdrop : s.mem.droppedUpdatesTotal.toNat = s.evicted.length := by
      have := h.dropped
      rwa [hq.push] at this
    have htotal := h.total
    refine DropOldest.ext ?_ ?_
    · rw [h₁]
      show (s.pushed ++ [x]).drop (s.mem.head + 1).toNat = (s.pushed.drop s.mem.head.toNat).tail ++ [x]
      rw [hhead, List.drop_append_of_le_length (by omega), List.tail_drop]
    · rw [h₂]
      exact Inv.toNat_succ (show s.mem.droppedUpdatesTotal.toNat < s.pushed.length by omega) h.length_lt

theorem tryPop_call (h : s.Inv) (hq : s.Quiet) :
    ∃ k s₁ s', Runs.exec Ring.step s (.tryPop :: List.replicate k .consumer) = some s₁ ∧
      s₁.pop = .returned ((s.view h).tryPop.map Prod.fst) ∧ s₁.step .ret = some s' ∧ s'.pushed = s.pushed ∧
      Returns s s' ((s.view h).tryPop.map Prod.fst).toList (((s.view h).tryPop.map Prod.snd).getD (s.view h)) := by
  have hle := h.head_le
  cases hpop : (s.view h).tryPop with
  | none =>
    have hempty : s.pushed.drop s.mem.head.toNat = [] := DropOldest.tryPop_eq_none_iff.1 hpop
    have htail : s.mem.tail = s.mem.head := by
      have := List.drop_eq_nil_iff.1 hempty
      exact UInt64.toNat_inj.1 (by rw [h.tail]; omega)
    have hrun := exec_tryPop_empty hq htail
    exact ⟨2, _, s, hrun, rfl, by simp [Ring.step, hq.pop.symm], rfl, hq, h, rfl, (List.append_nil _).symm⟩
  | some r =>
    obtain ⟨x, q⟩ := r
    obtain ⟨hitems, hdrop⟩ := DropOldest.tryPop_eq_some_iff.1 hpop
    have hdropped : s.pushed.drop s.mem.head.toNat = x :: q.items := hitems
    have hlt : s.mem.head.toNat < s.pushed.length := by
      rcases Nat.lt_or_ge s.mem.head.toNat s.pushed.length with hlt | hge
      · exact hlt
      · rw [List.drop_eq_nil_of_le hge] at hdropped
        cases hdropped
    have hne : s.mem.tail ≠ s.mem.head := by
      intro e
      have := congrArg UInt64.toNat e
      rw [h.tail] at this
      omega
    have hx : (s.mem.buffer (slotAt cap s.mem.head.toNat)).value = x := by
      have hget := h.slots _ (Nat.le_refl _) hlt
      have hx' : s.pushed[s.mem.head.toNat]? = some x := by
        have := congrArg (·[0]?) hdropped
        simpa using this
      rw [hx'] at hget
      exact (Option.some.inj hget).symm
    have hrun := exec_tryPop_oldest hq hne
    rw [hx] at hrun
    have hinv := h.exec hrun h.length_lt
    refine ⟨6, _, _, hrun, rfl, rfl, rfl, ⟨hq.push, rfl, hq.flags⟩, hinv.step (a := .ret) rfl hinv.length_lt, ?_,
      List.map_append⟩
    refine DropOldest.ext ?_ hdrop.symm
    show s.pushed.drop (s.mem.head + 1).toNat = q.items
    rw [Inv.toNat_succ hlt h.length_lt, ← List.tail_drop, hdropped, List.tail_cons]

/-- Any calls, each run to its end: the ring is the abstract queue. -/
theorem calls_refine (h : s.Inv) (hq : s.Quiet) (cs : List (DropOldest.Call α))
    (hN : s.pushed.length + cs.length < 2 ^ 64) :
    ∃ acts s', Runs.exec Ring.step s acts = some s' ∧
      Returns s s' ((s.view h).calls cs).1 ((s.view h).calls cs).2 := by
  induction cs generalizing s with
  | nil => exact ⟨[], s, rfl, hq, h, rfl, (List.append_nil _).symm⟩
  | cons c cs ih =>
    rw [List.length_cons] at hN
    -- one call, then the rest from the state it returns in
    have hone : ∃ acts s₁, Runs.exec Ring.step s acts = some s₁ ∧ s₁.pushed.length ≤ s.pushed.length + 1 ∧
        Returns s s₁ ((s.view h).call c).1.toList ((s.view h).call c).2 := by
      cases c with
      | push x =>
        obtain ⟨k, s₁, hrun, hlen, hret⟩ := push_call h hq x (by omega)
        exact ⟨_, s₁, hrun, hlen.le, hret⟩
      | tryPop =>
        obtain ⟨k, s₁, s₂, hrun, -, hstep, hpushed, hret⟩ := tryPop_call h hq
        refine ⟨_ ++ [.ret], s₂, Runs.exec_append.2 ⟨s₁, hrun, Runs.exec_cons.2 ⟨s₂, hstep, rfl⟩⟩, ?_, hret⟩
        rw [hpushed]
        exact Nat.le_succ _
    obtain ⟨acts, s₁, hrun, hlen, hret⟩ := hone
    obtain ⟨acts', s', hrun', hret'⟩ := ih hret.inv hret.quiet (by omega)
    have hview := hret.view
    refine ⟨acts ++ acts', s', Runs.exec_append.2 ⟨s₁, hrun, hrun'⟩, hret'.quiet, hret'.inv, ?_, ?_⟩
    · rw [hret'.view, hview]
      rfl
    · rw [hret'.delivered, hret.delivered, hview, List.append_assoc]
      rfl

theorem calls_refine_init (cs : List (DropOldest.Call α)) (hN : cs.length < 2 ^ 64) :
    ∃ acts, ∃ s : Ring α cap, Runs.exec Ring.step {} acts = some s ∧
      Returns {} s ((.empty : DropOldest α cap).calls cs).1 ((.empty : DropOldest α cap).calls cs).2 := by
  have hview : Ring.view ({} : Ring α cap) .init = .empty := DropOldest.ext rfl rfl
  have := calls_refine (s := ({} : Ring α cap)) .init .init cs (by simpa using hN)
  rwa [hview] at this

end Ring

end Mdfh
