import Mdfh.Concurrency.RingSafety

/-!
# A consumer never sleeps on available data

`wait_for_data` checks for data, snapshots the wake generation, checks again, and waits for the
generation to change. `Watched` adds to a ring the number of wake-ups so far and the number at the
consumer's last snapshot; a run of it is a run of the ring (`exec_ring`). As long as no wake-up has come
since the snapshot, a `tail_` store after the second check's load leaves the producer in front of its
own wake-up, and an empty ring is never evicted from, so it stays empty until such a store.
-/

namespace Mdfh
variable {α : Type} [Inhabited α] {cap : Nat}

/-- The items published but not yet woken for. -/
def PushPc.pendingWake {α : Type} : PushPc α → Nat
  | .wake => 1
  | _ => 0

/-- The generation a consumer holds between its snapshot and the end of the wait. -/
def PopPc.observed {α : Type} : PopPc α → Option UInt64
  | .recheckTail g => some g
  | .recheckHead g _ => some g
  | .blocked g => some g
  | _ => none

namespace Ring

/-- How often the step increments `wake_generation_`. -/
def wakesOn (s : Ring α cap) : Act α → Nat
  | .notifyWaiters => 1
  | .producer => s.push.pendingWake
  | _ => 0

/-- The step loads `wake_generation_` for the wait. -/
def snapshotsOn (s : Ring α cap) : Act α → Bool
  | .consumer => (s.pop matches .snapshot)
  | _ => false

end Ring

/-- A ring with the number of wake-ups so far, and that number at the last snapshot. -/
structure Watched (α : Type) [Inhabited α] (cap : Nat) where
  ring : Ring α cap := {}
  wakes : Nat := 0
  snapshotAt : Nat := 0

namespace Watched
variable [NeZero cap]

def step (w : Watched α cap) (a : Ring.Act α) : Option (Watched α cap) :=
  (w.ring.step a).map fun r =>
    { ring := r,
      wakes := w.wakes + w.ring.wakesOn a,
      snapshotAt := if w.ring.snapshotsOn a then w.wakes else w.snapshotAt }

theorem step_eq {w w' : Watched α cap} {a : Ring.Act α} (h : w.step a = some w') :
    w.ring.step a = some w'.ring ∧ w'.wakes = w.wakes + w.ring.wakesOn a ∧
      w'.snapshotAt = (if w.ring.snapshotsOn a then w.wakes else w.snapshotAt) := by
  obtain ⟨r, hr, rfl⟩ := Option.map_eq_some_iff.1 h
  exact ⟨hr, rfl, rfl⟩

/-- The counters only watch: every run of the ring is a run of the watched ring, and back. -/
theorem exec_ring (w : Watched α cap) (acts : List (Ring.Act α)) :
    (Runs.exec step w acts).map (·.ring) = Runs.exec Ring.step w.ring acts := by
  induction acts generalizing w with
  | nil => rfl
  | cons a acts ih =>
    simp only [Runs.exec, step]
    cases w.ring.step a with
    | none => rfl
    | some r => exact ih _

/-! ### Counting wake-ups -/

/-- The generation and the snapshot are the counters, and every item pushed has had its wake-up but for
the one the producer is about to wake for. -/
structure Counted (w : Watched α cap) : Prop where
  generation : w.ring.mem.wakeGeneration = UInt64.ofNat w.wakes
  observed : ∀ g ∈ w.ring.pop.observed, g = UInt64.ofNat w.snapshotAt
  snapshot_le : w.snapshotAt ≤ w.wakes
  pushed_le : w.ring.pushed.length ≤ w.wakes + w.ring.push.pendingWake

/-- While no wake-up has come since the snapshot: the second emptiness check has seen the current tail,
and a blocked consumer an empty ring, unless the producer is in front of its wake-up. -/
def WaitOk (w : Watched α cap) : Prop :=
  match w.ring.pop with
  | .recheckHead _ tail => w.wakes = w.snapshotAt → w.ring.mem.tail = tail ∨ w.ring.push = .wake
  | .blocked _ => w.wakes = w.snapshotAt → w.ring.mem.tail = w.ring.mem.head ∨ w.ring.push = .wake
  | _ => True

end Watched

/-! ### What a step does to the generation, the snapshot and the pending wake-up -/

namespace Ring
variable [NeZero cap] {r r' : Ring α cap} {a : Act α}

theorem PopStep.keeps (hp : PopStep r r') : r'.mem.wakeGeneration = r.mem.wakeGeneration ∧ r'.push = r.push ∧
    r'.pushed = r.pushed ∧ r'.mem.tail = r.mem.tail := by
  cases hp <;> exact ⟨rfl, rfl, rfl, rfl⟩

/-- What a step of the producer does, as far as a waiting consumer can tell. -/
theorem PushStep.wait_cases (hp : PushStep r r') : r'.pop = r.pop ∧
    ((r.push = .wake ∧ r'.push = .idle ∧ r'.pushed = r.pushed ∧ r'.mem.tail = r.mem.tail ∧
        r'.mem.head = r.mem.head ∧ r'.mem.wakeGeneration = r.mem.wakeGeneration + 1) ∨
      r.push.pendingWake = 0 ∧ r'.mem.wakeGeneration = r.mem.wakeGeneration ∧
        ((r'.push = .wake ∧ r'.pushed.length = r.pushed.length + 1) ∨
          r'.push.pendingWake = 0 ∧ r'.pushed = r.pushed ∧ r'.mem.tail = r.mem.tail ∧
            (r'.mem.head = r.mem.head ∨ ∃ item tail, r.push = .evict item tail r.mem.head))) := by
  cases hp with
  | wake hpc => exact ⟨rfl, .inl ⟨hpc, rfl, rfl, rfl, rfl, rfl⟩⟩
  | publish hpc => exact ⟨rfl, .inr ⟨by rw [hpc]; rfl, rfl, .inl ⟨rfl, by simp⟩⟩⟩
  | evictWon hpc => exact ⟨rfl, .inr ⟨by rw [hpc]; rfl, rfl, .inr ⟨rfl, rfl, rfl, .inr ⟨_, _, hpc⟩⟩⟩⟩
  | spin hpc => exact ⟨rfl, .inr ⟨by rw [hpc]; rfl, rfl, .inr ⟨by rw [hpc]; rfl, rfl, rfl, .inl rfl⟩⟩⟩
  | loadTail hpc | full hpc | room hpc | evictLost hpc | count hpc | clear hpc | write hpc =>
    exact ⟨rfl, .inr ⟨by rw [hpc]; rfl, rfl, .inr ⟨rfl, rfl, rfl, .inl rfl⟩⟩⟩

theorem wakeGeneration_step (hs : r.step a = some r') :
    r'.mem.wakeGeneration = r.mem.wakeGeneration + UInt64.ofNat (r.wakesOn a) := by
  cases a with
  | push item => obtain ⟨-, rfl⟩ := step_push hs; exact (UInt64.add_zero _).symm
  | tryPop => obtain ⟨-, rfl⟩ := step_tryPop hs; exact (UInt64.add_zero _).symm
  | waitForData => obtain ⟨-, rfl⟩ := step_waitForData hs; exact (UInt64.add_zero _).symm
  | ret => obtain ⟨_, -, rfl⟩ := step_ret hs; exact (UInt64.add_zero _).symm
  | consumer => rw [(popStep_cases hs).keeps.1]; exact (UInt64.add_zero _).symm
  | notifyWaiters => cases hs; rfl
  | producer =>
    rcases (pushStep_cases hs).wait_cases.2 with ⟨hpc, -, -, -, -, hg⟩ | ⟨hpc, hg, -⟩
    · rw [hg, wakesOn, hpc]; rfl
    · rw [hg, wakesOn, hpc]; exact (UInt64.add_zero _).symm

theorem observed_step (hs : r.step a = some r') {g : UInt64} (hg : g ∈ r'.pop.observed) :
    (r.snapshotsOn a = false ∧ g ∈ r.pop.observed) ∨ (r.snapshotsOn a = true ∧ g = r.mem.wakeGeneration) := by
  cases a with
  | push item => obtain ⟨-, rfl⟩ := step_push hs; exact .inl ⟨rfl, hg⟩
  | tryPop => obtain ⟨-, rfl⟩ := step_tryPop hs; cases hg
  | waitForData => obtain ⟨-, rfl⟩ := step_waitForData hs; cases hg
  | ret => obtain ⟨_, -, rfl⟩ := step_ret hs; cases hg
  | notifyWaiters => cases hs; exact .inl ⟨rfl, hg⟩
  | producer => rw [(pushStep_cases hs).wait_cases.1] at hg; exact .inl ⟨rfl, hg⟩
  | consumer =>
    cases popStep_cases hs with
    | snapshot hpc => cases hg; exact .inr ⟨by rw [snapshotsOn, hpc], rfl⟩
    | recheckTail hpc => cases hg; exact .inl ⟨by rw [snapshotsOn, hpc], by rw [hpc]; rfl⟩
    | block hpc => cases hg; exact .inl ⟨by rw [snapshotsOn, hpc], by rw [hpc]; rfl⟩
    | loadHead | empty | nonEmpty | announce | claimWon | claimLost | retract | read | release | waitTail | waitEmpty
      | waitNonEmpty | recheckNonEmpty | woken => cases hg

theorem pendingWake_step (hs : r.step a = some r') :
    r'.pushed.length + r.push.pendingWake ≤ r.pushed.length + r'.push.pendingWake + r.wakesOn a := by
  cases a with
  | push item => obtain ⟨hpc, rfl⟩ := step_push hs; rw [hpc]; exact Nat.le_refl _
  | tryPop => obtain ⟨-, rfl⟩ := step_tryPop hs; exact Nat.le_refl _
  | waitForData => obtain ⟨-, rfl⟩ := step_waitForData hs; exact Nat.le_refl _
  | ret => obtain ⟨_, -, rfl⟩ := step_ret hs; exact Nat.le_refl _
  | notifyWaiters => cases hs; exact Nat.le_add_right _ _
  | consumer =>
    obtain ⟨-, hpush, hpushed, -⟩ := (popStep_cases hs).keeps
    rw [hpush, hpushed]
    exact Nat.le_refl _
  | producer =>
    rcases (pushStep_cases hs).wait_cases.2 with ⟨hpc, hpc', hp, -⟩ | ⟨hpc, -, ⟨hpc', hp⟩ | ⟨-, hp, -⟩⟩
    · rw [hpc, hpc', hp, wakesOn, hpc]; exact Nat.le_refl _
    · rw [hpc, hpc', hp, wakesOn]; exact Nat.le_add_right _ _
    · rw [hpc, hp]; omega

end Ring

namespace Watched
variable [NeZero cap] {w w' : Watched α cap} {a : Ring.Act α}

omit [NeZero cap] in
theorem Counted.init : Counted ({} : Watched α cap) :=
  ⟨rfl, by simp [PopPc.observed], Nat.le_refl _, Nat.zero_le _⟩

theorem Counted.step (h : Counted w) (hs : w.step a = some w') : Counted w' := by
  obtain ⟨hr, hw, hsn⟩ := step_eq hs
  refine ⟨?_, fun g hg => ?_, ?_, ?_⟩
  · rw [Ring.wakeGeneration_step hr, h.generation, hw, UInt64.ofNat_add]
  · rw [hsn]
    rcases Ring.observed_step hr hg with ⟨hno, hg⟩ | ⟨hyes, hg⟩
    · rw [hno]; exact h.observed g hg
    · rw [hyes, hg, h.generation]; rfl
  · have := h.snapshot_le
    rw [hw, hsn]
    split <;> omega
  · have := Ring.pendingWake_step hr
    have := h.pushed_le
    omega

omit [NeZero cap] in
/-- A wake-up after the snapshot ends what the consumer could rely on. -/
theorem WaitOk.of_wakes (h : w.snapshotAt < w.wakes) : WaitOk w := by
  unfold WaitOk
  split
  · intro e; omega
  · intro e; omega
  · trivial

omit [NeZero cap] in
theorem WaitOk.congr (h : WaitOk w) (hpop : w'.ring.pop = w.ring.pop) (hwakes : w'.wakes = w.wakes)
    (hsn : w'.snapshotAt = w.snapshotAt) (hpush : w.ring.push ≠ .wake)
    (htail : w'.ring.push = .wake ∨ w'.ring.mem.tail = w.ring.mem.tail)
    (hhead : w'.ring.push = .wake ∨ w'.ring.mem.head = w.ring.mem.head ∨ w.ring.mem.tail ≠ w.ring.mem.head) :
    WaitOk w' := by
  unfold WaitOk at h ⊢
  rw [hpop, hwakes, hsn]
  cases hp : w.ring.pop with
  | recheckHead g tail =>
    rw [hp] at h
    intro hq
    rcases htail with hwk | htail
    · exact .inr hwk
    · rw [htail]
      exact .inl ((h hq).resolve_right hpush)
  | blocked g =>
    rw [hp] at h
    intro hq
    have hempty := (h hq).resolve_right hpush
    rcases htail with hwk | htail
    · exact .inr hwk
    rcases hhead with hwk | hhead | hne
    · exact .inr hwk
    · rw [htail, hhead]
      exact .inl hempty
    · exact absurd hempty hne
  | idle | loadHead | loadTail | announce | claim | retract | read | release | returned | waitTail | waitHead
    | snapshot | recheckTail => trivial

theorem tail_ne_head_of_evict {r : Ring α cap} (h : r.Inv) {item : α} {tail : UInt64}
    (hpc : r.push = .evict item tail r.mem.head) : r.mem.tail ≠ r.mem.head := by
  intro e
  have hprod := h.producer
  rw [hpc] at hprod
  have htail := h.tail
  rw [e] at htail
  have hcap := NeZero.pos cap
  have := hprod.2.1
  omega

theorem WaitOk.step (h : WaitOk w) (hc : Counted w) (hinv : w.ring.Inv) (hs : w.step a = some w') : WaitOk w' := by
  obtain ⟨hr, hw, hsn⟩ := step_eq hs
  have hle := hc.snapshot_le
  cases a with
  | push item =>
    obtain ⟨hpc, he⟩ := Ring.step_push hr
    refine h.congr (by rw [he]) hw hsn (by rw [hpc]; nofun) (.inr ?_) (.inr (.inl ?_)) <;> rw [he]
  | tryPop => obtain ⟨-, he⟩ := Ring.step_tryPop hr; unfold WaitOk; rw [he]; trivial
  | waitForData => obtain ⟨-, he⟩ := Ring.step_waitForData hr; unfold WaitOk; rw [he]; trivial
  | ret => obtain ⟨_, -, he⟩ := Ring.step_ret hr; unfold WaitOk; rw [he]; trivial
  | notifyWaiters =>
    refine .of_wakes ?_
    rw [hw, hsn]
    exact Nat.lt_succ_of_le hle
  | producer =>
    obtain ⟨hpop, ⟨hpc, -⟩ | ⟨hpc, -, hrest⟩⟩ := (Ring.pushStep_cases hr).wait_cases
    · refine .of_wakes ?_
      rw [hw, hsn, Ring.wakesOn, hpc]
      exact Nat.lt_succ_of_le hle
    · have hnw : w.ring.push ≠ .wake := fun e => by rw [e] at hpc; cases hpc
      have hwakes : w'.wakes = w.wakes := by rw [hw, Ring.wakesOn, hpc, Nat.add_zero]
      rcases hrest with ⟨hpc', -⟩ | ⟨-, -, htail, hhead⟩
      · exact h.congr hpop hwakes hsn hnw (.inl hpc') (.inl hpc')
      · refine h.congr hpop hwakes hsn hnw (.inr htail) (.inr ?_)
        rcases hhead with hhead | ⟨item, tail, hev⟩
        · exact .inl hhead
        · exact .inr (tail_ne_head_of_evict hinv hev)
  | consumer =>
    have hp := Ring.popStep_cases hr
    have hwakes : w'.wakes = w.wakes := hw
    obtain ⟨-, hpush, -, htail⟩ := hp.keeps
    unfold WaitOk at h ⊢
    rw [hwakes, hpush, htail]
    generalize w'.ring = r' at hp
    cases hp with
    | recheckTail hpc => exact fun _ => .inl rfl
    | block hpc =>
      rw [hpc] at h
      rw [hsn, Ring.snapshotsOn, hpc]
      exact h
    | loadHead | empty | nonEmpty | announce | claimWon | claimLost | retract | read | release | waitTail | waitEmpty
      | waitNonEmpty | snapshot | recheckNonEmpty | woken => trivial

/-! ### Every run -/

theorem counted_of_exec {acts : List (Ring.Act α)} (hrun : Runs.exec step {} acts = some w) : Counted w :=
  Runs.invariant (fun _ _ _ h hs => h.step hs) Counted.init hrun

/-- A push that is not published `2 ^ 64` times over keeps the ring's invariant, and with it `WaitOk`. -/
theorem waitOk_of_exec {acts : List (Ring.Act α)} (hrun : Runs.exec step {} acts = some w)
    (hN : w.ring.pushed.length < 2 ^ 64) : WaitOk w := by
  have h : w.ring.Inv ∧ Counted w ∧ WaitOk w := by
    refine Runs.invariant_while (P := fun w => w.ring.Inv ∧ Counted w ∧ WaitOk w)
      (Q := fun w => w.ring.pushed.length < 2 ^ 64) ?_ ?_ ⟨Ring.Inv.init, Counted.init, trivial⟩ hrun hN
    · intro w a w' hs hQ
      exact (Ring.pushed_grows (step_eq hs).1).length_le.trans_lt hQ
    · rintro w a w' ⟨hinv, hc, hok⟩ hQ hs
      exact ⟨hinv.step (step_eq hs).1 hQ, hc.step hs, hok.step hc hinv hs⟩
  exact h.2.2

/-- In every run with fewer than `2 ^ 64` wake-ups, a consumer blocked on the current generation waits on
an empty ring or on a push that is about to wake it, and nothing has woken it since its snapshot. -/
theorem blocked_sound (acts : List (Ring.Act α)) (hrun : Runs.exec step {} acts = some w) (hwakes : w.wakes < 2 ^ 64)
    {g : UInt64} (hb : w.ring.pop = .blocked g) (hg : w.ring.mem.wakeGeneration = g) :
    (w.ring.mem.tail = w.ring.mem.head ∨ w.ring.push = .wake) ∧ w.wakes = w.snapshotAt := by
  have hc := counted_of_exec hrun
  have hle := hc.snapshot_le
  -- both counters are below `2 ^ 64`, so equal generations are equal counts
  have hquiet : w.wakes = w.snapshotAt := by
    have hobs := hc.observed g (by rw [hb]; rfl)
    rw [← hg, hc.generation] at hobs
    have hnat := congrArg UInt64.toNat hobs
    rw [UInt64.toNat_ofNat', UInt64.toNat_ofNat', Nat.mod_eq_of_lt hwakes, Nat.mod_eq_of_lt (hle.trans_lt hwakes)] at hnat
    exact hnat
  refine ⟨?_, hquiet⟩
  by_cases hN : w.ring.pushed.length < 2 ^ 64
  · have hok := waitOk_of_exec hrun hN
    unfold WaitOk at hok
    rw [hb] at hok
    exact hok hquiet
  · -- the last item of a full count of the index is still to be woken for
    have hpu := hc.pushed_le
    right
    cases hpc : w.ring.push with
    | wake => rfl
    | idle | loadTail | loadHead | evict | count | spin | write | publish =>
      rw [hpc] at hpu
      simp only [PushPc.pendingWake] at hpu
      omega

/-- A wait up to its last check, then a push up to its wake-up, then the last check. -/
def sleepingCalls : List (Ring.Act Nat) :=
  .waitForData :: List.replicate 4 .consumer ++ .push 10 :: List.replicate 5 .producer ++ [.consumer]

/-- The consumer blocks between the `tail_` store and the wake-up of a push. -/
theorem blocked_sound_publishing :
    ∃ w : Watched Nat 1, Runs.exec step {} sleepingCalls = some w ∧
      (w.ring.pop = .blocked 0 ∧ w.ring.mem.tail = 1 ∧ w.ring.mem.head = 0) ∧
      (w.ring.mem.tail = w.ring.mem.head ∨ w.ring.push = .wake) ∧ w.wakes = w.snapshotAt :=
  ⟨_, rfl, ⟨rfl, rfl, rfl⟩, blocked_sound sleepingCalls rfl (by decide) rfl rfl⟩

end Watched

end Mdfh
