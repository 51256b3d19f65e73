import Mdfh.Concurrency.DrainLoop

/-!
# Progress of a push and of the consumer loop

The producer's only loop is the spin on the flag of the slot it is about to write. A consumer raises
that flag only with a guess of `head_` it made before the producer found room: from then on a fresh
guess is an index of another slot or the index of an empty queue. So the consumer clears the flag
within a few steps of its own and does not come back (`obstruction`).

With its upstream flag up and its upstream thread quiet, every step of a consumer loop lowers
`LoopPc.rank`: a claimed item is worth more than any way round the loop.
-/

namespace Mdfh

variable {α ω : Type} [Inhabited α] {cap : Nat} [NeZero cap]

/-! ### Spinning -/

/-- The slot whose flag the consumer has raised. -/
def PopPc.flagged (cap : Nat) [NeZero cap] : PopPc α → Option (Fin cap)
  | .claim head => some (slotAt cap head.toNat)
  | .retract head => some (slotAt cap head.toNat)
  | .read head => some (slotAt cap head.toNat)
  | .release head _ => some (slotAt cap head.toNat)
  | _ => none

/-- The steps of the consumer until the flag of index `tail`'s slot is down for good. -/
def PopPc.obstruction (cap : Nat) [NeZero cap] (tail : UInt64) : PopPc α → Nat
  | .loadTail head => if slotAt cap head.toNat = slotAt cap tail.toNat ∧ head ≠ tail then 5 else 0
  | .announce head => if slotAt cap head.toNat = slotAt cap tail.toNat then 4 else 0
  | .claim head => if slotAt cap head.toNat = slotAt cap tail.toNat then 3 else 0
  | .retract head => if slotAt cap head.toNat = slotAt cap tail.toNat then 2 else 0
  | .read head => if slotAt cap head.toNat = slotAt cap tail.toNat then 2 else 0
  | .release head _ => if slotAt cap head.toNat = slotAt cap tail.toNat then 1 else 0
  | _ => 0

/-- The steps left of a `push`, a spin counted once. -/
def PushPc.stepsLeft : PushPc α → Nat
  | .idle => 0
  | .wake => 1
  | .publish _ _ => 2
  | .write _ _ => 3
  | .spin _ _ => 4
  | .count _ _ => 5
  | .evict _ _ _ => 6
  | .loadHead _ _ => 7
  | .loadTail _ => 8

namespace Ring
variable {s s' : Ring α cap}

/-- Only the consumer's own slot is flagged. -/
def Flagged (s : Ring α cap) : Prop := ∀ j, (s.mem.buffer j).readerActive = true → s.pop.flagged cap = some j

theorem Flagged.init : Flagged ({} : Ring α cap) := fun _ h => Bool.noConfusion h

omit [NeZero cap] in
theorem flag_setReaderActive (b : SpscRingBuffer α cap) (i : Fin cap) (x : Bool) (j : Fin cap) :
    ((b.setReaderActive i x).buffer j).readerActive = if j = i then x else (b.buffer j).readerActive := by
  simp only [SpscRingBuffer.setReaderActive, Function.update_apply]
  split <;> rfl

omit [NeZero cap] in
theorem flag_setValue (b : SpscRingBuffer α cap) (i : Fin cap) (v : α) (j : Fin cap) :
    ((b.setValue i v).buffer j).readerActive = (b.buffer j).readerActive := by
  simp only [SpscRingBuffer.setValue, Function.update_apply]
  split
  · next hj => rw [hj]
  · rfl

theorem Flagged.pushStep (h : s.Flagged) (hs : s.pushStep = some s') : s'.Flagged := by
  cases pushStep_cases hs with
  | write hpc => exact fun j hj => h j (by rw [← flag_setValue]; exact hj)
  | _ => exact h

theorem Flagged.popStep (h : s.Flagged) (hs : s.popStep = some s') : s'.Flagged := by
  -- before the announcement no flag is up
  have hnone : s.pop.flagged cap = none → ∀ j, (s.mem.buffer j).readerActive ≠ true := by
    intro hp j hj
    rw [h j hj] at hp
    cases hp
  have hdown : ∀ {head : UInt64} {pc : PopPc α} {ds : List (Nat × α)}, s.pop.flagged cap = some (slotAt cap head.toNat) →
      Flagged { s with mem := s.mem.setReaderActive (slotAt cap head.toNat) false, pop := pc, delivered := ds } := by
    intro head pc ds hp j hj
    rw [flag_setReaderActive] at hj
    split at hj
    · cases hj
    · next hne =>
      rw [h j hj] at hp
      exact absurd (Option.some.inj hp) hne
  cases popStep_cases hs with
  | announce hpc =>
    intro j hj
    rw [flag_setReaderActive] at hj
    split at hj
    · next hj' => rw [hj']; rfl
    · exact absurd hj (hnone (by rw [hpc]; rfl) j)
  | claimWon hpc => exact fun j hj => by have := h j hj; rw [hpc] at this; exact this
  | claimLost hpc => exact fun j hj => by have := h j hj; rw [hpc] at this; exact this
  | read hpc => exact fun j hj => by have := h j hj; rw [hpc] at this; exact this
  | retract hpc => exact hdown (by rw [hpc]; rfl)
  | release hpc => exact hdown (by rw [hpc]; rfl)
  | loadHead hpc => exact fun j hj => absurd hj (hnone (by rw [hpc]; rfl) j)
  | empty hpc => exact fun j hj => absurd hj (hnone (by rw [hpc]; rfl) j)
  | nonEmpty hpc => exact fun j hj => absurd hj (hnone (by rw [hpc]; rfl) j)
  | waitTail hpc => exact fun j hj => absurd hj (hnone (by rw [hpc]; rfl) j)
  | waitEmpty hpc => exact fun j hj => absurd hj (hnone (by rw [hpc]; rfl) j)
  | waitNonEmpty hpc => exact fun j hj => absurd hj (hnone (by rw [hpc]; rfl) j)
  | snapshot hpc => exact fun j hj => absurd hj (hnone (by rw [hpc]; rfl) j)
  | recheckTail hpc => exact fun j hj => absurd hj (hnone (by rw [hpc]; rfl) j)
  | block hpc => exact fun j hj => absurd hj (hnone (by rw [hpc]; rfl) j)
  | recheckNonEmpty hpc => exact fun j hj => absurd hj (hnone (by rw [hpc]; rfl) j)
  | woken hpc => exact fun j hj => absurd hj (hnone (by rw [hpc]; rfl) j)

/-- How long the consumer can still keep the producer spinning. -/
def obstruction (s : Ring α cap) : Nat :=
  match s.push with
  | .spin _ tail => s.pop.obstruction cap tail
  | _ => 0

theorem obstruction_eq_zero (h : ∀ tail, s.pop.obstruction cap tail = 0) : s.obstruction = 0 := by
  unfold obstruction
  split
  · exact h _
  · rfl

/-- A spinning producer that is not obstructed finds the flag down. -/
theorem Flagged.clear (h : s.Flagged) {item : α} {tail : UInt64} (hpush : s.push = .spin item tail)
    (h0 : s.obstruction = 0) : ¬ (s.mem.buffer (slotAt cap tail.toNat)).readerActive = true := by
  intro hf
  have hp := h _ hf
  rw [obstruction, hpush] at h0
  cases hpop : s.pop with
  | claim head => rw [hpop] at hp h0; simp [PopPc.obstruction, Option.some.inj hp] at h0
  | retract head => rw [hpop] at hp h0; simp [PopPc.obstruction, Option.some.inj hp] at h0
  | read head => rw [hpop] at hp h0; simp [PopPc.obstruction, Option.some.inj hp] at h0
  | release head out => rw [hpop] at hp h0; simp [PopPc.obstruction, Option.some.inj hp] at h0
  | _ => rw [hpop] at hp; cases hp

/-- A step of `push` makes it shorter, but for a spin, and a spin is obstructed. -/
theorem Flagged.stepsLeft (h : s.Flagged) (hs : s.pushStep = some s') :
    s'.push.stepsLeft < s.push.stepsLeft ∨ s' = s ∧ 0 < s.obstruction := by
  cases pushStep_cases hs with
  | loadTail hpc => exact .inl (by rw [hpc]; exact Nat.lt_succ_self _)
  | full hpc => exact .inl (by rw [hpc]; exact Nat.lt_succ_self _)
  | room hpc => exact .inl (by rw [hpc]; show 4 < 7; omega)
  | evictWon hpc => exact .inl (by rw [hpc]; exact Nat.lt_succ_self _)
  | evictLost hpc => exact .inl (by rw [hpc]; show 4 < 6; omega)
  | count hpc => exact .inl (by rw [hpc]; exact Nat.lt_succ_self _)
  | @spin item tail hpc =>
    refine .inr ⟨rfl, Nat.pos_of_ne_zero fun h0 => ?_⟩
    have hclear := h.clear hpc h0
    rw [Ring.pushStep, hpc] at hs
    dsimp only at hs
    rw [if_neg hclear] at hs
    cases (congrArg Ring.push (Option.some.inj hs)).trans hpc
  | clear hpc => exact .inl (by rw [hpc]; exact Nat.lt_succ_self _)
  | write hpc => exact .inl (by rw [hpc]; exact Nat.lt_succ_self _)
  | publish hpc => exact .inl (by rw [hpc]; exact Nat.lt_succ_self _)
  | wake hpc => exact .inl (by rw [hpc]; exact Nat.lt_succ_self _)

/-- A step of the consumer shortens the obstruction and makes no new one. -/
theorem Inv.obstruction_popStep (h : s.Inv) (hs : s.popStep = some s') :
    s'.obstruction < s.obstruction ∨ s'.obstruction = 0 ∧ s.obstruction = 0 := by
  have hframe := (popStep_frame hs).push
  by_cases hspin : ∃ item tail, s.push = .spin item tail
  · obtain ⟨item, tail, hpush⟩ := hspin
    have hprod := h.producer
    rw [hpush] at hprod
    obtain ⟨htail, hroom⟩ := hprod
    have hob : ∀ {t : Ring α cap}, t.push = .spin item tail → t.obstruction = t.pop.obstruction cap tail := by
      intro t ht
      rw [obstruction, ht]
    rw [hob (hframe.trans hpush), hob hpush]
    -- two places of the consumer with one guess
    have hsame : ∀ {p : Prop} [Decidable p] {a b : Nat}, b < a →
        (if p then b else 0) < (if p then a else 0) ∨ (if p then b else 0) = 0 ∧ (if p then a else 0) = 0 := by
      intro p _ a b hab
      split
      · exact .inl hab
      · exact .inr ⟨rfl, rfl⟩
    have hend : ∀ {p : Prop} [Decidable p] {a : Nat}, 0 < a →
        0 < (if p then a else 0) ∨ (0 : Nat) = 0 ∧ (if p then a else 0) = 0 := by
      intro p _ a ha
      split
      · exact .inl ha
      · exact .inr ⟨rfl, rfl⟩
    cases popStep_cases hs with
    | loadHead hpc =>
      -- a fresh guess: the producer found room, so only the index of an empty queue shares its slot
      rw [hpc]
      refine .inr ⟨if_neg ?_, rfl⟩
      rintro ⟨hslot, hne⟩
      have hle := h.head_le
      have hlt : s.mem.head.toNat < tail.toNat := by
        refine Nat.lt_of_le_of_ne (by omega) fun e => hne (UInt64.toNat_inj.1 e)
      exact slotAt_ne hlt (by omega) hslot
    | empty hpc => rw [hpc]; exact hend (Nat.succ_pos _)
    | @nonEmpty head hpc hne =>
      rw [hpc]
      have hne' : head ≠ tail := fun e => hne (UInt64.toNat_inj.1 (by rw [h.tail, e, htail]))
      show (if _ then 4 else 0) < (if _ then 5 else 0) ∨ (if _ then 4 else 0) = 0 ∧ (if _ then 5 else 0) = 0
      simp only [hne', ne_eq, not_false_eq_true, and_true]
      exact hsame (Nat.lt_succ_self _)
    | announce hpc => rw [hpc]; exact hsame (Nat.lt_succ_self _)
    | claimWon hpc => rw [hpc]; exact hsame (Nat.lt_succ_self _)
    | claimLost hpc => rw [hpc]; exact hsame (Nat.lt_succ_self _)
    | retract hpc => rw [hpc]; exact hend (Nat.succ_pos _)
    | read hpc => rw [hpc]; exact hsame (Nat.lt_succ_self _)
    | release hpc => rw [hpc]; exact hend (Nat.succ_pos _)
    | waitTail hpc => rw [hpc]; exact .inr ⟨rfl, rfl⟩
    | waitEmpty hpc => rw [hpc]; exact .inr ⟨rfl, rfl⟩
    | waitNonEmpty hpc => rw [hpc]; exact .inr ⟨rfl, rfl⟩
    | snapshot hpc => rw [hpc]; exact .inr ⟨rfl, rfl⟩
    | recheckTail hpc => rw [hpc]; exact .inr ⟨rfl, rfl⟩
    | block hpc => rw [hpc]; exact .inr ⟨rfl, rfl⟩
    | recheckNonEmpty hpc => rw [hpc]; exact .inr ⟨rfl, rfl⟩
    | woken hpc => rw [hpc]; exact .inr ⟨rfl, rfl⟩
  · have hzero : ∀ {t : Ring α cap}, t.push = s.push → t.obstruction = 0 := by
      intro t ht
      unfold obstruction
      split
      · next item tail hpush => exact absurd ⟨item, tail, ht.symm.trans hpush⟩ hspin
      · rfl
    exact .inr ⟨hzero hframe, hzero rfl⟩

end Ring

/-! ### The consumer loop -/

/-- Between two calls or in `try_pop`. -/
def PopPc.trying : PopPc α → Bool
  | .waitTail => false
  | .waitHead _ => false
  | .snapshot => false
  | .recheckTail _ => false
  | .recheckHead _ _ => false
  | .blocked _ => false
  | _ => true

/-- The call the loop is in. -/
def LoopPc.Paired (pop : PopPc α) : LoopPc ω → Prop
  | .drain _ _ => pop.trying = true
  | .waiting => pop = .idle ∨ pop.trying = false
  | _ => pop = .idle

/-- How far `try_pop` is from its end; an item in hand counts for a whole way round the loop. -/
def PopPc.drainRank : PopPc α → Nat
  | .idle => 7
  | .loadHead => 6
  | .loadTail _ => 5
  | .announce _ => 4
  | .claim _ => 3
  | .retract _ => 2
  | .returned none => 1
  | .read _ => 103
  | .release _ _ => 102
  | .returned (some _) => 101
  | _ => 0

/-- How far `wait_for_data` is from its end. -/
def PopPc.waitRank : PopPc α → Nat
  | .waitTail => 7
  | .waitHead _ => 6
  | .snapshot => 5
  | .recheckTail _ => 4
  | .recheckHead _ _ => 3
  | .blocked _ => 2
  | .idle => 1
  | _ => 0

/-- The way through the loop once the upstream flag is up, `w` for the body. -/
def LoopPc.passRank (w : ω → Nat) (pop : PopPc α) : LoopPc ω → Nat
  | .work _ x => 80 + w x
  | .wait => 60
  | .waiting => 50 + pop.waitRank
  | .drain _ true => 36 + pop.drainRank
  | .drain false false => 24 + pop.drainRank
  | .testDone => 20
  | .drain true false => 10 + pop.drainRank
  | .left => 0

/-- The items not claimed yet. -/
def Ring.unclaimed (s : Ring α cap) : Nat := s.pushed.length - s.mem.head.toNat

def LoopPc.rank (w : ω → Nat) (q : Ring α cap) (pc : LoopPc ω) : Nat := 200 * q.unclaimed + pc.passRank w q.pop

namespace Ring
variable {s s' : Ring α cap}

theorem Inv.drainRank_popStep (h : s.Inv) (hs : s.popStep = some s') (ht : s.pop.trying = true) :
    s'.pop.trying = true ∧ (s'.unclaimed + 1 = s.unclaimed ∧ s'.pop.drainRank ≤ 103 ∨
      s'.unclaimed = s.unclaimed ∧ s'.pop.drainRank < s.pop.drainRank) := by
  have hcons := h.consumer
  cases popStep_cases hs with
  | loadHead hpc => rw [hpc]; exact ⟨rfl, .inr ⟨rfl, Nat.lt_succ_self _⟩⟩
  | empty hpc => rw [hpc]; exact ⟨rfl, .inr ⟨rfl, by show 1 < 5; omega⟩⟩
  | nonEmpty hpc => rw [hpc]; exact ⟨rfl, .inr ⟨rfl, Nat.lt_succ_self _⟩⟩
  | announce hpc => rw [hpc]; exact ⟨rfl, .inr ⟨rfl, Nat.lt_succ_self _⟩⟩
  | claimWon hpc =>
    rw [hpc] at hcons
    have hlt := hcons.1.2
    have hsucc : (s.mem.head + 1).toNat = s.mem.head.toNat + 1 := by
      have htail := s.mem.tail.toNat_lt
      rw [h.tail] at htail
      rw [UInt64.toNat_add, UInt64.toNat_one, Nat.mod_eq_of_lt (by omega)]
    refine ⟨rfl, .inl ⟨?_, le_rfl⟩⟩
    show s.pushed.length - (s.mem.head + 1).toNat + 1 = s.pushed.length - s.mem.head.toNat
    omega
  | claimLost hpc => rw [hpc]; exact ⟨rfl, .inr ⟨rfl, Nat.lt_succ_self _⟩⟩
  | retract hpc => rw [hpc]; exact ⟨rfl, .inr ⟨rfl, Nat.lt_succ_self _⟩⟩
  | read hpc => rw [hpc]; exact ⟨rfl, .inr ⟨rfl, Nat.lt_succ_self _⟩⟩
  | release hpc => rw [hpc]; exact ⟨rfl, .inr ⟨rfl, Nat.lt_succ_self _⟩⟩
  | waitTail hpc => rw [hpc] at ht; cases ht
  | waitEmpty hpc => rw [hpc] at ht; cases ht
  | waitNonEmpty hpc => rw [hpc] at ht; cases ht
  | snapshot hpc => rw [hpc] at ht; cases ht
  | recheckTail hpc => rw [hpc] at ht; cases ht
  | block hpc => rw [hpc] at ht; cases ht
  | recheckNonEmpty hpc => rw [hpc] at ht; cases ht
  | woken hpc => rw [hpc] at ht; cases ht

theorem waitRank_popStep (hs : s.popStep = some s') (ht : s.pop = .idle ∨ s.pop.trying = false) :
    (s'.pop = .idle ∨ s'.pop.trying = false) ∧ s'.unclaimed = s.unclaimed ∧ s'.pop.waitRank < s.pop.waitRank := by
  have hno : ∀ {pc : PopPc α}, s.pop = pc → pc ≠ .idle → pc.trying = true → False := by
    rintro pc hpc hne htry
    rcases ht with ht | ht
    · exact hne (hpc.symm.trans ht)
    · rw [hpc, htry] at ht; cases ht
  cases popStep_cases hs with
  | loadHead hpc => exact (hno hpc (by simp) rfl).elim
  | empty hpc => exact (hno hpc (by simp) rfl).elim
  | nonEmpty hpc => exact (hno hpc (by simp) rfl).elim
  | announce hpc => exact (hno hpc (by simp) rfl).elim
  | claimWon hpc => exact (hno hpc (by simp) rfl).elim
  | claimLost hpc => exact (hno hpc (by simp) rfl).elim
  | retract hpc => exact (hno hpc (by simp) rfl).elim
  | read hpc => exact (hno hpc (by simp) rfl).elim
  | release hpc => exact (hno hpc (by simp) rfl).elim
  | waitTail hpc => rw [hpc]; exact ⟨.inr rfl, rfl, Nat.lt_succ_self _⟩
  | waitEmpty hpc => rw [hpc]; exact ⟨.inr rfl, rfl, Nat.lt_succ_self _⟩
  | waitNonEmpty hpc => rw [hpc]; exact ⟨.inl rfl, rfl, by show 1 < 6; omega⟩
  | snapshot hpc => rw [hpc]; exact ⟨.inr rfl, rfl, Nat.lt_succ_self _⟩
  | recheckTail hpc => rw [hpc]; exact ⟨.inr rfl, rfl, Nat.lt_succ_self _⟩
  | block hpc => rw [hpc]; exact ⟨.inr rfl, rfl, Nat.lt_succ_self _⟩
  | recheckNonEmpty hpc => rw [hpc]; exact ⟨.inl rfl, rfl, by show 1 < 3; omega⟩
  | woken hpc => rw [hpc]; exact ⟨.inl rfl, rfl, Nat.lt_succ_self _⟩

end Ring

namespace LoopStep
variable {body : α → ω} {done : Bool} {q q' : Ring α cap} {pc pc' : LoopPc ω}

theorem paired (h : LoopStep body done q pc q' pc') (hq : q.Inv) (hp : pc.Paired q.pop) : pc'.Paired q'.pop := by
  cases h with
  | call => exact rfl
  | pop hs => exact (hq.drainRank_popStep hs hp).1
  | again => exact rfl
  | test => exact rfl
  | leave => exact rfl
  | take => exact rfl
  | redrain => exact (hp ▸ rfl : q.pop.trying = true)
  | block => exact hp
  | wait => exact .inr rfl
  | woken hpop => exact (hpop ▸ rfl : q.pop.trying = true)
  | waiting hs => exact (Ring.waitRank_popStep hs hp).1

theorem flagged (h : LoopStep body done q pc q' pc') (hf : q.Flagged) : q'.Flagged := by
  have hidle : ∀ {pop pop' : PopPc α}, q.pop = pop → pop.flagged cap = none → Ring.Flagged { q with pop := pop' } := by
    rintro pop pop' rfl hp j hj
    rw [hf j hj] at hp
    cases hp
  cases h with
  | call hp => exact hidle hp rfl
  | pop hs => exact hf.popStep hs
  | again hp => exact hidle hp rfl
  | test hp => exact hidle hp rfl
  | leave hp => exact hidle hp rfl
  | take hp => exact hidle hp rfl
  | redrain => exact hf
  | block => exact hf
  | wait hp => exact hidle hp rfl
  | woken => exact hf
  | waiting hs => exact hf.popStep hs

theorem obstruction (h : LoopStep body done q pc q' pc') (hq : q.Inv) (hp : pc.Paired q.pop) :
    q'.obstruction < q.obstruction ∨ q'.obstruction = 0 ∧ q.obstruction = 0 := by
  have hnone : ∀ {pop pop' : PopPc α}, q.pop = pop → (∀ tail, pop.obstruction cap tail = 0) →
      (∀ tail, pop'.obstruction cap tail = 0) →
      Ring.obstruction { q with pop := pop' } = 0 ∧ q.obstruction = 0 := by
    rintro pop pop' rfl h₁ h₂
    exact ⟨Ring.obstruction_eq_zero h₂, Ring.obstruction_eq_zero h₁⟩
  cases h with
  | call hpop => exact .inr (hnone hpop (fun _ => rfl) fun _ => rfl)
  | pop hs => exact hq.obstruction_popStep hs
  | again hpop => exact .inr (hnone hpop (fun _ => rfl) fun _ => rfl)
  | test hpop => exact .inr (hnone hpop (fun _ => rfl) fun _ => rfl)
  | leave hpop => exact .inr (hnone hpop (fun _ => rfl) fun _ => rfl)
  | take hpop => exact .inr (hnone hpop (fun _ => rfl) fun _ => rfl)
  | redrain => exact .inr (hnone (hp : q.pop = .idle) (fun _ => rfl) (hp ▸ fun _ => rfl))
  | block => exact .inr (hnone (hp : q.pop = .idle) (fun _ => rfl) (hp ▸ fun _ => rfl))
  | wait hpop => exact .inr (hnone hpop (fun _ => rfl) fun _ => rfl)
  | woken hpop => exact .inr (hnone hpop (fun _ => rfl) (hpop ▸ fun _ => rfl))
  | waiting hs => exact hq.obstruction_popStep hs

/-- With the upstream flag up the loop comes nearer to its end. -/
theorem rank_lt (h : LoopStep body true q pc q' pc') (hq : q.Inv) (hp : pc.Paired q.pop) {w : ω → Nat}
    (hw : ∀ x, w (body x) < 30) : pc'.rank w q' < pc.rank w q := by
  unfold LoopPc.rank
  cases h with
  | @call f d hpop =>
    rw [hpop]
    cases f <;> cases d <;> exact Nat.lt_succ_self _
  | @pop f d _ hs =>
    obtain ⟨-, ⟨hu, hr⟩ | ⟨hu, hr⟩⟩ := hq.drainRank_popStep hs hp
    · cases f <;> cases d <;> simp only [LoopPc.passRank] <;> omega
    · cases f <;> cases d <;> simp only [LoopPc.passRank] <;> omega
  | @again f hpop =>
    rw [hpop]
    show 200 * q.unclaimed + (24 + 7) < 200 * q.unclaimed + (36 + 1)
    omega
  | test hpop =>
    rw [hpop]
    show 200 * q.unclaimed + 20 < 200 * q.unclaimed + (24 + 1)
    omega
  | leave hpop =>
    rw [hpop]
    show 200 * q.unclaimed + 0 < 200 * q.unclaimed + (10 + 1)
    omega
  | @take f d x hpop =>
    rw [hpop]
    have := hw x
    cases f <;> cases d <;> simp only [LoopPc.passRank, PopPc.drainRank, Ring.unclaimed] <;> omega
  | redrain =>
    have hidle : q.pop = .idle := hp
    rw [hidle]
    show 200 * q.unclaimed + (10 + 7) < 200 * q.unclaimed + 20
    omega
  | block hd => cases hd
  | wait hpop =>
    show 200 * q.unclaimed + (50 + 7) < 200 * q.unclaimed + 60
    omega
  | woken hpop =>
    rw [hpop]
    show 200 * q.unclaimed + (24 + 7) < 200 * q.unclaimed + (50 + 1)
    omega
  | waiting hs =>
    obtain ⟨-, hu, hr⟩ := Ring.waitRank_popStep hs hp
    simp only [LoopPc.passRank]
    omega

end LoopStep

theorem LoopPc.Paired.drain_of_obstruction {pc : LoopPc ω} {q : Ring α cap} (hp : pc.Paired q.pop)
    (h : 0 < q.obstruction) : ∃ f d, pc = .drain f d := by
  have hidle : q.pop ≠ .idle := by
    intro e
    rw [Ring.obstruction_eq_zero (by rw [e]; exact fun _ => rfl)] at h
    exact Nat.lt_irrefl 0 h
  cases pc with
  | drain f d => exact ⟨f, d, rfl⟩
  | waiting =>
    rcases hp with hp | hp
    · exact absurd hp hidle
    · have hzero : q.obstruction = 0 := by
        refine Ring.obstruction_eq_zero fun tail => ?_
        cases hpop : q.pop <;> rw [hpop] at hp <;> first | rfl | cases hp
      rw [hzero] at h
      exact absurd h (Nat.lt_irrefl 0)
  | work f x => exact absurd hp hidle
  | testDone => exact absurd hp hidle
  | wait => exact absurd hp hidle
  | left => exact absurd hp hidle

theorem Ring.exists_pushStep {s : Ring α cap} (h : s.push ≠ .idle) : ∃ s', s.pushStep = some s' := by
  unfold pushStep
  cases hpush : s.push with
  | idle => exact absurd hpush h
  | loadHead item tail => dsimp only; split <;> exact ⟨_, rfl⟩
  | evict item tail head => dsimp only; split <;> exact ⟨_, rfl⟩
  | spin item tail => dsimp only; split <;> exact ⟨_, rfl⟩
  | _ => exact ⟨_, rfl⟩

theorem Ring.exists_popStep {s : Ring α cap} (h₁ : s.pop ≠ .idle) (h₂ : ∀ out, s.pop ≠ .returned out)
    (h₃ : s.pop ≠ .blocked s.mem.wakeGeneration) : ∃ s', s.popStep = some s' := by
  unfold popStep
  cases hpop : s.pop with
  | idle => exact absurd hpop h₁
  | returned out => exact absurd hpop (h₂ out)
  | loadTail head => dsimp only; split <;> exact ⟨_, rfl⟩
  | claim head => dsimp only; split <;> exact ⟨_, rfl⟩
  | blocked g =>
    dsimp only
    rw [if_neg fun e => h₃ (by rw [hpop, e])]
    exact ⟨_, rfl⟩
  | _ => exact ⟨_, rfl⟩

/-- Outside its body a loop can go on, has ended, or sleeps on the current generation. -/
theorem LoopPc.exists_step {pc : LoopPc ω} {q : Ring α cap} (hp : pc.Paired q.pop) (body : α → ω) (done : Bool)
    (hw : ∀ f x, pc ≠ .work f x) (hl : pc ≠ .left) :
    (∃ x, pc.step body done q = some x) ∨ pc = .waiting ∧ q.pop = .blocked q.mem.wakeGeneration := by
  cases pc with
  | drain f d =>
    refine .inl ?_
    have htry : q.pop.trying = true := hp
    have hgo : ∀ {pop : PopPc α}, q.pop = pop → pop ≠ .idle → (∀ out, pop ≠ .returned out) →
        ∃ q', q.popStep = some q' := by
      rintro pop rfl h₁ h₂
      refine Ring.exists_popStep h₁ h₂ fun e => ?_
      rw [e] at htry
      cases htry
    cases hpop : q.pop with
    | idle => exact ⟨_, by simp only [step, Ring.step, hpop, if_true, Option.map_some]; rfl⟩
    | returned out => cases out <;> exact ⟨_, by simp only [step, Ring.step, hpop, if_true, Option.map_some]; rfl⟩
    | _ =>
      obtain ⟨q', hq'⟩ := hgo hpop (by simp) (by simp)
      exact ⟨_, by simp only [step, hpop, Ring.step, hq', Option.map_some]; rfl⟩
  | work f x => exact absurd rfl (hw f x)
  | testDone => exact .inl ⟨_, rfl⟩
  | wait =>
    have hpop : q.pop = .idle := hp
    exact .inl ⟨_, by simp only [step, Ring.step, hpop, if_true, Option.map_some]; rfl⟩
  | waiting =>
    by_cases hb : q.pop = .blocked q.mem.wakeGeneration
    · exact .inr ⟨rfl, hb⟩
    · refine .inl ?_
      simp only [step]
      split
      · exact ⟨_, rfl⟩
      · next hne =>
        have hret : ∀ out, q.pop ≠ .returned out := by
          intro out e
          rcases hp with hp | hp
          · exact hne hp
          · rw [e] at hp; cases hp
        obtain ⟨q', hq'⟩ := Ring.exists_popStep hne hret hb
        exact ⟨_, by rw [Ring.step, hq']; rfl⟩
  | left => exact absurd rfl hl

theorem LoopPc.Paired.step_of_obstruction {pc : LoopPc ω} {q : Ring α cap} (hp : pc.Paired q.pop) (hq : q.Inv)
    (h : 0 < q.obstruction) (body : α → ω) (done : Bool) :
    ∃ f d q' pc', pc = .drain f d ∧ pc.step body done q = some (q', pc') ∧ q'.obstruction < q.obstruction := by
  obtain ⟨f, d, rfl⟩ := hp.drain_of_obstruction h
  rcases exists_step hp body done (by simp) (by simp) with ⟨⟨q', pc'⟩, hs⟩ | ⟨he, -⟩
  · refine ⟨f, d, q', pc', rfl, hs, ?_⟩
    rcases (step_cases hs).obstruction hq hp with hlt | ⟨-, h0⟩
    · exact hlt
    · omega
  · cases he

end Mdfh
