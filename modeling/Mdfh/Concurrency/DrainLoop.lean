import Mdfh.Concurrency.RingSafety

/-!
# The consumer loop of a pipeline thread (`io/pipeline_runner.cpp`)

A decoder thread and a publisher thread run one loop on their queue: drain it; if the drain did no
work, test the flag of the stage upstream; with the flag down call `wait_for_data()`, with the flag up
drain once more and leave the loop if that did no work either. `LoopPc.step` is the loop but for the
body of the drain, which is the thread's own.

`try_pop` may fail on a non-empty queue when a producer evicts under it. Not so in the last drain: the
producer is done, `head_` moves for the consumer only (`Solo`), so an empty-handed return means empty.
-/

namespace Mdfh

variable {α ω : Type} [Inhabited α] {cap : Nat} [NeZero cap]

/-- Where a thread is in its loop. -/
inductive LoopPc (ω : Type) where
  | drain (final didWork : Bool)  -- at `while (queue.try_pop(x))`
  | work (final : Bool) (w : ω)  -- in the body of that loop
  | testDone
  | wait
  | waiting
  | left
deriving DecidableEq, Repr

/-- The next step of the loop outside the body; `body x` starts the body, `done` is the upstream flag. -/
def LoopPc.step (body : α → ω) (done : Bool) (q : Ring α cap) : LoopPc ω → Option (Ring α cap × LoopPc ω)
  | .drain final didWork =>
    match q.pop with
    | .idle => (q.step .tryPop).map fun q => (q, .drain final didWork)
    | .returned none => (q.step .ret).map fun q =>
      (q, if didWork then .drain false false else if final then .left else .testDone)
    | .returned (some x) => (q.step .ret).map fun q => (q, .work final (body x))
    | _ => (q.step .consumer).map fun q => (q, .drain final didWork)
  | .work _ _ => none
  | .testDone => some (q, if done then .drain true false else .wait)
  | .wait => (q.step .waitForData).map fun q => (q, .waiting)
  | .waiting =>
    match q.pop with
    | .idle => some (q, .drain false false)
    | _ => (q.step .consumer).map fun q => (q, .waiting)
  | .left => none

/-- What `LoopPc.step` can do. -/
inductive LoopStep (body : α → ω) (done : Bool) (q : Ring α cap) : LoopPc ω → Ring α cap → LoopPc ω → Prop
  | call {f d : Bool} (hq : q.pop = .idle) :
    LoopStep body done q (.drain f d) { q with pop := .loadHead } (.drain f d)
  | pop {f d : Bool} {q' : Ring α cap} (hs : q.popStep = some q') : LoopStep body done q (.drain f d) q' (.drain f d)
  | again {f : Bool} (hq : q.pop = .returned none) :
    LoopStep body done q (.drain f true) { q with pop := .idle } (.drain false false)
  | test (hq : q.pop = .returned none) : LoopStep body done q (.drain false false) { q with pop := .idle } .testDone
  | leave (hq : q.pop = .returned none) : LoopStep body done q (.drain true false) { q with pop := .idle } .left
  | take {f d : Bool} {x : α} (hq : q.pop = .returned (some x)) :
    LoopStep body done q (.drain f d) { q with pop := .idle } (.work f (body x))
  | redrain (hd : done = true) : LoopStep body done q .testDone q (.drain true false)
  | block (hd : done = false) : LoopStep body done q .testDone q .wait
  | wait (hq : q.pop = .idle) : LoopStep body done q .wait { q with pop := .waitTail } .waiting
  | woken (hq : q.pop = .idle) : LoopStep body done q .waiting q (.drain false false)
  | waiting {q' : Ring α cap} (hs : q.popStep = some q') : LoopStep body done q .waiting q' .waiting

theorem LoopPc.step_cases {body : α → ω} {done : Bool} {q q' : Ring α cap} {pc pc' : LoopPc ω}
    (h : pc.step body done q = some (q', pc')) : LoopStep body done q pc q' pc' := by
  cases pc with
  | drain f d =>
    simp only [step] at h
    split at h
    · next hq =>
      simp only [Ring.step, hq, if_true, Option.map_some, Option.some.injEq, Prod.mk.injEq] at h
      obtain ⟨rfl, rfl⟩ := h
      exact .call hq
    · next hq =>
      simp only [Ring.step, hq, if_true, Option.map_some, Option.some.injEq, Prod.mk.injEq] at h
      obtain ⟨rfl, rfl⟩ := h
      cases d with
      | true => exact .again hq
      | false =>
        cases f with
        | true => exact .leave hq
        | false => exact .test hq
    · next x hq =>
      simp only [Ring.step, hq, if_true, Option.map_some, Option.some.injEq, Prod.mk.injEq] at h
      obtain ⟨rfl, rfl⟩ := h
      exact .take hq
    · obtain ⟨q₁, hs, he⟩ := Option.map_eq_some_iff.1 h
      obtain ⟨rfl, rfl⟩ := Prod.mk.inj he
      exact .pop hs
  | work f w => cases h
  | testDone =>
    simp only [step, Option.some.injEq, Prod.mk.injEq] at h
    obtain ⟨rfl, rfl⟩ := h
    cases done with
    | true => exact .redrain rfl
    | false => exact .block rfl
  | wait =>
    obtain ⟨q₁, hs, he⟩ := Option.map_eq_some_iff.1 h
    obtain ⟨rfl, rfl⟩ := Prod.mk.inj he
    obtain ⟨hq, rfl⟩ := Ring.step_waitForData hs
    exact .wait hq
  | waiting =>
    simp only [step] at h
    split at h
    · next hq =>
      cases h
      exact .woken hq
    · obtain ⟨q₁, hs, he⟩ := Option.map_eq_some_iff.1 h
      obtain ⟨rfl, rfl⟩ := Prod.mk.inj he
      exact .waiting hs
  | left => cases h

namespace LoopStep
variable {body : α → ω} {done : Bool} {q q' : Ring α cap} {pc pc' : LoopPc ω}

theorem producer (h : LoopStep body done q pc q' pc') :
    q'.push = q.push ∧ q'.pushed = q.pushed := by
  cases h with
  | call => exact ⟨rfl, rfl⟩
  | pop hs => exact ⟨(Ring.popStep_frame hs).push, (Ring.popStep_frame hs).pushed⟩
  | again => exact ⟨rfl, rfl⟩
  | test => exact ⟨rfl, rfl⟩
  | leave => exact ⟨rfl, rfl⟩
  | take => exact ⟨rfl, rfl⟩
  | redrain => exact ⟨rfl, rfl⟩
  | block => exact ⟨rfl, rfl⟩
  | wait => exact ⟨rfl, rfl⟩
  | woken => exact ⟨rfl, rfl⟩
  | waiting hs => exact ⟨(Ring.popStep_frame hs).push, (Ring.popStep_frame hs).pushed⟩

theorem inv (h : LoopStep body done q pc q' pc') (hq : q.Inv) : q'.Inv := by
  cases h with
  | call hp => exact hq.setPop _ trivial (by rw [hp]; rfl)
  | pop hs => exact hq.popStep hs
  | again hp => exact hq.setPop _ trivial (by rw [hp]; rfl)
  | test hp => exact hq.setPop _ trivial (by rw [hp]; rfl)
  | leave hp => exact hq.setPop _ trivial (by rw [hp]; rfl)
  | take hp => exact hq.setPop _ trivial (by rw [hp]; rfl)
  | redrain => exact hq
  | block => exact hq
  | wait hp => exact hq.setPop _ trivial (by rw [hp]; rfl)
  | woken => exact hq
  | waiting hs => exact hq.popStep hs

end LoopStep

/-! ### What was taken out of the queue -/

/-- The items the body has taken on and not finished with. -/
def LoopPc.todo (f : ω → List α) : LoopPc ω → List α
  | .work _ w => f w
  | _ => []

/-- Popped items are the finished ones, then the one in the body, then the one being handed over. -/
theorem LoopStep.taken {body : α → ω} {done : Bool} {q q' : Ring α cap} {pc pc' : LoopPc ω}
    (h : LoopStep body done q pc q' pc') {f : ω → List α} (hf : ∀ x, f (body x) = [x]) {got : List α}
    (ht : q.delivered.map Prod.snd = got ++ pc.todo f ++ q.pop.hand) :
    q'.delivered.map Prod.snd = got ++ pc'.todo f ++ q'.pop.hand := by
  have hpop : ∀ {pc₁ : LoopPc ω}, q.popStep = some q' → q.delivered.map Prod.snd = got ++ pc₁.todo f ++ q.pop.hand →
      q'.delivered.map Prod.snd = got ++ pc₁.todo f ++ q'.pop.hand := by
    intro pc₁ hs h₁
    have hfr := Ring.popStep_frame hs
    rw [hfr.delivered, h₁, hfr.hand, List.append_nil]
  cases h with
  | call hq => rw [hq] at ht; exact ht
  | pop hs => exact hpop hs ht
  | again hq => rw [hq] at ht; exact ht
  | test hq => rw [hq] at ht; exact ht
  | leave hq => rw [hq] at ht; exact ht
  | take hq =>
    rw [hq] at ht
    rw [LoopPc.todo, hf, ht]
    simp [LoopPc.todo, PopPc.hand]
  | redrain => exact ht
  | block => exact ht
  | wait hq => rw [hq] at ht; exact ht
  | woken => exact ht
  | waiting hs => exact hpop hs ht

/-! ### Leaving the loop -/

/-- The consumer alone moves `head_`: its guess is right, its claim succeeds, and `false` means empty. -/
def Ring.Solo (q : Ring α cap) : Prop :=
  match q.pop with
  | .loadTail head => head = q.mem.head
  | .announce head => head = q.mem.head
  | .claim head => head = q.mem.head
  | .retract _ => False
  | .returned none => q.mem.tail = q.mem.head
  | _ => True

omit [NeZero cap] in
theorem Ring.Solo.of_idle {q : Ring α cap} (h : q.pop = .idle) : q.Solo := by
  rw [Solo, h]
  trivial

theorem Ring.Solo.popStep {q q' : Ring α cap} (h : q.Solo) (hs : q.popStep = some q') : q'.Solo := by
  unfold Solo at h
  cases Ring.popStep_cases hs with
  | loadHead => rfl
  | empty hpc => rw [hpc] at h; exact h
  | nonEmpty hpc => rw [hpc] at h; exact h
  | announce hpc => rw [hpc] at h; exact h
  | claimWon => trivial
  | claimLost hpc hh =>
    rw [hpc] at h
    exact absurd h.symm hh
  | retract hpc => rw [hpc] at h; exact h.elim
  | read => trivial
  | release => trivial
  | waitTail => trivial
  | waitEmpty => trivial
  | waitNonEmpty => trivial
  | snapshot => trivial
  | recheckTail => trivial
  | block => trivial
  | recheckNonEmpty => trivial
  | woken => trivial

/-- What the last drain relies on, and what holds once the loop is left. -/
def LoopPc.Ok (q : Ring α cap) (done : Bool) : LoopPc ω → Prop
  | .drain final _ => final = true → done = true ∧ q.Solo
  | .work final _ => final = true → done = true ∧ q.Solo
  | .testDone => q.pop = .idle
  | .left => done = true ∧ q.pop = .idle ∧ q.mem.tail = q.mem.head
  | _ => True

theorem LoopStep.ok {body : α → ω} {done : Bool} {q q' : Ring α cap} {pc pc' : LoopPc ω}
    (h : LoopStep body done q pc q' pc') (hok : pc.Ok q done) : pc'.Ok q' done := by
  cases h with
  | call hq => exact fun hf => ⟨(hok hf).1, trivial⟩
  | pop hs => exact fun hf => ⟨(hok hf).1, (hok hf).2.popStep hs⟩
  | again => exact fun hf => Bool.noConfusion hf
  | test => exact rfl
  | leave hq =>
    obtain ⟨hd, hsolo⟩ := hok rfl
    rw [Ring.Solo, hq] at hsolo
    exact ⟨hd, rfl, hsolo⟩
  | take => exact fun hf => ⟨(hok hf).1, trivial⟩
  | redrain hd => exact fun _ => ⟨hd, .of_idle hok⟩
  | block => trivial
  | wait => trivial
  | woken => exact fun hf => Bool.noConfusion hf
  | waiting => trivial

omit [NeZero cap] in
/-- The upstream thread, which is quiet on this queue once its flag is up. -/
theorem LoopPc.Ok.upstream {q q' : Ring α cap} {done done' : Bool} {pc : LoopPc ω} (h : pc.Ok q done)
    (hpop : q'.pop = q.pop) (hdone : done = true → done' = true)
    (hq : done = true → q'.mem.head = q.mem.head ∧ q'.mem.tail = q.mem.tail) : pc.Ok q' done' := by
  have hsolo : done = true → q.Solo → q'.Solo := by
    intro hd hs
    obtain ⟨hhead, htail⟩ := hq hd
    unfold Ring.Solo at hs ⊢
    rw [hpop, hhead, htail]
    exact hs
  cases pc with
  | drain final d => exact fun hf => ⟨hdone (h hf).1, hsolo (h hf).1 (h hf).2⟩
  | work final w => exact fun hf => ⟨hdone (h hf).1, hsolo (h hf).1 (h hf).2⟩
  | testDone => exact hpop.trans h
  | wait => trivial
  | waiting => trivial
  | left =>
    obtain ⟨hd, hidle, hempty⟩ := h
    obtain ⟨hhead, htail⟩ := hq hd
    exact ⟨hdone hd, hpop.trans hidle, by rw [hhead, htail]; exact hempty⟩

end Mdfh
