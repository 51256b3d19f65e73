import Mdfh.Io.Termination

/-!
# The owner of a runner (`io/pipeline_runner.cpp`)

`start()`, `stop()`, `join()` and the destructor, as one thread calls them, with the `std::thread` objects
they create and join: the threads of the pipeline start one by one while `start()` goes on, and a join
waits for the end of its thread. `start()` is called once, as its comment asks. Destroying a joinable
`std::thread` is `std::terminate()`; the destructor is there to avoid that ("RAII, not a separate manual
cleanup step callers have to remember"), and it does unless `join()` was called before `start()`: then
`joined_` is set before there was anything to join.
-/

namespace Mdfh
open LittleEndian (Bytes)

variable {n : NumShards}

inductive ThreadState where
  | absent
  | joinable
  | joined
deriving DecidableEq

/-- Where the owner is; `last` marks the `join()` of the destructor. -/
inductive OwnerPc (n : NumShards) where
  | idle
  | spawnNet
  | spawnDecoder (k : Nat)
  | spawnPublisher (i : Fin n.1)
  | joinNet (last : Bool)
  | joinDecoder (k : Nat) (last : Bool)
  | joinPublisher (k : Nat) (last : Bool)
  | members  -- the body of the destructor is over
  | destroyed
  | terminated
deriving DecidableEq

inductive OwnerCall where
  | start
  | stop
  | join
  | destroy
deriving DecidableEq

/-- A runner with its thread objects; `calls` is the history of its owner. -/
structure Lifecycle (n : NumShards) where
  runner : PipelineRunner n
  owner : OwnerPc n := .idle
  started : Bool := false
  joined : Bool := false
  networkIoThread : ThreadState := .absent
  shardThreads : Fin n.1 → ThreadState := fun _ => .absent
  publisherThreads : Fin n.1 → ThreadState := fun _ => .absent
  calls : List OwnerCall := []

namespace Lifecycle

/-- A new runner for the packets of its feed. -/
def create (n : NumShards) (feed : List (Option Bytes)) : Lifecycle n := { runner := PipelineRunner.start n feed }

/-- The end of `join()`. -/
def returned (last : Bool) : OwnerPc n := if last then .members else .idle

def beginJoin (s : Lifecycle n) (last : Bool) : Lifecycle n :=
  { s with owner := if s.joined then returned last else .joinNet last }

/-- The store of `stop()`. -/
def requestStop (s : Lifecycle n) : Lifecycle n := { s with runner := { s.runner with stopRequested := true } }

def call (s : Lifecycle n) (c : OwnerCall) : Option (Lifecycle n) :=
  if s.owner = .idle then
    let s := { s with calls := s.calls ++ [c] }
    match c with
    | .start => if s.started then none else some { s with started := true, owner := .spawnNet }
    | .stop => some (s.requestStop.beginJoin false)
    | .join => some (s.beginJoin false)
    | .destroy => some (if s.started && !s.joined then s.requestStop.beginJoin true else { s with owner := .members })
  else none

/-- Some thread object can still be joined. -/
def AnyJoinable (s : Lifecycle n) : Prop :=
  s.networkIoThread = .joinable ∨ ∃ i, s.shardThreads i = .joinable ∨ s.publisherThreads i = .joinable

instance (s : Lifecycle n) : Decidable s.AnyJoinable := inferInstanceAs (Decidable (_ ∨ _))

/-- The next step of the owner in its call; a join has none before its thread is over. -/
def ownerStep (s : Lifecycle n) : Option (Lifecycle n) :=
  match s.owner with
  | .idle => none
  | .spawnNet => some { s with networkIoThread := .joinable, owner := .spawnDecoder 0 }
  | .spawnDecoder k =>
    if h : k < n.1 then
      some { s with shardThreads := Function.update s.shardThreads ⟨k, h⟩ .joinable, owner := .spawnPublisher ⟨k, h⟩ }
    else some { s with owner := .idle }
  | .spawnPublisher i =>
    some { s with publisherThreads := Function.update s.publisherThreads i .joinable, owner := .spawnDecoder (i + 1) }
  | .joinNet last =>
    if s.networkIoThread = .joinable then
      if s.runner.net = .finished then some { s with networkIoThread := .joined, owner := .joinDecoder 0 last } else none
    else some { s with owner := .joinDecoder 0 last }
  | .joinDecoder k last =>
    if h : k < n.1 then
      if s.shardThreads ⟨k, h⟩ = .joinable then
        if (s.runner.lanes ⟨k, h⟩).decoder = .exited then
          some { s with
            shardThreads := Function.update s.shardThreads ⟨k, h⟩ .joined, owner := .joinDecoder (k + 1) last }
        else none
      else some { s with owner := .joinDecoder (k + 1) last }
    else some { s with owner := .joinPublisher 0 last }
  | .joinPublisher k last =>
    if h : k < n.1 then
      if s.publisherThreads ⟨k, h⟩ = .joinable then
        if (s.runner.lanes ⟨k, h⟩).publisher = .left then
          some { s with
            publisherThreads := Function.update s.publisherThreads ⟨k, h⟩ .joined, owner := .joinPublisher (k + 1) last }
        else none
      else some { s with owner := .joinPublisher (k + 1) last }
    else some { s with joined := true, owner := returned last }
  | .members => some { s with owner := if s.AnyJoinable then .terminated else .destroyed }
  | .destroyed => none
  | .terminated => none

/-- The thread exists; `stop` is no thread. -/
def Created (s : Lifecycle n) : PipelineRunner.Actor n → Prop
  | .stop => False
  | .net => s.networkIoThread ≠ .absent
  | .decoder i => s.shardThreads i ≠ .absent
  | .publisher i => s.publisherThreads i ≠ .absent

instance (s : Lifecycle n) : DecidablePred s.Created
  | .stop => inferInstanceAs (Decidable False)
  | .net => inferInstanceAs (Decidable (_ ≠ _))
  | .decoder _ => inferInstanceAs (Decidable (_ ≠ _))
  | .publisher _ => inferInstanceAs (Decidable (_ ≠ _))

inductive Event (n : NumShards) where
  | call (c : OwnerCall)
  | owner
  | thread (a : PipelineRunner.Actor n)
deriving DecidableEq

def step (s : Lifecycle n) : Event n → Option (Lifecycle n)
  | .call c => s.call c
  | .owner => s.ownerStep
  | .thread a =>
    if s.owner = .terminated ∨ ¬ s.Created a then none else (s.runner.step a).map fun r => { s with runner := r }

/-- `join()` or `stop()` was called before `start()`. -/
def joinedFirst : List OwnerCall → Bool
  | [] => false
  | .start :: _ => false
  | .stop :: _ => true
  | .join :: _ => true
  | .destroy :: calls => joinedFirst calls

/-! ### What the owner knows -/

/-- All thread objects are in one state. -/
def All (s : Lifecycle n) (t : ThreadState) : Prop :=
  s.networkIoThread = t ∧ ∀ i, s.shardThreads i = t ∧ s.publisherThreads i = t

/-- Between two calls. -/
inductive AtRest (s : Lifecycle n) : Prop
  | fresh (hs : s.started = false) (hj : s.joined = joinedFirst s.calls) (ht : s.All .absent)
  | running (hs : s.started = true) (hj : s.joined = joinedFirst s.calls) (ht : s.All .joinable)
  | ended (hs : s.started = true) (hj : s.joined = true) (hf : joinedFirst s.calls = false) (ht : s.All .joined)

/-- In `join()`: there is nothing to join yet, or the threads are joined up to a point. -/
inductive Joining (s : Lifecycle n) (net : ThreadState) (shards publishers : Fin n.1 → ThreadState) : Bool → Prop
  | nothing (hs : s.started = false) (hj : s.joined = false) (hf : joinedFirst s.calls = true) (ht : s.All .absent) :
    Joining s net shards publishers false
  | threads {last : Bool} (hs : s.started = true) (hj : s.joined = false) (hf : joinedFirst s.calls = false)
      (hn : s.networkIoThread = net) (ht : ∀ i, s.shardThreads i = shards i ∧ s.publisherThreads i = publishers i) :
    Joining s net shards publishers last

def OwnerOk (s : Lifecycle n) : OwnerPc n → Prop
  | .idle => s.AtRest
  | .spawnNet => s.started = true ∧ s.joined = joinedFirst s.calls ∧ s.All .absent
  | .spawnDecoder k => s.started = true ∧ s.joined = joinedFirst s.calls ∧ s.networkIoThread = .joinable ∧
      ∀ i, s.shardThreads i = (if i < k then .joinable else .absent) ∧
        s.publisherThreads i = if i < k then .joinable else .absent
  | .spawnPublisher j => s.started = true ∧ s.joined = joinedFirst s.calls ∧ s.networkIoThread = .joinable ∧
      ∀ i, s.shardThreads i = (if i < j.1 + 1 then .joinable else .absent) ∧
        s.publisherThreads i = if i < j.1 then .joinable else .absent
  | .joinNet last => s.Joining .joinable (fun _ => .joinable) (fun _ => .joinable) last
  | .joinDecoder k last => s.Joining .joined (fun i => if i < k then .joined else .joinable) (fun _ => .joinable) last
  | .joinPublisher k last => s.Joining .joined (fun _ => .joined) (fun i => if i < k then .joined else .joinable) last
  | .members => s.AtRest ∧ (s.started = true → s.joined = true)
  | .destroyed => s.AtRest ∧ ¬ s.AnyJoinable
  | .terminated => s.started = true ∧ joinedFirst s.calls = true

/-- A joined thread is over. -/
structure Exited (s : Lifecycle n) : Prop where
  net : s.networkIoThread = .joined → s.runner.net = .finished
  decoder : ∀ i, s.shardThreads i = .joined → s.runner.DecoderGone i
  publisher : ∀ i, s.publisherThreads i = .joined → s.runner.LaneGone i

structure Inv (feed : List (Option Bytes)) (s : Lifecycle n) : Prop where
  ok : s.OwnerOk s.owner
  exited : s.Exited
  calls : s.started = true ↔ .start ∈ s.calls
  reached : ∃ acts, Runs.exec PipelineRunner.step (PipelineRunner.start n feed) acts = some s.runner

theorem joinedFirst_of_mem {calls : List OwnerCall} (h : .start ∈ calls) (c : OwnerCall) :
    joinedFirst (calls ++ [c]) = joinedFirst calls := by
  induction calls with
  | nil => cases h
  | cons c' calls ih =>
    cases c' with
    | destroy => exact ih ((List.mem_cons.1 h).resolve_left nofun)
    | _ => rfl

theorem joinedFirst_of_not_mem {calls : List OwnerCall} (h : .start ∉ calls) (c : OwnerCall) :
    joinedFirst (calls ++ [c]) = (joinedFirst calls || joinedFirst [c]) := by
  induction calls with
  | nil => rfl
  | cons c' calls ih =>
    cases c' with
    | start => exact absurd List.mem_cons_self h
    | destroy => exact ih fun hm => h (List.mem_cons_of_mem _ hm)
    | _ => rfl

section Frame
variable {s : Lifecycle n}

/-- The runner and the place of the owner are not part of it. -/
theorem AtRest.frame (h : s.AtRest) (r : PipelineRunner n) (pc : OwnerPc n) :
    AtRest { s with runner := r, owner := pc } := by
  cases h with
  | fresh hs hj ht => exact .fresh hs hj ht
  | running hs hj ht => exact .running hs hj ht
  | ended hs hj hf ht => exact .ended hs hj hf ht

theorem Joining.frame {net : ThreadState} {shards publishers : Fin n.1 → ThreadState} {last : Bool}
    (h : s.Joining net shards publishers last) (r : PipelineRunner n) (pc : OwnerPc n) :
    Joining { s with runner := r, owner := pc } net shards publishers last := by
  cases h with
  | nothing hs hj hf ht => exact .nothing hs hj hf ht
  | threads hs hj hf hn ht => exact .threads hs hj hf hn ht

theorem OwnerOk.frame {pc : OwnerPc n} (h : s.OwnerOk pc) (r : PipelineRunner n) (pc' : OwnerPc n) :
    OwnerOk { s with runner := r, owner := pc' } pc := by
  cases pc with
  | idle => exact AtRest.frame h r pc'
  | spawnNet => exact h
  | spawnDecoder k => exact h
  | spawnPublisher i => exact h
  | joinNet last => exact Joining.frame h r pc'
  | joinDecoder k last => exact Joining.frame h r pc'
  | joinPublisher k last => exact Joining.frame h r pc'
  | members => exact ⟨h.1.frame r pc', h.2⟩
  | destroyed => exact ⟨h.1.frame r pc', h.2⟩
  | terminated => exact h

end Frame

namespace Inv
variable {feed : List (Option Bytes)} {s s' : Lifecycle n}

theorem create (feed : List (Option Bytes)) : (Lifecycle.create n feed).Inv feed := by
  refine ⟨.fresh rfl rfl ⟨rfl, fun _ => ⟨rfl, rfl⟩⟩, ⟨nofun, nofun, nofun⟩, ⟨nofun, nofun⟩, [], rfl⟩

/-! ### A thread -/

theorem thread (h : s.Inv feed) {a : PipelineRunner.Actor n} {r : PipelineRunner n} (hs : s.runner.step a = some r) :
    Inv feed { s with runner := r } := by
  obtain ⟨acts, hacts⟩ := h.reached
  refine ⟨h.ok.frame r s.owner, ⟨fun hj => ?_, fun i hj => ?_, fun i hj => ?_⟩, h.calls, acts ++ [a], ?_⟩
  · exact PipelineRunner.finished_step (h.exited.net hj) hs
  · exact (h.exited.decoder i hj).step hs
  · exact (h.exited.publisher i hj).step hs
  · exact Runs.exec_append.2 ⟨s.runner, hacts, Runs.exec_cons.2 ⟨r, hs, rfl⟩⟩

/-! ### A call -/

theorem atRest_call (h : s.Inv feed) (hr : s.AtRest) {c : OwnerCall}
    (hc : s.started = false → joinedFirst [c] = true → s.joined = true) : AtRest { s with calls := s.calls ++ [c] } := by
  cases hr with
  | fresh hs hj ht =>
    refine .fresh hs ?_ ht
    have hmem : .start ∉ s.calls := fun hm => by rw [h.calls.2 hm] at hs; cases hs
    show s.joined = joinedFirst (s.calls ++ [c])
    rw [joinedFirst_of_not_mem hmem, ← hj]
    cases hj' : s.joined with
    | true => rfl
    | false =>
      cases hf : joinedFirst [c] with
      | false => rfl
      | true => rw [hc hs hf] at hj'; cases hj'
  | running hs hj ht => exact .running hs (hj.trans (joinedFirst_of_mem (h.calls.1 hs) c).symm) ht
  | ended hs hj hf ht => exact .ended hs hj ((joinedFirst_of_mem (h.calls.1 hs) c).trans hf) ht

theorem joining_call (h : s.Inv feed) (hr : s.AtRest) (hj : s.joined = false) {c : OwnerCall} {last : Bool}
    (hc : s.started = false → joinedFirst [c] = true ∧ last = false) :
    Joining { s with calls := s.calls ++ [c] } .joinable (fun _ => .joinable) (fun _ => .joinable) last := by
  cases hr with
  | fresh hs hf ht =>
    obtain ⟨hc', rfl⟩ := hc hs
    have hmem : .start ∉ s.calls := fun hm => by rw [h.calls.2 hm] at hs; cases hs
    refine .nothing hs hj ?_ ht
    show joinedFirst (s.calls ++ [c]) = true
    rw [joinedFirst_of_not_mem hmem, hc', Bool.or_true]
  | running hs hf ht => exact .threads hs hj ((joinedFirst_of_mem (h.calls.1 hs) c).trans (hf.symm.trans hj)) ht.1 ht.2
  | ended hs hj' => rw [hj] at hj'; cases hj'

theorem mem_snoc (h : s.Inv feed) {c : OwnerCall} (hc : c ≠ .start) : s.started = true ↔ .start ∈ s.calls ++ [c] := by
  rw [List.mem_append, List.mem_singleton, or_iff_left (Ne.symm hc)]
  exact h.calls

theorem beginJoin (h : s.Inv feed) (hr : s.AtRest) {c : OwnerCall} {last : Bool} (hc : c ≠ .start)
    (hj : s.started = false → joinedFirst [c] = true ∧ last = false) (hl : last = true → s.joined = false) :
    Inv feed ({ s with calls := s.calls ++ [c] }.beginJoin last) := by
  refine ⟨?_, ⟨h.exited.net, h.exited.decoder, h.exited.publisher⟩, h.mem_snoc hc, h.reached⟩
  unfold Lifecycle.beginJoin
  dsimp only
  by_cases hjoin : s.joined = true
  · obtain rfl : last = false := Bool.eq_false_iff.2 fun e => by rw [hl e] at hjoin; cases hjoin
    rw [if_pos hjoin]
    exact (h.atRest_call hr fun _ _ => hjoin).frame s.runner .idle
  · rw [if_neg hjoin]
    exact (h.joining_call hr (Bool.eq_false_iff.2 hjoin) hj).frame s.runner (.joinNet last)

theorem call (h : s.Inv feed) {c : OwnerCall} (hs : s.call c = some s') : s'.Inv feed := by
  unfold Lifecycle.call at hs
  split at hs
  · next hpc =>
    have hr : s.AtRest := by
      have := h.ok
      rwa [hpc] at this
    have hstop : s.requestStop.Inv feed := h.thread (a := .stop) rfl
    cases c with
    | start =>
      dsimp only at hs
      split at hs
      · cases hs
      · next hst =>
        cases hs
        refine ⟨?_, ⟨h.exited.net, h.exited.decoder, h.exited.publisher⟩, ⟨fun _ => by simp, fun _ => rfl⟩, h.reached⟩
        cases hr with
        | fresh hs hj ht =>
          have hmem : .start ∉ s.calls := fun hm => hst (h.calls.2 hm)
          refine ⟨rfl, ?_, ht⟩
          show s.joined = joinedFirst (s.calls ++ [.start])
          rw [joinedFirst_of_not_mem hmem, ← hj]
          exact (Bool.or_false _).symm
        | running hs => exact absurd hs hst
        | ended hs => exact absurd hs hst
    | stop =>
      cases hs
      exact hstop.beginJoin (hr.frame _ _) nofun (fun _ => ⟨rfl, rfl⟩) nofun
    | join =>
      cases hs
      exact h.beginJoin hr nofun (fun _ => ⟨rfl, rfl⟩) nofun
    | destroy =>
      cases hs
      dsimp only
      split
      · next hd =>
        rw [Bool.and_eq_true, Bool.not_eq_true_eq_eq_false] at hd
        refine hstop.beginJoin (hr.frame _ _) nofun (fun hs => ?_) fun _ => hd.2
        rw [show s.started = false from hs] at hd
        cases hd.1
      · next hd =>
        rw [Bool.and_eq_true, Bool.not_eq_true_eq_eq_false, not_and, Bool.not_eq_false] at hd
        refine ⟨⟨?_, hd⟩, ⟨h.exited.net, h.exited.decoder, h.exited.publisher⟩, h.mem_snoc nofun, h.reached⟩
        exact (h.atRest_call hr fun _ hf => by cases hf).frame s.runner .members
  · cases hs

/-! ### A step of the owner -/

theorem update_row {f : Fin n.1 → ThreadState} {k : Nat} {x y : ThreadState} (hf : ∀ i, f i = if i < k then x else y)
    (hk : k < n.1) (i : Fin n.1) : Function.update f ⟨k, hk⟩ x i = if i < k + 1 then x else y := by
  rw [Function.update_apply, hf]
  rcases Nat.lt_trichotomy i k with hlt | heq | hgt
  · rw [if_neg (Fin.ne_of_lt hlt), if_pos hlt, if_pos (by omega)]
  · rw [if_pos (Fin.ext heq), if_pos (by omega)]
  · rw [if_neg (Fin.ne_of_gt hgt), if_neg (by omega), if_neg (by omega)]

theorem joined_of_update {f : Fin n.1 → ThreadState} {i j : Fin n.1}
    (h : Function.update f j .joinable i = .joined) : f i = .joined := by
  rw [Function.update_apply] at h
  split at h
  · cases h
  · exact h

theorem spawn (h : s.Inv feed) {pc : OwnerPc n} {k : Nat} (hpc : s.owner = pc)
    (hk : pc = .spawnNet ∨ pc = .spawnDecoder k ∨ ∃ hk, pc = .spawnPublisher ⟨k, hk⟩) (hs : s.ownerStep = some s') :
    s'.Inv feed := by
  have hok := h.ok
  rw [hpc] at hok
  unfold ownerStep at hs
  rw [hpc] at hs
  rcases hk with rfl | rfl | ⟨hk, rfl⟩
  · cases hs
    obtain ⟨hst, hj, -, ht⟩ := hok
    exact ⟨⟨hst, hj, rfl, ht⟩, ⟨nofun, h.exited.decoder, h.exited.publisher⟩, h.calls, h.reached⟩
  · obtain ⟨hst, hj, hn, ht⟩ := hok
    dsimp only at hs
    split at hs
    · next hk =>
      cases hs
      exact ⟨⟨hst, hj, hn, fun i => ⟨update_row (fun i => (ht i).1) hk i, (ht i).2⟩⟩,
        ⟨h.exited.net, fun i hi => h.exited.decoder i (joined_of_update hi), h.exited.publisher⟩, h.calls, h.reached⟩
    · next hk =>
      cases hs
      have hall : ∀ i : Fin n.1, i.1 < k := fun i => by omega
      refine ⟨.running hst hj ⟨hn, fun i => ?_⟩, ⟨h.exited.net, h.exited.decoder, h.exited.publisher⟩, h.calls, h.reached⟩
      obtain ⟨h₁, h₂⟩ := ht i
      rw [if_pos (hall i)] at h₁ h₂
      exact ⟨h₁, h₂⟩
  · obtain ⟨hst, hj, hn, ht⟩ := hok
    cases hs
    exact ⟨⟨hst, hj, hn, fun i => ⟨(ht i).1, update_row (fun i => (ht i).2) hk i⟩⟩,
      ⟨h.exited.net, h.exited.decoder, fun i hi => h.exited.publisher i (joined_of_update hi)⟩, h.calls, h.reached⟩

theorem joinNet (h : s.Inv feed) {last : Bool} (hpc : s.owner = .joinNet last) (hs : s.ownerStep = some s') :
    s'.Inv feed := by
  have hok : s.Joining .joinable (fun _ => .joinable) (fun _ => .joinable) last := by
    have := h.ok
    rwa [hpc] at this
  unfold ownerStep at hs
  rw [hpc] at hs
  cases hok with
  | nothing hst hj hf ht =>
    dsimp only at hs
    rw [if_neg (by rw [ht.1]; exact nofun)] at hs
    cases hs
    exact ⟨.nothing hst hj hf ht, ⟨h.exited.net, h.exited.decoder, h.exited.publisher⟩, h.calls, h.reached⟩
  | threads hst hj hf hn ht =>
    simp only [hn, if_true] at hs
    split at hs
    · next hfin =>
      cases hs
      exact ⟨.threads hst hj hf rfl ht, ⟨fun _ => hfin, h.exited.decoder, h.exited.publisher⟩, h.calls, h.reached⟩
    · cases hs

theorem joinDecoder (h : s.Inv feed) {k : Nat} {last : Bool} (hpc : s.owner = .joinDecoder k last)
    (hs : s.ownerStep = some s') : s'.Inv feed := by
  have hok : s.Joining .joined (fun i => if i < k then .joined else .joinable) (fun _ => .joinable) last := by
    have := h.ok
    rwa [hpc] at this
  unfold ownerStep at hs
  rw [hpc] at hs
  dsimp only at hs
  split at hs
  · next hk =>
    cases hok with
    | nothing hst hj hf ht =>
      simp only [(ht.2 ⟨k, hk⟩).1, reduceCtorEq, if_false] at hs
      cases hs
      exact ⟨.nothing hst hj hf ht, ⟨h.exited.net, h.exited.decoder, h.exited.publisher⟩, h.calls, h.reached⟩
    | threads hst hj hf hn ht =>
      simp only [(ht ⟨k, hk⟩).1, Nat.lt_irrefl, if_false, if_true] at hs
      split at hs
      · next hex =>
        cases hs
        refine ⟨.threads hst hj hf hn fun i => ⟨update_row (fun i => (ht i).1) hk i, (ht i).2⟩,
          ⟨h.exited.net, fun i hi => ?_, h.exited.publisher⟩, h.calls, h.reached⟩
        by_cases he : i = ⟨k, hk⟩
        · subst he
          exact ⟨h.exited.net hn, hex⟩
        · refine h.exited.decoder i ?_
          have hi' : Function.update s.shardThreads ⟨k, hk⟩ .joined i = .joined := hi
          rwa [Function.update_of_ne he] at hi'
      · cases hs
  · next hk =>
    cases hs
    have hall : ∀ i : Fin n.1, i.1 < k := fun i => by omega
    refine ⟨?_, ⟨h.exited.net, h.exited.decoder, h.exited.publisher⟩, h.calls, h.reached⟩
    cases hok with
    | nothing hst hj hf ht => exact .nothing hst hj hf ht
    | threads hst hj hf hn ht =>
      refine .threads hst hj hf hn fun i => ?_
      obtain ⟨h₁, h₂⟩ := ht i
      rw [if_pos (hall i)] at h₁
      exact ⟨h₁, h₂⟩

theorem joinPublisher (h : s.Inv feed) {k : Nat} {last : Bool} (hpc : s.owner = .joinPublisher k last)
    (hs : s.ownerStep = some s') : s'.Inv feed := by
  have hok : s.Joining .joined (fun _ => .joined) (fun i => if i < k then .joined else .joinable) last := by
    have := h.ok
    rwa [hpc] at this
  unfold ownerStep at hs
  rw [hpc] at hs
  dsimp only at hs
  split at hs
  · next hk =>
    cases hok with
    | nothing hst hj hf ht =>
      simp only [(ht.2 ⟨k, hk⟩).2, reduceCtorEq, if_false] at hs
      cases hs
      exact ⟨.nothing hst hj hf ht, ⟨h.exited.net, h.exited.decoder, h.exited.publisher⟩, h.calls, h.reached⟩
    | threads hst hj hf hn ht =>
      simp only [(ht ⟨k, hk⟩).2, Nat.lt_irrefl, if_false, if_true] at hs
      split at hs
      · next hex =>
        cases hs
        refine ⟨.threads hst hj hf hn fun i => ⟨(ht i).1, update_row (fun i => (ht i).2) hk i⟩,
          ⟨h.exited.net, h.exited.decoder, fun i hi => ?_⟩, h.calls, h.reached⟩
        by_cases he : i = ⟨k, hk⟩
        · subst he
          exact ⟨h.exited.decoder _ (ht _).1, hex⟩
        · refine h.exited.publisher i ?_
          have hi' : Function.update s.publisherThreads ⟨k, hk⟩ .joined i = .joined := hi
          rwa [Function.update_of_ne he] at hi'
      · cases hs
  · next hk =>
    cases hs
    have hall : ∀ i : Fin n.1, i.1 < k := fun i => by omega
    refine ⟨?_, ⟨h.exited.net, h.exited.decoder, h.exited.publisher⟩, h.calls, h.reached⟩
    cases hok with
    | nothing hst hj hf ht => exact .fresh hst hf.symm ht
    | threads hst hj hf hn ht =>
      have hended : AtRest { s with joined := true, owner := returned last } := by
        refine .ended hst rfl hf ⟨hn, fun i => ?_⟩
        obtain ⟨h₁, h₂⟩ := ht i
        rw [if_pos (hall i)] at h₂
        exact ⟨h₁, h₂⟩
      cases last with
      | false => exact hended
      | true => exact ⟨hended, fun _ => rfl⟩

theorem members (h : s.Inv feed) (hpc : s.owner = .members) (hs : s.ownerStep = some s') : s'.Inv feed := by
  have hok : s.AtRest ∧ (s.started = true → s.joined = true) := by
    have := h.ok
    rwa [hpc] at this
  unfold ownerStep at hs
  rw [hpc] at hs
  cases hs
  refine ⟨?_, ⟨h.exited.net, h.exited.decoder, h.exited.publisher⟩, h.calls, h.reached⟩
  dsimp only
  by_cases hany : s.AnyJoinable
  · rw [if_pos hany]
    have hnone : ∀ t, t ≠ .joinable → ¬ s.All t := by
      rintro t ht ⟨hn, hall⟩
      rcases hany with hn' | ⟨i, hi | hi⟩
      · exact ht (hn.symm.trans hn')
      · exact ht ((hall i).1.symm.trans hi)
      · exact ht ((hall i).2.symm.trans hi)
    rcases hok.1 with ⟨-, -, ht⟩ | ⟨hst, hj, -⟩ | ⟨-, -, -, ht⟩
    · exact absurd ht (hnone _ nofun)
    · exact ⟨hst, hj.symm.trans (hok.2 hst)⟩
    · exact absurd ht (hnone _ nofun)
  · rw [if_neg hany]
    exact ⟨hok.1.frame _ _, hany⟩

theorem step (h : s.Inv feed) {e : Event n} (hs : s.step e = some s') : s'.Inv feed := by
  cases e with
  | call c => exact h.call hs
  | owner =>
    have hs' : s.ownerStep = some s' := hs
    cases hpc : s.owner with
    | idle => rw [ownerStep, hpc] at hs'; cases hs'
    | spawnNet => exact h.spawn (k := 0) hpc (.inl rfl) hs'
    | spawnDecoder k => exact h.spawn hpc (.inr (.inl rfl)) hs'
    | spawnPublisher i => exact h.spawn hpc (.inr (.inr ⟨i.2, rfl⟩)) hs'
    | joinNet last => exact h.joinNet hpc hs'
    | joinDecoder k last => exact h.joinDecoder hpc hs'
    | joinPublisher k last => exact h.joinPublisher hpc hs'
    | members => exact h.members hpc hs'
    | destroyed => rw [ownerStep, hpc] at hs'; cases hs'
    | terminated => rw [ownerStep, hpc] at hs'; cases hs'
  | thread a =>
    simp only [Lifecycle.step] at hs
    split at hs
    · cases hs
    · obtain ⟨r, hr, rfl⟩ := Option.map_eq_some_iff.1 hs
      exact h.thread hr

end Inv

/-! ### The life of a runner -/

/-- At every moment: the threads run as a pipeline; a later stage is only waited for once the earlier one is
over and has said so; a runner that was started and joined has ended and is drained; a destroyed runner is
at rest, and its end is `std::terminate()` exactly if it was joined before it was started; and if nothing
can go on, it is gone, or a consumer sleeps with its upstream thread gone. -/
structure Sound (feed : List (Option Bytes)) (s : Lifecycle n) : Prop where
  runner : ∃ acts, Runs.exec PipelineRunner.step (PipelineRunner.start n feed) acts = some s.runner
  decoders : ∀ k last, s.owner = .joinDecoder k last → s.started = true →
    s.runner.net = .finished ∧ s.runner.producerDone = true
  publishers : ∀ k last, s.owner = .joinPublisher k last → s.started = true →
    ∀ i, (s.runner.lanes i).decoder = .exited ∧ (s.runner.lanes i).decoderDone = true
  joined : s.started = true → s.joined = true → joinedFirst s.calls = false →
    s.runner.Finished ∧ ∀ i, (s.runner.lanes i).Drained feed
  destroyed : s.owner = .destroyed → ∀ e, s.step e = none
  terminated : s.owner = .destroyed ∨ s.owner = .terminated →
    (s.owner = .terminated ↔ s.started = true ∧ joinedFirst s.calls = true)
  deadlock : (∀ e, s.step e = none) → s.owner = .destroyed ∨ s.owner = .terminated ∨ s.runner.Stuck

end Lifecycle

namespace PipelineRunner
variable {s : PipelineRunner n} {feed : List (Option Bytes)}

/-- What a run of the threads keeps. -/
structure Kept (feed : List (Option Bytes)) (s : PipelineRunner n) : Prop where
  tracked : s.Tracked feed.length
  fit : s.Fit
  fromFeed : s.FromFeed feed

theorem kept_of_run (hlen : 2 * feed.length < 2 ^ 64) {acts : List (Actor n)}
    (hrun : Runs.exec step (PipelineRunner.start n feed) acts = some s) : s.Kept feed := by
  refine Runs.invariant (P := Kept feed) (fun s e s' h hs => ?_) ⟨.start feed, .start feed, .start feed⟩ hrun
  have htracked := h.tracked.step hlen hs
  exact ⟨htracked, h.fit.step (htracked.inRange hlen) hs, h.fromFeed.step hs⟩

theorem Kept.drained (h : s.Kept feed) {i : Fin n.1} (hexit : (s.lanes i).publisher = .left) :
    (s.lanes i).Drained feed := by
  have ht := h.tracked.turns
  refine (h.tracked.lanes i).drained (ht.lanes i) (fun hup => ht.idle fun hpc => ?_) hexit (h.fromFeed.demuxed i)
  rw [ht.done, hpc] at hup
  cases hup

end PipelineRunner

namespace Lifecycle

variable {s : Lifecycle n} {feed : List (Option Bytes)}

theorem AtRest.all_joined (h : s.AtRest) (hs : s.started = true) (hj : s.joined = true)
    (hf : joinedFirst s.calls = false) : s.All .joined := by
  cases h with
  | fresh hs' => rw [hs'] at hs; cases hs
  | running _ hj' => rw [hj', hf] at hj; cases hj
  | ended _ _ _ ht => exact ht

theorem Joining.not_joined {net : ThreadState} {shards publishers : Fin n.1 → ThreadState} {last : Bool}
    (h : s.Joining net shards publishers last) : s.joined ≠ true := by
  cases h with
  | nothing _ hj => rw [hj]; exact Bool.false_ne_true
  | threads _ hj => rw [hj]; exact Bool.false_ne_true

theorem Inv.all_joined (h : s.Inv feed) (hs : s.started = true) (hj : s.joined = true)
    (hf : joinedFirst s.calls = false) : s.All .joined := by
  have hok := h.ok
  cases hpc : s.owner with
  | idle => rw [hpc] at hok; exact AtRest.all_joined hok hs hj hf
  | spawnNet => rw [hpc] at hok; rw [hok.2.1, hf] at hj; cases hj
  | spawnDecoder k => rw [hpc] at hok; rw [hok.2.1, hf] at hj; cases hj
  | spawnPublisher i => rw [hpc] at hok; rw [hok.2.1, hf] at hj; cases hj
  | joinNet last => rw [hpc] at hok; exact absurd hj (Joining.not_joined hok)
  | joinDecoder k last => rw [hpc] at hok; exact absurd hj (Joining.not_joined hok)
  | joinPublisher k last => rw [hpc] at hok; exact absurd hj (Joining.not_joined hok)
  | members => rw [hpc] at hok; exact hok.1.all_joined hs hj hf
  | destroyed => rw [hpc] at hok; exact hok.1.all_joined hs hj hf
  | terminated => rw [hpc] at hok; rw [hok.2] at hf; cases hf

theorem Exited.finished (h : s.Exited) (ht : s.All .joined) : s.runner.Finished :=
  ⟨h.net ht.1, fun i => ⟨(h.decoder i (ht.2 i).1).2, (h.publisher i (ht.2 i).2).2⟩⟩

theorem Joining.of_started {net : ThreadState} {shards publishers : Fin n.1 → ThreadState} {last : Bool}
    (h : s.Joining net shards publishers last) (hs : s.started = true) :
    s.networkIoThread = net ∧ ∀ i, s.shardThreads i = shards i ∧ s.publisherThreads i = publishers i := by
  cases h with
  | nothing hs' => rw [hs'] at hs; cases hs
  | threads _ _ _ hn ht => exact ⟨hn, ht⟩

theorem Inv.decoders (h : s.Inv feed) {k : Nat} {last : Bool} (hpc : s.owner = .joinDecoder k last)
    (hs : s.started = true) : s.runner.net = .finished := by
  have hok := h.ok
  rw [hpc] at hok
  exact h.exited.net (Joining.of_started hok hs).1

theorem Inv.publishers (h : s.Inv feed) {k : Nat} {last : Bool} (hpc : s.owner = .joinPublisher k last)
    (hs : s.started = true) (i : Fin n.1) : s.runner.DecoderGone i := by
  have hok := h.ok
  rw [hpc] at hok
  exact h.exited.decoder i ((Joining.of_started hok hs).2 i).1

/-- A destroyed runner has no thread that could still run. -/
theorem Inv.destroyed (h : s.Inv feed) (hpc : s.owner = .destroyed) (e : Event n) : s.step e = none := by
  have hok := h.ok
  rw [hpc] at hok
  have hthread : ∀ a, s.Created a → s.runner.step a = none := by
    intro a ha
    rcases hok.1 with ⟨-, -, ht⟩ | ⟨-, -, ht⟩ | ⟨-, -, -, ht⟩
    · cases a with
      | stop => exact ha.elim
      | net => exact absurd ht.1 ha
      | decoder i => exact absurd (ht.2 i).1 ha
      | publisher i => exact absurd (ht.2 i).2 ha
    · exact absurd (.inl ht.1) hok.2
    · obtain ⟨hnet, hlanes⟩ := h.exited.finished ht
      cases a with
      | stop => exact ha.elim
      | net =>
        show s.runner.netStep = none
        rw [PipelineRunner.netStep, hnet]
      | decoder i =>
        show Option.map _ _ = none
        rw [Lane.decoderStep, (hlanes i).1]
        rfl
      | publisher i =>
        show Option.map _ _ = none
        rw [Lane.publisherStep, (hlanes i).2]
        rfl
  cases e with
  | call c =>
    show s.call c = none
    rw [Lifecycle.call, if_neg (by simp [hpc])]
  | owner =>
    show s.ownerStep = none
    rw [ownerStep, hpc]
  | thread a =>
    show (if _ then none else Option.map _ _) = none
    split
    · rfl
    · next hc =>
      rw [not_or, not_not] at hc
      rw [hthread a hc.2]
      rfl

theorem Inv.terminated (h : s.Inv feed) (hpc : s.owner = .destroyed ∨ s.owner = .terminated) :
    s.owner = .terminated ↔ s.started = true ∧ joinedFirst s.calls = true := by
  have hok := h.ok
  rcases hpc with hpc | hpc
  · rw [hpc] at hok ⊢
    refine ⟨nofun, fun ⟨hs, hf⟩ => ?_⟩
    rcases hok.1 with ⟨hs', -⟩ | ⟨-, -, ht⟩ | ⟨-, -, hf', -⟩
    · rw [hs'] at hs; cases hs
    · exact absurd (.inl ht.1) hok.2
    · rw [hf'] at hf; cases hf
  · rw [hpc] at hok ⊢
    exact ⟨fun _ => hok, fun _ => rfl⟩

theorem step_thread_none (hpc : s.owner ≠ .terminated) {a : PipelineRunner.Actor n} (hc : s.Created a)
    (hs : s.step (.thread a) = none) : s.runner.step a = none := by
  simp only [step] at hs
  rw [if_neg (not_or.2 ⟨hpc, not_not.2 hc⟩)] at hs
  exact Option.map_eq_none_iff.1 hs

theorem Inv.deadlock (h : s.Inv feed) (hk : s.runner.Kept feed) (hs : ∀ e, s.step e = none) :
    s.owner = .destroyed ∨ s.owner = .terminated ∨ s.runner.Stuck := by
  have hok := h.ok
  have hown : s.ownerStep = none := hs .owner
  unfold ownerStep at hown
  cases hpc : s.owner with
  | idle =>
    have hcall : s.call .join = none := hs (.call .join)
    rw [Lifecycle.call, if_pos hpc] at hcall
    cases hcall
  | spawnNet => rw [hpc] at hown; cases hown
  | spawnDecoder k =>
    rw [hpc] at hown
    dsimp only at hown
    split at hown <;> cases hown
  | spawnPublisher i => rw [hpc] at hown; cases hown
  | joinNet last =>
    rw [hpc] at hown hok
    dsimp only at hown
    split at hown
    · next hj =>
      split at hown
      · cases hown
      · next hn =>
        have hnet := step_thread_none (by rw [hpc]; exact nofun) (show s.Created .net by rw [Created, hj]; exact nofun)
          (hs (.thread .net))
        obtain ⟨r, hr⟩ := hk.fit.exists_net hn
        rw [show s.runner.netStep = none from hnet] at hr
        cases hr
    · cases hown
  | joinDecoder k last =>
    rw [hpc] at hown
    dsimp only at hown
    split at hown
    · next hk' =>
      split at hown
      · next hj =>
        split at hown
        · cases hown
        · next hn =>
          have hst : s.started = true := by
            rw [hpc] at hok
            cases hok with
            | nothing _ _ _ ht => rw [(ht.2 ⟨k, hk'⟩).1] at hj; cases hj
            | threads hst => exact hst
          have hdec := step_thread_none (by rw [hpc]; exact nofun)
            (show s.Created (.decoder ⟨k, hk'⟩) by rw [Created, hj]; exact nofun) (hs (.thread (.decoder ⟨k, hk'⟩)))
          refine .inr (.inr ⟨⟨k, hk'⟩, .inl ⟨h.decoders hpc hst, ?_⟩⟩)
          by_contra hb
          obtain ⟨x, hx⟩ := (hk.fit.lanes ⟨k, hk'⟩).exists_decoderStep hn hb s.runner.producerDone s.runner.orderRoute
          rw [Option.map_eq_none_iff.1 hdec] at hx
          cases hx
      · cases hown
    · cases hown
  | joinPublisher k last =>
    rw [hpc] at hown
    dsimp only at hown
    split at hown
    · next hk' =>
      split at hown
      · next hj =>
        split at hown
        · cases hown
        · next hn =>
          have hst : s.started = true := by
            rw [hpc] at hok
            cases hok with
            | nothing _ _ _ ht => rw [(ht.2 ⟨k, hk'⟩).2] at hj; cases hj
            | threads hst => exact hst
          have hpub := step_thread_none (by rw [hpc]; exact nofun)
            (show s.Created (.publisher ⟨k, hk'⟩) by rw [Created, hj]; exact nofun) (hs (.thread (.publisher ⟨k, hk'⟩)))
          refine .inr (.inr ⟨⟨k, hk'⟩, .inr ⟨(h.publishers hpc hst ⟨k, hk'⟩).2, ?_⟩⟩)
          by_contra hb
          obtain ⟨l, hl⟩ := (hk.fit.lanes ⟨k, hk'⟩).exists_publisherStep hn hb
          rw [Option.map_eq_none_iff.1 hpub] at hl
          cases hl
      · cases hown
    · cases hown
  | members => rw [hpc] at hown; cases hown
  | destroyed => exact .inl rfl
  | terminated => exact .inr (.inl rfl)

/-- Started, joined and destroyed, one thread after the other. -/
def wholeLife : List (Event oneShard) :=
  [.call .start] ++ List.replicate 4 .owner ++ List.replicate 19 (.thread .net) ++
    List.replicate 33 (.thread (.decoder 0)) ++ List.replicate 22 (.thread (.publisher 0)) ++ [.call .join] ++
    List.replicate 5 .owner ++ [.call .destroy, .owner]

/-- Joined before it is started, and destroyed with its threads running. -/
example : ((Runs.exec step (create oneShard []) ([.call .join] ++ List.replicate 5 .owner ++ [.call .start] ++
    List.replicate 4 .owner ++ [.call .destroy, .owner])).map (·.owner)) = some .terminated := by decide +kernel

end Lifecycle

end Mdfh
