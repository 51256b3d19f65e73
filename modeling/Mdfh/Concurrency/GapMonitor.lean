import Mdfh.Concurrency.GapSpec
import Mdfh.Lib.ReleaseAcquire
import Mdfh.Lib.Runs

/-!
# A detector and its monitors (`concurrency/gap_detector.hpp`)

The contract of the detector: "any number of readers can safely call state()/is_stale()/
sequence_gaps_total()/last_seq_num() while a single writer thread calls observe() or resync()". Every
atomic access is one step, with the memory order the source gives it. A monitor finds in each field what
the detector holds after some of the writer's calls, never an earlier call than before; after a `Stale` it
finds the count of that gap or a later one, and `last_seq_num()` never returns the placeholder. The last
needs that nobody calls `resync()`, whose store to `has_last_seq_num_` is relaxed.
-/

namespace Mdfh
open ReleaseAcquire

namespace GapDetector

inductive Field where
  | hasLastSeqNum
  | lastSeqNum
  | state
  | sequenceGapsTotal
deriving DecidableEq

abbrev Field.Val : Field → Type
  | .hasLastSeqNum => Bool
  | .lastSeqNum => SeqNum
  | .state => BookState
  | .sequenceGapsTotal => UInt64

def get (g : GapDetector) : (x : Field) → x.Val
  | .hasLastSeqNum => g.hasLastSeqNum
  | .lastSeqNum => g.lastSeqNum
  | .state => g.state
  | .sequenceGapsTotal => g.sequenceGapsTotal

def perform (g : GapDetector) : Call → GapDetector
  | .observe k => (g.observe k).2
  | .resync k => g.resync k

/-- A new detector after some calls. -/
def after (calls : List Call) : GapDetector := (runCalls calls).1

theorem after_concat (calls : List Call) (c : Call) : after (calls ++ [c]) = (after calls).perform c := by
  unfold after
  cases c with
  | observe k =>
    rw [runCalls_observe]
    rfl
  | resync k =>
    rw [runCalls_resync]
    rfl

end GapDetector

open GapDetector (Field Call after)

/-- Where the writer is in `observe(k)` or `resync(k)`. -/
inductive WriterPc where
  | idle
  | loadHas (k : SeqNum)
  | storeFirst (k : SeqNum)
  | storeHas (k : SeqNum)
  | loadLast (k : SeqNum)
  | storeNext (k : SeqNum)
  | addGap (k : SeqNum)
  | storeStale (k : SeqNum)
  | storeLast (k : SeqNum)
  | resyncLast (k : SeqNum)
  | resyncHas (k : SeqNum)
  | resyncLive (k : SeqNum)
deriving DecidableEq

/-- A detector with its writer and its monitors; `calls` and `answers` are history. -/
structure Monitored (ρ : Type) where
  mem : Memory Field.Val := .initial ({} : GapDetector).get
  writer : WriterPc := .idle
  calls : List Call := []
  readers : ρ → Reader Field.Val := fun _ => {}
  pending : ρ → Bool := fun _ => false  -- `last_seq_num()` loads the number next
  answers : ρ → List (Option SeqNum) := fun _ => []  -- of `last_seq_num()`

namespace Monitored
variable {ρ : Type} [DecidableEq ρ]

def call (s : Monitored ρ) (c : Call) : Option (Monitored ρ) :=
  if s.writer = .idle then
    some { s with calls := s.calls ++ [c], writer := match c with | .observe k => .loadHas k | .resync k => .resyncLast k }
  else none

/-- The next access of the writer. -/
def writerStep (s : Monitored ρ) : Option (Monitored ρ) :=
  let c := s.calls.length
  match s.writer with
  | .idle => none
  | .loadHas k => (s.mem.current .hasLastSeqNum).map fun e =>
    { s with writer := if e.value then .loadLast k else .storeFirst k }
  | .storeFirst k => some { s with mem := s.mem.storeRelaxed c .lastSeqNum k, writer := .storeHas k }
  | .storeHas _ => some { s with mem := s.mem.storeRelease c .hasLastSeqNum true, writer := .idle }
  | .loadLast k => (s.mem.current .lastSeqNum).map fun e =>
    let expected : SeqNum := e.value + 1
    { s with writer := if k = expected then .storeNext k else if k < expected then .idle else .addGap k }
  | .storeNext k => some { s with mem := s.mem.storeRelaxed c .lastSeqNum k, writer := .idle }
  | .addGap k => some { s with mem := s.mem.modify c .sequenceGapsTotal fun (n : UInt64) => n + 1, writer := .storeStale k }
  | .storeStale k => some { s with mem := s.mem.storeRelease c .state .stale, writer := .storeLast k }
  | .storeLast k => some { s with mem := s.mem.storeRelaxed c .lastSeqNum k, writer := .idle }
  | .resyncLast k => some { s with mem := s.mem.storeRelaxed c .lastSeqNum k, writer := .resyncHas k }
  | .resyncHas k => some { s with mem := s.mem.storeRelaxed c .hasLastSeqNum true, writer := .resyncLive k }
  | .resyncLive _ => some { s with mem := s.mem.storeRelease c .state .live, writer := .idle }

/-- The loads of `state_` and `has_last_seq_num_` acquire. -/
def acquire : Field → Bool
  | .hasLastSeqNum => true
  | .lastSeqNum => false
  | .state => true
  | .sequenceGapsTotal => false

/-- A load of monitor `r` that finds store `i`. -/
def load (s : Monitored ρ) (r : ρ) (x : Field) (i : Nat) : Option (x.Val × Monitored ρ) :=
  ((s.readers r).load s.mem (acquire x) x i).map fun l => (l.1, { s with readers := Function.update s.readers r l.2 })

/-- `last_seq_num()` returns. -/
def answer (s : Monitored ρ) (r : ρ) (k : Option SeqNum) : Monitored ρ :=
  { s with pending := Function.update s.pending r false, answers := Function.update s.answers r (s.answers r ++ [k]) }

inductive Event (ρ : Type) where
  | call (c : Call)
  | writer
  | state (r : ρ) (i : Nat)
  | sequenceGapsTotal (r : ρ) (i : Nat)
  | lastSeqNum (r : ρ) (i : Nat)  -- its first load
  | lastSeqNumValue (r : ρ) (i : Nat)

def step (s : Monitored ρ) : Event ρ → Option (Monitored ρ)
  | .call c => s.call c
  | .writer => s.writerStep
  | .state r i => if s.pending r then none else (s.load r .state i).map Prod.snd
  | .sequenceGapsTotal r i => if s.pending r then none else (s.load r .sequenceGapsTotal i).map Prod.snd
  | .lastSeqNum r i =>
    if s.pending r then none
    else (s.load r .hasLastSeqNum i).map fun l =>
      if l.1 then { l.2 with pending := Function.update l.2.pending r true } else l.2.answer r none
  | .lastSeqNumValue r i =>
    if s.pending r then (s.load r .lastSeqNum i).map fun l => l.2.answer r (some l.1) else none

/-! ### What the writer has stored -/

/-- Nobody has called `resync()`. -/
def NoResync (calls : List Call) : Prop := ∀ k, .resync k ∉ calls

/-- What a monitor that has found a value of one field knows of another. -/
def tells (quiet : Prop) : (x : Field) → x.Val → Field → Prop
  | .hasLastSeqNum, true, .lastSeqNum => quiet
  | .state, .stale, .sequenceGapsTotal => True
  | _, _, _ => False

/-- In the middle of call `c`: the fields of `done` are stored, the others are as before the call. -/
structure Mid (mem : Memory Field.Val) (calls before : List Call) (c : Call) (done : List Field) : Prop where
  eq : calls = before ++ [c]
  values : ∀ x, (mem.current x).map (·.value) = some (if x ∈ done then (after calls).get x else (after before).get x)
  labels : ∀ x ∈ done, (mem.current x).map (·.call) = some calls.length

/-- The number is ahead of the expected one. -/
def Ahead (g : GapDetector) (k : SeqNum) : Prop :=
  g.hasLastSeqNum = true ∧ k ≠ g.lastSeqNum + 1 ∧ ¬ k < g.lastSeqNum + 1

def WriterOk (mem : Memory Field.Val) (calls : List Call) : WriterPc → Prop
  | .idle => ∀ x, (mem.current x).map (·.value) = some ((after calls).get x)
  | .loadHas k => ∃ cs, Mid mem calls cs (.observe k) []
  | .storeFirst k => ∃ cs, Mid mem calls cs (.observe k) [] ∧ (after cs).hasLastSeqNum = false
  | .storeHas k => ∃ cs, Mid mem calls cs (.observe k) [.lastSeqNum] ∧ (after cs).hasLastSeqNum = false
  | .loadLast k => ∃ cs, Mid mem calls cs (.observe k) [] ∧ (after cs).hasLastSeqNum = true
  | .storeNext k =>
    ∃ cs, Mid mem calls cs (.observe k) [] ∧ (after cs).hasLastSeqNum = true ∧ k = (after cs).lastSeqNum + 1
  | .addGap k => ∃ cs, Mid mem calls cs (.observe k) [] ∧ Ahead (after cs) k
  | .storeStale k => ∃ cs, Mid mem calls cs (.observe k) [.sequenceGapsTotal] ∧ Ahead (after cs) k
  | .storeLast k => ∃ cs, Mid mem calls cs (.observe k) [.state, .sequenceGapsTotal] ∧ Ahead (after cs) k
  | .resyncLast k => ∃ cs, Mid mem calls cs (.resync k) []
  | .resyncHas k => ∃ cs, Mid mem calls cs (.resync k) [.lastSeqNum]
  | .resyncLive k => ∃ cs, Mid mem calls cs (.resync k) [.hasLastSeqNum, .lastSeqNum]

/-- What every access keeps of the memory and the monitors. -/
structure Stored (s : Monitored ρ) : Prop where
  mem : s.mem.Ok
  values : ∀ x, ∀ e ∈ s.mem x, e.call ≤ s.calls.length ∧ e.value = (after (s.calls.take e.call)).get x
  told : s.mem.Told (tells (NoResync s.calls))
  readers : ∀ r, (s.readers r).Ok s.mem acquire (tells (NoResync s.calls))

/-- What `last_seq_num()` has returned so far. -/
structure Answered (s : Monitored ρ) (r : ρ) : Prop where
  pending : s.pending r = true → ∃ n, (⟨.hasLastSeqNum, true, n⟩ : Load Field.Val) ∈ (s.readers r).loads
  answers : ∀ k, some k ∈ s.answers r →
    ∃ n, (⟨.lastSeqNum, k, n⟩ : Load Field.Val) ∈ (s.readers r).loads ∧ (NoResync s.calls → 0 < n)

structure Inv (s : Monitored ρ) : Prop where
  writer : WriterOk s.mem s.calls s.writer
  stored : s.Stored
  answered : ∀ r, s.Answered r

end Monitored

/-! ### The calls -/

namespace GapDetector
variable {g : GapDetector} {k : SeqNum}

theorem perform_first (h : g.hasLastSeqNum = false) :
    g.perform (.observe k) = { g with lastSeqNum := k, hasLastSeqNum := true } := by
  simp [perform, observe, h]

theorem perform_next (h : g.hasLastSeqNum = true) (hk : k = g.lastSeqNum + 1) :
    g.perform (.observe k) = { g with lastSeqNum := k } := by
  simp [perform, observe, h, hk]

theorem perform_behind (h : g.hasLastSeqNum = true) (hk : k ≠ g.lastSeqNum + 1) (hlt : k < g.lastSeqNum + 1) :
    g.perform (.observe k) = g := by
  simp [perform, observe, h, hk, hlt]

theorem perform_ahead (h : Monitored.Ahead g k) : g.perform (.observe k) =
    { g with sequenceGapsTotal := g.sequenceGapsTotal + 1, state := .stale, lastSeqNum := k } := by
  simp [perform, observe, h.1, h.2.1, h.2.2]

end GapDetector

namespace Monitored
variable {ρ : Type} {s : Monitored ρ} {before : List Call} {c : Call} {done : List Field} {k : SeqNum}

/-! ### The writer -/

section Mid
variable {mem : Memory Field.Val} {calls : List Call}

theorem Mid.begin (h : ∀ x, (mem.current x).map (·.value) = some ((after calls).get x)) : Mid mem (calls ++ [c]) calls c [] :=
  ⟨rfl, fun x => by rw [if_neg List.not_mem_nil]; exact h x, fun x hx => absurd hx List.not_mem_nil⟩

theorem Mid.after_eq (h : Mid mem calls before c done) : after calls = (after before).perform c := by
  rw [h.eq, GapDetector.after_concat]

theorem Mid.current (h : Mid mem calls before c done) {x : Field} (hx : x ∉ done) :
    ∃ e, mem.current x = some e ∧ e.value = (after before).get x := by
  obtain ⟨e, he, hv⟩ := Option.map_eq_some_iff.1 (h.values x)
  exact ⟨e, he, hv.trans (if_neg hx)⟩

theorem Mid.store (h : Mid mem calls before c done) {x : Field} {e : Store Field.Val x}
    (hv : e.value = (after calls).get x) (hc : e.call = calls.length) :
    Mid (mem.store x e) calls before c (x :: done) := by
  refine ⟨h.eq, fun y => ?_, fun y hy => ?_⟩
  · by_cases hy : y = x
    · subst hy
      rw [Memory.current_store_self, Option.map_some, if_pos List.mem_cons_self, hv]
    · rw [Memory.current_store_of_ne hy, h.values y]
      simp only [List.mem_cons, hy, false_or]
  · by_cases hyx : y = x
    · subst hyx
      rw [Memory.current_store_self, Option.map_some, hc]
    · rw [Memory.current_store_of_ne hyx]
      exact h.labels y ((List.mem_cons.1 hy).resolve_left hyx)

theorem Mid.finish (h : Mid mem calls before c done)
    (hkeep : ∀ x ∉ done, ((after before).perform c).get x = (after before).get x) (x : Field) :
    (mem.current x).map (·.value) = some ((after calls).get x) := by
  rw [h.values x]
  split
  · rfl
  · next hx => rw [h.after_eq, hkeep x hx]

/-- A release store tells of the fields the call has done. -/
theorem Mid.carries (h : Mid mem calls before c done) {x : Field} (hx : x ∈ done) :
    ∃ e, (mem x)[mem.last x]? = some e ∧ calls.length ≤ e.call := by
  obtain ⟨e, he, hc⟩ := Option.map_eq_some_iff.1 (h.labels x hx)
  exact ⟨e, (Memory.getElem?_last mem x).trans he, hc.ge⟩

end Mid

theorem Stored.store (h : s.Stored) {x : Field} {e : Store Field.Val x} (hv : e.value = (after s.calls).get x)
    (hc : e.call = s.calls.length) (hcarried : ∀ y, e.carried y < (s.mem y).length)
    (htold : ∀ y, tells (NoResync s.calls) x e.value y → ∃ e', (s.mem y)[e.carried y]? = some e' ∧ e.call ≤ e'.call)
    (pc : WriterPc) : Stored { s with mem := s.mem.store x e, writer := pc } := by
  refine ⟨h.mem.store (fun e' he' => (h.values x e' he').1.trans hc.ge) hcarried, fun y e' he' => ?_,
    h.told.store htold, fun r => (h.readers r).store x e⟩
  rcases Memory.mem_store he' with he' | ⟨rfl, rfl⟩
  · exact h.values y e' he'
  · exact ⟨hc.le, by rw [hc, List.take_length]; exact hv⟩

theorem Stored.storeRelaxed (h : s.Stored) {x : Field} {v : x.Val} (hv : v = (after s.calls).get x)
    (htold : ∀ y, ¬ tells (NoResync s.calls) x v y) (pc : WriterPc) :
    Stored { s with mem := s.mem.storeRelaxed s.calls.length x v, writer := pc } :=
  h.store hv rfl h.mem.pos (fun y hy => absurd hy (htold y)) pc

theorem Stored.storeRelease (h : s.Stored) {x : Field} {v : x.Val} (hv : v = (after s.calls).get x)
    (htold : ∀ y, tells (NoResync s.calls) x v y → ∃ e', (s.mem y)[s.mem.last y]? = some e' ∧ s.calls.length ≤ e'.call)
    (pc : WriterPc) : Stored { s with mem := s.mem.storeRelease s.calls.length x v, writer := pc } :=
  h.store hv rfl h.mem.last_lt htold pc

theorem noResync_of_append {calls calls' : List Call} (h : NoResync (calls ++ calls')) : NoResync calls :=
  fun k hk => h k (List.mem_append_left _ hk)

theorem tells_mono {P Q : Prop} (h : P → Q) : ∀ x v y, tells P x v y → tells Q x v y := by
  intro x v y hy
  unfold tells at hy ⊢
  split at hy
  · exact h hy
  · trivial
  · exact hy.elim

theorem Stored.begin (h : s.Stored) (c : Call) (pc : WriterPc) :
    Stored { s with calls := s.calls ++ [c], writer := pc } := by
  have hmono := tells_mono fun h : NoResync (s.calls ++ [c]) => noResync_of_append h
  refine ⟨h.mem, fun x e he => ?_, h.told.mono hmono, fun r => (h.readers r).mono hmono⟩
  obtain ⟨hc, hv⟩ := h.values x e he
  refine ⟨hc.trans ?_, ?_⟩
  · rw [List.length_append]
    exact Nat.le_add_right _ _
  · rw [List.take_append_of_le_length hc]
    exact hv

theorem not_tells_lastSeqNum {P : Prop} {v : SeqNum} (y : Field) : ¬ tells P .lastSeqNum v y := id

theorem not_tells_sequenceGapsTotal {P : Prop} {v : UInt64} (y : Field) : ¬ tells P .sequenceGapsTotal v y := id

theorem tells_hasLastSeqNum {P : Prop} {y : Field} (h : tells P .hasLastSeqNum true y) : P ∧ y = .lastSeqNum := by
  cases y
  case lastSeqNum => exact ⟨h, rfl⟩
  all_goals exact h.elim

theorem tells_state {P : Prop} {b : BookState} {y : Field} (h : tells P .state b y) :
    b = .stale ∧ y = .sequenceGapsTotal := by
  cases b
  case stale =>
    cases y
    case sequenceGapsTotal => exact ⟨rfl, rfl⟩
    all_goals exact h.elim
  case live => exact h.elim

/-- The writer's part of the invariant. -/
def Writing (s : Monitored ρ) : Prop := WriterOk s.mem s.calls s.writer ∧ s.Stored

theorem Writing.first (h : s.Writing) (hpc : s.writer = .storeFirst k) :
    Writing { s with mem := s.mem.storeRelaxed s.calls.length .lastSeqNum k, writer := .storeHas k } := by
  obtain ⟨hw, hs⟩ := h
  rw [hpc] at hw
  obtain ⟨cs, hmid, hhas⟩ := hw
  have hv : k = (after s.calls).get .lastSeqNum := by
    rw [hmid.after_eq, GapDetector.perform_first hhas]
    rfl
  exact ⟨⟨cs, hmid.store hv rfl, hhas⟩, hs.storeRelaxed hv not_tells_lastSeqNum _⟩

theorem Writing.has (h : s.Writing) (hpc : s.writer = .storeHas k) :
    Writing { s with mem := s.mem.storeRelease s.calls.length .hasLastSeqNum true, writer := .idle } := by
  obtain ⟨hw, hs⟩ := h
  rw [hpc] at hw
  obtain ⟨cs, hmid, hhas⟩ := hw
  have hv : true = (after s.calls).get .hasLastSeqNum := by
    rw [hmid.after_eq, GapDetector.perform_first hhas]
    rfl
  refine ⟨(hmid.store hv rfl).finish fun x hx => ?_, hs.storeRelease hv (fun y hy => ?_) _⟩
  · rw [GapDetector.perform_first hhas]
    cases x <;> simp_all [GapDetector.get]
  · rw [(tells_hasLastSeqNum hy).2]
    exact hmid.carries List.mem_cons_self

theorem Writing.next (h : s.Writing) (hpc : s.writer = .storeNext k) :
    Writing { s with mem := s.mem.storeRelaxed s.calls.length .lastSeqNum k, writer := .idle } := by
  obtain ⟨hw, hs⟩ := h
  rw [hpc] at hw
  obtain ⟨cs, hmid, hhas, hk⟩ := hw
  have hv : k = (after s.calls).get .lastSeqNum := by
    rw [hmid.after_eq, GapDetector.perform_next hhas hk]
    rfl
  refine ⟨(hmid.store hv rfl).finish fun x hx => ?_, hs.storeRelaxed hv not_tells_lastSeqNum _⟩
  rw [GapDetector.perform_next hhas hk]
  cases x <;> simp_all [GapDetector.get]

theorem Writing.gap (h : s.Writing) (hpc : s.writer = .addGap k) :
    Writing { s with mem := s.mem.modify s.calls.length .sequenceGapsTotal fun (n : UInt64) => n + 1, writer := .storeStale k } := by
  obtain ⟨hw, hs⟩ := h
  rw [hpc] at hw
  obtain ⟨cs, hmid, hahead⟩ := hw
  obtain ⟨e, he, hev⟩ := hmid.current (x := .sequenceGapsTotal) List.not_mem_nil
  have hv : (e.value : UInt64) + 1 = (after s.calls).get .sequenceGapsTotal := by
    rw [hmid.after_eq, GapDetector.perform_ahead hahead, hev]
    rfl
  have hmod : s.mem.modify s.calls.length .sequenceGapsTotal (fun (n : UInt64) => n + 1) =
      s.mem.store .sequenceGapsTotal { value := (e.value : UInt64) + 1, call := s.calls.length, carried := e.carried } := by
    unfold Memory.modify
    rw [he]
  have hcarried := hs.mem.carried _ e (List.mem_of_getLast? he)
  rw [hmod]
  refine ⟨⟨cs, hmid.store hv rfl, hahead⟩, hs.store hv rfl ?_ ?_ _⟩
  · exact hcarried
  · exact fun y hy => absurd hy (not_tells_sequenceGapsTotal y)

theorem Writing.stale (h : s.Writing) (hpc : s.writer = .storeStale k) :
    Writing { s with mem := s.mem.storeRelease s.calls.length .state .stale, writer := .storeLast k } := by
  obtain ⟨hw, hs⟩ := h
  rw [hpc] at hw
  obtain ⟨cs, hmid, hahead⟩ := hw
  have hv : BookState.stale = (after s.calls).get .state := by
    rw [hmid.after_eq, GapDetector.perform_ahead hahead]
    rfl
  refine ⟨⟨cs, hmid.store hv rfl, hahead⟩, hs.storeRelease hv (fun y hy => ?_) _⟩
  rw [(tells_state hy).2]
  exact hmid.carries List.mem_cons_self

theorem Writing.last (h : s.Writing) (hpc : s.writer = .storeLast k) :
    Writing { s with mem := s.mem.storeRelaxed s.calls.length .lastSeqNum k, writer := .idle } := by
  obtain ⟨hw, hs⟩ := h
  rw [hpc] at hw
  obtain ⟨cs, hmid, hahead⟩ := hw
  have hv : k = (after s.calls).get .lastSeqNum := by
    rw [hmid.after_eq, GapDetector.perform_ahead hahead]
    rfl
  refine ⟨(hmid.store hv rfl).finish fun x hx => ?_, hs.storeRelaxed hv not_tells_lastSeqNum _⟩
  rw [GapDetector.perform_ahead hahead]
  cases x <;> simp_all [GapDetector.get]

theorem Writing.resyncLast (h : s.Writing) (hpc : s.writer = .resyncLast k) :
    Writing { s with mem := s.mem.storeRelaxed s.calls.length .lastSeqNum k, writer := .resyncHas k } := by
  obtain ⟨hw, hs⟩ := h
  rw [hpc] at hw
  obtain ⟨cs, hmid⟩ := hw
  have hv : k = (after s.calls).get .lastSeqNum := by
    rw [hmid.after_eq]
    rfl
  exact ⟨⟨cs, hmid.store hv rfl⟩, hs.storeRelaxed hv not_tells_lastSeqNum _⟩

/-- The store of `resync()` to `has_last_seq_num_` carries nothing. -/
theorem Writing.resyncHas (h : s.Writing) (hpc : s.writer = .resyncHas k) :
    Writing { s with mem := s.mem.storeRelaxed s.calls.length .hasLastSeqNum true, writer := .resyncLive k } := by
  obtain ⟨hw, hs⟩ := h
  rw [hpc] at hw
  obtain ⟨cs, hmid⟩ := hw
  have hv : true = (after s.calls).get .hasLastSeqNum := by
    rw [hmid.after_eq]
    rfl
  refine ⟨⟨cs, hmid.store hv rfl⟩, hs.storeRelaxed hv (fun y hy => ?_) _⟩
  refine (tells_hasLastSeqNum hy).1 k ?_
  rw [hmid.eq]
  exact List.mem_concat_self

theorem Writing.resyncLive (h : s.Writing) (hpc : s.writer = .resyncLive k) :
    Writing { s with mem := s.mem.storeRelease s.calls.length .state .live, writer := .idle } := by
  obtain ⟨hw, hs⟩ := h
  rw [hpc] at hw
  obtain ⟨cs, hmid⟩ := hw
  have hv : BookState.live = (after s.calls).get .state := by
    rw [hmid.after_eq]
    rfl
  refine ⟨(hmid.store hv rfl).finish fun x hx => ?_, hs.storeRelease hv (fun y hy => ?_) _⟩
  · cases x <;> simp_all [GapDetector.get, GapDetector.perform, GapDetector.resync]
  · cases (tells_state hy).1

theorem Stored.move (h : s.Stored) (pc : WriterPc) : Stored { s with writer := pc } :=
  ⟨h.mem, h.values, h.told, h.readers⟩

theorem Writing.loadHas (h : s.Writing) (hpc : s.writer = .loadHas k) {e : Store Field.Val .hasLastSeqNum}
    (he : s.mem.current .hasLastSeqNum = some e) :
    Writing { s with writer := if e.value then .loadLast k else .storeFirst k } := by
  obtain ⟨hw, hs⟩ := h
  rw [hpc] at hw
  obtain ⟨cs, hmid⟩ := hw
  have hv : e.value = (after cs).hasLastSeqNum := by
    simpa [he, GapDetector.get] using hmid.values .hasLastSeqNum
  rw [hv]
  split
  · next hb => exact ⟨⟨cs, hmid, hb⟩, hs.move _⟩
  · next hb => exact ⟨⟨cs, hmid, Bool.eq_false_iff.2 hb⟩, hs.move _⟩

theorem Writing.loadLast (h : s.Writing) (hpc : s.writer = .loadLast k) {e : Store Field.Val .lastSeqNum}
    (he : s.mem.current .lastSeqNum = some e) :
    Writing { s with writer :=
      if k = (e.value : SeqNum) + 1 then .storeNext k else if k < (e.value : SeqNum) + 1 then .idle else .addGap k } := by
  obtain ⟨hw, hs⟩ := h
  rw [hpc] at hw
  obtain ⟨cs, hmid, hhas⟩ := hw
  have hv : e.value = (after cs).lastSeqNum := by
    simpa [he, GapDetector.get] using hmid.values .lastSeqNum
  rw [hv]
  split
  · next hk => exact ⟨⟨cs, hmid, hhas, hk⟩, hs.move _⟩
  · next hk =>
    split
    · next hlt =>
      refine ⟨hmid.finish fun x _ => ?_, hs.move _⟩
      rw [GapDetector.perform_behind hhas hk hlt]
    · next hlt => exact ⟨⟨cs, hmid, hhas, hk, hlt⟩, hs.move _⟩

theorem Writing.writerStep {s' : Monitored ρ} (h : s.Writing) (hstep : s.writerStep = some s') : s'.Writing := by
  unfold Monitored.writerStep at hstep
  cases hpc : s.writer with
  | idle => simp [hpc] at hstep
  | loadHas k =>
    simp only [hpc, Option.map_eq_some_iff] at hstep
    obtain ⟨e, he, rfl⟩ := hstep
    exact h.loadHas hpc he
  | storeFirst k =>
    simp only [hpc, Option.some.injEq] at hstep
    exact hstep ▸ h.first hpc
  | storeHas k =>
    simp only [hpc, Option.some.injEq] at hstep
    exact hstep ▸ h.has hpc
  | loadLast k =>
    simp only [hpc, Option.map_eq_some_iff] at hstep
    obtain ⟨e, he, rfl⟩ := hstep
    exact h.loadLast hpc he
  | storeNext k =>
    simp only [hpc, Option.some.injEq] at hstep
    exact hstep ▸ h.next hpc
  | addGap k =>
    simp only [hpc, Option.some.injEq] at hstep
    exact hstep ▸ h.gap hpc
  | storeStale k =>
    simp only [hpc, Option.some.injEq] at hstep
    exact hstep ▸ h.stale hpc
  | storeLast k =>
    simp only [hpc, Option.some.injEq] at hstep
    exact hstep ▸ h.last hpc
  | resyncLast k =>
    simp only [hpc, Option.some.injEq] at hstep
    exact hstep ▸ h.resyncLast hpc
  | resyncHas k =>
    simp only [hpc, Option.some.injEq] at hstep
    exact hstep ▸ h.resyncHas hpc
  | resyncLive k =>
    simp only [hpc, Option.some.injEq] at hstep
    exact hstep ▸ h.resyncLive hpc

theorem writerStep_frame {s' : Monitored ρ} (hstep : s.writerStep = some s') :
    s'.readers = s.readers ∧ s'.calls = s.calls ∧ s'.pending = s.pending ∧ s'.answers = s.answers := by
  unfold Monitored.writerStep at hstep
  cases hpc : s.writer with
  | idle => simp [hpc] at hstep
  | loadHas k | loadLast k =>
    simp only [hpc, Option.map_eq_some_iff] at hstep
    obtain ⟨e, -, rfl⟩ := hstep
    exact ⟨rfl, rfl, rfl, rfl⟩
  | storeFirst k | storeHas k | storeNext k | addGap k | storeStale k | storeLast k | resyncLast k | resyncHas k | resyncLive k =>
    simp only [hpc, Option.some.injEq] at hstep
    subst hstep
    exact ⟨rfl, rfl, rfl, rfl⟩

theorem Writing.call {s' : Monitored ρ} (h : s.Writing) (hstep : s.call c = some s') : s'.Writing := by
  unfold Monitored.call at hstep
  split at hstep
  · next hidle =>
    obtain ⟨hw, hs⟩ := h
    rw [hidle] at hw
    cases hstep
    refine ⟨?_, hs.begin c _⟩
    cases c with
    | observe k => exact ⟨s.calls, Mid.begin hw⟩
    | resync k => exact ⟨s.calls, Mid.begin hw⟩
  · cases hstep

/-! ### The monitors -/

section Readers
variable {r : ρ}

/-- A monitor that found `has_last_seq_num_` set found it set by a call. -/
theorem Stored.call_pos (h : s.Stored) {n : Nat} (hl : (⟨.hasLastSeqNum, true, n⟩ : Load Field.Val) ∈ (s.readers r).loads) :
    0 < n := by
  obtain ⟨e, he, hv, hc⟩ := (h.readers r).found _ hl
  obtain ⟨-, hval⟩ := h.values _ e he
  rcases Nat.eq_zero_or_pos n with rfl | hpos
  · rw [hc] at hval
    rw [hval] at hv
    cases hv
  · exact hpos

/-- The number is loaded after `has_last_seq_num_` was found set: it is not the placeholder. -/
theorem Inv.number_pos (h : s.Inv) (hp : s.pending r = true) {k : SeqNum} {n : Nat} {ls : List (Load Field.Val)}
    (hls : (s.readers r).loads = ls ++ [⟨.lastSeqNum, k, n⟩]) (hq : NoResync s.calls) : 0 < n := by
  obtain ⟨c, hc⟩ := (h.answered r).pending hp
  have hord := (h.stored.readers r).ordered
  rw [hls] at hord hc
  have hmem : (⟨.hasLastSeqNum, true, c⟩ : Load Field.Val) ∈ ls := by
    simpa using hc
  have hle : c ≤ n := (List.pairwise_append.1 hord).2.2 _ hmem _ (List.mem_singleton.2 rfl) (.inr ⟨rfl, hq⟩)
  exact (h.stored.call_pos (hls ▸ List.mem_append_left _ hmem)).trans_le hle

theorem Answered.of_subset {s' : Monitored ρ} (h : s.Answered r)
    (hloads : (s.readers r).loads ⊆ (s'.readers r).loads) (hcalls : NoResync s'.calls → NoResync s.calls)
    (hpending : s'.pending r = s.pending r) (hanswers : s'.answers r = s.answers r) : s'.Answered r := by
  refine ⟨fun hp => ?_, fun k hk => ?_⟩
  · obtain ⟨n, hn⟩ := h.pending (hpending ▸ hp)
    exact ⟨n, hloads hn⟩
  · obtain ⟨n, hn, hpos⟩ := h.answers k (hanswers ▸ hk)
    exact ⟨n, hloads hn, fun hq => hpos (hcalls hq)⟩

theorem Inv.init : Inv ({} : Monitored ρ) := by
  have hmem : (Memory.initial ({} : GapDetector).get).Ok := by
    refine ⟨fun x => Nat.one_pos, fun x => List.pairwise_singleton _ _, fun x e he y => ?_⟩
    rw [List.mem_singleton.1 he]
    exact Nat.one_pos
  refine ⟨fun x => rfl, ⟨hmem, fun x e he => ?_, fun x e he y ht => ?_, fun r => Reader.Ok.init hmem⟩, fun r => ?_⟩
  · rw [List.mem_singleton.1 he]
    exact ⟨le_rfl, rfl⟩
  · rw [List.mem_singleton.1 he] at ht ⊢
    exact ⟨_, rfl, le_rfl⟩
  · exact ⟨fun hp => (Bool.false_ne_true hp).elim, fun k hk => absurd hk List.not_mem_nil⟩

variable [DecidableEq ρ] {x : Field} {i : Nat} {v : x.Val} {s' : Monitored ρ}

theorem Stored.load (h : s.Stored) (hl : s.load r x i = some (v, s')) :
    ∃ r' n, s' = { s with readers := Function.update s.readers r r' } ∧
      r'.loads = (s.readers r).loads ++ [⟨x, v, n⟩] ∧ s'.Stored := by
  obtain ⟨l, hload, heq⟩ := Option.map_eq_some_iff.1 hl
  cases heq
  have hok := (h.readers r).load h.mem h.told hload
  obtain ⟨n, hn⟩ : ∃ n, l.2.loads = (s.readers r).loads ++ [⟨x, l.1, n⟩] := by
    obtain ⟨e, -, rfl⟩ := Option.map_eq_some_iff.1 hload
    exact ⟨e.call, rfl⟩
  refine ⟨l.2, n, rfl, hn, h.mem, h.values, h.told, fun r' => ?_⟩
  dsimp only
  by_cases hr : r' = r
  · subst hr
    rw [Function.update_self]
    exact hok
  · rw [Function.update_of_ne hr]
    exact h.readers r'

theorem Inv.load (h : s.Inv) (hl : s.load r x i = some (v, s')) :
    s'.Inv ∧ s'.pending = s.pending ∧ s'.answers = s.answers ∧ s'.calls = s.calls ∧
      ∃ n, (s'.readers r).loads = (s.readers r).loads ++ [⟨x, v, n⟩] := by
  obtain ⟨r', n, rfl, hn, hs⟩ := h.stored.load hl
  have hself : (Function.update s.readers r r' r).loads = (s.readers r).loads ++ [⟨x, v, n⟩] := by
    rw [Function.update_self, hn]
  refine ⟨⟨?_, hs, fun q => (h.answered q).of_subset ?_ id rfl rfl⟩, rfl, rfl, rfl, n, hself⟩
  · exact h.writer
  · dsimp only
    by_cases hq : q = r
    · subst hq
      rw [hself]
      exact List.subset_append_left _ _
    · rw [Function.update_of_ne hq]
      exact List.Subset.refl _

theorem Inv.answer (h : s.Inv) {k : Option SeqNum} (hk : ∀ n, k = some n →
    ∃ c, (⟨.lastSeqNum, n, c⟩ : Load Field.Val) ∈ (s.readers r).loads ∧ (NoResync s.calls → 0 < c)) : (s.answer r k).Inv := by
  refine ⟨h.writer, ⟨h.stored.mem, h.stored.values, h.stored.told, h.stored.readers⟩, fun q => ?_⟩
  by_cases hq : q = r
  · subst hq
    refine ⟨fun hp => ?_, fun n hn => ?_⟩
    · simp [Monitored.answer] at hp
    · simp only [Monitored.answer, Function.update_self, List.mem_append, List.mem_singleton] at hn
      rcases hn with hn | hn
      · exact (h.answered q).answers n hn
      · exact hk n hn.symm
  · exact (h.answered q).of_subset (List.Subset.refl _) id (Function.update_of_ne hq _ _) (Function.update_of_ne hq _ _)

theorem Inv.await (h : s.Inv) {n : Nat} (hn : (⟨.hasLastSeqNum, true, n⟩ : Load Field.Val) ∈ (s.readers r).loads) :
    Inv { s with pending := Function.update s.pending r true } := by
  refine ⟨h.writer, ⟨h.stored.mem, h.stored.values, h.stored.told, h.stored.readers⟩, fun q => ?_⟩
  by_cases hq : q = r
  · subst hq
    exact ⟨fun _ => ⟨n, hn⟩, (h.answered q).answers⟩
  · exact (h.answered q).of_subset (List.Subset.refl _) id (Function.update_of_ne hq _ _) rfl

theorem Inv.step {e : Event ρ} (h : s.Inv) (hstep : s.step e = some s') : s'.Inv := by
  cases e with
  | call c =>
    obtain ⟨hw, hs⟩ := Writing.call ⟨h.writer, h.stored⟩ hstep
    refine ⟨hw, hs, fun r => ?_⟩
    simp only [Monitored.step, Monitored.call] at hstep
    split at hstep
    · cases hstep
      exact (h.answered r).of_subset (List.Subset.refl _) noResync_of_append rfl rfl
    · cases hstep
  | writer =>
    obtain ⟨hw, hs⟩ := Writing.writerStep ⟨h.writer, h.stored⟩ hstep
    obtain ⟨hr, hc, hp, ha⟩ := writerStep_frame hstep
    exact ⟨hw, hs, fun r => (h.answered r).of_subset (hr ▸ List.Subset.refl _) (fun hq => hc ▸ hq) (hp ▸ rfl) (ha ▸ rfl)⟩
  | state r i | sequenceGapsTotal r i =>
    simp only [Monitored.step] at hstep
    split at hstep
    · cases hstep
    · obtain ⟨⟨v, t⟩, hl, rfl⟩ := Option.map_eq_some_iff.1 hstep
      exact (h.load hl).1
  | lastSeqNum r i =>
    simp only [Monitored.step] at hstep
    split at hstep
    · cases hstep
    · obtain ⟨⟨v, t⟩, hl, rfl⟩ := Option.map_eq_some_iff.1 hstep
      obtain ⟨hinv, -, -, -, n, hn⟩ := h.load hl
      dsimp only
      split
      · next hv =>
        subst hv
        exact hinv.await (hn ▸ List.mem_concat_self)
      · exact hinv.answer fun n hn => by cases hn
  | lastSeqNumValue r i =>
    simp only [Monitored.step] at hstep
    split at hstep
    · next hp =>
      obtain ⟨⟨v, t⟩, hl, rfl⟩ := Option.map_eq_some_iff.1 hstep
      obtain ⟨hinv, hpend, -, -, n, hn⟩ := h.load hl
      refine hinv.answer fun m hm => ⟨n, ?_, ?_⟩
      · cases hm
        rw [hn]
        exact List.mem_concat_self
      · exact hinv.number_pos (hpend ▸ hp) hn
    · cases hstep

theorem inv_of_run {es : List (Event ρ)} (hrun : Runs.exec Monitored.step {} es = some s) : s.Inv :=
  Runs.invariant (fun _ _ _ h hs => h.step hs) Inv.init hrun

end Readers

end Monitored

/-! ### What the calls leave -/

namespace GapDetector

theorem results_isPrefix (cs ds : List Call) : (runCalls cs).2 <+: (runCalls (cs ++ ds)).2 := by
  induction ds using List.reverseRecOn with
  | nil => rw [List.append_nil]
  | append_singleton ds d ih =>
    rw [← List.append_assoc]
    cases d with
    | observe k =>
      rw [runCalls_observe]
      exact ih.trans (List.prefix_append _ _)
    | resync k =>
      rw [runCalls_resync]
      exact ih

theorem length_results_le (cs : List Call) : (runCalls cs).2.length ≤ cs.length := by
  induction cs using List.reverseRecOn with
  | nil => exact le_rfl
  | append_singleton cs c ih =>
    rw [List.length_append, List.length_singleton]
    cases c with
    | observe k =>
      rw [runCalls_observe, List.length_append, List.length_singleton]
      exact Nat.succ_le_succ ih
    | resync k =>
      rw [runCalls_resync]
      exact ih.trans (Nat.le_succ _)

/-- A gap that made the detector stale stays counted, as long as the counter does not wrap. -/
theorem gaps_pos_of_stale {cs ds : List Call} (hst : (after cs).state = .stale) (hlen : (cs ++ ds).length < 2 ^ 64) :
    0 < (after (cs ++ ds)).sequenceGapsTotal.toNat := by
  obtain ⟨pre, k, post, rfl, -, hgap⟩ := (stale_iff cs).1 hst
  have hmem : SequenceObservation.gap ∈ (runCalls (pre ++ [.observe k])).2 := by
    rw [runCalls_observe, hgap]
    exact List.mem_concat_self
  have hall := results_isPrefix (pre ++ [.observe k]) (post ++ ds)
  rw [← List.append_assoc, List.append_assoc pre, List.singleton_append] at hall
  have hpos := List.count_pos_iff.2 (hall.subset hmem)
  have hle := (List.count_le_length (a := SequenceObservation.gap)).trans (length_results_le (pre ++ .observe k :: post ++ ds))
  rw [after, gaps_eq, UInt64.toNat_ofNat', Nat.mod_eq_of_lt (by omega)]
  exact hpos

theorem after_lastSeqNum {cs : List Call} (h : Monitored.NoResync cs) :
    ((after cs).hasLastSeqNum = true → .observe (after cs).lastSeqNum ∈ cs) ∧ (cs ≠ [] → (after cs).hasLastSeqNum = true) := by
  induction cs using List.reverseRecOn with
  | nil => exact ⟨fun h => Bool.noConfusion h, fun h => absurd rfl h⟩
  | append_singleton cs c ih =>
    obtain ⟨hmem, -⟩ := ih (Monitored.noResync_of_append h)
    rw [after_concat]
    cases c with
    | resync k => exact absurd List.mem_concat_self (h k)
    | observe k =>
      rcases (after cs).observe_cases k with ⟨-, ho⟩ | ⟨hhas, ⟨-, ho⟩ | ⟨-, ho⟩ | ⟨-, ho⟩⟩
      · rw [perform, ho]
        exact ⟨fun _ => List.mem_concat_self, fun _ => rfl⟩
      · rw [perform, ho]
        exact ⟨fun _ => List.mem_concat_self, fun _ => hhas⟩
      · rw [perform, ho]
        exact ⟨fun _ => List.mem_append_left _ (hmem hhas), fun _ => hhas⟩
      · rw [perform, ho]
        exact ⟨fun _ => List.mem_concat_self, fun _ => hhas⟩

theorem stale_after_append {cs ds : List Call} (h : Monitored.NoResync (cs ++ ds)) (hst : (after cs).state = .stale) :
    (after (cs ++ ds)).state = .stale := by
  induction ds using List.reverseRecOn with
  | nil => rwa [List.append_nil]
  | append_singleton ds d ih =>
    rw [← List.append_assoc] at h ⊢
    rw [after_concat]
    cases d with
    | resync k => exact absurd List.mem_concat_self (h k)
    | observe k => exact stale_observe (ih (Monitored.noResync_of_append h)) k

end GapDetector

namespace Monitored
variable {ρ : Type} {s : Monitored ρ} {r : ρ}

theorem Inv.load_value (h : s.Inv) {l : Load Field.Val} (hl : l ∈ (s.readers r).loads) :
    l.call ≤ s.calls.length ∧ l.value = (after (s.calls.take l.call)).get l.loc := by
  obtain ⟨e, he, hv, hc⟩ := (h.stored.readers r).found l hl
  obtain ⟨hle, hval⟩ := h.stored.values _ e he
  exact ⟨hc ▸ hle, by rw [← hv, hval, hc]⟩

theorem take_of_le (cs : List Call) {n m : Nat} (h : n ≤ m) : ∃ ds, cs.take m = cs.take n ++ ds := by
  obtain ⟨d, rfl⟩ := Nat.exists_eq_add_of_le h
  exact ⟨_, List.take_add⟩

theorem Inv.gaps_pos (h : s.Inv) (hlen : s.calls.length < 2 ^ 64) {n m : Nat} {total : UInt64} (hnm : n ≤ m)
    (hl : (⟨.state, .stale, n⟩ : Load Field.Val) ∈ (s.readers r).loads)
    (hl' : (⟨.sequenceGapsTotal, total, m⟩ : Load Field.Val) ∈ (s.readers r).loads) : 0 < total := by
  obtain ⟨-, hstale⟩ := h.load_value hl
  obtain ⟨-, htotal⟩ := h.load_value hl'
  obtain ⟨ds, hds⟩ := take_of_le s.calls hnm
  have hshort : (s.calls.take n ++ ds).length < 2 ^ 64 := hds ▸ (List.length_take_le' _ _).trans_lt hlen
  rw [UInt64.lt_iff_toNat_lt, show total = (after (s.calls.take m)).sequenceGapsTotal from htotal, hds]
  exact GapDetector.gaps_pos_of_stale hstale.symm hshort

/-- Monitors of a detector, whatever stores their loads find: each load finds what the detector holds after
some of the calls; the loads of one field never go back; a count read after a `Stale` has that gap in it; and
if nobody resyncs, `Stale` is not taken back and `last_seq_num()` returns a number that was observed. -/
theorem polls_consistent [DecidableEq ρ] {es : List (Event ρ)} (hrun : Runs.exec Monitored.step {} es = some s) (r : ρ) :
    (∀ l ∈ (s.readers r).loads, l.call ≤ s.calls.length ∧ l.value = (after (s.calls.take l.call)).get l.loc) ∧
    ((s.readers r).loads.Pairwise fun l l' => l'.loc = l.loc → l.call ≤ l'.call) ∧
    ((s.readers r).loads.Pairwise fun l l' => ∀ n m total, l = ⟨.state, .stale, n⟩ → l' = ⟨.sequenceGapsTotal, total, m⟩ →
      n ≤ m ∧ (s.calls.length < 2 ^ 64 → 0 < total)) ∧
    (NoResync s.calls → ((s.readers r).loads.Pairwise fun l l' => ∀ n m b, l = ⟨.state, .stale, n⟩ →
      l' = ⟨.state, b, m⟩ → b = .stale) ∧ ∀ k, some k ∈ s.answers r → .observe k ∈ s.calls) := by
  have hinv := inv_of_run hrun
  have hord := (hinv.stored.readers r).ordered
  refine ⟨fun l hl => hinv.load_value hl, hord.imp fun h heq => h (.inl heq), ?_, fun hq => ⟨?_, fun k hk => ?_⟩⟩
  · refine hord.imp_of_mem ?_
    rintro l l' hl hl' h n m total rfl rfl
    have hnm : n ≤ m := h (.inr ⟨rfl, trivial⟩)
    exact ⟨hnm, fun hlen => hinv.gaps_pos hlen hnm hl hl'⟩
  · refine hord.imp_of_mem ?_
    rintro l l' hl hl' h n m b rfl rfl
    obtain ⟨ds, hds⟩ := take_of_le s.calls (h (.inl rfl) : n ≤ m)
    obtain ⟨-, hn⟩ := hinv.load_value hl
    obtain ⟨-, hm⟩ := hinv.load_value hl'
    have hquiet : NoResync (s.calls.take n ++ ds) := fun k hk => hq k (List.mem_of_mem_take (hds ▸ hk))
    rw [show b = (after (s.calls.take m)).state from hm, hds]
    exact GapDetector.stale_after_append hquiet hn.symm
  · obtain ⟨n, hl, hpos⟩ := (hinv.answered r).answers k hk
    obtain ⟨hle, hval⟩ := hinv.load_value hl
    have hquiet : NoResync (s.calls.take n) := fun k hk => hq k (List.mem_of_mem_take hk)
    have hne : s.calls.take n ≠ [] := by
      rw [← List.length_pos_iff, List.length_take]
      exact lt_min (hpos hq) ((hpos hq).trans_le hle)
    obtain ⟨hmem, hhas⟩ := GapDetector.after_lastSeqNum hquiet
    rw [show k = (after (s.calls.take n)).lastSeqNum from hval]
    exact List.mem_of_mem_take (hmem (hhas hne))

/-- A monitor polls in the middle of the call that finds a gap. -/
def gapRun : List (Event Unit) :=
  [.call (.observe 1), .writer, .writer, .writer, .call (.observe 5), .writer, .writer, .writer, .writer,
    .state () 1, .sequenceGapsTotal () 1, .lastSeqNum () 1, .lastSeqNumValue () 1, .writer]

theorem polls_consistent_gap : ∃ s, Runs.exec Monitored.step ({} : Monitored Unit) gapRun = some s ∧
    s.answers () = [some 1] ∧ Call.observe 1 ∈ s.calls ∧
    (s.readers ()).loads.Pairwise fun l l' => ∀ n m total, l = ⟨.state, .stale, n⟩ → l' = ⟨.sequenceGapsTotal, total, m⟩ →
      n ≤ m ∧ (s.calls.length < 2 ^ 64 → 0 < total) := by
  obtain ⟨s, hs⟩ : ∃ s, Runs.exec Monitored.step ({} : Monitored Unit) gapRun = some s :=
    Option.isSome_iff_exists.1 (by decide +kernel)
  have hanswers : (Runs.exec Monitored.step ({} : Monitored Unit) gapRun).map (·.answers ()) = some [some 1] := by
    decide +kernel
  have hcalls : (Runs.exec Monitored.step ({} : Monitored Unit) gapRun).map (·.calls) = some [.observe 1, .observe 5] := by
    decide +kernel
  rw [hs, Option.map_some, Option.some.injEq] at hanswers hcalls
  have hquiet : NoResync s.calls := fun k hk => by simp [hcalls] at hk
  obtain ⟨-, -, hcount, hpolls⟩ := polls_consistent hs ()
  exact ⟨s, hs, hanswers, (hpolls hquiet).2 1 (by rw [hanswers]; exact List.mem_singleton.2 rfl), hcount⟩

/-- The store of `resync()` to `has_last_seq_num_` does not carry the number before it. -/
example : (Runs.exec Monitored.step ({} : Monitored Unit) [.call (.resync 7), .writer, .writer, .writer,
    .lastSeqNum () 1, .lastSeqNumValue () 0]).map (·.answers ()) = some [some 0] := by decide +kernel

end Monitored

end Mdfh
