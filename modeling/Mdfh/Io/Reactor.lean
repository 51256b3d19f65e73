import Mdfh.Lib.Resumption
import Mdfh.Lib.Runs
import Mdfh.Lib.LittleEndian
import Mathlib.Data.List.MinMax

/-!
# The coroutine scheduler (`io/async_network_reader.hpp`)

A coroutine runs eagerly up to its first `co_await WaitFor{...}`, which schedules its handle, and each
resume runs it to its next one or to its end, where the frame is destroyed. Between suspension points it
is arbitrary code: what it does next depends on an `ω` it sees when it is resumed (a stop flag, a packet).
Handles number the frames in the order of their start; a `done` frame is destroyed, and to resume it is no
step at all.

One turn of the loop in `run_until` is one step. Its `Turn` fixes what the loop does not: which of the
greatest entries `pending_.top()` is, the answer of `should_stop`, the readings of the clock, and what the
coroutine sees. Times are the `int64` nanoseconds of the steady clock, in which `now() + delay` may overflow
(the sum wraps here); `due` is that sum as a number. `Reactor` keeps the frames and the clock beside the
queue, and the entries scheduled and resumed so far.
-/

namespace Mdfh

open LittleEndian (Bytes)

/-- `co_await WaitFor{reactor, delay}`, the delay in microseconds. -/
structure WaitFor where
  delay : Int64
deriving DecidableEq, Repr

/-- A coroutine at its next suspension point. -/
abbrev Coroutine (ω : Type) := Resumption WaitFor ω

structure ScheduledResume where
  when : Int64
  handle : Nat
  due : Int  -- history
deriving DecidableEq, Repr

/-- `operator<`: the later one is less. -/
def ScheduledResume.less (a b : ScheduledResume) : Prop := a.when > b.when

instance : DecidableRel ScheduledResume.less := fun a b => inferInstanceAs (Decidable (a.when > b.when))

/-- The time asked for is one the clock can show. -/
def ScheduledResume.Fits (e : ScheduledResume) : Prop := -2 ^ 63 ≤ e.due ∧ e.due < 2 ^ 63

structure Reactor (ω : Type) where
  pending : List ScheduledResume := []
  frames : List (Coroutine ω) := []
  clock : Int64
  scheduled : List ScheduledResume := []
  resumed : List ScheduledResume := []

/-- What is open in one turn of the loop. -/
structure Turn (ω : Type) where
  pick : Nat  -- the place of `pending_.top()`
  stop : Bool  -- the answer of `should_stop`
  now : Int64  -- the clock after it
  resumed : Int64  -- the clock at `next.handle.resume()`
  saw : ω
  suspended : Int64  -- the clock at the next `await_suspend`
deriving DecidableEq, Repr

variable {ω : Type}

namespace Reactor

def schedule (s : Reactor ω) (when : Int64) (handle : Nat) (due : Int) : Reactor ω :=
  { s with pending := s.pending ++ [⟨when, handle, due⟩], scheduled := s.scheduled ++ [⟨when, handle, due⟩] }

/-- `WaitFor::await_suspend`. -/
def awaitSuspend (s : Reactor ω) (w : WaitFor) (handle : Nat) : Reactor ω :=
  s.schedule (s.clock + 1000 * w.delay) handle (s.clock.toInt + 1000 * w.delay.toInt)

/-- The running frame comes to `c`. -/
def reach (s : Reactor ω) (handle : Nat) : Coroutine ω → Reactor ω
  | .done => s
  | .suspend w _ => s.awaitSuspend w handle

/-- A call of a coroutine function; `now` is the clock at its first `await_suspend`. -/
def start (s : Reactor ω) (c : Coroutine ω) (now : Int64) : Reactor ω :=
  { s with frames := s.frames ++ [c], clock := now }.reach s.frames.length c

/-- The coroutines of `cs` are started one after the other on a new reactor. -/
def started (clock : Int64) (cs : List (Coroutine ω × Int64)) : Reactor ω :=
  cs.foldl (fun s c => s.start c.1 c.2) { clock := clock }

/-- The handle of `next` is taken from the queue and resumed, and its frame comes to `c`. -/
def resume (s : Reactor ω) (t : Turn ω) (next : ScheduledResume) (c : Coroutine ω) : Reactor ω :=
  { s with
    pending := s.pending.eraseIdx t.pick, frames := s.frames.set next.handle c, clock := t.suspended
    resumed := s.resumed ++ [next] }.reach next.handle c

/-- `next` can be `pending_.top()`, the clock does not go back, and `sleep_until` returns no earlier than asked. -/
def Possible (s : Reactor ω) (t : Turn ω) (next : ScheduledResume) : Prop :=
  (∀ e ∈ s.pending, ¬ next.less e) ∧ s.clock ≤ t.now ∧ t.now ≤ t.resumed ∧ t.resumed ≤ t.suspended ∧
    (t.stop = false → next.when > t.now → next.when ≤ t.resumed)

instance (s : Reactor ω) (t : Turn ω) (next : ScheduledResume) : Decidable (s.Possible t next) :=
  inferInstanceAs (Decidable (_ ∧ _))

/-- One turn of the loop in `run_until`. -/
def step (s : Reactor ω) (t : Turn ω) : Option (Reactor ω) :=
  match s.pending[t.pick]? with
  | none => none
  | some next =>
    if s.Possible t next then
      match s.frames[next.handle]? with
      | some (.suspend _ k) => some (s.resume t next (k t.saw))
      | _ => none
    else none

/-- What a turn did. -/
inductive Step (s : Reactor ω) (t : Turn ω) : Reactor ω → Prop
  | resume {next : ScheduledResume} {w : WaitFor} {k : ω → Coroutine ω} (hpick : s.pending[t.pick]? = some next)
      (hposs : s.Possible t next) (hframe : s.frames[next.handle]? = some (.suspend w k)) :
    Step s t (s.resume t next (k t.saw))

theorem step_cases {s s' : Reactor ω} {t : Turn ω} (hs : s.step t = some s') : Step s t s' := by
  unfold step at hs
  split at hs
  · cases hs
  · next next hpick =>
    split at hs
    · next hposs =>
      split at hs
      · next w k hframe => cases hs; exact .resume hpick hposs hframe
      · cases hs
    · cases hs

end Reactor

/-- `read_packets_async` as the reactor sees it, a loop over the packets of the feed that reads `stop_requested` at its
head; what it does with a packet is in `PipelineRunner`. -/
def readPacketsAsync : List (Option Bytes) → Bool → Coroutine Bool
  | _, true => .done
  | [], false => .done
  | _ :: feed, false => .suspend ⟨1⟩ (readPacketsAsync feed)

namespace Reactor

/-! ### Frames and queue entries -/

/-- The frame of `h` is suspended. -/
def Suspended (s : Reactor ω) (h : Nat) : Prop := ∃ w k, s.frames[h]? = some (.suspend w k)

/-- The entries of handle `h`. -/
def of (h : Nat) (es : List ScheduledResume) : List ScheduledResume := es.filter (·.handle = h)

/-- Every suspended frame has one entry in the queue, and each of its suspensions before that was resumed, in order. -/
structure Inv (s : Reactor ω) : Prop where
  handles : (s.pending.map (·.handle)).Nodup
  suspended : ∀ h, h ∈ s.pending.map (·.handle) ↔ s.Suspended h
  once : ∀ h, of h s.scheduled = of h s.resumed ++ of h s.pending
  wraps : ∀ e ∈ s.pending, e.when = Int64.ofInt e.due

/-- The invariant while the frame of `h` runs. -/
structure Running (s : Reactor ω) (h : Nat) : Prop where
  handles : (s.pending.map (·.handle)).Nodup
  running : h ∉ s.pending.map (·.handle)
  suspended : ∀ g, g ≠ h → (g ∈ s.pending.map (·.handle) ↔ s.Suspended g)
  once : ∀ g, of g s.scheduled = of g s.resumed ++ of g s.pending
  wraps : ∀ e ∈ s.pending, e.when = Int64.ofInt e.due

@[simp] theorem frames_reach (s : Reactor ω) (h : Nat) (c : Coroutine ω) : (s.reach h c).frames = s.frames := by
  cases c <;> rfl

@[simp] theorem resumed_reach (s : Reactor ω) (h : Nat) (c : Coroutine ω) : (s.reach h c).resumed = s.resumed := by
  cases c <;> rfl

theorem Suspended.reach {s : Reactor ω} {h g : Nat} {c : Coroutine ω} : (s.reach h c).Suspended g ↔ s.Suspended g := by
  rw [Suspended, frames_reach, Suspended]

theorem ofInt_due (now : Int64) (w : WaitFor) :
    Int64.ofInt (now.toInt + 1000 * w.delay.toInt) = now + 1000 * w.delay := by
  rw [Int64.ofInt_add, Int64.ofInt_mul, Int64.ofInt_toInt, Int64.ofInt_toInt]
  rfl

theorem Running.reach {s : Reactor ω} {h : Nat} {c : Coroutine ω} (hr : s.Running h) (hc : s.frames[h]? = some c) :
    (s.reach h c).Inv := by
  cases c with
  | done =>
    refine ⟨hr.handles, fun g => ?_, hr.once, hr.wraps⟩
    by_cases hg : g = h
    · subst hg
      refine ⟨fun hmem => absurd hmem hr.running, ?_⟩
      rintro ⟨w, k, hs⟩
      rw [show (s.reach g .done).frames = s.frames from rfl, hc] at hs
      cases hs
    · exact hr.suspended g hg
  | suspend w k =>
    refine ⟨?_, fun g => ?_, fun g => ?_, fun e he => ?_⟩
    · show ((s.pending ++ [_]).map _).Nodup
      rw [List.map_append, List.nodup_append]
      refine ⟨hr.handles, List.nodup_singleton _, ?_⟩
      rintro g hg _ hh rfl
      have : g = h := List.mem_singleton.1 hh
      exact hr.running (this ▸ hg)
    · rw [Suspended.reach]
      show g ∈ (s.pending ++ [_]).map _ ↔ _
      rw [List.map_append, List.mem_append, List.map_singleton, List.mem_singleton]
      by_cases hg : g = h
      · exact ⟨fun _ => ⟨w, k, hg ▸ hc⟩, fun _ => .inr hg⟩
      · rw [or_iff_left hg]
        exact hr.suspended g hg
    · show of g (s.scheduled ++ [_]) = of g s.resumed ++ of g (s.pending ++ [_])
      simp only [of, List.filter_append]
      rw [← List.append_assoc]
      exact congrArg (· ++ _) (hr.once g)
    · rcases List.mem_append.1 he with he | he
      · exact hr.wraps e he
      · rw [List.mem_singleton.1 he]
        exact (ofInt_due s.clock w).symm

theorem Inv.init (clock : Int64) : Inv ({ clock := clock } : Reactor ω) := by
  refine ⟨List.nodup_nil, fun h => ⟨(nomatch ·), ?_⟩, fun h => rfl, fun e he => absurd he List.not_mem_nil⟩
  rintro ⟨w, k, hs⟩
  cases hs

theorem Inv.start {s : Reactor ω} (h : s.Inv) (c : Coroutine ω) (now : Int64) : (s.start c now).Inv := by
  refine Running.reach (h := s.frames.length) ⟨h.handles, ?_, ?_, h.once, h.wraps⟩ List.getElem?_concat_length
  · intro hmem
    obtain ⟨w, k, hs⟩ := (h.suspended _).1 hmem
    rw [List.getElem?_eq_none (Nat.le_refl _)] at hs
    cases hs
  · intro g hg
    rw [h.suspended g, Suspended, Suspended]
    show _ ↔ ∃ w k, (s.frames ++ [c])[g]? = _
    rcases Nat.lt_or_ge g s.frames.length with hlt | hge
    · rw [List.getElem?_append_left hlt]
    · have hlen : (s.frames ++ [c]).length ≤ g := by
        rw [List.length_append, List.length_singleton]
        omega
      rw [List.getElem?_eq_none hge, List.getElem?_eq_none hlen]

theorem Inv.started (clock : Int64) (cs : List (Coroutine ω × Int64)) : (started clock cs).Inv := by
  have hall : ∀ s : Reactor ω, s.Inv → (cs.foldl (fun s c => s.start c.1 c.2) s).Inv := by
    induction cs with
    | nil => exact fun s hs => hs
    | cons c cs ih => exact fun s hs => ih _ (hs.start c.1 c.2)
  exact hall _ (.init clock)

theorem eraseIdx_split {es : List ScheduledResume} {i : Nat} {e : ScheduledResume} (h : es[i]? = some e) :
    ∃ as bs, es = as ++ e :: bs ∧ es.eraseIdx i = as ++ bs := by
  obtain ⟨hlt, rfl⟩ := List.getElem?_eq_some_iff.1 h
  refine ⟨es.take i, es.drop (i + 1), ?_, List.eraseIdx_eq_take_drop_succ es i⟩
  rw [List.getElem_cons_drop, List.take_append_drop]

theorem of_eq_nil {h : Nat} {es : List ScheduledResume} (hn : h ∉ es.map (·.handle)) : of h es = [] := by
  refine List.filter_eq_nil_iff.2 fun e he heq => hn ?_
  exact List.mem_map.2 ⟨e, he, of_decide_eq_true heq⟩

/-- The handle taken from the queue has no entry left in it, and the other handles keep theirs. -/
theorem Inv.pop {s : Reactor ω} (h : s.Inv) {t : Turn ω} {next : ScheduledResume} {c : Coroutine ω}
    (hpick : s.pending[t.pick]? = some next) :
    Running { s with
      pending := s.pending.eraseIdx t.pick, frames := s.frames.set next.handle c, clock := t.suspended
      resumed := s.resumed ++ [next] } next.handle := by
  obtain ⟨as, bs, hsplit, herase⟩ := eraseIdx_split hpick
  have hnodup := h.handles
  rw [hsplit, List.map_append, List.map_cons, List.nodup_middle, ← List.map_append, List.nodup_cons] at hnodup
  have hgone := hnodup.1
  rw [List.map_append, List.mem_append, not_or] at hgone
  refine ⟨?_, ?_, fun g hg => ?_, fun g => ?_, fun e he => h.wraps e (List.mem_of_mem_eraseIdx he)⟩
  · rw [herase]
    exact hnodup.2
  · rw [herase]
    exact hnodup.1
  · have hmem : g ∈ s.pending.map (·.handle) ↔ g ∈ (as ++ bs).map (·.handle) := by
      rw [hsplit, List.map_append, List.map_cons, List.mem_append, List.mem_cons, or_iff_right hg, List.map_append,
        List.mem_append]
    rw [herase, ← hmem, h.suspended g, Suspended, Suspended, List.getElem?_set_ne (Ne.symm hg)]
  · rw [herase, h.once g, hsplit]
    simp only [of, List.filter_append, List.filter_cons, List.filter_nil, List.append_assoc]
    by_cases hg : next.handle = g
    · subst hg
      have has : as.filter (·.handle = next.handle) = [] := of_eq_nil hgone.1
      simp [has]
    · simp [hg]

theorem Inv.step {s s' : Reactor ω} {t : Turn ω} (h : s.Inv) (hs : s.step t = some s') : s'.Inv := by
  obtain @⟨next, w, k, hpick, -, hframe⟩ := step_cases hs
  refine (h.pop hpick).reach ?_
  exact List.getElem?_set_self (List.getElem?_eq_some_iff.1 hframe).1

/-! ### The loop -/

theorem exists_possible {s : Reactor ω} (hne : s.pending ≠ []) (stop : Bool) (saw : ω) :
    ∃ t next, t.stop = stop ∧ t.saw = saw ∧ s.pending[t.pick]? = some next ∧ s.Possible t next := by
  obtain ⟨next, hnext⟩ :=
    Option.ne_none_iff_exists'.1 (mt List.argmin_eq_none.1 hne : s.pending.argmin (·.when.toInt) ≠ none)
  obtain ⟨i, hi⟩ := List.mem_iff_getElem?.1 (List.argmin_mem hnext)
  have htop : ∀ e ∈ s.pending, ¬ next.less e := by
    intro e he
    have hle := List.le_of_mem_argmin (f := fun e : ScheduledResume => e.when.toInt) he hnext
    exact Int64.not_lt.2 (Int64.le_iff_toInt_le.2 hle)
  by_cases hlate : s.clock ≤ next.when
  · exact ⟨⟨i, stop, s.clock, next.when, saw, next.when⟩, next, rfl, rfl, hi, htop, Int64.le_refl _, hlate, Int64.le_refl _,
      fun _ _ => Int64.le_refl _⟩
  · exact ⟨⟨i, stop, s.clock, s.clock, saw, s.clock⟩, next, rfl, rfl, hi, htop, Int64.le_refl _, Int64.le_refl _,
      Int64.le_refl _, fun _ hnow => absurd (Int64.le_of_lt hnow) hlate⟩

/-- At the head of the loop, whatever the queue's order, the clock and `should_stop` do next. -/
structure Drives (s : Reactor ω) : Prop where
  /-- The loop can go on as long as something is pending. -/
  goesOn : s.pending ≠ [] → ∀ stop saw, ∃ t next, t.stop = stop ∧ t.saw = saw ∧
    s.pending[t.pick]? = some next ∧ s.Possible t next
  /-- It resumes a suspended frame, of the earliest entry. -/
  resumes : ∀ t next, s.pending[t.pick]? = some next → s.Possible t next →
    ∃ s', s.step t = some s' ∧ s'.resumed = s.resumed ++ [next] ∧ ∀ e ∈ s.pending, next.when ≤ e.when
  /-- Unless it stops, not before the time asked for. -/
  waits : ∀ t next, s.pending[t.pick]? = some next → s.Possible t next → t.stop = false → next.Fits →
    next.due ≤ t.resumed.toInt
  /-- An entry has the time asked for. -/
  due : ∀ e ∈ s.pending, e.Fits → e.when.toInt = e.due
  /-- The suspensions of a coroutine are resumed in order, all but the one that is pending. -/
  once : ∀ h, of h s.scheduled = of h s.resumed ++ of h s.pending
  pendingOnce : (s.pending.map (·.handle)).Nodup
  /-- When the loop ends every coroutine has ended. -/
  ends : s.pending = [] → ∀ c ∈ s.frames, c = .done

theorem Possible.earliest {s : Reactor ω} {t : Turn ω} {next : ScheduledResume} (h : s.Possible t next) :
    ∀ e ∈ s.pending, next.when ≤ e.when :=
  fun e he => Int64.not_lt.1 (h.1 e he)

theorem Possible.when_le {s : Reactor ω} {t : Turn ω} {next : ScheduledResume} (h : s.Possible t next)
    (hstop : t.stop = false) : next.when ≤ t.resumed := by
  obtain ⟨-, -, hnow, -, hslept⟩ := h
  by_cases hlate : next.when > t.now
  · exact hslept hstop hlate
  · exact Int64.le_trans (Int64.not_lt.1 hlate) hnow

theorem Inv.when_eq {s : Reactor ω} (h : s.Inv) {e : ScheduledResume} (he : e ∈ s.pending) (hfits : e.Fits) :
    e.when.toInt = e.due := by
  rw [h.wraps e he, Int64.toInt_ofInt_of_le hfits.1 hfits.2]

theorem Inv.drives {s : Reactor ω} (h : s.Inv) : s.Drives := by
  refine ⟨exists_possible, fun t next hpick hposs => ?_, fun t next hpick hposs hstop hfits => ?_,
    fun e he hfits => h.when_eq he hfits, h.once, h.handles, fun hend c hc => ?_⟩
  · have hmem : next.handle ∈ s.pending.map (·.handle) := List.mem_map_of_mem (List.mem_of_getElem? hpick)
    obtain ⟨w, k, hframe⟩ := (h.suspended _).1 hmem
    refine ⟨s.resume t next (k t.saw), ?_, ?_, hposs.earliest⟩
    · simp only [Reactor.step, hpick, hposs, if_true, hframe]
    · rw [Reactor.resume, resumed_reach]
  · rw [← h.when_eq (List.mem_of_getElem? hpick) hfits]
    exact Int64.le_iff_toInt_le.1 (hposs.when_le hstop)
  · obtain ⟨i, hi⟩ := List.mem_iff_getElem?.1 hc
    cases c with
    | done => rfl
    | suspend w k =>
      have hmem := (h.suspended i).2 ⟨w, k, hi⟩
      rw [hend] at hmem
      cases hmem

theorem step_advance {s s' : Reactor ω} {t : Turn ω} (hs : s.step t = some s') :
    Resumption.Advance s.frames s'.frames := by
  obtain @⟨next, w, k, -, -, hframe⟩ := step_cases hs
  rw [Reactor.resume, frames_reach]
  exact .resume t.saw hframe

theorem length_started (clock : Int64) (cs : List (Coroutine ω × Int64)) : (started clock cs).frames.length = cs.length := by
  have hall : ∀ s : Reactor ω, (cs.foldl (fun s c => s.start c.1 c.2) s).frames.length = s.frames.length + cs.length := by
    induction cs with
    | nil => exact fun s => rfl
    | cons c cs ih =>
      intro s
      rw [List.foldl_cons, ih, Reactor.start, frames_reach, List.length_append, List.length_singleton, List.length_cons]
      omega
  rw [started, hall]
  exact Nat.zero_add _

/-- `run_until` ends, with every coroutine at its end and every suspension resumed once, in the order of the wake
times and not before its own, where `now() + delay` is one the clock can show. -/
theorem runUntil_completes (clock : Int64) (cs : List (Coroutine ω × Int64)) :
    (∀ (run : Nat → Reactor ω) (ts : Nat → Turn ω), run 0 = started clock cs →
      ¬ ∀ k, step (run k) (ts k) = some (run (k + 1))) ∧
    ∀ ts s, Runs.exec step (started clock cs) ts = some s → s.frames.length = cs.length ∧ s.Drives := by
  constructor
  · intro run ts _
    exact Runs.no_infinite_run Resumption.wellFounded_advance frames
      (fun s t s' (hs : s.step t = some s') => step_advance hs) run ts
  · intro ts s hrun
    have hlen : s.frames.length = cs.length := Runs.invariant (P := fun s : Reactor ω => s.frames.length = cs.length)
      (fun _ _ _ h hs => (step_advance hs).length_eq.trans h) (length_started clock cs) hrun
    have hinv : s.Inv := Runs.invariant (P := Inv) (fun _ _ _ h hs => h.step hs) (.started clock cs) hrun
    exact ⟨hlen, hinv.drives⟩

/-- Two readers, a feed of two packets and a feed of one, started 5 ns apart. -/
def twoReaders : List (Coroutine Bool × Int64) :=
  [(readPacketsAsync [none, none] false, 100), (readPacketsAsync [none] false, 105)]

/-- The loop sleeps until 1100, then until 1105, and after `should_stop` it does not wait for 2200. -/
def threeTurns : List (Turn Bool) :=
  [⟨0, false, 110, 1100, false, 1200⟩, ⟨0, false, 1201, 1202, false, 1203⟩, ⟨0, true, 1204, 1205, true, 1206⟩]

theorem runUntil_completes_readers : ∃ s, Runs.exec step (started 100 twoReaders) threeTurns = some s ∧
    s.resumed = [⟨1100, 0, 1100⟩, ⟨1105, 1, 1105⟩, ⟨2200, 0, 2200⟩] ∧ s.pending = [] ∧ ∀ c ∈ s.frames, c = .done := by
  obtain ⟨s, hrun, hresumed, hpending⟩ : ∃ s, Runs.exec step (started 100 twoReaders) threeTurns = some s ∧
      s.resumed = [⟨1100, 0, 1100⟩, ⟨1105, 1, 1105⟩, ⟨2200, 0, 2200⟩] ∧ s.pending = [] := ⟨_, rfl, rfl, rfl⟩
  have hdrives := ((runUntil_completes 100 twoReaders).2 threeTurns s hrun).2
  exact ⟨s, hrun, hresumed, hpending, hdrives.ends hpending⟩

/-- It waits for the least delay whose nanoseconds overflow. -/
def farOff : Coroutine Unit := .suspend ⟨9223372036854776⟩ fun _ => .done

def promptTurn : Turn Unit := ⟨0, false, 110, 120, (), 130⟩

/-- Without any sleep its handle is resumed ages before the time asked for. -/
theorem overflowing_delay_not_waited : ∃ next s, (started 100 [(farOff, 100)]).pending[promptTurn.pick]? = some next ∧
    Runs.exec step (started 100 [(farOff, 100)]) [promptTurn] = some s ∧ s.resumed = [next] ∧
    promptTurn.stop = false ∧ promptTurn.resumed.toInt < next.due :=
  ⟨_, _, rfl, rfl, rfl, rfl, by decide⟩

end Reactor

end Mdfh
