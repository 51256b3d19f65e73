import Mdfh.Concurrency.RingCalls

/-!
# One thread's calls across the wrap of the counters

`RingCalls` follows the ring from its construction, up to `2 ^ 64` pushes. Here the counters start
anywhere: `tail_ = head_ = c` for an arbitrary `c`, with whatever the slots still hold. When
`Capacity` divides `2 ^ 64` the remainder of a counter survives its wrap, so item `i` of the queue stays
in slot `(head_ + i) % Capacity`, and the unsigned difference of the counters is the number of items.
-/

namespace Mdfh

/-- A call by the only thread; the variable `try_pop` is given holds `out`. -/
inductive RingCall (α : Type) where
  | push (item : α)
  | tryPop (out : α)
deriving DecidableEq, Repr

/-- What the caller has after a call: nothing from `push`, the result and the variable from `try_pop`. -/
abbrev RingReply (α : Type) := Option (Bool × α)

variable {α : Type} {cap : Nat}

/-- What the model list answers, and the list after the call. -/
def RingCall.answer [NeZero cap] (q : DropOldest α cap) : RingCall α → RingReply α × DropOldest α cap
  | .push item => (none, q.push item)
  | .tryPop out =>
    match q.tryPop with
    | none => (some (false, out), q)
    | some (oldest, q') => (some (true, oldest), q')

def answers [NeZero cap] (q : DropOldest α cap) : List (RingCall α) → List (RingReply α) × DropOldest α cap
  | [] => ([], q)
  | c :: cs => ((c.answer q).1 :: (answers (c.answer q).2 cs).1, (answers (c.answer q).2 cs).2)

namespace Ring
variable [Inhabited α] [NeZero cap] {s s' : Ring α cap}

/-- The call runs from its first step to its return with no other step between. `try_pop` writes its variable where it
returns true and nowhere else. -/
inductive Completes (s : Ring α cap) : RingCall α → RingReply α → Ring α cap → Prop
  | push {item : α} {k : Nat} {s' : Ring α cap}
      (hrun : Runs.exec Ring.step s (.push item :: List.replicate k .producer) = some s') (hpc : s'.push = .idle) :
    Completes s (.push item) none s'
  | popped {out oldest : α} {k : Nat} {s₁ s' : Ring α cap}
      (hrun : Runs.exec Ring.step s (.tryPop :: List.replicate k .consumer) = some s₁)
      (hpc : s₁.pop = .returned (some oldest)) (hret : s₁.step .ret = some s') :
    Completes s (.tryPop out) (some (true, oldest)) s'
  | failed {out : α} {k : Nat} {s₁ s' : Ring α cap}
      (hrun : Runs.exec Ring.step s (.tryPop :: List.replicate k .consumer) = some s₁)
      (hpc : s₁.pop = .returned none) (hret : s₁.step .ret = some s') :
    Completes s (.tryPop out) (some (false, out)) s'

/-- Complete calls one after the other. -/
inductive CompletesAll : Ring α cap → List (RingCall α) → List (RingReply α) → Ring α cap → Prop
  | nil (s : Ring α cap) : CompletesAll s [] [] s
  | cons {s s₁ s' : Ring α cap} {c : RingCall α} {r : RingReply α} {cs : List (RingCall α)} {rs : List (RingReply α)}
      (hc : Completes s c r s₁) (hcs : CompletesAll s₁ cs rs s') : CompletesAll s (c :: cs) (r :: rs) s'

/-! ### A call ends in one way -/

theorem Completes.unique {c : RingCall α} {r r' : RingReply α} {s₁ s₂ : Ring α cap} (h₁ : Completes s c r s₁)
    (h₂ : Completes s c r' s₂) : r = r' ∧ s₁ = s₂ := by
  have hidle : ∀ {t : Ring α cap}, t.push = .idle → t.step .producer = none := by
    intro t ht
    simp [Ring.step, pushStep, ht]
  have hreturned : ∀ {t : Ring α cap} {r : Option α}, t.pop = .returned r → t.step .consumer = none := by
    intro t r ht
    simp [Ring.step, popStep, ht]
  -- after the first step both runs repeat the step of one thread until it has none
  have hsame : ∀ {a e : Act α} {k m : Nat} {t₁ t₂ : Ring α cap},
      Runs.exec Ring.step s (a :: List.replicate k e) = some t₁ → t₁.step e = none →
      Runs.exec Ring.step s (a :: List.replicate m e) = some t₂ → t₂.step e = none → t₁ = t₂ := by
    intro a e k m t₁ t₂ ht₁ hd₁ ht₂ hd₂
    obtain ⟨u, hu, hrun₁⟩ := Runs.exec_cons.1 ht₁
    obtain ⟨u', hu', hrun₂⟩ := Runs.exec_cons.1 ht₂
    rw [hu] at hu'
    cases hu'
    exact Runs.exec_replicate_unique hrun₁ hd₁ hrun₂ hd₂
  rcases h₁ with ⟨hrun₁, hpc₁⟩ | ⟨hrun₁, hpc₁, hret₁⟩ | ⟨hrun₁, hpc₁, hret₁⟩
  · rcases h₂ with ⟨hrun₂, hpc₂⟩ | _ | _
    exact ⟨rfl, hsame hrun₁ (hidle hpc₁) hrun₂ (hidle hpc₂)⟩
  · rcases h₂ with _ | ⟨hrun₂, hpc₂, hret₂⟩ | ⟨hrun₂, hpc₂, hret₂⟩
    · cases hsame hrun₁ (hreturned hpc₁) hrun₂ (hreturned hpc₂)
      rw [hpc₁] at hpc₂
      cases hpc₂
      exact ⟨rfl, Option.some.inj (hret₁.symm.trans hret₂)⟩
    · cases hsame hrun₁ (hreturned hpc₁) hrun₂ (hreturned hpc₂)
      rw [hpc₁] at hpc₂
      cases hpc₂
  · rcases h₂ with _ | ⟨hrun₂, hpc₂, hret₂⟩ | ⟨hrun₂, hpc₂, hret₂⟩
    · cases hsame hrun₁ (hreturned hpc₁) hrun₂ (hreturned hpc₂)
      rw [hpc₁] at hpc₂
      cases hpc₂
    · cases hsame hrun₁ (hreturned hpc₁) hrun₂ (hreturned hpc₂)
      exact ⟨rfl, Option.some.inj (hret₁.symm.trans hret₂)⟩

/-! ### Slots of wrapping counters -/

section Slots
variable {c : UInt64}

/-- The remainder by a divisor of `2 ^ 64` does not see the wrap. -/
theorem slotAt_add (hdvd : cap ∣ 2 ^ 64) (n i : Nat) :
    slotAt cap ((c + UInt64.ofNat n).toNat + i) = slotAt cap (c.toNat + (n + i)) := by
  refine Fin.ext ?_
  show ((c + UInt64.ofNat n).toNat + i) % cap = (c.toNat + (n + i)) % cap
  rw [UInt64.toNat_add, UInt64.toNat_ofNat', Nat.add_mod_mod, ← Nat.mod_add_mod, Nat.mod_mod_of_dvd _ hdvd,
    Nat.mod_add_mod, Nat.add_assoc]

theorem slotAt_succ (hdvd : cap ∣ 2 ^ 64) (i : Nat) :
    slotAt cap ((c + 1).toNat + i) = slotAt cap (c.toNat + (i + 1)) := by
  rw [Nat.add_comm i 1]
  exact slotAt_add hdvd 1 i

omit [NeZero cap] in
theorem sub_eq_of_eq_add {t : UInt64} {n : Nat} (h : t = c + UInt64.ofNat n) (hn : n < 2 ^ 64) :
    (t - c).toNat = n := by
  subst h
  have : c + UInt64.ofNat n - c = UInt64.ofNat n := by grind
  rw [this, UInt64.toNat_ofNat', Nat.mod_eq_of_lt hn]

end Slots

/-! ### One call, then all of them -/

/-- The items stand in the slots from counter `c` on. -/
def Stores (b : SpscRingBuffer α cap) (c : UInt64) (xs : List α) : Prop :=
  ∀ i x, xs[i]? = some x → (b.buffer (slotAt cap (c.toNat + i))).value = x

namespace Stores
variable {b b' : SpscRingBuffer α cap} {c : UInt64} {xs : List α}

theorem tail (h : Stores b c xs) (hdvd : cap ∣ 2 ^ 64) : Stores b (c + 1) xs.tail := by
  intro i x hi
  rw [slotAt_succ hdvd]
  rw [List.getElem?_tail] at hi
  exact h (i + 1) x hi

theorem append (h : Stores b c xs) (hlt : xs.length < cap) (x : α)
    (hb : b'.buffer = (b.setValue (slotAt cap (c.toNat + xs.length)) x).buffer) : Stores b' c (xs ++ [x]) := by
  intro i y hi
  rw [hb]
  simp only [SpscRingBuffer.setValue]
  rcases Nat.lt_trichotomy i xs.length with hlti | rfl | hgti
  · have hne : slotAt cap (c.toNat + i) ≠ slotAt cap (c.toNat + xs.length) := slotAt_ne (by omega) (by omega)
    rw [Function.update_of_ne hne]
    rw [List.getElem?_append_left hlti] at hi
    exact h i y hi
  · rw [List.getElem?_concat_length] at hi
    rw [Function.update_self]
    exact Option.some.inj hi
  · rw [List.getElem?_eq_none (by rw [List.length_append, List.length_singleton]; omega)] at hi
    cases hi

end Stores

/-- Between calls, the ring holds the items of `q`. -/
structure Holds (s : Ring α cap) (q : DropOldest α cap) : Prop where
  quiet : s.Quiet
  tail : s.mem.tail = s.mem.head + UInt64.ofNat q.items.length
  stores : Stores s.mem s.mem.head q.items
  dropped : s.mem.droppedUpdatesTotal = UInt64.ofNat q.dropped

namespace Holds
variable {q : DropOldest α cap}

theorem start (hq : s.Quiet) (he : s.mem.tail = s.mem.head) :
    s.Holds ⟨[], s.mem.droppedUpdatesTotal.toNat, Nat.zero_le _⟩ := by
  refine ⟨hq, ?_, ?_, ?_⟩
  · rw [he]
    exact (UInt64.add_zero _).symm
  · intro i x hi
    cases hi
  · exact UInt64.ofNat_toNat.symm

theorem toNat_sub (h : s.Holds q) (hcap : cap < 2 ^ 64) : (s.mem.tail - s.mem.head).toNat = q.items.length :=
  sub_eq_of_eq_add h.tail (q.length_le.trans_lt hcap)

theorem slotAt_tail (h : s.Holds q) (hdvd : cap ∣ 2 ^ 64) :
    slotAt cap s.mem.tail.toNat = slotAt cap (s.mem.head.toNat + q.items.length) := by
  rw [h.tail]
  exact slotAt_add hdvd q.items.length 0

theorem tail_eq_head_iff (h : s.Holds q) (hcap : cap < 2 ^ 64) : s.mem.tail = s.mem.head ↔ q.items = [] := by
  have hsub := h.toNat_sub hcap
  constructor
  · intro he
    rw [he, UInt64.sub_self] at hsub
    exact List.length_eq_zero_iff.1 hsub.symm
  · intro he
    rw [h.tail, he]
    exact UInt64.add_zero _

theorem push (h : s.Holds q) (hdvd : cap ∣ 2 ^ 64) (hcap : cap < 2 ^ 64) (item : α) :
    ∃ s', Completes s (.push item) none s' ∧ s'.Holds (q.push item) := by
  have hsub := h.toNat_sub hcap
  by_cases hroom : q.items.length < cap
  · obtain ⟨hitems, hdrops⟩ := DropOldest.push_of_lt (x := item) hroom
    refine ⟨_, .push (exec_push_room h.quiet item (by omega)) h.quiet.push, ?_⟩
    refine ⟨⟨h.quiet.push, h.quiet.pop, readerActive_setValue h.quiet.flags _ item⟩, ?_, ?_, ?_⟩
    · show s.mem.tail + 1 = s.mem.head + UInt64.ofNat (q.push item).items.length
      rw [hitems, List.length_append, List.length_singleton, UInt64.ofNat_add, ← UInt64.add_assoc, ← h.tail]
      rfl
    · rw [hitems]
      exact h.stores.append hroom item (by rw [h.slotAt_tail hdvd])
    · rw [hdrops]
      exact h.dropped
  · obtain ⟨hitems, hdrops⟩ := DropOldest.push_of_not_lt (x := item) hroom
    have hfull : q.items.length = cap := le_antisymm q.length_le (by omega)
    have hpos := NeZero.pos cap
    have hlen : q.items.tail.length + 1 = q.items.length := by
      rw [List.length_tail]
      omega
    refine ⟨_, .push (exec_push_full h.quiet item (by omega)) h.quiet.push, ?_⟩
    refine ⟨⟨h.quiet.push, h.quiet.pop, readerActive_setValue h.quiet.flags _ item⟩, ?_, ?_, ?_⟩
    · rw [hitems, List.length_append, List.length_singleton, hlen]
      show s.mem.tail + 1 = s.mem.head + 1 + UInt64.ofNat q.items.length
      rw [h.tail]
      grind
    · rw [hitems]
      refine (h.stores.tail hdvd).append (by omega) item ?_
      rw [h.slotAt_tail hdvd, slotAt_succ hdvd, hlen]
    · rw [hdrops, UInt64.ofNat_add, ← h.dropped]
      rfl

theorem tryPop (h : s.Holds q) (hdvd : cap ∣ 2 ^ 64) (hcap : cap < 2 ^ 64) (out : α) :
    ∃ s', Completes s (.tryPop out) ((RingCall.tryPop out).answer q).1 s' ∧
      s'.Holds ((RingCall.tryPop out).answer q).2 := by
  cases hpop : q.tryPop with
  | none =>
    have he := (h.tail_eq_head_iff hcap).2 (DropOldest.tryPop_eq_none_iff.1 hpop)
    have hans : (RingCall.tryPop out).answer q = (some (false, out), q) := by
      simp only [RingCall.answer, hpop]
    rw [hans]
    refine ⟨_, .failed (exec_tryPop_empty h.quiet he) rfl rfl, ?_⟩
    exact ⟨⟨h.quiet.push, rfl, h.quiet.flags⟩, h.tail, h.stores, h.dropped⟩
  | some r =>
    obtain ⟨oldest, q'⟩ := r
    obtain ⟨hitems, hdrops⟩ := DropOldest.tryPop_eq_some_iff.1 hpop
    have hne : s.mem.tail ≠ s.mem.head := by
      intro he
      rw [(h.tail_eq_head_iff hcap).1 he] at hitems
      cases hitems
    have hold : (s.mem.buffer (slotAt cap s.mem.head.toNat)).value = oldest := h.stores 0 oldest (by rw [hitems]; rfl)
    have hans : (RingCall.tryPop out).answer q = (some (true, oldest), q') := by
      simp only [RingCall.answer, hpop]
    have hrun := exec_tryPop_oldest h.quiet hne
    rw [hold] at hrun
    rw [hans]
    refine ⟨_, .popped hrun rfl rfl, ⟨h.quiet.push, rfl, h.quiet.flags⟩, ?_, ?_, ?_⟩
    · show s.mem.tail = s.mem.head + 1 + UInt64.ofNat q'.items.length
      rw [h.tail, hitems, List.length_cons, UInt64.ofNat_add]
      grind
    · have := h.stores.tail hdvd
      rwa [hitems] at this
    · rw [hdrops]
      exact h.dropped

/-- A call completes, with the answer of the model list and in no other way. -/
theorem call (h : s.Holds q) (hdvd : cap ∣ 2 ^ 64) (hcap : cap < 2 ^ 64) (c : RingCall α) :
    ∃ s', Completes s c (c.answer q).1 s' ∧ s'.Holds (c.answer q).2 := by
  cases c with
  | push item => exact h.push hdvd hcap item
  | tryPop out => exact h.tryPop hdvd hcap out

theorem exists_calls (h : s.Holds q) (hdvd : cap ∣ 2 ^ 64) (hcap : cap < 2 ^ 64) (cs : List (RingCall α)) :
    ∃ rs s', CompletesAll s cs rs s' := by
  induction cs generalizing s q with
  | nil => exact ⟨[], s, .nil s⟩
  | cons c cs ih =>
    obtain ⟨s₁, hc, h₁⟩ := h.call hdvd hcap c
    obtain ⟨rs, s', hcs⟩ := ih h₁
    exact ⟨_, s', .cons hc hcs⟩

/-- Calls that have completed gave the answers of the model list. -/
theorem calls (h : s.Holds q) (hdvd : cap ∣ 2 ^ 64) (hcap : cap < 2 ^ 64) {cs : List (RingCall α)}
    {rs : List (RingReply α)} (hrun : CompletesAll s cs rs s') :
    rs = (answers q cs).1 ∧ s'.Holds (answers q cs).2 := by
  induction hrun generalizing q with
  | nil s => exact ⟨rfl, h⟩
  | @cons s s₁ s' c r cs rs hc hcs ih =>
    obtain ⟨s₂, hc₂, h₂⟩ := h.call hdvd hcap c
    obtain ⟨rfl, rfl⟩ := hc.unique hc₂
    obtain ⟨hrs, hend⟩ := ih h₂
    exact ⟨congrArg _ hrs, hend⟩

end Holds

/-- From equal counters at any value, the ring is the drop-oldest list: the calls complete, and every way they complete
gives the answers and the drop count of the list. -/
theorem calls_across_wrap (hdvd : cap ∣ 2 ^ 64) (hcap : cap < 2 ^ 64) (hq : s.Quiet) (he : s.mem.tail = s.mem.head)
    (cs : List (RingCall α)) :
    (∃ rs s', CompletesAll s cs rs s') ∧
    ∀ rs s', CompletesAll s cs rs s' →
      rs = (answers (⟨[], s.mem.droppedUpdatesTotal.toNat, Nat.zero_le _⟩ : DropOldest α cap) cs).1 ∧
      s'.Holds (answers ⟨[], s.mem.droppedUpdatesTotal.toNat, Nat.zero_le _⟩ cs).2 :=
  ⟨(Holds.start hq he).exists_calls hdvd hcap cs, fun _ _ hrun => (Holds.start hq he).calls hdvd hcap hrun⟩

/-- Both counters at their largest value, and stale items in both slots. -/
def beforeWrap : Ring Nat 2 :=
  { mem := { buffer := fun _ => { value := 7 }, tail := 18446744073709551615, head := 18446744073709551615 } }

theorem calls_across_wrap_before :
    ∃ rs s', CompletesAll beforeWrap [.push 1, .push 2, .push 3, .tryPop 0, .tryPop 0, .tryPop 9] rs s' ∧
      rs = [none, none, none, some (true, 2), some (true, 3), some (false, 9)] ∧ s'.mem.droppedUpdatesTotal = 1 := by
  obtain ⟨⟨rs, s', hrun⟩, hall⟩ := calls_across_wrap (s := beforeWrap) (by decide) (by decide) ⟨rfl, rfl, fun _ => rfl⟩ rfl
    [.push 1, .push 2, .push 3, .tryPop 0, .tryPop 0, .tryPop 9]
  obtain ⟨hrs, hend⟩ := hall rs s' hrun
  exact ⟨rs, s', hrun, hrs, hend.dropped⟩

end Ring

end Mdfh
