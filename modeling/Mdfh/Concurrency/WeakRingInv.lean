import Mdfh.Concurrency.RingInv
import Mdfh.Concurrency.WeakRing

/-!
# The invariant of the ring buffer with its memory orders

Every transition of `head_` is a read-modify-write that passes on what the one before it knew. Whoever knows
that index `i` is claimed by an acquire therefore knows the announcement of the consumer that claimed it,
and a cleared flag found after that announcement tells of the read of `i`. The producer is past its check
of the slot of index `t` only when it knows `t - cap` to be claimed in this way, so it knows of every read
of the slot. The consumer has `h` when it knows that `h` was published, and the slot is not written again
before the producer has seen the flag of `h` cleared.

What `push` knows after a lost compare-exchange is not covered: its failure order is relaxed.
-/

namespace Mdfh
open ReleaseAcquire

variable {α : Type}

/-- The item that is in its slot but not published. -/
def PushPc.unpublished : PushPc α → List α
  | .publish item _ => [item]
  | _ => []

/-- The index that is claimed but not read. -/
def PopPc.claiming : PopPc α → List Nat
  | .read head => [head.toNat]
  | _ => []

/-- The index that is read but not delivered. -/
def PopPc.reading : PopPc α → List Nat
  | .release head _ => [head.toNat]
  | _ => []

namespace WeakRing
variable [Inhabited α] {cap : Nat}

/-- The locations that only the producer writes. -/
def Loc.Produced : Loc cap → Prop
  | .tail => True
  | .wakeGeneration => True
  | .value _ => True
  | _ => False

/-- The locations that only the consumer writes. -/
def Loc.Consumed : Loc cap → Prop
  | .readerActive _ => True
  | .reads => True
  | _ => False

/-- What is in the slots: the items pushed and the one about to be. -/
def items (s : WeakRing α cap) : List α := s.pushed ++ s.push.unpublished

/-- The producer has seen the transitions up to here, or the view knows what they knew. -/
def Acquired (s : WeakRing α cap) (v : View (Loc cap)) : Prop :=
  ∀ i e, (s.mem .head)[i]? = some e → i ≤ v .head → e.carried ≤ v ∨ i ≤ s.producer .head

variable [NeZero cap]

/-- Whoever knows of a published item knows of the write to its slot. -/
structure Sound (m : Memory fun x : Loc cap => x.Val α) (v : View (Loc cap)) : Prop where
  within : v.In m
  written : ∀ k < v .tail, k / cap + 1 ≤ v (.value (slotAt cap k))

/-- The producer knows of the read of the index that was in the slot before, and no such read is to come. -/
structure Cleared (s : WeakRing α cap) : Prop where
  known : ∀ ρ e, 0 < ρ → (s.mem .reads)[ρ]? = some e → e.value + cap = s.pushed.length → ρ ≤ s.producer .reads
  none : ∀ head, s.pop = .read head → head.toNat + cap ≠ s.pushed.length

/-- What the producer knows at each point of `push`. -/
def PushOk (s : WeakRing α cap) : PushPc α → Prop
  | .loadHead _ tail => tail.toNat = s.pushed.length
  | .evict _ tail head => tail.toNat = s.pushed.length ∧ head.toNat + cap = s.pushed.length
  | .count _ tail => tail.toNat = s.pushed.length ∧ s.pushed.length < s.producer .head + cap
  | .spin _ tail => tail.toNat = s.pushed.length ∧ s.pushed.length < s.producer .head + cap
  | .write _ tail => (tail.toNat = s.pushed.length ∧ s.pushed.length < s.producer .head + cap) ∧ s.Cleared
  | .publish _ tail => tail.toNat = s.pushed.length
  | _ => True

/-- The flag of the slot is set, as far as the consumer has gone. -/
def Announced (s : WeakRing α cap) (j : Fin cap) : Prop :=
  (s.mem.current (.readerActive j)).map (·.value) = some true

/-- What the consumer knows at each point of `try_pop`. -/
def PopOk (s : WeakRing α cap) : PopPc α → Prop
  | .announce head => head.toNat ≠ s.consumer .tail
  | .claim head => head.toNat ≠ s.consumer .tail ∧ s.Announced (slotAt cap head.toNat)
  | .read head => (head.toNat < s.consumer .tail ∧ s.items.length ≤ head.toNat + cap) ∧
    s.Announced (slotAt cap head.toNat) ∧
    ∀ e, (s.mem .head)[head.toNat + 1]? = some e →
      s.mem.last (.readerActive (slotAt cap head.toNat)) ≤ e.carried (.readerActive (slotAt cap head.toNat))
  | .release head out => s.pushed[head.toNat]? = some out
  | _ => True

structure Inv (s : WeakRing α cap) : Prop where
  pos : ∀ x, 0 < (s.mem x).length
  sound : ∀ x, ∀ e ∈ s.mem x, Sound s.mem e.carried
  producer : Sound s.mem s.producer
  consumer : Sound s.mem s.consumer
  producerOwn : ∀ x : Loc cap, x.Produced → s.mem.last x ≤ s.producer x
  consumerOwn : ∀ x : Loc cap, x.Consumed → s.mem.last x ≤ s.consumer x
  head : ∀ i e, (s.mem .head)[i]? = some e → UInt64.toNat e.value = i ∧ e.carried .head ≤ i
  grows : (s.mem .head).Pairwise fun e e' => e.carried ≤ e'.carried
  tail : ∀ i e, (s.mem .tail)[i]? = some e → UInt64.toNat e.value = i ∧ e.carried .tail = i
  length : (s.mem .tail).length = s.pushed.length + 1
  sentTail : ∀ e ∈ s.mem .tail, e.carried ≤ s.producer
  sentWake : ∀ e ∈ s.mem .wakeGeneration, e.carried ≤ s.producer
  values : ∀ k, ((s.mem (.value (slotAt cap k)))[k / cap + 1]?).map (·.value) = s.items[k]?
  behind : ∀ i e, (s.mem .head)[i]? = some e → i < e.carried .tail ∨ i ≤ s.consumer .tail
  window : s.items.length ≤ s.producer .head + cap
  known : ∀ e, (s.mem .head)[s.producer .head]? = some e → e.carried ≤ s.producer
  seen : s.mem.last .head ≤ s.producer .head ∨ s.mem.last .head ≤ s.consumer .head
  acquired : s.Acquired s.consumer
  flagAcquired : ∀ j, ∀ f ∈ s.mem (.readerActive j), s.Acquired f.carried
  evicted : ∀ i ∈ s.evicted, i < s.mem.last .head
  claimed : (s.mem .reads).tail.map (·.value) ++ s.pop.claiming =
    (List.range (s.mem.last .head)).filter (· ∉ s.evicted)
  cleared : ∀ i, i ∉ s.evicted → ∀ e, (s.mem .head)[i + 1]? = some e →
    ∀ m f, e.carried (.readerActive (slotAt cap i)) ≤ m → (s.mem (.readerActive (slotAt cap i)))[m]? = some f →
      f.value = false → ∃ ρ e', ρ ≤ f.carried .reads ∧ 0 < ρ ∧ (s.mem .reads)[ρ]? = some e' ∧ e'.value = i
  past : ∀ ρ e, 0 < ρ → (s.mem .reads)[ρ]? = some e → e.value + cap < s.items.length → ρ ≤ s.producer .reads
  delivered : s.delivered.map Prod.fst ++ s.pop.reading = (s.mem .reads).tail.map (·.value)
  out : ∀ e ∈ s.delivered, s.pushed[e.1]? = some e.2
  push : s.PushOk s.push
  pop : s.PopOk s.pop
  raced : s.raced = false

/-! ### Views -/

namespace Sound
omit [Inhabited α]
variable {m : Memory fun x : Loc cap => x.Val α} {v c : View (Loc cap)} {x : Loc cap} {i : Nat} {a : Bool}

theorem zero (hpos : ∀ x, 0 < (m x).length) : Sound m fun _ => 0 := ⟨hpos, fun k hk => absurd hk (Nat.not_lt_zero k)⟩

theorem store (h : Sound m v) {e : Store (fun x : Loc cap => x.Val α) x} : Sound (m.store x e) v :=
  ⟨h.within.store, h.written⟩

theorem after (h : Sound m v) (hc : Sound m c) (hv : v x ≤ i) (hi : i < (m x).length)
    (ht : x = .tail → i ≤ v .tail ∨ a = true ∧ i ≤ c .tail) : Sound m (v.after a x i c) := by
  refine ⟨h.within.after hi hc.within, fun k hk => ?_⟩
  have hcases : k < v .tail ∨ a = true ∧ k < c .tail := by
    rcases lt_max_iff.1 hk with hk | hk
    · rw [Function.update_apply] at hk
      split at hk
      · next hx =>
        rcases ht hx.symm with hle | ⟨ha, hle⟩
        · exact .inl (hk.trans_le hle)
        · exact .inr ⟨ha, hk.trans_le hle⟩
      · exact .inl hk
    · split at hk
      · next ha => exact .inr ⟨ha, hk⟩
      · exact absurd hk (Nat.not_lt_zero k)
  rcases hcases with hk | ⟨ha, hk⟩
  · exact (h.written k hk).trans (View.le_after hv _)
  · exact (hc.written k hk).trans (View.carried_le_after ha _)

theorem wrote (h : Sound m v) (hx : x ≠ .tail) {e : Store (fun x : Loc cap => x.Val α) x} :
    Sound (m.store x e) (v.wrote m x) := by
  refine ⟨h.within.wrote, fun k hk => ?_⟩
  rw [View.wrote_of_ne hx.symm] at hk
  exact (h.written k hk).trans (View.le_wrote h.within x _)

end Sound

/-! ### What the other thread leaves alone -/

section Frame
variable {s s' : WeakRing α cap}

omit [NeZero cap] in
theorem PushOk.frame {pc : PushPc α} (h : s.PushOk pc) (hp : s'.pushed = s.pushed) (hv : s.producer ≤ s'.producer)
    (hc : ∀ item tail, pc = .write item tail → s.Cleared → s'.Cleared) : s'.PushOk pc := by
  have hlt : s.pushed.length < s.producer .head + cap → s'.pushed.length < s'.producer .head + cap :=
    fun h => hp ▸ h.trans_le (Nat.add_le_add_right (hv _) _)
  cases pc with
  | idle | loadTail item | wake => trivial
  | loadHead item tail | evict item tail head | publish item tail =>
    unfold PushOk
    rw [hp]
    exact h
  | count item tail | spin item tail => exact ⟨hp ▸ h.1, hlt h.2⟩
  | write item tail => exact ⟨⟨hp ▸ h.1.1, hlt h.1.2⟩, hc item tail rfl h.2⟩

theorem PopOk.frame {pc : PopPc α} (h : s.PopOk pc) (hp : s.pushed <+: s'.pushed)
    (ht : s'.consumer .tail = s.consumer .tail) (hf : ∀ j, s'.mem (.readerActive j) = s.mem (.readerActive j))
    (hread : ∀ head, pc = .read head → s'.items.length ≤ head.toNat + cap ∧
      ∀ e, (s'.mem .head)[head.toNat + 1]? = some e → (s.mem .head)[head.toNat + 1]? = some e) : s'.PopOk pc := by
  have hann : ∀ j, s.Announced j → s'.Announced j := fun j hj => by
    unfold Announced Memory.current at hj ⊢
    rwa [hf j]
  cases pc with
  | announce head =>
    unfold PopOk
    rw [ht]
    exact h
  | claim head =>
    obtain ⟨hne, ha⟩ := h
    exact ⟨ht ▸ hne, hann _ ha⟩
  | read head =>
    obtain ⟨⟨hlt, -⟩, ha, hlast⟩ := h
    obtain ⟨hle, hget⟩ := hread head rfl
    refine ⟨⟨ht ▸ hlt, hle⟩, hann _ ha, fun e he => ?_⟩
    unfold Memory.last
    rw [hf]
    exact hlast e (hget e he)
  | release head out =>
    obtain ⟨rest, hrest⟩ := hp
    have hget : s.pushed[head.toNat]? = some out := h
    show s'.pushed[head.toNat]? = some out
    rw [← hrest, List.getElem?_append_left (List.getElem?_eq_some_iff.1 hget).1, hget]
  | _ => trivial

omit [NeZero cap] in
theorem Acquired.mono {w : View (Loc cap)} (ha : s.Acquired w) (hm : s'.mem .head = s.mem .head)
    (hp : s.producer ≤ s'.producer) : s'.Acquired w := by
  intro i e he hi
  rw [hm] at he
  exact (ha i e he hi).imp_right fun h => h.trans (hp _)

theorem Acquired.store {w : View (Loc cap)} (ha : s.Acquired w) (hw : Sound s.mem w)
    {e' : Store (fun x : Loc cap => x.Val α) .head} (hm : s'.mem .head = s.mem.store .head e' .head)
    (hp : s.producer ≤ s'.producer) : s'.Acquired w := by
  intro i e he hi
  rw [hm] at he
  rcases Memory.getElem?_store_cases he with he | ⟨rfl, rfl⟩
  · exact (ha i e he hi).imp_right fun h => h.trans (hp _)
  · exact absurd hi (Nat.not_le.2 (hw.within .head))

end Frame

/-! ### What follows -/

namespace Inv
variable {s : WeakRing α cap} {v : View (Loc cap)} {i : Nat}

theorem tail_le (h : s.Inv) (hv : Sound s.mem v) : v .tail ≤ s.pushed.length := by
  have := hv.within .tail
  rw [h.length] at this
  omega

theorem last_lt (h : s.Inv) (x : Loc cap) : s.mem.last x < (s.mem x).length := Nat.sub_one_lt (h.pos x).ne'

theorem length_eq (h : s.Inv) (x : Loc cap) : (s.mem x).length = s.mem.last x + 1 :=
  (Nat.sub_add_cancel (h.pos x)).symm

theorem le_last (h : s.Inv) (hv : Sound s.mem v) (x : Loc cap) : v x ≤ s.mem.last x := by
  have hv := hv.within x
  rw [h.length_eq] at hv
  exact Nat.lt_succ_iff.1 hv

/-- A transition of `head_` is known to nobody before its item is published. -/
theorem claim_le (h : s.Inv) (hi : i ≤ s.mem.last .head) : i ≤ s.pushed.length := by
  have he := List.getElem?_eq_getElem (hi.trans_lt (h.last_lt .head))
  rcases h.behind i _ he with hlt | hle
  · exact hlt.le.trans (h.tail_le (h.sound _ _ (List.mem_of_getElem? he)))
  · exact hle.trans (h.tail_le h.consumer)

theorem index_le (h : s.Inv) {x : Loc cap} {e : Store (fun x : Loc cap => x.Val α) x} (he : (s.mem x)[i]? = some e) :
    i ≤ s.mem.last x := by
  have hi := (List.getElem?_eq_some_iff.1 he).1
  rw [h.length_eq] at hi
  exact Nat.lt_succ_iff.1 hi

theorem carried_le (h : s.Inv) {j : Nat} {e e' : Store (fun x : Loc cap => x.Val α) .head}
    (he : (s.mem .head)[i]? = some e) (he' : (s.mem .head)[j]? = some e') (hij : i ≤ j) : e.carried ≤ e'.carried := by
  rcases Nat.lt_or_eq_of_le hij with hlt | rfl
  · obtain ⟨hi, rfl⟩ := List.getElem?_eq_some_iff.1 he
    obtain ⟨hj, rfl⟩ := List.getElem?_eq_some_iff.1 he'
    exact List.pairwise_iff_getElem.1 h.grows i j hi hj hlt
  · rw [he, Option.some.injEq] at he'
    rw [he']

theorem items_le (h : s.Inv) {head : UInt64} (hpc : s.pop = .read head) : s.items.length ≤ head.toNat + cap := by
  have hpop := h.pop
  rw [hpc] at hpop
  exact hpop.1.2

/-! ### Stores -/

section Store
variable {x : Loc cap} {e : Store (fun x : Loc cap => x.Val α) x}

theorem pos_store (h : s.Inv) (y : Loc cap) : 0 < (s.mem.store x e y).length :=
  (h.pos y).trans_le (Memory.length_store y)

theorem sound_store (h : s.Inv) (he : Sound (s.mem.store x e) e.carried) (y : Loc cap)
    (e' : Store (fun x : Loc cap => x.Val α) y) (he' : e' ∈ s.mem.store x e y) : Sound (s.mem.store x e) e'.carried := by
  rcases Memory.mem_store he' with he' | ⟨rfl, rfl⟩
  · exact (h.sound y e' he').store
  · exact he

theorem producerOwn_store (h : s.Inv) (hx : ¬x.Produced) (y : Loc cap) (hy : y.Produced) :
    (s.mem.store x e).last y ≤ s.producer y := by
  rw [Memory.last_store_of_ne (by rintro rfl; exact hx hy)]
  exact h.producerOwn y hy

theorem consumerOwn_store (h : s.Inv) (hx : ¬x.Consumed) (y : Loc cap) (hy : y.Consumed) :
    (s.mem.store x e).last y ≤ s.consumer y := by
  rw [Memory.last_store_of_ne (by rintro rfl; exact hx hy)]
  exact h.consumerOwn y hy

theorem known_wrote (h : s.Inv) (hx : x ≠ .head) (e' : Store (fun x : Loc cap => x.Val α) .head)
    (he' : (s.mem .head)[s.producer.wrote s.mem x .head]? = some e') : e'.carried ≤ s.producer.wrote s.mem x := by
  rw [View.wrote_of_ne hx.symm] at he'
  exact (h.known e' he').trans (View.le_wrote h.producer.within x)

end Store

/-! ### Loads -/

theorem sound_after (h : s.Inv) {w : View (Loc cap)} (hw : Sound s.mem w) {x : Loc cap}
    {e : Store (fun x : Loc cap => x.Val α) x} (hi : w x ≤ i) (he : (s.mem x)[i]? = some e) {a : Bool}
    (ht : x = .tail → i ≤ w .tail ∨ a = true ∧ i ≤ e.carried .tail) : Sound s.mem (w.after a x i e.carried) :=
  hw.after (h.sound _ e (List.mem_of_getElem? he)) hi (List.getElem?_eq_some_iff.1 he).1 ht

theorem producerLoad (h : s.Inv) (hle : s.producer ≤ v) (hs : Sound s.mem v)
    (hk : ∀ e, (s.mem .head)[v .head]? = some e → e.carried ≤ v) {pc : PushPc α} {n : Nat}
    {d : UInt64} (hpc : PushOk { s with producer := v, droppedUpdatesTotal := d, push := pc, lost := n } pc)
    (hu : pc.unpublished = s.push.unpublished) :
    Inv { s with producer := v, droppedUpdatesTotal := d, push := pc, lost := n } := by
  have hitems : items { s with producer := v, droppedUpdatesTotal := d, push := pc, lost := n } = s.items := by
    unfold items
    rw [hu]
  exact {
    pos := h.pos, sound := h.sound, producer := hs, consumer := h.consumer
    producerOwn := fun x hx => (h.producerOwn x hx).trans (hle x), consumerOwn := h.consumerOwn
    head := h.head, grows := h.grows, tail := h.tail, length := h.length
    sentTail := fun e he => (h.sentTail e he).trans hle, sentWake := fun e he => (h.sentWake e he).trans hle
    values := hitems ▸ h.values, behind := h.behind
    window := hitems ▸ h.window.trans (Nat.add_le_add_right (hle _) _), known := hk
    seen := h.seen.imp_left fun h => h.trans (hle _)
    acquired := h.acquired.mono rfl hle, flagAcquired := fun j f hf => (h.flagAcquired j f hf).mono rfl hle
    evicted := h.evicted, claimed := h.claimed, cleared := h.cleared
    past := fun ρ e h₀ he hi => (h.past ρ e h₀ he (hitems ▸ hi)).trans (hle _)
    delivered := h.delivered, out := h.out, push := hpc
    pop := h.pop.frame List.prefix_rfl rfl (fun _ => rfl) fun head hh => ⟨hitems ▸ h.items_le hh, fun _ => id⟩
    raced := h.raced }

/-- Every transition was seen by one of the two, so a consumer that knows more has acquired no less. -/
theorem acquired_of_le (h : s.Inv) (hle : s.consumer ≤ v) : s.Acquired v := by
  intro i e he _
  rcases h.seen with hp | hc
  · exact .inr ((h.index_le he).trans hp)
  · exact (h.acquired i e he ((h.index_le he).trans hc)).imp_left fun h => h.trans hle

theorem consumerLoad (h : s.Inv) (hle : s.consumer ≤ v) (hs : Sound s.mem v) {pc : PopPc α}
    (hpc : PopOk { s with consumer := v, pop := pc } pc) (hc : pc.claiming = [] ∧ s.pop.claiming = [])
    (hr : pc.reading = [] ∧ s.pop.reading = []) : Inv { s with consumer := v, pop := pc } := by
  have hread : ∀ head, pc ≠ .read head := by
    rintro head rfl
    exact absurd hc.1 (List.cons_ne_nil _ _)
  exact {
    pos := h.pos, sound := h.sound, producer := h.producer, consumer := hs
    producerOwn := h.producerOwn, consumerOwn := fun x hx => (h.consumerOwn x hx).trans (hle x)
    head := h.head, grows := h.grows, tail := h.tail, length := h.length
    sentTail := h.sentTail, sentWake := h.sentWake, values := h.values
    behind := fun i e he => (h.behind i e he).imp_right fun h => h.trans (hle _)
    window := h.window, known := h.known, seen := h.seen.imp_right fun h => h.trans (hle _)
    acquired := h.acquired_of_le hle, flagAcquired := h.flagAcquired
    evicted := h.evicted, claimed := hc.1.trans hc.2.symm ▸ h.claimed, cleared := h.cleared, past := h.past
    delivered := hr.1.trans hr.2.symm ▸ h.delivered, out := h.out
    push := h.push.frame rfl le_rfl fun _ _ _ hcl => ⟨hcl.known, fun head hh => absurd hh (hread head)⟩
    pop := hpc, raced := h.raced }

/-! ### Transitions of `head_` -/

section Transition
variable {e : Store (fun x : Loc cap => x.Val α) .head} {head : UInt64}

/-- What a thread knows that wins the compare-exchange. -/
def claimView (m : Memory fun x : Loc cap => x.Val α) (v carried : View (Loc cap)) : View (Loc cap) :=
  (v.after true .head (m.last .head) carried).wrote m .head

theorem claimView_sound (h : s.Inv) (hv : Sound s.mem v) (he : (s.mem .head)[s.mem.last .head]? = some e)
    {e' : Store (fun x : Loc cap => x.Val α) .head} : Sound (s.mem.store .head e') (claimView s.mem v e.carried) := by
  have hafter : Sound s.mem (v.after true .head (s.mem.last .head) e.carried) :=
    h.sound_after hv (h.le_last hv .head) he fun hx => by cases hx
  exact hafter.wrote (by simp)

theorem le_claimView (h : s.Inv) (hv : Sound s.mem v) (he : (s.mem .head)[s.mem.last .head]? = some e) :
    v ≤ claimView s.mem v e.carried ∧ e.carried ≤ claimView s.mem v e.carried := by
  have hc := h.sound _ e (List.mem_of_getElem? he)
  have hin : (v.after true .head (s.mem.last .head) e.carried).In s.mem := hv.within.after (h.last_lt .head) hc.within
  have hle := View.le_wrote hin .head
  exact ⟨fun x => (View.le_after (h.le_last hv .head) x).trans (hle x),
    fun x => (View.carried_le_after rfl x).trans (hle x)⟩

theorem claimView_head (h : s.Inv) (v carried : View (Loc cap)) : claimView s.mem v carried .head = s.mem.last .head + 1 :=
  View.wrote_self.trans (h.length_eq .head)

theorem head_store (h : s.Inv) (hv : head.toNat = s.mem.last .head) (hN : s.mem.last .head + 1 < 2 ^ 64)
    (i : Nat) (e' : Store (fun x : Loc cap => x.Val α) .head)
    (he' : (s.mem.store .head { value := head + 1, carried := claimView s.mem v e.carried } .head)[i]? = some e') :
    UInt64.toNat e'.value = i ∧ e'.carried .head ≤ i := by
  rcases Memory.getElem?_store_cases he' with he' | ⟨rfl, rfl⟩
  · exact h.head i e' he'
  · rw [h.length_eq]
    refine ⟨?_, (h.claimView_head v e.carried).le⟩
    rw [← hv] at hN ⊢
    exact Ring.Inv.toNat_succ (Nat.lt_succ_self _) hN

theorem grows_store (h : s.Inv) (hv : Sound s.mem v) (he : (s.mem .head)[s.mem.last .head]? = some e) {value : UInt64} :
    (s.mem.store .head { value := value, carried := claimView s.mem v e.carried } .head).Pairwise
      fun e e' => e.carried ≤ e'.carried := by
  rw [Memory.store_self, List.pairwise_append]
  refine ⟨h.grows, List.pairwise_singleton _ _, fun a ha b hb => ?_⟩
  rw [List.mem_singleton.1 hb]
  refine le_trans ?_ (h.le_claimView hv he).2
  obtain ⟨i, hi⟩ := List.mem_iff_getElem?.1 ha
  exact h.carried_le hi he (h.index_le hi)

theorem mem_claimed (h : s.Inv) {k : Nat} :
    k ∈ (s.mem .reads).tail.map (·.value) ++ s.pop.claiming ↔ k < s.mem.last .head ∧ k ∉ s.evicted := by
  rw [h.claimed, List.mem_filter, List.mem_range, decide_eq_true_iff]

theorem reads_lt (h : s.Inv) {ρ : Nat} {e : Store (fun x : Loc cap => x.Val α) .reads} (h₀ : 0 < ρ)
    (he : (s.mem .reads)[ρ]? = some e) : e.value < s.mem.last .head ∧ e.value ∉ s.evicted := by
  refine h.mem_claimed.1 (List.mem_append_left _ (List.mem_map.2 ⟨e, ?_, rfl⟩))
  rw [← List.drop_one]
  exact List.mem_iff_getElem?.2 ⟨ρ - 1, by rw [List.getElem?_drop, Nat.add_sub_cancel' h₀, he]⟩

theorem claiming_lt (h : s.Inv) (hpc : s.pop = .read head) : head.toNat < s.mem.last .head ∧ head.toNat ∉ s.evicted := by
  refine h.mem_claimed.1 (List.mem_append_right _ ?_)
  rw [hpc]
  exact List.mem_singleton.2 rfl

theorem evict (h : s.Inv) (hcap : 2 ≤ cap) (hN : s.pushed.length < 2 ^ 64) {item : α} {tail : UInt64}
    (hpc : s.push = .evict item tail head) (he : (s.mem .head)[s.mem.last .head]? = some e) (hv : e.value = head) :
    Inv { s with
      mem := s.mem.store .head { value := head + 1, carried := claimView s.mem s.producer e.carried }
      producer := claimView s.mem s.producer e.carried, push := .count item tail
      evicted := s.evicted ++ [head.toNat] } := by
  have hpush := h.push
  rw [hpc] at hpush
  obtain ⟨ht, hfull⟩ := hpush
  have hhead : head.toNat = s.mem.last .head := hv ▸ (h.head _ e he).1
  obtain ⟨hle, hle'⟩ := h.le_claimView h.producer he
  have hnew := h.claimView_head s.producer e.carried
  have hs : Sound (s.mem.store .head { value := head + 1, carried := claimView s.mem s.producer e.carried })
    (claimView s.mem s.producer e.carried) := h.claimView_sound h.producer he
  have hlen := h.length_eq .head
  have hown := h.producerOwn .tail trivial
  have hitems : s.items = s.pushed ++ [] := by
    rw [items, hpc]
    rfl
  refine {
    pos := h.pos_store
    sound := h.sound_store hs, producer := hs, consumer := h.consumer.store
    producerOwn := fun x hx => (h.producerOwn_store id x hx).trans (hle x)
    consumerOwn := h.consumerOwn_store id
    head := h.head_store hhead (by omega), grows := h.grows_store h.producer he
    tail := h.tail, length := h.length
    sentTail := fun e he => (h.sentTail e he).trans hle, sentWake := fun e he => (h.sentWake e he).trans hle
    values := fun k => (h.values k).trans (congrArg (·[k]?) hitems)
    behind := fun i e' he' => by
      dsimp only at he'
      rcases Memory.getElem?_store_cases he' with he' | ⟨rfl, rfl⟩
      · exact h.behind i e' he'
      · refine .inl (lt_of_lt_of_le ?_ (hown.trans (hle .tail)))
        have := h.length_eq .tail
        have := h.length
        omega
    window := (hitems ▸ h.window).trans (Nat.add_le_add_right (hle _) _)
    known := fun e' he' => by
      dsimp only at he'
      rw [hnew, ← hlen] at he'
      rcases Memory.getElem?_store_cases he' with he' | ⟨-, rfl⟩
      · exact absurd (List.getElem?_eq_some_iff.1 he').1 (Nat.lt_irrefl _)
      · exact le_rfl
    seen := .inl (by dsimp only; rw [Memory.last_store_self, hnew, hlen])
    acquired := h.acquired.store h.consumer rfl hle
    flagAcquired := fun j f hf => (h.flagAcquired j f hf).store (h.sound _ f hf) rfl hle
    evicted := fun i hi => by
      dsimp only
      rw [Memory.last_store_self, hlen]
      rcases List.mem_append.1 hi with hi | hi
      · exact (h.evicted i hi).trans (Nat.lt_succ_self _)
      · rw [List.mem_singleton.1 hi, hhead]
        exact Nat.lt_succ_self _
    claimed := by
      dsimp only
      rw [Memory.last_store_self, hlen, hhead, Ring.Inv.filter_range_evict]
      exact h.claimed
    cleared := fun i hi e' he' => by
      rw [List.mem_append, not_or, List.mem_singleton] at hi
      dsimp only at he'
      rcases Memory.getElem?_store_cases he' with he' | ⟨heq, -⟩
      · exact h.cleared i hi.1 e' he'
      · exact absurd (Nat.succ.inj (heq.trans hlen)) (hhead ▸ hi.2)
    past := fun ρ e' h₀ he' hi => (h.past ρ e' h₀ he' (hitems ▸ hi)).trans (hle _)
    delivered := h.delivered, out := h.out
    push := ⟨ht, by dsimp only; omega⟩
    pop := h.pop.frame List.prefix_rfl rfl (fun _ => rfl) fun head' hh => ?_
    raced := h.raced }
  refine ⟨(hitems ▸ h.items_le hh :), fun e' he' => ?_⟩
  · dsimp only at he'
    rcases Memory.getElem?_store_cases he' with he' | ⟨heq, -⟩
    · exact he'
    · have := (h.claiming_lt hh).1
      omega

/-- The flag is set by the last store to it. -/
theorem announced (h : s.Inv) {j : Fin cap} (ha : s.Announced j) {m : Nat}
    {f : Store (fun x : Loc cap => x.Val α) (.readerActive j)} (hm : s.mem.last (.readerActive j) ≤ m)
    (hf : (s.mem (.readerActive j))[m]? = some f) : f.value = true := by
  have hm' : m = s.mem.last (.readerActive j) := le_antisymm (h.index_le hf) hm
  rw [hm', Memory.getElem?_last] at hf
  rw [Announced, hf] at ha
  exact Option.some.inj ha

theorem claim (h : s.Inv) (hN : s.pushed.length < 2 ^ 64) (hpc : s.pop = .claim head)
    (he : (s.mem .head)[s.mem.last .head]? = some e) (hv : e.value = head) :
    Inv { s with
      mem := s.mem.store .head { value := head + 1, carried := claimView s.mem s.consumer e.carried }
      consumer := claimView s.mem s.consumer e.carried, pop := .read head } := by
  have hpop := h.pop
  rw [hpc] at hpop
  obtain ⟨hne, hann⟩ := hpop
  have hhead : head.toNat = s.mem.last .head := hv ▸ (h.head _ e he).1
  obtain ⟨hle, hle'⟩ := h.le_claimView h.consumer he
  have hnew := h.claimView_head s.consumer e.carried
  have hs : Sound (s.mem.store .head { value := head + 1, carried := claimView s.mem s.consumer e.carried })
    (claimView s.mem s.consumer e.carried) := h.claimView_sound h.consumer he
  have hlen := h.length_eq .head
  -- the item is published: the one who evicted the item before knew it, or the consumer itself saw it
  have hpub : s.mem.last .head < claimView s.mem s.consumer e.carried .tail := by
    rcases h.behind _ e he with hlt | hlt
    · exact hlt.trans_le (hle' .tail)
    · exact (lt_of_le_of_ne hlt (hhead ▸ hne)).trans_le (hle .tail)
  have hpub' : claimView s.mem s.consumer e.carried .tail < s.pushed.length + 1 := h.length ▸ hs.within .tail
  have hwin : s.items.length ≤ head.toNat + cap :=
    hhead ▸ h.window.trans (Nat.add_le_add_right (h.le_last h.producer .head) _)
  have hflag := h.consumerOwn (.readerActive (slotAt cap head.toNat)) trivial
  refine {
    pos := h.pos_store
    sound := h.sound_store hs, producer := h.producer.store, consumer := hs
    producerOwn := h.producerOwn_store id
    consumerOwn := fun x hx => (h.consumerOwn_store id x hx).trans (hle x)
    head := h.head_store hhead (by omega), grows := h.grows_store h.consumer he
    tail := h.tail, length := h.length, sentTail := h.sentTail, sentWake := h.sentWake, values := h.values
    behind := fun i e' he' => by
      dsimp only at he'
      rcases Memory.getElem?_store_cases he' with he' | ⟨rfl, rfl⟩
      · exact (h.behind i e' he').imp_right fun h => h.trans (hle _)
      · exact .inr (hlen ▸ hpub)
    window := h.window
    known := fun e' he' => by
      dsimp only at he'
      rcases Memory.getElem?_store_cases he' with he' | ⟨heq, -⟩
      · exact h.known e' he'
      · exact absurd heq (h.producer.within .head).ne
    seen := .inr (by dsimp only; rw [Memory.last_store_self, hnew, hlen])
    acquired := fun i e' he' _ => by
      dsimp only at he'
      rcases Memory.getElem?_store_cases he' with he' | ⟨-, rfl⟩
      · exact .inl ((h.carried_le he' he (h.index_le he')).trans hle')
      · exact .inl le_rfl
    flagAcquired := fun j f hf => (h.flagAcquired j f hf).store (h.sound _ f hf) rfl le_rfl
    evicted := fun i hi => by
      dsimp only
      rw [Memory.last_store_self, hlen]
      exact (h.evicted i hi).trans (Nat.lt_succ_self _)
    claimed := by
      have hclaimed := h.claimed
      rw [hpc] at hclaimed
      dsimp only
      rw [Memory.last_store_self, hlen, Ring.Inv.filter_range_claim h.evicted, ← hclaimed, ← hhead]
      exact congrArg (· ++ _) (List.append_nil _).symm
    cleared := fun i hi e' he' m f hm hf hfalse => by
      dsimp only at he'
      rcases Memory.getElem?_store_cases he' with he' | ⟨heq, rfl⟩
      · exact h.cleared i hi e' he' m f hm hf hfalse
      · have hi' : i = head.toNat := by omega
        subst hi'
        exact absurd (h.announced hann (hflag.trans ((hle _).trans hm)) hf) (by rw [hfalse]; exact Bool.false_ne_true)
    past := h.past
    delivered := by
      have hdel := h.delivered
      rw [hpc] at hdel
      exact hdel
    out := h.out
    push := h.push.frame rfl le_rfl fun item tail hw hcl => ?_
    pop := ⟨⟨hhead ▸ hpub, hwin⟩, hann, fun e' he' => ?_⟩
    raced := h.raced }
  · have hpush := h.push
    rw [hw] at hpush
    have hlt := hpush.1.2
    have hph := h.le_last h.producer .head
    refine ⟨hcl.known, fun head' hh => ?_⟩
    cases hh
    dsimp only
    omega
  · dsimp only at he'
    rcases Memory.getElem?_store_cases he' with he' | ⟨-, rfl⟩
    · have := h.index_le he'
      omega
    · exact hflag.trans (hle _)

end Transition

/-! ### Stores of the producer -/

section Producer
variable {item : α} {tail : UInt64}

omit [NeZero cap] in
theorem div_lt_of_mod_eq {k t : Nat} (hmod : k % cap = t % cap) (hlt : k < t) : k / cap < t / cap := by
  by_contra hle
  have hmul := Nat.mul_le_mul_left cap (Nat.not_lt.1 hle)
  have hk := Nat.div_add_mod k cap
  have ht := Nat.div_add_mod t cap
  omega

/-- The slot the producer writes next has been written once in each round before. -/
theorem length_value (h : s.Inv) {t : Nat} (ht : t = s.items.length) :
    (s.mem (.value (slotAt cap t))).length = t / cap + 1 := by
  have hcap := NeZero.pos cap
  have hle : (s.mem (.value (slotAt cap t))).length ≤ t / cap + 1 := by
    have hv := h.values t
    rw [List.getElem?_eq_none ht.ge, Option.map_eq_none_iff] at hv
    exact List.getElem?_eq_none_iff.1 hv
  refine le_antisymm hle ?_
  rcases Nat.lt_or_ge t cap with hlt | hge
  · rw [Nat.div_eq_of_lt hlt]
    exact h.pos _
  · -- the round before
    have hslot : slotAt cap (t - cap) = slotAt cap t := Fin.ext (Nat.mod_eq_sub_mod hge).symm
    have hv := h.values (t - cap)
    rw [hslot, List.getElem?_eq_getElem (show t - cap < s.items.length by omega), ← Nat.div_eq_sub_div hcap hge] at hv
    obtain ⟨e, he, -⟩ := Option.map_eq_some_iff.1 hv
    exact (List.getElem?_eq_some_iff.1 he).1

theorem values_write (h : s.Inv) {t : Nat} (ht : t = s.items.length) (k : Nat) :
    ((s.mem.store (.value (slotAt cap t)) { value := item } (.value (slotAt cap k)))[k / cap + 1]?).map (·.value) =
      (s.items ++ [item])[k]? := by
  have hlen := h.length_value ht
  by_cases hslot : slotAt cap k = slotAt cap t
  · have hmod : k % cap = t % cap := congrArg Fin.val hslot
    rw [hslot, Memory.store_self]
    rcases Nat.lt_trichotomy k t with hlt | rfl | hlt
    · have hdiv := div_lt_of_mod_eq hmod hlt
      have hv := h.values k
      rw [hslot] at hv
      rw [List.getElem?_append_left (by omega), List.getElem?_append_left (by omega), hv]
    · rw [← hlen, List.getElem?_concat_length, ht, List.getElem?_concat_length]
      rfl
    · have hdiv := div_lt_of_mod_eq hmod.symm hlt
      rw [List.getElem?_eq_none, List.getElem?_eq_none]
      · rfl
      · rw [List.length_append, List.length_singleton]
        omega
      · rw [List.length_append, List.length_singleton]
        omega
  · have hne : k ≠ t := fun hk => hslot (congrArg _ hk)
    rw [Memory.store_of_ne (by simpa using hslot), h.values k]
    rcases Nat.lt_or_gt_of_ne hne with hlt | hlt
    · rw [List.getElem?_append_left (by omega)]
    · rw [List.getElem?_eq_none (by omega), List.getElem?_eq_none]
      rw [List.length_append, List.length_singleton]
      omega

theorem producerAlone (h : s.Inv) (hitems : s.items = s.pushed) (ht : tail.toNat = s.pushed.length) (hc : s.Cleared) :
    s.ProducerAlone (slotAt cap tail.toNat) := by
  refine ⟨h.producerOwn _ trivial, fun e he hslot => ?_⟩
  obtain ⟨k, hk⟩ := List.mem_iff_getElem?.1 he
  rw [List.getElem?_drop] at hk
  have hlt : (e.value : Nat) < s.pushed.length := h.claim_le (Nat.succ_le_of_lt (h.reads_lt (by omega) hk).1)
  -- an index of the same slot is a round back, and such a read is known
  have hround : (e.value : Nat) + cap ≤ s.pushed.length := by
    by_contra hnot
    rw [ht] at hslot
    exact slotAt_ne hlt (Nat.not_le.1 hnot) hslot
  have hknown : s.producer .reads + 1 + k ≤ s.producer .reads := by
    rcases Nat.lt_or_eq_of_le hround with hlt | heq
    · exact h.past _ e (by omega) hk (hitems ▸ hlt)
    · exact hc.known _ e (by omega) hk heq
  omega

theorem write (h : s.Inv) (hpc : s.push = .write item tail) :
    Inv { s with
      mem := s.mem.store (.value (slotAt cap tail.toNat)) { value := item }
      producer := s.producer.wrote s.mem (.value (slotAt cap tail.toNat)), push := .publish item tail
      raced := s.raced || !decide (s.ProducerAlone (slotAt cap tail.toNat)) } := by
  have hpush := h.push
  rw [hpc] at hpush
  obtain ⟨⟨ht, hroom⟩, hclear⟩ := hpush
  have hle := View.le_wrote h.producer.within (.value (slotAt cap tail.toNat))
  have hitems : s.items = s.pushed := by
    rw [items, hpc]
    exact List.append_nil _
  have hhead : s.producer.wrote s.mem (.value (slotAt cap tail.toNat)) .head = s.producer .head := View.wrote_of_ne (by simp)
  have hs : Sound (s.mem.store (.value (slotAt cap tail.toNat)) { value := item })
    (s.producer.wrote s.mem (.value (slotAt cap tail.toNat))) := h.producer.wrote (by simp)
  refine {
    pos := h.pos_store
    sound := h.sound_store (.zero h.pos_store)
    producer := hs, consumer := h.consumer.store
    producerOwn := fun x hx => View.last_store_le_wrote (h.producerOwn x hx)
    consumerOwn := h.consumerOwn_store id
    head := h.head, grows := h.grows, tail := h.tail, length := h.length
    sentTail := fun e he => (h.sentTail e he).trans hle, sentWake := fun e he => (h.sentWake e he).trans hle
    values := fun k => ?_, behind := h.behind
    window := by
      dsimp only
      rw [hhead, items, PushPc.unpublished, List.length_append, List.length_singleton]
      exact hroom
    known := h.known_wrote (x := .value (slotAt cap tail.toNat)) (by simp)
    seen := hhead.symm ▸ h.seen
    acquired := h.acquired.mono rfl hle, flagAcquired := fun j f hf => (h.flagAcquired j f hf).mono rfl hle
    evicted := h.evicted, claimed := h.claimed, cleared := h.cleared
    past := fun ρ e h₀ he hi => ?_
    delivered := h.delivered, out := h.out, push := ht
    pop := h.pop.frame List.prefix_rfl rfl (fun _ => rfl) fun head hh => ⟨?_, fun _ => id⟩
    raced := ?_ }
  · exact hitems ▸ h.values_write (hitems ▸ ht) k
  · refine le_trans ?_ (hle .reads)
    rw [items, PushPc.unpublished, List.length_append, List.length_singleton, Nat.lt_succ_iff] at hi
    rcases Nat.lt_or_eq_of_le hi with hi | hi
    · exact h.past ρ e h₀ he (hitems ▸ hi)
    · exact hclear.known ρ e h₀ he hi
  · have hle := h.items_le hh
    have hne := hclear.none head hh
    rw [hitems] at hle
    rw [items, PushPc.unpublished, List.length_append, List.length_singleton]
    dsimp only
    omega
  · dsimp only
    rw [h.raced, decide_eq_true (h.producerAlone hitems ht hclear)]
    rfl

theorem publish (h : s.Inv) (hpc : s.push = .publish item tail) (hN : s.pushed.length + 1 < 2 ^ 64) :
    Inv { s with
      mem := s.mem.store .tail { value := tail + 1, carried := s.producer.wrote s.mem .tail }
      producer := s.producer.wrote s.mem .tail, push := .wake, pushed := s.pushed ++ [item] } := by
  have ht := h.push
  rw [hpc] at ht
  have ht : tail.toNat = s.pushed.length := ht
  have hle := View.le_wrote h.producer.within .tail
  have hhead : s.producer.wrote s.mem .tail .head = s.producer .head := View.wrote_of_ne (by simp)
  have hnew : s.producer.wrote s.mem .tail .tail = s.pushed.length + 1 := View.wrote_self.trans h.length
  have hitems : s.items = s.pushed ++ [item] ++ [] := by
    rw [items, hpc]
    exact (List.append_nil _).symm
  have hitem : s.items.length = s.pushed.length + 1 := by
    rw [hitems, List.append_nil, List.length_append, List.length_singleton]
  have hs : Sound (s.mem.store .tail { value := tail + 1, carried := s.producer.wrote s.mem .tail })
      (s.producer.wrote s.mem .tail) := by
    refine ⟨h.producer.within.wrote, fun k hk => ?_⟩
    rw [hnew, ← hitem] at hk
    have hv := h.values k
    rw [List.getElem?_eq_getElem hk] at hv
    obtain ⟨e, he, -⟩ := Option.map_eq_some_iff.1 hv
    exact (h.index_le he).trans ((h.producerOwn (.value (slotAt cap k)) trivial).trans (hle _))
  exact {
    pos := h.pos_store
    sound := h.sound_store hs, producer := hs, consumer := h.consumer.store
    producerOwn := fun x hx => View.last_store_le_wrote (h.producerOwn x hx)
    consumerOwn := h.consumerOwn_store id
    head := h.head, grows := h.grows
    tail := fun i e he => by
      dsimp only at he
      rcases Memory.getElem?_store_cases he with he | ⟨rfl, rfl⟩
      · exact h.tail i e he
      · rw [h.length]
        refine ⟨?_, hnew⟩
        rw [← ht] at hN ⊢
        exact Ring.Inv.toNat_succ (Nat.lt_succ_self _) hN
    length := by
      dsimp only
      rw [Memory.store_self, List.length_append, List.length_singleton, h.length, List.length_append, List.length_singleton]
    sentTail := fun e he => by
      dsimp only at he
      rcases Memory.mem_store he with he | ⟨-, rfl⟩
      · exact (h.sentTail e he).trans hle
      · exact le_rfl
    sentWake := fun e he => (h.sentWake e he).trans hle
    values := fun k => (h.values k).trans (congrArg (·[k]?) hitems)
    behind := h.behind, window := (hitems ▸ h.window).trans (Nat.add_le_add_right (hle _) _)
    known := h.known_wrote (x := .tail) (by simp)
    seen := hhead.symm ▸ h.seen
    acquired := h.acquired.mono rfl hle, flagAcquired := fun j f hf => (h.flagAcquired j f hf).mono rfl hle
    evicted := h.evicted, claimed := h.claimed, cleared := h.cleared
    past := fun ρ e h₀ he hi => (h.past ρ e h₀ he (hitems ▸ hi)).trans (hle _)
    delivered := h.delivered
    out := fun e he => by
      dsimp only
      rw [List.getElem?_append_left (List.getElem?_eq_some_iff.1 (h.out e he)).1, h.out e he]
    push := trivial
    pop := h.pop.frame (List.prefix_append _ _) rfl (fun _ => rfl) fun head hh => ⟨(hitems ▸ h.items_le hh :), fun _ => id⟩
    raced := h.raced }

theorem signal (h : s.Inv) (hu : s.push.unpublished = []) {e : Store (fun x : Loc cap => x.Val α) .wakeGeneration}
    (he : s.mem.current .wakeGeneration = some e) :
    Inv { s with
      mem := s.mem.store .wakeGeneration
        { value := (e.value : UInt64) + 1, carried := s.producer.wrote s.mem .wakeGeneration ⊔ e.carried }
      producer := s.producer.wrote s.mem .wakeGeneration, push := .idle } := by
  have hle := View.le_wrote h.producer.within .wakeGeneration
  have hcarried : s.producer.wrote s.mem .wakeGeneration ⊔ e.carried = s.producer.wrote s.mem .wakeGeneration :=
    sup_eq_left.2 ((h.sentWake e (List.mem_of_getLast? he)).trans hle)
  have hhead : s.producer.wrote s.mem .wakeGeneration .head = s.producer .head := View.wrote_of_ne (by simp)
  have hitems : s.items = s.pushed ++ [] := by rw [items, hu]
  have hs : ∀ {e'}, Sound (s.mem.store .wakeGeneration e') (s.producer.wrote s.mem .wakeGeneration) :=
    h.producer.wrote (by simp)
  rw [hcarried]
  exact {
    pos := h.pos_store
    sound := h.sound_store hs, producer := hs, consumer := h.consumer.store
    producerOwn := fun x hx => View.last_store_le_wrote (h.producerOwn x hx)
    consumerOwn := h.consumerOwn_store id
    head := h.head, grows := h.grows, tail := h.tail, length := h.length
    sentTail := fun e he => (h.sentTail e he).trans hle
    sentWake := fun e he => by
      dsimp only at he
      rcases Memory.mem_store he with he | ⟨-, rfl⟩
      · exact (h.sentWake e he).trans hle
      · exact le_rfl
    values := fun k => (h.values k).trans (congrArg (·[k]?) hitems)
    behind := h.behind, window := (hitems ▸ h.window).trans (Nat.add_le_add_right (hle _) _)
    known := h.known_wrote (x := .wakeGeneration) (by simp)
    seen := hhead.symm ▸ h.seen
    acquired := h.acquired.mono rfl hle, flagAcquired := fun j f hf => (h.flagAcquired j f hf).mono rfl hle
    evicted := h.evicted, claimed := h.claimed, cleared := h.cleared
    past := fun ρ e h₀ he hi => (h.past ρ e h₀ he (hitems ▸ hi)).trans (hle _)
    delivered := h.delivered, out := h.out, push := trivial
    pop := h.pop.frame List.prefix_rfl rfl (fun _ => rfl) fun head hh => ⟨(hitems ▸ h.items_le hh :), fun _ => id⟩
    raced := h.raced }

end Producer

/-! ### Stores of the consumer -/

section Consumer
variable {head : UInt64} {pc : PopPc α}

/-- Once nothing is claimed and unread, every claimed index is in the log of reads. -/
theorem exists_read (h : s.Inv) (hc : s.pop.claiming = []) (hi : i < s.mem.last .head) (hi' : i ∉ s.evicted) :
    ∃ ρ e, ρ ≤ s.consumer .reads ∧ 0 < ρ ∧ (s.mem .reads)[ρ]? = some e ∧ e.value = i := by
  have hmem := h.mem_claimed.2 ⟨hi, hi'⟩
  rw [hc, List.append_nil] at hmem
  obtain ⟨e, he, hv⟩ := List.mem_map.1 hmem
  rw [← List.drop_one] at he
  obtain ⟨k, hk⟩ := List.mem_iff_getElem?.1 he
  rw [List.getElem?_drop] at hk
  exact ⟨1 + k, e, (h.index_le hk).trans (h.consumerOwn .reads trivial), by omega, hk, hv⟩

/-- A store to a flag clears it only when nothing is claimed and unread. -/
theorem flag (h : s.Inv) (j : Fin cap) (x : Bool) (hc : pc.claiming = [] ∧ s.pop.claiming = [])
    {d : List (Nat × α)} (hd : d.map Prod.fst ++ pc.reading = s.delivered.map Prod.fst ++ s.pop.reading)
    (hout : ∀ e ∈ d, s.pushed[e.1]? = some e.2)
    (hpc : PopOk { s.storeReaderActive j x with pop := pc, delivered := d } pc) :
    Inv { s.storeReaderActive j x with pop := pc, delivered := d } := by
  have hle := View.le_wrote h.consumer.within (.readerActive j)
  have hreads : s.consumer.wrote s.mem (.readerActive j) .reads = s.consumer .reads := View.wrote_of_ne (by simp)
  have hread : ∀ head, pc ≠ .read head := by
    rintro head rfl
    exact absurd hc.1 (List.cons_ne_nil _ _)
  have hs : Sound (s.mem.store (.readerActive j) { value := x, carried := s.consumer.wrote s.mem (.readerActive j) })
    (s.consumer.wrote s.mem (.readerActive j)) := h.consumer.wrote (by simp)
  have hacq : s.Acquired (s.consumer.wrote s.mem (.readerActive j)) := h.acquired_of_le hle
  exact {
    pos := h.pos_store
    sound := h.sound_store hs, producer := h.producer.store, consumer := hs
    producerOwn := h.producerOwn_store id
    consumerOwn := fun x hx => View.last_store_le_wrote (h.consumerOwn x hx)
    head := h.head, grows := h.grows, tail := h.tail, length := h.length, sentTail := h.sentTail, sentWake := h.sentWake
    values := h.values, behind := fun i e he => (h.behind i e he).imp_right fun h => h.trans (hle _)
    window := h.window, known := h.known, seen := h.seen.imp_right fun h => h.trans (hle _)
    acquired := hacq
    flagAcquired := fun k f hf => by
      dsimp only [storeReaderActive] at hf
      rcases Memory.mem_store hf with hf | ⟨hk, rfl⟩
      · exact h.flagAcquired k f hf
      · cases hk
        exact hacq
    evicted := h.evicted, claimed := (hc.1.trans hc.2.symm) ▸ h.claimed
    cleared := fun i hi e he m f hm hf hfalse => by
      dsimp only [storeReaderActive] at hf
      by_cases hj : slotAt cap i = j
      · subst hj
        rcases Memory.getElem?_store_cases hf with hf | ⟨-, rfl⟩
        · exact h.cleared i hi e he m f hm hf hfalse
        · dsimp only
          rw [hreads]
          exact h.exists_read hc.2 (h.index_le he) hi
      · rw [Memory.store_of_ne (by simpa using hj)] at hf
        exact h.cleared i hi e he m f hm hf hfalse
    past := h.past, delivered := hd.trans h.delivered, out := hout
    push := h.push.frame rfl le_rfl fun _ _ _ hcl => ⟨hcl.known, fun head hh => absurd hh (hread head)⟩
    pop := hpc, raced := h.raced }

/-- The slot of a claimed index holds its item, and the consumer knows it. -/
theorem value_read (h : s.Inv) (hpc : s.pop = .read head) {e : Store (fun x : Loc cap => x.Val α) (.value (slotAt cap head.toNat))}
    (he : s.mem.current (.value (slotAt cap head.toNat)) = some e) :
    s.pushed[head.toNat]? = some e.value ∧ s.ConsumerAlone (slotAt cap head.toNat) := by
  have hpop := h.pop
  rw [hpc] at hpop
  obtain ⟨⟨hlt, hroom⟩, -⟩ := hpop
  have hcap := NeZero.pos cap
  have hknown := h.consumer.written _ hlt
  -- the next item of the slot is not there yet
  have hlast : s.mem.last (.value (slotAt cap head.toNat)) ≤ head.toNat / cap + 1 := by
    have hv := h.values (head.toNat + cap)
    have hslot : slotAt cap (head.toNat + cap) = slotAt cap head.toNat := Fin.ext (Nat.add_mod_right _ _)
    rw [hslot, List.getElem?_eq_none hroom, Option.map_eq_none_iff, List.getElem?_eq_none_iff, Nat.add_div_right _ hcap,
      h.length_eq] at hv
    omega
  have hle := h.le_last h.consumer (.value (slotAt cap head.toNat))
  have heq : s.mem.last (.value (slotAt cap head.toNat)) = head.toNat / cap + 1 := le_antisymm hlast (hknown.trans hle)
  refine ⟨?_, hlast.trans hknown⟩
  have hv := h.values head.toNat
  rw [← heq, Memory.getElem?_last, he, items, List.getElem?_append_left (hlt.trans_le (h.tail_le h.consumer))] at hv
  exact hv.symm

theorem read (h : s.Inv) (hpc : s.pop = .read head) {e : Store (fun x : Loc cap => x.Val α) (.value (slotAt cap head.toNat))}
    (he : s.mem.current (.value (slotAt cap head.toNat)) = some e) :
    Inv { s with
      mem := s.mem.store .reads { value := head.toNat }, consumer := s.consumer.wrote s.mem .reads
      pop := .release head e.value, raced := s.raced || !decide (s.ConsumerAlone (slotAt cap head.toNat)) } := by
  have hle := View.le_wrote h.consumer.within .reads
  obtain ⟨hvalue, halone⟩ := h.value_read hpc he
  have hroom := h.items_le hpc
  have hs : Sound (s.mem.store .reads { value := head.toNat }) (s.consumer.wrote s.mem .reads) := h.consumer.wrote (by simp)
  have htail : (s.mem.store .reads { value := head.toNat } .reads).tail.map (·.value) =
      (s.mem .reads).tail.map (·.value) ++ [head.toNat] := by
    rw [Memory.store_self, List.tail_append_of_ne_nil (List.ne_nil_of_length_pos (h.pos .reads)), List.map_append]
    rfl
  have hclaimed := h.claimed
  have hdelivered := h.delivered
  rw [hpc] at hclaimed hdelivered
  exact {
    pos := h.pos_store
    sound := h.sound_store (.zero h.pos_store)
    producer := h.producer.store, consumer := hs
    producerOwn := h.producerOwn_store id
    consumerOwn := fun x hx => View.last_store_le_wrote (h.consumerOwn x hx)
    head := h.head, grows := h.grows, tail := h.tail, length := h.length, sentTail := h.sentTail, sentWake := h.sentWake
    values := h.values, behind := fun i e he => (h.behind i e he).imp_right fun h => h.trans (hle _)
    window := h.window, known := h.known, seen := h.seen.imp_right fun h => h.trans (hle _)
    acquired := h.acquired_of_le hle, flagAcquired := h.flagAcquired
    evicted := h.evicted
    claimed := by
      dsimp only
      rw [htail]
      exact (List.append_nil _).trans hclaimed
    cleared := fun i hi e he m f hm hf hfalse => by
      obtain ⟨ρ, e', hρ, h₀, he', hv⟩ := h.cleared i hi e he m f hm hf hfalse
      exact ⟨ρ, e', hρ, h₀, (Memory.getElem?_store he' : (s.mem.store .reads _ .reads)[ρ]? = some e'), hv⟩
    past := fun ρ e h₀ he hi => by
      dsimp only at he
      rcases Memory.getElem?_store_cases he with he | ⟨-, rfl⟩
      · exact h.past ρ e h₀ he hi
      · exact absurd hi (Nat.not_lt.2 hroom)
    delivered := by
      dsimp only
      rw [htail, ← hdelivered]
      exact congrArg (· ++ _) (List.append_nil _).symm
    out := h.out
    push := h.push.frame rfl le_rfl fun _ _ _ hcl => by
      refine ⟨fun ρ e h₀ he hi => ?_, fun head' hh => by cases hh⟩
      dsimp only at he
      rcases Memory.getElem?_store_cases he with he | ⟨-, rfl⟩
      · exact hcl.known ρ e h₀ he hi
      · exact absurd hi (hcl.none head hpc)
    pop := hvalue
    raced := by
      dsimp only
      rw [h.raced, decide_eq_true halone]
      rfl }

end Consumer

end Inv

end WeakRing

end Mdfh
