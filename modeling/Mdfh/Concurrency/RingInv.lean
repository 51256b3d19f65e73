import Mdfh.Concurrency.SpscRingBuffer

/-!
# The invariant of the ring buffer

With `N` items pushed and head index `H`: `H ≤ N ≤ H + cap`, and the slots of the indices from `H` on
hold what was pushed there. Once the producer is past its eviction there is room, `N < H + cap`, so the
slot it writes is the slot of no unclaimed index; it waited for the flag of that slot, so no read of an
older index is under way in it, and a read that starts later is of index `H`, another slot. Indices
below `H` are each evicted, delivered, or in the consumer's hands.
-/

namespace Mdfh

variable {α : Type} [Inhabited α] {cap : Nat} [NeZero cap]

/-- The index whose slot the producer owns: being written, or written and not yet published. -/
def PushPc.writing : PushPc α → Option Nat
  | .write _ tail => some tail.toNat
  | .publish _ tail => some tail.toNat
  | _ => none

/-- Evictions that are not counted yet. -/
def PushPc.uncounted : PushPc α → Nat
  | .count .. => 1
  | _ => 0

/-- The index a consumer that won its compare-exchange has in hand. -/
def PopPc.holding : PopPc α → List Nat
  | .read head => [head.toNat]
  | .release head _ => [head.toNat]
  | _ => []

theorem slotAt_ne {i j : Nat} (h : i < j) (hj : j < i + cap) : slotAt cap i ≠ slotAt cap j := by
  intro e
  have e' : i % cap = j % cap := congrArg Fin.val e
  have hd : (j - i) % cap = 0 := Nat.sub_mod_eq_zero_of_mod_eq e'.symm
  rw [Nat.mod_eq_of_lt (by omega)] at hd
  omega

namespace Ring

/-- What the producer knows at each point of `push`. -/
def ProducerOk (s : Ring α cap) : PushPc α → Prop
  | .idle => True
  | .loadTail _ => True
  | .loadHead _ tail => tail.toNat = s.pushed.length
  | .evict _ tail head => tail.toNat = s.pushed.length ∧ head.toNat + cap = s.pushed.length ∧
      head.toNat ≤ s.mem.head.toNat
  | .count _ tail => tail.toNat = s.pushed.length ∧ s.pushed.length < s.mem.head.toNat + cap
  | .spin _ tail => tail.toNat = s.pushed.length ∧ s.pushed.length < s.mem.head.toNat + cap
  | .write _ tail => tail.toNat = s.pushed.length ∧ s.pushed.length < s.mem.head.toNat + cap
  | .publish item tail => (tail.toNat = s.pushed.length ∧ s.pushed.length < s.mem.head.toNat + cap) ∧
      (s.mem.buffer (slotAt cap tail.toNat)).value = item
  | .wake => True

/-- What the consumer knows at each point of `try_pop`. -/
def ConsumerOk (s : Ring α cap) : PopPc α → Prop
  | .loadTail head => head.toNat ≤ s.mem.head.toNat
  | .announce head => head.toNat ≤ s.mem.head.toNat ∧ head.toNat < s.pushed.length
  | .claim head => (head.toNat ≤ s.mem.head.toNat ∧ head.toNat < s.pushed.length) ∧
      (s.mem.buffer (slotAt cap head.toNat)).readerActive = true
  | .retract head => (s.mem.buffer (slotAt cap head.toNat)).readerActive = true
  | .read head => (s.mem.buffer (slotAt cap head.toNat)).readerActive = true ∧
      s.pushed[head.toNat]? = some (s.mem.buffer (slotAt cap head.toNat)).value
  | .release head out => (s.mem.buffer (slotAt cap head.toNat)).readerActive = true ∧
      s.pushed[head.toNat]? = some out
  | _ => True

theorem ProducerOk.frame {s s' : Ring α cap} {pc : PushPc α} (h : s.ProducerOk pc) (hp : s'.pushed = s.pushed)
    (hh : s.mem.head.toNat ≤ s'.mem.head.toNat) (hv : ∀ j, (s'.mem.buffer j).value = (s.mem.buffer j).value) :
    s'.ProducerOk pc := by
  cases pc with
  | idle => trivial
  | loadTail item => trivial
  | wake => trivial
  | loadHead item tail => rw [ProducerOk, hp]; exact h
  | evict item tail head =>
    obtain ⟨h₁, h₂, h₃⟩ := h
    rw [ProducerOk, hp]
    exact ⟨h₁, h₂, h₃.trans hh⟩
  | count item tail => rw [ProducerOk, hp]; exact ⟨h.1, by have := h.2; omega⟩
  | spin item tail => rw [ProducerOk, hp]; exact ⟨h.1, by have := h.2; omega⟩
  | write item tail => rw [ProducerOk, hp]; exact ⟨h.1, by have := h.2; omega⟩
  | publish item tail =>
    obtain ⟨⟨h₁, h₂⟩, h₃⟩ := h
    rw [ProducerOk, hp, hv]
    exact ⟨⟨h₁, by omega⟩, h₃⟩

theorem ConsumerOk.frame {s s' : Ring α cap} {pc : PopPc α} (h : s.ConsumerOk pc) (hp : s.pushed <+: s'.pushed)
    (hh : s.mem.head.toNat ≤ s'.mem.head.toNat)
    (hf : ∀ j, (s'.mem.buffer j).readerActive = (s.mem.buffer j).readerActive)
    (hv : ∀ i ∈ pc.holding, (s'.mem.buffer (slotAt cap i)).value = (s.mem.buffer (slotAt cap i)).value) :
    s'.ConsumerOk pc := by
  have hlen := hp.length_le
  have hget : ∀ {i : Nat} {v : α}, s.pushed[i]? = some v → s'.pushed[i]? = some v := by
    intro i v hi
    obtain ⟨rest, hrest⟩ := hp
    rw [← hrest, List.getElem?_append_left (List.getElem?_eq_some_iff.1 hi).1, hi]
  cases pc with
  | loadTail head => exact le_trans h hh
  | announce head => exact ⟨h.1.trans hh, h.2.trans_le hlen⟩
  | claim head => exact ⟨⟨h.1.1.trans hh, h.1.2.trans_le hlen⟩, by rw [hf]; exact h.2⟩
  | retract head => rw [ConsumerOk, hf]; exact h
  | read head =>
    rw [ConsumerOk, hf, hv head.toNat (by simp [PopPc.holding])]
    exact ⟨h.1, hget h.2⟩
  | release head out => exact ⟨by rw [hf]; exact h.1, hget h.2⟩
  | idle => trivial
  | loadHead => trivial
  | returned out => trivial
  | waitTail => trivial
  | waitHead tail => trivial
  | snapshot => trivial
  | recheckTail g => trivial
  | recheckHead g tail => trivial
  | blocked g => trivial

structure Inv (s : Ring α cap) : Prop where
  tail : s.mem.tail.toNat = s.pushed.length
  head_le : s.mem.head.toNat ≤ s.pushed.length
  le_cap : s.pushed.length ≤ s.mem.head.toNat + cap
  slots : ∀ i, s.mem.head.toNat ≤ i → i < s.pushed.length →
    s.pushed[i]? = some (s.mem.buffer (slotAt cap i)).value
  producer : s.ProducerOk s.push
  consumer : s.ConsumerOk s.pop
  apart : ∀ t ∈ s.push.writing, ∀ i ∈ s.pop.holding, slotAt cap t ≠ slotAt cap i
  evicted_lt : ∀ i ∈ s.evicted, i < s.mem.head.toNat
  claimed : s.delivered.map Prod.fst ++ s.pop.holding = (List.range s.mem.head.toNat).filter (· ∉ s.evicted)
  total : s.delivered.length + s.pop.holding.length + s.evicted.length = s.mem.head.toNat
  values : ∀ e ∈ s.delivered, s.pushed[e.1]? = some e.2
  dropped : s.mem.droppedUpdatesTotal.toNat + s.push.uncounted = s.evicted.length

namespace Inv
variable {s : Ring α cap}

theorem init : Inv ({} : Ring α cap) := by
  refine ⟨rfl, Nat.le_refl _, Nat.zero_le _, ?_, trivial, trivial, ?_, ?_, rfl, rfl, ?_, rfl⟩
  · intro i _ hi
    exact absurd hi (Nat.not_lt_zero i)
  · intro t ht
    cases ht
  · intro i hi
    cases hi
  · intro e he
    cases he

/-! ### Steps that move one program counter -/

theorem setPush (h : s.Inv) (pc : PushPc α) (hp : s.ProducerOk pc)
    (ha : ∀ t ∈ pc.writing, ∀ i ∈ s.pop.holding, slotAt cap t ≠ slotAt cap i) (hu : pc.uncounted = s.push.uncounted) :
    Inv { s with push := pc } :=
  ⟨h.tail, h.head_le, h.le_cap, h.slots, hp, h.consumer, ha, h.evicted_lt, h.claimed, h.total, h.values,
    by rw [hu]; exact h.dropped⟩

theorem setPop (h : s.Inv) (pc : PopPc α) (hp : s.ConsumerOk pc) (hh : pc.holding = s.pop.holding) :
    Inv { s with pop := pc } :=
  ⟨h.tail, h.head_le, h.le_cap, h.slots, h.producer, hp, by rw [hh]; exact h.apart, h.evicted_lt,
    by rw [hh]; exact h.claimed, by rw [hh]; exact h.total, h.values, h.dropped⟩

theorem setWake (h : s.Inv) (g : UInt64) : Inv { s with mem := { s.mem with wakeGeneration := g } } :=
  ⟨h.tail, h.head_le, h.le_cap, h.slots, by have := h.producer; cases hp : s.push <;> rw [hp] at this <;> exact this,
    by have := h.consumer; cases hp : s.pop <;> rw [hp] at this <;> exact this, h.apart, h.evicted_lt, h.claimed,
    h.total, h.values, h.dropped⟩

/-! ### Steps that change the memory -/

theorem toNat_succ {x : UInt64} {k : Nat} (h : x.toNat < k) (hk : k < 2 ^ 64) : (x + 1).toNat = x.toNat + 1 := by
  rw [UInt64.toNat_add]
  exact Nat.mod_eq_of_lt (show x.toNat + 1 < 2 ^ 64 by omega)

theorem length_lt (h : s.Inv) : s.pushed.length < 2 ^ 64 := h.tail ▸ s.mem.tail.toNat_lt

theorem filter_range_claim {k : Nat} {l : List Nat} (h : ∀ i ∈ l, i < k) :
    (List.range (k + 1)).filter (· ∉ l) = (List.range k).filter (· ∉ l) ++ [k] := by
  have hk : k ∉ l := fun hk => Nat.lt_irrefl k (h k hk)
  rw [List.range_succ, List.filter_append]
  simp [hk]

theorem filter_range_evict (k : Nat) (l : List Nat) :
    (List.range (k + 1)).filter (· ∉ l ++ [k]) = (List.range k).filter (· ∉ l) := by
  have hk : [k].filter (· ∉ l ++ [k]) = [] := by simp
  rw [List.range_succ, List.filter_append, hk, List.append_nil]
  refine List.filter_congr fun i hi => ?_
  have : i ≠ k := Nat.ne_of_lt (List.mem_range.1 hi)
  simp [this]

/-- The producer wins the compare-exchange: the oldest unclaimed index is evicted. -/
theorem evict_won (h : s.Inv) {item : α} {tail : UInt64} (hpc : s.push = .evict item tail s.mem.head) :
    Inv { s with
      mem := { s.mem with head := s.mem.head + 1 }, push := .count item tail,
      evicted := s.evicted ++ [s.mem.head.toNat] } := by
  have hprod := h.producer
  rw [hpc] at hprod
  obtain ⟨ht, hfull, -⟩ := hprod
  have hcap := NeZero.pos cap
  have hlt : s.mem.head.toNat < s.pushed.length := by omega
  have hsucc := toNat_succ hlt h.length_lt
  refine ⟨h.tail, ?_, ?_, ?_, ?_, ?_, ?_, ?_, ?_, ?_, h.values, ?_⟩
  · show (s.mem.head + 1).toNat ≤ s.pushed.length
    omega
  · show s.pushed.length ≤ (s.mem.head + 1).toNat + cap
    omega
  · intro i hi
    exact h.slots i (by have : (s.mem.head + 1).toNat ≤ i := hi; omega)
  · show tail.toNat = s.pushed.length ∧ s.pushed.length < (s.mem.head + 1).toNat + cap
    exact ⟨ht, by omega⟩
  · refine h.consumer.frame (List.prefix_refl _) ?_ (fun _ => rfl) (fun _ _ => rfl)
    show s.mem.head.toNat ≤ (s.mem.head + 1).toNat
    omega
  · intro t ht
    cases ht
  · intro i hi
    show i < (s.mem.head + 1).toNat
    rcases List.mem_append.1 hi with hi | hi
    · have := h.evicted_lt i hi
      omega
    · rw [List.mem_singleton.1 hi]
      omega
  · show _ = (List.range (s.mem.head + 1).toNat).filter _
    rw [hsucc, filter_range_evict, h.claimed]
  · show s.delivered.length + s.pop.holding.length + (s.evicted ++ [s.mem.head.toNat]).length = (s.mem.head + 1).toNat
    have := h.total
    rw [List.length_append, List.length_singleton, hsucc]
    omega
  · have := h.dropped
    rw [hpc] at this
    rw [List.length_append, List.length_singleton, ← this]
    rfl

theorem count (h : s.Inv) {item : α} {tail : UInt64} (hpc : s.push = .count item tail) :
    Inv { s with
      mem := { s.mem with droppedUpdatesTotal := s.mem.droppedUpdatesTotal + 1 }, push := .spin item tail } := by
  have hprod := h.producer
  have hdrop := h.dropped
  rw [hpc] at hprod hdrop
  have htotal := h.total
  have hhead := h.head_le
  have hlen := h.length_lt
  refine ⟨h.tail, h.head_le, h.le_cap, h.slots, hprod, ?_, ?_, h.evicted_lt, h.claimed, h.total, h.values, ?_⟩
  · exact h.consumer.frame (List.prefix_refl _) (Nat.le_refl _) (fun _ => rfl) (fun _ _ => rfl)
  · intro t ht
    cases ht
  · show (s.mem.droppedUpdatesTotal + 1).toNat + 0 = s.evicted.length
    have hd : s.mem.droppedUpdatesTotal.toNat + 1 = s.evicted.length := hdrop
    rw [toNat_succ (k := s.pushed.length) (by omega) hlen]
    omega

theorem write (h : s.Inv) {item : α} {tail : UInt64} (hpc : s.push = .write item tail) :
    Inv { s with mem := s.mem.setValue (slotAt cap tail.toNat) item, push := .publish item tail } := by
  have hprod := h.producer
  have hapart := h.apart
  rw [hpc] at hprod hapart
  obtain ⟨ht, hroom⟩ := hprod
  have hval : ∀ j, ((s.mem.setValue (slotAt cap tail.toNat) item).buffer j).value =
      if j = slotAt cap tail.toNat then item else (s.mem.buffer j).value := by
    intro j
    simp only [SpscRingBuffer.setValue, Function.update_apply]
    split <;> rfl
  have hflag : ∀ j, ((s.mem.setValue (slotAt cap tail.toNat) item).buffer j).readerActive =
      (s.mem.buffer j).readerActive := by
    intro j
    simp only [SpscRingBuffer.setValue, Function.update_apply]
    split
    · next hj => rw [hj]
    · rfl
  refine ⟨h.tail, h.head_le, h.le_cap, ?_, ?_, ?_, ?_, h.evicted_lt, h.claimed, h.total, h.values, ?_⟩
  · intro i hi hi'
    have hhi : s.mem.head.toNat ≤ i := hi
    have hlt : i < s.pushed.length := hi'
    have hne : slotAt cap i ≠ slotAt cap tail.toNat := slotAt_ne (by omega) (by omega)
    show _ = some ((s.mem.setValue _ item).buffer _).value
    rw [hval, if_neg hne]
    exact h.slots i hi hi'
  · refine ⟨⟨ht, hroom⟩, ?_⟩
    show ((s.mem.setValue _ item).buffer _).value = item
    rw [hval, if_pos rfl]
  · refine h.consumer.frame (List.prefix_refl _) (Nat.le_refl _) hflag fun i hi => ?_
    show ((s.mem.setValue _ item).buffer _).value = _
    rw [hval, if_neg (Ne.symm (hapart tail.toNat rfl i hi))]
  · exact hapart
  · have := h.dropped
    rw [hpc] at this
    exact this

/-- The store of `tail_` makes the written slot index `N`. -/
theorem publish (h : s.Inv) {item : α} {tail : UInt64} (hpc : s.push = .publish item tail)
    (hN : s.pushed.length + 1 < 2 ^ 64) :
    Inv { s with mem := { s.mem with tail := tail + 1 }, push := .wake, pushed := s.pushed ++ [item] } := by
  have hprod := h.producer
  rw [hpc] at hprod
  obtain ⟨⟨ht, hroom⟩, hval⟩ := hprod
  have hlen : (s.pushed ++ [item]).length = s.pushed.length + 1 := by simp
  have hhead := h.head_le
  refine ⟨?_, ?_, ?_, ?_, trivial, ?_, ?_, h.evicted_lt, h.claimed, h.total, ?_, ?_⟩
  · show (tail + 1).toNat = (s.pushed ++ [item]).length
    rw [hlen, toNat_succ (show tail.toNat < s.pushed.length + 1 by omega) hN, ht]
  · show s.mem.head.toNat ≤ (s.pushed ++ [item]).length
    omega
  · show (s.pushed ++ [item]).length ≤ s.mem.head.toNat + cap
    omega
  · intro i hi hi'
    show (s.pushed ++ [item])[i]? = some (s.mem.buffer (slotAt cap i)).value
    rcases Nat.lt_or_ge i s.pushed.length with hlt | hge
    · rw [List.getElem?_append_left hlt]
      exact h.slots i hi hlt
    · have hi'' : i < (s.pushed ++ [item]).length := hi'
      obtain rfl : i = s.pushed.length := by omega
      rw [List.getElem?_concat_length, ← ht, hval]
  · exact h.consumer.frame (List.prefix_append _ _) (Nat.le_refl _) (fun _ => rfl) (fun _ _ => rfl)
  · intro t ht
    cases ht
  · intro e he
    have hget := h.values e he
    show (s.pushed ++ [item])[e.1]? = _
    rw [List.getElem?_append_left (List.getElem?_eq_some_iff.1 hget).1, hget]
  · have := h.dropped
    rw [hpc] at this
    exact this

omit [NeZero cap] in
theorem value_setReaderActive (b : SpscRingBuffer α cap) (i j : Fin cap) (x : Bool) :
    ((b.setReaderActive i x).buffer j).value = (b.buffer j).value := by
  simp only [SpscRingBuffer.setReaderActive, Function.update_apply]
  split
  · next hj => rw [hj]
  · rfl

theorem setFlag (h : s.Inv) (j : Fin cap) (x : Bool) (pc : PopPc α) (l : List (Nat × α))
    (hc : ({ s with mem := s.mem.setReaderActive j x } : Ring α cap).ConsumerOk pc)
    (hclaim : l.map Prod.fst ++ pc.holding = s.delivered.map Prod.fst ++ s.pop.holding)
    (hsub : ∀ i ∈ pc.holding, i ∈ s.pop.holding) (hvals : ∀ e ∈ l, s.pushed[e.1]? = some e.2) :
    Inv { s with mem := s.mem.setReaderActive j x, pop := pc, delivered := l } := by
  have hlen := congrArg List.length hclaim
  simp only [List.length_append, List.length_map] at hlen
  refine ⟨h.tail, h.head_le, h.le_cap, ?_, ?_, ?_, ?_, h.evicted_lt, hclaim.trans h.claimed, ?_, hvals, h.dropped⟩
  · intro i hi hi'
    show _ = some ((s.mem.setReaderActive j x).buffer _).value
    rw [value_setReaderActive]
    exact h.slots i hi hi'
  · exact h.producer.frame rfl (Nat.le_refl _) (value_setReaderActive _ _ · _)
  · cases pc <;> exact hc
  · intro t ht i hi
    exact h.apart t ht i (hsub i hi)
  · have := h.total
    show l.length + pc.holding.length + s.evicted.length = s.mem.head.toNat
    omega

/-- The consumer wins the compare-exchange: index `H` is in its hands. -/
theorem claim_won (h : s.Inv) (hpc : s.pop = .claim s.mem.head) :
    Inv { s with mem := { s.mem with head := s.mem.head + 1 }, pop := .read s.mem.head } := by
  have hcons := h.consumer
  have hclaim := h.claimed
  have htotal := h.total
  rw [hpc] at hcons hclaim htotal
  obtain ⟨⟨-, hlt⟩, hflag⟩ := hcons
  have hsucc := toNat_succ hlt h.length_lt
  have hcap := h.le_cap
  refine ⟨h.tail, ?_, ?_, ?_, ?_, ?_, ?_, ?_, ?_, ?_, h.values, h.dropped⟩
  · show (s.mem.head + 1).toNat ≤ s.pushed.length
    omega
  · show s.pushed.length ≤ (s.mem.head + 1).toNat + cap
    omega
  · intro i hi
    exact h.slots i (by have : (s.mem.head + 1).toNat ≤ i := hi; omega)
  · refine h.producer.frame rfl ?_ fun _ => rfl
    show s.mem.head.toNat ≤ (s.mem.head + 1).toNat
    omega
  · exact ⟨hflag, h.slots _ (Nat.le_refl _) hlt⟩
  · -- the producer writes index `N`, and `H < N < H + cap`
    intro t ht i hi
    have hi' : i = s.mem.head.toNat := List.mem_singleton.1 hi
    have hprod := h.producer
    have hroom : t = s.pushed.length ∧ s.pushed.length < s.mem.head.toNat + cap := by
      have ht' : t ∈ s.push.writing := ht
      cases hpush : s.push <;> rw [hpush] at ht' hprod <;> cases ht'
      · exact ⟨hprod.1, hprod.2⟩
      · exact ⟨hprod.1.1, hprod.1.2⟩
    rw [hi']
    exact (slotAt_ne (by omega) (by omega)).symm
  · intro i hi
    show i < (s.mem.head + 1).toNat
    have := h.evicted_lt i hi
    omega
  · show _ ++ [s.mem.head.toNat] = (List.range (s.mem.head + 1).toNat).filter _
    rw [hsucc, filter_range_claim h.evicted_lt, ← hclaim]
    exact congrArg (· ++ _) (List.append_nil _).symm
  · show s.delivered.length + 1 + s.evicted.length = (s.mem.head + 1).toNat
    have : s.delivered.length + 0 + s.evicted.length = s.mem.head.toNat := htotal
    omega

/-! ### Every step -/

theorem pushStep (h : s.Inv) {s' : Ring α cap} (hs : s.pushStep = some s') (hN : s'.pushed.length < 2 ^ 64) : s'.Inv := by
  have hprod := h.producer
  have hnone : ∀ {pc : PushPc α}, pc.writing = none →
      ∀ t ∈ pc.writing, ∀ i ∈ s.pop.holding, slotAt cap t ≠ slotAt cap i := by
    intro pc hpc t ht
    rw [hpc] at ht
    cases ht
  -- the producer's own `tail` is never behind `head_`, so the subtraction does not wrap
  have hsub : ∀ {tail : UInt64}, tail.toNat = s.pushed.length →
      (tail - s.mem.head).toNat = s.pushed.length - s.mem.head.toNat := by
    intro tail ht
    rw [UInt64.toNat_sub_of_le _ _ (by rw [UInt64.le_iff_toNat_le, ht]; exact h.head_le), ht]
  have hle := h.head_le
  have hcap := h.le_cap
  cases pushStep_cases hs with
  | loadTail hpc => exact h.setPush _ h.tail (hnone rfl) (by rw [hpc]; rfl)
  | full hpc hf =>
    rw [hpc] at hprod
    have ht : _ = s.pushed.length := hprod
    rw [hsub ht] at hf
    exact h.setPush _ ⟨ht, by omega, Nat.le_refl _⟩ (hnone rfl) (by rw [hpc]; rfl)
  | room hpc hf =>
    rw [hpc] at hprod
    have ht : _ = s.pushed.length := hprod
    rw [hsub ht] at hf
    exact h.setPush _ ⟨ht, by omega⟩ (hnone rfl) (by rw [hpc]; rfl)
  | evictWon hpc => exact h.evict_won hpc
  | evictLost hpc hh =>
    rw [hpc] at hprod
    obtain ⟨ht, hfull, hhead⟩ := hprod
    -- the consumer has moved `head_` on, which made the room
    have hlt := Nat.lt_of_le_of_ne hhead fun e => hh (UInt64.toNat_inj.1 e).symm
    exact h.setPush _ ⟨ht, by omega⟩ (hnone rfl) (by rw [hpc]; rfl)
  | count hpc => exact h.count hpc
  | spin => exact h
  | clear hpc hf =>
    rw [hpc] at hprod
    refine h.setPush _ hprod ?_ (by rw [hpc]; rfl)
    -- an index in the consumer's hands has its flag up
    intro t ht i hi e
    cases ht
    rw [e] at hf
    have hcons := h.consumer
    cases hpop : s.pop <;> rw [hpop] at hi hcons <;> cases hi
    · exact hf hcons.1
    · next hi => cases hi
    · exact hf hcons.1
    · next hi => cases hi
  | write hpc => exact h.write hpc
  | publish hpc => exact h.publish hpc (by simpa using hN)
  | wake hpc => exact (h.setPush .idle trivial (hnone rfl) (by rw [hpc]; rfl)).setWake _

theorem popStep (h : s.Inv) {s' : Ring α cap} (hs : s.popStep = some s') : s'.Inv := by
  have hcons := h.consumer
  have hflag : ∀ (head : UInt64) (x : Bool),
      ((s.mem.setReaderActive (slotAt cap head.toNat) x).buffer (slotAt cap head.toNat)).readerActive = x := by
    intro head x
    simp [SpscRingBuffer.setReaderActive]
  cases popStep_cases hs with
  | loadHead hpc => exact h.setPop (.loadTail s.mem.head) (Nat.le_refl _) (by rw [hpc]; rfl)
  | empty hpc => exact h.setPop _ trivial (by rw [hpc]; rfl)
  | @nonEmpty head hpc ht =>
    rw [hpc] at hcons
    have hle : head.toNat ≤ s.mem.head.toNat := hcons
    have hne : head.toNat ≠ s.pushed.length := by
      intro e
      exact ht (UInt64.toNat_inj.1 (by rw [h.tail, e]))
    have := h.head_le
    exact h.setPop (.announce head) ⟨hle, by omega⟩ (by rw [hpc]; rfl)
  | @announce head hpc =>
    rw [hpc] at hcons
    exact h.setFlag _ true (.claim head) (s.delivered) ⟨hcons, hflag head true⟩ (by rw [hpc]; rfl)
      (by simp [PopPc.holding]) h.values
  | claimWon hpc => exact h.claim_won hpc
  | @claimLost head hpc hh =>
    rw [hpc] at hcons
    exact h.setPop (.retract head) hcons.2 (by rw [hpc]; rfl)
  | retract hpc =>
    exact h.setFlag _ false (.returned none) (s.delivered) trivial (by rw [hpc]; rfl)
      (by simp [PopPc.holding]) h.values
  | @read head hpc =>
    rw [hpc] at hcons
    exact h.setPop (.release head _) hcons (by rw [hpc]; rfl)
  | @release head out hpc =>
    rw [hpc] at hcons
    refine h.setFlag _ false (.returned (some out)) (s.delivered ++ [(head.toNat, out)]) trivial ?_
      (by simp [PopPc.holding]) ?_
    · rw [hpc, List.map_append]
      exact List.append_nil _
    · intro e he
      rcases List.mem_append.1 he with he | he
      · exact h.values e he
      · rw [List.mem_singleton.1 he]
        exact hcons.2
  | waitTail hpc => exact h.setPop _ trivial (by rw [hpc]; rfl)
  | waitEmpty hpc => exact h.setPop _ trivial (by rw [hpc]; rfl)
  | waitNonEmpty hpc => exact h.setPop _ trivial (by rw [hpc]; rfl)
  | snapshot hpc => exact h.setPop _ trivial (by rw [hpc]; rfl)
  | recheckTail hpc => exact h.setPop _ trivial (by rw [hpc]; rfl)
  | block hpc => exact h.setPop _ trivial (by rw [hpc]; rfl)
  | recheckNonEmpty hpc => exact h.setPop _ trivial (by rw [hpc]; rfl)
  | woken hpc => exact h.setPop _ trivial (by rw [hpc]; rfl)

theorem step (h : s.Inv) {a : Act α} {s' : Ring α cap} (hs : s.step a = some s') (hN : s'.pushed.length < 2 ^ 64) :
    s'.Inv := by
  cases a with
  | push item =>
    obtain ⟨hpc, rfl⟩ := step_push hs
    exact h.setPush _ trivial (by intro t ht; cases ht) (by rw [hpc]; rfl)
  | producer => exact h.pushStep hs hN
  | tryPop =>
    obtain ⟨hpc, rfl⟩ := step_tryPop hs
    exact h.setPop _ trivial (by rw [hpc]; rfl)
  | waitForData =>
    obtain ⟨hpc, rfl⟩ := step_waitForData hs
    exact h.setPop _ trivial (by rw [hpc]; rfl)
  | consumer => exact h.popStep hs
  | ret =>
    obtain ⟨out, hpc, rfl⟩ := step_ret hs
    exact h.setPop _ trivial (by rw [hpc]; rfl)
  | notifyWaiters => cases hs; exact h.setWake _

end Inv

end Ring

end Mdfh
