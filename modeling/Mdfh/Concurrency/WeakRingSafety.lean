import Mdfh.Concurrency.WeakRingInv

/-!
# The ring buffer is safe under its memory orders

Every step keeps the invariant as long as no eviction is lost, or a lost one acquires: then no access to an
item is a data race, and what is delivered is what was pushed (`weak_ring_safe`). Two runs show that neither
condition can go. With the relaxed failure order of the source a producer that loses its compare-exchange may
find the flag of the slot as it was before the announcement. In a ring of one slot a consumer that finds
`head_` before `tail_` takes an index that is not pushed yet.
-/

namespace Mdfh
open ReleaseAcquire

namespace WeakRing
variable {α : Type} [Inhabited α] {cap : Nat} [NeZero cap]

namespace Inv
variable {s s' : WeakRing α cap} {i : Nat} {acquireLost : Bool}

/-! ### The producer -/

theorem known_le (h : s.Inv) {e : Store (fun x : Loc cap => x.Val α) .head} (he : (s.mem .head)[i]? = some e)
    (hi : i ≤ s.producer .head) : e.carried ≤ s.producer := by
  have hlast := List.getElem?_eq_getElem (h.producer.within .head)
  exact (h.carried_le he hlast hi).trans (h.known _ hlast)

theorem reads_inj (h : s.Inv) {ρ ρ' : Nat} {e e' : Store (fun x : Loc cap => x.Val α) .reads} (h₀ : 0 < ρ) (h₀' : 0 < ρ')
    (he : (s.mem .reads)[ρ]? = some e) (he' : (s.mem .reads)[ρ']? = some e') (hv : e.value = e'.value) : ρ = ρ' := by
  have hall : ((s.mem .reads).tail.map (·.value) ++ s.pop.claiming).Nodup := by
    rw [h.claimed]
    exact List.nodup_range.filter _
  have hnodup := (List.nodup_append.1 hall).1
  have hget : ∀ {ρ e}, 0 < ρ → (s.mem .reads)[ρ]? = some e → ((s.mem .reads).tail.map (·.value))[ρ - 1]? = some e.value := by
    intro ρ e h₀ he
    rw [List.getElem?_map, ← List.drop_one, List.getElem?_drop, Nat.add_sub_cancel' h₀, he]
    rfl
  have hlt := (List.getElem?_eq_some_iff.1 (hget h₀ he)).1
  have := (List.getElem?_inj hlt hnodup).1 ((hget h₀ he).trans (hv ▸ (hget h₀' he').symm))
  omega

/-- A flag found cleared, by a producer that knows the index of a round ago to be claimed, tells of its read. -/
theorem cleared_of_flag (h : s.Inv) (hroom : s.pushed.length < s.producer .head + cap) {j : Fin cap}
    (hj : slotAt cap s.pushed.length = j) {m : Nat} {f : Store (fun x : Loc cap => x.Val α) (.readerActive j)}
    (hm : s.producer (.readerActive j) ≤ m) (hf : (s.mem (.readerActive j))[m]? = some f) (hfalse : f.value = false) :
    (∀ ρ e, 0 < ρ → (s.mem .reads)[ρ]? = some e → e.value + cap = s.pushed.length → ρ ≤ f.carried .reads) ∧
      ∀ head, s.pop = .read head → head.toNat + cap ≠ s.pushed.length := by
  have hslot : ∀ k, k + cap = s.pushed.length → slotAt cap k = j := by
    intro k hk
    rw [← hj, ← hk]
    exact Fin.ext (Nat.add_mod_right _ _).symm
  -- the transition of the index of a round ago, and what the producer has from it
  have htrans : ∀ k, k + cap = s.pushed.length → ∃ e, (s.mem .head)[k + 1]? = some e ∧ e.carried ≤ s.producer := by
    intro k hk
    have hle := h.le_last h.producer .head
    have hlt : k + 1 < (s.mem .head).length := by
      rw [h.length_eq]
      omega
    have he := List.getElem?_eq_getElem hlt
    exact ⟨_, he, h.known_le he (by omega)⟩
  refine ⟨fun ρ e h₀ he hv => ?_, fun head hh hv => ?_⟩
  · obtain ⟨e₁, he₁, hle⟩ := htrans e.value hv
    have hslot' := hslot e.value hv
    subst hslot'
    obtain ⟨ρ', e', hρ', h₀', he', hv'⟩ :=
      h.cleared e.value (h.reads_lt h₀ he).2 e₁ he₁ m f ((hle _).trans hm) hf hfalse
    exact h.reads_inj h₀ h₀' he he' hv'.symm ▸ hρ'
  · obtain ⟨e₁, he₁, hle⟩ := htrans head.toNat hv
    have hslot' := hslot head.toNat hv
    subst hslot'
    have hpop := h.pop
    rw [hh] at hpop
    obtain ⟨-, hann, hlast⟩ := hpop
    have htrue := h.announced hann ((hlast e₁ he₁).trans ((hle _).trans hm)) hf
    rw [hfalse] at htrue
    exact Bool.false_ne_true htrue

omit [NeZero cap] in
theorem items_eq (hu : s.push.unpublished = []) : s.items = s.pushed := by
  rw [items, hu, List.append_nil]

theorem loadTail (h : s.Inv) {item : α} (hpc : s.push = .loadTail item)
    {e : Store (fun x : Loc cap => x.Val α) .tail} (he : s.mem.find s.producer .tail i = some e) :
    Inv { s with producer := s.producer.after false .tail i e.carried, push := .loadHead item e.value } := by
  obtain ⟨hi, he⟩ := Memory.find_eq_some.1 he
  have hown := h.producerOwn .tail trivial
  have hlast := h.index_le he
  have hle : s.producer ≤ s.producer.after false .tail i e.carried := View.le_after hi
  refine h.producerLoad hle ?_ (fun e' he' => ?_) ?_ (by rw [hpc]; rfl)
  · exact h.sound_after h.producer hi he fun _ => .inl (hlast.trans hown)
  · rw [View.after_of_ne (by simp), if_neg Bool.false_ne_true, Nat.max_zero] at he'
    exact (h.known e' he').trans hle
  · show UInt64.toNat e.value = s.pushed.length
    have := h.length
    have := h.length_eq .tail
    rw [(h.tail i e he).1]
    omega

theorem known_after (h : s.Inv) {e : Store (fun x : Loc cap => x.Val α) .head} (he : (s.mem .head)[i]? = some e) :
    s.producer.after true .head i e.carried .head = i ∧
      ∀ e', (s.mem .head)[s.producer.after true .head i e.carried .head]? = some e' →
        e'.carried ≤ s.producer.after true .head i e.carried := by
  have hself : s.producer.after true .head i e.carried .head = i := View.after_self (h.head i e he).2
  refine ⟨hself, fun e' he' => ?_⟩
  rw [hself, he, Option.some.injEq] at he'
  subst he'
  exact fun x => View.carried_le_after rfl x

theorem loadHead (h : s.Inv) {item : α} {tail : UInt64} (hpc : s.push = .loadHead item tail)
    {e : Store (fun x : Loc cap => x.Val α) .head} (he : s.mem.find s.producer .head i = some e) :
    Inv { s with
      producer := s.producer.after true .head i e.carried
      push := if cap ≤ (tail - e.value).toNat then .evict item tail e.value else .spin item tail } := by
  obtain ⟨hi, he⟩ := Memory.find_eq_some.1 he
  have hpush := h.push
  rw [hpc] at hpush
  have ht : tail.toNat = s.pushed.length := hpush
  have hv : UInt64.toNat e.value = i := (h.head i e he).1
  have hle : i ≤ s.pushed.length := h.claim_le (h.index_le he)
  have hwin := h.window
  rw [items_eq (by rw [hpc]; rfl)] at hwin
  have hsub : (tail - e.value).toNat = s.pushed.length - i := by
    rw [UInt64.toNat_sub_of_le _ _ (UInt64.le_iff_toNat_le.2 (by omega)), ht, hv]
  obtain ⟨hself, hknown⟩ := h.known_after he
  refine h.producerLoad (View.le_after hi) ?_ hknown ?_ ?_
  · exact h.sound_after h.producer hi he fun hx => by cases hx
  · rw [hsub]
    split
    · refine ⟨ht, ?_⟩
      dsimp only
      omega
    · refine ⟨ht, ?_⟩
      dsimp only
      omega
  · rw [hpc]
    split <;> rfl

theorem evictLost (h : s.Inv) {item : α} {tail head : UInt64} (hpc : s.push = .evict item tail head)
    {e : Store (fun x : Loc cap => x.Val α) .head} (hi : s.producer .head ≤ i) (he : (s.mem .head)[i]? = some e)
    (hne : e.value ≠ head) (n : Nat) :
    Inv { s with producer := s.producer.after true .head i e.carried, push := .spin item tail, lost := n } := by
  have hpush := h.push
  rw [hpc] at hpush
  obtain ⟨ht, hfull⟩ := hpush
  have hv : UInt64.toNat e.value = i := (h.head i e he).1
  have hne' : i ≠ head.toNat := fun hh => hne (UInt64.toNat_inj.1 (hv.trans hh))
  have hwin := h.window
  rw [items_eq (by rw [hpc]; rfl)] at hwin
  obtain ⟨hself, hknown⟩ := h.known_after he
  refine h.producerLoad (View.le_after hi) ?_ hknown ⟨ht, ?_⟩ (by rw [hpc]; rfl)
  · exact h.sound_after h.producer hi he fun hx => by cases hx
  · dsimp only
    omega

theorem spin (h : s.Inv) {item : α} {tail : UInt64} (hpc : s.push = .spin item tail)
    {f : Store (fun x : Loc cap => x.Val α) (.readerActive (slotAt cap tail.toNat))}
    (hf : s.mem.find s.producer (.readerActive (slotAt cap tail.toNat)) i = some f) :
    Inv { s with
      producer := s.producer.after true (.readerActive (slotAt cap tail.toNat)) i f.carried
      push := if f.value then .spin item tail else .write item tail } := by
  obtain ⟨hi, hf⟩ := Memory.find_eq_some.1 hf
  have hpush := h.push
  rw [hpc] at hpush
  obtain ⟨ht, hroom⟩ := hpush
  have hmem := List.mem_of_getElem? hf
  have hle : s.producer ≤ s.producer.after true (.readerActive (slotAt cap tail.toNat)) i f.carried := View.le_after hi
  have hle' : f.carried ≤ s.producer.after true (.readerActive (slotAt cap tail.toNat)) i f.carried :=
    fun x => View.carried_le_after rfl x
  have hroom' := hroom.trans_le (Nat.add_le_add_right (hle .head) cap)
  refine h.producerLoad hle ?_ (fun e he => ?_) ?_ ?_
  · exact h.sound_after h.producer hi hf fun hx => by cases hx
  · -- a transition the producer had not seen was made by the consumer, which passes on what it knew
    rw [View.after_of_ne (by simp), if_pos rfl] at he
    rcases Nat.le_total (f.carried .head) (s.producer .head) with hhead | hhead
    · rw [Nat.max_eq_left hhead] at he
      exact (h.known e he).trans hle
    · rw [Nat.max_eq_right hhead] at he
      rcases h.flagAcquired _ f hmem _ e he le_rfl with hc | hp
      · exact hc.trans hle'
      · exact (h.known_le he hp).trans hle
  · cases hv : f.value with
    | true => exact ⟨ht, hroom'⟩
    | false =>
      obtain ⟨hknown, hnone⟩ := h.cleared_of_flag hroom (by rw [ht]) hi hf hv
      exact ⟨⟨ht, hroom'⟩, fun ρ e h₀ he hv => (hknown ρ e h₀ he hv).trans (hle' _), hnone⟩
  · rw [hpc]
    split <;> rfl

theorem pushStep (h : s.Inv) (hcap : 2 ≤ cap) (hN : s'.pushed.length < 2 ^ 64) (hlost : acquireLost = true ∨ s'.lost = 0)
    (hs : s.pushStep acquireLost i = some s') : s'.Inv := by
  unfold WeakRing.pushStep at hs
  cases hpc : s.push with
  | idle => simp [hpc] at hs
  | loadTail item =>
    simp only [hpc, Option.map_eq_some_iff] at hs
    obtain ⟨e, he, rfl⟩ := hs
    exact h.loadTail hpc he
  | loadHead item tail =>
    simp only [hpc, Option.map_eq_some_iff] at hs
    obtain ⟨e, he, rfl⟩ := hs
    exact h.loadHead hpc he
  | evict item tail head =>
    simp only [hpc, Option.bind_eq_some_iff] at hs
    obtain ⟨e, he, hs⟩ := hs
    obtain ⟨hi, he⟩ := Memory.find_eq_some.1 he
    split at hs
    · next hv =>
      split at hs
      · next hlast =>
        subst hlast
        cases hs
        exact h.evict hcap hN hpc he hv
      · cases hs
    · next hv =>
      cases hs
      rcases hlost with rfl | hlost
      · exact h.evictLost hpc hi he hv _
      · exact absurd hlost (Nat.succ_ne_zero _)
  | count item tail =>
    simp only [hpc, Option.some.injEq] at hs
    subst hs
    have hpush := h.push
    rw [hpc] at hpush
    exact h.producerLoad le_rfl h.producer h.known ⟨hpush.1, hpush.2⟩ (by rw [hpc]; rfl)
  | spin item tail =>
    simp only [hpc, Option.map_eq_some_iff] at hs
    obtain ⟨e, he, rfl⟩ := hs
    exact h.spin hpc he
  | write item tail =>
    simp only [hpc, Option.some.injEq] at hs
    exact hs ▸ h.write hpc
  | publish item tail =>
    simp only [hpc, Option.some.injEq] at hs
    subst hs
    refine h.publish hpc ?_
    rwa [List.length_append, List.length_singleton] at hN
  | wake =>
    simp only [hpc, WeakRing.signal, Option.map_map, Option.map_eq_some_iff] at hs
    obtain ⟨e, he, rfl⟩ := hs
    exact h.signal (by rw [hpc]; rfl) he

/-! ### The consumer -/

theorem popLoad (h : s.Inv) {a : Bool} {x : Loc cap} {e : Store (fun x : Loc cap => x.Val α) x}
    (he : s.mem.find s.consumer x i = some e) (ht : x = .tail → a = true ∧ i ≤ e.carried .tail) {pc : PopPc α}
    (hpc : PopOk { s with consumer := s.consumer.after a x i e.carried, pop := pc } pc)
    (hc : pc.claiming = [] ∧ s.pop.claiming = []) (hr : pc.reading = [] ∧ s.pop.reading = []) :
    Inv { s with consumer := s.consumer.after a x i e.carried, pop := pc } := by
  obtain ⟨hi, he⟩ := Memory.find_eq_some.1 he
  exact h.consumerLoad (View.le_after hi) (h.sound_after h.consumer hi he fun hx => .inr (ht hx)) hpc hc hr

theorem popStep (h : s.Inv) (hN : s'.pushed.length < 2 ^ 64) (hs : s.popStep i = some s') : s'.Inv := by
  have hpop := h.pop
  have htail : ∀ {e}, s.mem.find s.consumer .tail i = some e → UInt64.toNat e.value = i ∧ e.carried .tail = i :=
    fun he => h.tail i _ (Memory.find_eq_some.1 he).2
  unfold WeakRing.popStep at hs
  cases hpc : s.pop with
  | idle => simp [hpc] at hs
  | returned out => simp [hpc] at hs
  | loadHead =>
    simp only [hpc, Option.map_eq_some_iff] at hs
    obtain ⟨e, he, rfl⟩ := hs
    exact h.popLoad he (fun hx => by cases hx) trivial (by simp [hpc, PopPc.claiming]) (by simp [hpc, PopPc.reading])
  | loadTail head =>
    simp only [hpc, Option.map_eq_some_iff] at hs
    obtain ⟨e, he, rfl⟩ := hs
    obtain ⟨hv, ht⟩ := htail he
    split
    · exact h.popLoad he (fun _ => ⟨rfl, ht.ge⟩) trivial (by simp [hpc, PopPc.claiming]) (by simp [hpc, PopPc.reading])
    · next hne =>
      refine h.popLoad he (fun _ => ⟨rfl, ht.ge⟩) ?_ (by simp [hpc, PopPc.claiming]) (by simp [hpc, PopPc.reading])
      show head.toNat ≠ s.consumer.after true .tail i e.carried .tail
      rw [View.after_self ht.le, ← hv]
      exact fun heq => hne (UInt64.toNat_inj.1 heq.symm)
  | announce head =>
    simp only [hpc, Option.some.injEq] at hs
    subst hs
    rw [hpc] at hpop
    refine h.flag _ true (by simp [hpc, PopPc.claiming]) (by simp [hpc, PopPc.reading]; rfl) h.out ⟨?_, ?_⟩
    · show head.toNat ≠ s.consumer.wrote s.mem (.readerActive (slotAt cap head.toNat)) .tail
      rw [View.wrote_of_ne (by simp)]
      exact hpop
    · show (Memory.current (s.mem.store _ _) _).map _ = some true
      rw [Memory.current_store_self]
      rfl
  | claim head =>
    simp only [hpc, Option.bind_eq_some_iff] at hs
    obtain ⟨e, he, hs⟩ := hs
    split at hs
    · next hv =>
      split at hs
      · next hlast =>
        subst hlast
        cases hs
        exact h.claim hN hpc (Memory.find_eq_some.1 he).2 hv
      · cases hs
    · cases hs
      exact h.popLoad he (fun hx => by cases hx) trivial (by simp [hpc, PopPc.claiming]) (by simp [hpc, PopPc.reading])
  | retract head =>
    simp only [hpc, Option.some.injEq] at hs
    subst hs
    exact h.flag _ false (by simp [hpc, PopPc.claiming]) (by simp [hpc, PopPc.reading]; rfl) h.out trivial
  | read head =>
    simp only [hpc, Option.map_eq_some_iff] at hs
    obtain ⟨e, he, rfl⟩ := hs
    exact h.read hpc he
  | release head out =>
    simp only [hpc, Option.some.injEq] at hs
    subst hs
    rw [hpc] at hpop
    refine h.flag _ false (by simp [hpc, PopPc.claiming]) (by simp [hpc, PopPc.reading]) (fun e he => ?_) trivial
    rcases List.mem_append.1 he with he | he
    · exact h.out e he
    · rw [List.mem_singleton.1 he]
      exact hpop
  | waitTail | recheckTail g =>
    simp only [hpc, Option.map_eq_some_iff] at hs
    obtain ⟨e, he, rfl⟩ := hs
    exact h.popLoad he (fun _ => ⟨rfl, (htail he).2.ge⟩) trivial (by simp [hpc, PopPc.claiming])
      (by simp [hpc, PopPc.reading])
  | waitHead tail | recheckHead g tail =>
    simp only [hpc, Option.map_eq_some_iff] at hs
    obtain ⟨e, he, rfl⟩ := hs
    split
    · exact h.popLoad he (fun hx => by cases hx) trivial (by simp [hpc, PopPc.claiming]) (by simp [hpc, PopPc.reading])
    · exact h.popLoad he (fun hx => by cases hx) trivial (by simp [hpc, PopPc.claiming]) (by simp [hpc, PopPc.reading])
  | snapshot =>
    simp only [hpc, Option.map_eq_some_iff] at hs
    obtain ⟨e, he, rfl⟩ := hs
    exact h.popLoad he (fun hx => by cases hx) trivial (by simp [hpc, PopPc.claiming]) (by simp [hpc, PopPc.reading])
  | blocked g =>
    simp only [hpc, Option.bind_eq_some_iff] at hs
    obtain ⟨e, he, hs⟩ := hs
    split at hs
    · cases hs
    · cases hs
      exact h.popLoad he (fun hx => by cases hx) trivial (by simp [hpc, PopPc.claiming]) (by simp [hpc, PopPc.reading])

/-! ### Runs -/

theorem step {a : Act α} (h : s.Inv) (hcap : 2 ≤ cap) (hN : s'.pushed.length < 2 ^ 64)
    (hlost : acquireLost = true ∨ s'.lost = 0) (hs : s.step acquireLost a = some s') : s'.Inv := by
  cases a with
  | push item =>
    simp only [WeakRing.step] at hs
    split at hs
    · next hpc =>
      cases hs
      exact h.producerLoad le_rfl h.producer h.known trivial (by rw [show s.push = .idle from hpc]; rfl)
    · cases hs
  | producer i => exact h.pushStep hcap hN hlost hs
  | notifyWaiters =>
    simp only [WeakRing.step] at hs
    split at hs
    · next hpc =>
      have hidle : s.push = .idle := hpc
      obtain ⟨e, he, rfl⟩ := Option.map_eq_some_iff.1 hs
      have hinv := h.signal (by rw [hidle]; rfl) he
      rw [← hidle] at hinv
      exact hinv
    · cases hs
  | tryPop | waitForData =>
    simp only [WeakRing.step] at hs
    split at hs
    · next hpc =>
      have hidle : s.pop = .idle := hpc
      cases hs
      exact h.consumerLoad le_rfl h.consumer trivial (by simp [hidle, PopPc.claiming]) (by simp [hidle, PopPc.reading])
    · cases hs
  | consumer i => exact h.popStep hN hs
  | ret =>
    simp only [WeakRing.step] at hs
    split at hs
    · next hpc =>
      cases hs
      have hpop : s.pop.claiming = [] ∧ s.pop.reading = [] := by
        cases hp : s.pop <;> rw [hp] at hpc <;> simp at hpc
        exact ⟨rfl, rfl⟩
      exact h.consumerLoad le_rfl h.consumer trivial ⟨rfl, hpop.1⟩ ⟨rfl, hpop.2⟩
    · cases hs

theorem init : Inv ({} : WeakRing α cap) := by
  have hget : ∀ {x : Loc cap} {i : Nat} {e : Store (fun x : Loc cap => x.Val α) x},
      (Memory.initial (Loc.initial : (x : Loc cap) → x.Val α) x)[i]? = some e → i = 0 ∧ e = { value := x.initial } := by
    intro x i e he
    obtain ⟨hi, rfl⟩ := List.getElem?_eq_some_iff.1 he
    obtain rfl : i = 0 := Nat.lt_one_iff.1 hi
    exact ⟨rfl, rfl⟩
  have hmem : ∀ {x : Loc cap} {e : Store (fun x : Loc cap => x.Val α) x},
      e ∈ Memory.initial (Loc.initial : (x : Loc cap) → x.Val α) x → e = { value := x.initial } := List.mem_singleton.1
  have hpos : ∀ x : Loc cap, 0 < (Memory.initial (Loc.initial : (x : Loc cap) → x.Val α) x).length := fun _ => Nat.one_pos
  exact {
    pos := hpos
    sound := fun x e he => hmem he ▸ .zero hpos
    producer := .zero hpos, consumer := .zero hpos
    producerOwn := fun _ _ => le_rfl, consumerOwn := fun _ _ => le_rfl
    head := fun i e he => by
      obtain ⟨rfl, rfl⟩ := hget he
      exact ⟨rfl, le_rfl⟩
    grows := List.pairwise_singleton _ _
    tail := fun i e he => by
      obtain ⟨rfl, rfl⟩ := hget he
      exact ⟨rfl, rfl⟩
    length := rfl
    sentTail := fun e he => hmem he ▸ le_rfl, sentWake := fun e he => hmem he ▸ le_rfl
    values := fun k => by
      rw [List.getElem?_eq_none (Nat.succ_le_succ (Nat.zero_le _))]
      rfl
    behind := fun i e he => .inr (hget he).1.le
    window := Nat.zero_le _
    known := fun e he => by
      obtain ⟨-, rfl⟩ := hget he
      exact le_rfl
    seen := .inl le_rfl
    acquired := fun i e he _ => .inr (hget he).1.le
    flagAcquired := fun _ _ _ i e he _ => .inr (hget he).1.le
    evicted := fun i hi => absurd hi List.not_mem_nil, claimed := rfl
    cleared := fun i _ e he => absurd (hget he).1 (Nat.succ_ne_zero i)
    past := fun ρ e h₀ he => absurd (hget he).1 h₀.ne'
    delivered := rfl, out := fun e he => absurd he List.not_mem_nil
    push := trivial, pop := trivial, raced := rfl }

end Inv

section Mono
variable {acquireLost : Bool} {s s' : WeakRing α cap} {i : Nat}

omit [NeZero cap] in
theorem signal_frame (hs : s.signal = some s') : s'.pushed = s.pushed ∧ s'.lost = s.lost := by
  obtain ⟨e, -, rfl⟩ := Option.map_eq_some_iff.1 hs
  exact ⟨rfl, rfl⟩

theorem pushStep_mono (hs : s.pushStep acquireLost i = some s') : s.pushed <+: s'.pushed ∧ s.lost ≤ s'.lost := by
  unfold pushStep at hs
  cases hpc : s.push with
  | idle => simp [hpc] at hs
  | loadTail item | loadHead item tail | spin item tail =>
    simp only [hpc, Option.map_eq_some_iff] at hs
    obtain ⟨e, -, rfl⟩ := hs
    exact ⟨List.prefix_rfl, le_rfl⟩
  | evict item tail head =>
    simp only [hpc, Option.bind_eq_some_iff] at hs
    obtain ⟨e, -, hs⟩ := hs
    split at hs
    · split at hs
      · cases hs
        exact ⟨List.prefix_rfl, le_rfl⟩
      · cases hs
    · cases hs
      exact ⟨List.prefix_rfl, Nat.le_succ _⟩
  | count item tail | write item tail =>
    simp only [hpc, Option.some.injEq] at hs
    subst hs
    exact ⟨List.prefix_rfl, le_rfl⟩
  | publish item tail =>
    simp only [hpc, Option.some.injEq] at hs
    subst hs
    exact ⟨List.prefix_append _ _, le_rfl⟩
  | wake =>
    simp only [hpc, Option.map_eq_some_iff] at hs
    obtain ⟨s₁, h₁, rfl⟩ := hs
    obtain ⟨hp, hl⟩ := signal_frame h₁
    exact ⟨hp ▸ List.prefix_rfl, hl.ge⟩

theorem popStep_frame (hs : s.popStep i = some s') : s'.pushed = s.pushed ∧ s'.lost = s.lost := by
  unfold popStep at hs
  cases hpc : s.pop with
  | idle => simp [hpc] at hs
  | returned out => simp [hpc] at hs
  | loadHead | loadTail head | read head | waitTail | waitHead tail | snapshot | recheckTail g | recheckHead g tail =>
    simp only [hpc, Option.map_eq_some_iff] at hs
    obtain ⟨e, -, rfl⟩ := hs
    exact ⟨rfl, rfl⟩
  | announce head | retract head | release head out =>
    simp only [hpc, Option.some.injEq] at hs
    subst hs
    exact ⟨rfl, rfl⟩
  | claim head =>
    simp only [hpc, Option.bind_eq_some_iff] at hs
    obtain ⟨e, -, hs⟩ := hs
    split at hs
    · split at hs
      · cases hs
        exact ⟨rfl, rfl⟩
      · cases hs
    · cases hs
      exact ⟨rfl, rfl⟩
  | blocked g =>
    simp only [hpc, Option.bind_eq_some_iff] at hs
    obtain ⟨e, -, hs⟩ := hs
    split at hs
    · cases hs
    · cases hs
      exact ⟨rfl, rfl⟩

theorem step_mono {a : Act α} (hs : s.step acquireLost a = some s') : s.pushed <+: s'.pushed ∧ s.lost ≤ s'.lost := by
  cases a with
  | producer i => exact pushStep_mono hs
  | consumer i =>
    obtain ⟨hp, hl⟩ := popStep_frame hs
    exact ⟨hp ▸ List.prefix_rfl, hl.ge⟩
  | notifyWaiters =>
    simp only [step] at hs
    split at hs
    · obtain ⟨hp, hl⟩ := signal_frame hs
      exact ⟨hp ▸ List.prefix_rfl, hl.ge⟩
    · cases hs
  | push item | tryPop | waitForData | ret =>
    simp only [step] at hs
    split at hs
    · cases hs
      exact ⟨List.prefix_rfl, le_rfl⟩
    · cases hs

end Mono

/-- For every run of the two threads, whichever stores their loads find, in a ring of two or more slots with fewer than
`2 ^ 64` items pushed: if no eviction of `push()` was lost to a `try_pop()`, or a lost one acquires, no access to an item
is a data race, the items delivered are the ones pushed at their indices, each at most once and in order, and none of them
was evicted. -/
theorem weak_ring_safe (acquireLost : Bool) (hcap : 2 ≤ cap) {es : List (Act α)} {s : WeakRing α cap}
    (hrun : Runs.exec (step acquireLost) {} es = some s) (hN : s.pushed.length < 2 ^ 64)
    (hlost : acquireLost = true ∨ s.lost = 0) :
    s.raced = false ∧ (∀ e ∈ s.delivered, s.pushed[e.1]? = some e.2 ∧ e.1 ∉ s.evicted) ∧
      (s.delivered.map Prod.fst).Pairwise (· < ·) := by
  have h : s.Inv := by
    refine Runs.invariant_while (Q := fun s : WeakRing α cap => s.pushed.length < 2 ^ 64 ∧ (acquireLost = true ∨ s.lost = 0))
      (fun s a s' hs hQ => ?_) (fun s a s' h hQ hs => h.step hcap hQ.1 hQ.2 hs) Inv.init hrun ⟨hN, hlost⟩
    obtain ⟨hp, hl⟩ := step_mono hs
    exact ⟨hp.length_le.trans_lt hQ.1, hQ.2.imp_right fun h₀ : s'.lost = 0 => Nat.le_zero.1 (h₀ ▸ hl)⟩
  -- the indices delivered are among those claimed, which are the transitions the producer did not make
  have hsub : (s.delivered.map Prod.fst).Sublist ((List.range (s.mem.last .head)).filter (· ∉ s.evicted)) := by
    rw [← h.claimed, ← h.delivered, List.append_assoc]
    exact List.sublist_append_left _ _
  refine ⟨h.raced, fun e he => ⟨h.out e he, ?_⟩, ?_⟩
  · simpa using (List.mem_filter.1 (hsub.subset (List.mem_map_of_mem he))).2
  · exact (List.pairwise_lt_range.sublist (List.filter_sublist)).sublist hsub

/-- One push that finds the stores `t`, `h` and `f` of `tail_`, `head_` and the flag. -/
def onePush (item : Nat) (t h f : Nat) : List (Act Nat) :=
  [.push item, .producer t, .producer h, .producer f, .producer 0, .producer 0, .producer 0]

/-- A full ring: the third item evicts the first, and the second is delivered. -/
def evictRun : List (Act Nat) :=
  onePush 10 0 0 0 ++ onePush 11 1 0 0 ++ [.push 12, .producer 2, .producer 0, .producer 0, .producer 0, .producer 0,
    .producer 0, .producer 0, .producer 0, .tryPop, .consumer 1, .consumer 3, .consumer 0, .consumer 1, .consumer 0,
    .consumer 0, .ret]

theorem weak_ring_safe_evict : ∃ s, Runs.exec (step false) ({} : WeakRing Nat 2) evictRun = some s ∧
    s.evicted = [0] ∧ s.delivered = [(1, 11)] ∧ s.raced = false ∧ s.pushed[1]? = some 11 := by
  have h : ((Runs.exec (step false) ({} : WeakRing Nat 2) evictRun).map fun s =>
      decide (s.pushed.length = 3 ∧ s.lost = 0 ∧ s.evicted = [0] ∧ s.delivered = [(1, 11)])) = some true := by
    decide +kernel
  obtain ⟨s, hs, hd⟩ := Option.map_eq_some_iff.1 h
  obtain ⟨hlen, hlost, hev, hdel⟩ := of_decide_eq_true hd
  obtain ⟨hraced, hout, -⟩ := weak_ring_safe false (le_refl 2) hs (by omega) (.inr hlost)
  exact ⟨s, hs, hev, hdel, hraced, (hout (1, 11) (by rw [hdel]; exact List.mem_singleton.2 rfl)).1⟩

/-- With the failure order of the source: the producer loses its eviction, finds the flag as it was before the
announcement, and overwrites the item that is about to be read. -/
example : (Runs.exec (step false) ({} : WeakRing Nat 2) (onePush 10 0 0 0 ++ onePush 11 1 0 0 ++
    [.push 12, .producer 2, .producer 0, .tryPop, .consumer 0, .consumer 2, .consumer 0, .consumer 0, .producer 1,
      .producer 0, .producer 0, .consumer 0, .consumer 0])).map (fun s => (s.raced, s.delivered)) =
    some (true, [(0, 12)]) := by decide +kernel

/-- In a ring of one slot: the consumer finds the eviction but an old `tail_`, and takes an index that is not pushed. -/
example : (Runs.exec (step true) ({} : WeakRing Nat 1) (onePush 10 0 0 0 ++
    [.push 11, .producer 1, .producer 0, .producer 0, .producer 0, .tryPop, .consumer 1, .consumer 0, .consumer 0,
      .consumer 1, .consumer 0, .producer 0, .producer 0, .consumer 0])).map (fun s => (s.raced, s.delivered, s.pushed)) =
    some (true, [(1, 10)], [10]) := by decide +kernel

end WeakRing

end Mdfh
