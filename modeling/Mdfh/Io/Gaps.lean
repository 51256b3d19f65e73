import Mdfh.Io.Lossless

/-!
# A live shard is not behind

Packets are lost in transit, fail to route once an earlier one is lost, or are dropped by a full
queue; a shard processes what is left, in order. If the first number it observed is `1` and its
detector is still live, what it processed is a prefix of its stream (`prefix_of_live`), so its books
are the reference. The detector takes whatever it observes first as its starting point, so the
condition on the first number cannot be left out (`live_after_lost_first`).
-/

namespace Mdfh
open GapDetector

variable {n : NumShards} {symOf : OrderId → Symbol}

/-- The messages are numbered `k + 1, k + 2, …`. -/
def NumberedFrom (k : Nat) (l : List DecodedMessage) : Prop := ∀ j m, l[j]? = some m → m.seqNum.toNat = k + j + 1

namespace NumberedFrom
variable {k : Nat} {l : List DecodedMessage}

theorem head {m : DecodedMessage} (h : NumberedFrom k (m :: l)) : m.seqNum.toNat = k + 1 := h 0 m rfl

theorem tail {m : DecodedMessage} (h : NumberedFrom k (m :: l)) : NumberedFrom (k + 1) l := by
  intro j m' hm'
  rw [h (j + 1) m' hm']
  omega

theorem lt_of_mem (h : NumberedFrom k l) {m : DecodedMessage} (hm : m ∈ l) : k < m.seqNum.toNat := by
  obtain ⟨j, hj⟩ := List.mem_iff_getElem?.1 hm
  rw [h j m hj]
  omega

theorem filter_le (h : NumberedFrom k l) (t : Nat) : l.filter (fun m => m.seqNum.toNat ≤ k + t) = l.take t := by
  induction l generalizing k t with
  | nil => simp
  | cons m l ih =>
    cases t with
    | zero =>
      rw [List.take_zero, List.filter_eq_nil_iff]
      intro m' hm'
      have := h.lt_of_mem hm'
      simp only [decide_eq_true_eq, not_le]
      omega
    | succ t =>
      have hm := h.head
      rw [List.take_succ_cons, List.filter_cons_of_pos (by simp only [decide_eq_true_eq]; omega), ← ih h.tail]
      refine congrArg _ (List.filter_congr fun m' _ => ?_)
      rw [Nat.add_assoc, Nat.add_comm 1 t]

/-- After `k > 0` numbers on track, a subsequence that leaves the detector live skips nothing. -/
theorem prefix_of_onTrack (h : NumberedFrom k l) {g : GapDetector} (hg : g.OnTrack k) (hk : 0 < k)
    {s : List DecodedMessage} (hs : s.Sublist l) (hl : (g.observeAll (s.map (·.seqNum))).state = .live) : s <+: l := by
  induction hs generalizing k g with
  | slnil => exact List.nil_prefix
  | @cons s l m hs ih =>
    cases s with
    | nil => exact List.nil_prefix
    | cons m' s =>
      -- the skipped number is missing in front of a later one
      have hlt := h.tail.lt_of_mem (hs.subset List.mem_cons_self)
      have hstale := stale_observeAll (hg.observe_ahead hk hlt) (s.map (·.seqNum))
      rw [List.map_cons, observeAll_cons, hstale] at hl
      cases hl
  | @cons_cons s l m hs ih =>
    rw [List.map_cons, observeAll_cons] at hl
    exact List.cons_prefix_cons.2 ⟨rfl, ih h.tail (hg.observe_next h.head).2 (Nat.succ_pos k) hl⟩

theorem prefix_of_live (h : NumberedFrom 0 l) {s : List DecodedMessage} (hs : s.Sublist l)
    (hfirst : (s.map (·.seqNum)).head? = some 1)
    (hl : (({} : GapDetector).observeAll (s.map (·.seqNum))).state = .live) : s <+: l := by
  cases s with
  | nil => exact List.nil_prefix
  | cons m s =>
    have hm : m.seqNum = 1 := by simpa using hfirst
    cases hs with
    | @cons _ l m' hs =>
      have hlt := h.tail.lt_of_mem (hs.subset List.mem_cons_self)
      rw [hm] at hlt
      exact absurd hlt (by decide)
    | @cons_cons _ l _ hs =>
      rw [List.map_cons, observeAll_cons] at hl
      exact List.cons_prefix_cons.2
        ⟨rfl, prefix_of_onTrack h.tail (OnTrack.init.observe_next h.head).2 Nat.one_pos hs hl⟩

end NumberedFrom

theorem Stamped.numbered {ms : List DecodedMessage} (h : Stamped n symOf ms) (i : Fin n.1) :
    NumberedFrom 0 (shardStream n symOf ms i) := by
  intro j m hm
  rw [Nat.zero_add]
  exact h i j m hm

/-- What a shard processed is a subsequence of its stream, whatever was lost before it got there. -/
theorem History.processed_sublist {sent ms : List DecodedMessage} {r : Run n} (h : History symOf sent r)
    (hs : sent.Sublist ms) (i : Fin n.1) :
    ∃ s : List DecodedMessage, s.Sublist (shardStream n symOf ms i) ∧ r.processed i = s.map (queuedAs symOf) := by
  have h₁ := ((List.sublist_append_left _ _).trans (h.order i)).trans ((hs.filter _).map (queuedAs symOf))
  obtain ⟨s, hs, he⟩ := List.sublist_map_iff.1 h₁
  exact ⟨s, hs, he⟩

/-- A live shard that observed number `1` first holds the reference books of all its messages up to
the last number it observed. -/
theorem live_books_eq_reference (n : NumShards) (symOf : OrderId → Symbol) (ms kept : List DecodedMessage)
    (hv : ValidFeed symOf ms) (hs : Stamped n symOf ms) (hk : kept.Sublist ms) (ops : List (Op n))
    (hp : packetsOf ops = kept.map (·.packet)) (hr : NoResync ops) (i : Fin n.1) (k : SeqNum) :
    let r := ({} : Run n).exec ops
    (r.pipeline.shards i).gapDetector.lastSeqNum? = some k → (r.pipeline.shards i).gapDetector.state = .live →
      (r.observed i).head? = some 1 →
      ∀ sym, (r.pipeline.shards i).book sym =
        refBook symOf ((shardStream n symOf ms i).filter (·.seqNum ≤ k)) sym := by
  intro r hlast hlive hfirst sym
  have hsent : sentBy ops = kept := sentBy_of_packets hp
  have h : History symOf ([] ++ sentBy ops) r :=
    History.init.exec (fun m hm => hv.owned m (hk.subset (hsent ▸ hm))) hr
  rw [List.nil_append, hsent] at h
  obtain ⟨s, hsub, hproc⟩ := h.processed_sublist hk i
  have hobs : r.observed i = s.map (·.seqNum) := by
    rw [Run.observed_eq, hproc, List.map_map]
    rfl
  have hgap := h.gap i
  rw [hobs] at hgap hfirst
  rw [hgap] at hlive hlast
  have hnum := hs.numbered i
  have hpre := hnum.prefix_of_live hsub hfirst hlive
  -- the last number observed is the length of the prefix
  have htrack : (({} : GapDetector).observeAll (s.map (·.seqNum))).OnTrack (0 + (s.map (·.seqNum)).length) := by
    refine OnTrack.init.observeAll fun j q hq => ?_
    rw [List.getElem?_map] at hq
    obtain ⟨m, hm, rfl⟩ := Option.map_eq_some_iff.1 hq
    refine hnum j m ?_
    obtain ⟨rest, hrest⟩ := hpre
    rw [← hrest, List.getElem?_append_left (List.getElem?_eq_some_iff.1 hm).1, hm]
  have hlen : k.toNat = s.length := by
    rw [htrack.lastSeqNum?_eq hlast, List.length_map, Nat.zero_add]
  have hfil : (shardStream n symOf ms i).filter (·.seqNum ≤ k) = s := by
    rw [List.prefix_iff_eq_take.1 hpre, ← hnum.filter_le]
    refine List.filter_congr fun m _ => ?_
    rw [Nat.zero_add, ← hlen, decide_eq_decide, UInt64.le_iff_toNat_le]
  rw [h.books, hproc, hfil, refBook]
  refine congrArg _ ?_
  unfold messagesFor
  rw [List.filter_map, List.map_map]
  exact List.map_id _

/-- The third message is lost. -/
theorem live_books_eq_reference_lost :
    ((({} : Run oneShard).exec sampleOps).pipeline.shards ⟨0, by decide⟩).book sampleSymbol =
      refBook (fun _ => sampleSymbol) ((shardStream oneShard (fun _ => sampleSymbol) [sampleAdd, sampleFill, sampleAdd₃]
        ⟨0, by decide⟩).filter (·.seqNum ≤ 2)) sampleSymbol := by
  have hvalid : ValidFeed (fun _ => sampleSymbol) [sampleAdd, sampleFill, sampleAdd₃] := by
    refine sampleFeed_valid.snoc rfl (fun id hid => ?_) trivial
    cases hid
    simp [sampleAdd, sampleFill, DecodedMessage.introduced]
  exact live_books_eq_reference oneShard _ [sampleAdd, sampleFill, sampleAdd₃] [sampleAdd, sampleFill] hvalid
    sampleAdd₃_stamped (by simp) sampleOps rfl (by simp [NoResync, sampleOps]) ⟨0, by decide⟩ 2 (by decide +kernel) (by decide +kernel)
    (by decide +kernel) sampleSymbol

/-- A second order of the sample symbol. -/
def sampleAdd₂ : DecodedMessage := .add ⟨2, 8, sampleSymbol, .sell, 105, 5, 2⟩

/-- With packet `1` lost, packet `2` starts a detector that stays live over a book without order `7`. -/
theorem live_after_lost_first :
    let ops : List (Op oneShard) := [.demux sampleAdd₂.packet, .process ⟨0, by decide⟩]
    let s := (({} : Run oneShard).exec ops).pipeline.shards ⟨0, by decide⟩
    ValidFeed (fun _ => sampleSymbol) [sampleAdd, sampleAdd₂] ∧
      Stamped oneShard (fun _ => sampleSymbol) [sampleAdd, sampleAdd₂] ∧
      [sampleAdd₂].Sublist [sampleAdd, sampleAdd₂] ∧ packetsOf ops = [sampleAdd₂].map (·.packet) ∧ NoResync ops ∧
      s.queue.items = [] ∧ s.gapDetector.lastSeqNum? = some 2 ∧ s.gapDetector.state = .live ∧
      s.book sampleSymbol ≠ refBook (fun _ => sampleSymbol)
        ((shardStream oneShard (fun _ => sampleSymbol) [sampleAdd, sampleAdd₂] ⟨0, by decide⟩).filter (·.seqNum ≤ 2))
        sampleSymbol := by
  refine ⟨?_, ?_, by simp, rfl, by simp [NoResync], by decide +kernel, by decide +kernel, by decide +kernel, ?_⟩
  · have h₁ : ValidFeed (fun _ => sampleSymbol) [sampleAdd] := ValidFeed.nil.snoc rfl (by simp) trivial
    refine h₁.snoc rfl ?_ trivial
    intro id hid
    cases hid
    simp [sampleAdd, DecodedMessage.introduced]
  · refine Stamped.of_oneShard fun j m hm => ?_
    rcases j with _ | _ | j
    · cases hm; rfl
    · cases hm; rfl
    · cases hm
  · intro h
    have := congrArg (·.hasOrder 7) h
    revert this
    decide +kernel

end Mdfh
