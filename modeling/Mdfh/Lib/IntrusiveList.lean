import Mdfh.Lib.LittleEndian

/-!
# Linked lists that live in byte memory

Memory gives a byte for every address. A word of `w` bytes is copied in and out as it stands there,
least significant byte first, so that writes of single bytes beside it and words that overlap are
possible: a word is kept by every write that stays off its bytes. `Linked null next a bs`: from `a` the
links of `next` visit the addresses of `bs` in order and end at `null`.
-/

namespace IntrusiveList

open LittleEndian

abbrev Memory := Nat → UInt8

/-- `memcpy` of the word `v` to address `a`. -/
def writeWord (w : Nat) (m : Memory) (a v : Nat) : Memory :=
  fun x => if a ≤ x ∧ x < a + w then byteAt v (x - a) else m x

/-- `memcpy` of the word at address `a`. -/
def readWord (w : Nat) (m : Memory) (a : Nat) : Nat := getLe w ((List.range w).map fun i => m (a + i)) 0

section Words
variable {w : Nat} {m m' : Memory} {a b v : Nat}

theorem readWord_writeWord (hv : v < 2 ^ (8 * w)) : readWord w (writeWord w m a v) a = v := by
  have hbytes : ((List.range w).map fun i => writeWord w m a v (a + i)) = leBytes w v := by
    refine List.map_congr_left fun i hi => ?_
    have hi := List.mem_range.1 hi
    rw [writeWord, if_pos (by omega), Nat.add_sub_cancel_left]
  have hdrop : (leBytes w v).drop 0 = leBytes w v ++ [] := (List.append_nil _).symm
  rw [readWord, hbytes, getLe_of_drop w v _ [] 0 hdrop, Nat.mod_eq_of_lt hv]

theorem readWord_congr (h : ∀ i < w, m' (a + i) = m (a + i)) : readWord w m' a = readWord w m a := by
  have hbytes : ((List.range w).map fun i => m' (a + i)) = (List.range w).map fun i => m (a + i) :=
    List.map_congr_left fun i hi => h i (List.mem_range.1 hi)
  rw [readWord, hbytes, readWord]

theorem readWord_writeWord_of_disjoint (h : a + w ≤ b ∨ b + w ≤ a) :
    readWord w (writeWord w m a v) b = readWord w m b := by
  refine readWord_congr fun i hi => ?_
  rw [writeWord, if_neg (by omega)]

theorem readWord_update_of_disjoint {x : Nat} {c : UInt8} (h : x < b ∨ b + w ≤ x) :
    readWord w (Function.update m x c) b = readWord w m b := by
  refine readWord_congr fun i hi => ?_
  exact Function.update_of_ne (by omega) _ _

end Words

/-! ### Links -/

section Links
variable {A : Type} {null : A} {next next' : A → A} {a : A}

def Linked (null : A) (next : A → A) : A → List A → Prop
  | a, [] => a = null
  | a, b :: bs => a = b ∧ a ≠ null ∧ Linked null next (next a) bs

theorem Linked.congr {bs : List A} (h : Linked null next a bs) (hnext : ∀ b ∈ bs, next' b = next b) :
    Linked null next' a bs := by
  induction bs generalizing a with
  | nil => exact h
  | cons b bs ih =>
    obtain ⟨rfl, hne, hrest⟩ := h
    refine ⟨rfl, hne, ?_⟩
    rw [hnext a List.mem_cons_self]
    exact ih hrest fun c hc => hnext c (List.mem_cons_of_mem _ hc)

theorem Linked.eq_nil_iff {bs : List A} (h : Linked null next a bs) : bs = [] ↔ a = null := by
  cases bs with
  | nil => exact ⟨fun _ => h, fun _ => rfl⟩
  | cons b bs => exact ⟨(nomatch ·), fun e => absurd e h.2.1⟩

theorem Linked.mem {bs : List A} (h : Linked null next a bs) : a = null ∨ a ∈ bs := by
  cases bs with
  | nil => exact .inl h
  | cons b bs => exact .inr (h.1 ▸ List.mem_cons_self)

end Links

end IntrusiveList
