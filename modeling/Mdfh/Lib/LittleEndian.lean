import Mathlib.Tactic.Linarith

/-!
# Little-endian integers in byte buffers

`putLe w p v b` stores the low `w` bytes of `v` at offset `p` of the buffer `b`, least significant
byte first; `getLe w b p` reads them back. A buffer is a list of bytes. Writes are described by
`putLe_append` (a write right behind a prefix replaces the next `w` bytes by `leBytes w v`) and reads
by `getLe_of_drop` (a read at an offset whose suffix starts with `leBytes w v`), so a sequence of
writes and reads with an advancing offset is followed one field at a time. `leBytes_getLe` is the way
back: the bytes of a value that was read are the bytes it was read from.
-/

namespace LittleEndian

abbrev Bytes := List UInt8

/-- The `i`-th byte of `v`: `(v >> (8 * i)) & 0xFF`. -/
def byteAt (v i : Nat) : UInt8 := UInt8.ofNat ((v >>> (8 * i)) % 256)

/-- The low `w` bytes of `v`, least significant first. -/
def leBytes (w v : Nat) : Bytes := (List.range w).map (byteAt v)

/-- `for (i = 0; i < w; ++i) p[i] = (v >> (8 * i)) & 0xFF`. -/
def putLe : Nat → Nat → Nat → Bytes → Bytes
  | 0, _, _, b => b
  | w + 1, p, v, b => (putLe w p v b).set (p + w) (byteAt v w)

/-- `for (i = 0; i < w; ++i) v |= p[i] << (8 * i)`. -/
def getLe : Nat → Bytes → Nat → Nat
  | 0, _, _ => 0
  | w + 1, b, p => getLe w b p ||| ((b.getD (p + w) 0).toNat <<< (8 * w))

theorem length_leBytes (w v : Nat) : (leBytes w v).length = w := by simp [leBytes]

theorem leBytes_succ (w v : Nat) : leBytes (w + 1) v = leBytes w v ++ [byteAt v w] := by
  simp [leBytes, List.range_succ]

theorem putLe_append (w v : Nat) (pre rest : Bytes) (h : w ≤ rest.length) :
    putLe w pre.length v (pre ++ rest) = (pre ++ leBytes w v) ++ rest.drop w := by
  induction w with
  | zero => simp [putLe, leBytes]
  | succ w ih =>
    have hw : w < rest.length := h
    rw [putLe, ih (by omega), leBytes_succ, List.drop_eq_getElem_cons hw]
    have hlen : (pre ++ leBytes w v).length = pre.length + w := by simp [length_leBytes]
    rw [List.set_append_right _ _ (by omega), hlen, Nat.sub_self]
    simp only [List.set_cons_zero, List.append_assoc, List.cons_append, List.nil_append]

theorem mod_or_shift (v w : Nat) :
    v % 2 ^ (8 * w) ||| ((v >>> (8 * w)) % 256) <<< (8 * w) = v % 2 ^ (8 * (w + 1)) := by
  apply Nat.eq_of_testBit_eq
  intro i
  rw [show 256 = 2 ^ 8 from rfl]
  simp only [Nat.testBit_or, Nat.testBit_mod_two_pow, Nat.testBit_shiftLeft, Nat.testBit_shiftRight]
  by_cases h1 : i < 8 * w
  · simp [h1, show i < 8 * (w + 1) by omega, show ¬ 8 * w ≤ i by omega]
  · by_cases h2 : i < 8 * (w + 1)
    · have e : 8 * w + (i - 8 * w) = i := by omega
      simp [h1, h2, e, show 8 * w ≤ i by omega, show i - 8 * w < 8 by omega]
    · simp [h1, h2, show ¬ i - 8 * w < 8 by omega]

theorem toNat_byteAt (v i : Nat) : (byteAt v i).toNat = (v >>> (8 * i)) % 256 := by
  simp [byteAt]

theorem leBytes_pair (lo hi : UInt8) : leBytes 2 (lo.toNat + 256 * hi.toNat) = [lo, hi] := by
  have hlo := lo.toNat_lt
  have hhi := hi.toNat_lt
  have h₀ : byteAt (lo.toNat + 256 * hi.toNat) 0 = lo := by
    rw [← UInt8.toNat_inj, toNat_byteAt, Nat.shiftRight_eq_div_pow]
    omega
  have h₁ : byteAt (lo.toNat + 256 * hi.toNat) 1 = hi := by
    rw [← UInt8.toNat_inj, toNat_byteAt, Nat.shiftRight_eq_div_pow]
    omega
  rw [leBytes_succ, leBytes_succ, h₀, h₁]
  rfl

/-- A read at an offset whose suffix starts with `leBytes w v` gives `v` modulo `2 ^ (8 * w)`. -/
theorem getLe_of_drop (w v : Nat) (b rest : Bytes) (p : Nat) (h : b.drop p = leBytes w v ++ rest) :
    getLe w b p = v % 2 ^ (8 * w) := by
  induction w generalizing rest with
  | zero => simp [getLe, Nat.mod_one]
  | succ w ih =>
    rw [leBytes_succ, List.append_assoc] at h
    have hget : b[p + w]? = some (byteAt v w) := by
      rw [← List.getElem?_drop, h, List.getElem?_append_right (by simp [length_leBytes])]
      simp [length_leBytes]
    rw [getLe, ih _ h, List.getD_eq_getElem?_getD, hget, Option.getD_some, toNat_byteAt, mod_or_shift]

theorem drop_of_drop (w v : Nat) (b rest : Bytes) (p : Nat) (h : b.drop p = leBytes w v ++ rest) :
    b.drop (p + w) = rest := by
  rw [← List.drop_drop, h, List.drop_append_of_le_length (by simp [length_leBytes])]
  simp [length_leBytes]

/-! ### Writing back what was read -/

/-- The `w` bytes at offset `p`. -/
def slice (b : Bytes) (p w : Nat) : Bytes := (b.drop p).take w

theorem slice_append (b : Bytes) (p w w' : Nat) : slice b p w ++ slice b (p + w) w' = slice b p (w + w') := by
  rw [slice, slice, slice, List.take_add, List.drop_drop]

theorem slice_succ {b : Bytes} {p w : Nat} (h : p + (w + 1) ≤ b.length) :
    slice b p (w + 1) = slice b p w ++ [b.getD (p + w) 0] := by
  have hlt : p + w < b.length := by omega
  have hlast : slice b (p + w) 1 = [b.getD (p + w) 0] := by
    rw [slice, List.drop_eq_getElem_cons hlt, List.take_succ_cons, List.take_zero, List.getD_eq_getElem?_getD,
      List.getElem?_eq_getElem hlt]
    rfl
  rw [← slice_append, hlast]

theorem getLe_lt (w : Nat) (b : Bytes) (p : Nat) : getLe w b p < 2 ^ (8 * w) := by
  induction w with
  | zero => simp [getLe]
  | succ w ih =>
    rw [getLe]
    refine Nat.or_lt_two_pow (ih.trans_le (Nat.pow_le_pow_right (by decide) (by omega))) ?_
    have hbyte : (b.getD (p + w) 0).toNat < 2 ^ 8 := UInt8.toNat_lt _
    rw [Nat.shiftLeft_eq, show 8 * (w + 1) = 8 + 8 * w by omega, Nat.pow_add]
    exact Nat.mul_lt_mul_of_pos_right hbyte (Nat.two_pow_pos _)

theorem leBytes_or_shift (w v c : Nat) : leBytes w (v ||| c <<< (8 * w)) = leBytes w v := by
  refine List.map_congr_left fun i hi => ?_
  have hi := List.mem_range.1 hi
  apply UInt8.toNat_inj.1
  rw [toNat_byteAt, toNat_byteAt]
  apply Nat.eq_of_testBit_eq
  intro j
  rw [show 256 = 2 ^ 8 from rfl]
  simp only [Nat.testBit_mod_two_pow, Nat.testBit_shiftRight, Nat.testBit_or, Nat.testBit_shiftLeft]
  by_cases hj : j < 8
  · simp [hj, show ¬ 8 * w ≤ 8 * i + j by omega]
  · simp [hj]

theorem byteAt_or_shift (w v : Nat) (c : UInt8) (h : v < 2 ^ (8 * w)) :
    byteAt (v ||| c.toNat <<< (8 * w)) w = c := by
  apply UInt8.toNat_inj.1
  rw [toNat_byteAt, Nat.shiftRight_or_distrib, Nat.shiftRight_eq_div_pow, Nat.div_eq_of_lt h, Nat.zero_or,
    Nat.shiftLeft_shiftRight]
  exact Nat.mod_eq_of_lt c.toNat_lt

/-- The bytes of a value read at `p` are the bytes at `p`. -/
theorem leBytes_getLe (w : Nat) (b : Bytes) (p : Nat) (h : p + w ≤ b.length) :
    leBytes w (getLe w b p) = slice b p w := by
  induction w with
  | zero => simp [leBytes, slice]
  | succ w ih =>
    rw [getLe, leBytes_succ, leBytes_or_shift, byteAt_or_shift w _ _ (getLe_lt w b p), ih (by omega), slice_succ h]

end LittleEndian
