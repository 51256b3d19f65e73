import Mathlib.Data.List.Basic

/-!
# Reading a printed text back

Text is printed as bytes, one item after the other with nothing between but what the format puts
there. Each lemma has the form `x ++ r = y ++ r' → x = y ∧ r = r'`: what was printed first is known,
and what remains is compared next. A run of digits ends where the digits do (`append_inj_of_span`,
`nat_append_inj`, `int_append_inj`). A free text of bounded length ends at a marker, when the marker does
not come again within that bound (`append_inj_of_marker`).
-/

namespace TextLines
variable {α β : Type}

/-! ### Where an item ends -/

theorem append_inj_of_span {p : β → Prop} {xs ys r r' : List β} (hx : ∀ x ∈ xs, p x) (hy : ∀ y ∈ ys, p y)
    (hr : ∀ x ∈ r.head?, ¬ p x) (hr' : ∀ x ∈ r'.head?, ¬ p x) (h : xs ++ r = ys ++ r') : xs = ys ∧ r = r' := by
  induction xs generalizing ys with
  | nil =>
    cases ys with
    | nil => exact ⟨rfl, h⟩
    | cons y ys =>
      rw [List.nil_append] at h
      subst h
      exact absurd (hy y List.mem_cons_self) (hr y rfl)
  | cons x xs ih =>
    cases ys with
    | nil =>
      rw [List.nil_append] at h
      subst h
      exact absurd (hx x List.mem_cons_self) (hr' x rfl)
    | cons y ys =>
      rw [List.cons_append, List.cons_append, List.cons.injEq] at h
      obtain ⟨rfl, h⟩ := h
      obtain ⟨rfl, rfl⟩ := ih (fun z hz => hx z (List.mem_cons_of_mem _ hz)) (fun z hz => hy z (List.mem_cons_of_mem _ hz)) h
      exact ⟨rfl, rfl⟩

/-- `m` stands at the head of `r` and at none of the next `n` places. -/
def MarkedBy (m : β) (n : Nat) (r : List β) : Prop := r[0]? = some m ∧ ∀ k, 0 < k → k ≤ n → r[k]? ≠ some m

theorem append_inj_of_marker {m : β} {n : Nat} {xs ys r r' : List β} (hx : xs.length ≤ n) (hy : ys.length ≤ n)
    (hr : MarkedBy m n r) (hr' : MarkedBy m n r') (h : xs ++ r = ys ++ r') : xs = ys ∧ r = r' := by
  -- the marker of the longer text stands too close after the marker of the shorter one
  have hle : ∀ {xs ys r r' : List β}, ys.length ≤ n → MarkedBy m n r → MarkedBy m n r' → xs ++ r = ys ++ r' →
      ys.length ≤ xs.length := by
    intro xs ys r r' hy hr hr' h
    by_contra hlt
    have hat : (xs ++ r)[ys.length]? = some m := by
      rw [h, List.getElem?_append_right (Nat.le_refl _), Nat.sub_self]
      exact hr'.1
    rw [List.getElem?_append_right (by omega)] at hat
    exact hr.2 _ (by omega) (by omega) hat
  exact List.append_inj h (Nat.le_antisymm (hle hx hr' hr h.symm) (hle hy hr hr' h))

theorem flatMap_inj {enc : α → List β} {P : α → Prop} (hne : ∀ a, enc a ≠ [])
    (henc : ∀ a b r r', P a → P b → enc a ++ r = enc b ++ r' → a = b ∧ r = r') {as bs : List α} (ha : ∀ a ∈ as, P a)
    (hb : ∀ b ∈ bs, P b) (h : as.flatMap enc = bs.flatMap enc) : as = bs := by
  induction as generalizing bs with
  | nil =>
    cases bs with
    | nil => rfl
    | cons b bs =>
      rw [List.flatMap_nil, List.flatMap_cons, eq_comm, List.append_eq_nil_iff] at h
      exact absurd h.1 (hne b)
  | cons a as ih =>
    cases bs with
    | nil =>
      rw [List.flatMap_nil, List.flatMap_cons, List.append_eq_nil_iff] at h
      exact absurd h.1 (hne a)
    | cons b bs =>
      rw [List.flatMap_cons, List.flatMap_cons] at h
      obtain ⟨rfl, hrest⟩ := henc a b _ _ (ha a List.mem_cons_self) (hb b List.mem_cons_self) h
      rw [ih (fun c hc => ha c (List.mem_cons_of_mem _ hc)) (fun c hc => hb c (List.mem_cons_of_mem _ hc)) hrest]

/-! ### Decimal numbers -/

/-- The bytes of an ASCII text. -/
def text (s : String) : List UInt8 := s.toList.map Char.toUInt8

/-- `'0'` to `'9'`. -/
def IsDigit (b : UInt8) : Prop := 48 ≤ b.toNat ∧ b.toNat ≤ 57

instance (b : UInt8) : Decidable (IsDigit b) := inferInstanceAs (Decidable (48 ≤ b.toNat ∧ b.toNat ≤ 57))

theorem ends_number {b : UInt8} (hb : ¬ IsDigit b) (r : List UInt8) : ∀ c ∈ (b :: r).head?, ¬ IsDigit c := by
  rintro c ⟨⟩
  exact hb

theorem toNat_toUInt8 {c : Char} (hc : c.isDigit = true) : c.toUInt8.toNat = c.toNat := by
  have h : c.toNat ≤ 57 := (Char.isDigit_iff_toNat.1 hc).2
  show c.val.toUInt8.toNat = c.toNat
  rw [UInt32.toNat_toUInt8]
  exact Nat.mod_eq_of_lt (by show c.toNat < 256; omega)

theorem text_nat (n : Nat) : text (toString n) = (Nat.toDigits 10 n).map Char.toUInt8 := by
  rw [text, Nat.toString_eq_repr, Nat.toList_repr]

theorem isDigit_of_mem_text {n : Nat} {b : UInt8} (hb : b ∈ text (toString n)) : IsDigit b := by
  rw [text_nat] at hb
  obtain ⟨c, hc, rfl⟩ := List.mem_map.1 hb
  have hdig := Nat.isDigit_of_mem_toDigits (by decide) (by decide) hc
  rw [IsDigit, toNat_toUInt8 hdig]
  exact Char.isDigit_iff_toNat.1 hdig

theorem text_nat_inj {n m : Nat} (h : text (toString n) = text (toString m)) : n = m := by
  rw [text_nat, text_nat] at h
  -- a digit is known from its byte
  have hback : ∀ k, ((Nat.toDigits 10 k).map Char.toUInt8).map (fun b => Char.ofNat b.toNat) = Nat.toDigits 10 k := by
    intro k
    rw [List.map_map]
    refine (List.map_congr_left fun c hc => ?_).trans (List.map_id _)
    show Char.ofNat c.toUInt8.toNat = c
    rw [toNat_toUInt8 (Nat.isDigit_of_mem_toDigits (by decide) (by decide) hc), Char.ofNat_toNat]
  have hdigits := congrArg (List.map fun b : UInt8 => Char.ofNat b.toNat) h
  rw [hback, hback] at hdigits
  rw [← Nat.ofDigitChars_ten_toDigits (n := n), hdigits, Nat.ofDigitChars_ten_toDigits]

/-- A number is read up to the first byte that is no digit. -/
theorem nat_append_inj {n m : Nat} {r r' : List UInt8} (hr : ∀ b ∈ r.head?, ¬ IsDigit b) (hr' : ∀ b ∈ r'.head?, ¬ IsDigit b)
    (h : text (toString n) ++ r = text (toString m) ++ r') : n = m ∧ r = r' := by
  obtain ⟨htext, hrest⟩ := append_inj_of_span (fun _ => isDigit_of_mem_text) (fun _ => isDigit_of_mem_text) hr hr' h
  exact ⟨text_nat_inj htext, hrest⟩

theorem cons_ne_nat {b : UInt8} (hb : ¬ IsDigit b) (n : Nat) (r r' : List UInt8) : b :: r ≠ text (toString n) ++ r' := by
  intro h
  cases htext : text (toString n) with
  | nil =>
    rw [text_nat, List.map_eq_nil_iff] at htext
    exact absurd htext Nat.toDigits_ne_nil
  | cons c cs =>
    rw [htext, List.cons_append, List.cons.injEq] at h
    have hc : IsDigit c := isDigit_of_mem_text (htext ▸ List.mem_cons_self)
    exact hb (h.1 ▸ hc)

theorem text_append (s s' : String) : text (s ++ s') = text s ++ text s' := by
  simp [text]

theorem text_int_of_nonneg {i : Int} (h : 0 ≤ i) : text (toString i) = text (toString i.toNat) := by
  rw [Int.toString_eq_repr, Int.repr_eq_if, if_pos h]
  rfl

theorem text_int_of_neg {i : Int} (h : i < 0) : text (toString i) = 45 :: text (toString (-i).toNat) := by
  rw [Int.toString_eq_repr, Int.repr_eq_if, if_neg (by omega), text_append]
  rfl

theorem int_append_inj {i j : Int} {r r' : List UInt8} (hr : ∀ b ∈ r.head?, ¬ IsDigit b) (hr' : ∀ b ∈ r'.head?, ¬ IsDigit b)
    (h : text (toString i) ++ r = text (toString j) ++ r') : i = j ∧ r = r' := by
  have hsign : ¬ IsDigit 45 := by decide
  rcases Int.lt_or_le i 0 with hi | hi
  · rcases Int.lt_or_le j 0 with hj | hj
    · rw [text_int_of_neg hi, text_int_of_neg hj, List.cons_append, List.cons_append, List.cons.injEq] at h
      obtain ⟨habs, hrest⟩ := nat_append_inj hr hr' h.2
      exact ⟨by omega, hrest⟩
    · rw [text_int_of_neg hi, text_int_of_nonneg hj, List.cons_append] at h
      exact absurd h (cons_ne_nat hsign _ _ _)
  · rcases Int.lt_or_le j 0 with hj | hj
    · rw [text_int_of_nonneg hi, text_int_of_neg hj, List.cons_append] at h
      exact absurd h.symm (cons_ne_nat hsign _ _ _)
    · rw [text_int_of_nonneg hi, text_int_of_nonneg hj] at h
      obtain ⟨habs, hrest⟩ := nat_append_inj hr hr' h
      exact ⟨by omega, hrest⟩

end TextLines
