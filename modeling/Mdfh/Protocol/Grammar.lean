import Mdfh.Protocol.Codec
import Mdfh.OrderBook.BookApply

/-!
# What `decode` accepts

The wire grammar: a known type byte, the type's own size in the length field, that many bytes, and in
an Add a side byte that names `Side::Buy` or `Side::Sell`. `decode` checks the header fields and fails
closed on an unknown type, but casts the side byte unchecked, so a framed Add with another side byte is
accepted, and the book, which only asks `side == Side::Buy`, files it with the asks.
-/

namespace Mdfh
open LittleEndian

/-- Where the payload of an Add has its side byte. -/
def kSideOffset : Nat := kHeaderSize + 8 + 8 + kSymbolLen

/-- The byte names an enumerator of `Side`. -/
def NamesSide (raw : UInt8) : Prop := raw = Side.buy.raw ∨ raw = Side.sell.raw

instance (raw : UInt8) : Decidable (NamesSide raw) := inferInstanceAs (Decidable (_ ∨ _))

/-- The buffer starts with the type byte and the two bytes of its length, low byte first, and has as many
bytes as they say, which is the size of the type. -/
def Frame (type : UInt8) (size : Nat) (b : Bytes) : Prop :=
  ∃ lo hi rest, b = type :: lo :: hi :: rest ∧ lo.toNat + 256 * hi.toNat = size ∧ size ≤ b.length

/-- The well-formed buffers, one rule for each message. -/
inductive Grammar (b : Bytes) : Prop
  | addOrder (h : Frame 1 AddOrder.kWireSize b) (hside : NamesSide (b.getD kSideOffset 0))
  | cancelOrder (h : Frame 2 CancelOrder.kWireSize b)
  | executeOrder (h : Frame 3 ExecuteOrder.kWireSize b)
  | replaceOrder (h : Frame 4 ReplaceOrder.kWireSize b)

/-- An Add decoded from `b` has one of the two sides, and a book that accepts it queues the order on the
side the wire named. -/
def SideFiled (b : Bytes) : Prop :=
  ∀ a, decode b = .ok (.add a) → a.side.Defined ∧
    ∀ (book book' : OrderBookT) (ds : ApplyResult), book.RepInv → book.apply (.add a) = some (.ok ds, book') →
      (b.getD kSideOffset 0 = Side.buy.raw → ⟨a.orderId, .buy, a.price, a.quantity⟩ ∈ book'.queue true a.price) ∧
      (b.getD kSideOffset 0 = Side.sell.raw → ⟨a.orderId, .sell, a.price, a.quantity⟩ ∈ book'.queue false a.price)

theorem namesSide_iff (raw : UInt8) : NamesSide raw ↔ (Side.mk raw).Defined := by
  unfold NamesSide Side.Defined Side.buy Side.sell
  rw [Side.mk.injEq, Side.mk.injEq]

/-- The header checks, byte by byte. -/
theorem framed_iff (b : Bytes) (t : MessageType) : Framed b t ↔ Frame t.toByte t.wireSize b := by
  have hsize : t.wireSize < 2 ^ 16 := by cases t <;> decide
  have hdecl : ∀ (x lo hi : UInt8) (rest : Bytes), (getU16 (x :: lo :: hi :: rest) 1).toNat = lo.toNat + 256 * hi.toNat := by
    intro x lo hi rest
    have hlo := lo.toNat_lt
    have hhi := hi.toNat_lt
    have hdrop : (x :: lo :: hi :: rest).drop 1 = leBytes 2 (lo.toNat + 256 * hi.toNat) ++ rest := by
      rw [leBytes_pair]
      rfl
    exact getU16_of_drop (by omega) hdrop
  constructor
  · rintro ⟨hheader, htype, hd, hlen⟩
    obtain ⟨x, lo, hi, rest, rfl⟩ : ∃ x lo hi rest, b = x :: lo :: hi :: rest := by
      rcases b with _ | ⟨x, _ | ⟨lo, _ | ⟨hi, rest⟩⟩⟩
      · simp [kHeaderSize] at hheader
      · simp [kHeaderSize] at hheader
      · simp [kHeaderSize] at hheader
      · exact ⟨x, lo, hi, rest, rfl⟩
    rw [hdecl] at hd
    obtain rfl : x = t.toByte := ofByte?_eq_some_iff.1 htype
    exact ⟨lo, hi, rest, rfl, hd, hlen⟩
  · rintro ⟨lo, hi, rest, rfl, hd, hlen⟩
    refine ⟨by simp [kHeaderSize], ofByte?_eq_some_iff.2 rfl, ?_, hlen⟩
    rw [hdecl, hd]

theorem grammar_iff (b : Bytes) :
    Grammar b ↔ ∃ t, Framed b t ∧ (t = .addOrder → NamesSide (b.getD kSideOffset 0)) := by
  constructor
  · rintro (⟨h, hside⟩ | h | h | h)
    · exact ⟨.addOrder, (framed_iff _ _).2 h, fun _ => hside⟩
    · exact ⟨.cancelOrder, (framed_iff _ _).2 h, nofun⟩
    · exact ⟨.executeOrder, (framed_iff _ _).2 h, nofun⟩
    · exact ⟨.replaceOrder, (framed_iff _ _).2 h, nofun⟩
  · rintro ⟨t, ht, hside⟩
    have h := (framed_iff b t).1 ht
    cases t with
    | addOrder => exact .addOrder h (hside rfl)
    | cancelOrder => exact .cancelOrder h
    | executeOrder => exact .executeOrder h
    | replaceOrder => exact .replaceOrder h

theorem side_of_decode {b : Bytes} {a : AddOrder} (h : decode b = .ok (.add a)) :
    Framed b .addOrder ∧ a.side = ⟨b.getD kSideOffset 0⟩ := by
  obtain ⟨hf, hm⟩ := framed_of_decode h
  refine ⟨hf, ?_⟩
  cases hm
  rfl

theorem decode_isOk_iff (b : Bytes) : (∃ m, decode b = .ok m) ↔ ∃ t, Framed b t := by
  constructor
  · rintro ⟨m, hm⟩
    exact ⟨_, (framed_of_decode hm).1⟩
  · rintro ⟨t, ht⟩
    exact ⟨_, decode_of_framed ht⟩

theorem Framed.type_unique {b : Bytes} {t t' : MessageType} (h : Framed b t) (h' : Framed b t') : t = t' := by
  have he := h.type
  rw [h'.type, Option.some.injEq] at he
  exact he.symm

theorem mem_queue_of_applyAdd {b b' : OrderBookT} {a : AddOrder} {ds : ApplyResult} (h : b.RepInv)
    (ha : b.apply (.add a) = some (.ok ds, b')) :
    ⟨a.orderId, a.side, a.price, a.quantity⟩ ∈ b'.queue a.side.isBuy a.price := by
  cases hd : b.hasOrder a.orderId with
  | true =>
    have he := OrderBookT.applyAdd_dup a hd
    rw [show b.applyAdd a = b.apply (.add a) from rfl, ha] at he
    cases he
  | false =>
    obtain ⟨b₁, e, -, hq, -⟩ := h.applyAdd_ok a hd
    rw [show b.applyAdd a = b.apply (.add a) from rfl, ha, Option.some.injEq, Prod.mk.injEq] at e
    rw [e.2, hq, if_pos ⟨rfl, rfl⟩]
    exact List.mem_append_right _ (List.mem_singleton_self _)

theorem sideFiled_of_namesSide {b : Bytes} (h : Framed b .addOrder → NamesSide (b.getD kSideOffset 0)) :
    SideFiled b := by
  intro a ha
  obtain ⟨hf, hside⟩ := side_of_decode ha
  refine ⟨by rw [hside, ← namesSide_iff]; exact h hf, fun book book' ds hinv happ => ⟨fun hraw => ?_, fun hraw => ?_⟩⟩
  · have hmem := mem_queue_of_applyAdd hinv happ
    have hs : a.side = .buy := by rw [hside, hraw]
    rw [hs] at hmem
    exact hmem
  · have hmem := mem_queue_of_applyAdd hinv happ
    have hs : a.side = .sell := by rw [hside, hraw]
    rw [hs] at hmem
    exact hmem

/-- `decode` follows the grammar, and the books the named sides, on exactly the buffers that are not a
framed Add with a side byte of no enumerator. -/
theorem decode_grammar_iff (b : Bytes) :
    (((∃ m, decode b = .ok m) ↔ Grammar b) ∧ ((∃ e, decode b = .error e) ↔ ¬ Grammar b) ∧ SideFiled b) ↔
      ¬ (Frame 1 AddOrder.kWireSize b ∧ ¬ NamesSide (b.getD kSideOffset 0)) := by
  have herr : (∃ e, decode b = .error e) ↔ ¬ ∃ m, decode b = .ok m := by
    cases decode b <;> simp
  have hframe : Frame 1 AddOrder.kWireSize b ↔ Framed b .addOrder := (framed_iff b .addOrder).symm
  rw [herr, decode_isOk_iff, hframe, grammar_iff]
  constructor
  · rintro ⟨hiff, -, -⟩ ⟨hf, hn⟩
    obtain ⟨t, ht, hside⟩ := hiff.1 ⟨_, hf⟩
    exact hn (hside (ht.type_unique hf))
  · intro hc
    have hside : Framed b .addOrder → NamesSide (b.getD kSideOffset 0) := fun hf => by
      by_contra hn
      exact hc ⟨hf, hn⟩
    have hiff : (∃ t, Framed b t) ↔ ∃ t, Framed b t ∧ (t = .addOrder → NamesSide (b.getD kSideOffset 0)) := by
      refine ⟨?_, fun ⟨t, ht, _⟩ => ⟨t, ht⟩⟩
      rintro ⟨t, ht⟩
      refine ⟨t, ht, ?_⟩
      rintro rfl
      exact hside ht
    exact ⟨hiff, not_congr hiff, sideFiled_of_namesSide hside⟩

/-- An Add with side byte 7, as a feed would send it. -/
def sideSevenAdd : AddOrder := ⟨1, 42, Vector.replicate 8 65, ⟨7⟩, 100, 10, 0⟩

/-- `decode` accepts the packet, which is outside the grammar, and an empty book queues the order with
the asks. -/
theorem decode_accepts_side_seven :
    ¬ ((∃ m, decode (DecodedMessage.add sideSevenAdd).packet = .ok m) ↔
        Grammar (DecodedMessage.add sideSevenAdd).packet) ∧
      ((OrderBookT.apply {} (.add sideSevenAdd)).map fun r => r.2.queue false 100) =
        some [⟨42, ⟨7⟩, 100, 10⟩] := by
  refine ⟨fun h => ?_, by decide +kernel⟩
  obtain ⟨t, ht, hside⟩ := (grammar_iff _).1 (h.1 ⟨_, DecodedMessage.decode_packet _⟩)
  obtain ⟨hf, -⟩ := side_of_decode (DecodedMessage.decode_packet (.add sideSevenAdd))
  exact absurd (hside (ht.type_unique hf)) (by decide +kernel)

end Mdfh
