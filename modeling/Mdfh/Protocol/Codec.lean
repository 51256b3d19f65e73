import Mdfh.Protocol.Decoder

/-!
# The codec in both directions

`decode_wire` reads back what `encode` wrote. Here is the other direction, `wire_of_decode`: whatever
`decode` accepts is the encoding of the message it returns, followed by bytes it never looked at. Each
payload parser is followed field by field: the bytes of a field that was read are the bytes at its
offset (`leBytes_getU64` and its siblings), and adjacent fields join (`slice_append`).
-/

namespace Mdfh
open LittleEndian

section Fields
variable {b : Bytes} {p : Nat}

theorem leBytes_getU16 (h : p + 2 ≤ b.length) : leBytes 2 (getU16 b p).toNat = slice b p 2 := by
  have hlt : getLe 2 b p < 2 ^ 16 := getLe_lt 2 b p
  rw [getU16, UInt16.toNat_ofNat', Nat.mod_eq_of_lt hlt, leBytes_getLe 2 b p h]

theorem leBytes_getU32 (h : p + 4 ≤ b.length) : leBytes 4 (getU32 b p).toNat = slice b p 4 := by
  have hlt : getLe 4 b p < 2 ^ 32 := getLe_lt 4 b p
  rw [getU32, UInt32.toNat_ofNat', Nat.mod_eq_of_lt hlt, leBytes_getLe 4 b p h]

theorem leBytes_getU64 (h : p + 8 ≤ b.length) : leBytes 8 (getU64 b p).toNat = slice b p 8 := by
  have hlt : getLe 8 b p < 2 ^ 64 := getLe_lt 8 b p
  rw [getU64, UInt64.toNat_ofNat', Nat.mod_eq_of_lt hlt, leBytes_getLe 8 b p h]

theorem leBytes_getI64 (h : p + 8 ≤ b.length) : leBytes 8 (getI64 b p).toUInt64.toNat = slice b p 8 :=
  leBytes_getU64 h

theorem singleton_getU8 (h : p + 1 ≤ b.length) : [getU8 b p] = slice b p 1 := by
  rw [slice_succ h]
  simp [slice, getU8]

theorem toList_getSymbol (h : p + 8 ≤ b.length) : (getSymbol b p).toList = slice b p 8 := by
  refine List.ext_getElem (by simp [slice]; omega) fun i hi _ => ?_
  have hlt : p + i < b.length := by
    have : i < 8 := by simpa using hi
    omega
  simp [getSymbol, slice, getU8, List.getD_eq_getElem?_getD, hlt]

end Fields

/-! ### Whatever is accepted is an encoding -/

/-- The parser `decode` runs on the payload of each message type. -/
def decodePayload (b : Bytes) : MessageType → DecodedMessage
  | .addOrder => .add (decodeAddOrder b kHeaderSize)
  | .cancelOrder => .cancel (decodeCancelOrder b kHeaderSize)
  | .executeOrder => .execute (decodeExecuteOrder b kHeaderSize)
  | .replaceOrder => .replace (decodeReplaceOrder b kHeaderSize)

@[simp] theorem type_decodePayload (b : Bytes) (t : MessageType) : (decodePayload b t).type = t := by
  cases t <;> rfl

theorem payload_decodePayload {b : Bytes} {t : MessageType} (h : t.wireSize ≤ b.length) :
    (decodePayload b t).payload = slice b kHeaderSize (t.wireSize - kHeaderSize) := by
  cases t with
  | addOrder =>
    have h : 48 ≤ b.length := h
    simp only [decodePayload, DecodedMessage.payload, decodeAddOrder, kHeaderSize, kSymbolLen]
    rw [leBytes_getU64 (by omega), leBytes_getU64 (by omega), toList_getSymbol (by omega), singleton_getU8 (by omega),
      leBytes_getI64 (by omega), leBytes_getU32 (by omega), leBytes_getU64 (by omega)]
    simp only [slice_append]
    rfl
  | cancelOrder =>
    have h : 27 ≤ b.length := h
    simp only [decodePayload, DecodedMessage.payload, decodeCancelOrder, kHeaderSize]
    rw [leBytes_getU64 (by omega), leBytes_getU64 (by omega), leBytes_getU64 (by omega)]
    simp only [slice_append]
    rfl
  | executeOrder =>
    have h : 31 ≤ b.length := h
    simp only [decodePayload, DecodedMessage.payload, decodeExecuteOrder, kHeaderSize]
    rw [leBytes_getU64 (by omega), leBytes_getU64 (by omega), leBytes_getU32 (by omega), leBytes_getU64 (by omega)]
    simp only [slice_append]
    rfl
  | replaceOrder =>
    have h : 47 ≤ b.length := h
    simp only [decodePayload, DecodedMessage.payload, decodeReplaceOrder, kHeaderSize]
    rw [leBytes_getU64 (by omega), leBytes_getU64 (by omega), leBytes_getU64 (by omega), leBytes_getI64 (by omega),
      leBytes_getU32 (by omega), leBytes_getU64 (by omega)]
    simp only [slice_append]
    rfl

/-- The header checks of `decode` pass with type `t`. -/
structure Framed (b : Bytes) (t : MessageType) : Prop where
  header : kHeaderSize ≤ b.length
  type : MessageType.ofByte? (getU8 b 0) = some t
  declared : (getU16 b 1).toNat = t.wireSize
  length : t.wireSize ≤ b.length

theorem ofByte?_eq_some_iff {raw : UInt8} {t : MessageType} : MessageType.ofByte? raw = some t ↔ raw = t.toByte := by
  constructor
  · intro h
    unfold MessageType.ofByte? at h
    split_ifs at h with h1 h2 h3 h4 <;> cases h <;> assumption
  · rintro rfl
    exact MessageType.ofByte?_toByte t

theorem wireSizeFor_eq (raw : UInt8) :
    wireSizeFor raw = match MessageType.ofByte? raw with
      | some t => .ok t.wireSize
      | none => .error .invalidMessageType := by
  unfold wireSizeFor
  rcases MessageType.ofByte? raw with _ | _ | _ | _ | _ <;> rfl

/-- `decode` as one check after the other on the header, then the payload parser of the type. -/
theorem decode_eq (b : Bytes) :
    decode b =
      if b.length < kHeaderSize then .error .truncatedMessage
      else match MessageType.ofByte? (getU8 b 0) with
        | none => .error .invalidMessageType
        | some t =>
          if (getU16 b 1).toNat ≠ t.wireSize then .error .lengthMismatch
          else if b.length < (getU16 b 1).toNat then .error .truncatedMessage
          else .ok (decodePayload b t) := by
  unfold decode
  split
  · rfl
  · simp only [wireSizeFor_eq]
    rcases MessageType.ofByte? (getU8 b 0) with _ | _ | _ | _ | _ <;> rfl

theorem decode_of_framed {b : Bytes} {t : MessageType} (h : Framed b t) : decode b = .ok (decodePayload b t) := by
  have hh := Nat.not_lt.2 h.header
  have hl := Nat.not_lt.2 h.length
  simp [decode_eq, hh, h.type, h.declared, hl]

theorem framed_of_decode {b : Bytes} {m : DecodedMessage} (h : decode b = .ok m) :
    Framed b m.type ∧ m = decodePayload b m.type := by
  rw [decode_eq] at h
  split at h
  · cases h
  next hh =>
  cases ht : MessageType.ofByte? (getU8 b 0) with
  | none => rw [ht] at h; cases h
  | some t =>
    rw [ht] at h
    dsimp only at h
    split_ifs at h with hd hl
    · rw [not_not] at hd
      cases h
      rw [type_decodePayload]
      exact ⟨⟨Nat.not_lt.1 hh, ht, hd, hd ▸ Nat.not_lt.1 hl⟩, rfl⟩

/-- A buffer that passes the header checks starts with the encoding of what its parser returns. -/
theorem wire_decodePayload {b : Bytes} {t : MessageType} (h : Framed b t) :
    (decodePayload b t).wire = b.take t.wireSize := by
  have hsize : kHeaderSize ≤ t.wireSize := by cases t <;> decide
  have hlen := h.length
  have hheader := h.header
  rw [kHeaderSize] at hheader
  have htype : [t.toByte] = slice b 0 1 := by
    rw [← singleton_getU8 (by omega), ofByte?_eq_some_iff.1 h.type]
  have hdecl : leBytes 2 t.wireSize = slice b (0 + 1) 2 := by
    rw [← leBytes_getU16 (by omega), h.declared]
  rw [DecodedMessage.wire, payload_decodePayload hlen, type_decodePayload, htype, hdecl, slice_append]
  show slice b 0 3 ++ slice b (0 + 3) _ = _
  rw [slice_append, slice, List.drop_zero]
  congr 1
  exact Nat.add_sub_cancel' hsize

/-- Whatever `decode` accepts starts with the encoding of the message it returns. -/
theorem wire_of_decode {b : Bytes} {m : DecodedMessage} (h : decode b = .ok m) :
    m.type.wireSize ≤ b.length ∧ m.wire = b.take m.type.wireSize := by
  obtain ⟨hf, hm⟩ := framed_of_decode h
  refine ⟨hf.length, ?_⟩
  rw [← wire_decodePayload hf, ← hm]

/-! ### Bytes that do not matter -/

theorem getLe_append (w : Nat) (b rest : Bytes) (p : Nat) (h : p + w ≤ b.length) :
    getLe w (b ++ rest) p = getLe w b p := by
  induction w with
  | zero => rfl
  | succ w ih =>
    have hlt : p + w < b.length := by omega
    rw [getLe, getLe, ih (by omega), List.getD_eq_getElem?_getD, List.getD_eq_getElem?_getD,
      List.getElem?_append_left hlt]

/-- Bytes behind the header and the declared length do not change the outcome. -/
theorem decode_append {b : Bytes} (rest : Bytes) (hh : kHeaderSize ≤ b.length) (hd : (getU16 b 1).toNat ≤ b.length) :
    decode (b ++ rest) = decode b := by
  have h3 : 3 ≤ b.length := hh
  have h0 : getU8 (b ++ rest) 0 = getU8 b 0 := by
    have hlt : 0 < b.length := by omega
    rw [getU8, getU8, List.getD_eq_getElem?_getD, List.getD_eq_getElem?_getD, List.getElem?_append_left hlt]
  have h1 : getU16 (b ++ rest) 1 = getU16 b 1 := by rw [getU16, getU16, getLe_append 2 b rest 1 (by omega)]
  cases ht : MessageType.ofByte? (getU8 b 0) with
  | none => simp [decode_eq, Nat.not_lt.2 hh, h0, ht, show ¬ b.length + rest.length < kHeaderSize by omega]
  | some t =>
    by_cases hs : (getU16 b 1).toNat = t.wireSize
    · -- a framed buffer is the encoding of its message and more
      have hf : Framed b t := ⟨hh, ht, hs, hs ▸ hd⟩
      have hb : b ++ rest = (decodePayload b t).wire ++ (b.drop t.wireSize ++ rest) := by
        rw [wire_decodePayload hf, ← List.append_assoc, List.take_append_drop]
      rw [decode_of_framed hf, hb, DecodedMessage.decode_wire]
    · simp [decode_eq, Nat.not_lt.2 hh, h0, h1, ht, hs, show ¬ b.length + rest.length < kHeaderSize by omega]

namespace DecodedMessage

theorem decode_take_wire (m : DecodedMessage) {k : Nat} (hk : k < m.type.wireSize) :
    decode (m.wire.take k) = .error .truncatedMessage := by
  have hlen : (m.wire.take k).length = k := by rw [List.length_take, length_wire]; omega
  by_cases h3 : k < kHeaderSize
  · rw [decode_eq, if_pos (by omega)]
  · -- the header is intact
    obtain ⟨j, rfl⟩ : ∃ j, k = 3 + j := ⟨k - 3, by rw [kHeaderSize] at h3; omega⟩
    have hb : (m.wire.take (3 + j)).drop 0 = [m.type.toByte] ++ (leBytes 2 m.type.wireSize ++ m.payload.take j) := by
      have hhead : ([m.type.toByte] ++ leBytes 2 m.type.wireSize).length = 3 := by simp [length_leBytes]
      rw [List.drop_zero, wire, List.take_append, hhead, Nat.add_sub_cancel_left,
        List.take_of_length_le (by omega), List.append_assoc]
    have htype : getU8 (m.wire.take (3 + j)) 0 = m.type.toByte := getU8_of_drop hb
    have hdecl : (getU16 (m.wire.take (3 + j)) 1).toNat = m.type.wireSize :=
      getU16_of_drop (by cases m.type <;> decide) (drop_list (k := 1) rfl hb)
    simp [decode_eq, h3, hlen, htype, hdecl, hk]

theorem encode_small (m : DecodedMessage) (out : Bytes) (h : out.length < m.type.wireSize) :
    m.encode out = (.error .bufferTooSmall, out) := by
  cases m <;> exact if_pos h

/-- Encoding is a bijection between messages and accepted byte strings, in every buffer: `encode`
overwrites exactly the first `kWireSize` bytes, or nothing where they do not fit; `decode` reads a
message back whatever follows it; an accepted buffer starts with the encoding of its message; every
strict prefix of an encoding is `TruncatedMessage`; and bytes behind the declared length (which covers
the header) are never looked at. -/
theorem codec_bijective (m : DecodedMessage) :
    (∀ out, m.type.wireSize ≤ out.length → ∃ written, m.encode out = (.ok m.type.wireSize, written) ∧
      written.length = out.length ∧ written.drop m.type.wireSize = out.drop m.type.wireSize ∧
      ∀ b, written.take m.type.wireSize <+: b → decode b = .ok m) ∧
    (∀ out, out.length < m.type.wireSize → m.encode out = (.error .bufferTooSmall, out)) ∧
    (∀ b, decode b = .ok m → m.type.wireSize ≤ b.length ∧
      ∀ out, m.type.wireSize ≤ out.length → (m.encode out).2.take m.type.wireSize = b.take m.type.wireSize) ∧
    (∀ b, b <+: m.packet → b ≠ m.packet → decode b = .error .truncatedMessage) ∧
    ∀ b rest, kHeaderSize ≤ b.length → (getU16 b 1).toNat ≤ b.length → decode (b ++ rest) = decode b := by
  have htake : ∀ rest, (m.wire ++ rest).take m.type.wireSize = m.wire := fun rest => by
    rw [← length_wire, List.take_left]
  refine ⟨fun out h => ?_, m.encode_small, fun b hb => ?_, fun b hb hne => ?_, fun b rest => decode_append rest⟩
  · refine ⟨_, m.encode_eq out h, ?_, ?_, ?_⟩
    · rw [List.length_append, length_wire, List.length_drop]
      omega
    · rw [← length_wire, List.drop_left]
    · rintro b ⟨rest, rfl⟩
      rw [htake]
      exact m.decode_wire rest
  · obtain ⟨hlen, hw⟩ := wire_of_decode hb
    refine ⟨hlen, fun out h => ?_⟩
    rw [m.encode_eq out h, htake, hw]
  · rw [packet_eq] at hb hne
    have hbk := List.prefix_iff_eq_take.1 hb
    rw [hbk]
    refine m.decode_take_wire ?_
    rw [← length_wire]
    exact lt_of_le_of_ne hb.length_le fun e => hne (hb.eq_of_length e)

end DecodedMessage

end Mdfh
