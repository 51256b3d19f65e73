import Mdfh.Protocol.Encoder

/-!
# Decoder (`protocol/decoder.cpp`)

`decode` checks the header (three bytes, a known type, the declared length equal to the type's
`kWireSize`, enough bytes) and then reads the payload field by field; no field value is rejected.
`decode_wire` is the round trip with `encode`, whatever follows the message in the buffer.
-/

namespace Mdfh
open LittleEndian

inductive DecodeError where
  | truncatedMessage
  | invalidMessageType
  | lengthMismatch
deriving DecidableEq, Repr

def wireSizeFor (rawType : UInt8) : Except DecodeError Nat :=
  match MessageType.ofByte? rawType with
  | some .addOrder => .ok AddOrder.kWireSize
  | some .cancelOrder => .ok CancelOrder.kWireSize
  | some .executeOrder => .ok ExecuteOrder.kWireSize
  | some .replaceOrder => .ok ReplaceOrder.kWireSize
  | none => .error .invalidMessageType

/-- `for (char& c : symbol) { c = get_u8(p); p += 1; }`. -/
def getSymbol (b : Bytes) (p : Nat) : Symbol := Vector.ofFn fun i : Fin 8 => getU8 b (p + i.val)

def decodeAddOrder (b : Bytes) (p : Nat) : AddOrder :=
  let seqNum := getU64 b p
  let p := p + 8
  let orderId := getU64 b p
  let p := p + 8
  let symbol := getSymbol b p
  let p := p + kSymbolLen
  let side : Side := ⟨getU8 b p⟩
  let p := p + 1
  let price := getI64 b p
  let p := p + 8
  let quantity := getU32 b p
  let p := p + 4
  let timestamp := getU64 b p
  { seqNum, orderId, symbol, side, price, quantity, timestamp }

def decodeCancelOrder (b : Bytes) (p : Nat) : CancelOrder :=
  let seqNum := getU64 b p
  let p := p + 8
  let orderId := getU64 b p
  let p := p + 8
  let timestamp := getU64 b p
  { seqNum, orderId, timestamp }

def decodeExecuteOrder (b : Bytes) (p : Nat) : ExecuteOrder :=
  let seqNum := getU64 b p
  let p := p + 8
  let orderId := getU64 b p
  let p := p + 8
  let executedQuantity := getU32 b p
  let p := p + 4
  let timestamp := getU64 b p
  { seqNum, orderId, executedQuantity, timestamp }

def decodeReplaceOrder (b : Bytes) (p : Nat) : ReplaceOrder :=
  let seqNum := getU64 b p
  let p := p + 8
  let oldOrderId := getU64 b p
  let p := p + 8
  let newOrderId := getU64 b p
  let p := p + 8
  let price := getI64 b p
  let p := p + 8
  let quantity := getU32 b p
  let p := p + 4
  let timestamp := getU64 b p
  { seqNum, oldOrderId, newOrderId, price, quantity, timestamp }

def decode (inp : Bytes) : Except DecodeError DecodedMessage :=
  if inp.length < kHeaderSize then .error .truncatedMessage
  else
    let rawType := getU8 inp 0
    let length := getU16 inp 1
    match wireSizeFor rawType with
    | .error e => .error e
    | .ok expectedSize =>
      if length.toNat ≠ expectedSize then .error .lengthMismatch
      else if inp.length < length.toNat then .error .truncatedMessage
      else
        let payload := kHeaderSize
        match MessageType.ofByte? rawType with
        | some .addOrder => .ok (.add (decodeAddOrder inp payload))
        | some .cancelOrder => .ok (.cancel (decodeCancelOrder inp payload))
        | some .executeOrder => .ok (.execute (decodeExecuteOrder inp payload))
        | some .replaceOrder => .ok (.replace (decodeReplaceOrder inp payload))
        -- `std::unreachable()`: `wireSizeFor` has already rejected every other byte
        | none => .error .invalidMessageType

/-! ### Reading one field -/

section Fields
variable {b rest : Bytes} {p : Nat}

theorem getU8_of_drop {v : UInt8} (h : b.drop p = [v] ++ rest) : getU8 b p = v := by
  have : b[p]? = some v := by rw [← Nat.add_zero p, ← List.getElem?_drop, h]; rfl
  simp [getU8, List.getD_eq_getElem?_getD, this]

theorem getU16_of_drop {n : Nat} (hn : n < 2 ^ 16) (h : b.drop p = leBytes 2 n ++ rest) :
    (getU16 b p).toNat = n := by
  simp only [getU16, getLe_of_drop 2 n b rest p h, UInt16.toNat_ofNat']
  omega

theorem getU32_of_drop {v : UInt32} (h : b.drop p = leBytes 4 v.toNat ++ rest) : getU32 b p = v := by
  rw [getU32, getLe_of_drop 4 _ b rest p h, Nat.mod_eq_of_lt v.toNat_lt, UInt32.ofNat_toNat]

theorem getU64_of_drop {v : UInt64} (h : b.drop p = leBytes 8 v.toNat ++ rest) : getU64 b p = v := by
  rw [getU64, getLe_of_drop 8 _ b rest p h, Nat.mod_eq_of_lt v.toNat_lt, UInt64.ofNat_toNat]

theorem getI64_of_drop {v : Int64} (h : b.drop p = leBytes 8 v.toUInt64.toNat ++ rest) : getI64 b p = v := by
  rw [getI64, getU64_of_drop h]; rfl

theorem getSymbol_of_drop {s : Symbol} (h : b.drop p = s.toList ++ rest) : getSymbol b p = s := by
  ext i hi
  have hs : b[p + i]? = some s[i] := by
    rw [← List.getElem?_drop, h, List.getElem?_append_left (by simpa using hi)]
    simp [hi]
  simp [getSymbol, getU8, List.getD_eq_getElem?_getD, hs]

theorem drop_list {s : Bytes} {k : Nat} (hk : s.length = k) (h : b.drop p = s ++ rest) :
    b.drop (p + k) = rest := by
  rw [← List.drop_drop, h, ← hk]
  simp

end Fields

/-! ### Round trip -/

namespace DecodedMessage

theorem length_payload (m : DecodedMessage) : kHeaderSize + m.payload.length = m.type.wireSize := by
  cases m <;> simp [payload, type, MessageType.wireSize, length_leBytes, AddOrder.kWireSize, AddOrder.kPayloadSize,
    CancelOrder.kWireSize, CancelOrder.kPayloadSize, ExecuteOrder.kWireSize, ExecuteOrder.kPayloadSize,
    ReplaceOrder.kWireSize, ReplaceOrder.kPayloadSize, kHeaderSize, kSymbolLen]

theorem length_wire (m : DecodedMessage) : m.wire.length = m.type.wireSize := by
  rw [← length_payload]
  simp [wire, length_leBytes, kHeaderSize]
  omega

theorem wireSizeFor_toByte (t : MessageType) : wireSizeFor t.toByte = .ok t.wireSize := by
  cases t <;> rfl

theorem decode_payload (m : DecodedMessage) (b rest : Bytes) (h : b.drop kHeaderSize = m.payload ++ rest) :
    (match m.type with
      | .addOrder => add (decodeAddOrder b kHeaderSize)
      | .cancelOrder => cancel (decodeCancelOrder b kHeaderSize)
      | .executeOrder => execute (decodeExecuteOrder b kHeaderSize)
      | .replaceOrder => replace (decodeReplaceOrder b kHeaderSize)) = m := by
  cases m with
  | add m =>
    simp only [payload, List.append_assoc] at h
    have h1 := drop_of_drop 8 _ _ _ _ h
    have h2 := drop_of_drop 8 _ _ _ _ h1
    have h3 := drop_list (k := 8) (by simp) h2
    have h4 := drop_list (k := 1) rfl h3
    have h5 := drop_of_drop 8 _ _ _ _ h4
    have h6 := drop_of_drop 4 _ _ _ _ h5
    simp only [type, decodeAddOrder, kSymbolLen, getU64_of_drop h, getU64_of_drop h1, getSymbol_of_drop h2,
      getU8_of_drop h3, getI64_of_drop h4, getU32_of_drop h5, getU64_of_drop h6]
  | cancel m =>
    simp only [payload, List.append_assoc] at h
    have h1 := drop_of_drop 8 _ _ _ _ h
    have h2 := drop_of_drop 8 _ _ _ _ h1
    simp only [type, decodeCancelOrder, getU64_of_drop h, getU64_of_drop h1, getU64_of_drop h2]
  | execute m =>
    simp only [payload, List.append_assoc] at h
    have h1 := drop_of_drop 8 _ _ _ _ h
    have h2 := drop_of_drop 8 _ _ _ _ h1
    have h3 := drop_of_drop 4 _ _ _ _ h2
    simp only [type, decodeExecuteOrder, getU64_of_drop h, getU64_of_drop h1, getU32_of_drop h2, getU64_of_drop h3]
  | replace m =>
    simp only [payload, List.append_assoc] at h
    have h1 := drop_of_drop 8 _ _ _ _ h
    have h2 := drop_of_drop 8 _ _ _ _ h1
    have h3 := drop_of_drop 8 _ _ _ _ h2
    have h4 := drop_of_drop 8 _ _ _ _ h3
    have h5 := drop_of_drop 4 _ _ _ _ h4
    simp only [type, decodeReplaceOrder, getU64_of_drop h, getU64_of_drop h1, getU64_of_drop h2, getI64_of_drop h3,
      getU32_of_drop h4, getU64_of_drop h5]

/-- Decoding an encoded message returns it, whatever follows in the buffer. -/
theorem decode_wire (m : DecodedMessage) (rest : Bytes) : decode (m.wire ++ rest) = .ok m := by
  set b := m.wire ++ rest with hb
  have hlen : m.type.wireSize ≤ b.length := by rw [hb, List.length_append, length_wire]; omega
  have h0 : b.drop 0 = [m.type.toByte] ++ (leBytes 2 m.type.wireSize ++ (m.payload ++ rest)) := by
    simp [hb, wire]
  have htype : getU8 b 0 = m.type.toByte := getU8_of_drop h0
  have h1 : b.drop 1 = leBytes 2 m.type.wireSize ++ (m.payload ++ rest) := drop_list (k := 1) rfl h0
  have hlength : (getU16 b 1).toNat = m.type.wireSize :=
    getU16_of_drop (by cases m.type <;> decide) h1
  have h3 : b.drop kHeaderSize = m.payload ++ rest := drop_of_drop 2 _ _ _ _ h1
  have hhead : ¬ b.length < kHeaderSize := by
    have := m.length_payload
    omega
  have hpay := m.decode_payload b rest h3
  simp only [decode, hhead, ↓reduceIte, htype, wireSizeFor_toByte, hlength, ne_eq, not_true_eq_false,
    Nat.not_lt.2 hlen, MessageType.ofByte?_toByte]
  cases m <;> exact congrArg _ hpay

theorem decode_packet (m : DecodedMessage) : decode m.packet = .ok m := by
  have := m.decode_wire []
  rwa [List.append_nil, ← packet_eq] at this

end DecodedMessage

end Mdfh
