import Mdfh.Protocol.MessageTypes
import Mdfh.Lib.LittleEndian

/-!
# Encoder (`protocol/byte_order.hpp`, `protocol/encoder.cpp`)

`encode` packs a message into a caller's buffer as `[type][length][payload]`, field by field with an
advancing pointer. `encode_eq` is its closed form: the first `kWireSize` bytes become `wire m` and
the rest of the buffer stays.
-/

namespace Mdfh
open LittleEndian

/-! ### `protocol/byte_order.hpp` -/

def putU8 (p : Nat) (v : UInt8) (b : Bytes) : Bytes := b.set p v
def putU16 (p : Nat) (v : UInt16) (b : Bytes) : Bytes := putLe 2 p v.toNat b
def putU32 (p : Nat) (v : UInt32) (b : Bytes) : Bytes := putLe 4 p v.toNat b
def putU64 (p : Nat) (v : UInt64) (b : Bytes) : Bytes := putLe 8 p v.toNat b
def putI64 (p : Nat) (v : Int64) (b : Bytes) : Bytes := putU64 p v.toUInt64 b

def getU8 (b : Bytes) (p : Nat) : UInt8 := b.getD p 0
def getU16 (b : Bytes) (p : Nat) : UInt16 := UInt16.ofNat (getLe 2 b p)
def getU32 (b : Bytes) (p : Nat) : UInt32 := UInt32.ofNat (getLe 4 b p)
def getU64 (b : Bytes) (p : Nat) : UInt64 := UInt64.ofNat (getLe 8 b p)
def getI64 (b : Bytes) (p : Nat) : Int64 := (getU64 b p).toInt64

/-! ### `protocol/encoder.cpp` -/

inductive EncodeError where
  | bufferTooSmall
deriving DecidableEq, Repr

/-- Writes the header at the start of the buffer; the payload starts at `kHeaderSize`. -/
def putHeader (type : MessageType) (length : UInt16) (b : Bytes) : Bytes :=
  putU16 1 length (putU8 0 type.toByte b)

/-- `for (char c : symbol) { put_u8(p, c); p += 1; }`. -/
def putSymbol (p : Nat) (symbol : Symbol) (b : Bytes) : Bytes :=
  (symbol.toList.foldl (fun (pb : Nat × Bytes) c => (pb.1 + 1, putU8 pb.1 c pb.2)) (p, b)).2

def AddOrder.encode (msg : AddOrder) (out : Bytes) : Except EncodeError Nat × Bytes :=
  if out.length < AddOrder.kWireSize then (.error .bufferTooSmall, out)
  else
    let out := putHeader .addOrder (UInt16.ofNat AddOrder.kWireSize) out
    let p := kHeaderSize
    let out := putU64 p msg.seqNum out
    let p := p + 8
    let out := putU64 p msg.orderId out
    let p := p + 8
    let out := putSymbol p msg.symbol out
    let p := p + kSymbolLen
    let out := putU8 p msg.side.raw out
    let p := p + 1
    let out := putI64 p msg.price out
    let p := p + 8
    let out := putU32 p msg.quantity out
    let p := p + 4
    let out := putU64 p msg.timestamp out
    (.ok AddOrder.kWireSize, out)

def CancelOrder.encode (msg : CancelOrder) (out : Bytes) : Except EncodeError Nat × Bytes :=
  if out.length < CancelOrder.kWireSize then (.error .bufferTooSmall, out)
  else
    let out := putHeader .cancelOrder (UInt16.ofNat CancelOrder.kWireSize) out
    let p := kHeaderSize
    let out := putU64 p msg.seqNum out
    let p := p + 8
    let out := putU64 p msg.orderId out
    let p := p + 8
    let out := putU64 p msg.timestamp out
    (.ok CancelOrder.kWireSize, out)

def ExecuteOrder.encode (msg : ExecuteOrder) (out : Bytes) : Except EncodeError Nat × Bytes :=
  if out.length < ExecuteOrder.kWireSize then (.error .bufferTooSmall, out)
  else
    let out := putHeader .executeOrder (UInt16.ofNat ExecuteOrder.kWireSize) out
    let p := kHeaderSize
    let out := putU64 p msg.seqNum out
    let p := p + 8
    let out := putU64 p msg.orderId out
    let p := p + 8
    let out := putU32 p msg.executedQuantity out
    let p := p + 4
    let out := putU64 p msg.timestamp out
    (.ok ExecuteOrder.kWireSize, out)

def ReplaceOrder.encode (msg : ReplaceOrder) (out : Bytes) : Except EncodeError Nat × Bytes :=
  if out.length < ReplaceOrder.kWireSize then (.error .bufferTooSmall, out)
  else
    let out := putHeader .replaceOrder (UInt16.ofNat ReplaceOrder.kWireSize) out
    let p := kHeaderSize
    let out := putU64 p msg.seqNum out
    let p := p + 8
    let out := putU64 p msg.oldOrderId out
    let p := p + 8
    let out := putU64 p msg.newOrderId out
    let p := p + 8
    let out := putI64 p msg.price out
    let p := p + 8
    let out := putU32 p msg.quantity out
    let p := p + 4
    let out := putU64 p msg.timestamp out
    (.ok ReplaceOrder.kWireSize, out)

namespace DecodedMessage

def type : DecodedMessage → MessageType
  | add _ => .addOrder
  | cancel _ => .cancelOrder
  | execute _ => .executeOrder
  | replace _ => .replaceOrder

/-- The overload set `encode(msg, out)`. -/
def encode : DecodedMessage → Bytes → Except EncodeError Nat × Bytes
  | add m => m.encode
  | cancel m => m.encode
  | execute m => m.encode
  | replace m => m.encode

end DecodedMessage

/-- `kWireSize` of the message class with enumerator `kType`. -/
def MessageType.wireSize : MessageType → Nat
  | .addOrder => AddOrder.kWireSize
  | .cancelOrder => CancelOrder.kWireSize
  | .executeOrder => ExecuteOrder.kWireSize
  | .replaceOrder => ReplaceOrder.kWireSize

namespace DecodedMessage

/-- `std::vector<std::byte> buf(kWireSize); (void)encode(msg, buf);`: a packet as the feed sends it. -/
def packet (m : DecodedMessage) : Bytes := (m.encode (List.replicate m.type.wireSize 0)).2

/-! ### Closed form of `encode` -/

/-- The payload bytes, field by field. -/
def payload : DecodedMessage → Bytes
  | add m => leBytes 8 m.seqNum.toNat ++ leBytes 8 m.orderId.toNat ++ m.symbol.toList ++ [m.side.raw] ++
      leBytes 8 m.price.toUInt64.toNat ++ leBytes 4 m.quantity.toNat ++ leBytes 8 m.timestamp.toNat
  | cancel m => leBytes 8 m.seqNum.toNat ++ leBytes 8 m.orderId.toNat ++ leBytes 8 m.timestamp.toNat
  | execute m => leBytes 8 m.seqNum.toNat ++ leBytes 8 m.orderId.toNat ++ leBytes 4 m.executedQuantity.toNat ++
      leBytes 8 m.timestamp.toNat
  | replace m => leBytes 8 m.seqNum.toNat ++ leBytes 8 m.oldOrderId.toNat ++ leBytes 8 m.newOrderId.toNat ++
      leBytes 8 m.price.toUInt64.toNat ++ leBytes 4 m.quantity.toNat ++ leBytes 8 m.timestamp.toNat

def wire (m : DecodedMessage) : Bytes :=
  [m.type.toByte] ++ leBytes 2 m.type.wireSize ++ m.payload

end DecodedMessage

theorem putU8_append (v : UInt8) (pre rest : Bytes) (p : Nat) (hp : pre.length = p) (h : 1 ≤ rest.length) :
    putU8 p v (pre ++ rest) = (pre ++ [v]) ++ rest.drop 1 := by
  subst hp
  cases rest with
  | nil => simp at h
  | cons x rest => simp [putU8]

theorem putU16_append (v : UInt16) (pre rest : Bytes) (p : Nat) (hp : pre.length = p) (h : 2 ≤ rest.length) :
    putU16 p v (pre ++ rest) = (pre ++ leBytes 2 v.toNat) ++ rest.drop 2 := by
  subst hp; exact putLe_append 2 _ pre rest h

theorem putU32_append (v : UInt32) (pre rest : Bytes) (p : Nat) (hp : pre.length = p) (h : 4 ≤ rest.length) :
    putU32 p v (pre ++ rest) = (pre ++ leBytes 4 v.toNat) ++ rest.drop 4 := by
  subst hp; exact putLe_append 4 _ pre rest h

theorem putU64_append (v : UInt64) (pre rest : Bytes) (p : Nat) (hp : pre.length = p) (h : 8 ≤ rest.length) :
    putU64 p v (pre ++ rest) = (pre ++ leBytes 8 v.toNat) ++ rest.drop 8 := by
  subst hp; exact putLe_append 8 _ pre rest h

theorem putI64_append (v : Int64) (pre rest : Bytes) (p : Nat) (hp : pre.length = p) (h : 8 ≤ rest.length) :
    putI64 p v (pre ++ rest) = (pre ++ leBytes 8 v.toUInt64.toNat) ++ rest.drop 8 :=
  putU64_append v.toUInt64 pre rest p hp h

theorem foldl_putU8_append (cs pre rest : Bytes) (p : Nat) (hp : pre.length = p) (h : cs.length ≤ rest.length) :
    (cs.foldl (fun (pb : Nat × Bytes) c => (pb.1 + 1, putU8 pb.1 c pb.2)) (p, pre ++ rest)).2 =
      (pre ++ cs) ++ rest.drop cs.length := by
  induction cs generalizing pre rest p with
  | nil => simp
  | cons c cs ih =>
    simp only [List.length_cons] at h
    rw [List.foldl_cons, putU8_append c pre rest p hp (by omega),
      ih (pre ++ [c]) (rest.drop 1) (p + 1) (by simp [hp]) (by simp; omega)]
    simp

theorem putSymbol_append (s : Symbol) (pre rest : Bytes) (p : Nat) (hp : pre.length = p) (h : 8 ≤ rest.length) :
    putSymbol p s (pre ++ rest) = (pre ++ s.toList) ++ rest.drop 8 := by
  have hs : s.toList.length = 8 := by simp
  have := foldl_putU8_append s.toList pre rest p hp (by omega)
  rwa [hs] at this

theorem putHeader_append (t : MessageType) (n : Nat) (hn : n < 2 ^ 16) (out : Bytes) (h : 3 ≤ out.length) :
    putHeader t (UInt16.ofNat n) out = ([t.toByte] ++ leBytes 2 n) ++ out.drop 3 := by
  have h8 := putU8_append t.toByte [] out 0 rfl (by omega)
  rw [List.nil_append, List.nil_append] at h8
  rw [putHeader, h8, putU16_append _ [t.toByte] (out.drop 1) 1 rfl (by simp; omega)]
  have hmod : n % 65536 = n := Nat.mod_eq_of_lt hn
  simp [hmod]

namespace DecodedMessage

/-- `encode` on a large enough buffer: the first `kWireSize` bytes are replaced by `wire m`. -/
theorem encode_eq (m : DecodedMessage) (out : Bytes) (h : m.type.wireSize ≤ out.length) :
    m.encode out = (.ok m.type.wireSize, m.wire ++ out.drop m.type.wireSize) := by
  cases m with
  | add m =>
    have hlen : 48 ≤ out.length := h
    have hns : ¬ out.length < AddOrder.kWireSize := Nat.not_lt.2 hlen
    simp only [encode, AddOrder.encode, hns, ↓reduceIte, type, MessageType.wireSize, Prod.mk.injEq, true_and]
    rw [putHeader_append _ _ (by decide) _ (by omega)]
    rw [putU64_append _ _ _ _ (by simp [length_leBytes, kHeaderSize]) (by simp; omega)]
    rw [putU64_append _ _ _ _ (by simp [length_leBytes, kHeaderSize]) (by simp; omega)]
    rw [putSymbol_append _ _ _ _ (by simp [length_leBytes, kHeaderSize]) (by simp; omega)]
    rw [putU8_append _ _ _ _ (by simp [length_leBytes, kHeaderSize, kSymbolLen]) (by simp; omega)]
    rw [putI64_append _ _ _ _ (by simp [length_leBytes, kHeaderSize, kSymbolLen]) (by simp; omega)]
    rw [putU32_append _ _ _ _ (by simp [length_leBytes, kHeaderSize, kSymbolLen]) (by simp; omega)]
    rw [putU64_append _ _ _ _ (by simp [length_leBytes, kHeaderSize, kSymbolLen]) (by simp; omega)]
    simp [wire, payload, type, MessageType.wireSize, List.drop_drop, AddOrder.kWireSize, AddOrder.kPayloadSize,
      kHeaderSize, kSymbolLen]
  | cancel m =>
    have hlen : 27 ≤ out.length := h
    have hns : ¬ out.length < CancelOrder.kWireSize := Nat.not_lt.2 hlen
    simp only [encode, CancelOrder.encode, hns, ↓reduceIte, type, MessageType.wireSize, Prod.mk.injEq, true_and]
    rw [putHeader_append _ _ (by decide) _ (by omega)]
    rw [putU64_append _ _ _ _ (by simp [length_leBytes, kHeaderSize]) (by simp; omega)]
    rw [putU64_append _ _ _ _ (by simp [length_leBytes, kHeaderSize]) (by simp; omega)]
    rw [putU64_append _ _ _ _ (by simp [length_leBytes, kHeaderSize]) (by simp; omega)]
    simp [wire, payload, type, MessageType.wireSize, List.drop_drop, CancelOrder.kWireSize,
      CancelOrder.kPayloadSize, kHeaderSize]
  | execute m =>
    have hlen : 31 ≤ out.length := h
    have hns : ¬ out.length < ExecuteOrder.kWireSize := Nat.not_lt.2 hlen
    simp only [encode, ExecuteOrder.encode, hns, ↓reduceIte, type, MessageType.wireSize, Prod.mk.injEq, true_and]
    rw [putHeader_append _ _ (by decide) _ (by omega)]
    rw [putU64_append _ _ _ _ (by simp [length_leBytes, kHeaderSize]) (by simp; omega)]
    rw [putU64_append _ _ _ _ (by simp [length_leBytes, kHeaderSize]) (by simp; omega)]
    rw [putU32_append _ _ _ _ (by simp [length_leBytes, kHeaderSize]) (by simp; omega)]
    rw [putU64_append _ _ _ _ (by simp [length_leBytes, kHeaderSize]) (by simp; omega)]
    simp [wire, payload, type, MessageType.wireSize, List.drop_drop, ExecuteOrder.kWireSize,
      ExecuteOrder.kPayloadSize, kHeaderSize]
  | replace m =>
    have hlen : 47 ≤ out.length := h
    have hns : ¬ out.length < ReplaceOrder.kWireSize := Nat.not_lt.2 hlen
    simp only [encode, ReplaceOrder.encode, hns, ↓reduceIte, type, MessageType.wireSize, Prod.mk.injEq, true_and]
    rw [putHeader_append _ _ (by decide) _ (by omega)]
    rw [putU64_append _ _ _ _ (by simp [length_leBytes, kHeaderSize]) (by simp; omega)]
    rw [putU64_append _ _ _ _ (by simp [length_leBytes, kHeaderSize]) (by simp; omega)]
    rw [putU64_append _ _ _ _ (by simp [length_leBytes, kHeaderSize]) (by simp; omega)]
    rw [putI64_append _ _ _ _ (by simp [length_leBytes, kHeaderSize]) (by simp; omega)]
    rw [putU32_append _ _ _ _ (by simp [length_leBytes, kHeaderSize]) (by simp; omega)]
    rw [putU64_append _ _ _ _ (by simp [length_leBytes, kHeaderSize]) (by simp; omega)]
    simp [wire, payload, type, MessageType.wireSize, List.drop_drop, ReplaceOrder.kWireSize,
      ReplaceOrder.kPayloadSize, kHeaderSize]

theorem packet_eq (m : DecodedMessage) : m.packet = m.wire := by
  rw [packet, encode_eq m _ (by simp)]
  simp

end DecodedMessage

end Mdfh
