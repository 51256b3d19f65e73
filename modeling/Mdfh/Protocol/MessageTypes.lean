import Mathlib.Tactic.Linarith

/-!
# Wire message types (`protocol/message_types.hpp`)

The four feed messages with the fixed-width field types of the source. `Side` is an enum class over
`uint8_t` that the decoder fills by an unchecked cast, so all 256 values are representable and the
book code only ever compares it with `Side::Buy`.
-/

namespace Mdfh

abbrev SeqNum := UInt64
abbrev OrderId := UInt64
/-- Ticks; the scale is defined by the feed generator. -/
abbrev Price := Int64
abbrev Quantity := UInt32
abbrev Timestamp := UInt64

/-- `kSymbolLen`. -/
def kSymbolLen : Nat := 8

/-- A zero-padded array of `kSymbolLen` chars. -/
abbrev Symbol := Vector UInt8 8

inductive MessageType where
  | addOrder | cancelOrder | executeOrder | replaceOrder
deriving DecidableEq, Repr

/-- The underlying `uint8_t` of an enumerator. -/
def MessageType.toByte : MessageType → UInt8
  | .addOrder => 1
  | .cancelOrder => 2
  | .executeOrder => 3
  | .replaceOrder => 4

/-- `static_cast<MessageType>(raw)`, where the byte names an enumerator. -/
def MessageType.ofByte? (raw : UInt8) : Option MessageType :=
  if raw = 1 then some .addOrder
  else if raw = 2 then some .cancelOrder
  else if raw = 3 then some .executeOrder
  else if raw = 4 then some .replaceOrder
  else none

@[simp] theorem MessageType.ofByte?_toByte (t : MessageType) : ofByte? t.toByte = some t := by
  cases t <;> rfl

/-- `enum class Side : uint8_t`, with its full underlying value. -/
structure Side where
  raw : UInt8
deriving DecidableEq, Repr

namespace Side

def buy : Side := ⟨0⟩
def sell : Side := ⟨1⟩

/-- The enumerators of the source. -/
def Defined (s : Side) : Prop := s = buy ∨ s = sell

instance (s : Side) : Decidable s.Defined := inferInstanceAs (Decidable (s = buy ∨ s = sell))

end Side

/-- FNV-1a over the raw bytes of the symbol (`hash_symbol`). -/
def hashSymbol (symbol : Symbol) : UInt64 :=
  symbol.toList.foldl (fun hash c => (hash ^^^ c.toUInt64) * 1099511628211) 1469598103934665603

/-- `[type: u8][length: u16]`. -/
def kHeaderSize : Nat := 3

structure AddOrder where
  seqNum : SeqNum
  orderId : OrderId
  symbol : Symbol
  side : Side
  price : Price
  quantity : Quantity
  timestamp : Timestamp
deriving DecidableEq, Repr

structure CancelOrder where
  seqNum : SeqNum
  orderId : OrderId
  timestamp : Timestamp
deriving DecidableEq, Repr

structure ExecuteOrder where
  seqNum : SeqNum
  orderId : OrderId
  executedQuantity : Quantity
  timestamp : Timestamp
deriving DecidableEq, Repr

structure ReplaceOrder where
  seqNum : SeqNum
  oldOrderId : OrderId
  newOrderId : OrderId
  price : Price
  quantity : Quantity
  timestamp : Timestamp
deriving DecidableEq, Repr

def AddOrder.kPayloadSize : Nat := 8 + 8 + kSymbolLen + 1 + 8 + 4 + 8
def AddOrder.kWireSize : Nat := kHeaderSize + AddOrder.kPayloadSize
def CancelOrder.kPayloadSize : Nat := 8 + 8 + 8
def CancelOrder.kWireSize : Nat := kHeaderSize + CancelOrder.kPayloadSize
def ExecuteOrder.kPayloadSize : Nat := 8 + 8 + 4 + 8
def ExecuteOrder.kWireSize : Nat := kHeaderSize + ExecuteOrder.kPayloadSize
def ReplaceOrder.kPayloadSize : Nat := 8 + 8 + 8 + 8 + 4 + 8
def ReplaceOrder.kWireSize : Nat := kHeaderSize + ReplaceOrder.kPayloadSize

/-- `std::variant<AddOrder, CancelOrder, ExecuteOrder, ReplaceOrder>`. -/
inductive DecodedMessage where
  | add (m : AddOrder)
  | cancel (m : CancelOrder)
  | execute (m : ExecuteOrder)
  | replace (m : ReplaceOrder)
deriving DecidableEq, Repr

namespace DecodedMessage

/-- `std::visit([](auto&& m) { return m.seq_num; }, message)`. -/
def seqNum : DecodedMessage → SeqNum
  | add m => m.seqNum
  | cancel m => m.seqNum
  | execute m => m.seqNum
  | replace m => m.seqNum

def timestamp : DecodedMessage → Timestamp
  | add m => m.timestamp
  | cancel m => m.timestamp
  | execute m => m.timestamp
  | replace m => m.timestamp

end DecodedMessage

end Mdfh
