import Rendezvous.Limits
import Rendezvous.Pid

/-! Messages: values of a fixed size that the kernel moves from one process to another. -/

namespace Rendezvous

/-- The tag that tells messages of one kind from those of another. -/
structure MessageType where
  val : UInt16
deriving DecidableEq, Ord

namespace MessageType

/-- As a filter, accepts messages of every type. -/
def any : MessageType := ⟨65535⟩

/-- Tells a handler of its interrupt. -/
def interrupt : MessageType := ⟨1⟩

/-- Answers a request. -/
def reply : MessageType := ⟨2⟩

/-- Tells a receiver that its deadline has passed. -/
def timeout : MessageType := ⟨3⟩

/-- The first type free for drivers and applications. -/
def firstUser : MessageType := ⟨16⟩

/-- Whether a receiver with this filter takes a message of type `ty`. -/
def accepts (filter ty : MessageType) : Bool :=
  filter = any || filter = ty

/-- Whether the type is kept for the kernel's own use. -/
def isReserved (ty : MessageType) : Bool :=
  ty.val < firstUser.val || ty = any

end MessageType

/-- What one payload slot holds. -/
inductive Payload where
  | int (value : Int32)
  | handle (value : Word)
  | bytes (value : Vector UInt8 4)
deriving DecidableEq

/-- A message: its type, who sent it, and three payload slots. -/
structure Message where
  ty : MessageType
  sender : Pid
  payload : Vector Payload Limits.payloadSlots
deriving DecidableEq

namespace Payload

/-- What a slot holds that nothing was put into. -/
def empty : Payload := .int 0

/-- The payload with its kind, as a request is printed. -/
def text : Payload → String
  | .int v => s!"Int({v.toInt})"
  | .handle v => s!"Handle({v.toNat})"
  | .bytes b => "Bytes([" ++ String.intercalate ", " (b.toList.map fun x => toString x.toNat) ++ "])"

end Payload

namespace Message

/-- A message with an empty payload, from the hardware until it is delivered for a process. -/
def new (ty : MessageType) : Message :=
  ⟨ty, .hardware, Vector.replicate _ .empty⟩

/-- A message with an integer in its first slot. -/
def withInt (ty : MessageType) (value : Int32) : Message :=
  { new ty with payload := (new ty).payload.set 0 (.int value) }

/-- The message with a slot filled; there is none if the message has no such slot. -/
def set? (m : Message) (slot : Nat) (value : Payload) : Option Message :=
  if h : slot < Limits.payloadSlots then some { m with payload := m.payload.set slot value h }
  else none

/-- The integer in a slot, if there is one. -/
def int? (m : Message) (slot : Nat) : Option Int32 :=
  match m.payload[slot]? with
  | some (.int v) => some v
  | _ => none

/-- The handle in a slot, if there is one. -/
def handle? (m : Message) (slot : Nat) : Option Word :=
  match m.payload[slot]? with
  | some (.handle v) => some v
  | _ => none

/-- The bytes in a slot, if there are any. -/
def bytes? (m : Message) (slot : Nat) : Option (Vector UInt8 4) :=
  match m.payload[slot]? with
  | some (.bytes v) => some v
  | _ => none

/-- Whether the kernel made the message. -/
def fromHardware (m : Message) : Bool :=
  m.sender = .hardware

/-- The message with all its fields, as a request is printed. -/
def text (m : Message) : String :=
  "Message \x7b ty: MessageType(" ++ toString m.ty.val.toNat ++ "), sender: Pid(" ++
    toString m.sender.index ++ "), payload: [" ++
    String.intercalate ", " (m.payload.toList.map Payload.text) ++ "] \x7d"

end Message

end Rendezvous
