import Rendezvous.Fault

/-! Requests to the kernel, and the trap frames that carry them: an operation code, three registers
    and, for the sending operations, a message. -/

namespace Rendezvous

/-- What a process can ask of the kernel. -/
inductive Request where
  /-- Let any ready process of the same or a higher priority run. -/
  | yield
  | send (dest : Int32) (msg : Message)
  /-- Wait for a message, forever without a timeout and not at all with a timeout of zero. -/
  | receive (filter : MessageType) (timeout : Option UInt32)
  | sendRec (dest : Int32) (msg : Message)
  | exit
  | dump
  | tick (ms : UInt32)
deriving DecidableEq

/-- A trap as the kernel gets it: operation code, saved registers and a copy of the caller's message. -/
structure TrapFrame where
  op : UInt8
  r0 : Int32 := 0
  r1 : Int32 := 0
  r2 : Int32 := 0
  message : Option Message := none
deriving DecidableEq

/-- The operations that have a code. -/
inductive Operation where
  | yield
  | send
  | receive
  | sendRec
  | exit
  | dump
  | tick
deriving DecidableEq

namespace Operation

/-- The code of an operation in a trap frame. -/
def code : Operation → UInt8
  | .yield => 0
  | .send => 1
  | .receive => 2
  | .sendRec => 3
  | .exit => 4
  | .dump => 5
  | .tick => 6

/-- All operations, in the order of their codes. -/
def all : List Operation := [.yield, .send, .receive, .sendRec, .exit, .dump, .tick]

/-- The operation of a code, if it is one. -/
def ofCode? (code : UInt8) : Option Operation :=
  all.find? (·.code = code)

end Operation

/-- A non-negative register as a count. -/
def countOf? (r : Int32) : Option UInt32 :=
  r.toInt.toNat?.map UInt32.ofNat

/-- A count as a register holds it; counts too large for one become the largest. -/
def registerOf (n : UInt32) : Int32 :=
  Int32.ofNat (min n.toNat 2147483647)

namespace MessageType

/-- The filter in a register: -1 accepts every type, other values have to be in the range of types. -/
def ofRegister? (r : Int32) : Option MessageType :=
  if r = -1 then some any
  else r.toInt.toNat?.bind fun n => if n < 65536 then some ⟨UInt16.ofNat n⟩ else none

/-- A filter as a register holds it. -/
def toRegister (ty : MessageType) : Int32 :=
  if ty = any then -1 else Int32.ofNat ty.val.toNat

end MessageType

namespace TrapFrame

/-- The request that a frame carries; a frame that carries none is a fault. -/
def decode (f : TrapFrame) : Except Fault Request :=
  match Operation.ofCode? f.op with
  | none => .error (.unknownSyscall f.op)
  | some .yield => .ok .yield
  | some .send =>
    match f.message with
    | some m => .ok (.send f.r0 m)
    | none => .error (.missingMessage f.op)
  | some .receive =>
    match MessageType.ofRegister? f.r0 with
    | some filter => .ok (.receive filter (countOf? f.r2))
    | none => .error (.badArgument f.op f.r0)
  | some .sendRec =>
    match f.message with
    | some m => .ok (.sendRec f.r0 m)
    | none => .error (.missingMessage f.op)
  | some .exit => .ok .exit
  | some .dump => .ok .dump
  | some .tick =>
    match countOf? f.r0 with
    | some ms => .ok (.tick ms)
    | none => .error (.badArgument f.op f.r0)

end TrapFrame

namespace Request

/-- The frame that carries a request. -/
def encode : Request → TrapFrame
  | .yield => { op := Operation.yield.code }
  | .send dest msg => { op := Operation.send.code, r0 := dest, message := some msg }
  | .receive filter timeout =>
    { op := Operation.receive.code, r0 := filter.toRegister, r2 := timeout.elim (-1) registerOf }
  | .sendRec dest msg => { op := Operation.sendRec.code, r0 := dest, message := some msg }
  | .exit => { op := Operation.exit.code }
  | .dump => { op := Operation.dump.code }
  | .tick ms => { op := Operation.tick.code, r0 := registerOf ms }

/-- The request in full: its name, and its fields by name, in braces. -/
def text : Request → String
  | .yield => "Yield"
  | .send dest msg => "Send \x7b dest: " ++ toString dest.toInt ++ ", msg: " ++ msg.text ++ " \x7d"
  | .receive filter timeout =>
    "Receive \x7b filter: MessageType(" ++ toString filter.val.toNat ++ "), timeout: " ++
      timeout.elim "None" (fun ms => s!"Some({ms.toNat})") ++ " \x7d"
  | .sendRec dest msg =>
    "SendRec \x7b dest: " ++ toString dest.toInt ++ ", msg: " ++ msg.text ++ " \x7d"
  | .exit => "Exit"
  | .dump => "Dump"
  | .tick ms => "Tick \x7b ms: " ++ toString ms.toNat ++ " \x7d"

end Request

end Rendezvous
