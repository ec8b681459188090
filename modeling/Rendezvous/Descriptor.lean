import Rendezvous.Message
import Rendezvous.Priority
import Rendezvous.Descriptor.Name

/-! Process descriptors. A descriptor is in at most one queue at a time; `link` tells which one,
    and `next` is its successor there. -/

namespace Rendezvous

/-- What a process is doing. -/
inductive State where
  | dead
  | active
  | sending
  | receiving
  /-- It is blocked in a request that its server has not taken yet. -/
  | sendRec
  | idling
deriving DecidableEq

namespace State

/-- The state as faults name it. -/
def name : State → String
  | .dead => "Dead"
  | .active => "Active"
  | .sending => "Sending"
  | .receiving => "Receiving"
  | .sendRec => "SendRec"
  | .idling => "Idling"

/-- The state as the process dump shows it, nine characters wide. -/
def tag : State → String
  | .dead => "[DEAD]   "
  | .active => "[ACTIVE] "
  | .sending => "[SEND]   "
  | .receiving => "[RECEIVE]"
  | .sendRec => "[SENDREC]"
  | .idling => "[IDLE]   "

end State

/-- The queue that a descriptor is in. -/
inductive Link where
  | ready (level : Level)
  /-- The list of senders that wait for a receiver. -/
  | waiting (dest : Pid)
deriving DecidableEq

/-- Where a process resumes. -/
inductive Context where
  | arena (offset : Nat)
  /-- At an address outside the arena. -/
  | foreign (addr : Word)
deriving DecidableEq

/-- The part of the arena that a stack takes: its first word, and how many there are. -/
structure StackRegion where
  base : Nat
  words : Nat
deriving DecidableEq

namespace StackRegion

/-- The size of a region in bytes. -/
def bytes (r : StackRegion) : Nat := r.words * wordBytes

end StackRegion

/-- Everything the kernel keeps about one process. -/
structure Descriptor where
  pid : Pid
  name : String
  state : State
  context : Context
  stack : StackRegion
  priority : Priority
  /-- Head of the list of processes that wait to send to this one. -/
  waiting : Option Pid
  /-- An interrupt has arrived and was not taken yet. -/
  pending : Bool
  filter : MessageType
  /-- The outgoing message of a waiting sender, or the message last delivered. -/
  slot : Option Message
  /-- Milliseconds until the receive times out, counted from the last scan of the timeouts. -/
  deadline : Option Int
  next : Option Pid
  link : Option Link
  /-- Milliseconds of processor time used. -/
  runtime : Nat
  /-- How often the scheduler has picked the process, up to the limit of the counter. -/
  turns : Nat
deriving DecidableEq

namespace Descriptor

/-- A descriptor as it is created: active, of low priority, in no queue. -/
def fresh (pid : Pid) (name : String) (stack : StackRegion) : Descriptor where
  pid := pid
  name := Name.clip name
  state := .active
  context := .foreign 0
  stack := stack
  priority := .low
  waiting := none
  pending := false
  filter := .any
  slot := none
  deadline := none
  next := none
  link := none
  runtime := 0
  turns := 0

/-- Whether the process has exited. -/
def isDead (p : Descriptor) : Bool :=
  p.state = .dead

/-- Whether the process is blocked in a receive that takes messages of type `ty`. -/
def accepts (p : Descriptor) (ty : MessageType) : Bool :=
  p.state = .receiving && p.filter.accepts ty

/-- Average run time per turn, by which the scored policy orders its queues. -/
def score (p : Descriptor) : Nat :=
  p.runtime / max p.turns 1

end Descriptor

end Rendezvous
