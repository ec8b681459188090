import Rendezvous.Kernel.Control
import Rendezvous.Kernel.Serve

/-! Everything that can be done to a kernel from outside, as values, so that runs of a kernel are
    lists of calls. -/

namespace Rendezvous

/-- A use of the kernel. -/
inductive Call where
  | start (name : String) (size : Nat) (entry arg : Word)
  | launch
  | connect (irq : Int32)
  | setPriority (level : Priority)
  | serve (request : Request)
  | trap (psp : Word) (frame : TrapFrame)
  | preempt (psp : Word)
  | interrupt (pid : Pid)
  | interruptRequest (irq : Int32)
  | takeMessage (pid : Pid)
  | pokeStack (pid : Pid) (i : Nat) (value : Word)
deriving DecidableEq

/-- What a use of the kernel returns. -/
inductive Answer where
  | nothing
  | pid (pid : Pid)
  | address (addr : Word)
  | flag (value : Bool)
  | message (msg : Option Message)
deriving DecidableEq

namespace Kernel

/-- Makes a call, and gives its answer as a value. -/
def call (k : Kernel) : Call → Traced (Answer × Kernel)
  | .start name size entry arg => return (← k.start name size entry arg).map .pid id
  | .launch => return (← k.launch).map .address id
  | .connect irq => return (.nothing, ← k.connect irq)
  | .setPriority level => return (.nothing, ← k.setPriority level)
  | .serve request => return (← k.serve request).map .address id
  | .trap psp frame => return (← k.trap psp frame).map .address id
  | .preempt psp => return (← k.preempt psp).map .address id
  | .interrupt pid => return (← k.interrupt pid).map .flag id
  | .interruptRequest irq => return (← k.interruptRequest irq).map .flag id
  | .takeMessage pid => return (← k.takeMessage pid).map .message id
  | .pokeStack pid i value => return (.nothing, ← k.pokeStack pid i value)

end Kernel

end Rendezvous
