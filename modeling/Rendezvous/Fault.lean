import Rendezvous.Descriptor

/-! Faults: every condition that halts the kernel, with its text and its class. -/

namespace Rendezvous

/-- A condition that the kernel cannot go on from. -/
inductive Fault where
  | tooManyProcesses
  | outOfMemory (requested available : Nat)
  | tooManyTimeouts
  | noSuchProcess (dest : Int32)
  | deadProcess (pid : Pid)
  | noSuchIrq (irq : Int32)
  | unexpectedInterrupt (irq : Int32)
  | replyViaSendrec
  | badState (pid : Pid) (state : State) (operation : String)
  | alreadyQueued (pid : Pid)
  | unknownSyscall (op : UInt8)
  | missingMessage (op : UInt8)
  | badArgument (op : UInt8) (value : Int32)
  | badPriority (level : Priority)
  | startAfterLaunch
  | beforeLaunch (operation : String)
  | timeoutAlreadySet (pid : Pid)
  | timeoutNotSet (pid : Pid)
  | stackOverflow (pid : Pid)
deriving DecidableEq

/-- The kinds of faults. -/
inductive FaultClass where
  | capacity
  /-- A message or an interrupt was aimed at something that is no live process. -/
  | invalidDestination
  /-- The kernel was used in a way that it forbids. -/
  | protocolMisuse
  | memorySafety
deriving DecidableEq

namespace Fault

/-- The kind that a fault is of. -/
def kind : Fault → FaultClass
  | .tooManyProcesses | .outOfMemory .. | .tooManyTimeouts => .capacity
  | .noSuchProcess _ | .deadProcess _ | .noSuchIrq _ | .unexpectedInterrupt _ => .invalidDestination
  | .stackOverflow _ => .memorySafety
  | .replyViaSendrec | .badState .. | .alreadyQueued _ | .unknownSyscall _ | .missingMessage _
  | .badArgument .. | .badPriority _ | .startAfterLaunch | .beforeLaunch _ | .timeoutAlreadySet _
  | .timeoutNotSet _ => .protocolMisuse

/-- The fault in words. -/
def text : Fault → String
  | .tooManyProcesses => "too many processes"
  | .outOfMemory requested available =>
    s!"out of memory: stack of {requested} bytes, {available} left"
  | .tooManyTimeouts => "too many timeouts"
  | .noSuchProcess dest => s!"sending to a non-existent process {dest.toInt}"
  | .deadProcess pid => s!"sending to a dead process {pid}"
  | .noSuchIrq irq => s!"can't connect to irq {irq.toInt}"
  | .unexpectedInterrupt irq => s!"unexpected interrupt {irq.toInt}"
  | .replyViaSendrec => "sendrec may not be used to send REPLY message"
  | .badState pid state operation => s!"bad state {state.name} of process {pid} in {operation}"
  | .alreadyQueued pid => s!"process {pid} is already queued"
  | .unknownSyscall op => s!"unknown syscall {op.toNat}"
  | .missingMessage op => s!"syscall {op.toNat} needs a message"
  | .badArgument op value => s!"bad argument {value.toInt} to syscall {op.toNat}"
  | .badPriority level => s!"bad priority {level.val.toNat}"
  | .startAfterLaunch => "start() called after scheduler startup"
  | .beforeLaunch operation => s!"{operation}() called before scheduler startup"
  | .timeoutAlreadySet pid => s!"timeout already set for process {pid}"
  | .timeoutNotSet pid => s!"cancelling an unset timeout of process {pid}"
  | .stackOverflow pid => s!"stack overflow in process {pid}"

/-- What is logged when the fault halts the system while `running` has the processor. -/
def report (f : Fault) (running : Option String) : String :=
  match running with
  | some name => s!"panic: {f.text} in process {name}"
  | none => s!"panic: {f.text}"

end Fault

end Rendezvous
