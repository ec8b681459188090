import Rendezvous.Request

/-! Events: what the kernel does, as it happens. Most events leave a record in the journal. -/

namespace Rendezvous

/-- How much a record matters, the most severe first. -/
inductive Severity where
  | error
  | warn
  | info
  | debug
  | trace
deriving DecidableEq

namespace Severity

/-- The place in the order, the most severe first. -/
def rank : Severity → Nat
  | .error => 0
  | .warn => 1
  | .info => 2
  | .debug => 3
  | .trace => 4

/-- The severity as a journal prints it. -/
def label : Severity → String
  | .error => "ERROR"
  | .warn => "WARN"
  | .info => "INFO"
  | .debug => "DEBUG"
  | .trace => "TRACE"

end Severity

/-- One line of the journal. -/
structure Record where
  severity : Severity
  message : String
deriving DecidableEq

namespace Record

/-- The record as a journal prints it. -/
def text (r : Record) : String := r.severity.label ++ " " ++ r.message

/-- Whether a journal that goes down to `threshold` keeps the record. -/
def isKept (threshold : Severity) (r : Record) : Bool := r.severity.rank ≤ threshold.rank

end Record

/-- Something that the kernel has done. -/
inductive Event where
  /-- A fault halted the system while `running` had the processor. -/
  | halted (f : Fault) (running : Option String)
  | started (pid : Pid) (name : String) (stackBytes : Nat)
  | launched (processes : Nat)
  | connected (irq : Int32) (pid : Pid)
  | picked (pid : Pid) (name : String)
  /-- The message of `src`, in the form it has from now on, went into the slot of `dest`. -/
  | delivered (src dest : Pid) (msg : Message)
  /-- A message that the kernel made went into the slot of `dest`. -/
  | notified (dest : Pid) (ty : MessageType)
  | queued (src dest : Pid)
  | blocked (pid : Pid) (filter : MessageType)
  /-- An interrupt for `dest` found an earlier one still pending. -/
  | coalesced (dest : Pid)
  | expired (pid : Pid)
  | exited (pid : Pid)
  | requested (pid : Pid) (request : Request)
  | dumped (line : String)
deriving DecidableEq

namespace Event

/-- The record that an event leaves in the journal; only a message of the kernel leaves none. -/
def record? : Event → Option Record
  | .halted f running => some ⟨.error, f.report running⟩
  | .started pid name bytes => some ⟨.info, s!"start: pid {pid} '{name}' stack {bytes} bytes"⟩
  | .launched n => some ⟨.info, s!"launch: {n} processes"⟩
  | .connected irq pid => some ⟨.debug, s!"connect: irq {irq.toInt} -> pid {pid}"⟩
  | .picked pid name => some ⟨.trace, s!"sched: run {pid} ({name})"⟩
  | .delivered src dest msg => some ⟨.debug, s!"ipc: {src} -> {dest} type {msg.ty.val.toNat}"⟩
  | .notified _ _ => none
  | .queued src dest => some ⟨.debug, s!"ipc: {src} waits to send to {dest}"⟩
  | .blocked pid filter => some ⟨.debug, s!"ipc: {pid} receives type {filter.val.toNat}"⟩
  | .coalesced dest => some ⟨.warn, s!"irq: interrupt for {dest} coalesced"⟩
  | .expired pid => some ⟨.debug, s!"timer: {pid} timed out"⟩
  | .exited pid => some ⟨.info, s!"exit: pid {pid}"⟩
  | .requested pid request => some ⟨.trace, s!"syscall: {pid} {request.text}"⟩
  | .dumped line => some ⟨.info, line⟩

end Event

end Rendezvous
