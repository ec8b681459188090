import Rendezvous.InterruptLines
import Rendezvous.Scheduler
import Rendezvous.Timeouts

/-! The state of a kernel: how it boots, what can be observed of it, and the elementary steps from
    which its operations are built. -/

namespace Rendezvous

/-- What the kernel counts. -/
structure Counters where
  syscalls : Nat := 0
  interrupts : Nat := 0
  /-- Interrupts that found an earlier one still pending. -/
  coalesced : Nat := 0
  timeoutsFired : Nat := 0
deriving DecidableEq

/-- The state of a kernel. -/
structure Kernel where
  table : Table
  scheduler : Scheduler
  timeouts : Timeouts := {}
  lines : InterruptLines := {}
  counters : Counters := {}
  config : Config
  /-- The process that has the processor; the idle process during boot. -/
  current : Pid := .idle
  running : Bool := false
  /-- Milliseconds of all ticks so far. -/
  uptime : Nat := 0
deriving DecidableEq

/-- The figures that can be read from a kernel. -/
structure Stats where
  uptime : Nat
  switches : Nat
  syscalls : Nat
  interrupts : Nat
  coalesced : Nat
  timeoutsFired : Nat
  ready : Nat
  timeoutsPending : Nat
deriving DecidableEq

namespace Kernel

/-- A kernel with its idle process, before any other process is started. -/
def boot (config : Config) : Kernel :=
  let table := (Table.empty.create "IDLE" Limits.idleStack).state
  let idle := fun p : Descriptor => { p with state := .idling, priority := .idle }
  { table := { table with processes := table.processes.map idle }
    scheduler := { policy := config.policy }
    config := config }

/-! ### Observations -/

/-- How many processes there are, the idle process and dead ones included. -/
def processCount (k : Kernel) : Nat := k.table.size

/-- The descriptor of a process, if there is such a process. -/
def process? (k : Kernel) (pid : Pid) : Option Descriptor := k.table.get? pid

/-- What a process is doing. -/
def state? (k : Kernel) (pid : Pid) : Option State := (k.process? pid).map (·.state)

/-- The message in the slot of a process. -/
def message? (k : Kernel) (pid : Pid) : Option Message := (k.process? pid).bind (·.slot)

/-- The address that a process resumes at. -/
def continuation? (k : Kernel) (pid : Pid) : Option Word :=
  (k.process? pid).map fun p => Arena.resolve p.context

/-- The figures as they are now; the ready processes are counted in their queues. -/
def stats (k : Kernel) : Except Stop Stats := do
  let ready ← k.scheduler.readyCount k.table
  return {
    uptime := k.uptime
    switches := k.scheduler.switches
    syscalls := k.counters.syscalls
    interrupts := k.counters.interrupts
    coalesced := k.counters.coalesced
    timeoutsFired := k.counters.timeoutsFired
    ready := ready
    timeoutsPending := k.timeouts.size }

/-! ### Elementary steps -/

variable {α σ : Type}

/-- Halts the system on a fault. -/
def halt (k : Kernel) (f : Fault) : Traced α :=
  ⟨[.halted f ((k.process? k.current).map (·.name))], .error (.fault f)⟩

/-- The value of a check; a fault halts the kernel. -/
def orHalt (k : Kernel) : Except Fault α → Traced α
  | .ok a => pure a
  | .error f => k.halt f

/-- The value and the state that an operation leaves; a fault halts the kernel. -/
def settle (k : Kernel) (a : Attempt σ α) : Traced (α × σ) :=
  match a.outcome with
  | .ok v => pure (v, a.state)
  | .error (.fault f) => k.halt f
  | .error s => Traced.lift (.error s)

/-- The descriptor of a process that has to exist. -/
def fetch (k : Kernel) (pid : Pid) : Traced Descriptor :=
  Traced.lift (k.table.fetch pid)

/-- The kernel with the descriptor of a process changed by `f`. -/
def amend (k : Kernel) (pid : Pid) (f : Descriptor → Descriptor) : Traced Kernel :=
  Traced.lift ((k.table.update pid f).map fun t => { k with table := t })

/-- Makes a process ready to run. -/
def makeReady (k : Kernel) (pid : Pid) : Traced Kernel := do
  let (_, s, t) ← k.settle (k.scheduler.makeReady k.table pid)
  return { k with scheduler := s, table := t }

/-- Keeps a stack pointer as the place where the current process resumes. -/
def saveContext (k : Kernel) (psp : Word) : Traced Kernel :=
  k.amend k.current fun p => { p with context := Arena.locate psp }

/-- The address that the current process resumes at. -/
def resume (k : Kernel) : Traced Word :=
  return Arena.resolve (← k.fetch k.current).context

/-- Gives the processor to the process that the scheduler picks. -/
def reschedule (k : Kernel) : Traced Kernel := do
  let (next, s, t) ← k.scheduler.chooseNext k.table k.uptime
  return { k with scheduler := s, table := t, current := next }

end Kernel

end Rendezvous
