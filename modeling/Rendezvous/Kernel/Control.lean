import Rendezvous.Frame
import Rendezvous.Kernel.State

/-! Starting processes, launching the system, and what a running process sets for itself. -/

namespace Rendezvous.Kernel

/-- Bytes of stack for a process started with `size`: zero asks for the default, and there is always
    room for the initial frame and the guard word below it. -/
def stackSize (size : Nat) : Nat :=
  max (if size = 0 then Limits.defaultStack else size) ((Frame.words + 1) * wordBytes)

/-- Creates a process that runs `entry` with `arg` once the kernel is launched. -/
def start (k : Kernel) (name : String) (size : Nat) (entry arg : Word) : Traced (Pid × Kernel) := do
  if k.running then
    k.halt .startAfterLaunch
  else
    let (pid, t) ← k.settle (k.table.create name (stackSize size))
    let region := (← t.fetch pid).stack
    match Frame.install? (Frame.initial entry arg k.config.exitVector) (t.arena.slice region) with
    | none => Traced.lift (.error .outOfRange)
    | some (offset, content) =>
      let k := { k with table := { t with arena := t.arena.overwrite region.base content } }
      let k ← k.amend pid fun p => { p with context := .arena (region.base + offset) }
      let k ← k.makeReady pid
      Traced.emit (.started pid name region.bytes)
      return (pid, k)

/-- Starts scheduling. The boot context becomes the idle process and gives way at once. -/
def launch (k : Kernel) : Traced (Word × Kernel) := do
  Traced.emit (.launched k.processCount)
  let k ← { k with running := true, current := .idle }.reschedule
  return (← k.resume, k)

/-- Makes the current process the handler of an interrupt line and raises it to handler priority. -/
def connect (k : Kernel) (irq : Int32) : Traced Kernel := do
  if k.running then
    let (_, lines) ← k.settle (k.lines.connect irq k.current)
    let k ← { k with lines := lines }.amend k.current fun p => { p with priority := .handler }
    Traced.emit (.connected irq k.current)
    return k
  else
    k.halt (.beforeLaunch "connect")

/-- Sets the priority of the current process, to high or to low. -/
def setPriority (k : Kernel) (level : Priority) : Traced Kernel := do
  if k.running then
    if level = .high ∨ level = .low then
      k.amend k.current fun p => { p with priority := level }
    else
      k.halt (.badPriority level)
  else
    k.halt (.beforeLaunch "set_priority")

/-- Takes the message out of a process's slot; there is none if there is no such process. -/
def takeMessage (k : Kernel) (pid : Pid) : Traced (Option Message × Kernel) :=
  match k.process? pid with
  | none => return (none, k)
  | some p => return (p.slot, ← k.amend pid fun p => { p with slot := none })

/-- Writes one word of a process's stack, as the process itself may. -/
def pokeStack (k : Kernel) (pid : Pid) (i : Nat) (value : Word) : Traced Kernel :=
  Traced.lift ((k.table.pokeStack pid i value).map fun t => { k with table := t })

end Rendezvous.Kernel
