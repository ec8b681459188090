import Rendezvous.Kernel.Dump
import Rendezvous.Kernel.Hardware

/-! Requests of the current process: as values, and as the traps that carry them. -/

namespace Rendezvous.Kernel

/-- Gives up the processor; the current process remains ready. -/
def yield (k : Kernel) : Traced Kernel := do
  let k ← k.makeReady k.current
  k.reschedule

/-- Ends the current process for good. The idle process must not exit. -/
def exit (k : Kernel) : Traced Kernel := do
  let me := k.current
  if me = .idle then
    k.halt (.badState me (← k.fetch me).state "exit")
  else
    let k ← k.amend me fun p => { p with state := .dead }
    Traced.emit (.exited me)
    k.reschedule

/-- What the kernel does for a request of the current process. -/
def perform (k : Kernel) : Request → Traced Kernel
  | .yield => k.yield
  | .send dest msg => k.send dest msg
  | .receive filter timeout => k.receive filter timeout
  | .sendRec dest msg => k.sendRec dest msg
  | .exit => k.exit
  | .dump => do
    k.dumpToLog
    return k
  | .tick ms => k.tick ms

/-- Counts a request of the current process and notes it in the journal. -/
def note (k : Kernel) (request : Request) : Traced Kernel := do
  Traced.emit (.requested k.current request)
  return { k with counters := { k.counters with syscalls := k.counters.syscalls + 1 } }

/-- Carries out a request of the current process and returns the address to resume at. -/
def serve (k : Kernel) (request : Request) : Traced (Word × Kernel) := do
  let k ← k.note request
  let k ← k.perform request
  return (← k.resume, k)

/-- Opens a trap: keeps the caller's stack pointer, checks the guard word of its stack and reads the request in the
    frame. -/
def openTrap (k : Kernel) (psp : Word) (frame : TrapFrame) : Traced (Kernel × Request) := do
  let k ← k.saveContext psp
  if ← k.table.stackIntact k.current then
    return (k, ← k.orHalt frame.decode)
  else
    k.halt (.stackOverflow k.current)

/-- Serves a trap: carries out the request that its frame holds. -/
def trap (k : Kernel) (psp : Word) (frame : TrapFrame) : Traced (Word × Kernel) := do
  let (k, request) ← k.openTrap psp frame
  k.serve request

end Rendezvous.Kernel
