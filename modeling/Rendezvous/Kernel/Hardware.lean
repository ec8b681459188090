import Rendezvous.Kernel.Exchange

/-! What reaches the kernel from the hardware: interrupts, the passing of time, and the switch of
    context that an interrupt can ask for. -/

namespace Rendezvous.Kernel

/-- Tells the process `dest` of an interrupt, at once if it waits for one and otherwise by its pending
    flag. The result tells whether the current process has to give way. -/
def alert (k : Kernel) (dest : Pid) : Traced (Bool × Kernel) := do
  let p ← k.fetch dest
  if p.accepts .interrupt then
    let k ← k.cancelTimeout dest
    let k ← k.notify dest .interrupt
    let k ← k.makeReady dest
    return (Priority.handler < (← k.fetch k.current).priority, k)
  else if p.pending then
    Traced.emit (.coalesced dest)
    return (false, { k with counters := { k.counters with coalesced := k.counters.coalesced + 1 } })
  else
    return (false, ← k.amend dest fun p => { p with pending := true })

/-- Counts an interrupt for a process and tells that process of it. -/
def interrupt (k : Kernel) (dest : Pid) : Traced (Bool × Kernel) := do
  let dest ← k.findDest dest.destination
  let k := { k with counters := { k.counters with interrupts := k.counters.interrupts + 1 } }
  k.alert dest

/-- An interrupt on the line `irq`, for the process that is connected to it. -/
def interruptRequest (k : Kernel) (irq : Int32) : Traced (Bool × Kernel) := do
  k.interrupt (← k.orHalt (k.lines.handler irq))

/-- Switches away from the current process, which remains ready. -/
def preempt (k : Kernel) (psp : Word) : Traced (Word × Kernel) := do
  let k ← k.saveContext psp
  let k ← k.makeReady k.current
  let k ← k.reschedule
  return (← k.resume, k)

/-- Ends the wait of a receiver whose deadline has passed. -/
def expire (k : Kernel) (pid : Pid) : Traced Kernel := do
  Traced.emit (.expired pid)
  let k ← k.notify pid .timeout
  k.makeReady pid

/-- Lets time pass and wakes every receiver whose deadline has passed. -/
def tick (k : Kernel) (ms : UInt32) : Traced Kernel := do
  let k := { k with uptime := k.uptime + ms.toNat }
  let (s, t) ← k.scheduler.charge k.table k.uptime
  let (expired, r, t) ← k.timeouts.tick t ms
  expired.foldlM expire { k with scheduler := s, timeouts := r, table := t }

end Rendezvous.Kernel
