import Rendezvous.Kernel.State

/-! The exchange of messages. A message moves from the slot of its sender to that of its receiver at
    the moment when both are ready; until then the sender waits in the receiver's list. -/

namespace Rendezvous

/-- How far the kernel has come with what it does: it is done, or `taker` has just taken the request of `asker`, who is
    about to wait for the reply. -/
inductive Stage (α : Type) where
  | done (result : α)
  | taken (k : Kernel) (asker taker : Pid)

namespace Kernel

/-- The process that a request is addressed to; it has to exist and be alive. -/
def findDest (k : Kernel) (dest : Int32) : Traced Pid :=
  k.orHalt (k.table.lookup dest)

/-- Drops the deadline of a receive that a message has come in time for. -/
def cancelTimeout (k : Kernel) (pid : Pid) : Traced Kernel := do
  if (← k.fetch pid).deadline.isSome then
    let (_, r, t) ← k.settle (k.timeouts.cancel k.table pid)
    return { k with timeouts := r, table := t }
  else return k

/-- Moves the message of `src` into the slot of `dest`, who is not ready yet. -/
def handOver (k : Kernel) (dest src : Pid) : Traced Kernel := do
  let sender ← k.fetch src
  match sender.slot with
  | none => k.halt (.badState src sender.state "deliver")
  | some msg =>
    let k ← k.amend src fun p => { p with slot := none }
    let k ← k.cancelTimeout dest
    let msg := { msg with sender := src }
    let k ← k.amend dest fun p => { p with slot := some msg }
    Traced.emit (.delivered src dest msg)
    return k

/-- Hands the message of `src` over to `dest` and makes `dest` ready. -/
def deliver (k : Kernel) (dest src : Pid) : Traced Kernel := do
  let k ← k.handOver dest src
  k.makeReady dest

/-- Puts a message of the kernel itself into the slot of `dest`. -/
def notify (k : Kernel) (dest : Pid) (ty : MessageType) : Traced Kernel := do
  let k ← k.amend dest fun p => { p with slot := some (.new ty) }
  Traced.emit (.notified dest ty)
  let fired := if ty = .timeout then k.counters.timeoutsFired + 1 else k.counters.timeoutsFired
  return { k with counters := { k.counters with timeoutsFired := fired } }

/-- Puts the current process at the end of the senders that wait for `dest`. -/
def queueSender (k : Kernel) (dest : Pid) : Traced Kernel := do
  if (← k.fetch k.current).link.isSome then
    k.halt (.alreadyQueued k.current)
  else
    let t ← k.table.addWaiting dest k.current
    Traced.emit (.queued k.current dest)
    return { k with table := t }

/-- Takes the first waiting sender out of the list of `dest` whose message `filter` accepts. -/
def findSender (k : Kernel) (dest : Pid) (filter : MessageType) : Traced (Option Pid × Kernel) := do
  let (src, t) ← k.table.takeWaiting dest filter
  return (src, { k with table := t })

/-- Lets a process whose request was taken wait for the reply, or have one that is queued already. -/
def awaitReply (k : Kernel) (pid : Pid) : Traced Kernel := do
  let (replier, k) ← k.findSender pid .reply
  match replier with
  | some src =>
    let k ← k.deliver pid src
    k.makeReady src
  | none => k.amend pid fun p => { p with state := .receiving, filter := .reply }

end Kernel

/-- What is left to do: if a request was just taken, the wait for the reply, the choice of the process that runs next and
    the rest. -/
def Stage.finish {α : Type} (rest : Kernel → Traced α) : Stage α → Traced α
  | .done result => return result
  | .taken k asker _ => do
    let k ← k.awaitReply asker
    let k ← k.reschedule
    rest k

namespace Kernel

/-- Sends a message, blocking until it is taken. -/
def send (k : Kernel) (dest : Int32) (msg : Message) : Traced Kernel := do
  let dest ← k.findDest dest
  let me := k.current
  let k ← k.amend me fun p => { p with slot := some msg }
  if (← k.fetch dest).accepts msg.ty then
    let k ← k.deliver dest me
    let k ← k.makeReady me
    k.reschedule
  else
    let k ← k.amend me fun p => { p with state := .sending }
    let k ← k.queueSender dest
    k.reschedule

/-- Sends a request, up to the moment when it has been taken if it is taken at once. -/
def beginSendRec (k : Kernel) (dest : Int32) (msg : Message) : Traced (Stage Kernel) := do
  let dest ← k.findDest dest
  if msg.ty = .reply then
    k.halt .replyViaSendrec
  else
    let me := k.current
    let k ← k.amend me fun p => { p with slot := some msg }
    if (← k.fetch dest).accepts msg.ty then
      let k ← k.deliver dest me
      return .taken k me dest
    else
      let k ← k.amend me fun p => { p with state := .sendRec }
      let k ← k.queueSender dest
      return .done (← k.reschedule)

/-- Sends a request and waits for the reply, as one step: nothing runs in between. -/
def sendRec (k : Kernel) (dest : Int32) (msg : Message) : Traced Kernel :=
  k.beginSendRec dest msg >>= Stage.finish pure

/-- Takes a sender that waits for the current process. A receiver of interrupts alone takes none. -/
def nextSender (k : Kernel) (filter : MessageType) : Traced (Option Pid × Kernel) :=
  if filter = .interrupt then return (none, k) else k.findSender k.current filter

/-- Takes the message of a sender that waited for the current process. After a send, that sender is ready; after a
    request, it is about to wait for the reply. -/
def beginAccept (k : Kernel) (src : Pid) : Traced (Stage Kernel) := do
  let me := k.current
  let k ← k.deliver me src
  let state := (← k.fetch src).state
  match state with
  | .sending =>
    let k ← k.makeReady src
    return .done (← k.reschedule)
  | .sendRec => return .taken k src me
  | _ => k.halt (.badState src state "receive")

/-- Sets the deadline of a receive, if it has one. -/
def setTimeout (k : Kernel) (pid : Pid) : Option UInt32 → Traced Kernel
  | none => return k
  | some ms => do
    let (_, r, t) ← k.settle (k.timeouts.set k.table pid ms)
    return { k with timeouts := r, table := t }

/-- Lets the current process wait for a message that `filter` accepts. -/
def block (k : Kernel) (filter : MessageType) (timeout : Option UInt32) : Traced Kernel := do
  let me := k.current
  let k ← k.amend me fun p => { p with state := .receiving, filter := filter }
  let k ← k.setTimeout me timeout
  Traced.emit (.blocked me filter)
  return k

/-- Receives a message, up to the moment when a request has been taken if it comes to that: a pending interrupt first,
    then the message of a waiting sender; failing both, a timeout of zero gives up and any other waits. -/
def beginReceive (k : Kernel) (filter : MessageType) (timeout : Option UInt32) : Traced (Stage Kernel) := do
  let me := k.current
  let k ← k.amend me fun p => { p with slot := none }
  if (← k.fetch me).pending && filter.accepts .interrupt then
    let k ← k.amend me fun p => { p with pending := false }
    return .done (← k.notify me .interrupt)
  else
    let (src, k) ← k.nextSender filter
    match src with
    | some src => k.beginAccept src
    | none =>
      if timeout = some 0 then
        return .done (← k.notify me .timeout)
      else
        let k ← k.block filter timeout
        return .done (← k.reschedule)

/-- Receives a message that `filter` accepts. -/
def receive (k : Kernel) (filter : MessageType) (timeout : Option UInt32) : Traced Kernel :=
  k.beginReceive filter timeout >>= Stage.finish pure

end Kernel

end Rendezvous
