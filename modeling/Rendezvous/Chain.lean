import Rendezvous.Table

/-! Linked lists that run through the `next` fields of descriptors: following one, and taking a
    process into the waiting list of a receiver and out of it. -/

namespace Rendezvous.Table

/-- Follows `next` from `start` over at most `bound` descriptors. -/
def follow (t : Table) : Nat → Option Pid → Except Stop (List Pid)
  | _, none => .ok []
  | 0, some _ => .error .cycle
  | bound + 1, some pid => do
    let p ← t.fetch pid
    return pid :: (← t.follow bound p.next)

/-- The members of the list that starts at `head`. It has no more than there are processes, since
    none is in it twice. -/
def chain (t : Table) (head : Option Pid) : Except Stop (List Pid) :=
  t.follow t.size head

/-- Sets the successor of a process in the list that it is in. -/
def setNext (t : Table) (pid : Pid) (next : Option Pid) : Except Stop Table :=
  t.update pid fun p => { p with next := next }

/-- Sets the head of the waiting list of `dest`. -/
def setWaiting (t : Table) (dest : Pid) (head : Option Pid) : Except Stop Table :=
  t.update dest fun p => { p with waiting := head }

/-- Puts `src` at the end of the waiting list of `dest`. -/
def addWaiting (t : Table) (dest src : Pid) : Except Stop Table := do
  let t ← t.update src fun p => { p with next := none, link := some (.waiting dest) }
  let members ← t.chain (← t.fetch dest).waiting
  match members.getLast? with
  | none => t.setWaiting dest (some src)
  | some last => t.setNext last (some src)

/-- Whether `src` holds a message that `filter` accepts. -/
def offers (t : Table) (filter : MessageType) (src : Pid) : Bool :=
  match (t.get? src).bind (·.slot) with
  | some m => filter.accepts m.ty
  | none => false

/-- Lets the waiting list of `dest` go on with `after` behind `before`, or start with it. -/
def relink (t : Table) (dest : Pid) (before after : Option Pid) : Except Stop Table :=
  match before with
  | none => t.setWaiting dest after
  | some before => t.setNext before after

/-- Takes the first process out of the waiting list of `dest` that holds a message `filter`
    accepts. -/
def takeWaiting (t : Table) (dest : Pid) (filter : MessageType) : Except Stop (Option Pid × Table) := do
  let members ← t.chain (← t.fetch dest).waiting
  match members.find? (t.offers filter) with
  | none => return (none, t)
  | some src =>
    let before := (members.takeWhile fun p => !t.offers filter p).getLast?
    let t ← t.relink dest before (← t.fetch src).next
    let t ← t.update src fun p => { p with next := none, link := none }
    return (some src, t)

end Rendezvous.Table
