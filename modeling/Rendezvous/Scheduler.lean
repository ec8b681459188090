import Rendezvous.Chain
import Rendezvous.Config
import Rendezvous.Traced

/-! The scheduler: one ready queue per level, from which the head of the most urgent one that is
    not empty runs next. There are no time slices. -/

namespace Rendezvous

/-- The two ends of a queue linked through the descriptors. -/
structure ReadyQueue where
  head : Option Pid := none
  tail : Option Pid := none
deriving DecidableEq

/-- One queue for each level. -/
structure ReadyQueues where
  handler : ReadyQueue := {}
  high : ReadyQueue := {}
  low : ReadyQueue := {}
deriving DecidableEq

namespace ReadyQueues

/-- The queue of a level. -/
def get (q : ReadyQueues) : Level → ReadyQueue
  | .handler => q.handler
  | .high => q.high
  | .low => q.low

/-- The queues with that of one level replaced. -/
def set (q : ReadyQueues) (level : Level) (queue : ReadyQueue) : ReadyQueues :=
  match level with
  | .handler => { q with handler := queue }
  | .high => { q with high := queue }
  | .low => { q with low := queue }

@[simp] theorem get_set_self (q : ReadyQueues) (level : Level) (queue : ReadyQueue) :
    (q.set level queue).get level = queue := by
  cases level <;> rfl

theorem get_set_ne (q : ReadyQueues) {level other : Level} (queue : ReadyQueue) (h : other ≠ level) :
    (q.set level queue).get other = q.get other := by
  cases level <;> cases other <;> simp_all [get, set]

end ReadyQueues

/-- The ready queues, and who has the processor since when. -/
structure Scheduler where
  queues : ReadyQueues := {}
  policy : Policy
  last : Option Pid := none
  /-- The uptime up to which run time has been charged. -/
  chargedUntil : Nat := 0
  switches : Nat := 0
deriving DecidableEq

namespace Scheduler

/-- The scheduler with the queue of one level replaced. -/
def setQueue (s : Scheduler) (level : Level) (queue : ReadyQueue) : Scheduler :=
  { s with queues := s.queues.set level queue }

/-- Puts `pid` at the end of the queue of a level. -/
def pushBack (s : Scheduler) (t : Table) (level : Level) (pid : Pid) : Except Stop (Scheduler × Table) :=
  let queue := s.queues.get level
  match queue.tail with
  | none => return (s.setQueue level ⟨some pid, some pid⟩, t)
  | some tail => return (s.setQueue level { queue with tail := some pid }, ← t.setNext tail (some pid))

/-- Puts `pid` into the queue of a level before the first process of a larger score. -/
def insertByScore (s : Scheduler) (t : Table) (level : Level) (pid : Pid) :
    Except Stop (Scheduler × Table) := do
  let queue := s.queues.get level
  let own := (← t.fetch pid).score
  let members ← t.chain queue.head
  let goesBefore (p : Pid) : Bool := (t.get? p).any fun d => d.score ≤ own
  let ahead := members.takeWhile goesBefore
  let behind := members.dropWhile goesBefore
  let t ← t.setNext pid behind.head?
  let tail := if behind.isEmpty then some pid else queue.tail
  match ahead.getLast? with
  | none => return (s.setQueue level ⟨some pid, tail⟩, t)
  | some before => return (s.setQueue level { queue with tail := tail }, ← t.setNext before (some pid))

/-- Puts `pid` into the queue of a level, where the policy wants it. -/
def enqueue (s : Scheduler) (t : Table) (level : Level) (pid : Pid) : Except Stop (Scheduler × Table) :=
  match s.policy with
  | .fifo => s.pushBack t level pid
  | .scored => s.insertByScore t level pid

/-- Makes a process active and queues it at its own level. A process whose priority has no queue is
    left as it is: the scheduler falls back to it when all queues are empty. -/
def makeReady (s : Scheduler) (t : Table) (pid : Pid) : Attempt (Scheduler × Table) Unit :=
  match t.get? pid with
  | none => .stop .outOfRange (s, t)
  | some p =>
    match p.priority.level? with
    | none => .done () (s, t)
    | some level =>
      if p.isDead then .refuse (.badState pid p.state "make_ready") (s, t)
      else if p.link.isSome then .refuse (.alreadyQueued pid) (s, t)
      else
        let woken := { p with state := .active, next := none, link := some (.ready level) }
        match s.enqueue (t.put pid woken) level pid with
        | .error e => .stop e (s, t)
        | .ok queued => .done () queued

/-- Charges the process that was picked last for the time up to `now`. -/
def charge (s : Scheduler) (t : Table) (now : Nat) : Except Stop (Scheduler × Table) :=
  let charged := { s with chargedUntil := now }
  match s.last with
  | none => return (charged, t)
  | some last =>
    return (charged, ← t.update last fun p => { p with runtime := p.runtime + (now - s.chargedUntil) })

/-- The most urgent level whose queue is not empty, with the head of that queue. -/
def front? (s : Scheduler) : Option (Level × Pid) :=
  Level.all.findSome? fun level => (s.queues.get level).head.map (level, ·)

/-- Takes the head of the most urgent queue out of it. -/
def pop (s : Scheduler) (t : Table) : Except Stop (Option Pid × Scheduler × Table) :=
  match s.front? with
  | none => return (none, s, t)
  | some (level, head) => do
    let after := (← t.fetch head).next
    let t ← t.update head fun p => { p with next := none, link := none }
    let tail := if after.isSome then (s.queues.get level).tail else none
    return (some head, s.setQueue level ⟨after, tail⟩, t)

/-- Picks the process that runs next and counts its turn; the idle process if none is ready. -/
def pick (s : Scheduler) (t : Table) (now : Nat) : Except Stop (Pid × Scheduler × Table) := do
  let (s, t) ← s.charge t now
  let (head, s, t) ← s.pop t
  let next := head.getD .idle
  let t ← t.update next fun p => { p with turns := min (p.turns + 1) Limits.turns }
  let switches := if s.last = some next then s.switches else s.switches + 1
  return (next, { s with last := some next, switches := switches }, t)

/-- Picks the process that runs next, with a record of it. -/
def chooseNext (s : Scheduler) (t : Table) (now : Nat) : Traced (Pid × Scheduler × Table) := do
  let (next, s, t) ← s.pick t now
  let name := (← t.fetch next).name
  Traced.emit (.picked next name)
  return (next, s, t)

/-- The length of the queue of a level. -/
def queuedAt (s : Scheduler) (t : Table) (level : Level) : Except Stop Nat :=
  (t.chain (s.queues.get level).head).map (·.length)

/-- How many processes are queued at a priority. -/
def queued (s : Scheduler) (t : Table) (priority : Priority) : Except Stop Nat :=
  match priority.level? with
  | none => return 0
  | some level => s.queuedAt t level

/-- How many processes are in the ready queues. -/
def readyCount (s : Scheduler) (t : Table) : Except Stop Nat := do
  return (← s.queuedAt t .handler) + (← s.queuedAt t .high) + (← s.queuedAt t .low)

end Scheduler

end Rendezvous
