import Rendezvous.Kernel.Call
import Rendezvous.Proofs.Lists
import Rendezvous.Proofs.Registry

/-! Plain kernels: what a kernel holds, with plain lists for its linked ones. The operations of a kernel
    have their counterparts here, which are total: they tell what an operation does when it succeeds. -/

namespace Rendezvous

/-- A kernel with plain lists, and the events up to now. -/
structure Plain where
  /-- What the descriptors hold apart from the threads of the lists. -/
  process : Pid → Option Descriptor
  /-- The members of each list. -/
  queue : Link → List Pid
  size : Nat
  arena : Arena
  frontier : Nat
  policy : Policy
  last : Option Pid
  chargedUntil : Nat
  switches : Nat
  timeouts : Timeouts
  lines : InterruptLines
  counters : Counters
  config : Config
  current : Pid
  running : Bool
  uptime : Nat
  trace : List Event

namespace Plain

variable (P : Plain)

/-! ### Elementary changes -/

/-- Changes the descriptor of a process, if there is such a process. -/
def modify (p : Pid) (f : Descriptor → Descriptor) : Plain :=
  { P with process := Function.update P.process p ((P.process p).map f) }

/-- Replaces the members of a list. -/
def setQueue (link : Link) (l : List Pid) : Plain := { P with queue := Function.update P.queue link l }

/-- Adds an event to the trace. -/
def emit (e : Event) : Plain := { P with trace := P.trace ++ [e] }

/-- The message in the slot of a process. -/
def slot (p : Pid) : Option Message := (P.process p).bind (·.slot)

/-- What `g` tells of the descriptor of a process. -/
def read {α : Type} (g : Descriptor → α) (p : Pid) : Option α := (P.process p).map g

/-- Makes a process active and puts it into the queue of its level, if its priority has one. -/
def wake (p : Pid) : Plain :=
  match P.process p with
  | none => P
  | some d =>
    match d.priority.level? with
    | none => P
    | some l =>
      (P.modify p fun d => { d with state := .active, link := some (.ready l) }).setQueue (.ready l)
        (P.policy.insert (fun x => (P.process x).any (·.score ≤ d.score)) (P.queue (.ready l)) p)

/-- Takes a process out of the list that it is in. -/
def free (p : Pid) (link : Link) : Plain :=
  (P.modify p fun d => { d with link := none }).setQueue link ((P.queue link).erase p)

/-- Puts the current process at the end of the senders that wait for `dest`. -/
def join (dest : Pid) : Plain :=
  ((P.modify P.current fun d => { d with link := some (.waiting dest) }).setQueue (.waiting dest)
    (P.queue (.waiting dest) ++ [P.current])).emit (.queued P.current dest)

/-- Takes the deadline of a process away, if it has one. -/
def cancel (p : Pid) : Plain :=
  if (P.process p).any (·.deadline.isSome) then
    { P.modify p fun d => { d with deadline := none } with timeouts := P.timeouts.without p }
  else P

/-- Gives a process a deadline, if there is to be one. -/
def setTimeout (p : Pid) : Option UInt32 → Plain
  | none => P
  | some ms =>
    let due := saturate (P.timeouts.ticks + saturate ms.toNat)
    { P.modify p fun d => { d with deadline := some due } with
      timeouts := { P.timeouts with
        entries := P.timeouts.entries ++ [p]
        nextDue := Timeouts.earlier due P.timeouts.nextDue } }

section
variable {P} {p : Pid} {d : Descriptor}

theorem modify_eq (hp : P.process p = some d) (f : Descriptor → Descriptor) :
    P.modify p f = { P with process := Function.update P.process p (some (f d)) } := by
  rw [modify, hp, Option.map_some]

theorem modify_of_none (hp : P.process p = none) (f : Descriptor → Descriptor) : P.modify p f = P := by
  have hsame : Function.update P.process p ((P.process p).map f) = P.process := by
    rw [hp, Option.map_none, ← hp, Function.update_eq_self]
  rw [modify, hsame]

theorem modify_self (hp : P.process p = some d) (f : Descriptor → Descriptor) :
    (P.modify p f).process p = some (f d) := by
  rw [modify_eq hp]
  exact Function.update_self ..

theorem modify_ne {q : Pid} (hq : q ≠ p) (f : Descriptor → Descriptor) :
    (P.modify p f).process q = P.process q := Function.update_of_ne hq ..

theorem wake_of_none (hp : P.process p = some d) (hl : d.priority.level? = none) : P.wake p = P := by
  unfold wake
  simp only [hp, hl]

theorem wake_of_some (hp : P.process p = some d) {l : Level} (hl : d.priority.level? = some l) :
    P.wake p = { P with
      process := Function.update P.process p (some { d with state := .active, link := some (.ready l) })
      queue := Function.update P.queue (.ready l)
        (P.policy.insert (fun x => (P.process x).any (·.score ≤ d.score)) (P.queue (.ready l)) p) } := by
  unfold wake
  simp only [hp, hl, modify_eq hp]
  rfl

theorem wake_ne {q : Pid} (hq : q ≠ p) : (P.wake p).process q = P.process q := by
  unfold wake
  split
  · rfl
  · split
    · rfl
    · exact modify_ne hq _

theorem cancel_ne {q : Pid} (hq : q ≠ p) : (P.cancel p).process q = P.process q := by
  unfold cancel
  split
  · exact modify_ne hq _
  · rfl

theorem cancel_of_none (hp : P.process p = some d) (hd : d.deadline = none) : P.cancel p = P := by
  unfold cancel
  simp [hp, hd]

theorem cancel_of_some (hp : P.process p = some d) (hd : d.deadline.isSome) :
    P.cancel p = { P with
      process := Function.update P.process p (some { d with deadline := none })
      timeouts := P.timeouts.without p } := by
  unfold cancel
  simp [hp, hd, modify_eq hp]

end

/-! ### The processor -/

/-- Charges the process that was picked last for the time since the last charge. -/
def charge : Plain :=
  match P.last with
  | none => { P with chargedUntil := P.uptime }
  | some p =>
    { P.modify p fun d => { d with runtime := d.runtime + (P.uptime - P.chargedUntil) } with
      chargedUntil := P.uptime }

/-- The most urgent level whose queue is not empty, with the head of that queue. -/
def front? : Option (Level × Pid) :=
  Level.all.findSome? fun l => (P.queue (.ready l)).head?.map (l, ·)

/-- The process that runs next: the head of the most urgent queue, or the idle process. -/
def next : Pid := (P.front?.map (·.2)).getD .idle

/-- Takes the head of the most urgent queue out of it. -/
def pop : Plain :=
  match P.front? with
  | none => P
  | some (l, p) => P.free p (.ready l)

/-- Gives the processor to a process and counts its turn. -/
def run (p : Pid) : Plain :=
  { (P.modify p fun d => { d with turns := min (d.turns + 1) Limits.turns }).emit
      (.picked p (((P.process p).map (·.name)).getD "")) with
    last := some p
    switches := if P.last = some p then P.switches else P.switches + 1
    current := p }

/-- Charges the process that ran and gives the processor to the next one. -/
def reschedule : Plain := P.charge.pop.run P.charge.next

section
variable {P}

theorem charge_of_none (h : P.last = none) : P.charge = { P with chargedUntil := P.uptime } := by
  unfold charge
  simp only [h]

theorem charge_of_some {p : Pid} (h : P.last = some p) : P.charge =
    { P.modify p fun d => { d with runtime := d.runtime + (P.uptime - P.chargedUntil) } with
      chargedUntil := P.uptime } := by
  unfold charge
  simp only [h]

theorem pop_of_none (h : P.front? = none) : P.pop = P := by
  unfold pop
  simp only [h]

theorem pop_of_some {l : Level} {p : Pid} (h : P.front? = some (l, p)) : P.pop = P.free p (.ready l) := by
  unfold pop
  simp only [h]

variable {α : Type} {g : Descriptor → α}

theorem isSome_read (p : Pid) : (P.read g p).isSome = (P.process p).isSome := Option.isSome_map

theorem bind_read (P : Plain) (g : Descriptor → Option α) (p : Pid) : (P.process p).bind g = (P.read g p).join := by
  rw [read]
  cases P.process p <;> rfl

theorem modify_read {f : Descriptor → Descriptor} (hg : ∀ d, g (f d) = g d) (p : Pid) :
    (P.modify p f).read g = P.read g := by
  funext q
  show (Function.update P.process p ((P.process p).map f) q).map g = (P.process q).map g
  by_cases hq : q = p
  · rw [hq, Function.update_self, Option.map_map]
    exact Option.map_congr fun d _ => hg d
  · rw [Function.update_of_ne hq]

theorem modify_isSome (p : Pid) (f : Descriptor → Descriptor) (q : Pid) :
    ((P.modify p f).process q).isSome = (P.process q).isSome := by
  rw [← isSome_read (g := fun _ => ()), modify_read (f := f) (fun _ => rfl), isSome_read]

theorem charge_read (hg : ∀ d runtime, g { d with runtime := runtime } = g d) : P.charge.read g = P.read g := by
  cases h : P.last with
  | none =>
    rw [charge_of_none h]
    rfl
  | some p =>
    rw [charge_of_some h]
    exact modify_read (fun d => hg d _) p

theorem pop_read (hg : ∀ d link, g { d with link := link } = g d) : P.pop.read g = P.read g := by
  cases h : P.front? with
  | none => rw [pop_of_none h]
  | some front =>
    rw [pop_of_some h]
    exact modify_read (fun d => hg d _) front.2

theorem run_read (hg : ∀ d turns, g { d with turns := turns } = g d) (p : Pid) : (P.run p).read g = P.read g :=
  modify_read (fun d => hg d _) p

theorem charge_eq : P.charge = { P with process := P.charge.process, chargedUntil := P.uptime } := by
  rcases Option.eq_none_or_eq_some P.last with h | ⟨p, h⟩
  · rw [charge_of_none h]
  · rw [charge_of_some h]
    rfl

theorem pop_eq : P.pop = { P with process := P.pop.process, queue := P.pop.queue } := by
  cases h : P.front? with
  | none => rw [pop_of_none h]
  | some front =>
    rw [pop_of_some h]
    rfl

end

/-! ### The exchange of messages -/

/-- Moves the message of `src` into the slot of `dest` and wakes `dest`. -/
def deliver (dest src : Pid) : Plain :=
  match P.slot src with
  | none => P
  | some msg =>
    let msg' := { msg with sender := src }
    ((((P.modify src fun d => { d with slot := none }).cancel dest).modify dest fun d =>
      { d with slot := some msg' }).emit (.delivered src dest msg')).wake dest

/-- Puts a message that the kernel makes into a slot. -/
def notify (dest : Pid) (ty : MessageType) : Plain :=
  { (P.modify dest fun d => { d with slot := some (.new ty) }).emit (.notified dest ty) with
    counters := { P.counters with
      timeoutsFired := if ty = .timeout then P.counters.timeoutsFired + 1 else P.counters.timeoutsFired } }

/-- Whether `src` holds a message that `filter` accepts. -/
def offers (filter : MessageType) (src : Pid) : Bool := (P.slot src).any fun m => filter.accepts m.ty

/-- The first process in a waiting list whose message the filter accepts. -/
def sender? (dest : Pid) (filter : MessageType) : Option Pid :=
  (P.queue (.waiting dest)).find? (P.offers filter)

/-- Lets a process whose request was taken wait for the reply, or have one that is queued already. -/
def awaitReply (p : Pid) : Plain :=
  match P.sender? p .reply with
  | some src => ((P.free src (.waiting p)).deliver p src).wake src
  | none => P.modify p fun d => { d with state := .receiving, filter := .reply }

/-- Puts the message of the current process into its slot. -/
def hold (msg : Message) : Plain := P.modify P.current fun d => { d with slot := some msg }

/-- Whether `dest` is blocked in a receive that takes messages of type `ty`. -/
def accepts (dest : Pid) (ty : MessageType) : Bool := (P.process dest).any (·.accepts ty)

/-- Blocks the current process, in a send or a request, until `dest` takes its message. -/
def wait (state : State) (dest : Pid) : Plain :=
  (P.modify P.current fun d => { d with state := state }).join dest

/-- Sends a message: it is delivered at once, or its sender waits. -/
def send (dest : Pid) (msg : Message) : Plain :=
  let Q := P.hold msg
  if Q.accepts dest msg.ty then ((Q.deliver dest P.current).wake P.current).reschedule
  else (Q.wait .sending dest).reschedule

/-- Sends a request: its sender waits for the reply once it is taken, and until then for that. -/
def sendRec (dest : Pid) (msg : Message) : Plain :=
  let Q := P.hold msg
  if Q.accepts dest msg.ty then ((Q.deliver dest P.current).awaitReply P.current).reschedule
  else (Q.wait .sendRec dest).reschedule

/-- The process whose message the current one takes. A receiver of interrupts alone takes none. -/
def nextSender? (filter : MessageType) : Option Pid :=
  if filter = .interrupt then none else P.sender? P.current filter

/-- The current process takes the message of `src`, who is ready then or waits for the reply. -/
def accept (src : Pid) : Plain :=
  let Q := P.deliver P.current src
  if (Q.process src).any (·.state = .sendRec) then Q.awaitReply src else Q.wake src

/-- Takes the first sender whose message the current process wants out of its waiting list, and its message. -/
def take (src : Pid) : Plain := (P.free src (.waiting P.current)).accept src

/-- The current process waits for a message that `filter` accepts. -/
def block (filter : MessageType) (timeout : Option UInt32) : Plain :=
  ((P.modify P.current fun d => { d with state := .receiving, filter := filter }).setTimeout P.current
    timeout).emit (.blocked P.current filter)

/-- Receives a message: an interrupt, that of a waiting sender, a timeout at once, or one to wait for. -/
def receive (filter : MessageType) (timeout : Option UInt32) : Plain :=
  let Q := P.modify P.current fun d => { d with slot := none }
  if (Q.process P.current).any (·.pending) && filter.accepts .interrupt then
    (Q.modify P.current fun d => { d with pending := false }).notify P.current .interrupt
  else
    match Q.nextSender? filter with
    | some src => (Q.take src).reschedule
    | none =>
      if timeout = some 0 then Q.notify P.current .timeout
      else (Q.block filter timeout).reschedule

section
variable {P} {dest src : Pid} {msg : Message} {filter : MessageType} {timeout : Option UInt32}

theorem send_of_accepts (h : (P.hold msg).accepts dest msg.ty = true) :
    P.send dest msg = (((P.hold msg).deliver dest P.current).wake P.current).reschedule := if_pos h

theorem send_of_waits (h : ¬(P.hold msg).accepts dest msg.ty = true) :
    P.send dest msg = ((P.hold msg).wait .sending dest).reschedule := if_neg h

theorem sendRec_of_accepts (h : (P.hold msg).accepts dest msg.ty = true) :
    P.sendRec dest msg = (((P.hold msg).deliver dest P.current).awaitReply P.current).reschedule := if_pos h

theorem sendRec_of_waits (h : ¬(P.hold msg).accepts dest msg.ty = true) :
    P.sendRec dest msg = ((P.hold msg).wait .sendRec dest).reschedule := if_neg h

/-- The slot of a receiver is emptied at once. -/
def emptied (P : Plain) : Plain := P.modify P.current fun d => { d with slot := none }

/-- Whether a receive finds a pending interrupt that it wants. -/
def takesInterrupt (P : Plain) (filter : MessageType) : Bool :=
  (P.emptied.process P.current).any (·.pending) && filter.accepts .interrupt

theorem receive_of_interrupt (h : P.takesInterrupt filter = true) : P.receive filter timeout =
    (P.emptied.modify P.current fun d => { d with pending := false }).notify P.current .interrupt := if_pos h

theorem receive_of_sender (h : ¬P.takesInterrupt filter = true) (hf : P.emptied.nextSender? filter = some src) :
    P.receive filter timeout = (P.emptied.take src).reschedule := by
  refine (if_neg h).trans ?_
  show (match P.emptied.nextSender? filter with | some _ => _ | none => _) = _
  rw [hf]
  rfl

theorem receive_of_none (h : ¬P.takesInterrupt filter = true) (hf : P.emptied.nextSender? filter = none) :
    P.receive filter timeout =
      if timeout = some 0 then P.emptied.notify P.current .timeout else (P.emptied.block filter timeout).reschedule := by
  refine (if_neg h).trans ?_
  show (match P.emptied.nextSender? filter with | some _ => _ | none => _) = _
  rw [hf]
  rfl

end

/-! ### Time and interrupts -/

/-- What is left of the deadline of a process at a scan. -/
def left (later : Int) (p : Pid) : Option Int :=
  remaining P.timeouts.ticks later ((P.process p).bind (·.deadline))

/-- The processes whose deadline has passed at a scan. -/
def overdue (later : Int) : List Pid := P.timeouts.entries.filter fun p => (P.left later p).isNone

/-- Scans the registry: deadlines that have not passed count from `later` on, all others go. -/
def scan (later : Int) : Plain :=
  { P with
    process := fun p =>
      if p ∈ P.timeouts.entries then (P.process p).map fun d => { d with deadline := P.left later p }
      else P.process p
    timeouts :=
      { entries := P.timeouts.entries.filter fun p => (P.left later p).isSome
        ticks := 0
        nextDue := soonest (P.timeouts.entries.filterMap (P.left later)) none } }

/-- Ends the wait of a receiver whose deadline has passed. -/
def expire (p : Pid) : Plain := ((P.emit (.expired p)).notify p .timeout).wake p

/-- The time that the registry counts to when `ms` milliseconds pass. -/
def later (ms : UInt32) : Int := saturate (P.timeouts.ticks + saturate ms.toNat)

/-- Lets the registry see `ms` milliseconds pass: it counts them, or scans if a deadline has passed. -/
def elapse (ms : UInt32) : Plain :=
  match P.timeouts.nextDue with
  | none => P
  | some due =>
    if P.timeouts.ticks ≤ due then { P with timeouts := { P.timeouts with ticks := P.later ms } }
    else (P.overdue (P.later ms)).foldl expire (P.scan (P.later ms))

section
variable {P} {due : Int} {ms : UInt32}

theorem elapse_of_none (h : P.timeouts.nextDue = none) : P.elapse ms = P := by
  unfold elapse
  split
  · rfl
  · rename_i hdue
    rw [h] at hdue
    cases hdue

theorem elapse_of_some (h : P.timeouts.nextDue = some due) : P.elapse ms =
    if P.timeouts.ticks ≤ due then { P with timeouts := { P.timeouts with ticks := P.later ms } }
    else (P.overdue (P.later ms)).foldl expire (P.scan (P.later ms)) := by
  unfold elapse
  split
  · rename_i hnone
    rw [h] at hnone
    cases hnone
  · rename_i due' hdue
    obtain rfl : due = due' := Option.some_inj.mp (h.symm.trans hdue)
    rfl

end

/-- Lets `ms` milliseconds pass. -/
def tick (ms : UInt32) : Plain :=
  let Q := { P with uptime := P.uptime + ms.toNat }
  Q.charge.elapse ms

/-- Whether the current process is less urgent than a handler. -/
def lessUrgent : Bool := (P.process P.current).any fun d => Priority.handler < d.priority

/-- Tells a process of an interrupt, at once if it waits for one. -/
def alert (dest : Pid) : Plain :=
  if P.accepts dest .interrupt then ((P.cancel dest).notify dest .interrupt).wake dest
  else if (P.process dest).any (·.pending) then
    { P.emit (.coalesced dest) with counters := { P.counters with coalesced := P.counters.coalesced + 1 } }
  else P.modify dest fun d => { d with pending := true }

/-- Counts an interrupt and tells its process of it. -/
def interrupt (dest : Pid) : Plain :=
  { P with counters := { P.counters with interrupts := P.counters.interrupts + 1 } }.alert dest

/-- Keeps the stack pointer of the current process. -/
def save (psp : Word) : Plain := P.modify P.current fun d => { d with context := Arena.locate psp }

/-- The address that the current process resumes at. -/
def resume : Word := ((P.process P.current).map fun d => Arena.resolve d.context).getD 0

/-- Switches away from the current process, which remains ready. -/
def preempt (psp : Word) : Plain := ((P.save psp).wake P.current).reschedule

/-! ### Requests -/

/-- The current process gives up the processor and remains ready. -/
def yield : Plain := (P.wake P.current).reschedule

/-- The current process dies. -/
def exit : Plain :=
  ((P.modify P.current fun d => { d with state := .dead }).emit (.exited P.current)).reschedule

/-- The process that a destination register names. -/
def named (dest : Int32) : Pid := Pid.ofIndex dest.toInt.toNat

theorem named_destination (p : Pid) : named p.destination = p := by
  have hlt : p.index < 2 ^ 31 := Nat.lt_trans p.val.toNat_lt (by decide)
  rw [named, Pid.destination, Int32.toInt_ofNat_of_lt hlt, Int.toNat_natCast, Pid.ofIndex_index]

/-- Carries out a request; `lines` are those of a dump. -/
def perform (lines : List Event) : Request → Plain
  | .yield => P.yield
  | .send dest msg => P.send (named dest) msg
  | .receive filter timeout => P.receive filter timeout
  | .sendRec dest msg => P.sendRec (named dest) msg
  | .exit => P.exit
  | .dump => { P with trace := P.trace ++ lines }
  | .tick ms => P.tick ms

/-- The kernel has noted a request of the current process. -/
def asked (request : Request) : Plain :=
  { P with counters := { P.counters with syscalls := P.counters.syscalls + 1 } }.emit (.requested P.current request)

/-- Notes a request and carries it out. -/
def serve (lines : List Event) (request : Request) : Plain := (P.asked request).perform lines request

/-! ### Control -/

/-- Gives the next pid to a process whose stack starts at the frontier. -/
def create (name : String) (words : Nat) : Plain :=
  { P with
    process := Function.update P.process (Pid.ofIndex P.size)
      (some (Descriptor.fresh (Pid.ofIndex P.size) name ⟨P.frontier, words⟩))
    size := P.size + 1
    arena := P.arena.clear ⟨P.frontier, words⟩
    frontier := P.frontier + words }

/-- Writes `content` into the arena, with the frame that `p` resumes from at `offset`. -/
def install (p : Pid) (base offset : Nat) (content : List Word) : Plain :=
  { P with arena := P.arena.overwrite base content }.modify p fun d => { d with context := .arena (base + offset) }

/-- Starts a process whose stack has `words` words. -/
def startWith (name : String) (words : Nat) (entry arg : Word) : Plain :=
  match Frame.install? (Frame.initial entry arg P.config.exitVector)
      ((P.create name words).arena.slice ⟨P.frontier, words⟩) with
  | none => P.create name words
  | some (offset, content) =>
    (((P.create name words).install (Pid.ofIndex P.size) P.frontier offset content).wake (Pid.ofIndex P.size)).emit
      (.started (Pid.ofIndex P.size) name (words * wordBytes))

theorem startWith_eq {P : Plain} {name : String} {words offset : Nat} {entry arg : Word} {content : List Word}
    (h : Frame.install? (Frame.initial entry arg P.config.exitVector)
      ((P.create name words).arena.slice ⟨P.frontier, words⟩) = some (offset, content)) :
    P.startWith name words entry arg =
      (((P.create name words).install (Pid.ofIndex P.size) P.frontier offset content).wake (Pid.ofIndex P.size)).emit
        (.started (Pid.ofIndex P.size) name (words * wordBytes)) := by
  unfold startWith
  rw [h]

/-- Starts a process whose stack has `size` bytes. -/
def start (name : String) (size : Nat) (entry arg : Word) : Plain :=
  P.startWith name (stackWords (Kernel.stackSize size)) entry arg

/-- Starts scheduling: what has booted becomes the idle process and gives way at once. -/
def launch : Plain :=
  { P.emit (.launched P.size) with running := true, current := .idle }.reschedule

/-- Sets the priority of the current process. -/
def setPriority (level : Priority) : Plain := P.modify P.current fun d => { d with priority := level }

/-- Makes the current process the handler of an interrupt line. -/
def connect (irq : Int32) : Plain :=
  ({ P with lines := (P.lines.connect irq P.current).state }.setPriority .handler).emit (.connected irq P.current)

/-- Empties the slot of a process. -/
def takeMessage (p : Pid) : Plain := P.modify p fun d => { d with slot := none }

/-- Writes a word of the stack of a process. -/
def pokeStack (p : Pid) (i : Nat) (value : Word) : Plain :=
  { P with arena := P.arena.set (((P.process p).map (·.stack.base)).getD 0 + i) value }

/-- Carries out a call; `lines` are those of a dump. -/
def after (lines : List Event) : Call → Plain
  | .start name size entry arg => P.start name size entry arg
  | .launch => P.launch
  | .connect irq => P.connect irq
  | .setPriority level => P.setPriority level
  | .serve request => P.serve lines request
  | .trap psp frame =>
    match frame.decode with
    | .ok request => (P.save psp).serve lines request
    | .error _ => P
  | .preempt psp => P.preempt psp
  | .interrupt pid => P.interrupt pid
  | .interruptRequest irq =>
    match P.lines.handler irq with
    | .ok pid => P.interrupt pid
    | .error _ => P
  | .takeMessage pid => P.takeMessage pid
  | .pokeStack pid i value => P.pokeStack pid i value

theorem after_of_decoded {P : Plain} {frame : TrapFrame} {r : Request} (h : frame.decode = .ok r) (lines : List Event)
    (psp : Word) : P.after lines (.trap psp frame) = (P.save psp).serve lines r := by
  rw [after, h]

theorem after_of_undecoded {P : Plain} {frame : TrapFrame} {f : Fault} (h : frame.decode = .error f)
    (lines : List Event) (psp : Word) : P.after lines (.trap psp frame) = P := by
  rw [after, h]

theorem after_of_handler {P : Plain} {irq : Int32} {p : Pid} (h : P.lines.handler irq = .ok p) (lines : List Event) :
    P.after lines (.interruptRequest irq) = P.interrupt p := by
  show (match P.lines.handler irq with | .ok p => P.interrupt p | .error _ => P) = _
  rw [h]

theorem after_of_unhandled {P : Plain} {irq : Int32} {f : Fault} (h : P.lines.handler irq = .error f)
    (lines : List Event) : P.after lines (.interruptRequest irq) = P := by
  show (match P.lines.handler irq with | .ok p => P.interrupt p | .error _ => P) = _
  rw [h]

/-! ### What the exchange of messages leaves alone -/

/-- All but the descriptors, the lists, the registry, the counters and the trace is as before. -/
def Near (P Q : Plain) : Prop :=
  Q = { P with
    process := Q.process
    queue := Q.queue
    timeouts := Q.timeouts
    counters := Q.counters
    trace := Q.trace }

section
variable {P} {Q R : Plain}

namespace Near

theorem refl (P : Plain) : P.Near P := rfl

theorem trans (h₁ : P.Near Q) (h₂ : Q.Near R) : P.Near R := by
  refine Eq.trans h₂ ?_
  rw [h₁]

theorem current (h : P.Near Q) : Q.current = P.current := by rw [h]

theorem running (h : P.Near Q) : Q.running = P.running := by rw [h]

theorem modify (h : P.Near Q) (p : Pid) (f : Descriptor → Descriptor) : P.Near (Q.modify p f) := h.trans rfl

theorem emit (h : P.Near Q) (e : Event) : P.Near (Q.emit e) := h.trans rfl

theorem free (h : P.Near Q) (p : Pid) (link : Link) : P.Near (Q.free p link) := h.trans rfl

theorem wake (h : P.Near Q) (p : Pid) : P.Near (Q.wake p) := by
  unfold Plain.wake
  split
  · exact h
  · split
    · exact h
    · exact h.trans rfl

theorem cancel (h : P.Near Q) (p : Pid) : P.Near (Q.cancel p) := by
  unfold Plain.cancel
  split
  · exact h.trans rfl
  · exact h

theorem notify (h : P.Near Q) (p : Pid) (ty : MessageType) : P.Near (Q.notify p ty) := h.trans rfl

theorem setTimeout (h : P.Near Q) (p : Pid) (timeout : Option UInt32) : P.Near (Q.setTimeout p timeout) := by
  cases timeout with
  | none => exact h
  | some ms => exact h.trans rfl

theorem deliver (h : P.Near Q) (dest src : Pid) : P.Near (Q.deliver dest src) := by
  unfold Plain.deliver
  split
  · exact h
  · exact ((((h.modify src _).cancel dest).modify dest _).emit _).wake dest

theorem awaitReply (h : P.Near Q) (p : Pid) : P.Near (Q.awaitReply p) := by
  unfold Plain.awaitReply
  split
  · exact ((h.free _ _).deliver p _).wake _
  · exact h.modify p _

theorem accept (h : P.Near Q) (src : Pid) : P.Near (Q.accept src) := by
  unfold Plain.accept
  simp only
  split
  · exact (h.deliver _ _).awaitReply src
  · exact (h.deliver _ _).wake src

theorem take (h : P.Near Q) (src : Pid) : P.Near (Q.take src) := (h.free src _).accept src

theorem block (h : P.Near Q) (filter : MessageType) (timeout : Option UInt32) : P.Near (Q.block filter timeout) :=
  ((h.modify Q.current _).setTimeout Q.current timeout).emit _

theorem expire (h : P.Near Q) (p : Pid) : P.Near (Q.expire p) := ((h.emit _).notify p _).wake p

theorem expireAll (h : P.Near Q) (l : List Pid) : P.Near (l.foldl Plain.expire Q) := by
  induction l generalizing Q with
  | nil => exact h
  | cons p l ih => exact ih (h.expire p)

theorem scan (h : P.Near Q) (later : Int) : P.Near (Q.scan later) := h.trans rfl

theorem elapse (h : P.Near Q) (ms : UInt32) : P.Near (Q.elapse ms) := by
  unfold Plain.elapse
  split
  · exact h
  · split
    · exact h.trans rfl
    · exact (h.scan _).expireAll _

end Near

/-! ### What most calls leave alone -/

/-- The store and the configuration are as before, and so is whether the system was launched. -/
structure SameGround (P Q : Plain) : Prop where
  size : Q.size = P.size
  arena : Q.arena = P.arena
  frontier : Q.frontier = P.frontier
  config : Q.config = P.config
  running : Q.running = P.running

theorem SameGround.refl (P : Plain) : P.SameGround P := ⟨rfl, rfl, rfl, rfl, rfl⟩

theorem SameGround.trans (h : P.SameGround Q) (h' : Q.SameGround R) : P.SameGround R :=
  ⟨h'.size.trans h.size, h'.arena.trans h.arena, h'.frontier.trans h.frontier, h'.config.trans h.config,
    h'.running.trans h.running⟩

theorem Near.ground (h : P.Near Q) : P.SameGround Q := by
  rw [h]
  exact ⟨rfl, rfl, rfl, rfl, rfl⟩

theorem reschedule_ground (P : Plain) : P.SameGround P.reschedule := by
  show P.SameGround (P.charge.pop.run P.charge.next)
  rw [pop_eq, charge_eq]
  exact ⟨rfl, rfl, rfl, rfl, rfl⟩

theorem Near.rescheduled (h : P.Near Q) : P.SameGround Q.reschedule := h.ground.trans Q.reschedule_ground

theorem send_ground (P : Plain) (dest : Pid) (msg : Message) : P.SameGround (P.send dest msg) := by
  have hold : P.Near (P.hold msg) := rfl
  by_cases ha : (P.hold msg).accepts dest msg.ty
  · rw [send_of_accepts ha]
    exact ((hold.deliver dest P.current).wake P.current).rescheduled
  · rw [send_of_waits ha]
    exact Near.rescheduled (hold.trans rfl)

theorem sendRec_ground (P : Plain) (dest : Pid) (msg : Message) : P.SameGround (P.sendRec dest msg) := by
  have hold : P.Near (P.hold msg) := rfl
  by_cases ha : (P.hold msg).accepts dest msg.ty
  · rw [sendRec_of_accepts ha]
    exact ((hold.deliver dest P.current).awaitReply P.current).rescheduled
  · rw [sendRec_of_waits ha]
    exact Near.rescheduled (hold.trans rfl)

theorem receive_ground (P : Plain) (filter : MessageType) (timeout : Option UInt32) :
    P.SameGround (P.receive filter timeout) := by
  have hempty : P.Near P.emptied := rfl
  by_cases hi : P.takesInterrupt filter
  · rw [receive_of_interrupt hi]
    exact ((hempty.modify _ _).notify _ _).ground
  · cases hf : P.emptied.nextSender? filter with
    | some src =>
      rw [receive_of_sender hi hf]
      exact (hempty.take src).rescheduled
    | none =>
      rw [receive_of_none hi hf]
      split
      · exact (hempty.notify _ _).ground
      · exact (hempty.block filter timeout).rescheduled

theorem yield_ground (P : Plain) : P.SameGround P.yield := ((Near.refl P).wake P.current).rescheduled

theorem tick_ground (P : Plain) (ms : UInt32) : P.SameGround (P.tick ms) := by
  have hcharge : P.SameGround ({ P with uptime := P.uptime + ms.toNat } : Plain).charge := by
    rw [charge_eq]
    exact ⟨rfl, rfl, rfl, rfl, rfl⟩
  exact hcharge.trans ((Near.refl _).elapse ms).ground

theorem interrupt_ground (P : Plain) (dest : Pid) : P.SameGround (P.interrupt dest) := by
  unfold interrupt alert
  split
  · exact Near.ground ((((Near.refl _).cancel dest).notify dest .interrupt).wake dest)
  · split
    · exact Near.ground rfl
    · exact Near.ground rfl

theorem perform_ground (P : Plain) (lines : List Event) (r : Request) : P.SameGround (P.perform lines r) := by
  cases r with
  | yield => exact P.yield_ground
  | send dest msg => exact P.send_ground _ msg
  | receive filter timeout => exact P.receive_ground filter timeout
  | sendRec dest msg => exact P.sendRec_ground _ msg
  | exit => exact (((Near.refl P).modify _ _).emit _).rescheduled
  | dump => exact Near.ground rfl
  | tick ms => exact P.tick_ground ms

theorem serve_ground (P : Plain) (lines : List Event) (r : Request) : P.SameGround (P.serve lines r) := by
  have hasked : P.Near (P.asked r) := rfl
  exact hasked.ground.trans ((P.asked r).perform_ground lines r)

/-- Only the start of a process, the launch and a write to a stack change the ground. -/
theorem after_ground (P : Plain) (lines : List Event) {c : Call}
    (hstart : ∀ name size entry arg, c ≠ .start name size entry arg) (hlaunch : c ≠ .launch)
    (hpoke : ∀ p i value, c ≠ .pokeStack p i value) : P.SameGround (P.after lines c) := by
  have hsave : ∀ psp, P.SameGround (P.save psp) := fun psp => ((Near.refl P).modify _ _).ground
  cases c with
  | start name size entry arg => exact absurd rfl (hstart name size entry arg)
  | launch => exact absurd rfl hlaunch
  | pokeStack p i value => exact absurd rfl (hpoke p i value)
  | connect irq => exact ⟨rfl, rfl, rfl, rfl, rfl⟩
  | setPriority level => exact Near.ground rfl
  | serve r => exact P.serve_ground lines r
  | trap psp frame =>
    cases hd : frame.decode with
    | ok r =>
      rw [after_of_decoded hd]
      exact (hsave psp).trans ((P.save psp).serve_ground lines r)
    | error f =>
      rw [after_of_undecoded hd]
      exact .refl P
  | preempt psp => exact (hsave psp).trans (P.save psp).yield_ground
  | interrupt p => exact P.interrupt_ground p
  | interruptRequest irq =>
    cases hl : P.lines.handler irq with
    | ok p =>
      rw [after_of_handler hl]
      exact P.interrupt_ground p
    | error f =>
      rw [after_of_unhandled hl]
      exact .refl P
  | takeMessage p => exact Near.ground rfl

/-- Processes stay in the table for good, a system that was launched goes on running, and so does what was chosen at
    boot. -/
structure Grows (P Q : Plain) : Prop where
  size : P.size ≤ Q.size
  running : P.running = true → Q.running = true
  config : Q.config = P.config

theorem SameGround.grows (h : P.SameGround Q) : P.Grows Q :=
  ⟨Nat.le_of_eq h.size.symm, h.running.trans, h.config⟩

theorem launch_grows (P : Plain) : P.Grows P.launch :=
  have hground := reschedule_ground { P.emit (.launched P.size) with running := true, current := .idle }
  ⟨Nat.le_of_eq hground.size.symm, fun _ => hground.running, hground.config⟩

theorem start_grows (P : Plain) (name : String) (size : Nat) (entry arg : Word) :
    P.Grows (P.start name size entry arg) := by
  show P.Grows (P.startWith ..)
  unfold startWith
  split
  · exact ⟨Nat.le_succ _, id, rfl⟩
  · rename_i offset content _
    obtain ⟨Q, hQ⟩ : ∃ Q, Q = (P.create name (stackWords (Kernel.stackSize size))).install (Pid.ofIndex P.size)
        P.frontier offset content := ⟨_, rfl⟩
    have hcreate : P.Grows Q := hQ ▸ ⟨Nat.le_succ _, id, rfl⟩
    have hwake := ((Near.refl Q).wake (Pid.ofIndex P.size)).ground
    rw [← hQ]
    exact ⟨Nat.le_trans hcreate.size (Nat.le_of_eq hwake.size.symm), fun hr => hwake.running.trans (hcreate.running hr),
      hwake.config.trans hcreate.config⟩

theorem after_grows (P : Plain) (lines : List Event) (c : Call) : P.Grows (P.after lines c) := by
  by_cases hstart : ∃ name size entry arg, c = .start name size entry arg
  · obtain ⟨name, size, entry, arg, rfl⟩ := hstart
    exact P.start_grows name size entry arg
  · by_cases hlaunch : c = .launch
    · subst hlaunch
      exact P.launch_grows
    · by_cases hpoke : ∃ p i value, c = .pokeStack p i value
      · obtain ⟨p, i, value, rfl⟩ := hpoke
        exact ⟨Nat.le_refl _, id, rfl⟩
      · exact (P.after_ground lines (fun name size entry arg hc => hstart ⟨name, size, entry, arg, hc⟩) hlaunch
          fun p i value hc => hpoke ⟨p, i, value, hc⟩).grows

end

end Plain

end Rendezvous
