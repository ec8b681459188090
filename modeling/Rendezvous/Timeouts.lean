import Rendezvous.Table

/-! Receive timeouts. A deadline counts from the last full scan, and `ticks` is the time since that
    scan; a scan is due once the earliest deadline has passed. A timeout fires on the tick after it
    has become due, so with regular ticks none fires early. -/

namespace Rendezvous

/-- Milliseconds as the timeouts count them, which stop at a largest value. -/
def saturate (ms : Int) : Int := min ms Limits.millis

/-- The registry: who has a deadline, the time since the last scan, and when to scan next. -/
structure Timeouts where
  entries : List Pid := []
  /-- Milliseconds since the last scan. -/
  ticks : Int := 0
  /-- A lower bound of all deadlines; negative if one was passed and has not fired. -/
  nextDue : Option Int := none
deriving DecidableEq

/-- The list with its last member moved to position `i`, in place of the member there. -/
def swapRemove {α : Type} (l : List α) (i : Nat) : List α :=
  match l.getLast? with
  | none => []
  | some last => (l.set i last).dropLast

namespace Timeouts

/-- The number of processes with a deadline. -/
def size (r : Timeouts) : Nat := r.entries.length

/-- Whether no process has a deadline. -/
def isEmpty (r : Timeouts) : Bool := r.entries.isEmpty

/-- Whether a process is registered. -/
def contains (r : Timeouts) (pid : Pid) : Bool := r.entries.contains pid

/-- The earlier of a deadline and the one known so far. -/
def earlier (due : Int) (known : Option Int) : Option Int :=
  match known with
  | some k => if due < k then some due else some k
  | none => some due

/-- Registers a process with a deadline `ms` milliseconds from now. -/
def set (r : Timeouts) (t : Table) (pid : Pid) (ms : UInt32) : Attempt (Timeouts × Table) Unit :=
  match t.get? pid with
  | none => .stop .outOfRange (r, t)
  | some p =>
    if p.deadline.isSome then .refuse (.timeoutAlreadySet pid) (r, t)
    else if Limits.processes ≤ r.size then .refuse .tooManyTimeouts (r, t)
    else
      let due := saturate (r.ticks + saturate ms.toNat)
      .done () ({ r with entries := r.entries ++ [pid], nextDue := earlier due r.nextDue },
        t.put pid { p with deadline := some due })

/-- Takes a process and its deadline out of the registry. -/
def cancel (r : Timeouts) (t : Table) (pid : Pid) : Attempt (Timeouts × Table) Unit :=
  match t.get? pid with
  | none => .stop .outOfRange (r, t)
  | some p =>
    if p.deadline.isNone then .refuse (.timeoutNotSet pid) (r, t)
    else
      let t := t.put pid { p with deadline := none }
      match r.entries.idxOf? pid with
      | none => .refuse (.timeoutNotSet pid) (r, t)
      | some i =>
        let entries := swapRemove r.entries i
        if entries.isEmpty then .done () ({}, t) else .done () ({ r with entries := entries }, t)

/-- A scan in progress: the entries that stay, those that have expired, the earliest deadline among
    the former, and the table. -/
structure Scan where
  kept : List Pid
  expired : List Pid
  earliest : Option Int
  table : Table

/-- Scans one entry: a deadline not passed at `now` is counted from `later` on, any other expires. -/
def Scan.visit (now later : Int) (s : Scan) (pid : Pid) : Except Stop Scan := do
  let remaining := (← s.table.fetch pid).deadline.bind fun d => if now ≤ d then some (d - later) else none
  let table ← s.table.update pid fun p => { p with deadline := remaining }
  match remaining with
  | some left =>
    return { s with kept := s.kept ++ [pid], earliest := earlier left s.earliest, table := table }
  | none => return { s with expired := s.expired ++ [pid], table := table }

/-- Lets `ms` milliseconds pass. The processes returned have timed out and are no longer in the
    registry. -/
def tick (r : Timeouts) (t : Table) (ms : UInt32) : Except Stop (List Pid × Timeouts × Table) :=
  let later := saturate (r.ticks + saturate ms.toNat)
  match r.nextDue with
  | none => return ([], r, t)
  | some due =>
    if r.ticks ≤ due then return ([], { r with ticks := later }, t)
    else do
      let s ← r.entries.foldlM (Scan.visit r.ticks later) ⟨[], [], none, t⟩
      return (s.expired, ⟨s.kept, 0, s.earliest⟩, s.table)

end Timeouts

end Rendezvous
