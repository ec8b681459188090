import Rendezvous.Arena
import Rendezvous.Outcome

/-! The process table: descriptors and stacks, both handed out once and never taken back. -/

namespace Rendezvous

/-- The descriptors in the order of their pids, and the arena that their stacks lie in. -/
structure Table where
  processes : List Descriptor
  arena : Arena
  /-- The first word of the arena that belongs to no stack. -/
  frontier : Nat
deriving DecidableEq

/-- Words of a stack of at least `bytes` bytes; a stack has one word or more. -/
def stackWords (bytes : Nat) : Nat :=
  (max bytes wordBytes + (wordBytes - 1)) / wordBytes

namespace Table

/-- The table before the first process is created. -/
def empty : Table := ⟨[], .zero, 0⟩

/-- The number of processes. -/
def size (t : Table) : Nat := t.processes.length

/-- Whether there is no process. -/
def isEmpty (t : Table) : Bool := t.processes.isEmpty

/-- Bytes of the arena that belong to no stack. -/
def freeBytes (t : Table) : Nat := (Limits.arenaWords - t.frontier) * wordBytes

/-- Creates a process with a blank stack, next in the table and in the arena. -/
def create (t : Table) (name : String) (stackBytes : Nat) : Attempt Table Pid :=
  let words := stackWords stackBytes
  let pid := Pid.ofIndex t.size
  let region : StackRegion := ⟨t.frontier, words⟩
  if Limits.processes ≤ t.size then .refuse .tooManyProcesses t
  else if t.freeBytes < words * wordBytes then .refuse (.outOfMemory (words * wordBytes) t.freeBytes) t
  else .done pid
    { processes := t.processes ++ [Descriptor.fresh pid name region]
      arena := t.arena.clear region
      frontier := t.frontier + words }

/-- The process that a destination register names: it has to exist and be alive. -/
def lookup (t : Table) (dest : Int32) : Except Fault Pid :=
  match dest.toInt.toNat?.bind (t.processes[·]?) with
  | none => .error (.noSuchProcess dest)
  | some p => if p.isDead then .error (.deadProcess p.pid) else .ok p.pid

/-- The descriptor of a process, if it is in the table. -/
def get? (t : Table) (pid : Pid) : Option Descriptor :=
  t.processes[pid.index]?

/-- The descriptor of a process that has to be in the table. -/
def fetch (t : Table) (pid : Pid) : Except Stop Descriptor :=
  match t.get? pid with
  | some p => .ok p
  | none => .error .outOfRange

/-- The table with the descriptor of a process replaced. -/
def put (t : Table) (pid : Pid) (p : Descriptor) : Table :=
  { t with processes := t.processes.set pid.index p }

/-- The table with the descriptor of a process changed by `f`; the process has to be in the table. -/
def update (t : Table) (pid : Pid) (f : Descriptor → Descriptor) : Except Stop Table :=
  (t.fetch pid).map fun p => t.put pid (f p)

/-- The words of a process's stack, the lowest address first. -/
def stack (t : Table) (pid : Pid) : Except Stop (List Word) :=
  (t.fetch pid).map fun p => t.arena.slice p.stack

/-- Writes a word of a process's stack, counted from its lowest address. -/
def pokeStack (t : Table) (pid : Pid) (i : Nat) (value : Word) : Except Stop Table := do
  let p ← t.fetch pid
  if i < p.stack.words then return { t with arena := t.arena.set (p.stack.base + i) value }
  else throw .outOfRange

/-- Whether the guard word at the bottom of a process's stack is still blank. -/
def stackIntact (t : Table) (pid : Pid) : Except Stop Bool :=
  (t.stack pid).map fun words => words.head? = some blank

/-- Bytes of a region from the lowest word that is not blank up to the top. -/
def usedBytes (t : Table) (r : StackRegion) : Nat :=
  ((t.arena.slice r).dropWhile (· = blank)).length * wordBytes

/-- Bytes of a process's stack that were ever written, measured from the top down. -/
def stackUsed (t : Table) (pid : Pid) : Except Stop Nat :=
  (t.fetch pid).map fun p => t.usedBytes p.stack

/-- The address of a word of a process's stack. -/
def stackAddress (t : Table) (pid : Pid) (offset : Nat) : Except Stop Word :=
  (t.fetch pid).map fun p => Arena.addressOf (p.stack.base + offset)

/-! ### Looking up after a change -/

theorem get?_put_self {t : Table} {pid : Pid} (p : Descriptor) (h : pid.index < t.size) :
    (t.put pid p).get? pid = some p :=
  List.getElem?_set_self h

theorem get?_put_ne (t : Table) {pid other : Pid} (p : Descriptor) (h : other ≠ pid) :
    (t.put pid p).get? other = t.get? other := by
  have apart : pid.index ≠ other.index := fun same => h (Pid.index_inj.mp same).symm
  simp [get?, put, List.getElem?_set_ne apart]

@[simp] theorem size_put (t : Table) (pid : Pid) (p : Descriptor) : (t.put pid p).size = t.size := by
  simp [size, put]

theorem fetch_eq_ok {t : Table} {pid : Pid} {p : Descriptor} :
    t.fetch pid = .ok p ↔ t.get? pid = some p := by
  unfold fetch
  cases t.get? pid <;> simp

theorem update_eq_ok {t t' : Table} {pid : Pid} {f : Descriptor → Descriptor} :
    t.update pid f = .ok t' ↔ ∃ p, t.get? pid = some p ∧ t' = t.put pid (f p) := by
  unfold update fetch
  cases t.get? pid <;> simp [Except.map, eq_comm]

end Table

end Rendezvous
