import Rendezvous.Kernel.State
import Rendezvous.Text

/-! The process dump: a heading, one line per process with its state, its stack and its name, and
    the stack space that is left. It can be had as a text or go to the journal. -/

namespace Rendezvous.Kernel

/-- The first line of a dump. -/
def dumpHeading : String := "PROCESS DUMP"

/-- The last line of a dump: the stack space that is left. -/
def dumpFooting (k : Kernel) : String := s!"free stack: {k.table.freeBytes} bytes"

/-- The pieces of a stack figure: the bytes used and owned by a process. -/
def figurePieces (k : Kernel) (p : Descriptor) : List String :=
  [toString (k.table.usedBytes p.stack), "/", toString p.stack.bytes]

/-- The stack figure of a process; it is lost if it outgrows its buffer. -/
def stackFigure? (k : Kernel) (p : Descriptor) : Option String :=
  match Text.fill Limits.stackFigure "" (k.figurePieces p) with
  | (text, true) => some text
  | (_, false) => none

/-- The pieces of the line for a process with this stack figure. -/
def linePieces (p : Descriptor) (figure : String) : List String :=
  [ Text.padStart 2 ' ' (toString p.pid.index), ": ", p.state.tag, " ",
    Text.padStart 8 '0' (Text.hex (Arena.addressOf p.stack.base).toNat),
    " stk=", Text.padEnd 9 figure, " ", p.name ]

/-- The pieces of the line for a process, if it has a stack figure. -/
def dumpPieces? (k : Kernel) (p : Descriptor) : Option (List String) :=
  (k.stackFigure? p).map (linePieces p)

/-- The dump as a text, every line ended; none if a line cannot be written. -/
def dump? (k : Kernel) : Option String := do
  let lines ← k.table.processes.mapM k.dumpPieces?
  let texts := [dumpHeading] ++ lines.map String.join ++ [k.dumpFooting]
  return String.join (texts.map (· ++ "\n"))

/-- The line for a process as the journal has it: what fits into the line buffer. -/
def dumpLine (k : Kernel) (p : Descriptor) : String :=
  (Text.fill Limits.dumpLine "" ((k.dumpPieces? p).getD [])).1

/-- Writes the dump to the journal, one record for each line. -/
def dumpToLog (k : Kernel) : Traced Unit := do
  Traced.emit (.dumped dumpHeading)
  k.table.processes.forM fun p => Traced.emit (.dumped (k.dumpLine p))
  Traced.emit (.dumped k.dumpFooting)

end Rendezvous.Kernel
