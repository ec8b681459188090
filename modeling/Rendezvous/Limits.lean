/-! The fixed sizes of the system: table capacities, stack sizes and the machine word. -/

namespace Rendezvous

/-- A machine word: what a stack cell, a register or an address holds. -/
abbrev Word := UInt64

/-- Bytes of a machine word. -/
abbrev wordBytes : Nat := 8

namespace Limits

/-- Most processes the table can hold, the idle process included. -/
abbrev processes : Nat := 32

/-- Number of ready queues: one for each priority above idle. -/
abbrev levels : Nat := 3

/-- Number of interrupt lines a handler can connect to. -/
abbrev interruptLines : Nat := 32

/-- Stack size of the idle process in bytes. -/
abbrev idleStack : Nat := 128

/-- Stack size in bytes of a process started with a size of zero. -/
abbrev defaultStack : Nat := 1024

/-- Bytes of the arena that all stacks are cut from. -/
abbrev arenaBytes : Nat := 16384

/-- Words of that arena. -/
abbrev arenaWords : Nat := arenaBytes / wordBytes

/-- Longest process name kept, in bytes of UTF-8. -/
abbrev nameBytes : Nat := 15

/-- Number of payload slots of a message. -/
abbrev payloadSlots : Nat := 3

/-- The largest turn count; the counter stays there. -/
abbrev turns : Nat := 4294967295

/-- The largest number of milliseconds a deadline or the clock of the timeouts can hold. -/
abbrev millis : Int := 2147483647

/-- Bytes of one line of the process dump when it goes to the log. -/
abbrev dumpLine : Nat := 80

/-- Bytes of the stack figure within a line of the process dump. -/
abbrev stackFigure : Nat := 24

end Limits

end Rendezvous
