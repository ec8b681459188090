import Rendezvous.Limits

/-! The saved frame that a process is resumed from: exception-return value and r4 to r11, then what
    the hardware stacks itself, r0 to r3, r12, lr, pc and psr. -/

namespace Rendezvous.Frame

/-- Words of a frame. -/
abbrev words : Nat := 17

/-- Exception return to thread mode on the process stack. -/
def exceptionReturn : Word := 0xfffffffd

/-- The first program status: only the Thumb bit is set. -/
def initialStatus : Word := 0x01000000

/-- The frame from which `entry` runs with `arg` in r0 and returns to `exitVector`. -/
def initial (entry arg exitVector : Word) : List Word :=
  [exceptionReturn, 0, 0, 0, 0, 0, 0, 0, 0, arg, 0, 0, 0, 0, exitVector, entry &&& ~~~1, initialStatus]

/-- The stack with a frame at its top, and the offset of that frame; none if it has no room. -/
def install? (frame stack : List Word) : Option (Nat × List Word) :=
  if frame.length ≤ stack.length then
    let offset := stack.length - frame.length
    some (offset, stack.take offset ++ frame)
  else none

end Rendezvous.Frame
