import Rendezvous.Outcome

/-! Interrupt lines and the processes that handle them. An interrupt on a line without a handler is
    a fault. -/

namespace Rendezvous

/-- The handler of each line, if it has one. -/
structure InterruptLines where
  handlers : Vector (Option Pid) Limits.interruptLines := Vector.replicate _ none
deriving DecidableEq

namespace InterruptLines

/-- The line of that number, if there is one. -/
def line? (irq : Int32) : Option (Fin Limits.interruptLines) :=
  irq.toInt.toNat?.bind fun i => if h : i < Limits.interruptLines then some ⟨i, h⟩ else none

/-- Makes a process the handler of a line, in place of an earlier one. -/
def connect (l : InterruptLines) (irq : Int32) (pid : Pid) : Attempt InterruptLines Unit :=
  match line? irq with
  | none => .refuse (.noSuchIrq irq) l
  | some i => .done () { l with handlers := l.handlers.set i (some pid) }

/-- The handler of a line; an interrupt that has none is a fault. -/
def handler (l : InterruptLines) (irq : Int32) : Except Fault Pid :=
  match (line? irq).bind fun i => l.handlers[i] with
  | none => .error (.unexpectedInterrupt irq)
  | some pid => .ok pid

end InterruptLines

end Rendezvous
