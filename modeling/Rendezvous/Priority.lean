/-! Priorities, and the levels among them that own a ready queue. -/

namespace Rendezvous

/-- A level with a ready queue of its own, the most urgent first. -/
inductive Level where
  | handler
  | high
  | low
deriving DecidableEq

namespace Level

/-- All levels, the most urgent first. -/
def all : List Level := [.handler, .high, .low]

/-- The place of a level, the most urgent first. -/
def index : Level → Nat
  | .handler => 0
  | .high => 1
  | .low => 2

end Level

/-- A scheduling priority; a lower number is more urgent. -/
structure Priority where
  val : UInt8
deriving DecidableEq, Ord

namespace Priority

/-- Reserved for processes connected to an interrupt line. -/
def handler : Priority := ⟨0⟩

/-- More urgent than ordinary work. -/
def high : Priority := ⟨1⟩

/-- Ordinary work; every process starts here. -/
def low : Priority := ⟨2⟩

/-- The priority of the idle process, which runs when nobody else can. -/
def idle : Priority := ⟨3⟩

/-- The ready queue that the priority belongs to; idle and all beyond it have none. -/
def level? (p : Priority) : Option Level :=
  if p = handler then some .handler
  else if p = high then some .high
  else if p = low then some .low
  else none

instance : LT Priority := ⟨fun a b => a.val < b.val⟩
instance : LE Priority := ⟨fun a b => a.val ≤ b.val⟩

instance (a b : Priority) : Decidable (a < b) := inferInstanceAs (Decidable (a.val < b.val))
instance (a b : Priority) : Decidable (a ≤ b) := inferInstanceAs (Decidable (a.val ≤ b.val))

end Priority

end Rendezvous
