import Rendezvous.Limits

/-! The choices that are made at boot. -/

namespace Rendezvous

/-- How a ready queue is ordered. -/
inductive Policy where
  | fifo
  /-- By average run time per turn, the smallest first, and by arrival among equals. -/
  | scored
deriving DecidableEq

/-- What is chosen at boot, and the defaults. -/
structure Config where
  policy : Policy := .fifo
  /-- The address that a process body returns to. -/
  exitVector : Word := 0
deriving DecidableEq

namespace Config

/-- The same choices with another policy. -/
def withPolicy (c : Config) (policy : Policy) : Config := { c with policy := policy }

/-- The same choices with another exit vector. -/
def withExitVector (c : Config) (addr : Word) : Config := { c with exitVector := addr }

end Config

end Rendezvous
