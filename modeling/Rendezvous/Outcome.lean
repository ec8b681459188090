import Rendezvous.Fault

/-! How an operation ends: with a value, with a fault, or stopped by an access outside a table. -/

namespace Rendezvous

/-- Why an operation gives no value. -/
inductive Stop where
  | fault (f : Fault)
  /-- An access outside a table, a stack or a payload. -/
  | outOfRange
  /-- A linked list that runs into itself. -/
  | cycle
deriving DecidableEq

/-- An operation that changes `state`, together with how it ended. The state after a refusal is
    part of the result, so that it can be compared with the state before. -/
structure Attempt (σ α : Type) where
  outcome : Except Stop α
  state : σ

namespace Attempt

variable {σ α : Type}

/-- The operation has succeeded with `value` and left `state` behind. -/
def done (value : α) (state : σ) : Attempt σ α := ⟨.ok value, state⟩

/-- The operation was refused with a fault and left `state` behind. -/
def refuse (f : Fault) (state : σ) : Attempt σ α := ⟨.error (.fault f), state⟩

/-- The operation came to a stop and left `state` behind. -/
def stop (s : Stop) (state : σ) : Attempt σ α := ⟨.error s, state⟩

end Attempt

end Rendezvous
