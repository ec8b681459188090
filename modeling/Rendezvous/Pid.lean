/-! Process identifiers: positions in the process table. -/

namespace Rendezvous

/-- Names a process by its position in the process table. -/
structure Pid where
  val : UInt16
deriving DecidableEq, Ord

namespace Pid

/-- The idle process, always the first one created. -/
def idle : Pid := ⟨0⟩

/-- The sender of messages that the kernel makes; never a process. -/
def hardware : Pid := ⟨65535⟩

/-- The position in the process table. -/
def index (pid : Pid) : Nat := pid.val.toNat

/-- The process at a position in the table. -/
def ofIndex (i : Nat) : Pid := ⟨UInt16.ofNat i⟩

/-- The register that names the process as a destination. -/
def destination (pid : Pid) : Int32 := Int32.ofNat pid.index

/-- The pid as the journal prints it. -/
def text (pid : Pid) : String :=
  if pid = hardware then "HARDWARE" else toString pid.index

instance : ToString Pid := ⟨text⟩

theorem index_ofIndex {i : Nat} (h : i < 65536) : (ofIndex i).index = i := by
  simp [index, ofIndex, Nat.mod_eq_of_lt h]

theorem ofIndex_index (pid : Pid) : ofIndex pid.index = pid := by
  simp [index, ofIndex]

theorem index_inj {a b : Pid} : a.index = b.index ↔ a = b :=
  ⟨fun h => by rw [← ofIndex_index a, h, ofIndex_index], fun h => h ▸ rfl⟩

end Pid

end Rendezvous
