import Rendezvous.Kernel.State

/-! The place where the kernel of the system is kept between entries, and what is done to it there. -/

namespace Rendezvous

/-- Holds the kernel of the system, once there is one. -/
structure Installed where
  kernel : Option Kernel := none
deriving DecidableEq

namespace Installed

/-- Puts a kernel in place; the one that was there before is returned. -/
def install (s : Installed) (k : Kernel) : Option Kernel × Installed := (s.kernel, ⟨some k⟩)

/-- Takes the kernel out of its place. -/
def uninstall (s : Installed) : Option Kernel × Installed := (s.kernel, ⟨none⟩)

/-- Runs an operation on the kernel in place; there is no result if there is none. -/
def withKernel {α : Type} (s : Installed) (f : Kernel → Traced (α × Kernel)) :
    Traced (Option α × Installed) :=
  match s.kernel with
  | none => return (none, s)
  | some k => do
    let (a, k) ← f k
    return (some a, ⟨some k⟩)

end Installed

end Rendezvous
