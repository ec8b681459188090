import Rendezvous.Proofs.Shows
import Rendezvous.Proofs.Sound

/-! # How a call ends

A call leads to a kernel that rests again, or a mistake of its caller halts the system. -/

namespace Rendezvous

/-- The mistakes of those who use the kernel. All other faults are checks of the kernel on itself. -/
def Fault.Misuse : Fault → Prop
  | .startAfterLaunch | .tooManyProcesses | .outOfMemory .. | .beforeLaunch _ | .badPriority _ | .noSuchIrq _
  | .unexpectedInterrupt _ | .noSuchProcess _ | .deadProcess _ | .replyViaSendrec | .unknownSyscall _
  | .missingMessage _ | .badArgument .. | .stackOverflow _ => True
  | .badState pid _ operation => pid = .idle ∧ operation = "exit"
  | .tooManyTimeouts | .alreadyQueued _ | .timeoutAlreadySet _ | .timeoutNotSet _ => False

/-- The computation leads from `P` to `Q`, which rests, or a mistake of the caller halts the kernel. -/
def Traced.Ends {α : Type} (x : Traced α) (P : Plain) (out : Kernel → α) (Q : Plain) : Prop :=
  x.Leads P out Q ∧ Q.Rests ∨ ∃ f, f.Misuse ∧ x.outcome = .error (.fault f)

namespace Traced

variable {α β : Type} {x : Traced α} {f : α → Traced β} {P Q R : Plain} {out : Kernel → α} {out' : Kernel → β}

theorem Leads.ends (h : x.Leads P out Q) (hq : Q.Rests) : x.Ends P out Q := Or.inl ⟨h, hq⟩

theorem Ends.after {a : α} (hok : x.outcome = .ok a) (htrace : Q.trace = P.trace ++ x.events)
    (hf : (f a).Ends Q out' R) : (x >>= f).Ends P out' R := by
  rcases hf with ⟨hlead, hr⟩ | ⟨e, he, hstop⟩
  · exact Or.inl ⟨Leads.after hok htrace hlead, hr⟩
  · refine Or.inr ⟨e, he, ?_⟩
    rw [outcome_bind, hok]
    exact hstop

theorem Ends.bind (hx : x.Ends P out Q) (hf : ∀ k, k.Shows Q → Q.Rests → (f (out k)).Ends Q out' R) :
    (x >>= f).Ends P out' R := by
  rcases hx with ⟨⟨k, hok, htrace, hk⟩, hq⟩ | ⟨e, he, hstop⟩
  · exact Ends.after hok htrace (hf k hk hq)
  · refine Or.inr ⟨e, he, ?_⟩
    rw [outcome_bind, hstop]
    rfl

theorem Ends.halt {k : Kernel} {e : Fault} (he : e.Misuse) : (k.halt e : Traced α).Ends P out Q := Or.inr ⟨e, he, rfl⟩

/-- A kernel that halts does not go on. -/
theorem halt_ends {k : Kernel} {e : Fault} (he : e.Misuse) (f : α → Traced β) :
    ((k.halt e : Traced α) >>= f).Ends P out' R :=
  Or.inr ⟨e, he, rfl⟩

end Traced

end Rendezvous
