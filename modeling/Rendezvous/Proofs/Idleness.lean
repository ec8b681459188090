import Rendezvous.Proofs.Queues

/-! # The idle process

As long as the idle process neither blocks nor sets anything for itself, it idles: it is there to run when no other
process can, and it is in no list. The kernel does not see to it that it does nothing else. -/

namespace Rendezvous

/-- The idle process idles, outside all lists and without a deadline. -/
structure Kernel.Idles (k : Kernel) : Prop where
  descriptor : ∃ d, k.process? .idle = some d ∧ Idle d
  unqueued : ∀ link, ∃ members,
    k.table.chain (heads k.scheduler.queues k.table.waitingOf link) = .ok members ∧ .idle ∉ members
  untimed : .idle ∉ k.timeouts.entries

theorem Kernel.Shows.idles {k : Kernel} {P : Plain} (h : k.Shows P) (hrest : P.Rests) : k.Idles := by
  obtain ⟨_, hplain⟩ := Option.isSome_iff_exists.mp ((hrest.sound.known .idle).mpr hrest.sound.inhabited)
  obtain ⟨d, hd, rfl⟩ := h.get hplain
  obtain ⟨state, priority, link, deadline⟩ := (hrest.sound.fits .idle d.plain hplain).idle rfl
  refine ⟨⟨d, hd, state, priority, link, deadline⟩, fun l => ?_, fun hentry => ?_⟩
  · have hlist := h.2.holds l
    refine ⟨P.queue l, hlist.walk, fun hmem => ?_⟩
    have hlink := (hlist.member .idle).mp hmem
    rw [Table.linkOf, hd] at hlink
    cases link.symm.trans hlink
  · rw [← h.timeouts] at hentry
    obtain ⟨e, he, hdeadline⟩ := (hrest.sound.entry .idle).mp hentry
    obtain rfl := Option.some_inj.mp (hplain.symm.trans he)
    rw [deadline] at hdeadline
    cases hdeadline

/-- The idle process idles in every run in which it only gives way, lets time pass and dumps. -/
theorem idle_stays_idle {config : Config} {steps : List Step} {k : Kernel} (h : Run Call.Proper config steps k) :
    k.Idles := by
  obtain ⟨P, hk, hrest⟩ := h.resting
  exact hk.idles hrest

theorem idle_stays_idle_exchange : exchange.2.Idles := idle_stays_idle exchange_run.proper

/-- Launch comes once, and requests and switches of context come after it. -/
def Call.InOrder (k : Kernel) : Call → Prop
  | .launch => k.running = false
  | .serve _ | .trap .. | .preempt _ => k.running = true
  | _ => True

instance (k : Kernel) : (c : Call) → Decidable (c.InOrder k)
  | .launch => inferInstanceAs (Decidable (k.running = false))
  | .serve _ | .trap .. | .preempt _ => inferInstanceAs (Decidable (k.running = true))
  | .start .. | .connect _ | .setPriority _ | .interrupt _ | .interruptRequest _ | .takeMessage _ | .pokeStack .. =>
    .isTrue trivial

/-- A handler waits for its interrupt; the idle process sets its own priority and is preempted. -/
def promotedCalls : List Call :=
  [.start "h" 0 0 0, .launch, .connect 0, .serve (.receive .any none), .setPriority .high, .interruptRequest 0,
    .preempt 0]

/-- What comes of the idle process with a priority of its own. -/
def promoted : List Step × Kernel := ((Kernel.boot {}).follow Call.InOrder promotedCalls).get (by decide +kernel)

/-- Nothing but its callers keeps the idle process from being queued like any other process. -/
theorem promoted_idle_queued : ¬∀ (config : Config) (steps : List Step) (k : Kernel),
    Run Call.InOrder config steps k → k.Idles := by
  intro h
  have hidles := h {} promoted.1 promoted.2 (Run.of_boot (Option.some_get _).symm)
  have hqueued : (promoted.2.process? .idle).map (fun d => (d.state, d.priority, d.link)) =
      some (.active, .high, some (.ready .high)) := by decide +kernel
  obtain ⟨d, hd, hidle⟩ := hidles.descriptor
  rw [hd, Option.map_some, hidle.state] at hqueued
  cases hqueued

end Rendezvous
