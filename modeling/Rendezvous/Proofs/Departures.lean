import Rendezvous.Proofs.Handling
import Rendezvous.Proofs.Transfer

/-! # Departures

A process that sends to another one finds it alive. It may have to wait for it, and nobody sees to it that the other
one stays: when a process exits, those in its waiting list wait on. They wait for the dead only where the one that
they wait for has exited since. -/

namespace Rendezvous

/-- Process `p` has waited in the list of `dest` since it sent a message there in step `i`, and found it alive. -/
structure WaitsSince (steps : List Step) (p dest : Pid) (i : Nat) : Prop where
  posts : ∃ s msg, steps[i]? = some s ∧ s.Posts p dest msg ∧ ∃ d, s.before.process? dest = some d ∧ d.state ≠ .dead
  waits : ∀ t s, i ≤ t → steps[t]? = some s → ∃ d, s.after.process? p = some d ∧ d.link = some (.waiting dest)

/-- Process `p` exits by a request of its own, in a step after step `i`. -/
def ExitsAfter (steps : List Step) (p : Pid) (i : Nat) : Prop :=
  ∃ j s, i < j ∧ steps[j]? = some s ∧ s.before.current = p ∧ s.request? = some .exit

section
variable {steps : List Step} {s : Step} {p dest : Pid} {i : Nat}

theorem WaitsSince.lt (h : WaitsSince steps p dest i) : i < steps.length := by
  obtain ⟨s, -, hs, -⟩ := h.posts
  exact (List.getElem?_eq_some_iff.mp hs).1

theorem WaitsSince.concat (h : WaitsSince steps p dest i) (hs : s.after.table.Suffers p (.waiting dest)) :
    WaitsSince (steps ++ [s]) p dest i := by
  obtain ⟨first, msg, hfirst, hposts⟩ := h.posts
  refine ⟨⟨first, msg, (List.getElem?_append_left h.lt).trans hfirst, hposts⟩, fun t u hit hu => ?_⟩
  rcases getElem?_of_concat hu with hu | ⟨-, rfl⟩
  · exact h.waits t u hit hu
  · exact hs

theorem ExitsAfter.concat (h : ExitsAfter steps p i) (s : Step) : ExitsAfter (steps ++ [s]) p i := by
  obtain ⟨j, u, hij, hu, hexit⟩ := h
  exact ⟨j, u, hij, (List.getElem?_append_left (List.getElem?_eq_some_iff.mp hu).1).trans hu, hexit⟩

end

/-- At first nobody waits for anyone. -/
theorem Kernel.boot_unlinked (config : Config) (p dest : Pid) : ¬(boot config).table.Suffers p (.waiting dest) := by
  rintro ⟨d, hd, hlink⟩
  obtain rfl := List.mem_singleton.mp (List.mem_of_getElem? hd)
  cases hlink

section
variable {rule : Kernel → Call → Prop} {config : Config} {steps : List Step} {k k' : Kernel} {p dest : Pid}
  {d : Descriptor} {c : Call} {answer : Answer}

/-- A process that begins to wait for another one has just sent it a message, and the other one is not dead. -/
theorem Run.waits_first (h : Run rule config steps k) (done : (k.call c).outcome = .ok (answer, k'))
    (hgrant : k.grant c p (.waiting dest)) (hw : k'.table.Suffers p (.waiting dest)) :
    WaitsSince (steps ++ [⟨k, c, answer, k'⟩]) p dest steps.length ∧ ¬k'.table.Suffers dest .dead := by
  obtain ⟨rfl, register, msg, hlookup, hrequest⟩ := hgrant
  obtain ⟨d, hd, halive⟩ := h.numbered.of_lookup hlookup
  constructor
  · refine ⟨⟨_, msg, List.getElem?_concat_length, ⟨rfl, register, hlookup, hrequest⟩, d, hd, halive⟩, ?_⟩
    intro t u ht hu
    rcases getElem?_of_concat hu with hu | ⟨-, rfl⟩
    · exact absurd (List.getElem?_eq_some_iff.mp hu).1 (Nat.not_lt.mpr ht)
    · exact hw
  · intro hdead
    rcases h.spares done dest .dead hdead with ⟨e, he, hdead⟩ | ⟨-, hexit⟩
    · obtain rfl := Option.some_inj.mp (hd.symm.trans he)
      exact halive hdead
    · rcases hrequest with hrequest | hrequest <;> cases hexit.symm.trans hrequest

/-- A process that waits on goes on to wait for one that is alive, unless that one exits now or has exited since. -/
theorem Run.waits_on (h : Run rule config steps k) (done : (k.call c).outcome = .ok (answer, k')) {i : Nat}
    (hi : WaitsSince steps p dest i) (hexits : k.table.Suffers dest .dead → ExitsAfter steps dest i)
    (hdead : k'.table.Suffers dest .dead) : ExitsAfter (steps ++ [⟨k, c, answer, k'⟩]) dest i := by
  rcases h.spares done dest .dead hdead with hdead | ⟨hcurrent, hexit⟩
  · exact (hexits hdead).concat _
  · exact ⟨steps.length, _, hi.lt, List.getElem?_concat_length, hcurrent.symm, hexit⟩

theorem Run.waits_since (h : Run rule config steps k) (hw : k.table.Suffers p (.waiting dest)) :
    ∃ i, WaitsSince steps p dest i ∧ (k.table.Suffers dest .dead → ExitsAfter steps dest i) := by
  induction h with
  | boot => exact absurd hw (Kernel.boot_unlinked config p dest)
  | call before _ done ih =>
    -- It waited there before the call, or the call has put it there.
    rcases before.spares done p (.waiting dest) hw with hold | hgrant
    · obtain ⟨i, hi, hexits⟩ := ih hold
      exact ⟨i, hi.concat hw, before.waits_on done hi hexits⟩
    · obtain ⟨hfirst, halive⟩ := before.waits_first done hgrant hw
      exact ⟨_, hfirst, fun hdead => absurd hdead halive⟩

/-- A process in the waiting list of another one has been there since it sent that one a message and found it alive,
    and if that one is dead now, then it has exited since, by itself. The callers may make any calls. -/
theorem waits_for_dead_since_exit (h : Run rule config steps k) (hp : k.process? p = some d)
    (hlink : d.link = some (.waiting dest)) :
    ∃ i, WaitsSince steps p dest i ∧ (k.state? dest = some .dead → ExitsAfter steps dest i) := by
  obtain ⟨i, hi, hexits⟩ := h.waits_since ⟨d, hp, hlink⟩
  exact ⟨i, hi, fun hdead => hexits (Option.map_eq_some_iff.mp hdead)⟩

end

/-- A process sends a message to another one, which exits. -/
def departedCalls : List Call :=
  [.start "a" 0 0 0, .start "b" 0 0 0, .launch, .serve (.send 2 (.new ⟨16⟩)), .serve .exit]

/-- What comes of the sender that the other one leaves behind. -/
def departed : List Step × Kernel := ((Kernel.boot {}).follow Call.Admissible departedCalls).get (by decide +kernel)

theorem departed_run : Run Call.Admissible {} departed.1 departed.2 := Run.of_boot (Option.some_get _).symm

/-- The sender is left blocked in the list of the dead process. -/
theorem departed_sender : ∃ d, departed.2.process? ⟨1⟩ = some d ∧ d.state = .sending ∧
    d.link = some (.waiting ⟨2⟩) ∧ departed.2.state? ⟨2⟩ = some .dead := by
  have hsender : (departed.2.process? ⟨1⟩).map (fun d => (d.state, d.link)) =
      some (.sending, some (.waiting ⟨2⟩)) := by decide +kernel
  obtain ⟨d, hd, hparts⟩ := Option.map_eq_some_iff.mp hsender
  obtain ⟨hstate, hlink⟩ := Prod.mk.inj hparts
  exact ⟨d, hd, hstate, hlink, by decide +kernel⟩

theorem waits_for_dead_since_exit_departed :
    ∃ i, WaitsSince departed.1 ⟨1⟩ ⟨2⟩ i ∧ ExitsAfter departed.1 ⟨2⟩ i := by
  obtain ⟨d, hd, -, hlink, hdead⟩ := departed_sender
  obtain ⟨i, hi, hexits⟩ := waits_for_dead_since_exit departed_run hd hlink
  exact ⟨i, hi, hexits hdead⟩

/-- Senders do wait for the dead. -/
theorem sender_left_by_departed : ¬∀ (config : Config) (steps : List Step) (k : Kernel) (p dest : Pid)
    (d : Descriptor), Run Call.Admissible config steps k → k.process? p = some d →
      d.state = .sending ∨ d.state = .sendRec → d.link = some (.waiting dest) → k.state? dest ≠ some .dead := by
  intro h
  obtain ⟨d, hd, hstate, hlink, hdead⟩ := departed_sender
  exact h {} departed.1 departed.2 ⟨1⟩ ⟨2⟩ d departed_run hd (.inl hstate) hlink hdead

end Rendezvous
