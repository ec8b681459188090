import Rendezvous.Proofs.Arrivals

/-! # Who runs next

At every scheduling point the most urgent process runs that is ready, and under the first policy it is the one that has
been ready for longest. Under the second one the queues are sorted at all times. -/

namespace Rendezvous

namespace Step

/-- The kernel chooses who runs next: at the launch, at a switch of context, and in every request but those that do not
    block and take no message. -/
def Schedules (s : Step) : Prop :=
  s.call.Switches ∨ ∃ filter timeout, s.request? = some (.receive filter timeout) ∧
    ((∃ src msg, .delivered src s.before.current msg ∈ s.events) ∨ s.after.state? s.before.current = some .receiving)

end Step

/-- The process that runs is no less urgent than any that is ready, and the idle process runs only if none is. -/
structure Kernel.Urgent (k : Kernel) : Prop where
  priority : ∃ d, k.process? k.current = some d ∧
    ∀ p e l, k.process? p = some e → e.link = some (.ready l) → d.priority ≤ e.priority
  idle : k.current = .idle → ∀ p l, k.table.linkOf p ≠ some (.ready l)

/-- Up to its choice in the last step, the process that runs had been in the queue of its level for longer than all that
    are left there. -/
def Kernel.Eldest (k : Kernel) (steps : List Step) : Prop :=
  ∃ l i, k.level? k.current = some l ∧ ReadySince steps l k.current i (steps.length - 1) ∧
    ∀ q, k.table.linkOf q = some (.ready l) → ∃ i', ReadySince steps l q i' steps.length ∧ Ahead steps i k.current i' q

theorem Priority.le_of_level? {a b : Priority} {l l' : Level} (ha : a.level? = some l) (hb : b.level? = some l')
    (h : l.index ≤ l'.index) : a ≤ b := by
  have hval : ∀ {p : Priority} {l : Level}, p.level? = some l → p.val.toNat = l.index := by
    intro p l hp
    unfold level? at hp
    split at hp
    · rename_i he
      cases hp
      exact congrArg (fun p => p.val.toNat) he
    · split at hp
      · rename_i he
        cases hp
        exact congrArg (fun p => p.val.toNat) he
      · split at hp
        · rename_i he
          cases hp
          exact congrArg (fun p => p.val.toNat) he
        · cases hp
  show a.val ≤ b.val
  rw [UInt8.le_iff_toNat_le, hval ha, hval hb]
  exact h

namespace Run

variable {config : Config} {steps : List Step} {k : Kernel} {s : Step}

/-- The process that runs does not wait for a message. -/
theorem current_not_receiving (h : Run Call.Proper config steps k) : k.state? k.current ≠ some .receiving := by
  obtain ⟨P, hk, hrest⟩ := h.resting
  intro hs
  obtain ⟨d, hd, hstate⟩ := Option.map_eq_some_iff.mp hs
  have hp : P.process P.current = some d.plain := by
    rw [hk.process, hk.current, Table.plain_eq_some (show k.table.get? k.current = some d from hd)]
  by_cases hi : P.current = .idle
  · have hidle := ((hrest.sound.fits _ _ hp).idle hi).state
    rw [Descriptor.plain_state, hstate] at hidle
    cases hidle
  · have hactive := hrest.active _ hp hi
    rw [Descriptor.plain_state, hstate] at hactive
    cases hactive

/-- At a scheduling point there is a choice. -/
theorem choice_of_schedules (h : Run Call.Proper config (steps ++ [s]) k) (hs : s.Schedules)
    {ws : List Pid} {rank : Pid → Option (Option Level × Nat)} {full : Level → List Pid} (ht : s.Turnover ws rank full) :
    Choice full s.after.current s.after.line := by
  rcases ht.choice with ⟨hnone, -⟩ | ⟨-, hchoice⟩
  · obtain ⟨hgoes, hcurrent, hundelivered⟩ := ht.unpicked hnone
    have hk : k = s.after := h.lined_full.1
    rcases hs with hswitches | ⟨filter, timeout, -, ⟨src, msg, hd⟩ | hreceives⟩
    · exact absurd hswitches hgoes
    · exact absurd hd (hundelivered src _ msg)
    · rw [← hcurrent, ← hk] at hreceives
      exact absurd hreceives h.current_not_receiving
  · exact hchoice

section
variable (h : Run Call.Proper config (steps ++ [s]) s.after) {ws : List Pid} {rank : Pid → Option (Option Level × Nat)}
  {full : Level → List Pid} (ht : s.Turnover ws rank full)
include h ht

/-- A choice leaves nobody ready who is more urgent. -/
theorem urgent_of_choice (hchoice : Choice full s.after.current s.after.line) : s.after.Urgent := by
  have hlevel : ∀ p e, s.after.process? p = some e → s.after.level? p = e.priority.level? := fun p e he => by
    rw [Kernel.level?, he, Option.bind_some]
  have hready : ∀ p e l, s.after.process? p = some e → e.link = some (.ready l) → p ∈ s.after.line l := by
    intro p e l he hlink
    rw [h.linesUp, Table.linkOf_of_get? he, hlink]
  have hcurrent : (s.after.process? s.after.current).isSome := by
    obtain ⟨P, hk, hrest⟩ := h.resting
    rw [Kernel.process?, hk.get_isSome, ← hk.current]
    exact hrest.sound.current
  obtain ⟨d, hd⟩ := Option.isSome_iff_exists.mp hcurrent
  cases hchoice with
  | idle empty runs left =>
    have hnone : ∀ p l, p ∉ s.after.line l := fun p l hp => by
      rw [left, empty] at hp
      cases hp
    exact ⟨⟨d, hd, fun p e l he hlink => absurd (hready p e l he hlink) (hnone p l)⟩, fun _ p l hlink =>
      hnone p l ((h.linesUp l p).mpr hlink)⟩
  | front l rest head urgent left =>
    have hcur := ht.placed l s.after.current (head ▸ List.mem_cons_self)
    refine ⟨⟨d, hd, fun p e l' he hlink => ?_⟩, fun hi => absurd hi hcur.1⟩
    have hp := (ht.sublist l').subset (hready p e l' he hlink)
    -- All queues of more urgent levels were empty.
    have hindex : l.index ≤ l'.index := by
      by_contra hlt
      rw [urgent l' (Nat.lt_of_not_le hlt)] at hp
      cases hp
    refine Priority.le_of_level? ?_ ?_ hindex
    · rw [← hlevel _ d hd, hcur.2.2]
    · rw [← hlevel _ e he, (ht.placed l' p hp).2.2]

/-- The head of a queue that goes by arrival is its eldest member. -/
theorem eldest_of_front (hlined : Lined (steps ++ [s]) steps.length .fifo rank full) {l : Level} {rest : List Pid}
    (head : full l = s.after.current :: rest) (left : s.after.line l = rest) : s.after.Eldest (steps ++ [s]) := by
  have hlast : (steps ++ [s])[steps.length]? = some s := List.getElem?_concat_length
  have hcur : s.after.current ∈ full l := head ▸ List.mem_cons_self
  have hbound : ∀ {p i}, ReadySince (steps ++ [s]) l p i steps.length → i ≤ steps.length := by
    intro p i hp
    obtain ⟨u, hu, -⟩ := hp.enters
    have hlt := (List.getElem?_eq_some_iff.mp hu).1
    rw [List.length_append, List.length_singleton] at hlt
    exact Nat.le_of_lt_succ hlt
  have horders := hlined.orders l
  rw [head] at horders
  obtain ⟨i, hi⟩ := hlined.since l s.after.current hcur
  refine ⟨l, i, (ht.placed l _ hcur).2.2, ?_, fun q hq => ?_⟩
  · rwa [List.length_append, List.length_singleton, Nat.add_sub_cancel]
  · have hrest : q ∈ rest := left ▸ (h.linesUp l q).mpr hq
    obtain ⟨i₁, i', hcurrent, hq', hahead⟩ := (List.pairwise_cons.mp horders).1 q hrest
    obtain rfl := h.readySince_unique hi hcurrent (hbound hi) (hbound hcurrent)
    rw [List.length_append]
    exact ⟨i', hq'.next hlast hq, hahead⟩

end

end Run

/-- At every scheduling point of a run, the process that comes to run is among the most urgent ones, and under the first
    policy it is the eldest of those. -/
theorem strict_priority_at_scheduling_points {config : Config} {steps : List Step} {s : Step} {k : Kernel}
    (h : Run Call.Proper config (steps ++ [s]) k) (hs : s.Schedules) :
    k.Urgent ∧ (config.policy = .fifo → k.current ≠ .idle → k.Eldest (steps ++ [s])) := by
  obtain ⟨rfl, ws, rank, full, ht, hlined⟩ := h.lined_full
  have hchoice := h.choice_of_schedules hs ht
  refine ⟨h.urgent_of_choice ht hchoice, fun hfifo hne => ?_⟩
  rw [hfifo] at hlined
  cases hchoice with
  | idle empty runs left => exact absurd runs hne
  | front l rest head urgent left => exact h.eldest_of_front ht hlined head (by rw [left, Function.update_self])

/-- The run ends with a yield of the process that has sent the reply. -/
theorem strict_priority_at_scheduling_points_exchange : ∃ steps s, exchange.1 = steps ++ [s] ∧ s.Schedules ∧
    exchange.2.Urgent ∧ exchange.2.Eldest (steps ++ [s]) := by
  have hcall : exchange.1.getLast?.map (·.call) = some (.serve .yield) := by decide +kernel
  have hcurrent : exchange.2.current ≠ .idle := by decide +kernel
  obtain ⟨s, hlast, hs⟩ := Option.map_eq_some_iff.mp hcall
  obtain ⟨steps, hsteps⟩ := List.getLast?_eq_some_iff.mp hlast
  have hschedules : s.Schedules := by
    refine .inl ?_
    rw [hs]
    exact ⟨.yield, rfl, trivial⟩
  have hrun := exchange_run.proper
  rw [hsteps] at hrun
  obtain ⟨hurgent, heldest⟩ := strict_priority_at_scheduling_points hrun hschedules
  exact ⟨steps, s, hsteps, hschedules, hurgent, heldest rfl hcurrent⟩

/-! ### Sorted queues -/

/-- The ready queue goes from small scores to large ones, and among equals from those that have been there for longer to
    those that have come later. -/
def Kernel.Sorted (k : Kernel) (steps : List Step) (l : Level) : Prop :=
  ∃ members, k.table.chain (k.scheduler.queues.get l).head = .ok members ∧ members.Pairwise fun p q =>
    ∃ d e, k.process? p = some d ∧ k.process? q = some e ∧
      (d.score < e.score ∨ d.score = e.score ∧ Earlier steps l steps.length p q)

/-- Under the second policy, all ready queues are sorted at all times. -/
theorem scored_queues_sorted {config : Config} {steps : List Step} {k : Kernel} (h : Run Call.Proper config steps k)
    (hpolicy : config.policy = .scored) (l : Level) : k.Sorted steps l := by
  obtain ⟨P, hk, -⟩ := h.resting
  have horders := h.lined.orders l
  have hscore : ∀ p a, scoreOf k.rank p = some a → ∃ d, k.process? p = some d ∧ d.score = a := by
    intro p a ha
    rw [scoreOf, Kernel.rank, Option.map_map] at ha
    exact Option.map_eq_some_iff.mp ha
  refine ⟨k.line l, hk.line ▸ hk.chain_line l, ?_⟩
  rw [hpolicy] at horders
  refine horders.imp fun {p q} hpq => ?_
  obtain ⟨a, b, ha, hb, hab⟩ := hpq
  obtain ⟨d, hd, rfl⟩ := hscore p a ha
  obtain ⟨e, he, rfl⟩ := hscore q b hb
  exact ⟨d, e, hd, he, hab⟩

/-- Of four processes, the first one runs for a while and then gives way. -/
def rotationCalls : List Call :=
  [.start "first" 0 0 0, .start "second" 0 0 0, .start "third" 0 0 0, .start "fourth" 0 0 0, .launch, .serve (.tick 10),
    .serve .yield]

/-- What comes of it under the second policy. -/
def rotation : List Step × Kernel :=
  ((Kernel.boot (Config.withPolicy {} .scored)).follow Call.Admissible rotationCalls).get (by decide +kernel)

theorem rotation_run : Run Call.Admissible (Config.withPolicy {} .scored) rotation.1 rotation.2 :=
  Run.of_boot (Option.some_get _).symm

/-- Two processes have not run at all, and the one that has is behind them. -/
theorem scored_queues_sorted_rotation :
    rotation.2.table.chain (rotation.2.scheduler.queues.get .low).head = .ok [⟨3⟩, ⟨4⟩, ⟨1⟩] ∧
      rotation.2.Sorted rotation.1 .low := by
  refine ⟨?_, scored_queues_sorted rotation_run.proper rfl .low⟩
  decide +kernel

end Rendezvous
